import Portty.App.AutoApprove

/-!
# Approval cards (`App.tsx`)

The phone's list of approval cards, its decisions on them and the host that waits for them. A card
is matched by session and `tool_call_id`; the host may use both again for a later request.

* **A decision** is a promise: `permission_decision` puts a frame into the queue of the link, and
  then the phone's callback runs, or the command fails and the other callback runs. In between the
  host can receive the frame, and the phone its answer.
* **`autoDecided`** are the keys of decisions. A card under such a key is taken for one that is
  shown again.
* **Frames to the phone** wait in a queue and on the wire. `attach` writes past the queue.
* **`no`** numbers the requests of the host. No frame has it.
-/

namespace Portty

namespace Cards

open Policy Timeline AutoApprove Permission

/-- A request by its session and tool call. -/
abbrev Key := Nat × String

/-- A request as the phone has it: the host can ask twice with one key. -/
structure Card where
  no : Nat
  request : AgentPermission
  /-- The link on which it was delivered. -/
  connection : Nat := 0
  deriving DecidableEq

namespace Card

variable (card : Card)

/-- The key of a card. -/
def key : Key := (card.request.id, card.request.toolCallId)

/-- The two are one request. -/
def Same (other : Card) : Prop := card.no = other.no ∧ card.key = other.key

instance (other : Card) : Decidable (card.Same other) := inferInstanceAs (Decidable (_ ∧ _))

end Card

/-- Why an entry is in the log. -/
inductive DecisionSource where
  | auto
  | manualAllow
  | manualReject
  | learnedExact
  | resolvedElsewhere
  deriving DecidableEq

/-- How far a decision is. -/
inductive Status where
  | sending
  /-- The frame is in the queue of the link. -/
  | enqueued
  /-- `then` has run. -/
  | landed
  /-- `catch` has run. -/
  | failed
  deriving DecidableEq

/-- A decision of the phone, and what became of its call. -/
structure Decision where
  card : Card
  optionId : Option String
  source : DecisionSource
  /-- `none` is `"exact"`. -/
  policy : Option PolicyTier
  /-- What the decision was made on. -/
  category : PermissionCategory
  input : Option String
  status : Status
  deriving DecidableEq

/-- An entry of the log, with the card that it is about. -/
structure DecisionLogEntry where
  card : Card
  category : PermissionCategory
  policy : Option PolicyTier
  source : DecisionSource
  input : Option String
  resolution : Option PermissionResolution
  resolvedBy : Option PermissionResolver
  deriving DecidableEq

/-- What the app shows and keeps. -/
structure Ui where
  phone : Phone
  permissions : List Card := []
  /-- All decisions, in the order in which they were made. -/
  decisions : List Decision := []
  decisionLog : List DecisionLogEntry := []

namespace Ui

variable (js : Js) (ui : Ui)

/-- The tier of a session. -/
def effectiveTier (id : Nat) : PolicyTier :=
  (ui.phone.policy.sessionOverrides.lookup id).getD ui.phone.policy.tier

/-- The category of a card by the timeline. -/
def category (card : Card) : PermissionCategory :=
  permissionCategory card.request (ui.phone.agentEvents card.request.id)

/-- The input of a card by the timeline. -/
def input (card : Card) : Option String :=
  permissionToolInput js card.request (ui.phone.agentEvents card.request.id)

/-- The category and the input are those of now. -/
def logDecision (card : Card) (source : DecisionSource) (policy : Option PolicyTier)
    (external : Option (PermissionResolution × PermissionResolver)) : Ui :=
  let entry : DecisionLogEntry :=
    { card, category := ui.category card, policy, source, input := ui.input js card
      resolution := external.map (·.1), resolvedBy := external.map (·.2) }
  { ui with decisionLog := (entry :: ui.decisionLog).take 200 }

/-- The phone remembers that it answers this one. -/
def addAutoDecided (key : Key) : Ui :=
  { ui with phone := { ui.phone with autoDecided := key :: ui.phone.autoDecided } }

/-- The phone forgets it. -/
def deleteAutoDecided (key : Key) : Ui :=
  { ui with phone := { ui.phone with autoDecided := ui.phone.autoDecided.filter (· ≠ key) } }

/-- `permissionDecision` is called. -/
def call (card : Card) (optionId : Option String) (source : DecisionSource)
    (policy : Option PolicyTier) : Ui :=
  { ui with
    decisions := ui.decisions ++
      [{ card, optionId, source, policy, category := ui.category card, input := ui.input js card
         status := .sending }] }

/-- The cards that `samePermission` tells from this one. -/
def dismiss (key : Key) : Ui :=
  { ui with permissions := ui.permissions.filter (·.key ≠ key) }

/-- The user taps an option, or dismisses the card. Any option counts as allowed in the log. -/
def decidePermission (card : Card) (optionId : Option String) : Ui :=
  (ui.dismiss card.key).call js card optionId
    (if optionId = none then .manualReject else .manualAllow)
    (some (ui.effectiveTier card.request.id))

/-- The user allows the operation for good, if it can have a rule. -/
def learnExactPermission (card : Card) : Ui :=
  match learnExactAllowRule js ui.phone.policy (ui.category card) card.request.title
      (ui.input js card), card.request.options.find? (·.kind = .allowOnce) with
  | some _, some option =>
    (ui.dismiss card.key).call js card (some option.optionId) .learnedExact none
  | _, _ => ui

/-- The tier that the log says an automatic decision is from. -/
def autoPolicy (card : Card) : Option PolicyTier :=
  if hasExactAllowRule js ui.phone.policy (ui.category card) card.request.title (ui.input js card) then
    none
  else some (ui.effectiveTier card.request.id)

/-- A card arrives: it is answered, shown, or was answered before. -/
def onPermission (card : Card) : Ui :=
  match ui.phone.maybeAutoApprove js card.request with
  | .replay => ui
  | .prompt =>
    let ui' := ui.dismiss card.key
    { ui' with permissions := ui'.permissions ++ [card] }
  | .allow optionId =>
    (ui.addAutoDecided card.key).call js card (some optionId) .auto (ui.autoPolicy js card)

/-- The call of a decision goes on. -/
def setStatus (i : Nat) (status : Status) : Ui :=
  { ui with decisions := ui.decisions.modify i fun d => { d with status } }

/-- `then` of the decision. A learned rule goes into the policy of now. -/
def landed (i : Nat) : Ui :=
  match ui.decisions[i]? with
  | none => ui
  | some d =>
    if d.status ≠ .enqueued then ui
    else
      let ui' := ui.setStatus i .landed
      match d.source with
      | .auto => ui'.logDecision js d.card .auto d.policy none
      | .learnedExact =>
        let marked := ui'.addAutoDecided d.card.key
        let learned :=
          match learnExactAllowRule js marked.phone.policy d.category d.card.request.title d.input with
          | none => marked
          | some next => { marked with phone := marked.phone.changePolicy js next }
        learned.logDecision js d.card .learnedExact none none
      | source => (ui'.addAutoDecided d.card.key).logDecision js d.card source d.policy none

/-- `catch` of the decision. -/
def rejected (i : Nat) : Ui :=
  match ui.decisions[i]? with
  | none => ui
  | some d =>
    if d.status ≠ .sending then ui
    else
      let ui' := ui.setStatus i .failed
      let ui' := if d.source = .auto then ui'.deleteAutoDecided d.card.key else ui'
      if ui'.permissions.any (·.key = d.card.key) then ui'
      else { ui' with permissions := ui'.permissions ++ [d.card] }

/-- The host says that a card is resolved; one that the phone did not decide is logged. -/
def onPermissionResolved (key : Key) (resolution : PermissionResolution)
    (resolver : PermissionResolver) : Ui :=
  let wasOurs := ui.phone.autoDecided.contains key
  let ui' := ui.deleteAutoDecided key
  let logged :=
    match ui.permissions.find? (·.key = key) with
    | none => ui'
    | some pending =>
      if wasOurs then ui'
      else ui'.logDecision js pending .resolvedElsewhere (some (ui.effectiveTier key.1))
        (some (resolution, resolver))
  logged.dismiss key

/-- A session is shown from the start, and its cards come again. -/
def onAgentSnapshot (id : Nat) (batch : List AgentTimelineEvent) : Ui :=
  { ui with
    permissions := ui.permissions.filter (·.request.id ≠ id)
    phone := { ui.phone with
      agentEvents := Function.update ui.phone.agentEvents id
        (mergeAgentBatch (ui.phone.agentEvents id) batch) } }

/-- A session is gone with its cards. -/
def onRemoved (id : Nat) : Ui :=
  { ui with
    permissions := ui.permissions.filter (·.request.id ≠ id)
    phone := ui.phone.removeSession js id }

/-- Without the link there are no cards, and no decisions of its own to remember. -/
def onLinkLost : Ui :=
  { ui with
    permissions := []
    phone := { ui.phone with paired := false, autoDecided := [] }.resetPolicyToLoading }

end Ui

/-- What the host sends. -/
inductive Frame where
  | permission (card : Card)
  | resolved (card : Card) (resolution : PermissionResolution) (resolver : PermissionResolver)
  | snapshot (id : Nat) (batch : List AgentTimelineEvent)
  | removed (id : Nat)
  deriving DecidableEq

/-- The session of the frame. -/
def Frame.session : Frame → Nat
  | .permission card | .resolved card .. => card.request.id
  | .snapshot id _ | .removed id => id

/-- A card that was answered. -/
structure Resolution where
  card : Card
  /-- The decision of this phone that was applied; `none` if another viewer or the host resolved it.
  -/
  decision : Option Nat
  deriving DecidableEq

/-- The app, the host with its requests, and the link between them. -/
structure World where
  ui : Ui
  /-- The requests that wait at the host. -/
  pending : List Card := []
  next : Nat := 0
  link : Option Nat := none
  links : Nat := 0
  wire : List Frame := []
  queue : List Frame := []
  /-- The decisions that are on the way to the host. -/
  up : List Nat := []
  /-- The requests that were delivered on this link. -/
  delivered : List Card := []
  resolutions : List Resolution := []

/-- What happens at the host, on the link and in the app. -/
inductive Event where
  /-- The agent asks. `lost` if the events of the host run past this viewer. -/
  | raise (request : AgentPermission) (lost : Bool)
  /-- Another viewer answers. -/
  | answer (key : Key) (optionId : Option String) (resolver : PermissionResolver) (lost : Bool)
  /-- The turn is cancelled. -/
  | cancel (key : Key) (lost : Bool)
  /-- The request times out. No viewer is told. -/
  | expire (key : Key)
  | removeSession (id : Nat) (lost : Bool)
  /-- The phone opens the session. -/
  | attach (id : Nat) (batch : List AgentTimelineEvent)
  /-- The host notices that it has lost events. -/
  | resync (id : Nat) (batch : List AgentTimelineEvent)
  | write
  | deliver
  /-- The host takes a decision of this phone. -/
  | receive (lost : Bool)
  | decide (card : Card) (optionId : Option String)
  | learn (card : Card)
  | enqueue (i : Nat)
  | landed (i : Nat)
  | rejected (i : Nat)
  /-- What else happens to the policy and the timelines. -/
  | environment (policyHost : Option HostId) (policy : ApprovalPolicy)
      (agentEvents : Nat → List AgentTimelineEvent)
  | linkLost
  | connect

namespace World

variable (js : Js) (w : World)

/-- An event of the host for this viewer. -/
def emit (frame : Frame) (lost : Bool) : World :=
  if lost ∨ w.link = none then w else { w with queue := w.queue ++ [frame] }

/-- A request under the same key is dropped. -/
def raise (request : AgentPermission) (lost : Bool) : World :=
  let card : Card := { no := w.next, request }
  let w' : World := { w with
    pending := w.pending.filter (·.key ≠ card.key) ++ [card]
    next := w.next + 1 }
  w'.emit (.permission card) lost

/-- The request leaves the host, and the viewers are told. -/
def settle (card : Card) (decision : Option Nat) (resolution : PermissionResolution)
    (resolver : PermissionResolver) (lost : Bool) : World :=
  let w' : World := { w with
    pending := w.pending.filter (·.key ≠ card.key)
    resolutions := w.resolutions ++ [{ card, decision : Resolution }] }
  w'.emit (.resolved card resolution resolver) lost

/-- `resolve_permission` for the request under the key. -/
def resolve (key : Key) (optionId : Option String) (resolver : PermissionResolver)
    (decision : Option Nat) (lost : Bool) : World :=
  match w.pending.find? (·.key = key) with
  | none => w
  | some card =>
    w.settle card decision (permissionOutcome optionId card.request.options).2 resolver lost

/-- `cancel_pending_permissions` for the request under the key. -/
def cancel (key : Key) (lost : Bool) : World :=
  match w.pending.find? (·.key = key) with
  | none => w
  | some card => w.settle card none .cancelled .system lost

/-- The snapshot of a session, and its cards. -/
def replay (id : Nat) (batch : List AgentTimelineEvent) : List Frame :=
  .snapshot id batch :: (w.pending.filter (·.request.id = id)).map .permission

/-- The phone takes a frame. -/
def onFrame (connection : Nat) : Frame → World
  | .permission card =>
    { w with
      ui := w.ui.onPermission js { card with connection }
      delivered := card :: w.delivered }
  | .resolved card resolution resolver =>
    { w with ui := w.ui.onPermissionResolved js card.key resolution resolver }
  | .snapshot id batch => { w with ui := w.ui.onAgentSnapshot id batch }
  | .removed id => { w with ui := w.ui.onRemoved js id }

/-- One event. -/
def step (ev : Event) : World :=
  match ev with
  | .raise request lost => w.raise request lost
  | .answer key optionId resolver lost => w.resolve key optionId resolver none lost
  | .cancel key lost => w.cancel key lost
  | .expire key => { w with pending := w.pending.filter (·.key ≠ key) }
  | .removeSession id lost =>
    { w with pending := w.pending.filter (·.request.id ≠ id) }.emit (.removed id) lost
  | .attach id batch =>
    if w.link = none then w else { w with wire := w.wire ++ w.replay id batch }
  | .resync id batch =>
    if w.link = none then w else { w with queue := w.queue ++ w.replay id batch }
  | .write =>
    match w.queue with
    | [] => w
    | frame :: queue => { w with wire := w.wire ++ [frame], queue }
  | .deliver =>
    match w.link, w.wire with
    | some connection, frame :: wire => { w with wire }.onFrame js connection frame
    | _, _ => w
  | .receive lost =>
    match w.up with
    | [] => w
    | i :: up =>
      match w.ui.decisions[i]? with
      | none => { w with up }
      | some d => { w with up }.resolve d.card.key d.optionId .phone (some i) lost
  | .decide card optionId =>
    if card ∈ w.ui.permissions then { w with ui := w.ui.decidePermission js card optionId } else w
  | .learn card =>
    if card ∈ w.ui.permissions then { w with ui := w.ui.learnExactPermission js card } else w
  | .enqueue i =>
    match w.ui.decisions[i]? with
    | none => w
    | some d =>
      if d.status = .sending ∧ w.link = some d.card.connection then
        { w with ui := w.ui.setStatus i .enqueued, up := w.up ++ [i] }
      else w
  | .landed i => { w with ui := w.ui.landed js i }
  | .rejected i => { w with ui := w.ui.rejected i }
  | .environment policyHost policy agentEvents =>
    { w with ui := { w.ui with phone := { w.ui.phone with policyHost, policy, agentEvents } } }
  | .linkLost =>
    { w with ui := w.ui.onLinkLost, link := none, wire := [], queue := [], up := [], delivered := [] }
  | .connect =>
    if w.link = none then
      { w with
        link := some w.links, links := w.links + 1
        wire := w.pending.map .permission, queue := [], up := [], delivered := [] }
    else w

end World

/-- Nothing has happened yet. -/
def start (stored : Option HostId → Option ApprovalPolicy) : World :=
  { ui := { phone := { stored } } }

/-- A request to run a command. -/
def runRequest : AgentPermission where
  id := 1
  toolCallId := "call_0"
  title := "Run tests"
  options := [{ optionId := "once", name := "Allow", kind := .allowOnce },
    { optionId := "no", name := "Reject", kind := .rejectOnce }]
  category := some .execute
  workspaceScope := some .project

/-- The request is raised, shown and allowed by the user, and the host applies the decision. -/
def allowedRun : List Event :=
  [.connect, .environment (some "laptop") defaultPolicy fun _ => [], .raise runRequest false, .write,
    .deliver, .decide { no := 0, request := runRequest } (some "once"), .enqueue 0, .receive false,
    .write]

end Cards

end Portty
