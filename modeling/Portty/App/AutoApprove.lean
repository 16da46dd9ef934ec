import Mathlib.Logic.Function.Basic
import Portty.App.Timeline
import Portty.Lib.Run

/-!
# Automatic approvals (`App.tsx`)

The phone, the hosts it is paired with and the link between them. A host has a log for each session
and starts again with empty logs and the same numbers when it is restarted. The phone keeps its
lists of events by session id. `doPair` and `doReconnect` clear them (`resetForHostChange`);
`tryAutoReconnect` after a link that was lost keeps them.

A step is one event of the phone's event loop, of a host or of the link:

* **Connecting** has three points: the old link is dropped, the new one is there, the policy of the
  selected host is loaded. Only then it is over. Links can be lost at any point.
* **`owner`** is the host and its run that the current or last link led to.

`auto_approvals_judged`: what `maybeAutoApprove` allows, the policy allows for the category and the
input that this run of the host has delivered for this session, as long as an automatic reconnect
that keeps lists leads to the run they are from.
-/

namespace Portty

namespace AutoApprove

open Policy Timeline

/-- The key under which the policy of a host is stored. -/
abbrev HostId := String

/-- A host with the timelines of its sessions. -/
structure Host where
  /-- The number of restarts. -/
  run : Nat := 0
  logs : Nat → Log := fun _ => {}

/-- The calls of the app that make a link. -/
inductive ConnectOp where
  | doPair
  /-- To the host that was picked, or the last one. -/
  | doReconnect (host : Option HostId)
  | tryAutoReconnect
  deriving DecidableEq

/-- A connect that is under way, and whether it has got its link. -/
structure Connecting where
  op : ConnectOp
  /-- The new link was there. -/
  linked : Bool := false
  deriving DecidableEq

/-- What the app has of the host that it shows. -/
structure Phone where
  agentEvents : Nat → List AgentTimelineEvent := fun _ => []
  policy : ApprovalPolicy := defaultPolicy
  /-- `none` is `"unpaired"`. -/
  policyHost : Option HostId := none
  autoDecided : List (Nat × String) := []
  paired : Bool := false
  connecting : Option Connecting := none
  /-- The policies in `localStorage`. -/
  stored : Option HostId → Option ApprovalPolicy

/-- The hosts, the app and the link between them. -/
structure World where
  hosts : HostId → Host := fun _ => {}
  phone : Phone
  link : Option HostId := none
  /-- `last_host` of the peer store. -/
  lastHost : Option HostId := none
  owner : Option (HostId × Nat) := none

namespace Phone

variable (js : Js) (p : Phone)

/-- The stored policy of a host, or the default one. -/
def loadPolicy (host : Option HostId) : ApprovalPolicy :=
  persistentPolicy js ((p.stored host).getD defaultPolicy)

/-- Till a policy is loaded the default one is there, for no host. -/
def resetPolicyToLoading : Phone := { p with policyHost := none, policy := defaultPolicy }

/-- The policy of a host takes effect. -/
def selectPolicyHost (key : Option HostId) : Phone :=
  { p with policyHost := key, policy := p.loadPolicy js key }

/-- A new policy takes effect and is stored for its host. -/
def changePolicy (next : ApprovalPolicy) : Phone :=
  { p with
    policy := next
    stored := Function.update p.stored p.policyHost (some (persistentPolicy js next)) }

/-- Timelines and answers of the old host are forgotten. -/
def resetForHostChange : Phone :=
  { p with paired := false, agentEvents := fun _ => [], autoDecided := [] }.resetPolicyToLoading

/-- `onRemoved` -/
def removeSession (id : Nat) : Phone :=
  let p' := { p with agentEvents := Function.update p.agentEvents id [] }
  if (p.policy.sessionOverrides.lookup id).isSome then
    p'.changePolicy js
      { p.policy with sessionOverrides := p.policy.sessionOverrides.erase id }
  else p'

/-- What the app does with a request. -/
inductive Verdict where
  | prompt
  /-- The decision was already sent. -/
  | replay
  | allow (optionId : String)
  deriving DecidableEq

/-- Without a policy the user is asked; a request that was answered is not answered again. -/
def maybeAutoApprove (request : AgentPermission) : Verdict :=
  if p.policyHost = none then .prompt
  else if (request.id, request.toolCallId) ∈ p.autoDecided then .replay
  else
    let events := p.agentEvents request.id
    let category := permissionCategory request events
    let input := permissionToolInput js request events
    if policyAllows js p.policy request.id category request.title input request.workspaceScope then
      match request.options.find? (·.kind = .allowOnce) with
      | none => .prompt
      | some option => .allow option.optionId
    else .prompt

/-- `onPermission` -/
def onPermission (request : AgentPermission) : Phone :=
  match p.maybeAutoApprove js request with
  | .allow _ => { p with autoDecided := (request.id, request.toolCallId) :: p.autoDecided }
  | .prompt | .replay => p

end Phone

/-- What happens at the hosts, on the link and in the app. -/
inductive Event where
  | emit (host : HostId) (id : Nat) (event : AgentEvent)
  | restart (host : HostId)
  /-- An `AgentTimeline` frame. -/
  | live (id seq : Nat)
  /-- An `AgentSnapshot` frame. -/
  | snapshot (id since upto : Nat)
  /-- A `SessionRemoved` frame. -/
  | removed (id : Nat)
  | permission (request : AgentPermission)
  /-- A person has decided. -/
  | decided (id : Nat) (toolCallId : String)
  /-- A decision did not reach the host, or the host has told the viewers of one. -/
  | settled (id : Nat) (toolCallId : String)
  | changePolicy (next : ApprovalPolicy)
  | linkLost
  /-- One of the operations starts. -/
  | connect (op : ConnectOp)
  /-- The link is there. `saved` if the peer store could write the last host. -/
  | linked (host : HostId) (saved : Bool)
  /-- The core lists the hosts, or none if that fails. -/
  | selectPolicyHost (listed : List HostId)
  | connected (ok : Bool)
  /-- A host was removed from the peer store, and another one is the last. -/
  | forgotten (last : Option HostId)
  /-- The app starts again. -/
  | launch

namespace World

variable (js : Js) (w : World)

/-- A host goes on. -/
def updateHost (host : HostId) (f : Host → Host) : World :=
  { w with hosts := Function.update w.hosts host (f (w.hosts host)) }

/-- A timeline of a host goes on. -/
def updateLog (host : HostId) (id : Nat) (f : Log → Log) : World :=
  w.updateHost host fun h => { h with logs := Function.update h.logs id (f (h.logs id)) }

/-- `portty://agent-event` and `portty://agent-snapshot` -/
def deliver (host : HostId) (id : Nat) (batch : List AgentTimelineEvent) : World :=
  { w.updateLog host id fun l => l.deliver batch with
    phone := { w.phone with
      agentEvents := Function.update w.phone.agentEvents id
        (mergeAgentBatch (w.phone.agentEvents id) batch) } }

/-- The operation can lead to this host. -/
def dials (op : ConnectOp) (host : HostId) : Bool :=
  match op with
  | .doPair => true
  | .doReconnect (some picked) => picked = host
  | .doReconnect none | .tryAutoReconnect => w.lastHost = some host

/-- The host whose policy `selectPolicyHost` loads: the one that was picked, or the last one. -/
def selected (op : ConnectOp) (listed : List HostId) : Option HostId :=
  let last := w.lastHost.filter (· ∈ listed)
  match op with
  | .doReconnect (some picked) => if picked ∈ listed then some picked else last
  | .doPair | .doReconnect none | .tryAutoReconnect => last

/-- `onLinkLost`. A running operation settles the state itself. -/
def linkLost : World :=
  { w with
    link := none
    phone :=
      if w.phone.connecting.isSome then w.phone
      else { w.phone with paired := false, autoDecided := [] }.resetPolicyToLoading }

/-- The start of an operation, up to the new link. -/
def connect (op : ConnectOp) : World :=
  if w.phone.connecting.isSome then w
  else if op = .tryAutoReconnect then
    if w.phone.paired then w
    else { w with
      link := none
      phone := { w.phone with connecting := some { op } }.resetPolicyToLoading }
  else { w with
    link := none
    phone := { w.phone with connecting := some { op } }.resetForHostChange }

/-- A link is made, and the host cuts its timelines for the new viewer. -/
def linkTo (op : ConnectOp) (host : HostId) (saved : Bool) : World :=
  { w.updateHost host fun h => { h with logs := fun id => (h.logs id).cut } with
    link := some host
    lastHost := if saved then some host else w.lastHost
    owner := some (host, (w.hosts host).run)
    phone := { w.phone with connecting := some { op, linked := true } } }

/-- One event. -/
def step (ev : Event) : World :=
  match ev with
  | .emit host id event => w.updateLog host id fun l => l.emit event
  | .restart host =>
    { w.updateHost host fun h => { run := h.run + 1 } with
      link := if w.link = some host then none else w.link }
  | .live id seq =>
    match w.link with
    | none => w
    | some host =>
      let l := (w.hosts host).logs id
      match l.entries.find? (·.seq = seq) with
      | none => w
      | some x => if l.base < seq then w.deliver host id [x] else w
  | .snapshot id since upto =>
    match w.link with
    | none => w
    | some host =>
      let l := (w.hosts host).logs id
      if l.base ≤ upto then w.deliver host id (l.snapshot since upto) else w
  | .removed id =>
    match w.link with
    | none => w
    | some host => { w.updateLog host id Log.cut with phone := w.phone.removeSession js id }
  | .permission request =>
    match w.link with
    | none => w
    | some _ => { w with phone := w.phone.onPermission js request }
  | .decided id toolCallId =>
    { w with phone := { w.phone with autoDecided := (id, toolCallId) :: w.phone.autoDecided } }
  | .settled id toolCallId =>
    { w with phone := { w.phone with
        autoDecided := w.phone.autoDecided.filter (· ≠ (id, toolCallId)) } }
  | .changePolicy next => { w with phone := w.phone.changePolicy js next }
  | .linkLost => w.linkLost
  | .connect op => w.connect op
  | .linked host saved =>
    match w.phone.connecting with
    | some { op, linked := false } => if w.dials op host then w.linkTo op host saved else w
    | _ => w
  | .selectPolicyHost listed =>
    match w.phone.connecting with
    | some { op, linked := true } =>
      { w with phone := w.phone.selectPolicyHost js (w.selected op listed) }
    | _ => w
  | .connected ok =>
    match w.phone.connecting with
    | none => w
    | some c =>
      { w with phone := { w.phone with
          connecting := none, paired := (ok && c.linked) || w.phone.paired } }
  | .forgotten last => { w with lastHost := last }
  | .launch => { w with link := none, phone := { stored := w.phone.stored } }

end World

/-- An app with stored policies and no link. -/
def start (stored : Option HostId → Option ApprovalPolicy) (lastHost : Option HostId) : World :=
  { phone := { stored }, lastHost }

/-! ## The condition and the result -/

/-- An automatic reconnect leads to the run of the host that the phone's lists are from, if it has
any. -/
def SameRun (w : World) (ev : Event) : Prop :=
  match ev with
  | .linked host _ => w.phone.connecting = some { op := .tryAutoReconnect } →
      w.owner = some (host, (w.hosts host).run) ∨ ∀ id, w.phone.agentEvents id = []
  | _ => True

/-- What is allowed without asking, the policy of the selected host allows for what the host at the
other end of the link has delivered for the session in this run. -/
def Judged (js : Js) (w : World) (ev : Event) : Prop :=
  ∀ request optionId host, ev = .permission request → w.link = some host →
    w.phone.maybeAutoApprove js request = .allow optionId →
    let own := ((w.hosts host).logs request.id).own
    (∃ selected, w.phone.policyHost = some selected ∧
      persistentPolicy js w.phone.policy = w.phone.loadPolicy js (some selected)) ∧
    policyAllows js w.phone.policy request.id (permissionCategory request own) request.title
      (permissionToolInput js request own) request.workspaceScope = true

/-! ## The link and the lists -/

/-- What the lists are worth.

* The link leads to the owner. The owner's run is not ahead of the host.
* An operation that cleared the lists has none until the new link is there.
* While the owner has not restarted, the lists are what it has delivered, or there are none and they
  wait for the next link. -/
structure Inv (w : World) : Prop where
  delivered : ∀ host id, ((w.hosts host).logs id).Delivered
  linked : ∀ host, w.link = some host → w.owner = some (host, (w.hosts host).run)
  older : ∀ host run, w.owner = some (host, run) → run ≤ (w.hosts host).run
  dialing : ∀ op, w.phone.connecting = some { op } →
    w.link = none ∧ (op ≠ .tryAutoReconnect → ∀ id, w.phone.agentEvents id = [])
  lists : ∀ host, w.owner = some (host, (w.hosts host).run) →
    (w.link = none ∧ ∀ id, w.phone.agentEvents id = []) ∨
      ∀ id, Faithful ((w.hosts host).logs id) (w.phone.agentEvents id)

variable {js : Js} {w : World} {p : Phone}

theorem inv_start (stored : Option HostId → Option ApprovalPolicy) (lastHost : Option HostId) :
    Inv (start stored lastHost) where
  delivered host id := by simp [start, Log.Delivered]
  linked host h := by simp [start] at h
  older host run h := by simp [start] at h
  dialing op h := by simp [start] at h
  lists host h := by simp [start] at h

/-- While the link is there, the lists are what the host has delivered. -/
theorem Inv.faithful (h : Inv w) {host : HostId} (hl : w.link = some host) (id : Nat) :
    Faithful ((w.hosts host).logs id) (w.phone.agentEvents id) := by
  obtain ⟨hn, -⟩ | hf := h.lists host (h.linked host hl)
  · rw [hn] at hl
    cases hl
  · exact hf id

/-- The phone changes something else. -/
theorem Inv.phone (h : Inv w) (last : Option HostId) (he : p.agentEvents = w.phone.agentEvents)
    (hc : ∀ op, p.connecting = some { op } → w.phone.connecting = some { op }) :
    Inv { w with phone := p, lastHost := last } where
  delivered := h.delivered
  linked := h.linked
  older := h.older
  dialing op hop := by simpa only [he] using h.dialing op (hc op hop)
  lists host ho := by simpa only [he] using h.lists host ho

/-- The link is gone, and the lists are kept. -/
theorem Inv.unlink (h : Inv w) (he : p.agentEvents = w.phone.agentEvents)
    (hc : ∀ op, op ≠ .tryAutoReconnect → p.connecting = some { op } →
      w.phone.connecting = some { op }) :
    Inv { w with link := none, phone := p } where
  delivered := h.delivered
  linked host hl := by cases hl
  older := h.older
  dialing op hop := by
    refine ⟨rfl, fun hne => ?_⟩
    simpa only [he] using (h.dialing op (hc op hne hop)).2 hne
  lists host ho := (h.lists host ho).imp (fun hn => ⟨rfl, by simpa only [he] using hn.2⟩)
    fun hf => by simpa only [he] using hf

/-- The link is gone, and the lists are cleared. -/
theorem Inv.clear (h : Inv w) (he : ∀ id, p.agentEvents id = []) :
    Inv { w with link := none, phone := p } where
  delivered := h.delivered
  linked host hl := by cases hl
  older := h.older
  dialing op hop := ⟨rfl, fun _ => he⟩
  lists host ho := .inl ⟨rfl, he⟩

theorem updateLog_run (host : HostId) (id : Nat) (f : Log → Log) (host' : HostId) :
    ((w.updateLog host id f).hosts host').run = (w.hosts host').run := by
  by_cases hh : host' = host
  · subst hh
    simp [World.updateLog, World.updateHost]
  · simp [World.updateLog, World.updateHost, hh]

theorem updateLog_logs (host : HostId) (id : Nat) (f : Log → Log) (host' : HostId) (id' : Nat) :
    ((w.updateLog host id f).hosts host').logs id' =
      if host' = host ∧ id' = id then f ((w.hosts host).logs id) else (w.hosts host').logs id' := by
  by_cases hh : host' = host
  · subst hh
    by_cases hi : id' = id
    · subst hi
      simp [World.updateLog, World.updateHost]
    · simp [World.updateLog, World.updateHost, hi]
  · simp [World.updateLog, World.updateHost, hh]

/-- The log of a session grows, and so may the list of the phone. -/
theorem Inv.log (h : Inv w) (host : HostId) (id : Nat) {f : Log → Log}
    (hd : (f ((w.hosts host).logs id)).Delivered)
    (hc : p.connecting = w.phone.connecting)
    (he : ∀ id', id' ≠ id → p.agentEvents id' = w.phone.agentEvents id')
    (hn : w.link ≠ some host → p.agentEvents id = w.phone.agentEvents id)
    (hf : Faithful ((w.hosts host).logs id) (w.phone.agentEvents id) →
      Faithful (f ((w.hosts host).logs id)) (p.agentEvents id)) :
    Inv { w.updateLog host id f with phone := p } := by
  -- Without the link to the host no list changes.
  have hsame : w.link ≠ some host → ∀ id', p.agentEvents id' = w.phone.agentEvents id' := by
    intro hl id'
    by_cases hi : id' = id
    · rw [hi, hn hl]
    · exact he id' hi
  refine ⟨fun host' id' => ?_, fun host' hl => ?_, fun host' run ho => ?_, fun op hop => ?_,
    fun host' ho => ?_⟩
  · simp only [updateLog_logs]
    split
    · exact hd
    · exact h.delivered host' id'
  · simp only [updateLog_run]
    exact h.linked host' hl
  · simp only [updateLog_run]
    exact h.older host' run ho
  · obtain ⟨hl, hempty⟩ := h.dialing op (hc ▸ hop)
    refine ⟨hl, fun hne id' => ?_⟩
    exact (hsame (by simp [hl]) id').trans (hempty hne id')
  · simp only [updateLog_run] at ho
    simp only [updateLog_logs]
    refine (h.lists host' ho).imp (fun hempty => ?_) fun hfaith id' => ?_
    · refine ⟨hempty.1, fun id' => ?_⟩
      exact (hsame (by simp [hempty.1]) id').trans (hempty.2 id')
    · split
      · next heq =>
        obtain ⟨rfl, rfl⟩ := heq
        exact hf (hfaith id')
      · next hne =>
        suffices heq : p.agentEvents id' = w.phone.agentEvents id' from heq ▸ hfaith id'
        by_cases hi : id' = id
        · refine hsame (fun hl => hne ⟨?_, hi⟩) id'
          have hpair := Option.some.inj ((show w.owner = _ from ho).symm.trans (h.linked host hl))
          exact congrArg Prod.fst hpair
        · exact he id' hi

theorem Inv.deliver (h : Inv w) {host : HostId} {id : Nat} {batch : List AgentTimelineEvent}
    (hl : w.link = some host) (hb : Batch ((w.hosts host).logs id) batch) :
    Inv (w.deliver host id batch) := by
  refine h.log host id (hb.delivered (h.delivered host id)) rfl (fun id' hi => ?_) (fun hn => absurd hl hn)
    fun hf => ?_
  · exact Function.update_of_ne hi _ _
  · simpa using hf.merge hb

/-- After a restart the lists of the host are those of an earlier run. -/
theorem Inv.restart (h : Inv w) (host : HostId) : Inv (w.step js (.restart host)) := by
  have hrun : ∀ host', ((w.step js (.restart host)).hosts host').run =
      if host' = host then (w.hosts host).run + 1 else (w.hosts host').run := by
    intro host'
    by_cases hh : host' = host
    · subst hh
      simp [World.step, World.updateHost]
    · simp [World.step, World.updateHost, hh]
  have hlogs : ∀ host', host' ≠ host →
      (w.step js (.restart host)).hosts host' = w.hosts host' := fun host' hh =>
    Function.update_of_ne hh _ _
  have hlink : ∀ host', (w.step js (.restart host)).link = some host' →
      host' ≠ host ∧ w.link = some host' := by
    intro host' hl
    simp only [World.step] at hl
    split at hl
    · cases hl
    · next hne =>
      refine ⟨?_, hl⟩
      rintro rfl
      exact hne hl
  refine ⟨fun host' id => ?_, fun host' hl => ?_, fun host' run ho => ?_, fun op hop => ?_,
    fun host' ho => ?_⟩
  · by_cases hh : host' = host
    · subst hh
      simp [World.step, World.updateHost, Log.Delivered]
    · rw [hlogs host' hh]
      exact h.delivered host' id
  · obtain ⟨hne, hl⟩ := hlink host' hl
    rw [hlogs host' hne]
    exact h.linked host' hl
  · have := h.older host' run ho
    rw [hrun]
    split
    · next heq =>
      subst heq
      omega
    · exact this
  · obtain ⟨hl, hempty⟩ := h.dialing op hop
    refine ⟨?_, hempty⟩
    simp [World.step, hl]
  · by_cases hh : host' = host
    · -- The lists are from an earlier run now.
      have := h.older host' _ ho
      rw [hrun, if_pos hh] at this
      subst hh
      omega
    · rw [hlogs host' hh] at ho ⊢
      refine (h.lists host' ho).imp_left fun hempty => ⟨?_, hempty.2⟩
      simp [World.step, hempty.1]

/-- The new link, to a host whose lists the phone has, or with no lists. -/
theorem Inv.linkTo (h : Inv w) {op : ConnectOp} {host : HostId} (saved : Bool)
    (hs : (w.owner = some (host, (w.hosts host).run)) ∨ ∀ id, w.phone.agentEvents id = []) :
    Inv (w.linkTo op host saved) := by
  have hrun : ∀ host', ((w.linkTo op host saved).hosts host').run = (w.hosts host').run := by
    intro host'
    by_cases hh : host' = host
    · subst hh
      simp [World.linkTo, World.updateHost]
    · simp [World.linkTo, World.updateHost, hh]
  have hself : ∀ id, ((w.linkTo op host saved).hosts host).logs id =
      ((w.hosts host).logs id).cut := fun id => by
    simp [World.linkTo, World.updateHost]
  have hempty : (∀ id, w.phone.agentEvents id = []) → ∀ id,
      Faithful (((w.hosts host).logs id).cut) (w.phone.agentEvents id) := fun he id => by
    rw [he id]
    exact Faithful.cut_nil (h.delivered host id)
  have hfaith : ∀ id, Faithful (((w.hosts host).logs id).cut) (w.phone.agentEvents id) := by
    obtain ho | he := hs
    · obtain ⟨-, he⟩ | hf := h.lists host ho
      · exact hempty he
      · exact fun id => (hf id).cut
    · exact hempty he
  refine ⟨fun host' id => ?_, fun host' hl => ?_, fun host' run ho => ?_, fun op' hop => ?_,
    fun host' ho => .inr fun id => ?_⟩
  · by_cases hh : host' = host
    · subst hh
      rw [hself]
      exact h.delivered host' id
    · have hlog : (w.linkTo op host saved).hosts host' = w.hosts host' :=
        Function.update_of_ne hh _ _
      rw [hlog]
      exact h.delivered host' id
  · obtain rfl : host = host' := Option.some.inj hl
    rw [hrun]
    rfl
  · obtain ⟨rfl, rfl⟩ : host = host' ∧ (w.hosts host).run = run := by
      simpa [World.linkTo] using ho
    rw [hrun]
  · simp [World.linkTo] at hop
  · obtain ⟨rfl, -⟩ : host = host' ∧ _ := by
      simpa [World.linkTo] using ho
    rw [hself]
    exact hfaith id

theorem Inv.linkLost (h : Inv w) : Inv w.linkLost := by
  refine h.unlink ?_ fun op _ hop => ?_
  · split <;> rfl
  · split at hop
    · exact hop
    · next hc =>
      have hop : w.phone.connecting = some { op } := hop
      simp [hop] at hc

/-- A connect by hand clears the lists; a reconnect keeps them. -/
theorem Inv.connect (h : Inv w) (op : ConnectOp) : Inv (w.connect op) := by
  unfold World.connect
  split
  · exact h
  · split
    · next hauto =>
      split
      · exact h
      · refine h.unlink rfl fun op' hne hop => ?_
        obtain rfl : op = op' := by
          simpa [Phone.resetPolicyToLoading] using hop
        exact absurd hauto hne
    · exact h.clear fun id => rfl

theorem onPermission_frame (js : Js) (p : Phone) (request : AgentPermission) :
    (p.onPermission js request).agentEvents = p.agentEvents ∧
      (p.onPermission js request).connecting = p.connecting := by
  unfold Phone.onPermission
  split <;> exact ⟨rfl, rfl⟩

theorem removeSession_frame (js : Js) (p : Phone) (id : Nat) :
    (p.removeSession js id).agentEvents = Function.update p.agentEvents id [] ∧
      (p.removeSession js id).connecting = p.connecting := by
  unfold Phone.removeSession
  split <;> exact ⟨rfl, rfl⟩

/-- One event. A link to a restarted host finds the lists cleared. -/
theorem Inv.step (h : Inv w) (ev : Event) (hs : SameRun w ev) : Inv (w.step js ev) := by
  cases ev with
  | emit host id event =>
    refine h.log host id (f := fun l => l.emit event) ?_ rfl (fun _ _ => rfl) (fun _ => rfl)
      fun hf => hf.emit event
    intro n hn
    have := h.delivered host id n hn
    simp only [Log.emit, List.length_append, List.length_singleton]
    omega
  | restart host => exact h.restart host
  | live id seq =>
    simp only [World.step]
    split
    · exact h
    · next host hl =>
      split
      · exact h
      · next x hx =>
        split
        · next hb =>
          have hseq : x.seq = seq := by simpa using List.find?_some hx
          exact h.deliver hl (Log.batch_live (List.mem_of_find?_eq_some hx) (hseq ▸ hb))
        · exact h
  | snapshot id since upto =>
    simp only [World.step]
    split
    · exact h
    · next host hl =>
      split
      · next hb => exact h.deliver hl (Log.batch_snapshot hb)
      · exact h
  | removed id =>
    simp only [World.step]
    split
    · exact h
    · next host hl =>
      obtain ⟨he, hc⟩ := removeSession_frame js w.phone id
      refine h.log host id (h.delivered host id) hc (fun id' hi => ?_) (fun hn => absurd hl hn) fun _ => ?_
      · rw [he, Function.update_of_ne hi]
      · rw [he, Function.update_self]
        exact Faithful.cut_nil (h.delivered host id)
  | permission request =>
    simp only [World.step]
    split
    · exact h
    · obtain ⟨he, hc⟩ := onPermission_frame js w.phone request
      exact h.phone w.lastHost he fun op hop => hc ▸ hop
  | decided id toolCallId => exact h.phone w.lastHost rfl fun op hop => hop
  | settled id toolCallId => exact h.phone w.lastHost rfl fun op hop => hop
  | changePolicy next => exact h.phone w.lastHost rfl fun op hop => hop
  | linkLost => exact h.linkLost
  | connect op => exact h.connect op
  | linked host saved =>
    simp only [World.step]
    split
    · next op hop =>
      split
      · refine h.linkTo saved ?_
        by_cases hauto : op = .tryAutoReconnect
        · exact hs (hauto ▸ hop)
        · exact .inr ((h.dialing op hop).2 hauto)
      · exact h
    · exact h
  | selectPolicyHost listed =>
    simp only [World.step]
    split
    · exact h.phone w.lastHost rfl fun op hop => hop
    · exact h
  | connected ok =>
    simp only [World.step]
    split
    · exact h
    · exact h.phone w.lastHost rfl fun op hop => by cases hop
  | forgotten last => exact h.phone last rfl fun op hop => hop
  | launch => exact h.clear fun id => rfl

/-! ## The policy -/

/-- The policy in memory is the stored one of the selected host, up to the overrides of sessions. -/
def Phone.Loaded (js : Js) (p : Phone) : Prop :=
  ∀ host, p.policyHost = some host →
    persistentPolicy js p.policy = p.loadPolicy js (some host)

theorem loaded_of_none (h : p.policyHost = none) : p.Loaded js := by
  intro host hh
  rw [h] at hh
  cases hh

theorem loaded_selectPolicyHost (js : Js) (p : Phone) (key : Option HostId) :
    (p.selectPolicyHost js key).Loaded js := by
  rintro host rfl
  exact persistentPolicy_idem _

theorem loaded_changePolicy (js : Js) (p : Phone) (next : ApprovalPolicy) :
    (p.changePolicy js next).Loaded js := by
  intro host hh
  have hh : p.policyHost = some host := hh
  simp [Phone.changePolicy, Phone.loadPolicy, hh]

/-- What is in memory was stored, or loaded from the store. -/
theorem Phone.Loaded.step (h : w.phone.Loaded js) (ev : Event) :
    (w.step js ev).phone.Loaded js := by
  cases ev with
  | emit host id event => exact h
  | restart host => exact h
  | live id seq =>
    simp only [World.step]
    split
    · exact h
    · split
      · exact h
      · split <;> exact h
  | snapshot id since upto =>
    simp only [World.step]
    split
    · exact h
    · split <;> exact h
  | removed id =>
    simp only [World.step]
    split
    · exact h
    · simp only [Phone.removeSession]
      split
      · exact loaded_changePolicy _ _ _
      · exact h
  | permission request =>
    simp only [World.step]
    split
    · exact h
    · simp only [Phone.onPermission]
      split <;> exact h
  | decided id toolCallId => exact h
  | settled id toolCallId => exact h
  | changePolicy next => exact loaded_changePolicy _ _ _
  | linkLost =>
    simp only [World.step, World.linkLost]
    split
    · exact h
    · exact loaded_of_none rfl
  | connect op =>
    simp only [World.step, World.connect]
    split
    · exact h
    · split
      · split
        · exact h
        · exact loaded_of_none rfl
      · exact loaded_of_none rfl
  | linked host saved =>
    simp only [World.step]
    split
    · split <;> exact h
    · exact h
  | selectPolicyHost listed =>
    simp only [World.step]
    split
    · exact loaded_selectPolicyHost _ _ _
    · exact h
  | connected ok =>
    simp only [World.step]
    split <;> exact h
  | forgotten last => exact h
  | launch => exact loaded_of_none rfl

/-! ## Approvals -/

theorem maybeAutoApprove_allow {request : AgentPermission} {optionId : String}
    (h : p.maybeAutoApprove js request = .allow optionId) :
    (∃ selected, p.policyHost = some selected) ∧
      policyAllows js p.policy request.id (permissionCategory request (p.agentEvents request.id))
        request.title (permissionToolInput js request (p.agentEvents request.id))
        request.workspaceScope = true := by
  unfold Phone.maybeAutoApprove at h
  split at h
  · cases h
  · next hhost =>
    split at h
    · cases h
    · dsimp only at h
      refine ⟨Option.ne_none_iff_exists'.mp hhost, ?_⟩
      by_contra hp
      rw [if_neg hp] at h
      cases h

theorem Inv.judged (h : Inv w) (hp : w.phone.Loaded js) (ev : Event) : Judged js w ev := by
  intro request optionId host _ hl ha own
  obtain ⟨⟨selected, hsel⟩, hallow⟩ := maybeAutoApprove_allow ha
  refine ⟨⟨selected, hsel, hp selected hsel⟩, ?_⟩
  have hf := h.faithful hl request.id
  obtain ⟨input, hi⟩ := Option.isSome_iff_exists.mp (policyAllows_input hallow)
  rw [hf.permissionCategory (policyAllows_category hallow), hf.permissionToolInput hi, ← hi]
  exact hallow

/-- In every run in which an automatic reconnect that keeps lists leads to the run of the host they
are from, every automatic approval is judged on what that run has delivered for the session. -/
theorem auto_approvals_judged (js : Js) (stored : Option HostId → Option ApprovalPolicy)
    (lastHost : Option HostId) (evs : List Event)
    (h : Run.Along (World.step js) SameRun (start stored lastHost) evs) :
    Run.Along (World.step js) (Judged js) (start stored lastHost) evs :=
  h.of_invariant (I := fun w => Inv w ∧ w.phone.Loaded js)
    ⟨inv_start stored lastHost, loaded_of_none rfl⟩
    (fun _ ev hw hs => ⟨hw.1.step ev hs, hw.2.step ev⟩)
    fun _ ev hw _ => hw.1.judged hw.2 ev

/-- JSON texts that are a list of one file name, without escapes. -/
def fileNameJs : Js where
  parse text :=
    let name := String.ofList (text.toList.drop 2).dropLast.dropLast
    if text = "[\"" ++ name ++ "\"]" ∧ name.toList.all fun c => c.isAlphanum || c = '.' then
      some (.arr [.str name])
    else none
  stringify
    | .arr [.str name] => "[\"" ++ name ++ "\"]"
    | _ => ""
  toLowerCase text := String.ofList (text.toList.map Char.toLower)

/-- A request to read a file. The request does not say which. -/
def readRequest : AgentPermission :=
  { id := 1, toolCallId := "call_0", title := "Read file"
    options := [{ optionId := "once", name := "Allow", kind := .allowOnce }]
    category := some .read, workspaceScope := some .project }

/-- A tool call that reads. -/
def readCall (detail : String) : AgentEvent := .toolCall "call_0" .read (some detail)

/-- The phone connects by hand and gets the timeline of a session. -/
def connectedRun (events : List AgentEvent) : List Event :=
  [.connect (.doReconnect none), .linked "laptop" true, .selectPolicyHost ["laptop"],
    .connected true] ++ events.map (.emit "laptop" 1) ++ [.snapshot 1 1 events.length]

/-- The link is lost, and the phone connects again by itself. -/
def reconnectedRun : List Event :=
  [.linkLost, .connect .tryAutoReconnect, .linked "laptop" true, .selectPolicyHost ["laptop"],
    .connected true]

/-- A phone that knows one host, with the default policy. -/
def oneHost : World := start (fun _ => none) (some "laptop")

theorem auto_approvals_judged_reconnect :
    let evs := connectedRun [readCall "[\"README.md\"]"] ++ reconnectedRun
    Run.Along (World.step fileNameJs) (Judged fileNameJs) oneHost (evs ++ [.permission readRequest]) ∧
      (Run.run (World.step fileNameJs) oneHost evs).phone.maybeAutoApprove fileNameJs readRequest =
        .allow "once" := by
  refine ⟨auto_approvals_judged _ _ _ _ ?_, by decide +kernel⟩
  refine ⟨trivial, ?_, trivial, trivial, trivial, trivial, trivial, trivial, ?_, trivial, trivial,
    trivial, trivial⟩
  · exact fun _ => .inr fun _ => rfl
  · exact fun _ => .inl rfl

/-- The old run of the host has read `README.md` under the number 2. The new run wants to read
`.env` under the number 1, and is judged by what the phone has kept. -/
def restartedRun : List Event :=
  connectedRun [.other, readCall "[\"README.md\"]"] ++ [.restart "laptop"] ++ reconnectedRun ++
    [.emit "laptop" 1 (readCall "[\".env\"]"), .snapshot 1 1 1]

theorem not_auto_approvals_judged :
    ¬ Run.Along (World.step fileNameJs) (Judged fileNameJs) oneHost
      (restartedRun ++ [.permission readRequest]) := by
  intro h
  have hallow : (Run.run (World.step fileNameJs) oneHost restartedRun).phone.maybeAutoApprove
      fileNameJs readRequest = .allow "once" := by decide +kernel
  have hlink : (Run.run (World.step fileNameJs) oneHost restartedRun).link = some "laptop" := by
    decide +kernel
  obtain ⟨-, hp⟩ := h.step readRequest "once" "laptop" rfl hlink hallow
  revert hp
  decide +kernel

end AutoApprove

end Portty
