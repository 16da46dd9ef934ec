import Mathlib.Data.List.AList
import Portty.Lib.Run
import Portty.Lib.Table

/-!
# Permission requests of an agent (`session.rs`)

The handler of `session/request_permission` in `run_acp_session`, the map of pending permissions,
and what answers them: `resolve_permission`, `cancel_pending_permissions`, the timeout and `kill`.

A handler is a task of its own. A step is what it does between two points where another task can
come in: it checks the request, registers it in the map, announces the card, wakes up with a
decision or at the timeout, cleans the map up, and responds. A viewer's decision, a cancel and a
kill are one step each. The order in which `cancel_pending_permissions` walks the `HashMap` is not
specified, and nothing here depends on it.

* **The responder** in the map is a `oneshot` sender; it is named by the index of its handler.
  Dropping it closes the channel.
* **`log`** is what was sent to `events_tx`. An event about a card carries the request it is about,
  which the code does not send: viewers only see the `tool_call_id`.
-/

namespace Portty

namespace Permission

/-- The longest short text that is passed on. -/
def maxAgentShortTextBytes : Nat := 1024

/-- The most options that are passed on. -/
def maxPermissionOptions : Nat := 32

/-- `PermissionOptionKind` of ACP, which may get more variants. -/
inductive AcpPermissionOptionKind where
  | allowOnce
  | allowAlways
  | rejectOnce
  | rejectAlways
  | other
  deriving DecidableEq

/-- The kinds of options that the phone knows. -/
inductive PermissionOptionKind where
  | allowOnce
  | allowAlways
  | rejectOnce
  | rejectAlways
  deriving DecidableEq

/-- A kind that is not known counts as a rejection. -/
def mapPermKind : AcpPermissionOptionKind → PermissionOptionKind
  | .allowOnce => .allowOnce
  | .allowAlways => .allowAlways
  | .rejectOnce => .rejectOnce
  | .rejectAlways => .rejectAlways
  | .other => .rejectOnce

/-- `ToolKind` of ACP, which may get more variants. -/
inductive AcpToolKind where
  | read
  | edit
  | delete
  | move
  | search
  | execute
  | think
  | fetch
  | other
  deriving DecidableEq

/-- What an action does, as far as it is known. -/
inductive PermissionCategory where
  | read
  | write
  | execute
  | network
  | destructive
  | unknown
  deriving DecidableEq

/-- `permission_category` after `map_tool_kind`. -/
def permissionCategory : AcpToolKind → PermissionCategory
  | .read | .search => .read
  | .edit | .move => .write
  | .execute => .execute
  | .fetch => .network
  | .delete => .destructive
  | .think | .other => .unknown

/-- Whether the directory of the session was chosen as a project. -/
inductive WorkspaceScope where
  | project
  | broad
  deriving DecidableEq

/-- An option as the agent sends it. -/
structure AcpOption where
  optionId : String
  name : String
  kind : AcpPermissionOptionKind
  deriving DecidableEq

/-- `RequestPermissionRequest`, as far as the handler reads it. -/
structure Request where
  toolCallId : String
  title : Option String
  kind : Option AcpToolKind
  options : List AcpOption
  deriving DecidableEq

/-- What a card says of the tool call. -/
structure ToolCallCard where
  toolCallId : String
  title : String
  deriving DecidableEq

/-- An option as the phone gets it. -/
structure PermissionOption where
  optionId : String
  name : String
  kind : PermissionOptionKind
  deriving DecidableEq

/-- The longest prefix of whole characters within `n` bytes. -/
def takeBytes : Nat → List Char → List Char
  | _, [] => []
  | n, ch :: chs => if ch.utf8Size ≤ n then ch :: takeBytes (n - ch.utf8Size) chs else []

/-- A text that is too long is cut at a character, and ends with `…`. -/
def clampAgentShortText (text : String) : String :=
  if maxAgentShortTextBytes < text.utf8ByteSize then
    String.ofList (takeBytes (maxAgentShortTextBytes - "…".utf8ByteSize) text.toList) ++ "…"
  else text

namespace Request

variable (req : Request)

/-- The card of a request. -/
def card : ToolCallCard :=
  { toolCallId := req.toolCallId
    title := (req.title.map clampAgentShortText).getD "agent action" }

/-- The options of the card: the first ones, without those whose id is too long. -/
def offered : List PermissionOption :=
  (req.options.take maxPermissionOptions).filterMap fun o =>
    if o.optionId.utf8ByteSize ≤ maxAgentShortTextBytes then
      some { optionId := o.optionId, name := clampAgentShortText o.name, kind := mapPermKind o.kind }
    else none

/-- By the kind of the tool call. -/
def category : PermissionCategory := (req.kind.map permissionCategory).getD .unknown

end Request

/-- What became of a request. -/
inductive PermissionResolution where
  | allowed
  | rejected
  | cancelled
  deriving DecidableEq

/-- Who has answered it. -/
inductive PermissionResolver where
  | phone
  | laptop
  | system
  deriving DecidableEq

/-- What the adapter is told, and what the other viewers are told. -/
def permissionOutcome (optionId : Option String) (options : List PermissionOption) :
    Option String × PermissionResolution :=
  match optionId with
  | none => (none, .rejected)
  | some id =>
    match (options.find? fun o => o.optionId = id).map PermissionOption.kind with
    | some .allowOnce | some .allowAlways => (some id, .allowed)
    | some .rejectOnce | some .rejectAlways => (some id, .rejected)
    -- An option id the agent never offered.
    | none => (none, .cancelled)

/-- What the agent is told. -/
inductive RequestPermissionOutcome where
  | selected (optionId : String)
  | cancelled
  deriving DecidableEq

/-- An entry of the map: who waits for the answer, and what was offered. -/
structure PendingAgentPermission where
  /-- The handler that waits for this responder. -/
  responder : Nat
  toolCall : ToolCallCard
  options : List PermissionOption
  category : PermissionCategory
  deriving DecidableEq

/-- What the viewers are told. -/
inductive ManagerEvent where
  | agentPermission (toolCall : ToolCallCard) (options : List PermissionOption)
      (category : PermissionCategory) (workspaceScope : WorkspaceScope)
  | agentPermissionResolved (toolCallId : String) (resolution : PermissionResolution)
      (resolver : PermissionResolver)
  /-- `AgentEvent::Error` in the timeline. -/
  | error (message : String)
  | removed
  deriving DecidableEq

/-- An event with the request it is about. -/
structure Sent where
  /-- The request that the card of the event is about. -/
  request : Option Nat
  event : ManagerEvent
  deriving DecidableEq

/-- The channel from the map to a handler. -/
inductive Oneshot where
  | empty
  | sent (decision : Option String)
  | closed
  deriving DecidableEq

/-- How far the handler of a request is. -/
inductive HandlerPhase where
  /-- It has checked the request. -/
  | received
  /-- The request is in the map. -/
  | registered
  /-- It waits for the decision or the timeout. -/
  | waiting
  | woken (decision : Option String)
  /-- It has cleaned the map up. -/
  | responding (decision : Option String)
  | done
  /-- Its task was dropped with the connection. -/
  | dropped
  deriving DecidableEq

/-- The handler of a request of the agent. -/
structure Handler where
  request : Request
  phase : HandlerPhase
  oneshot : Oneshot := .empty
  /-- What was sent to the agent. -/
  answers : List RequestPermissionOutcome := []
  deriving DecidableEq

namespace Handler

/-- `responder.send`. -/
def send (h : Handler) (decision : Option String) : Handler :=
  if h.oneshot = .empty then { h with oneshot := .sent decision } else h

/-- The responder is dropped. -/
def close (h : Handler) : Handler :=
  if h.oneshot = .empty then { h with oneshot := .closed } else h

/-- The task is dropped at its `await`. -/
def drop (h : Handler) : Handler :=
  if h.phase = .waiting then { h with phase := .dropped } else h

/-- The handler has registered its request and will still clean the map up. -/
def unfinished (h : Handler) : Bool :=
  match h.phase with
  | .registered | .waiting | .woken _ => true
  | _ => false

end Handler

/-- The requests that wait, by the id of their tool call. -/
abbrev PendingMap := AList fun _ : String => PendingAgentPermission

/-- One agent session. -/
structure State where
  handlers : List Handler := []
  pending : PendingMap := ∅
  log : List Sent := []
  /-- The driver takes no more requests. -/
  ended : Bool := false
  /-- The manager has the session. -/
  listed : Bool := true
  workspaceScope : WorkspaceScope

namespace State

/-- A handler goes on. -/
def updateHandler (s : State) (n : Nat) (f : Handler → Handler) : State :=
  { s with handlers := s.handlers.modify n f }

/-- The request is denied without a card. -/
def deny (s : State) (req : Request) (message : String) : State :=
  { s with
    handlers := s.handlers ++ [{ request := req, phase := .done, answers := [.cancelled] }]
    log := s.log ++ [⟨none, .error message⟩] }

/-- The handler up to the map. -/
def receive (s : State) (req : Request) : State :=
  if s.ended then s
  else if maxAgentShortTextBytes < req.toolCallId.utf8ByteSize then
    s.deny req "Denied a permission request with an oversized id"
  else if req.offered = [] ∧ req.options ≠ [] then
    s.deny req "Denied a permission request with unrepresentable options"
  else { s with handlers := s.handlers ++ [{ request := req, phase := .received }] }

/-- An entry leaves the map, and its responder is dropped. -/
def discard (s : State) (toolCallId : String) : State :=
  match s.pending.lookup toolCallId with
  | none => s
  | some entry =>
    { s.updateHandler entry.responder Handler.close with pending := s.pending.erase toolCallId }

/-- `pending.insert`: an entry under the same id is dropped. -/
def register (s : State) (n : Nat) (req : Request) : State :=
  let s' := (s.discard req.toolCallId).updateHandler n fun h => { h with phase := .registered }
  { s' with
    pending := s'.pending.insert req.toolCallId
      { responder := n, toolCall := req.card, options := req.offered, category := req.category } }

/-- The card is sent, and the handler waits. -/
def announce (s : State) (n : Nat) (req : Request) : State :=
  { s.updateHandler n fun h => { h with phase := if s.ended then .dropped else .waiting } with
    log := s.log ++
      [⟨some n, .agentPermission req.card req.offered req.category s.workspaceScope⟩] }

/-- The handler goes on. `elapsed` if its time is over: the channel is looked at first. -/
def proceed (s : State) (n : Nat) (elapsed : Bool) : State :=
  match s.handlers[n]? with
  | none => s
  | some h =>
    match h.phase with
    | .received => s.register n h.request
    | .registered => s.announce n h.request
    | .waiting =>
      match h.oneshot with
      | .sent decision => s.updateHandler n fun h => { h with phase := .woken decision }
      | .closed => s.updateHandler n fun h => { h with phase := .woken none }
      | .empty =>
        if elapsed then s.updateHandler n fun h => { h with phase := .woken none } else s
    -- The map is cleaned up under the id, whoever's entry is there.
    | .woken decision => (s.discard h.request.toolCallId).updateHandler n fun h =>
      { h with phase := .responding decision }
    | .responding decision => s.updateHandler n fun h =>
      { h with
        phase := .done
        answers := h.answers ++ [decision.elim .cancelled .selected] }
    | .done | .dropped => s

/-- A viewer answers. -/
def resolvePermission (s : State) (toolCallId : String) (optionId : Option String)
    (resolver : PermissionResolver) : State :=
  match s.pending.lookup toolCallId with
  | none => s
  | some entry =>
    let (decision, resolution) := permissionOutcome optionId entry.options
    { s.updateHandler entry.responder fun h => h.send decision with
      pending := s.pending.erase toolCallId
      log := s.log ++
        [⟨some entry.responder, .agentPermissionResolved toolCallId resolution resolver⟩] }

/-- The handler has an entry in the map. -/
def isPending (s : State) (n : Nat) : Bool :=
  s.pending.entries.any fun entry => entry.2.responder = n

/-- All requests that wait are answered with nothing and resolved as cancelled. -/
def cancelPendingPermissions (s : State) : State :=
  { s with
    handlers := s.handlers.mapIdx fun n h => if s.isPending n then h.send none else h
    pending := ∅
    log := s.log ++ s.pending.entries.map fun entry =>
      ⟨some entry.2.responder, .agentPermissionResolved entry.1 .cancelled .system⟩ }

/-- `kill`: the driver is aborted, the responders are dropped, the session is removed. A handler
that is not at an `await` runs on to the next one. -/
def kill (s : State) : State :=
  if s.listed then
    { s with
      handlers := s.handlers.mapIdx fun n h => (if s.isPending n then h.close else h).drop
      pending := ∅
      ended := true
      listed := false
      log := s.log ++ [⟨none, .removed⟩] }
  else s

/-- The connection to the adapter is lost. Its handlers are dropped. After a connection that was
established the adapter is started again; otherwise the driver ends. -/
def connectionLost (s : State) (established : Bool) : State :=
  let s' := { s with handlers := s.handlers.map Handler.drop }
  if established then s'.cancelPendingPermissions else { s' with ended := true }

end State

/-! ## Runs -/

/-- What happens to the session, in any order. -/
inductive Event where
  | receive (req : Request)
  | proceed (n : Nat) (elapsed : Bool)
  | decide (toolCallId : String) (optionId : Option String) (resolver : PermissionResolver)
  | cancel
  | kill
  | connectionLost (established : Bool)
  deriving DecidableEq

/-- One event. -/
def State.step (s : State) : Event → State
  | .receive req => s.receive req
  | .proceed n elapsed => s.proceed n elapsed
  | .decide toolCallId optionId resolver => s.resolvePermission toolCallId optionId resolver
  | .cancel => s.cancelPendingPermissions
  | .kill => s.kill
  | .connectionLost established => s.connectionLost established

/-- A session without requests. -/
def start (workspaceScope : WorkspaceScope) : State := { workspaceScope }

/-- The state of a new session after the steps. -/
def run (workspaceScope : WorkspaceScope) (evs : List Event) : State :=
  Run.run State.step (start workspaceScope) evs

/-! ## The answers -/

/-- Only an offered option is forwarded. -/
theorem permissionOutcome_some {optionId : Option String} {options : List PermissionOption}
    {opt : String} (h : (permissionOutcome optionId options).1 = some opt) :
    optionId = some opt ∧ opt ∈ options.map (·.optionId) := by
  unfold permissionOutcome at h
  split at h
  · simp at h
  · next id =>
    have hmem : ∀ kind,
        (options.find? fun o => o.optionId = id).map PermissionOption.kind = some kind →
        id ∈ options.map (·.optionId) := by
      intro kind hk
      obtain ⟨o, ho, -⟩ := Option.map_eq_some_iff.mp hk
      exact List.mem_map.mpr ⟨o, List.mem_of_find?_eq_some ho, by simpa using List.find?_some ho⟩
    split at h
    all_goals first
      | simp at h; done
      | next hk =>
        obtain rfl : id = opt := by simpa using h
        exact ⟨rfl, hmem _ hk⟩

/-- The options of the card are options of the request. -/
theorem Request.mem_offered {req : Request} {opt : String}
    (h : opt ∈ req.offered.map (·.optionId)) : opt ∈ req.options.map (·.optionId) := by
  obtain ⟨o, ho, rfl⟩ := List.mem_map.mp h
  obtain ⟨o', ho', hf⟩ := List.mem_filterMap.mp ho
  split at hf
  · obtain rfl := Option.some.inj hf
    exact List.mem_map.mpr ⟨o', List.mem_of_mem_take ho', rfl⟩
  · simp at hf

namespace Handler

variable {h : Handler} {d : Option String}

/-- The option is on its way to the agent, or was sent to it. -/
def Chose (h : Handler) (opt : String) : Prop :=
  h.oneshot = .sent (some opt) ∨ h.phase = .woken (some opt) ∨ h.phase = .responding (some opt) ∨
    .selected opt ∈ h.answers

@[simp] theorem send_request : (h.send d).request = h.request := by
  unfold send
  split <;> rfl

@[simp] theorem send_phase : (h.send d).phase = h.phase := by
  unfold send
  split <;> rfl

@[simp] theorem send_answers : (h.send d).answers = h.answers := by
  unfold send
  split <;> rfl

@[simp] theorem send_oneshot_ne : (h.send d).oneshot ≠ .empty := by
  unfold send
  split
  · simp
  · assumption

@[simp] theorem close_request : h.close.request = h.request := by
  unfold close
  split <;> rfl

@[simp] theorem close_phase : h.close.phase = h.phase := by
  unfold close
  split <;> rfl

@[simp] theorem close_answers : h.close.answers = h.answers := by
  unfold close
  split <;> rfl

@[simp] theorem close_oneshot_ne : h.close.oneshot ≠ .empty := by
  unfold close
  split
  · simp
  · assumption

@[simp] theorem drop_request : h.drop.request = h.request := by
  unfold drop
  split <;> rfl

@[simp] theorem drop_oneshot : h.drop.oneshot = h.oneshot := by
  unfold drop
  split <;> rfl

@[simp] theorem drop_answers : h.drop.answers = h.answers := by
  unfold drop
  split <;> rfl

/-- What is left after the waiting ones are gone. -/
theorem drop_phase_cases (h : Handler) :
    (h.phase = .waiting ∧ h.drop.phase = .dropped) ∨
      h.phase ≠ .waiting ∧ h.drop.phase = h.phase := by
  unfold drop
  split
  · next hp => exact .inl ⟨hp, rfl⟩
  · next hp => exact .inr ⟨hp, rfl⟩

theorem Chose.of_close {opt : String} (hc : h.close.Chose opt) : h.Chose opt := by
  unfold Chose at hc
  simp only [close_phase, close_answers] at hc
  obtain hc | hc := hc
  · unfold close at hc
    split at hc
    · simp at hc
    · exact .inl hc
  · exact .inr hc

theorem Chose.of_drop {opt : String} (hc : h.drop.Chose opt) : h.Chose opt := by
  unfold Chose at hc
  simp only [drop_oneshot, drop_answers] at hc
  obtain ⟨hp, hd⟩ | ⟨-, hd⟩ := h.drop_phase_cases
  · rw [hd] at hc
    simp only [reduceCtorEq, false_or] at hc
    obtain hc | hc := hc
    · exact .inl hc
    · exact .inr (.inr (.inr hc))
  · rwa [hd] at hc

/-- A decision on the way to the agent was there before, or is the one sent now. -/
theorem Chose.of_send {opt : String} (hc : (h.send d).Chose opt) : h.Chose opt ∨ d = some opt := by
  unfold Chose at hc
  simp only [send_phase, send_answers] at hc
  obtain hc | hc := hc
  · unfold send at hc
    split at hc
    · simp only [Oneshot.sent.injEq] at hc
      exact .inr hc
    · exact .inl (.inl hc)
  · exact .inl (.inr hc)

end Handler

end Permission

end Portty
