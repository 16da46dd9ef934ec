import Mathlib.Data.List.Sort
import Portty.Host.Permission
import Portty.Lib.Rows
import Portty.Lib.Run
import Portty.Lib.Table

/-!
# The chat on the laptop (`relay_pipe.rs`, `session.rs`, `cli/src/main.rs`)

An agent session pushes timeline events and permission cards to a broadcast channel.
`handle_agent_conn` replays the history and the pending cards to a laptop that connects, and then
forwards what it receives; the laptop shows the events whose number is new, and keeps a list of the
cards that wait.

A task is at one of the points where another one can come in: `push_agent_event` draws the number,
records the event in the history and broadcasts it; a permission request is entered in `pending`,
announced, and cleaned up when its handler wakes; a cancel takes `pending` and broadcasts its
resolutions. The receiver of the channel keeps `capacity` messages; when it has lost one it is told
so once (`lagged`).

The fields after `cards` only record: all events that were drawn, the cards as the broadcasts told
them, the events that the laptop is to show, and those that the receiver has lost since the last
replay.
-/

namespace Portty.Cli.LaptopChat

open Permission (PermissionOption PermissionOptionKind)

/-- The kinds of events of which the last one is kept when the history is cut. -/
inductive StickyAgentEvent where
  | commands
  | mode
  | config
  | sessionInfo
  | replaying
  | auth
  | usage
  deriving DecidableEq, Repr

/-- `agent_event_size` and `sticky_agent_event` of the events. -/
structure Feed (ε : Type) where
  size : ε → Nat
  sticky : ε → Option StickyAgentEvent

/-- An event of the timeline with its number. -/
structure AgentTimelineEvent (ε : Type) where
  seq : Nat
  event : ε
  deriving DecidableEq, Repr

variable {ε : Type}

/-! ## The history -/

/-- The size at which the history drops its oldest events. -/
def maxAgentHistoryBytes : Nat := 512 * 1024

/-- The newest events, and the last event of each sticky kind. -/
structure AgentHistory (ε : Type) where
  events : List (AgentTimelineEvent ε) := []
  sticky : List (StickyAgentEvent × AgentTimelineEvent ε) := []
  bytes : Nat := 0

namespace AgentHistory

/-- The oldest events go while the history is too large. -/
def prune (f : Feed ε) : List (AgentTimelineEvent ε) → Nat → List (AgentTimelineEvent ε) × Nat
  | old :: next :: rest, bytes =>
    if bytes > maxAgentHistoryBytes then prune f (next :: rest) (bytes - f.size old.event)
    else (old :: next :: rest, bytes)
  | events, bytes => (events, bytes)

/-- An event is added, and the oldest ones are dropped. -/
def push (f : Feed ε) (h : AgentHistory ε) (e : AgentTimelineEvent ε) : AgentHistory ε :=
  let sticky :=
    match f.sticky e.event with
    | some kind => Rows.put (·.1) (kind, e) h.sticky
    | none => h.sticky
  let (events, bytes) := prune f (h.events ++ [e]) (h.bytes + f.size e.event)
  { events, sticky, bytes }

/-- The sticky events that are no longer among the others. -/
def left (h : AgentHistory ε) : List (AgentTimelineEvent ε) :=
  (h.sticky.map (·.2)).filter fun e => h.events.all fun candidate => candidate.seq ≠ e.seq

/-- What a viewer that comes late is sent, by number. -/
def snapshot (h : AgentHistory ε) : List (AgentTimelineEvent ε) :=
  (h.events ++ h.left).insertionSort fun e e' => e.seq ≤ e'.seq

end AgentHistory

/-! ## Messages -/

/-- `PendingApproval`, and what the host sends of a pending permission. -/
structure PendingApproval where
  toolCallId : String
  title : String
  options : List PermissionOption
  deriving DecidableEq

/-- `ManagerEvent` -/
inductive ManagerEvent (ε : Type) where
  | agentTimeline (event : AgentTimelineEvent ε)
  | agentPermission (card : PendingApproval)
  | agentPermissionResolved (toolCallId : String)
  /-- An event of another session. -/
  | other
  deriving DecidableEq

/-- `HostToRelay` -/
inductive HostToRelay (ε : Type) where
  | agentEvent (event : AgentTimelineEvent ε)
  | agentPermission (card : PendingApproval)
  | agentPermissionResolved (toolCallId : String)
  deriving DecidableEq

/-- The messages that the relay pipe sends for a message of the manager. -/
def forward : ManagerEvent ε → List (HostToRelay ε)
  | .agentTimeline event => [.agentEvent event]
  | .agentPermission card => [.agentPermission card]
  | .agentPermissionResolved toolCallId => [.agentPermissionResolved toolCallId]
  | .other => []

/-! ## The laptop -/

/-- The laptop skips what is not newer than the last event that it has shown. -/
def showEvent (last : Nat × List (AgentTimelineEvent ε)) :
    HostToRelay ε → Nat × List (AgentTimelineEvent ε)
  | .agentEvent event => if event.seq ≤ last.1 then last else (event.seq, last.2 ++ [event])
  | _ => last

/-- A card replaces the one of the same tool call. -/
def showCard (cards : List PendingApproval) : HostToRelay ε → List PendingApproval
  | .agentPermission card => Rows.put (·.toolCallId) card cards
  | .agentPermissionResolved toolCallId => Rows.remove (·.toolCallId) toolCallId cards
  | .agentEvent _ => cards

/-- The largest number that `usize::from_str` reads. -/
def usizeMax : Nat := 18446744073709551615

/-- `str::parse::<usize>` -/
def parseUsize (text : String) : Option Nat :=
  let digits := if text.toList.head? = some '+' then text.toList.tail else text.toList
  if digits.isEmpty || !digits.all Char.isDigit then none
  else
    let n := digits.foldl (fun n c => 10 * n + (c.toNat - 48)) 0
    if n ≤ usizeMax then some n else none

/-- The first option of one kind, else of the other. -/
def firstOf (kind orElse : PermissionOptionKind) (options : List PermissionOption) :
    Option PermissionOption :=
  (options.find? (·.kind = kind)).or (options.find? (·.kind = orElse))

/-- What the laptop sends for a typed line: the number of an option, or a word, for the first
card. -/
def decisionFor (text : String) (pending : List PendingApproval) : Option (String × Option String) := do
  let card ← pending.head?
  match parseUsize text with
  | some n =>
    if n = 0 then none
    else
      let option ← card.options[n - 1]?
      some (card.toolCallId, some option.optionId)
  | none =>
    if text.toLower ∈ ["y", "yes", "allow"] then
      let option ← firstOf .allowOnce .allowAlways card.options
      some (card.toolCallId, some option.optionId)
    else if text.toLower ∈ ["n", "no", "deny", "reject"] then
      some (card.toolCallId, (firstOf .rejectOnce .rejectAlways card.options).map (·.optionId))
    else none

/-! ## The host -/

/-- A task of the host, and how far it is. -/
inductive Task (ε : Type) where
  /-- `push_agent_event` has drawn the number. -/
  | drawn (event : AgentTimelineEvent ε)
  /-- The event is in the history. -/
  | recorded (event : AgentTimelineEvent ε)
  /-- The request is in `pending`. -/
  | announce (card : PendingApproval)
  /-- The handler waits for the decision. -/
  | waiting (toolCallId : String)
  /-- `cancel_pending_permissions` has taken `pending`. -/
  | emit (toolCallIds : List String)
  | done
  deriving DecidableEq

/-- Where the connection of the laptop is. -/
inductive Phase where
  | none
  /-- The laptop has connected, and the channel is subscribed. -/
  | connecting
  /-- The receiver has lost messages. -/
  | replayEvents
  | replayCards
  | looping
  deriving DecidableEq, Repr

/-- The host, the pipe and what the laptop shows, with what was ever sent or owed. -/
structure World (ε : Type) where
  nextSeq : Nat := 1
  history : AgentHistory ε := {}
  pending : List PendingApproval := []
  tasks : List (Task ε) := []
  phase : Phase := .none
  queue : List (ManagerEvent ε) := []
  lagged : Bool := false
  pipe : List (HostToRelay ε) := []
  /-- `last_seq`, and the events that were rendered. -/
  shown : Nat × List (AgentTimelineEvent ε) := (0, [])
  cards : List PendingApproval := []
  allDrawn : List (AgentTimelineEvent ε) := []
  announced : List PendingApproval := []
  owed : List (AgentTimelineEvent ε) := []
  dropped : List (AgentTimelineEvent ε) := []

/-- What happens at the host and on the laptop, in any order. -/
inductive Event (ε : Type) where
  | push (event : ε)
  | request (card : PendingApproval)
  /-- A viewer answers. -/
  | resolve (toolCallId : String)
  | cancel
  /-- A map lists its rows in any order. -/
  | reorder (pending : List PendingApproval)
  | noise
  /-- A task goes on. -/
  | go (i : Nat)
  | connect
  /-- `handle_agent_conn` goes on. -/
  | conn
  /-- The laptop takes the next message. -/
  | receive

/-- Messages that a receiver of the channel can be behind. -/
def capacity : Nat := 64

/-- The event that a message is about. -/
def ManagerEvent.timeline : ManagerEvent ε → List (AgentTimelineEvent ε)
  | .agentTimeline event => [event]
  | _ => []

/-- The cards as the message tells them. -/
def tell (cards : List PendingApproval) (m : ManagerEvent ε) : List PendingApproval :=
  (forward m).foldl showCard cards

namespace World

variable (f : Feed ε) (w : World ε)

/-- `events_tx.send` -/
def broadcast (m : ManagerEvent ε) : World ε :=
  let w := { w with announced := tell w.announced m }
  if w.phase = .none then w
  else
    let w := { w with owed := w.owed ++ m.timeline }
    match w.queue with
    | [] => { w with queue := [m] }
    | old :: rest =>
      if w.queue.length < capacity then { w with queue := w.queue ++ [m] }
      else { w with queue := rest ++ [m], lagged := true, dropped := w.dropped ++ old.timeline }

/-- A task is started. -/
def spawn (t : Task ε) : World ε := { w with tasks := w.tasks ++ [t] }

/-- A task goes on. -/
def setTask (i : Nat) (t : Task ε) : World ε := { w with tasks := w.tasks.modify i fun _ => t }

/-- `push_agent_event` draws a number; the rest is a task. -/
def push (event : ε) : World ε :=
  let e : AgentTimelineEvent ε := ⟨w.nextSeq, event⟩
  { w with nextSeq := w.nextSeq + 1, allDrawn := w.allDrawn ++ [e] }.spawn (.drawn e)

/-- A request is put into `pending`; its card is announced by a task. -/
def request (card : PendingApproval) : World ε :=
  { w with pending := Rows.put (·.toolCallId) card w.pending }.spawn (.announce card)

/-- `resolve_permission` -/
def resolve (toolCallId : String) : World ε :=
  match Rows.find (·.toolCallId) toolCallId w.pending with
  | some _ =>
    { w with pending := Rows.remove (·.toolCallId) toolCallId w.pending }.broadcast
      (.agentPermissionResolved toolCallId)
  | none => w

/-- All requests are taken out, and their cards are resolved by a task. -/
def cancel : World ε :=
  { w with pending := [] }.spawn (.emit (w.pending.map PendingApproval.toolCallId))

/-- A task takes its next step. -/
def go (i : Nat) : Task ε → World ε
  | .drawn e => { w with history := w.history.push f e }.setTask i (.recorded e)
  | .recorded e => (w.broadcast (.agentTimeline e)).setTask i .done
  | .announce card => (w.broadcast (.agentPermission card)).setTask i (.waiting card.toolCallId)
  | .waiting toolCallId =>
    { w with pending := Rows.remove (·.toolCallId) toolCallId w.pending }.setTask i .done
  | .emit [] => w.setTask i .done
  | .emit (toolCallId :: rest) =>
    (w.broadcast (.agentPermissionResolved toolCallId)).setTask i (.emit rest)
  | .done => w

/-- A snapshot is sent, and the laptop is owed what it should show. -/
def replay (owed : List (AgentTimelineEvent ε)) : World ε :=
  { w with
    pipe := w.pipe ++ w.history.snapshot.map .agentEvent
    owed := w.owed ++ owed
    dropped := []
    phase := .replayCards }

/-- One message of the channel. -/
def recv : World ε :=
  if w.lagged then { w with lagged := false, phase := .replayEvents }
  else
    match w.queue with
    | [] => w
    | m :: rest => { w with queue := rest, pipe := w.pipe ++ forward m }

/-- The connection takes its next step. -/
def conn : World ε :=
  match w.phase with
  | .none => w
  | .connecting => w.replay w.history.snapshot
  | .replayEvents => w.replay []
  | .replayCards => { w with pipe := w.pipe ++ w.pending.map .agentPermission, phase := .looping }
  | .looping => w.recv

/-- The laptop shows the next message of the pipe. -/
def receive : World ε :=
  match w.pipe with
  | [] => w
  | m :: rest => { w with pipe := rest, shown := showEvent w.shown m, cards := showCard w.cards m }

/-- One event. -/
def step : Event ε → World ε
  | .push event => w.push event
  | .request card => w.request card
  | .resolve toolCallId => w.resolve toolCallId
  | .cancel => w.cancel
  | .reorder pending => if pending.isPerm w.pending then { w with pending } else w
  | .noise => w.broadcast .other
  | .go i => (w.tasks[i]?).elim w (w.go f i)
  | .connect => if w.phase = .none then { w with phase := .connecting } else w
  | .conn => w.conn
  | .receive => w.receive

end World

/-! ## When the laptop has caught up -/

/-- The cards that the laptop has when it has taken all messages of the pipe. -/
def World.cardsAhead (w : World ε) : List PendingApproval := w.pipe.foldl showCard w.cards

/-- The last number and the rendered events, in the same way. -/
def World.eventsAhead (w : World ε) : Nat × List (AgentTimelineEvent ε) :=
  w.pipe.foldl showEvent w.shown

/-- The task has nothing to add any more. -/
def Task.settled : Task ε → Bool
  | .waiting _ | .emit [] | .done => true
  | _ => false

/-- All messages are processed, and no task has more to send. -/
def Quiescent (w : World ε) : Prop :=
  w.phase = .looping ∧ w.queue = [] ∧ w.lagged = false ∧ w.pipe = [] ∧ ∀ t ∈ w.tasks, t.settled = true

/-- What the laptop shows is in order and complete, its cards are those that wait, and a decision is
about one of them. -/
structure Converged (w : World ε) : Prop where
  ordered : w.shown.2.Pairwise (·.seq < ·.seq)
  complete : ∀ e ∈ w.owed, e ∈ w.shown.2
  cards : ∀ card, card ∈ w.cards ↔ card ∈ w.pending
  decision : ∀ text toolCallId option, decisionFor text w.cards = some (toolCallId, option) →
    ∃ card ∈ w.pending, card.toolCallId = toolCallId

/-! ## The conditions of the steps -/

/-- The tool call whose card a message changes. -/
def ManagerEvent.about : ManagerEvent ε → Option String
  | .agentPermission card => some card.toolCallId
  | .agentPermissionResolved toolCallId => some toolCallId
  | .agentTimeline _ | .other => none

/-- Some message of the queue is about the card. -/
def Mentions (toolCallId : String) (queue : List (ManagerEvent ε)) : Prop :=
  ∃ m ∈ queue, m.about = some toolCallId

/-- If the receiver loses a resolution when `m` is sent, the laptop has not to remove the card, or a
later message of the queue is about it. -/
def Keeps (w : World ε) (m : ManagerEvent ε) : Prop :=
  match w.queue with
  | .agentPermissionResolved toolCallId :: rest =>
    w.queue.length < capacity ∨ (∀ card ∈ w.cardsAhead, card.toolCallId ≠ toolCallId) ∨
      Mentions toolCallId (rest ++ [m])
  | _ => True

/-- The event that is not in the history. -/
def Task.unrecorded : Task ε → List (AgentTimelineEvent ε)
  | .drawn e => [e]
  | _ => []

/-- The event that was not sent. -/
def Task.unsent : Task ε → List (AgentTimelineEvent ε)
  | .drawn e => [e]
  | .recorded e => [e]
  | _ => []

/-- In the history, and not yet sent on the channel. -/
def Task.unsentRecorded : Task ε → List (AgentTimelineEvent ε)
  | .recorded e => [e]
  | _ => []

/-- Events are recorded and sent in the order of their numbers; a card is announced while it is
pending; a resolution is sent, and a request cleaned up, while the card is not pending. -/
def Task.Meets (w : World ε) (i : Nat) : Task ε → Prop
  | .drawn e => ∀ t ∈ w.tasks.eraseIdx i, ∀ e' ∈ t.unrecorded, e.seq < e'.seq
  | .recorded e => (∀ t ∈ w.tasks.eraseIdx i, ∀ e' ∈ t.unsent, e.seq < e'.seq) ∧ Keeps w (.agentTimeline e)
  | .announce card => card ∈ w.pending ∧ Keeps w (.agentPermission card)
  | .waiting toolCallId => ∀ card ∈ w.pending, card.toolCallId ≠ toolCallId
  | .emit (toolCallId :: _) => (∀ card ∈ w.pending, card.toolCallId ≠ toolCallId) ∧
    Keeps w (.agentPermissionResolved toolCallId)
  | .emit [] | .done => True

/-- The events that were sent, or are about to be sent, and have not reached the laptop. -/
def World.underway (w : World ε) : List (AgentTimelineEvent ε) :=
  w.dropped ++ w.queue.flatMap ManagerEvent.timeline ++ w.tasks.flatMap Task.unsentRecorded

/-- And a replay finds the events that are under way in the history. -/
def Meets (w : World ε) : Event ε → Prop
  | .go i => ∀ t ∈ w.tasks[i]?, t.Meets w i
  | .resolve toolCallId => Keeps w (.agentPermissionResolved toolCallId)
  | .noise => Keeps w .other
  | .conn => w.phase = .connecting ∨ w.phase = .replayEvents → ∀ e ∈ w.underway, e ∈ w.history.snapshot
  | .push _ | .request _ | .cancel | .reorder _ | .connect | .receive => True

end Portty.Cli.LaptopChat
