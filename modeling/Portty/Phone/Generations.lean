import Portty.Lib.Run
import Portty.Lib.Table
import Portty.Transport.Types

/-!
# Connection generations (`lib.rs`)

The link of the phone and the tasks around it: the commands that put a `Connection` into `state` or
take it out, the session loops, and the requests and decisions that use a link.

* **A link** is a row of `links`, named by its index. Its maps of requests are one list of entries;
  a sender is in an entry until it is used or dropped.
* **`state.connection`** is `slot`. Its lock is held over several steps by `pair` and `reconnect`,
  from the `take` to the drop of what they took, and by a request that uses two maps (`lock`). All
  other uses of it are one step.
* **A taker** clears `pending` of the `Connection` that it took, and drops it. The drop is the
  shutdown of the loop.
* **The session loop** polls its branches, of which the shutdown is the first. When it ends it
  clears the maps one by one, closes the endpoint (up to 2 s), looks whether its `Connection` is
  still there, and tells the user interface. Only then is the receiver of the queue dropped.
* **A request** waits for its answer until its time is over.
-/

namespace Portty

namespace Phone

namespace Generations

/-! ## Links -/

/-- The lists that the phone asks for. -/
inductive Listing where
  | dirs
  | sessions
  | providers
  | roots
  deriving DecidableEq, Repr

/-- The maps of a `Connection`. -/
inductive PendingMap where
  | pending
  | unpairPending
  | listing (of : Listing)
  deriving DecidableEq, Repr

/-- As the session loop clears them. -/
def allMaps : List PendingMap :=
  [.pending, .unpairPending, .listing .dirs, .listing .sessions, .listing .providers, .listing .roots]

/-- The answers of a host. -/
inductive HostFrame where
  | commandResult (req : Nat) (ok : Bool)
  /-- `WorkspaceDirs`, `AgentSessions`, `AgentProviders`, `TerminalRoots` -/
  | listing (of : Listing) (req : Nat)
  | unpairResult (req : Nat) (pairId : PairId) (committed : Bool)
  /-- The loop ends at it: it cannot be read, has the wrong direction, or revokes the pairing. -/
  | last
  | other
  deriving DecidableEq, Repr

/-- Where a session loop is. -/
inductive Loop where
  | notStarted
  /-- Before it looks at its branches. -/
  | polling
  /-- The shutdown was not there when it looked. -/
  | selecting
  | processing (frame : HostFrame)
  /-- The maps that are still to be cleared. -/
  | clearing (rest : List PendingMap)
  | closing
  | removing
  | emitting
  | returned
  deriving DecidableEq, Repr

/-- A frame in the queue of a link. -/
inductive Packet where
  | request (req : Nat)
  | unpairSelf (req : Nat) (pairId : PairId)
  /-- With the connection that the card carries. -/
  | decision (card : Nat)
  deriving DecidableEq, Repr

/-- A connection to a host, with the loop that reads it. -/
structure Link where
  id : Nat
  peerDeviceId : DeviceId
  pairId : PairId
  outbound : List Packet := []
  entries : List (PendingMap × Nat) := []
  /-- The `Connection` was dropped by who took it. -/
  shutdown : Bool := false
  loop : Loop := .notStarted
  deriving DecidableEq, Repr

/-! ## Tasks -/

/-- How a request of the app ends. -/
inductive Outcome where
  | resolved
  | refused
  | closed
  | busy
  | timedOut
  deriving DecidableEq, Repr

/-- How far a request is. -/
inductive Step where
  /-- `remove_host` has seen the connection. -/
  | looked
  /-- It is in `pending`, not yet in its other map. -/
  | registering
  | queueing
  | waiting
  /-- The command is done, and the listing is still to come. -/
  | waitingListing
  | ended (outcome : Outcome)
  deriving DecidableEq, Repr

/-- A request, with the link on which it is made. -/
structure Request where
  link : Nat
  map : PendingMap := .pending
  listing : Option Listing := none
  step : Step
  deriving DecidableEq, Repr

/-- What the app asks for. -/
inductive Command where
  /-- `pair` or `reconnect` -/
  | connect
  | disconnect
  | removeHost
  deriving DecidableEq, Repr

/-- A command that has taken a `Connection` out of `state`. -/
structure Taker where
  link : Nat
  command : Command
  cleared : Bool := false
  dropped : Bool := false
  deriving DecidableEq, Repr

/-- Who holds the lock `connecting`. -/
inductive Connecting where
  | free
  /-- `pair` or `reconnect`, with what it took. -/
  | dialing (taker : Option Nat)
  | starting (id : Nat)
  | installed (link : Nat)
  /-- `remove_host`, with its request. -/
  | removing (device : DeviceId) (req : Option Nat)
  | dropping (taker : Nat)
  deriving DecidableEq, Repr

/-- Who holds the lock of `state.connection`. -/
inductive Holder where
  | request (i : Nat)
  | taker (t : Nat)
  deriving DecidableEq, Repr

/-- Who emits `portty://disconnected`. -/
inductive Teller where
  | loop (link : Nat)
  | disconnect
  deriving DecidableEq, Repr

/-- The links, who holds the lock, and the requests of the app. -/
structure World where
  links : List Link := []
  slot : Option Nat := none
  lock : Option Holder := none
  connecting : Connecting := .free
  nextConnectionId : Nat := 1
  takers : List Taker := []
  requests : List Request := []
  /-- What was sent to a request: its number, the map, and whether the host agreed. -/
  replies : List (Nat × PendingMap × Bool) := []
  /-- The decisions that are to be queued: the link and the connection of the card. -/
  deciding : List (Nat × Nat) := []
  told : List Teller := []
  deriving DecidableEq, Repr

/-- What the tasks do, in any order. -/
inductive Event where
  /-- `pair` or `reconnect` takes the connection that is there. -/
  | connect
  /-- It fails. -/
  | giveUp
  /-- `start_session` draws the id of the connection. -/
  | start
  | install (peerDeviceId : DeviceId) (pairId : PairId)
  | spawn
  | disconnect
  | removeHost (device : DeviceId)
  /-- It has forgotten the host, or could not. -/
  | removeTake (forgotten : Bool)
  /-- A taker. -/
  | clear (taker : Nat)
  | drop (taker : Nat)
  /-- A request. -/
  | request (listing : Option Listing)
  | registerListing (i : Nat)
  | registerUnpair (i : Nat)
  | enqueue (i : Nat) (full : Bool)
  | wake (i : Nat)
  | timeout (i : Nat)
  /-- `permission_decision` -/
  | decide (card : Nat)
  | enqueueDecision (i : Nat) (full : Bool)
  /-- A session loop. -/
  | poll (link : Nat)
  | receive (link : Nat) (frame : HostFrame)
  | apply (link : Nat)
  /-- The reader or the writer is closed. -/
  | hangUp (link : Nat)
  | clearMap (link : Nat)
  | close (link : Nat)
  | remove (link : Nat)
  | emit (link : Nat)
  deriving DecidableEq, Repr

namespace World

variable (w : World)

/-- A link goes on. -/
def setLink (link : Nat) (f : Link → Link) : World := { w with links := w.links.modify link f }

/-- The loop of a link goes on. -/
def setLoop (link : Nat) (loop : Loop) : World := w.setLink link fun l => { l with loop }

/-- A request goes on. -/
def setRequest (i : Nat) (step : Step) : World :=
  { w with requests := w.requests.modify i fun r => { r with step } }

/-- The request waits in a map of the link. -/
def register (link : Nat) (map : PendingMap) (i : Nat) : World :=
  w.setLink link fun l => { l with entries := l.entries ++ [(map, i)] }

/-- The request is over and takes its entries back. -/
def finish (i : Nat) (r : Request) (outcome : Outcome) : World :=
  (w.setRequest i (.ended outcome)).setLink r.link fun l =>
    { l with entries := l.entries.filter (·.2 ≠ i) }

/-! ## Commands -/

/-- A command takes the `Connection` of a link. -/
def take (link : Nat) (command : Command) : World :=
  { w with slot := none, takers := w.takers ++ [{ link, command }] }

/-- What `pair` and `reconnect` do first. -/
def connect : World :=
  match w.slot with
  | none => { w with connecting := .dialing none }
  | some link =>
    { w.take link .connect with
      connecting := .dialing (some w.takers.length)
      lock := some (.taker w.takers.length) }

/-- A taker has dropped what it took. -/
def isDropped (t : Nat) : Bool := (w.takers[t]?).any (·.dropped)

/-- The request has its outcome. -/
def hasEnded (i : Nat) : Bool :=
  match w.requests[i]? with
  | some { step := .ended _, .. } => true
  | _ => false

/-- The part of `start_session` that publishes the generation. -/
def install (id : Nat) (peerDeviceId : DeviceId) (pairId : PairId) : World :=
  { w with
    links := w.links ++ [{ id, peerDeviceId, pairId }]
    slot := some w.links.length
    connecting := .installed w.links.length }

/-- The link to the host, if it is the current one. -/
def linkOf (device : DeviceId) : Option Nat :=
  w.slot.filter fun link => (w.links[link]?).any (·.peerDeviceId = device)

/-- `remove_host`, up to its look at the connection. -/
def removeHost (device : DeviceId) : World :=
  match w.linkOf device with
  | none => { w with connecting := .removing device none }
  | some link =>
    { w with
      requests := w.requests ++ [{ link, map := .unpairPending, step := .looked }]
      connecting := .removing device (some w.requests.length) }

/-- `take_connection_for_peer` -/
def takeConnectionForPeer (device : DeviceId) : World :=
  match w.linkOf device with
  | none => { w with connecting := .free }
  | some link => { w.take link .removeHost with connecting := .dropping w.takers.length }

/-- The taker clears `pending`. -/
def clear (t : Nat) (k : Taker) : World :=
  let w' := { w with takers := w.takers.set t { k with cleared := true } }
  w'.setLink k.link fun l => { l with entries := l.entries.filter (·.1 ≠ .pending) }

/-- It drops the `Connection`, and goes on. -/
def drop (t : Nat) (k : Taker) : World :=
  let w' := { w with takers := w.takers.set t { k with dropped := true } }
  let w' := w'.setLink k.link fun l => { l with shutdown := true }
  match k.command with
  | .connect => { w' with lock := none }
  | .disconnect => { w' with told := w.told ++ [.disconnect] }
  | .removeHost => { w' with connecting := .free }

/-! ## Requests -/

/-- `request`, or a command that asks for a listing. -/
def request (link : Nat) (listing : Option Listing) : World :=
  let i := w.requests.length
  let step := if listing.isSome then Step.registering else .queueing
  let lock := if listing.isSome then some (Holder.request i) else none
  let r : Request := { link, listing, step }
  let w' := { w with requests := w.requests ++ [r], lock }
  w'.register link .pending i

/-- What is sent for a request. -/
def packet (i : Nat) (r : Request) (l : Link) : Packet :=
  match r.map with
  | .unpairPending => .unpairSelf i l.pairId
  | _ => .request i

/-- `try_enqueue` -/
def tryEnqueue (link : Nat) (p : Link → Packet) (full : Bool) : Except Outcome World :=
  match w.links[link]? with
  | none => .error .closed
  | some l =>
    if l.loop = .returned then .error .closed
    else if full then .error .busy
    else .ok (w.setLink link fun l => { l with outbound := l.outbound ++ [p l] })

/-- The request is put into the queue of the link, or fails. -/
def enqueue (i : Nat) (r : Request) (full : Bool) : World :=
  match w.tryEnqueue r.link (packet i r) full with
  | .ok w' => w'.setRequest i .waiting
  | .error e => w.finish i r e

/-- The entry of a request is still in the map of its link. -/
def isRegistered (i : Nat) (r : Request) (map : PendingMap) : Bool :=
  (w.links[r.link]?).any fun l => l.entries.contains (map, i)

/-- The receiver of a request is woken. -/
def wake (i : Nat) (r : Request) : World :=
  match r.step with
  | .waiting =>
    if w.replies.contains (i, r.map, true) then
      match r.listing with
      | none => w.finish i r .resolved
      | some _ => w.setRequest i .waitingListing
    else if w.replies.contains (i, r.map, false) then w.finish i r .refused
    else if w.isRegistered i r r.map then w
    else w.finish i r .closed
  | .waitingListing =>
    match r.listing with
    | none => w
    | some of =>
      if w.replies.contains (i, .listing of, true) then w.finish i r .resolved
      else if w.isRegistered i r (.listing of) then w
      else w.finish i r .closed
  | _ => w

/-- A request waits no longer. -/
def timeout (i : Nat) (r : Request) : World :=
  match r.step with
  | .waiting | .waitingListing => w.finish i r .timedOut
  | _ => w

/-- `permission_decision`, up to the look at the connection. -/
def decide (card : Nat) : World :=
  match w.slot with
  | none => w
  | some link =>
    if (w.links[link]?).any (·.id = card) then { w with deciding := w.deciding ++ [(link, card)] } else w

/-! ## Session loops -/

/-- A sender of a map is used. -/
def reply (link : Nat) (l : Link) (map : PendingMap) (i : Nat) (ok : Bool) : World :=
  if l.entries.contains (map, i) then
    let w' := { w with replies := w.replies ++ [(i, map, ok)] }
    w'.setLink link fun l => { l with entries := l.entries.filter (· ≠ (map, i)) }
  else w

/-- The loop hands an answer to the request that waits for it. -/
def apply (link : Nat) (l : Link) : HostFrame → World
  | .commandResult req ok => (w.reply link l .pending req ok).setLoop link .polling
  | .listing of req => (w.reply link l (.listing of) req true).setLoop link .polling
  | .unpairResult req pairId committed =>
    (w.reply link l .unpairPending req (pairId = l.pairId && committed)).setLoop link .polling
  | .last => w.setLoop link (.clearing allMaps)
  | .other => w.setLoop link .polling

/-- The next map is cleared. -/
def clearMap (link : Nat) : List PendingMap → World
  | [] => w.setLoop link .closing
  | map :: rest =>
    w.setLink link fun l =>
      { l with entries := l.entries.filter (·.1 ≠ map), loop := .clearing rest }

/-- `remove_connection_if_current` -/
def removeConnectionIfCurrent (link : Nat) (l : Link) : World :=
  match w.slot with
  | none => w.setLoop link .returned
  | some current =>
    if (w.links[current]?).any (·.id = l.id) then { w.setLoop link .emitting with slot := none }
    else w.setLoop link .returned

/-- The loop of a link takes its next step. -/
def onLoop (link : Nat) (l : Link) : Event → World
  | .poll _ =>
    if l.loop = .polling ∨ l.loop = .selecting then
      w.setLoop link (if l.shutdown then .clearing allMaps else .selecting)
    else w
  | .receive _ frame => if l.loop = .selecting then w.setLoop link (.processing frame) else w
  | .apply _ =>
    match l.loop with
    | .processing frame => w.apply link l frame
    | _ => w
  | .hangUp _ => if l.loop = .selecting then w.setLoop link (.clearing allMaps) else w
  | .clearMap _ =>
    match l.loop with
    | .clearing rest => w.clearMap link rest
    | _ => w
  | .close _ => if l.loop = .closing then w.setLoop link .removing else w
  | .remove _ => if l.loop = .removing ∧ w.lock = none then w.removeConnectionIfCurrent link l else w
  | .emit _ =>
    if l.loop = .emitting then { w.setLoop link .returned with told := w.told ++ [.loop link] } else w
  | _ => w

end World

/-- The link whose loop makes the step. -/
def Event.loopOf : Event → Option Nat
  | .poll link | .receive link _ | .apply link | .hangUp link | .clearMap link | .close link
  | .remove link | .emit link => some link
  | _ => none

namespace World

variable (w : World)

/-- The steps of commands, which need the lock of `state.connection`. -/
def onCommand : Event → World
  | .connect => if w.connecting = .free then w.connect else w
  | .install peerDeviceId pairId =>
    match w.connecting with
    | .starting id => w.install id peerDeviceId pairId
    | _ => w
  | .disconnect =>
    match w.slot with
    | none => w
    | some link => w.take link .disconnect
  | .removeHost device => if w.connecting = .free then w.removeHost device else w
  | .removeTake forgotten =>
    match w.connecting with
    | .removing device req =>
      if req.all w.hasEnded then
        if forgotten then w.takeConnectionForPeer device else { w with connecting := .free }
      else w
    | _ => w
  | .request listing =>
    match w.slot with
    | none => w
    | some link => w.request link listing
  | .decide card => w.decide card
  | _ => w

/-- The steps of a request. -/
def onRequest (i : Nat) (r : Request) : Event → World
  | .registerListing _ =>
    match r.step, r.listing with
    | .registering, some of =>
      { (w.register r.link (.listing of) i).setRequest i .queueing with lock := none }
    | _, _ => w
  | .registerUnpair _ =>
    if r.step = .looked then (w.register r.link r.map i).setRequest i .queueing else w
  | .enqueue _ full => if r.step = .queueing then w.enqueue i r full else w
  | .wake _ => w.wake i r
  | .timeout _ => w.timeout i r
  | _ => w

end World

/-- The request that makes the step. -/
def Event.requestOf : Event → Option Nat
  | .registerListing i | .registerUnpair i | .enqueue i _ | .wake i | .timeout i => some i
  | _ => none

/-- One event. -/
def World.step (w : World) (ev : Event) : World :=
  match ev with
  | .giveUp =>
    match w.connecting with
    | .dialing t => if t.all w.isDropped then { w with connecting := .free } else w
    | _ => w
  | .start =>
    match w.connecting with
    | .dialing t =>
      if t.all w.isDropped then
        { w with connecting := .starting w.nextConnectionId, nextConnectionId := w.nextConnectionId + 1 }
      else w
    | _ => w
  | .spawn =>
    match w.connecting with
    | .installed link => { w.setLoop link .polling with connecting := .free }
    | _ => w
  | .clear t =>
    match w.takers[t]? with
    | some k => if k.cleared then w else w.clear t k
    | none => w
  | .drop t =>
    match w.takers[t]? with
    | some k => if k.cleared && !k.dropped then w.drop t k else w
    | none => w
  | .enqueueDecision i full =>
    match w.deciding[i]? with
    | some (link, card) =>
      let w' := { w with deciding := w.deciding.eraseIdx i }
      (w'.tryEnqueue link (fun _ => .decision card) full).toOption.getD w'
    | none => w
  | .registerListing i | .registerUnpair i | .enqueue i _ | .wake i | .timeout i =>
    match w.requests[i]? with
    | some r => w.onRequest i r ev
    | none => w
  | .poll link | .receive link _ | .apply link | .hangUp link | .clearMap link | .close link
  | .remove link | .emit link =>
    match w.links[link]? with
    | some l => w.onLoop link l ev
    | none => w
  | .connect | .install .. | .disconnect | .removeHost _ | .removeTake _ | .request _ | .decide _ =>
    if w.lock = none then w.onCommand ev else w

end Generations

end Phone

end Portty
