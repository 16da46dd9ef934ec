import Mathlib.Logic.Function.Basic
import Portty.Host.Scrollback
import Portty.Lib.Run

/-!
# The live terminal stream (`iroh_serve.rs`, `lib.rs` and `App.tsx` of the app)

Hosts with their sessions, one connection, and the phone. A host lifetime has a generation, a random
number that no other lifetime has; a restarted host and another host are other lifetimes. On the
phone, 0 stands for none.

On the way to the phone a frame is at one of three places: pending in the live forwarder, in the
outbound queue (`OUT_QUEUE_FRAMES`), or written and not received yet. What the connection handler
sends itself (`attach`, `attach_resume`) it writes past the queue.

* **The forwarder** is a task. A step is what it does between two points where it can be aborted, or
  less. Its receiver is the number of chunks it has taken; it has lagged when more than 256 chunks
  wait.
* **The handler** writes all frames of one `attach` in one step: nothing else is written in between,
  and a lost link loses what was not received.
* **The phone** records sequence numbers and generations for every frame (`session_loop` in the
  core), and shows the frames of the session it views (`outputCb`). Both are one step here.

What the code does not have: `start` of a `screenReset` says where in the output the snapshot starts
that follows, and `View` keeps for each session what was shown since.
-/

namespace Portty

namespace Stream

open Scrollback Chunks

/-- The numbers of sessions. -/
abbrev SessionId := Nat

/-- The frames that wait for the link. -/
def outQueueFrames : Nat := 16

/-- The most bytes of a frame of a snapshot. -/
def snapshotChunkBytes : Nat := 256 * 1024

/-- The most bytes to which chunks are put together. -/
def coalesceBytes : Nat := 32 * 1024

/-- The capacity of the broadcast channel of a session. -/
def outputChannel : Nat := 256

/-- The frames that show a terminal. -/
inductive Frame where
  | screenReset (id : SessionId) (generation start : Nat)
  | sessionSize (id : SessionId) (size : Nat × Nat)
  | output (id : SessionId) (bytes : Bytes)
  | sequencedOutput (id : SessionId) (seq : Nat) (bytes : Bytes)
  /-- Lists, events, results, agent timelines. -/
  | other
  deriving DecidableEq

/-- The session whose screen the frame is about. -/
def Frame.screen : Frame → Option SessionId
  | .screenReset id .. | .output id _ | .sequencedOutput id .. => some id
  | .sessionSize .. | .other => none

/-- What the phone asks for. -/
inductive Command where
  | attach (id : SessionId)
  | detach
  | pauseStream
  | resumeStream
  | outputResume (id : SessionId) (afterSeq generation : Nat)
  deriving DecidableEq

/-! ## The host -/

/-- The snapshot in pieces, and its sequence number. -/
def snapshotFrames (id : SessionId) (s : Session) : List Frame :=
  (pieces snapshotChunkBytes s.ring.concat).map (.output id) ++ [.sequencedOutput id s.throughSeq []]

/-- The terminal begins anew, with the number of the oldest byte that is kept. -/
def resetFrame (id : SessionId) (generation : Nat) (s : Session) : Frame :=
  .screenReset id generation s.retainedFrom

/-- The chunks of a delta, some in one frame. `merged` and `mergedSeq` are what was not sent yet. -/
def deltaFrames (id : SessionId) : List OutputChunk → Bytes → Nat → List Frame
  | [], merged, mergedSeq =>
    if merged.isEmpty then [] else [.sequencedOutput id mergedSeq merged]
  | chunk :: chunks, merged, _ =>
    if snapshotChunkBytes ≤ (merged ++ chunk.bytes).length then
      .sequencedOutput id chunk.seq (merged ++ chunk.bytes) :: deltaFrames id chunks [] chunk.seq
    else deltaFrames id chunks (merged ++ chunk.bytes) chunk.seq

/-- Where a forwarder is. -/
inductive Phase where
  /-- At `rx.recv()`. -/
  | receiving
  | merging (seq : Nat) (merged : Bytes)
  /-- The frames are sent to the queue one by one; then it is resynced if it has lagged. -/
  | sending (frames : List Frame) (lagged : Bool)
  deriving DecidableEq

/-- The task of `spawn_live_forwarder`. -/
structure Forwarder where
  id : SessionId
  /-- The chunks that the receiver has given. -/
  taken : Nat
  phase : Phase := .receiving
  deriving DecidableEq

namespace Forwarder

variable (f : Forwarder)

/-- The frames that are still to be sent. -/
def pending : List Frame :=
  match f.phase with
  | .sending frames _ => frames
  | .receiving | .merging .. => []

/-- `resync_after_lag`: a snapshot and a new receiver. -/
def resync (generation : Nat) (s : Session) : Forwarder :=
  { f with
    taken := s.out.length
    phase := .sending (resetFrame f.id generation s :: snapshotFrames f.id s) false }

/-- The next step takes a snapshot. -/
def resyncs (s : Session) : Bool :=
  match f.phase with
  | .receiving => outputChannel < s.out.length - f.taken
  | .merging .. => false
  | .sending frames lagged => frames.isEmpty && lagged

/-- A step without the queue. -/
def step (generation : Nat) (s : Session) : Forwarder :=
  if f.resyncs s then f.resync generation s
  else
    match f.phase with
    | .receiving =>
      match s.out[f.taken]? with
      | none => f
      | some bytes => { f with taken := f.taken + 1, phase := .merging (f.taken + 1) bytes }
    | .merging seq merged =>
      let send :=
        fun lagged => { f with phase := .sending [.sequencedOutput f.id seq merged] lagged }
      if merged.length < coalesceBytes then
        if outputChannel < s.out.length - f.taken then send true
        else
          match s.out[f.taken]? with
          | none => send false
          | some bytes =>
            { f with taken := f.taken + 1, phase := .merging (f.taken + 1) (merged ++ bytes) }
      else send false
    | .sending frames _ => if frames.isEmpty then { f with phase := .receiving } else f

end Forwarder

/-! ## The phone -/

/-- What the phone knows about the output of a session. -/
structure View where
  /-- `last_seen_seq`, by the core. -/
  lastSeq : Nat := 0
  /-- `last_seen_generation`, by the core. -/
  lastGeneration : Nat := 0
  /-- What was shown since the last `ScreenReset` that was shown. -/
  shown : Bytes := []
  generation : Nat := 0
  start : Nat := 0
  /-- Everything that has arrived since was shown. -/
  whole : Bool := true
  /-- A frame with a sequence number has arrived since. -/
  settled : Bool := false
  deriving DecidableEq

namespace View

variable (v : View)

/-- A frame for the session that is viewed. -/
def render (id : SessionId) (frame : Frame) : View :=
  if frame.screen = some id then
    match frame with
    | .screenReset _ generation start =>
      { v with
        lastGeneration := generation, shown := [], generation, start, whole := true, settled := false }
    | .output _ bytes => { v with shown := v.shown ++ bytes }
    | .sequencedOutput _ seq bytes =>
      { v with lastSeq := seq, shown := v.shown ++ bytes, settled := true }
    | .sessionSize .. | .other => v
  else v

/-- A frame for a session that is not viewed: only the core sees it. -/
def skip (frame : Frame) : View :=
  match frame with
  | .screenReset _ generation _ => { v with lastGeneration := generation, whole := false }
  | .output .. => { v with whole := false }
  | .sequencedOutput _ seq _ => { v with lastSeq := seq, whole := false }
  | .sessionSize .. | .other => v

end View

/-- What the phone shows and keeps of each session. -/
structure Phone where
  activeId : Option SessionId := none
  views : SessionId → View := fun _ => {}
  /-- What was written to the terminal since it was cleared. -/
  term : Bytes := []
  /-- The phone has cleared the terminal itself after the last `ScreenReset`. -/
  cleared : Bool := true

/-- `session_loop` and `outputCb` -/
def Phone.receive (p : Phone) (frame : Frame) : Phone :=
  match frame.screen with
  | none => p
  | some id =>
    if p.activeId = some id then
      { p with
        views := Function.update p.views id ((p.views id).render id frame)
        term := match frame with
          | .screenReset .. => []
          | .output _ bytes | .sequencedOutput _ _ bytes => p.term ++ bytes
          | .sessionSize .. | .other => p.term
        cleared := match frame with
          | .screenReset .. => false
          | _ => p.cleared }
    else { p with views := Function.update p.views id ((p.views id).skip frame) }

/-! ## The system -/

/-- The lifetimes of the host with their sessions, the link, and the phone. -/
structure World where
  sessions : Nat → SessionId → Session := fun _ _ => {}
  /-- The lifetime at the other end of the link. -/
  link : Option Nat := none
  /-- Commands that the host has not handled. -/
  inbox : List Command := []
  queue : List Frame := []
  /-- Frames that the phone has not received. -/
  wire : List Frame := []
  active : Option Forwarder := none
  /-- `active_id` of the connection. -/
  viewed : SessionId := 0
  phone : Phone := {}

namespace World

variable (w : World)

/-- All frames on the way, in the order in which the phone will get them. -/
def inFlight : List Frame :=
  w.wire ++ w.queue ++ (w.active.map (·.pending)).getD []

/-- A session of a lifetime goes on. -/
def updateSession (life : Nat) (id : SessionId) (f : Session → Session) : World :=
  let sessions := Function.update (w.sessions life) id (f (w.sessions life id))
  { w with sessions := Function.update w.sessions life sessions }

/-- The phone sends a command, if it has a link. -/
def send (command : Command) : World :=
  if w.link.isSome then { w with inbox := w.inbox ++ [command] } else w

/-- `attach` -/
def attach (life : Nat) (id : SessionId) : World :=
  let s := w.sessions life id
  if !s.listed then { w with active := none }
  else if s.agent then { w with active := none, wire := w.wire ++ [.other] }
  else
    { w with
      wire := w.wire ++ [resetFrame id life s, .sessionSize id s.size] ++ snapshotFrames id s
      active := some { id, taken := s.out.length } }

/-- `attach_resume` for a session that is there -/
def attachResume (life : Nat) (id : SessionId) (afterSeq generation : Nat) : World :=
  let s := w.sessions life id
  if generation ≠ life then w.attach life id
  else if s.agent then w.attach life id
  else
    match s.deltaSince afterSeq with
    | none => w.attach life id
    | some (chunks, throughSeq) =>
      { w with
        wire := w.wire ++ [.sessionSize id s.size] ++ deltaFrames id chunks [] afterSeq ++
          [.sequencedOutput id throughSeq []]
        active := some { id, taken := s.out.length } }

/-- The handler takes a command. -/
def handle (life : Nat) (command : Command) : World :=
  match command with
  | .attach id =>
    if (w.sessions life id).listed then { w with viewed := id }.attach life id
    else { w with wire := w.wire ++ [.other] }
  | .detach => { w with viewed := 0, active := none }
  | .pauseStream => { w with active := none }
  | .resumeStream => if w.viewed ≠ 0 then w.attach life w.viewed else w
  | .outputResume id afterSeq generation =>
    if (w.sessions life id).listed then
      { w with viewed := id }.attachResume life id afterSeq generation
    else w

/-- The forwarder sends a frame to the queue, waits for a place in it, or goes on. -/
def forward (life : Nat) (f : Forwarder) : World :=
  match f.phase with
  | .sending (frame :: frames) lagged =>
    if w.queue.length < outQueueFrames then
      { w with
        queue := w.queue ++ [frame]
        active := some { f with phase := .sending frames lagged } }
    else w
  | _ => { w with active := some (f.step life (w.sessions life f.id)) }

end World

/-- What happens at the host, on the link and at the phone. -/
inductive Event where
  /-- A session is there, for a terminal or an agent. -/
  | opened (life : Nat) (id : SessionId) (agent : Bool)
  | closed (life : Nat) (id : SessionId)
  | resize (life : Nat) (id : SessionId) (size : Nat × Nat)
  /-- `push_output`, in two steps. -/
  | draw (life : Nat) (id : SessionId) (bytes : Bytes)
  | publish (life : Nat) (id : SessionId)
  | connect (life : Nat)
  | linkLost
  /-- The phone opens a session. -/
  | attachTo (id : SessionId)
  /-- The session that is viewed is gone, or could not be opened. -/
  | leave
  | detach
  | pauseStream
  | resumeStream
  /-- `resume_output` for the session that is viewed. -/
  | resumeOutput
  /-- The handler takes the next command. -/
  | handle
  /-- The forwarder goes on. -/
  | forward
  /-- Another task puts a frame into the queue. -/
  | notify
  /-- The handler writes a frame of the queue. -/
  | write
  | receive
  deriving DecidableEq

/-- One event. -/
def World.step (cap : Nat) (w : World) (ev : Event) : World :=
  match ev with
  | .opened life id agent => w.updateSession life id fun s => { s with listed := true, agent }
  | .closed life id => w.updateSession life id fun s => { s with listed := false }
  | .resize life id size => w.updateSession life id fun s => { s with size }
  | .draw life id bytes => w.updateSession life id fun s => s.draw bytes
  | .publish life id => w.updateSession life id fun s => s.publish cap
  | .connect life =>
    if life = 0 then w
    else { w with
      link := some life, inbox := [], queue := [], wire := [], active := none, viewed := 0 }
  | .linkLost => { w with link := none, inbox := [], queue := [], wire := [], active := none }
  | .attachTo id =>
    { w with phone := { w.phone with activeId := some id, term := [], cleared := true } }.send
      (.attach id)
  | .leave => { w with phone := { w.phone with activeId := none, term := [], cleared := true } }
  | .detach => w.send .detach
  | .pauseStream => w.send .pauseStream
  | .resumeStream => w.send .resumeStream
  | .resumeOutput =>
    match w.phone.activeId with
    | none => w
    | some id =>
      w.send (.outputResume id (w.phone.views id).lastSeq (w.phone.views id).lastGeneration)
  | .handle =>
    match w.link, w.inbox with
    | some life, command :: inbox => { w with inbox }.handle life command
    | _, _ => w
  | .forward =>
    match w.link, w.active with
    | some life, some f => w.forward life f
    | _, _ => w
  | .notify =>
    if w.link.isSome ∧ w.queue.length < outQueueFrames then { w with queue := w.queue ++ [.other] }
    else w
  | .write =>
    match w.queue with
    | [] => w
    | frame :: queue => { w with queue, wire := w.wire ++ [frame] }
  | .receive =>
    match w.wire with
    | [] => w
    | frame :: wire => { w with wire, phone := w.phone.receive frame }

end Stream

end Portty
