import Mathlib.Logic.Function.Basic
import Portty.Lib.Run

/-!
# A shared terminal (`run_share`, `spawn_ipc` of `cli/src/main.rs`)

The tee thread reads the PTY, mirrors it to the local terminal and sends each chunk through a
bounded channel to the task that writes to the pipe of the daemon; the resize thread and, at the
end, the main task send through the same channel. A send takes a permit of the channel, or waits in
line for one; a message that the writer takes frees its permit, which goes to the first in the line
(`tokio::sync::mpsc`).

The main task looks at its flags from time to time: `portty exit` has set `detach`, `Kill` has set
`done`, the shell has exited. On `detach` it tries once to send `Exited` and says that the terminal
is local-only. When it leaves the loop, it waits for the tee thread, sends `Exited`, and waits for
the writer, each with a time limit.

The fields after `typed` only record: the bytes that were read, how many they were when the terminal
was announced local-only, and how the connection ended.
-/

namespace Portty.Cli.Share

/-- What the terminal writes. -/
abbrev Bytes := List UInt8

/-- `RelayToHost`, as a share sends it. -/
inductive RelayToHost where
  | register (title : String) (cols rows : Nat)
  | output (bytes : Bytes)
  | sizeChanged (cols rows : Nat)
  | exited
  deriving DecidableEq

/-- The frames that the queue holds. -/
def relayTeeFrames : Nat := 512

/-- The threads that send into the queue. -/
inductive Sender where
  | tee
  | resize
  | main
  deriving DecidableEq

/-- Where a sender is in `send`. -/
inductive Send where
  | none
  /-- In the line for a permit. -/
  | waiting (m : RelayToHost)
  /-- It has a permit, and has not put the message into the queue. -/
  | granted (m : RelayToHost)
  deriving DecidableEq

/-- Where the task is that writes to the pipe. -/
inductive Writer where
  | none
  | idle
  | writing (m : RelayToHost)
  /-- It has ended, and the receiver of the channel is dropped. -/
  | done
  deriving DecidableEq

/-- Where the main task is. -/
inductive Phase where
  | connecting
  | running
  /-- It waits for the tee thread. -/
  | joining
  /-- It sends `Exited`. -/
  | sending
  /-- It waits for the writer. -/
  | flushing
  | exited
  deriving DecidableEq

/-- The threads of a share, the queue and the pipe. -/
structure World where
  title : String
  cols : Nat
  rows : Nat
  /-- The size that the resize thread saw last. -/
  last : Nat × Nat := (cols, rows)
  queue : List RelayToHost := []
  permits : Nat := relayTeeFrames
  line : List Sender := []
  sends : Sender → Send := fun _ => .none
  closed : Bool := false
  /-- `tee_open` -/
  teeOpen : Bool := true
  teeEnded : Bool := false
  writer : Writer := .none
  pipe : List RelayToHost := []
  phase : Phase := .connecting
  detach : Bool := false
  done : Bool := false
  childExited : Bool := false
  /-- What the phone has typed. -/
  typed : Bytes := []
  read : Bytes := []
  /-- `detached`, and the number of bytes read until then. -/
  announced : Option Nat := none
  /-- A write failed: the daemon has closed the pipe. -/
  broken : Bool := false
  /-- No daemon was there. -/
  offline : Bool := false

/-- What the threads and the user do, in any order. -/
inductive Event where
  /-- The daemon was there, or not. -/
  | connect (ok : Bool)
  | read (bytes : Bytes)
  | eof
  | resized (cols rows : Nat)
  /-- A sender goes on that waits, or has a permit. -/
  | wake (s : Sender)
  /-- The writer takes the next message. -/
  | take
  | write (ok : Bool)
  /-- `portty exit`, answered with `ok`. -/
  | detach
  | input (bytes : Bytes)
  | kill
  | childExit
  /-- A turn of the loop of the main task. -/
  | tick
  /-- The main task goes on after the loop. -/
  | proceed
  /-- A time limit of the main task has passed. -/
  | timeout

namespace World

variable (w : World)

/-- A thread sends, waits, or is done. -/
def setSend (s : Sender) (send : Send) : World := { w with sends := Function.update w.sends s send }

/-- `send` of an open channel. -/
def send (s : Sender) (m : RelayToHost) : World :=
  if w.permits > 0 then { w with permits := w.permits - 1 }.setSend s (.granted m)
  else { w with line := w.line ++ [s] }.setSend s (.waiting m)

/-- `try_send` -/
def trySend (m : RelayToHost) : World :=
  if w.closed || w.permits == 0 then w
  else { w with permits := w.permits - 1, queue := w.queue ++ [m] }

/-- The sender gets a permit that is free. -/
def grant (s : Sender) : World :=
  match w.sends s with
  | .waiting m => w.setSend s (.granted m)
  | _ => w

/-- A permit is free. -/
def release : World :=
  match w.line with
  | [] => { w with permits := w.permits + 1 }
  | s :: rest => { w with line := rest }.grant s

/-- A thread that waits for room goes on. -/
def wake (s : Sender) : World :=
  match w.sends s with
  | .none => w
  | .granted m => { w with queue := if w.closed then w.queue else w.queue ++ [m] }.setSend s .none
  | .waiting _ =>
    if w.closed then { w with teeOpen := w.teeOpen && s ≠ Sender.tee }.setSend s .none
    else w

/-- The writer ends, and drops its receiver. -/
def finish : World := { w with writer := .done, closed := true, queue := [] }

/-- The tee thread. -/
def readPty (bytes : Bytes) : World :=
  if w.teeEnded || w.sends .tee ≠ .none then w
  else
    let w := { w with read := w.read ++ bytes }
    if !w.teeOpen then w
    else if w.closed then { w with teeOpen := false }
    else w.send .tee (.output bytes)

/-- The resize thread sees a new size, and sends it. -/
def resized (cols rows : Nat) : World :=
  if w.sends .resize ≠ .none || w.last == (cols, rows) then w
  else
    let w := { w with last := (cols, rows) }
    if w.closed then w else w.send .resize (.sizeChanged cols rows)

/-- The writer has written its message, or the pipe is broken. -/
def write (ok : Bool) : World :=
  match w.writer with
  | .writing m =>
    if !ok then { w with broken := true }.finish
    else
      let w := { w with pipe := w.pipe ++ [m], writer := .idle }
      if m = .exited then w.finish else w
  | .none | .idle | .done => w

/-- The writer takes the next message, and a thread that waits gets its room. -/
def take : World :=
  match w.writer, w.queue with
  | .idle, m :: rest => { w with queue := rest, writer := .writing m }.release
  | _, _ => w

/-- The daemon is there, or the terminal stays local. -/
def connect (ok : Bool) : World :=
  if w.phase ≠ .connecting then w
  else if ok then { w with phase := .running, writer := .writing (.register w.title w.cols w.rows) }
  else { w with phase := .running, closed := true, queue := [], offline := true }

/-- The main task detaches. -/
def stopSharing : World := { w.trySend .exited with announced := some w.read.length }

/-- The loop of the main thread: it ends, stops sharing, or goes on. -/
def tick : World :=
  if w.phase ≠ .running then w
  else if w.done then { w with phase := .joining }
  else
    let w := if w.announced.isNone && w.detach then w.stopSharing else w
    if w.childExited then { w with phase := .joining } else w

/-- The main task sends `Exited` at the end. -/
def sendExited : World :=
  if w.closed then { w with phase := .flushing } else { w with phase := .sending }.send .main .exited

/-- The main thread takes its next step at the end. -/
def proceed : World :=
  match w.phase with
  | .joining => if w.teeEnded then w.sendExited else w
  | .sending => if w.sends .main = .none then { w with phase := .flushing } else w
  | .flushing => if w.closed then { w with phase := .exited } else w
  | .connecting | .running | .exited => w

/-- The `send` of the main task is dropped. -/
def cancel : World :=
  match w.sends .main with
  | .none => w
  | .waiting _ => { w with line := w.line.filter (· ≠ Sender.main) }.setSend .main .none
  | .granted _ => (w.setSend .main .none).release

/-- The main thread waits no longer. -/
def timeout : World :=
  match w.phase with
  | .joining => w.sendExited
  | .sending => { w.cancel with phase := .flushing }
  | .flushing => { w with phase := .exited }
  | .connecting | .running | .exited => w

/-- One event. -/
def step (e : Event) : World :=
  if w.phase = .exited then w
  else
    match e with
    | .connect ok => w.connect ok
    | .read bytes => w.readPty bytes
    | .eof => if w.sends .tee = .none then { w with teeEnded := true } else w
    | .resized cols rows => w.resized cols rows
    | .wake s => w.wake s
    | .take => w.take
    | .write ok => w.write ok
    | .detach => { w with detach := true }
    | .input bytes => { w with typed := w.typed ++ bytes }
    | .kill => { w with done := true }
    | .childExit => { w with childExited := true }
    | .tick => w.tick
    | .proceed => w.proceed
    | .timeout => w.timeout

end World

/-! ## What a share promises -/

/-- The output in a message. -/
def RelayToHost.bytes : RelayToHost → Bytes
  | .output bytes => bytes
  | .register .. | .sizeChanged .. | .exited => []

/-- The output in the messages. -/
def outputs (messages : List RelayToHost) : Bytes := messages.flatMap RelayToHost.bytes

/-- The pipe gets no further message, if nothing else is sent. -/
def Drained (w : World) : Prop :=
  w.phase = .exited ∨ w.writer = .done ∨ w.writer = .none ∧ w.closed = true ∨ w.writer = .idle ∧ w.queue = []

/-- After the terminal was announced local-only nothing more is shared. -/
structure Stops (w : World) : Prop where
  ordered : outputs w.pipe <+: w.read
  last : .exited ∉ w.pipe.dropLast
  /-- Nothing is written that was read after the terminal was announced local-only. -/
  silent : ∀ n ∈ w.announced, (outputs w.pipe).length ≤ n
  /-- The daemon has got `Exited`, or it has closed the pipe, or was not there. -/
  told : w.announced ≠ none → Drained w → .exited ∈ w.pipe ∨ w.broken = true ∨ w.offline = true

/-- The channel has a free permit, or is closed, when the main task detaches, and the main task does
not end while the writer has something to write. -/
def Meets (w : World) : Event → Prop
  | .tick => w.phase = .running → w.done = false → w.announced = none → w.detach = true →
    w.permits > 0 ∨ w.closed = true
  | .timeout => w.phase = .flushing → w.announced ≠ none → w.closed = true
  | _ => True

end Portty.Cli.Share
