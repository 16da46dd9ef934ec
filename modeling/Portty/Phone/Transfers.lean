import Portty.Phone.Downloads

/-!
# Transfers and links (`lib.rs`, `download_probe.rs`)

The transfers of the phone over all links of all pairings: downloads (`Phone.Downloads`), uploads
with their streaming tasks, and probes. Transfers outlive links; the command that starts one and the
tasks that stream it hold a clone of the sender of their link.

* **A link** is a row of `links`, named by its index. `outbound` has all that was ever put into its
  queue.
* **A command** takes the owner and the sender from one look at the connection (`looks`), and uses
  them any time later.
* **An upload** is an open file with flags that its tasks share (`UploadTransfer`). It is in the
  registry as long as it is `registered`. What a task reads is up to the operating system.
* **`start_session`** publishes a link, then ends the downloads and the uploads of other pairings,
  then asks for the rest of its own downloads: four steps. So is a task that streams: it checks the
  flags, reads and sends.
* **`started`** says for which pairing a transfer was started.
-/

namespace Portty

namespace Phone

open FileTransfer (Digest fileChunkBytes u64Max)

/-- The number of the transfer that a frame is about. -/
def Frame.number : Frame → Nat
  | .fileGetReq id .. | .filePutReq id .. | .fileChunk id .. | .fileDone id .. | .fileRetry id ..
  | .fileErr id .. => id

namespace Transfers

/-- Probes have ids of their own (`PROBE_ID_BIT`). -/
inductive TransferId where
  | transfer (n : Nat)
  | probe (n : Nat)
  deriving DecidableEq, Repr

/-- A frame in the queue of a link. -/
structure Packet where
  isProbe : Bool := false
  frame : Frame
  deriving DecidableEq, Repr

/-- Probes and transfers have numbers of their own. -/
def Packet.id (p : Packet) : TransferId :=
  if p.isProbe then .probe p.frame.number else .transfer p.frame.number

/-- A link with what was put on it. -/
structure Link where
  owner : TransferOwner
  outbound : List Packet := []
  /-- The session loop has ended. -/
  closed : Bool := false
  deriving DecidableEq, Repr

/-- What a command sees of the current connection. -/
structure Connection where
  link : Nat
  owner : TransferOwner
  deriving DecidableEq, Repr

/-- An upload of the app, over all its links. -/
structure UploadTransfer where
  id : Nat
  owner : TransferOwner
  remotePath : String
  size : Nat
  cancelled : Bool := false
  epoch : Nat := 0
  registered : Bool := true
  deriving DecidableEq, Repr

/-- Where a streaming task is. -/
inductive Phase where
  | checking
  | reading
  | sending (bytes : Bytes)
  | finishing
  | ended
  deriving DecidableEq, Repr

/-- The task that sends an upload on one link. -/
structure UploadTask where
  upload : Nat
  link : Nat
  epoch : Nat
  fromSeq : Nat
  seq : Nat := 0
  /-- For the progress. -/
  sent : Nat
  hasher : Bytes := []
  phase : Phase := .checking
  deriving DecidableEq, Repr

/-- A question to the host, and who waits for the answer. -/
structure Probe where
  id : Nat
  owner : TransferOwner
  link : Nat
  /-- No answer has come. -/
  waiting : Bool := true
  deriving DecidableEq, Repr

/-- A file frame of the host. -/
inductive HostFrame where
  | fileChunk (id : TransferId) (seq : Nat) (bytes : Bytes)
  | fileDone (id : TransferId) (size : Nat) (checksum : Digest)
  | fileRetry (id : TransferId) (fromSeq : Nat)
  | fileErr (id : TransferId) (reason : String)

/-- The transfers of the app, the links and their tasks. -/
structure World where
  downloads : Downloads
  /-- The downloads that are verified, with the links whose loops do it. -/
  dones : List (Nat × Nat) := []
  uploads : List UploadTransfer := []
  tasks : List UploadTask := []
  probes : List Probe := []
  answers : List (Nat × Except String Unit) := []
  links : List Link := []
  connection : Option Connection := none
  looks : List Connection := []
  started : TransferId → Option TransferOwner := fun _ => none
  told : List Notice := []

/-- What happens in the app and on the links, in any order. -/
inductive Event where
  /-- `start_session` publishes a link to a host. -/
  | connect (owner : TransferOwner)
  | cancelDownloads (link : Nat)
  | cancelUploads (link : Nat)
  | resume (link : Nat)
  /-- The connection is taken out of the state. -/
  | disconnect
  | loopEnds (link : Nat)
  /-- A command looks at the connection. -/
  | look
  | download (look : Nat) (remotePath : String) (target : DownloadTarget) (allowOutsideHome : Bool)
      (queued : Bool)
  | upload (look : Nat) (remotePath : String) (size : Nat) (mode : Option Nat) (allowOutsideHome : Bool)
  | probe (look : Nat) (remotePath : String) (allowOutsideHome : Bool) (queued : Bool)
  | probeTimeout (id : Nat)
  /-- A streaming task. -/
  | check (task : Nat)
  | read (task : Nat) (result : Except String Bytes)
  | send (task : Nat)
  /-- The session loop of a link takes a frame. -/
  | frame (link : Nat) (frame : HostFrame) (os : Os)
  /-- It goes on with a `FileDone`. -/
  | finish (link id : Nat) (os : Os)
  | commit (id : Nat) (os : Os)
  | discard (os : Os)

namespace World

variable (blake3 : Bytes → Digest) (windows : Bool) (w : World)

/-- Put frames into the queue of a link. -/
def put (link : Nat) (packets : List Packet) : World :=
  { w with links := w.links.modify link fun l => { l with outbound := l.outbound ++ packets } }

/-- What a step of the downloads sends and tells. -/
def emit (link : Nat) (out : Out) : World :=
  { w with told := w.told ++ out.told }.put link (out.sent.map fun frame => { frame })

/-- Downloads and uploads are numbered together. -/
def nextId : Nat := w.downloads.nextId

/-- A new transfer. -/
def begin (id : TransferId) (owner : TransferOwner) : World :=
  { w with
    downloads := { w.downloads with nextId := w.nextId + 1 }
    started := Function.update w.started id (some owner) }

/-- An upload goes on. -/
def modifyUpload (id : Nat) (f : UploadTransfer → UploadTransfer) : World :=
  { w with uploads := w.uploads.map fun u => if u.id = id then f u else u }

/-- `take_owned_upload` and the check of `FileRetry`. -/
def ownedUpload (id : Nat) (owner : TransferOwner) : Option UploadTransfer :=
  (Rows.find UploadTransfer.id id w.uploads).filter fun u => u.registered && u.owner = owner

/-- `spawn_upload_range` -/
def spawnUploadRange (u : UploadTransfer) (link fromSeq : Nat) : World :=
  let w' := w.modifyUpload u.id fun u => { u with epoch := u.epoch + 1 }
  { w' with
    tasks := w.tasks ++
      [{ upload := u.id, link, epoch := u.epoch + 1, fromSeq
         sent := min (fromSeq * fileChunkBytes) u64Max }] }

/-! ## Commands -/

/-- `download_file` -/
def download (c : Connection) (remotePath : String) (target : DownloadTarget)
    (allowOutsideHome queued : Bool) : World :=
  let id := w.nextId
  let (downloads, out) := w.downloads.register c.owner remotePath target allowOutsideHome
  let w' := { w with
    downloads, started := Function.update w.started (.transfer id) (some c.owner) }
  if queued then w'.emit c.link out
  else { w' with downloads := (downloads.unregister id).1 }

/-- `upload_file`; the send fails if the link is closed. -/
def upload (c : Connection) (remotePath : String) (size : Nat) (mode : Option Nat)
    (allowOutsideHome : Bool) : World :=
  let u : UploadTransfer := { id := w.nextId, owner := c.owner, remotePath, size }
  let w' := w.begin (.transfer u.id) c.owner
  match w.links[c.link]? with
  | some { closed := false, .. } =>
    let w' := { w' with uploads := w.uploads ++ [u] }.put c.link
      [{ frame := .filePutReq u.id remotePath size mode allowOutsideHome }]
    w'.spawnUploadRange u c.link 0
  | _ => { w' with uploads := w.uploads ++ [{ u with registered := false }] }

/-- `probe_download` -/
def probe (c : Connection) (remotePath : String) (allowOutsideHome queued : Bool) : World :=
  let p : Probe := { id := w.nextId, owner := c.owner, link := c.link, waiting := queued }
  let w' := { w.begin (.probe p.id) c.owner with probes := w.probes ++ [p] }
  if queued then
    w'.put c.link [{ isProbe := true, frame := .fileGetReq p.id remotePath 0 allowOutsideHome }]
  else w'

/-- Nobody waits for the probe any more. -/
def stopWaiting (id : Nat) : World :=
  { w with probes := w.probes.map fun p => if p.id = id then { p with waiting := false } else p }

/-- The phone gives up a probe and tells the host. -/
def probeTimeout (p : Probe) : World :=
  (w.stopWaiting p.id).put p.link
    [{ isProbe := true, frame := .fileErr p.id "the phone stopped waiting" }]

/-! ## Streaming tasks -/

/-- A task goes on. -/
def setTask (i : Nat) (t : UploadTask) : World := { w with tasks := w.tasks.set i t }

/-- The task has failed. Nobody is told if another one has taken over. -/
def fail (i : Nat) (t : UploadTask) (u : UploadTransfer) (message : String) : World :=
  let w' := w.setTask i { t with phase := .ended }
  if u.epoch ≠ t.epoch then w'
  else
    { w'.modifyUpload u.id fun u => { u with cancelled := true, registered := false } with
      told := w.told ++ [.error u.id message] }

/-- A task whose upload was cancelled or taken over ends. -/
def check (i : Nat) (t : UploadTask) (u : UploadTransfer) : World :=
  if u.cancelled ∨ u.epoch ≠ t.epoch then w.setTask i { t with phase := .ended }
  else w.setTask i { t with phase := .reading }

/-- The task has read a piece of the file, its end, or an error. -/
def read (i : Nat) (t : UploadTask) (u : UploadTransfer) : Except String Bytes → World
  | .error e => w.fail i t u ("cannot read upload: " ++ e)
  | .ok [] => w.setTask i { t with phase := .finishing }
  | .ok bytes =>
    let t' := { t with hasher := t.hasher ++ bytes }
    if t.fromSeq ≤ t.seq then w.setTask i { t' with phase := .sending bytes }
    else w.setTask i { t' with seq := t.seq + 1, phase := .checking }

/-- The task sends what it has, as long as its link is open. -/
def send (i : Nat) (t : UploadTask) (u : UploadTransfer) : World :=
  let isOpen := (w.links[t.link]?).any fun l => !l.closed
  match t.phase with
  | .sending bytes =>
    if isOpen then
      let sent := min (t.sent + bytes.length) u.size
      let w' := w.setTask i { t with seq := t.seq + 1, sent, phase := .checking }
      let progress : Notice := .progress u.id sent (some u.size) u.remotePath
      { w' with told := w.told ++ [progress] }.put t.link
        [{ frame := .fileChunk u.id t.seq bytes }]
    else w.fail i t u "connection closed during upload"
  | .finishing =>
    if isOpen then
      (w.setTask i { t with phase := .ended }).put t.link
        [{ frame := .fileDone u.id u.size (blake3 t.hasher) }]
    else w.fail i t u "connection closed before upload verification"
  | _ => w

/-- A task and its upload. -/
def onTask (i : Nat) (f : UploadTask → UploadTransfer → World) : World :=
  match w.tasks[i]? with
  | none => w
  | some t =>
    match Rows.find UploadTransfer.id t.upload w.uploads with
    | none => w
    | some u => f t u

/-! ## Frames -/

/-- `answer` of a probe. -/
def answer (id : Nat) (owner : TransferOwner) (result : Except String Unit) (cancel : Option Nat) :
    World :=
  match (Rows.find Probe.id id w.probes).filter fun p => p.waiting && p.owner = owner with
  | none => w
  | some p =>
    let w' := { w.stopWaiting p.id with answers := w.answers ++ [(p.id, result)] }
    match cancel with
    | none => w'
    | some link =>
      w'.put link
        [{ isProbe := true, frame := .fileErr p.id "the phone only checked that the file can be read" }]

/-- `FileErr` ends a download of the host. -/
def failDownload (id : Nat) (owner : TransferOwner) : World :=
  match w.downloads.owned id owner with
  | none => w
  | some d => { w with downloads := w.downloads.abandon d }

/-- `FileErr` ends an upload to the host. -/
def failUpload (id : Nat) (owner : TransferOwner) : World :=
  match w.ownedUpload id owner with
  | none => w
  | some u => w.modifyUpload u.id fun u => { u with registered := false, cancelled := true }

/-- A frame of the host, handed to the transfer or the probe that it is about. -/
def onFrame (link : Nat) (owner : TransferOwner) (os : Os) : HostFrame → World
  | .fileChunk (.probe id) _ _ => w.answer id owner (.ok ()) (some link)
  | .fileChunk (.transfer id) seq bytes =>
    let (downloads, out) := w.downloads.onFileChunk owner id seq bytes os
    { w with downloads }.emit link out
  | .fileDone (.probe id) _ _ => w.answer id owner (.ok ()) none
  | .fileDone (.transfer id) size checksum =>
    match w.downloads.onFileDone owner id size checksum with
    | some downloads => { w with downloads, dones := w.dones ++ [(id, link)] }
    | none =>
      match w.ownedUpload id owner with
      | none => w
      | some u =>
        { w.modifyUpload u.id fun u => { u with registered := false } with
          told := w.told ++ [.complete u.id u.remotePath] }
  | .fileRetry (.probe _) _ => w
  | .fileRetry (.transfer id) fromSeq =>
    match w.ownedUpload id owner with
    | none => w
    | some u => w.spawnUploadRange u link fromSeq
  | .fileErr (.probe id) reason => w.answer id owner (.error reason) none
  | .fileErr (.transfer id) reason =>
    let owned := (w.downloads.owned id owner).isSome || (w.ownedUpload id owner).isSome
    let w' := (w.failDownload id owner).failUpload id owner
    if owned then { w' with told := w.told ++ [.error id reason] } else w'

/-! ## Links -/

/-- The downloads of other pairings end. -/
def cancelDownloads (owner : TransferOwner) : World :=
  let (downloads, out) := w.downloads.cancelOthers owner
  { w with downloads, told := w.told ++ out.told }

/-- The uploads of other pairings end. -/
def cancelUploads (owner : TransferOwner) : World :=
  let stale := fun u : UploadTransfer => u.registered && u.owner ≠ owner
  { w with
    uploads := w.uploads.map fun u =>
      if stale u then { u with registered := false, cancelled := true } else u
    told := w.told ++ (w.uploads.filter stale).map fun u =>
      .error u.id "transfer canceled - it belonged to a different host" }

/-- One event. -/
def step : Event → World
  | .connect owner =>
    { w with
      links := w.links ++ [{ owner }]
      connection := some { link := w.links.length, owner } }
  | .cancelDownloads link =>
    match w.links[link]? with
    | none => w
    | some l => w.cancelDownloads l.owner
  | .cancelUploads link =>
    match w.links[link]? with
    | none => w
    | some l => w.cancelUploads l.owner
  | .resume link =>
    match w.links[link]? with
    | none => w
    | some l => w.emit link { sent := w.downloads.resume l.owner }
  | .disconnect => { w with connection := none }
  | .loopEnds link => { w with links := w.links.modify link fun l => { l with closed := true } }
  | .look => { w with looks := w.looks ++ w.connection.toList }
  | .download look remotePath target allowOutsideHome queued =>
    match w.looks[look]? with
    | none => w
    | some c => w.download c remotePath target allowOutsideHome queued
  | .upload look remotePath size mode allowOutsideHome =>
    match w.looks[look]? with
    | none => w
    | some c => w.upload c remotePath size mode allowOutsideHome
  | .probe look remotePath allowOutsideHome queued =>
    match w.looks[look]? with
    | none => w
    | some c => w.probe c remotePath allowOutsideHome queued
  | .probeTimeout id =>
    match Rows.find Probe.id id w.probes with
    | none => w
    | some p => w.probeTimeout p
  | .check i => w.onTask i fun t u => if t.phase = .checking then w.check i t u else w
  | .read i result => w.onTask i fun t u => if t.phase = .reading then w.read i t u result else w
  | .send i => w.onTask i (w.send blake3 i)
  | .frame link frame os =>
    match w.links[link]? with
    | none => w
    | some l => if l.closed then w else w.onFrame link l.owner os frame
  | .finish link id os =>
    if (id, link) ∈ w.dones then
      let dones := w.dones.filter (·.1 ≠ id)
      let (downloads, out) := w.downloads.handle blake3 windows (.finish id os)
      { w with downloads, dones }.emit link out
    else w
  | .commit id os =>
    let (downloads, out) := w.downloads.handle blake3 windows (.commit id os)
    { w with downloads, told := w.told ++ out.told }
  | .discard os =>
    let (downloads, out) := w.downloads.handle blake3 windows (.discard os)
    { w with downloads, told := w.told ++ out.told }

/-- The phone starts, without a link. -/
def start (files documents : String → Option Bytes) : World where
  downloads := .start files documents

end World

end Transfers

end Phone

end Portty
