import Portty.Host.FileTransfer
import Portty.Lib.Chunks
import Portty.Lib.Rows

/-!
# Downloads of the phone (`lib.rs`, `local_files.rs`)

The downloads of the phone across links: `download_file`, the file frames of `session_loop`, and
what `start_session` does to the downloads of the link before. A download is staged in a `.part`
file, which is renamed onto its destination, or, on Android, copied into a document.

* **Files.** The staging file of a download has a random name, so no destination is one (`Path`).
  `tokio::fs::File` writes in the background: a write that fails may be reported by the next call
  (`File.lost`).
* **`FileDone`** takes the download out of the registry before it awaits anything. What it does then
  is a step of its own (`finish`), as are the copy into a document (`commit`) and the removal of a
  document that was not used (`discard`).
* **The operating system** decides how a call ends (`Os`): an error text if it fails.
* **`blake3`** is a parameter; a hasher is the bytes it has been fed.
-/

namespace Portty

namespace Phone

open FileTransfer (Digest WriteResult fileChunkBytes u64Max)

/-- Of one download. -/
def maxDownloadBytes : Nat := 4 * 1024 * 1024 * 1024

/-- Of all downloads together. -/
def maxTotalDownloadBytes : Nat := 6 * 1024 * 1024 * 1024

/-- How often a download begins again. -/
def maxDownloadRestarts : Nat := 3

/-- The most that a counter of 32 bits holds. -/
def u32Max : Nat := 2 ^ 32 - 1

/-- A sum that stops at the most. -/
def saturatingAdd (most a b : Nat) : Nat := min (a + b) most

/-- Which pairing a transfer belongs to. -/
structure TransferOwner where
  peerDeviceId : DeviceId
  pairId : PairId
  deriving DecidableEq, Repr

/-! ## Files -/

/-- The files that a download has to do with. -/
inductive Path where
  /-- Chosen by the user. -/
  | user (name : String)
  /-- `.portty-download-<id>-<random>.part` -/
  | temporary (id : Nat)
  /-- What was at the destination, on Windows. -/
  | backup (id : Nat)
  deriving DecidableEq, Repr

/-- The files and documents with their contents. -/
structure Disk where
  files : Path → Option Bytes
  /-- Android documents, by URI. -/
  documents : String → Option Bytes

namespace Disk

variable (disk : Disk)

/-- A file has this content, or is gone. -/
def set (p : Path) (content : Option Bytes) : Disk :=
  { disk with files := Function.update disk.files p content }

/-- A document has this content, or is gone. -/
def setDocument (uri : String) (content : Option Bytes) : Disk :=
  { disk with documents := Function.update disk.documents uri content }

/-- A file is removed. -/
def removeFile (p : Path) : Disk := disk.set p none

/-- A file replaces another one. -/
def rename (source target : Path) (os : Option String) : Except String Unit × Disk :=
  match os, disk.files source with
  | some e, _ => (.error e, disk)
  | none, none => (.error "no such file", disk)
  | none, some content => (.ok (), (disk.set target (some content)).set source none)

end Disk

/-- `tokio::fs::File`. If `lost`, a write has failed in the background. -/
structure File where
  pos : Nat := 0
  lost : Bool := false
  deriving DecidableEq, Repr

/-- Write at a position; a gap before it is filled with zeros. -/
def writeAt (content : Bytes) (pos : Nat) (bytes : Bytes) : Bytes :=
  content.take pos ++ List.replicate (pos - content.length) 0 ++ bytes ++
    content.drop (pos + bytes.length)

/-- A write that fails is told by the next call; what is lost stays unknown till then. -/
def File.writeAll (f : File) (content bytes : Bytes) (r : WriteResult) :
    Except String Unit × File × Bytes :=
  if f.lost then (.error "write failed", f, content)
  else match r with
    | .ok => (.ok (), { f with pos := f.pos + bytes.length }, writeAt content f.pos bytes)
    | .lost n => (.ok (), { pos := f.pos + n, lost := true }, writeAt content f.pos (bytes.take n))
    | .failed n e => (.error e, { pos := f.pos + n, lost := true }, writeAt content f.pos (bytes.take n))

/-! ## Downloads -/

/-- Where a download goes. -/
inductive DownloadTarget where
  | path (name : String)
  | document (uri label : String)
  deriving DecidableEq, Repr

/-- The name that the user is told. -/
def DownloadTarget.label : DownloadTarget → String
  | .path name => name
  | .document _ label => label

/-- A download with its id. Its staging file is `Path.temporary id`. -/
structure DownloadTransfer where
  id : Nat
  owner : TransferOwner
  restarts : Nat := 0
  remotePath : String
  target : DownloadTarget
  file : File := {}
  nextSeq : Nat := 0
  written : Nat := 0
  /-- The bytes that the hasher was fed. -/
  hasher : Bytes := []
  allowOutsideHome : Bool
  deriving DecidableEq, Repr

/-- A download that `FileDone` has taken out of the registry. -/
structure Verification where
  transfer : DownloadTransfer
  size : Nat
  checksum : Digest
  deriving DecidableEq, Repr

/-- A verified download on its way into its document. -/
structure Commit where
  id : Nat
  uri : String
  label : String
  size : Nat
  checksum : Digest
  deriving DecidableEq, Repr

/-- The downloads of the app with the files they write. -/
structure Downloads where
  nextId : Nat := 1
  downloads : List DownloadTransfer := []
  verifying : List Verification := []
  commits : List Commit := []
  /-- The documents of downloads that were dropped, with their labels. -/
  discards : List (String × String) := []
  disk : Disk

/-- A frame of the phone about a transfer. -/
inductive Frame where
  | fileGetReq (id : Nat) (path : String) (startSeq : Nat) (allowOutsideHome : Bool)
  | filePutReq (id : Nat) (path : String) (size : Nat) (mode : Option Nat) (allowOutsideHome : Bool)
  | fileChunk (id seq : Nat) (bytes : Bytes)
  | fileDone (id size : Nat) (checksum : Digest)
  | fileRetry (id fromSeq : Nat)
  | fileErr (id : Nat) (reason : String)
  deriving DecidableEq, Repr

/-- An event for the user interface. -/
inductive Notice where
  | progress (id transferred : Nat) (total : Option Nat) (path : String)
  | complete (id : Nat) (path : String)
  | error (id : Nat) (message : String)
  | note (message : String)
  deriving DecidableEq, Repr

/-- What a step sends to the host and tells the user. -/
structure Out where
  sent : List Frame := []
  told : List Notice := []
  deriving DecidableEq, Repr

/-- What the operating system answers: an error text, if a call fails. -/
structure Os where
  write : WriteResult := .ok
  setLen : Option String := none
  seek : Option String := none
  flush : Option String := none
  sync : Option String := none
  rename : Option String := none
  /-- On Windows: `try_exists` of the destination and of the backup, the rename of the destination
  to the backup and back, and the removal of the backup. -/
  tryExists : Option String := none
  tryExistsBackup : Option String := none
  retain : Option String := none
  rollback : Option String := none
  removeBackup : Option String := none
  /-- Of a document: the staging file and the document are opened, and the copy fails after some
  bytes. -/
  openStaging : Option String := none
  openDocument : Option String := none
  copy : Option (Nat × String) := none
  /-- The document cannot be checked or removed. -/
  inspect : Option String := none
  delete : Option String := none

namespace Downloads

variable (s : Downloads)

/-- The bytes of the temporary file. -/
def content (id : Nat) : Bytes := (s.disk.files (.temporary id)).getD []

/-- A `SavedDocument` is dropped. -/
def dropTarget : DownloadTarget → Downloads
  | .path _ => s
  | .document uri label => { s with discards := s.discards ++ [(uri, label)] }

/-- The download is dropped and its staging file removed. -/
def abandon (d : DownloadTransfer) : Downloads :=
  { s with
    downloads := Rows.remove DownloadTransfer.id d.id s.downloads
    disk := s.disk.removeFile (.temporary d.id) }.dropTarget d.target

/-- `get` and the check of the owner. -/
def owned (id : Nat) (owner : TransferOwner) : Option DownloadTransfer :=
  (Rows.find DownloadTransfer.id id s.downloads).filter (·.owner = owner)

/-- `download_file` registers a download for the link of `owner`. -/
def register (owner : TransferOwner) (remotePath : String) (target : DownloadTarget)
    (allowOutsideHome : Bool) : Downloads × Out :=
  let d : DownloadTransfer := { id := s.nextId, owner, remotePath, target, allowOutsideHome }
  ({ s with
      nextId := s.nextId + 1
      downloads := Rows.put DownloadTransfer.id d s.downloads
      disk := s.disk.set (.temporary d.id) (some []) },
    { sent := [.fileGetReq d.id remotePath 0 allowOutsideHome] })

/-- The request could not be queued, and `download_file` takes the download back. -/
def unregister (id : Nat) : Downloads × Out :=
  match Rows.find DownloadTransfer.id id s.downloads with
  | none => (s, {})
  | some d => (s.abandon d, {})

/-- What the downloads have written so far. -/
def liveTotal : Nat := (s.downloads.map DownloadTransfer.written).sum

/-- The chunk would go over the bound of one download or of all. -/
def overBudget (d : DownloadTransfer) (bytes : Bytes) : Bool :=
  maxDownloadBytes < saturatingAdd u64Max d.written bytes.length ||
    maxTotalDownloadBytes < saturatingAdd u64Max s.liveTotal bytes.length

/-- What the user is told then. -/
def overBudgetText : String :=
  "download stopped: transfers may not exceed " ++
    toString (maxDownloadBytes / (1024 * 1024 * 1024)) ++ " GiB each or " ++
    toString (maxTotalDownloadBytes / (1024 * 1024 * 1024)) ++ " GiB in total"

/-- The next chunk is written; any other one starts the download again, up to the bound. -/
def onFileChunk (owner : TransferOwner) (id seq : Nat) (bytes : Bytes) (os : Os) :
    Downloads × Out :=
  match s.owned id owner with
  | none => (s, {})
  | some d =>
    if seq ≠ d.nextSeq then (s, { sent := [.fileRetry id d.nextSeq] })
    else if s.overBudget d bytes then
      (s.abandon d,
        { sent := [.fileErr id "download exceeded the phone's size limit"]
          told := [.error id overBudgetText] })
    else if fileChunkBytes < bytes.length then
      (s, { told := [.error id "host sent an oversized file chunk"] })
    else match d.file.writeAll (s.content id) bytes os.write with
      | (.error e, _) =>
        (s.abandon d,
          { sent := [.fileErr id "phone could not save the download"]
            told := [.error id ("could not save download: " ++ e)] })
      | (.ok (), file, content) =>
        let d' := { d with
          file
          hasher := d.hasher ++ bytes
          written := d.written + bytes.length
          nextSeq := (d.nextSeq + 1) % 2 ^ 64 }
        ({ s with
            downloads := Rows.put DownloadTransfer.id d' s.downloads
            disk := s.disk.set (.temporary id) (some content) },
          { told := [.progress id d'.written none d'.target.label] })

/-- `FileDone` takes the download out of the registry. -/
def onFileDone (owner : TransferOwner) (id size : Nat) (checksum : Digest) : Option Downloads :=
  (s.owned id owner).map fun d =>
    { s with
      downloads := Rows.remove DownloadTransfer.id id s.downloads
      verifying := s.verifying ++ [{ transfer := d, size, checksum }] }

/-- The host gives up, and so does the download. -/
def onFileErr (owner : TransferOwner) (id : Nat) (reason : String) : Option (Downloads × Out) :=
  (s.owned id owner).map fun d => (s.abandon d, { told := [.error id reason] })

/-- The part of `start_session` that ends the downloads of other pairings. -/
def cancelOthers (owner : TransferOwner) : Downloads × Out :=
  let stale := s.downloads.filter (·.owner ≠ owner)
  (stale.foldl abandon s,
    { told := stale.map fun d => .error d.id "transfer canceled - it belonged to a different host" })

/-- The part of `start_session` that asks for the rest of the interrupted downloads. -/
def resume (owner : TransferOwner) : List Frame :=
  (s.downloads.filter (·.owner = owner)).map fun d =>
    .fileGetReq d.id d.remotePath d.nextSeq d.allowOutsideHome

/-! ## The end of a download -/

/-- `replace_download_file` -/
def replaceDownloadFile (windows : Bool) (disk : Disk) (id : Nat) (target : Path) (os : Os) :
    Except String Unit × Disk :=
  if windows then
    match os.tryExists, disk.files target with
    | some e, _ => (.error e, disk)
    | none, none => disk.rename (.temporary id) target os.rename
    | none, some _ =>
      match os.tryExistsBackup, disk.files (.backup id) with
      | some e, _ => (.error e, disk)
      | none, some _ => (.error "download backup already exists; refusing to overwrite it", disk)
      | none, none =>
        match disk.rename target (.backup id) os.retain with
        | (.error e, disk) => (.error e, disk)
        | (.ok (), disk) =>
          match disk.rename (.temporary id) target os.rename with
          | (.error e, disk) =>
            match disk.rename (.backup id) target os.rollback with
            | (.ok (), disk) => (.error e, disk)
            | (.error e', disk) =>
              (.error ("could not install verified download (" ++ e ++
                "); original remains at the backup because rollback failed (" ++ e' ++ ")"), disk)
          | (.ok (), disk) =>
            match os.removeBackup with
            | some e => (.error e, disk)
            | none => (.ok (), disk.removeFile (.backup id))
  else disk.rename (.temporary id) target os.rename

variable (blake3 : Bytes → Digest) (windows : Bool)

/-- The file of a download that starts again from zero. The code does not look at how `set_len` and
`seek` end. -/
def restartFile (d : DownloadTransfer) (os : Os) : Downloads :=
  let d' := { d with
    restarts := saturatingAdd u32Max d.restarts 1
    nextSeq := 0
    written := 0
    hasher := []
    file := if os.seek = none then { d.file with pos := 0 } else d.file }
  { s with
    downloads := Rows.put DownloadTransfer.id d' s.downloads
    disk := if os.setLen = none then s.disk.set (.temporary d.id) (some []) else s.disk }

/-- The size and the checksum of the `FileDone` are not those of what was received. -/
def Verification.Fails (v : Verification) : Prop :=
  v.transfer.written ≠ v.size ∨ blake3 v.transfer.hasher ≠ v.checksum

instance (v : Verification) : Decidable (Verification.Fails blake3 v) :=
  inferInstanceAs (Decidable (_ ∨ _))

/-- The rest of the arm of `FileDone`. -/
def finish (v : Verification) (os : Os) : Downloads × Out :=
  let d := v.transfer
  let s := { s with verifying := Rows.remove (·.transfer.id) d.id s.verifying }
  if Verification.Fails blake3 v then
    if maxDownloadRestarts < saturatingAdd u32Max d.restarts 1 then
      (s.abandon d,
        { sent := [.fileErr d.id "phone gave up after repeated verification failures"]
          told := [.error d.id ("download failed verification " ++ toString maxDownloadRestarts ++
            " times - giving up")] })
    else (s.restartFile d os, { sent := [.fileRetry d.id 0] })
  else
    match if d.file.lost then some "write failed" else os.flush with
    | some e => (s.abandon d, { told := [.error d.id ("could not flush verified download: " ++ e)] })
    | none =>
      match os.sync with
      | some e => (s.abandon d, { told := [.error d.id ("could not sync verified download: " ++ e)] })
      | none =>
        match d.target with
        | .document uri label =>
          ({ s with
              commits := s.commits ++
                [{ id := d.id, uri, label, size := v.size, checksum := v.checksum }] }, {})
        | .path name =>
          match replaceDownloadFile windows s.disk d.id (.user name) os with
          | (.ok (), disk) => ({ s with disk }, { told := [.complete d.id name] })
          | (.error e, disk) =>
            ({ s with disk := disk.removeFile (.temporary d.id) }, { told := [.error d.id e] })

end Downloads

/-! ## Documents -/

/-- What became of an empty document that is not needed. -/
inductive Discard where
  | removed
  | holdsData
  | unchecked (why : String)
  | failed (why : String)
  deriving DecidableEq, Repr

/-- `discard_if_empty`, and what is left of the document. -/
def discardIfEmpty (content : Option Bytes) (os : Os) : Discard × Option Bytes :=
  match os.inspect, content with
  | some why, _ => (.unchecked why, content)
  | none, none => (.unchecked "could not open it", content)
  | none, some (_ :: _) => (.holdsData, content)
  | none, some [] =>
    match os.delete with
    | some why => (.failed why, content)
    | none => (.removed, none)

/-- What the user is told if the document may be left. -/
def cleanupNote (label : String) : Discard → Option String
  | .failed why => some ("The empty file \"" ++ label ++
      "\" made for this download could not be removed (" ++ why ++ ") - delete it in your files app.")
  | .unchecked why => some ("Could not check \"" ++ label ++ "\" (" ++ why ++
      ") - if it is an empty file left by this download, delete it in your files app.")
  | .removed | .holdsData => none

/-- A copy into a document has failed. -/
structure CommitFailure where
  error : String
  /-- The document was opened, and so truncated. -/
  destinationOpened : Bool
  /-- It was cut back to empty afterwards. -/
  emptied : Bool
  deriving DecidableEq, Repr

/-- What the user is told of the failure and of the document. -/
def commitFailureMessage (label : String) (failure : CommitFailure) (outcome : Discard) : String :=
  let message := "could not save the download into " ++ label ++ ": " ++ failure.error
  let left (why : String) (empty : Bool) : String :=
    if empty || failure.emptied then
      label ++ " was left empty and could not be removed (" ++ why ++ "); delete it"
    else if failure.destinationOpened then
      label ++ " may be incomplete and could not be removed (" ++ why ++ "); delete it"
    else "nothing was written to " ++ label ++ "; if it is empty, delete it (" ++ why ++ ")"
  match outcome with
  | .removed => message ++ " - the unfinished file was removed"
  | .failed why => message ++ " - " ++ left why true
  | .unchecked why => message ++ " - " ++ left why false
  | .holdsData =>
    if failure.destinationOpened then message ++ " - " ++ label ++ " may be incomplete; delete it"
    else message

/-- The loop of `copy_verified`: the bytes that were read, or the error, and what is in the
destination. -/
def copyPieces (size : Nat) (fault : Option (Nat × String)) :
    List Bytes → Bytes → Except String Unit × Bytes
  | [], copied => (.ok (), copied)
  | piece :: rest, copied =>
    if size < copied.length + piece.length then
      (.error "the staged download is larger than what was verified", copied)
    else
      match fault with
      | some (n, e) =>
        if n < copied.length + piece.length then
          (.error e, copied ++ piece.take (n - copied.length))
        else copyPieces size fault rest (copied ++ piece)
      | none => copyPieces size fault rest (copied ++ piece)

/-- The destination has the bytes that were hashed. A pipe cannot be synced, which is no error. -/
def copyVerified (blake3 : Bytes → Digest) (source : Bytes) (size : Nat) (checksum : Digest)
    (os : Os) :
    Except String Unit × Bytes :=
  match copyPieces size os.copy (Chunks.pieces (64 * 1024) source) [] with
  | (.error e, copied) => (.error e, copied)
  | (.ok (), copied) =>
    if copied.length ≠ size ∨ blake3 copied ≠ checksum then
      (.error "the staged download no longer matches what was verified", copied)
    else match os.flush, os.sync with
      | some e, _ | none, some e => (.error e, copied)
      | none, none => (.ok (), copied)

/-- `commit_by_copy`, and what is in the document. -/
def commitByCopy (blake3 : Bytes → Digest) (staging document : Option Bytes) (size : Nat)
    (checksum : Digest) (os : Os) : Except CommitFailure Unit × Option Bytes :=
  match os.openStaging, staging, os.openDocument with
  | some error, _, _ => (.error ⟨error, false, false⟩, document)
  | none, none, _ => (.error ⟨"no such file", false, false⟩, document)
  | none, some _, some error => (.error ⟨error, false, false⟩, document)
  | none, some source, none =>
    match copyVerified blake3 source size checksum os with
    | (.ok (), copied) => (.ok (), some copied)
    | (.error error, copied) =>
      (.error ⟨error, true, os.setLen = none⟩, some (if os.setLen = none then [] else copied))

namespace Downloads

variable (s : Downloads) (blake3 : Bytes → Digest) (windows : Bool)

/-- `spawn_document_commit` -/
def commit (c : Commit) (os : Os) : Downloads × Out :=
  let s' := { s with
    commits := Rows.remove Commit.id c.id s.commits
    disk := s.disk.removeFile (.temporary c.id) }
  match commitByCopy blake3 (s.disk.files (.temporary c.id)) (s.disk.documents c.uri) c.size c.checksum
      os with
  | (.ok (), document) =>
    ({ s' with disk := s'.disk.setDocument c.uri document }, { told := [.complete c.id c.label] })
  | (.error failure, document) =>
    let (outcome, document) := discardIfEmpty document os
    ({ s' with disk := s'.disk.setDocument c.uri document },
      { told := [.error c.id (commitFailureMessage c.label failure outcome)] })

/-- The oldest document that was dropped. -/
def discard (os : Os) : Downloads × Out :=
  match s.discards with
  | [] => (s, {})
  | (uri, label) :: discards =>
    let (outcome, document) := discardIfEmpty (s.disk.documents uri) os
    ({ s with discards, disk := s.disk.setDocument uri document },
      { told := (cleanupNote label outcome).toList.map .note })

/-! ## Runs -/

end Downloads

/-- What happens to the downloads. The owner of a frame is that of the link it arrives on. -/
inductive DownloadEvent where
  | register (owner : TransferOwner) (remotePath : String) (target : DownloadTarget)
      (allowOutsideHome : Bool)
  | unregister (id : Nat)
  | fileChunk (owner : TransferOwner) (id seq : Nat) (bytes : Bytes) (os : Os)
  | fileDone (owner : TransferOwner) (id size : Nat) (checksum : Digest)
  | finish (id : Nat) (os : Os)
  | fileErr (owner : TransferOwner) (id : Nat) (reason : String)
  | cancelOthers (owner : TransferOwner)
  | resume (owner : TransferOwner)
  | commit (id : Nat) (os : Os)
  | discard (os : Os)

namespace Downloads

variable (blake3 : Bytes → Digest) (windows : Bool) (s : Downloads)

/-- An event, with what is sent and told because of it. -/
def handle : DownloadEvent → Downloads × Out
  | .register owner remotePath target allowOutsideHome =>
    s.register owner remotePath target allowOutsideHome
  | .unregister id => s.unregister id
  | .fileChunk owner id seq bytes os => s.onFileChunk owner id seq bytes os
  | .fileDone owner id size checksum => ((s.onFileDone owner id size checksum).getD s, {})
  | .finish id os =>
    match Rows.find (·.transfer.id) id s.verifying with
    | none => (s, {})
    | some v => s.finish blake3 windows v os
  | .fileErr owner id reason => (s.onFileErr owner id reason).getD (s, {})
  | .cancelOthers owner => s.cancelOthers owner
  | .resume owner => (s, { sent := s.resume owner })
  | .commit id os =>
    match Rows.find Commit.id id s.commits with
    | none => (s, {})
    | some c => s.commit blake3 c os
  | .discard os => s.discard os

/-- The event alone. -/
def step (ev : DownloadEvent) : Downloads := (s.handle blake3 windows ev).1

/-- No download has been started, and no staging file is there. -/
def start (files documents : String → Option Bytes) : Downloads where
  disk :=
    { files := fun
        | .user name => files name
        | .temporary _ | .backup _ => none
      documents }

end Downloads

end Phone

end Portty
