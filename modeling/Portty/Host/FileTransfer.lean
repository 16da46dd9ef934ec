import Mathlib.Data.Finset.Basic
import Portty.Lib.Map
import Portty.Lib.Records
import Portty.Transport.Types

/-!
# File transfer (`file_transfer.rs`)

The file transfers of one phone connection: the table of downloads and uploads (`Transfers`), the
file system as far as uploads touch it (`Fs`) and the registry of upload temporaries
(`UploadCleanup`). `handle` is the file part of `handle_client`.

The operating system decides how a call ends; what it answers while one frame is handled is an
argument (`Os`). The task of the connection can be dropped at any `await` (`Os.droppedAt`); a file
operation that was already started then still happens, if the operating system lets it.

* **Files** have an inode. Two paths are the same file name if they are equal: the code joins file
  names to canonical directories. `tokio::fs::File` writes in the background, so a failed write may
  be reported by the next call on the file only (`File.lost`).
* **`blake3`** is a parameter; a `Hasher` is the bytes it has been fed.
* **Downloads** only read. Of the streaming task the table knows whether it has finished.
-/

namespace Portty

open Records

namespace FileTransfer

/-- A transfer id, chosen by the phone. -/
structure TransferId where
  val : UInt64
  deriving DecidableEq, Repr

/-- A BLAKE3 hash. -/
abbrev Digest := BitVec 256

/-- The most bytes of a chunk. -/
def fileChunkBytes : Nat := 16 * 1024

/-- Downloads that a connection remembers for a retry. -/
def maxRememberedDownloads : Nat := 8

/-- Downloads and uploads together. -/
def maxActiveTransfers : Nat := 4

/-- The largest `u64`. -/
def u64Max : Nat := 2 ^ 64 - 1

/-! ## Paths -/

/-- A component of a path, as `std::path` cuts it. -/
inductive Component where
  | rootDir
  | curDir
  | parentDir
  | normal (name : String)
  deriving DecidableEq, Repr

/-- The components of a `PathBuf`; the empty path has none. -/
abbrev PathBuf := List Component

/-- A canonical absolute path: the names from the root. -/
abbrev AbsPath := List String

namespace PathBuf

/-- It begins at the root. -/
def isAbsolute (p : PathBuf) : Bool := p.head? = some .rootDir

/-- An absolute path as one that can be joined. -/
def ofAbs (p : AbsPath) : PathBuf := .rootDir :: p.map .normal

/-- All but the last component; the root has no parent. -/
def parent (p : PathBuf) : Option PathBuf :=
  match p.getLast? with
  | none | some .rootDir => none
  | some _ => some p.dropLast

/-- The last component, if it is a name. -/
def fileName (p : PathBuf) : Option String :=
  match p.getLast? with
  | some (.normal name) => some name
  | _ => none

/-- The path as it is told to the phone. -/
def display (p : PathBuf) : String :=
  "/".intercalate <| p.map fun
    | .rootDir => ""
    | .curDir => "."
    | .parentDir => ".."
    | .normal name => name

end PathBuf

/-- The file name of the temporary of an upload. -/
def temporaryName (id : TransferId) : String :=
  ".portty-upload-" ++ toString id.val.toNat ++ ".part"

/-- What `strip_prefix` and `strip_suffix` leave of a name. -/
def stripAffixes (before after name : List Char) : Option (List Char) :=
  if before.isPrefixOf name && after.isSuffixOf (name.drop before.length) then
    some ((name.drop before.length).take (name.length - before.length - after.length))
  else none

/-- The last component is a name that an upload gives its temporary file. -/
def validUploadTemporary (p : AbsPath) : Bool :=
  match p.getLast? with
  | none => false
  | some name =>
    match stripAffixes ".portty-upload-".toList ".part".toList name.toList with
    | none => false
    | some id => !id.isEmpty && id.all (·.isDigit)

/-! ## The file system -/

/-- Directory entries and the contents of inodes; `next` is an inode that is not in use. -/
structure Fs where
  entries : AbsPath → Option Nat
  data : Nat → Bytes
  next : Nat
  fresh : ∀ p i, entries p = some i → i < next

/-- The largest length of a file: an offset is a signed 64-bit number. -/
def maxFileLen : Nat := 2 ^ 63 - 1

namespace Fs

/-- The bytes of the file at a path. -/
def content (fs : Fs) (p : AbsPath) : Option Bytes := (fs.entries p).map fs.data

theorem fresh_update {entries : AbsPath → Option Nat} {next : Nat} (q : AbsPath) {v : Option Nat}
    (h : ∀ p i, entries p = some i → i < next) (hv : ∀ i, v = some i → i < next) :
    ∀ p i, Function.update entries q v p = some i → i < next := by
  intro p i hp
  by_cases hpq : p = q
  · rw [hpq, Function.update_self] at hp
    exact hv i hp
  · rw [Function.update_of_ne hpq] at hp
    exact h p i hp

/-- Open with `create_new`; `os` is an error of the operating system, if it reports one. -/
def createNew (fs : Fs) (p : AbsPath) (os : Option String) : Except String (Nat × Fs) :=
  match os, fs.entries p with
  | some e, _ => .error e
  | none, some _ => .error "file exists"
  | none, none => .ok (fs.next,
      { entries := Function.update fs.entries p (some fs.next)
        data := Function.update fs.data fs.next []
        next := fs.next + 1
        fresh := fresh_update p (fun q i hq => Nat.lt_succ_of_lt (fs.fresh q i hq))
          fun _ hi => Option.some.inj hi ▸ Nat.lt_succ_self _ })

/-- A write at the end of an open file, by its inode. -/
def append (fs : Fs) (inode : Nat) (bytes : Bytes) : Fs :=
  { fs with data := Function.update fs.data inode (fs.data inode ++ bytes) }

/-- `rename` replaces the entry of `to` in one step; of a file to itself it does nothing. -/
def rename (fs : Fs) (source target : AbsPath) (os : Option String) : Except String Fs :=
  match os, h : fs.entries source with
  | some e, _ => .error e
  | none, none => .error "no such file"
  | none, some inode =>
    if source = target then .ok fs
    else .ok { fs with
      entries := Function.update (Function.update fs.entries target (some inode)) source none
      fresh := fresh_update source (fresh_update target fs.fresh
        fun _ hi => Option.some.inj hi ▸ fs.fresh source inode h)
        fun _ hi => (Option.some_ne_none _ hi.symm).elim }

/-- `remove_file`, and whether the file is gone: removed, or not there. -/
def removeFile (fs : Fs) (p : AbsPath) (os : Option String) : Fs × Bool :=
  match fs.entries p, os with
  | none, _ => (fs, true)
  | some _, some _ => (fs, false)
  | some _, none => ({ fs with
      entries := Function.update fs.entries p none
      fresh := fresh_update p fs.fresh fun _ hi => (Option.some_ne_none _ hi.symm).elim }, true)

end Fs

/-- `tokio::fs::File`. If `lost`, a write has failed or was cut off; the call reports this, or, as
the write goes on in the background, the next one does. The code makes no call after that. -/
structure File where
  inode : Nat
  lost : Bool := false
  deriving DecidableEq, Repr

/-- How a write ends: all bytes are written; or only the first `n`, and the call reports this, or
the next one does. -/
inductive WriteResult where
  | ok
  | failed (n : Nat) (e : String)
  | lost (n : Nat)
  deriving DecidableEq, Repr

/-- `write_all`. A file does not grow beyond its largest length. -/
def File.writeAll (f : File) (fs : Fs) (bytes : Bytes) (r : WriteResult) :
    Except String Unit × File × Fs :=
  if f.lost then (.error "write failed", f, fs)
  else match r with
    | .failed n e => (.error e, { f with lost := true }, fs.append f.inode (bytes.take n))
    | .lost n => (.ok (), { f with lost := true }, fs.append f.inode (bytes.take n))
    | .ok =>
      if maxFileLen < (fs.data f.inode).length + bytes.length then
        (.ok (), { f with lost := true }, fs)
      else (.ok (), f, fs.append f.inode bytes)

/-! ## The registry of temporaries -/

/-- The paths in memory and in the record on disk. -/
structure UploadCleanup where
  paths : Finset AbsPath
  record : Finset AbsPath
  deriving DecidableEq

namespace UploadCleanup

/-- The record of the pending uploads is written. A failed write can leave the new record. -/
def persist (c : UploadCleanup) (o : Outcome String) : Except String Unit × UploadCleanup :=
  (o.reply, if o.failed && !o.leftNew then c else { c with record := c.paths })

/-- A temporary file is recorded before it is made; where the record cannot be written, memory
forgets it. -/
def track (c : UploadCleanup) (path : AbsPath) (o : Outcome String) :
    Except String Unit × UploadCleanup :=
  if !validUploadTemporary path then
    (.error "pending upload must be an absolute .portty-upload-*.part path", c)
  else if path ∈ c.paths then (.error "upload temporary path is already active", c)
  else
    match persist { c with paths := insert path c.paths } o with
    | (.error e, c) => (.error e, { c with paths := c.paths.erase path })
    | (.ok (), c) => (.ok (), c)

/-- A temporary file is gone; where the record cannot be written, memory keeps it. -/
def forget (c : UploadCleanup) (path : AbsPath) (o : Outcome String) :
    Except String Unit × UploadCleanup :=
  if path ∉ c.paths then (.ok (), c)
  else
    match persist { c with paths := c.paths.erase path } o with
    | (.error e, c) => (.error e, { c with paths := insert path c.paths })
    | (.ok (), c) => (.ok (), c)

end UploadCleanup

/-! ## The operating system -/

/-- The calls that an operation awaits. -/
inductive Await where
  | canonicalize
  | metadata
  | create
  | write
  | flush
  | sync
  | setPermissions
  | rename
  | fsync
  | remove
  deriving DecidableEq, Repr

/-- What the operating system answers while one frame is handled: an error text, if a call fails. -/
structure Os where
  canonical : Except String AbsPath := .error "no such file"
  /-- Is it a regular file, and its length. -/
  metadata : Except String (Bool × Nat) := .error "no such file"
  track : Outcome String := .ok
  create : Option String := none
  write : WriteResult := .ok
  flush : Option String := none
  sync : Option String := none
  setPermissions : Option String := none
  rename : Option String := none
  fsync : Option String := none
  remove : Option String := none
  forget : Outcome String := .ok
  /-- The task of the connection is dropped at this call. -/
  droppedAt : Option Await := none

/-- Why an operation does not return a value: it returns an error, or its task is dropped. -/
inductive Stop where
  | err (reason : String)
  | dropped
  deriving DecidableEq, Repr

/-- A task can be dropped where it waits. -/
def Os.await (os : Os) (a : Await) : Except Stop Unit :=
  if os.droppedAt = some a then .error .dropped else .ok ()

/-- A call that failed, if the operating system says so, with the error text after `text`. -/
def failing (text : String) : Option String → Except Stop Unit
  | some e => .error (.err (text ++ e))
  | none => .ok ()

/-! ## The table of transfers -/

/-- The handle of a streaming task. -/
structure AbortHandle where
  isFinished : Bool
  deriving DecidableEq, Repr

/-- An upload that goes on. -/
structure Upload where
  target : AbsPath
  temporary : AbsPath
  file : File
  expectedSize : Nat
  written : Nat
  nextSeq : Nat
  mode : Option Nat
  /-- The bytes that the hasher was fed. -/
  hasher : Bytes
  deriving DecidableEq, Repr

/-- The transfers of a connection. -/
structure Transfers where
  home : AbsPath
  /-- 0 is unlimited. -/
  maxTransferBytes : Nat
  downloads : FMap TransferId AbsPath
  downloadOrder : List TransferId
  activeDownloads : FMap TransferId AbortHandle
  uploads : FMap TransferId Upload

namespace Transfers

/-- The cap of the host on one transfer. -/
def checkSize (t : Transfers) (bytes : Nat) : Except Stop Unit :=
  if 0 < t.maxTransferBytes ∧ t.maxTransferBytes < bytes then
    .error (.err ("transfer of " ++ toString bytes ++ " bytes exceeds the host cap of " ++
      toString t.maxTransferBytes ++ " (PORTTY_MAX_TRANSFER_BYTES)"))
  else .ok ()

/-- Slots of downloads whose task has ended become free. -/
def pruneFinishedDownloads (t : Transfers) : Transfers :=
  { t with activeDownloads :=
      t.activeDownloads.filterMap fun _ h => if h.isFinished then none else some h }

/-- A slot is free for one more transfer. -/
def hasActiveSlot (t : Transfers) : Bool :=
  t.activeDownloads.keys.card + t.uploads.keys.card < maxActiveTransfers

/-- The error of `check_active_slot`, after the finished downloads are pruned. -/
def slotError : Stop :=
  .err ("connection already has " ++ toString maxActiveTransfers ++ " active file transfers")

/-- While there are too many, forget the oldest remembered download. -/
def evictOldest (downloads : FMap TransferId AbsPath) :
    List TransferId → FMap TransferId AbsPath × List TransferId
  | [] => (downloads, [])
  | old :: rest =>
    if maxRememberedDownloads < (old :: rest).length then evictOldest (downloads.erase old) rest
    else (downloads, old :: rest)

/-- The path of a download is kept for a resume, the oldest one dropped when there are too many. -/
def rememberDownload (t : Transfers) (id : TransferId) (path : AbsPath) : Transfers :=
  if id ∈ t.downloads then { t with downloads := t.downloads.insert id path }
  else
    let (downloads, order) := evictOldest t.downloads (t.downloadOrder ++ [id])
    { t with downloads := downloads.insert id path, downloadOrder := order }

/-- A relative path starts in the home directory. -/
def candidate (t : Transfers) (path : PathBuf) : Except Stop PathBuf :=
  if path = [] then .error (.err "file path is empty")
  else .ok (if path.isAbsolute then path else PathBuf.ofAbs t.home ++ path)

/-- Only with the permission of the host a path may be outside of the home directory. -/
def checkInsideHome (t : Transfers) (canonical : AbsPath) (allowOutside : Bool) :
    Except Stop Unit :=
  if allowOutside || t.home.isPrefixOf canonical then .ok ()
  else .error (.err "path is outside the host user's home directory")

end Transfers

/-- A frame of the host about a transfer. -/
inductive Reply where
  | fileRetry (id : TransferId) (fromSeq : Nat)
  | fileDone (id : TransferId) (size : Nat) (checksum : Digest)
  | fileErr (id : TransferId) (reason : String)
  deriving DecidableEq, Repr

/-- A connection with the file system and the registry. `made` is a history variable: the
temporaries that the connection has created, with their inodes. -/
structure State where
  transfers : Transfers
  fs : Fs
  cleanup : UploadCleanup
  made : List (AbsPath × Nat)
  /-- The task of the connection has not been dropped. -/
  alive : Bool

namespace State

/-! ## Downloads -/

/-- The checks of `start_download` after the one for a slot. -/
def downloadPath (t : Transfers) (id : TransferId) (path : PathBuf) (allowOutside : Bool)
    (os : Os) :
    Except Stop AbsPath := do
  if id ∈ t.activeDownloads ∨ id ∈ t.uploads then
    throw (.err "transfer id is already active")
  let requested ← t.candidate path
  os.await .canonicalize
  let canonical ← os.canonical.mapError fun e =>
    .err ("cannot open " ++ requested.display ++ ": " ++ e)
  t.checkInsideHome canonical allowOutside
  os.await .metadata
  let (isFile, len) ← os.metadata.mapError fun e =>
    .err ("cannot inspect " ++ (PathBuf.ofAbs canonical).display ++ ": " ++ e)
  if !isFile then throw (.err "requested path is not a regular file")
  t.checkSize len
  return canonical

/-- A slot is taken, and the path is resolved and remembered. -/
def startDownload (s : State) (id : TransferId) (path : PathBuf) (allowOutside : Bool) (os : Os) :
    State × Except Stop Unit :=
  let t := s.transfers.pruneFinishedDownloads
  if !t.hasActiveSlot then ({ s with transfers := t }, .error Transfers.slotError)
  else match downloadPath t id path allowOutside os with
    | .error e => ({ s with transfers := t }, .error e)
    | .ok canonical =>
      let t := t.rememberDownload id canonical
      ({ s with transfers := { t with
          activeDownloads := t.activeDownloads.insert id ⟨false⟩ } }, .ok ())

/-- A download that the host remembers takes a slot again. -/
def retryDownload (s : State) (id : TransferId) : State × Except Stop Unit :=
  let t := { s.transfers with activeDownloads := s.transfers.activeDownloads.erase id }
  let t := t.pruneFinishedDownloads
  if !t.hasActiveSlot then ({ s with transfers := t }, .error Transfers.slotError)
  else match t.downloads.lookup id with
    | some _ => ({ s with transfers := { t with
        activeDownloads := t.activeDownloads.insert id ⟨false⟩ } }, .ok ())
    | none => ({ s with transfers := t },
        .error (.err "transfer is no longer available; start it again"))

/-- The task is stopped and the path forgotten. -/
def cancelDownload (s : State) (id : TransferId) : State :=
  let t := { s.transfers with activeDownloads := s.transfers.activeDownloads.erase id }
  if id ∈ t.downloads then
    { s with transfers := { t with
      downloads := t.downloads.erase id
      downloadOrder := t.downloadOrder.filter (· ≠ id) } }
  else { s with transfers := t }

/-! ## Uploads -/

/-- Remove the temporary and, if it is gone, its entry in the registry. -/
def discard (s : State) (temporary : AbsPath) (os : Os) : State :=
  let (fs, gone) := s.fs.removeFile temporary os.remove
  { s with fs, cleanup := if gone then (s.cleanup.forget temporary os.forget).2 else s.cleanup }

/-- The upload is dropped with its temporary file. -/
def cancelUpload (s : State) (id : TransferId) (os : Os) : State :=
  match s.transfers.uploads.lookup id with
  | none => s
  | some upload =>
    discard { s with transfers := { s.transfers with
      uploads := s.transfers.uploads.erase id } } upload.temporary os

/-- The checks of `start_upload` after the one for a slot, and the paths of the target and the
temporary. -/
def uploadPaths (t : Transfers) (id : TransferId) (path : PathBuf) (size : Nat)
    (allowOutside : Bool) (os : Os) : Except Stop (AbsPath × AbsPath) := do
  if id ∈ t.uploads ∨ id ∈ t.activeDownloads then
    throw (.err "upload id is already active")
  t.checkSize size
  let target ← t.candidate path
  if target.parent = none then throw (.err "upload path has no parent directory")
  os.await .canonicalize
  let parent ← os.canonical.mapError fun e => .err ("cannot open upload directory: " ++ e)
  t.checkInsideHome parent allowOutside
  match target.fileName with
  | none => throw (.err "upload path has no file name")
  | some name => return (parent ++ [name], parent ++ [temporaryName id])

/-- A slot is taken, the temporary file recorded and made. -/
def startUpload (s : State) (id : TransferId) (path : PathBuf) (size : Nat) (mode : Option Nat)
    (allowOutside : Bool) (os : Os) : State × Except Stop Unit :=
  let t := s.transfers.pruneFinishedDownloads
  if !t.hasActiveSlot then ({ s with transfers := t }, .error Transfers.slotError)
  else match uploadPaths t id path size allowOutside os with
    | .error e => ({ s with transfers := t }, .error e)
    | .ok (target, temporary) =>
      match s.cleanup.track temporary os.track with
      | (.error e, c) => ({ s with transfers := t, cleanup := c },
          .error (.err ("cannot register upload temporary file: " ++ e)))
      | (.ok (), c) =>
        match s.fs.createNew temporary os.create with
        | .error e =>
          if os.droppedAt = some .create then
            ({ s with transfers := t, cleanup := c }, .error .dropped)
          else ({ s with transfers := t, cleanup := (c.forget temporary os.forget).2 },
            .error (.err ("cannot create upload temporary file: " ++ e)))
        | .ok (inode, fs) =>
          let s := { s with transfers := t, cleanup := c, fs, made := (temporary, inode) :: s.made }
          if os.droppedAt = some .create then (s, .error .dropped)
          else
            let upload : Upload :=
              { target, temporary, file := ⟨inode, false⟩, expectedSize := size, written := 0,
                nextSeq := 0, mode, hasher := [] }
            ({ s with transfers := { t with uploads := t.uploads.insert id upload } }, .ok ())

/-- An upload goes on with this state. -/
def setUpload (s : State) (id : TransferId) (upload : Upload) : State :=
  { s with transfers := { s.transfers with uploads := s.transfers.uploads.insert id upload } }

/-- The next chunk is appended; one out of order is answered with the number that is due. -/
def uploadChunk (s : State) (id : TransferId) (seq : Nat) (bytes : Bytes) (os : Os) :
    State × Except Stop (Option Reply) :=
  match s.transfers.uploads.lookup id with
  | none => (s, .error (.err "unknown upload id"))
  | some upload =>
    if seq ≠ upload.nextSeq then (s, .ok (some (.fileRetry id upload.nextSeq)))
    else if fileChunkBytes < bytes.length then
      (s, .error (.err "file chunk exceeds the 16 KiB limit"))
    else
      let nextSize := min (upload.written + bytes.length) u64Max
      if upload.expectedSize < nextSize then
        (s, .error (.err "upload exceeds its declared size"))
      else
        let (result, file, fs) := upload.file.writeAll s.fs bytes os.write
        let s := { s with fs }
        if os.droppedAt = some .write then
          -- the bytes can be in the file, but the hasher has not seen them
          (s.setUpload id { upload with file := { file with lost := true } }, .error .dropped)
        else match result with
          | .error e => (s.setUpload id { upload with file },
              .error (.err ("could not write upload: " ++ e)))
          | .ok () =>
            (s.setUpload id { upload with
              file
              hasher := upload.hasher ++ bytes
              written := nextSize
              nextSeq := (upload.nextSeq + 1) % 2 ^ 64 }, .ok none)

variable (blake3 : Bytes → Digest)

/-- Flush and sync the file and set its mode. -/
def settle (upload : Upload) (os : Os) : Except Stop Unit := do
  os.await .flush
  failing "could not flush upload: " (if upload.file.lost then some "write failed" else os.flush)
  os.await .sync
  failing "could not sync upload: " os.sync
  if upload.mode.isSome then
    os.await .setPermissions
    failing "could not set upload mode: " os.setPermissions

/-- Rename the temporary over the target and sync the directory. -/
def replaceVerifiedFile (fs : Fs) (temporary target : AbsPath) (os : Os) :
    Fs × Except Stop Unit :=
  match fs.rename temporary target os.rename with
  | .error e => (fs, do
      os.await .rename
      throw (.err ("could not commit upload: " ++ e)))
  | .ok fs => (fs, do
      os.await .rename
      os.await .fsync
      failing "could not commit upload: " os.fsync)

/-- The part of `finish_upload` that verifies and commits. -/
def commitUpload (fs : Fs) (id : TransferId) (upload : Upload) (size : Nat) (checksum : Digest)
    (os : Os) : Fs × Except Stop Reply :=
  if size ≠ upload.expectedSize ∨ upload.written ≠ upload.expectedSize then
    (fs, .error (.err ("upload size mismatch (expected " ++ toString upload.expectedSize ++
      ", received " ++ toString upload.written ++ ")")))
  else if blake3 upload.hasher ≠ checksum then (fs, .error (.err "upload checksum mismatch"))
  else match settle upload os with
    | .error e => (fs, .error e)
    | .ok () =>
      match replaceVerifiedFile fs upload.temporary upload.target os with
      | (fs, .error e) => (fs, .error e)
      | (fs, .ok ()) => (fs, .ok (.fileDone id size (blake3 upload.hasher)))

/-- The upload leaves the table, and its file is verified and moved to its target, or removed. -/
def finishUpload (s : State) (id : TransferId) (size : Nat) (checksum : Digest) (os : Os) :
    State × Except Stop Reply :=
  match s.transfers.uploads.lookup id with
  | none => (s, .error (.err "unknown upload id"))
  | some upload =>
    let s := { s with transfers := { s.transfers with uploads := s.transfers.uploads.erase id } }
    match commitUpload blake3 s.fs id upload size checksum os with
    | (fs, .error .dropped) => ({ s with fs }, .error .dropped)
    | (fs, .ok reply) => ({ s with fs, cleanup := (s.cleanup.forget upload.temporary os.forget).2 },
        .ok reply)
    | (fs, .error (.err e)) =>
      if os.droppedAt = some .remove then
        ({ s with fs := (fs.removeFile upload.temporary os.remove).1 }, .error .dropped)
      else (discard { s with fs } upload.temporary os, .error (.err e))

end State

/-! ## The connection -/

/-- The frames of the phone about transfers. -/
inductive Frame where
  | fileGetReq (id : TransferId) (path : PathBuf) (startSeq : Nat) (allowOutsideHome : Bool)
  | filePutReq (id : TransferId) (path : PathBuf) (size : Nat) (mode : Option Nat)
      (allowOutsideHome : Bool)
  | fileChunk (id : TransferId) (seq : Nat) (bytes : Bytes)
  | fileDone (id : TransferId) (size : Nat) (checksum : Digest)
  | fileRetry (id : TransferId) (fromSeq : Nat)
  | fileErr (id : TransferId) (reason : String)

/-- What happens to a connection: a frame arrives; a streaming task ends; the connection is lost,
and then, one after the other, its uploads are dropped. -/
inductive Event where
  | frame (f : Frame) (os : Os)
  | downloadEnds (id : TransferId)
  | lost
  | dropUpload (id : TransferId) (os : Os)

namespace State

variable (blake3 : Bytes → Digest)

/-- The state and the replies after an operation; an error is sent as `FileErr`. -/
def answer {α : Type} (id : TransferId) (reply : α → List Reply) :
    State × Except Stop α → State × List Reply
  | (s, .ok a) => (s, reply a)
  | (s, .error (.err reason)) => (s, [.fileErr id reason])
  | (s, .error .dropped) => ({ s with alive := false }, [])

/-- The file frames in `handle_client`. -/
def handle (s : State) (os : Os) : Frame → State × List Reply
  | .fileGetReq id path _ allowOutside =>
    answer id (fun _ => []) (s.startDownload id path allowOutside os)
  | .filePutReq id path size mode allowOutside =>
    answer id (fun _ => []) (s.startUpload id path size mode allowOutside os)
  | .fileChunk id seq bytes =>
    match s.uploadChunk id seq bytes os with
    | (s, .error (.err reason)) => (s.cancelUpload id os, [.fileErr id reason])
    | r => answer id Option.toList r
  | .fileDone id size checksum =>
    answer id (fun reply => [reply]) (s.finishUpload blake3 id size checksum os)
  | .fileRetry id _ => answer id (fun _ => []) (s.retryDownload id)
  | .fileErr id _ => ((s.cancelDownload id).cancelUpload id os, [])

/-- The task of a download has ended; its slot becomes free at the next prune. -/
def downloadEnds (s : State) (id : TransferId) : State :=
  match s.transfers.activeDownloads.lookup id with
  | none => s
  | some _ => { s with transfers := { s.transfers with
      activeDownloads := s.transfers.activeDownloads.insert id ⟨true⟩ } }

/-- A connection that is lost handles no more frames; `Drop` drains its uploads. -/
def step (s : State) : Event → State
  | .frame f os => if s.alive then (s.handle blake3 os f).1 else s
  | .downloadEnds id => s.downloadEnds id
  | .lost => { s with alive := false }
  | .dropUpload id os => if s.alive then s else s.cancelUpload id os

/-- A new connection. -/
def start (home : AbsPath) (maxTransferBytes : Nat) (fs : Fs) (cleanup : UploadCleanup) :
    State where
  transfers := ⟨home, maxTransferBytes, ∅, [], ∅, ∅⟩
  fs := fs
  cleanup := cleanup
  made := []
  alive := true

end State

end FileTransfer

end Portty
