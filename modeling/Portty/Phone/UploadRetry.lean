import Portty.Host.FileTransferTable
import Portty.Lib.Run
import Portty.Lib.Table
import Portty.Phone.Transfers

/-!
# Retries of an upload (`spawn_upload_range`, `file_transfer.rs`)

One upload from the phone to the host over one link. A pass is a streaming task of
`Phone.Transfers`; a `FileRetry` starts one more. Each reads the file from its start and counts the
reads: what it read before `from_seq` it does not send. The operating system decides how many bytes
a read returns (`Splits`).

* **The file** is open once and the passes share it: one pass holds its lock until it ends.
* **The link** keeps the order. A frame on it arrives at the host or is lost.
* **The host** is the connection of `FileTransfer`, in any state in which the upload is not there.
* `upload_retry`: the host gets a beginning of the file for all retries and losses if and only if a
  read of a later pass starts where the read with this number started in each earlier one.
-/

namespace Portty

namespace Phone

namespace UploadRetry

open FileTransfer (Digest fileChunkBytes maxFileLen PathBuf)
open Transfers

/-- How the reads of each pass split the file: `cut pass seq` is the byte at which a read starts. -/
structure Splits (file : Bytes) where
  cut : Nat → Nat → Nat
  zero : ∀ pass, cut pass 0 = 0
  /-- A read before the end of the file returns at least one byte, and no more than fit into the
  buffer. -/
  lt_next : ∀ pass seq, cut pass seq < file.length → cut pass seq < cut pass (seq + 1)
  next_le : ∀ pass seq, cut pass (seq + 1) ≤ cut pass seq + fileChunkBytes
  le_length : ∀ pass seq, cut pass seq ≤ file.length
  mono : ∀ pass seq, cut pass seq ≤ cut pass (seq + 1)
  length_le : file.length ≤ maxFileLen

/-- The upload, as the user starts it, and the host before it. -/
structure Setup where
  owner : TransferOwner
  remotePath : String
  mode : Option Nat
  allowOutsideHome : Bool
  files : String → Option Bytes
  documents : String → Option Bytes
  /-- `Path::components` on the host. -/
  components : String → PathBuf
  host : FileTransfer.State
  absent : host.transfers.uploads.lookup ⟨1⟩ = none

/-- The number of the upload. -/
def uploadId : Nat := 1

/-- The phone and the host of one upload. -/
structure System where
  phone : World
  host : FileTransfer.State
  /-- The pass that put each frame on the link. -/
  passes : List Nat
  /-- The frames that have arrived or are lost. -/
  taken : Nat

/-- What the link and the passes do. -/
inductive Event where
  /-- The phone gets a `FileRetry`, or a `FileErr`. -/
  | retry (fromSeq : Nat)
  | fileErr (reason : String)
  /-- A pass goes on. -/
  | check (pass : Nat)
  | read (pass : Nat)
  | readFails (pass : Nat) (error : String)
  | send (pass : Nat)
  /-- The next frame arrives at the host, or is lost. -/
  | deliver (os : FileTransfer.Os)
  | lose

/-- A pass that holds the lock of the file. -/
def inside (t : UploadTask) : Bool :=
  t.phase ≠ .ended && !(t.phase = .checking && t.seq = 0)

/-- What the first link is to carry. -/
def outbound (w : World) : List Packet := (w.links[0]?.map Link.outbound).getD []

/-- A frame of the phone as the host reads it. -/
def toHost (components : String → PathBuf) : Frame → FileTransfer.Frame
  | .fileGetReq id path startSeq allowOutsideHome =>
    .fileGetReq ⟨.ofNat id⟩ (components path) startSeq allowOutsideHome
  | .filePutReq id path size mode allowOutsideHome =>
    .filePutReq ⟨.ofNat id⟩ (components path) size mode allowOutsideHome
  | .fileChunk id seq bytes => .fileChunk ⟨.ofNat id⟩ seq bytes
  | .fileDone id size checksum => .fileDone ⟨.ofNat id⟩ size checksum
  | .fileRetry id fromSeq => .fileRetry ⟨.ofNat id⟩ fromSeq
  | .fileErr id reason => .fileErr ⟨.ofNat id⟩ reason

variable {file : Bytes} (S : Splits file) (blake3 : Bytes → Digest) (components : String → PathBuf)

/-- What a read returns; nothing at the end of the file. -/
def Splits.piece (pass seq : Nat) : Bytes :=
  (file.take (S.cut pass (seq + 1))).drop (S.cut pass seq)

namespace System

variable (s : System)

/-- The phone takes a step; `pass` has put what is new on the link. -/
def turn (pass : Nat) (ev : Transfers.Event) : System :=
  let phone := s.phone.step blake3 false ev
  { s with phone, passes := s.passes ++ List.replicate ((outbound phone).length - s.passes.length) pass }

/-- No other pass holds the lock. -/
def isFree (pass : Nat) : Bool :=
  (List.range s.phone.tasks.length).all fun i => i = pass || !(s.phone.tasks[i]?).any inside

/-- One event. -/
def step : Event → System
  | .retry fromSeq => s.turn blake3 0 (.frame 0 (.fileRetry (.transfer uploadId) fromSeq) {})
  | .fileErr reason => s.turn blake3 0 (.frame 0 (.fileErr (.transfer uploadId) reason) {})
  | .check pass => if s.isFree pass then s.turn blake3 pass (.check pass) else s
  | .read pass =>
    let seq := (s.phone.tasks[pass]?.map UploadTask.seq).getD 0
    s.turn blake3 pass (.read pass (.ok (S.piece pass seq)))
  | .readFails pass error => s.turn blake3 pass (.read pass (.error error))
  | .send pass => s.turn blake3 pass (.send pass)
  | .deliver os =>
    match (outbound s.phone)[s.taken]? with
    | none => s
    | some packet =>
      { s with
        host := s.host.step blake3 (.frame (toHost components packet.frame) os)
        taken := s.taken + 1 }
  | .lose => if s.taken < (outbound s.phone).length then { s with taken := s.taken + 1 } else s

end System

/-- `upload_file` on a new link. -/
def Setup.start (setup : Setup) (size : Nat) : System where
  phone := Run.run (World.step blake3 false) (.start setup.files setup.documents)
    [.connect setup.owner, .look, .upload 0 setup.remotePath size setup.mode setup.allowOutsideHome]
  host := setup.host
  passes := [0]
  taken := 0

/-- A run from the start of the upload. -/
def Setup.run (setup : Setup) (evs : List Event) : System :=
  Run.run (System.step S blake3 setup.components) (setup.start blake3 file.length) evs

/-- What the host has of the upload. -/
def System.upload (s : System) : Option FileTransfer.Upload :=
  s.host.transfers.uploads.lookup ⟨.ofNat uploadId⟩

/-- The chunks that the host accepted are a beginning of the file, the next one that it is to accept
starts at the byte where they end, and `FileDone` is about the whole file. -/
structure Correct (s : System) : Prop where
  accepted : ∀ u, s.upload = some u → u.hasher <+: file
  starts : ∀ u bytes pass, s.upload = some u →
    (outbound s.phone)[s.taken]? = some { frame := .fileChunk uploadId u.nextSeq bytes } →
    s.passes[s.taken]? = some pass → S.cut pass u.nextSeq = u.hasher.length
  done : ∀ size checksum, { frame := .fileDone uploadId size checksum } ∈ outbound s.phone →
    size = file.length ∧ checksum = blake3 file

/-- A read of a later pass starts where the read with its number started in each earlier pass. -/
def Agree (S : Splits file) : Prop :=
  ∀ i j seq, i < j → S.cut j seq < file.length → S.cut i seq = S.cut j seq

/-! ## The reads -/

variable {S} {pass seq : Nat}

theorem Splits.piece_nil : S.piece pass seq = [] ↔ S.cut pass seq = file.length := by
  have hle := S.le_length pass seq
  have hle' := S.le_length pass (seq + 1)
  rw [Splits.piece, List.drop_eq_nil_iff, List.length_take, Nat.min_eq_left hle']
  constructor
  · intro h
    by_contra hne
    have := S.lt_next pass seq (by omega)
    omega
  · omega

theorem Splits.length_piece :
    (S.piece pass seq).length = S.cut pass (seq + 1) - S.cut pass seq := by
  rw [Splits.piece, List.length_drop, List.length_take, Nat.min_eq_left (S.le_length _ _)]

theorem Splits.piece_le : (S.piece pass seq).length ≤ fileChunkBytes := by
  have := S.next_le pass seq
  rw [Splits.length_piece]
  omega

theorem Splits.take_piece (S : Splits file) (pass seq : Nat) :
    file.take (S.cut pass seq) ++ S.piece pass seq = file.take (S.cut pass (seq + 1)) := by
  have hmono := S.mono pass seq
  conv => rhs; rw [← List.take_append_drop (S.cut pass seq) (file.take (S.cut pass (seq + 1)))]
  rw [List.take_take, Nat.min_eq_left hmono, Splits.piece]

theorem Splits.seq_le (S : Splits file) (h : S.cut pass seq < file.length) :
    seq ≤ S.cut pass seq := by
  induction seq with
  | zero => exact Nat.zero_le _
  | succ seq ih =>
    have hmono := S.mono pass seq
    have hlt : S.cut pass seq < file.length := by omega
    have hnext := S.lt_next pass seq hlt
    have := ih hlt
    omega

theorem Splits.mono_le (S : Splits file) (pass : Nat) {a b : Nat} (h : a ≤ b) :
    S.cut pass a ≤ S.cut pass b :=
  monotone_nat_of_le_succ (S.mono pass) h

/-! ## The phone -/

/-- What a pass has read, by where it is. -/
def ReadsOk (S : Splits file) (pass : Nat) (t : UploadTask) : Prop :=
  match t.phase with
  | .checking | .reading => t.hasher = file.take (S.cut pass t.seq)
  | .sending bytes => bytes = S.piece pass t.seq ∧ S.cut pass t.seq < file.length ∧
      t.hasher = file.take (S.cut pass (t.seq + 1))
  | .finishing => t.hasher = file
  | .ended => True

/-- A pass that is its upload's. -/
structure PassOk (S : Splits file) (pass : Nat) (t : UploadTask) : Prop where
  upload : t.upload = uploadId
  link : t.link = 0
  epoch : t.epoch = pass + 1
  reads : ReadsOk S pass t

/-- A frame that a pass has put on the link. -/
def FrameOk (S : Splits file) (blake3 : Bytes → Digest) (pass : Nat) (p : Packet) : Prop :=
  match p.frame with
  | .filePutReq id .. => id = uploadId
  | .fileChunk id seq bytes => id = uploadId ∧ bytes = S.piece pass seq ∧ S.cut pass seq < file.length
  | .fileDone id size checksum => id = uploadId ∧ size = file.length ∧ checksum = blake3 file
  | _ => False

/-- The phone with the one upload and the one link. -/
structure PhoneOk (S : Splits file) (blake3 : Bytes → Digest) (w : World) (passes : List Nat) (u : UploadTransfer)
    (l : Link) : Prop where
  uploads : w.uploads = [u]
  id : u.id = uploadId
  size : u.size = file.length
  epoch : u.epoch = w.tasks.length
  links : w.links = [l]
  isOpen : l.closed = false
  pass : ∀ (i : Nat) t, w.tasks[i]? = some t → PassOk S i t
  /-- One pass holds the lock. -/
  alone : ∀ (i j : Nat) (t t' : UploadTask), w.tasks[i]? = some t → w.tasks[j]? = some t' → inside t → inside t' → i = j
  length : passes.length = l.outbound.length
  /-- The frames of an earlier pass come first. -/
  sorted : passes.Pairwise (· ≤ ·)
  ahead : ∀ (i : Nat) t, w.tasks[i]? = some t → inside t → ∀ p ∈ passes, p ≤ i
  behind : ∀ p ∈ passes, p < w.tasks.length
  frame : ∀ (n : Nat) p i, l.outbound[n]? = some p → passes[n]? = some i → FrameOk S blake3 i p

section Phone

variable {S : Splits file} {blake3 : Bytes → Digest} {w w' : World} {passes : List Nat}
  {u u' : UploadTransfer}
variable {l : Link} {i : Nat} {t t' : UploadTask} {p : Packet}

theorem PhoneOk.same (h : PhoneOk S blake3 w passes u l) (hu : w'.uploads = w.uploads)
    (ht : w'.tasks = w.tasks)
    (hl : w'.links = w.links) : PhoneOk S blake3 w' passes u l := by
  obtain ⟨huploads, hid, hsize, hepoch, hlinks, hopen, hpass, halone, hlength, hsorted, hahead, hbehind, hframe⟩ := h
  rw [← ht] at hepoch hpass halone hahead hbehind
  exact ⟨hu.trans huploads, hid, hsize, hepoch, hl.trans hlinks, hopen, hpass, halone, hlength, hsorted, hahead,
    hbehind, hframe⟩

theorem PhoneOk.find (h : PhoneOk S blake3 w passes u l) :
    Rows.find UploadTransfer.id uploadId w.uploads = some u := by
  rw [h.uploads, Rows.find, List.find?_cons_of_pos (by rw [h.id]; rfl)]

theorem PhoneOk.outbound (h : PhoneOk S blake3 w passes u l) : outbound w = l.outbound := by
  rw [UploadRetry.outbound, h.links]
  rfl

theorem getElem?_setTask (ht : w.tasks[i]? = some t) {j : Nat} {t₁ : UploadTask}
    (h : (w.setTask i t').tasks[j]? = some t₁) :
    j = i ∧ t₁ = t' ∨ j ≠ i ∧ w.tasks[j]? = some t₁ := by
  have hlt := (List.getElem?_eq_some_iff.mp ht).1
  rw [World.setTask, List.getElem?_set] at h
  split at h
  · next hij =>
    exact .inl ⟨hij.symm, (Option.some.inj h).symm⟩
  · next hij => exact .inr ⟨fun he => hij he.symm, h⟩

/-- A pass goes on. Where it takes the lock, no other has it, and the pass is the last one. -/
theorem PhoneOk.setTask (h : PhoneOk S blake3 w passes u l) (ht : w.tasks[i]? = some t)
    (t' : UploadTask)
    (hok : PassOk S i t')
    (hin : inside t' → inside t ∨ i + 1 = w.tasks.length ∧
      ∀ j t₁, w.tasks[j]? = some t₁ → j ≠ i → ¬ inside t₁) :
    PhoneOk S blake3 (w.setTask i t') passes u l where
  uploads := h.uploads
  id := h.id
  size := h.size
  epoch := h.epoch.trans (List.length_set).symm
  links := h.links
  isOpen := h.isOpen
  pass j t₁ hj := by
    obtain ⟨rfl, rfl⟩ | ⟨-, hj⟩ := getElem?_setTask ht hj
    · exact hok
    · exact h.pass j t₁ hj
  alone j k t₁ t₂ hj hk h₁ h₂ := by
    -- A pass that holds the lock besides `i` held it before.
    have hother {j : Nat} {t₁ : UploadTask} (hj : w.tasks[j]? = some t₁) (hne : j ≠ i) (h₁ : inside t₁)
        (hi : inside t') : False := by
      obtain hi | ⟨-, hfree⟩ := hin hi
      · exact hne (h.alone j i t₁ t hj ht h₁ hi)
      · exact hfree j t₁ hj hne h₁
    obtain ⟨hji, hj'⟩ | ⟨hji, hj'⟩ := getElem?_setTask ht hj <;>
      obtain ⟨hki, hk'⟩ | ⟨hki, hk'⟩ := getElem?_setTask ht hk
    · rw [hji, hki]
    · exact (hother hk' hki h₂ (hj' ▸ h₁)).elim
    · exact (hother hj' hji h₁ (hk' ▸ h₂)).elim
    · exact h.alone j k t₁ t₂ hj' hk' h₁ h₂
  length := h.length
  sorted := h.sorted
  ahead j t₁ hj h₁ p hp := by
    obtain ⟨rfl, rfl⟩ | ⟨-, hj⟩ := getElem?_setTask ht hj
    · obtain hi | ⟨hlast, -⟩ := hin h₁
      · exact h.ahead _ t ht hi p hp
      · have := h.behind p hp
        omega
    · exact h.ahead j t₁ hj h₁ p hp
  behind p hp := by
    rw [World.setTask, List.length_set]
    exact h.behind p hp
  frame := h.frame

theorem PhoneOk.modifyUpload (h : PhoneOk S blake3 w passes u l)
    (f : UploadTransfer → UploadTransfer)
    (hid : (f u).id = u.id) (hsize : (f u).size = u.size) (hepoch : (f u).epoch = u.epoch) :
    PhoneOk S blake3 (w.modifyUpload u.id f) passes (f u) l := by
  refine ⟨?_, hid.trans h.id, hsize.trans h.size, hepoch.trans h.epoch, h.links, h.isOpen, h.pass, h.alone, h.length,
    h.sorted, h.ahead, h.behind, h.frame⟩
  rw [World.modifyUpload, h.uploads, List.map_singleton, if_pos rfl]

/-- The pass with the lock puts a frame on the link. -/
theorem PhoneOk.put (h : PhoneOk S blake3 w passes u l) (ht : w.tasks[i]? = some t) (hin : inside t)
    (p : Packet)
    (hp : FrameOk S blake3 i p) :
    PhoneOk S blake3 (w.put 0 [p]) (passes ++ [i]) u { l with outbound := l.outbound ++ [p] } where
  uploads := h.uploads
  id := h.id
  size := h.size
  epoch := h.epoch
  links := by
    rw [World.put, h.links]
    rfl
  isOpen := h.isOpen
  pass := h.pass
  alone := h.alone
  length := by rw [List.length_append, List.length_append, h.length]; rfl
  sorted := by
    rw [List.pairwise_append]
    refine ⟨h.sorted, List.pairwise_singleton _ _, fun a ha b hb => ?_⟩
    rw [List.mem_singleton.mp hb]
    exact h.ahead i t ht hin a ha
  ahead j t₁ hj h₁ q hq := by
    obtain hq | hq := List.mem_append.mp hq
    · exact h.ahead j t₁ hj h₁ q hq
    · rw [List.mem_singleton.mp hq, h.alone i j t t₁ ht hj hin h₁]
  behind q hq := by
    obtain hq | hq := List.mem_append.mp hq
    · exact h.behind q hq
    · rw [List.mem_singleton.mp hq]
      exact (List.getElem?_eq_some_iff.mp ht).1
  frame n q j hq hj := by
    have hlen := h.length
    obtain hq | ⟨hn, rfl⟩ := Table.concat_cases hq <;> obtain hj | ⟨hn', rfl⟩ := Table.concat_cases hj
    · exact h.frame n q j hq hj
    · have := (List.getElem?_eq_some_iff.mp hq).1
      omega
    · have := (List.getElem?_eq_some_iff.mp hj).1
      omega
    · exact hp

/-- A retry starts one more pass, that does not have the lock yet. -/
theorem PhoneOk.spawn (h : PhoneOk S blake3 w passes u l) (fromSeq : Nat) :
    PhoneOk S blake3 (w.spawnUploadRange u 0 fromSeq) passes { u with epoch := u.epoch + 1 } l := by
  have hget {j : Nat} {t₁ : UploadTask} (hj : (w.spawnUploadRange u 0 fromSeq).tasks[j]? = some t₁) :
      w.tasks[j]? = some t₁ ∨ PassOk S j t₁ ∧ inside t₁ = false := by
    obtain hj | ⟨hlast, rfl⟩ := Table.concat_cases hj
    · exact .inl hj
    · refine .inr ⟨⟨h.id, rfl, ?_, ?_⟩, rfl⟩
      · rw [hlast, ← h.epoch]
      · show [] = file.take (S.cut j 0)
        rw [S.zero, List.take_zero]
  refine ⟨?_, h.id, h.size, ?_, h.links, h.isOpen, ?_, ?_, h.length, h.sorted, ?_, ?_, h.frame⟩
  · rw [World.spawnUploadRange, World.modifyUpload, h.uploads, List.map_singleton, if_pos rfl]
  · rw [World.spawnUploadRange, List.length_append, ← h.epoch]
    rfl
  · intro j t₁ hj
    obtain hj | hj := hget hj
    · exact h.pass j t₁ hj
    · exact hj.1
  · intro j k t₁ t₂ hj hk h₁ h₂
    obtain hj | ⟨-, hj⟩ := hget hj
    · obtain hk | ⟨-, hk⟩ := hget hk
      · exact h.alone j k t₁ t₂ hj hk h₁ h₂
      · rw [hk] at h₂
        cases h₂
    · rw [hj] at h₁
      cases h₁
  · intro j t₁ hj h₁
    obtain hj | ⟨-, hj⟩ := hget hj
    · exact h.ahead j t₁ hj h₁
    · rw [hj] at h₁
      cases h₁
  · intro q hq
    rw [World.spawnUploadRange, List.length_append]
    exact Nat.lt_add_right _ (h.behind q hq)

/-- The phone keeps its form, and pass `i` has put at most one frame on the link. -/
def Went (S : Splits file) (blake3 : Bytes → Digest) (w : World) (passes : List Nat) (i : Nat)
    (l : Link) : Prop :=
  ∃ u l', (PhoneOk S blake3 w passes u l' ∧ l'.outbound = l.outbound) ∨
    ∃ p, PhoneOk S blake3 w (passes ++ [i]) u l' ∧ l'.outbound = l.outbound ++ [p]

theorem PhoneOk.went (h : PhoneOk S blake3 w passes u l) (i : Nat) : Went S blake3 w passes i l :=
  ⟨u, l, .inl ⟨h, rfl⟩⟩

theorem PhoneOk.onTask_eq (h : PhoneOk S blake3 w passes u l) (ht : w.tasks[i]? = some t)
    (f : UploadTask → UploadTransfer → World) : w.onTask i f = f t u := by
  have hfind : Rows.find UploadTransfer.id t.upload w.uploads = some u := by
    rw [(h.pass i t ht).upload]
    exact h.find
  unfold World.onTask
  rw [ht]
  dsimp only
  rw [hfind]

theorem PhoneOk.onTask (h : PhoneOk S blake3 w passes u l) {f : UploadTask → UploadTransfer → World}
    (hf : ∀ t, w.tasks[i]? = some t → PassOk S i t → Went S blake3 (f t u) passes i l) :
    Went S blake3 (w.onTask i f) passes i l := by
  cases ht : w.tasks[i]? with
  | none =>
    unfold World.onTask
    rw [ht]
    exact h.went i
  | some t =>
    rw [h.onTask_eq ht]
    exact hf t ht (h.pass i t ht)

theorem PassOk.step (hok : PassOk S i t) (hr : ReadsOk S i t') (hu : t'.upload = t.upload)
    (hl : t'.link = t.link)
    (he : t'.epoch = t.epoch) : PassOk S i t' :=
  ⟨hu.trans hok.upload, hl.trans hok.link, he.trans hok.epoch, hr⟩

theorem inside_of_phase (hc : t.phase ≠ .checking) (he : t.phase ≠ .ended) : inside t := by
  simp [inside, hc, he]

theorem not_inside_ended (he : t.phase = .ended) : ¬ inside t := by
  simp [inside, he]

theorem PhoneOk.ended (h : PhoneOk S blake3 w passes u l) (ht : w.tasks[i]? = some t)
    (hok : PassOk S i t) :
    PhoneOk S blake3 (w.setTask i { t with phase := .ended }) passes u l :=
  h.setTask ht _ (hok.step trivial rfl rfl rfl) fun hi => absurd hi (not_inside_ended rfl)

theorem PhoneOk.fail (h : PhoneOk S blake3 w passes u l) (ht : w.tasks[i]? = some t)
    (hok : PassOk S i t)
    (message : String) : Went S blake3 (w.fail i t u message) passes i l := by
  have hended := h.ended ht hok
  unfold World.fail
  dsimp only
  split
  · exact hended.went i
  · have hflags : PhoneOk S blake3 _ passes _ l :=
      hended.modifyUpload (fun u => { u with cancelled := true, registered := false }) rfl rfl rfl
    exact ⟨_, _, .inl ⟨hflags.same rfl rfl rfl, rfl⟩⟩

theorem PhoneOk.check (h : PhoneOk S blake3 w passes u l)
    (hfree : ∀ j t₁, w.tasks[j]? = some t₁ → j ≠ i → ¬ inside t₁) :
    Went S blake3 (w.step blake3 false (.check i)) passes i l := by
  refine h.onTask fun t ht hok => ?_
  split
  · next hc =>
    unfold World.check
    split
    · exact (h.ended ht hok).went i
    · next hgo =>
      have hepoch : u.epoch = t.epoch := by
        by_contra hne
        exact hgo (.inr hne)
      refine (h.setTask ht { t with phase := .reading } (hok.step ?_ rfl rfl rfl) fun _ =>
        .inr ⟨?_, hfree⟩).went i
      · have hr := hok.reads
        unfold ReadsOk at hr ⊢
        rw [hc] at hr
        exact hr
      · rw [← hok.epoch, ← hepoch, h.epoch]
  · exact h.went i

/-- A pass after a read that returns something. -/
def afterRead (t : UploadTask) (bytes : Bytes) : UploadTask :=
  if t.fromSeq ≤ t.seq then { t with hasher := t.hasher ++ bytes, phase := .sending bytes }
  else { t with hasher := t.hasher ++ bytes, seq := t.seq + 1, phase := .checking }

theorem read_eq (w : World) (i : Nat) (t : UploadTask) (u : UploadTransfer) {bytes : Bytes}
    (hb : bytes ≠ []) :
    w.read i t u (.ok bytes) = w.setTask i (afterRead t bytes) := by
  cases bytes with
  | nil => exact absurd rfl hb
  | cons b bytes =>
    unfold afterRead
    show (if t.fromSeq ≤ t.seq then _ else _) = _
    split <;> rfl

theorem PhoneOk.read_piece (h : PhoneOk S blake3 w passes u l) (ht : w.tasks[i]? = some t)
    (hphase : t.phase = .reading)
    (hlt : S.cut i t.seq < file.length) :
    w.step blake3 false (.read i (.ok (S.piece i t.seq))) =
      w.setTask i (afterRead t (S.piece i t.seq)) ∧
      PhoneOk S blake3 (w.setTask i (afterRead t (S.piece i t.seq))) passes u l := by
  have hok := h.pass i t ht
  have hr := hok.reads
  have hnext := S.take_piece i t.seq
  unfold ReadsOk at hr
  rw [hphase] at hr
  rw [← hr] at hnext
  constructor
  · rw [World.step, h.onTask_eq ht, if_pos hphase, read_eq]
    intro hnil
    exact Nat.ne_of_lt hlt (Splits.piece_nil.mp hnil)
  · refine h.setTask ht _ ?_ fun _ => .inl (inside_of_phase (by rw [hphase]; nofun) (by rw [hphase]; nofun))
    unfold afterRead
    split
    · exact hok.step ⟨rfl, hlt, hnext⟩ rfl rfl rfl
    · exact hok.step hnext rfl rfl rfl

theorem PhoneOk.read (h : PhoneOk S blake3 w passes u l)
    (hseq : ∀ t, w.tasks[i]? = some t → t.seq = seq) :
    Went S blake3 (w.step blake3 false (.read i (.ok (S.piece i seq)))) passes i l := by
  refine h.onTask fun t ht hok => ?_
  obtain rfl := hseq t ht
  split
  · next hphase =>
    obtain heof | hlt := Nat.eq_or_lt_of_le (S.le_length i t.seq)
    · have hr := hok.reads
      unfold ReadsOk at hr
      rw [hphase] at hr
      rw [Splits.piece_nil.mpr heof]
      refine (h.setTask ht { t with phase := .finishing } (hok.step ?_ rfl rfl rfl) fun _ =>
        .inl (inside_of_phase (by rw [hphase]; nofun) (by rw [hphase]; nofun))).went i
      show t.hasher = file
      rw [hr, heof, List.take_length]
    · obtain ⟨hstep, hpiece⟩ := h.read_piece ht hphase hlt
      rw [World.step, h.onTask_eq ht, if_pos hphase] at hstep
      rw [hstep]
      exact hpiece.went i
  · exact h.went i

theorem PhoneOk.readFails (h : PhoneOk S blake3 w passes u l) (error : String) :
    Went S blake3 (w.step blake3 false (.read i (.error error))) passes i l := by
  refine h.onTask fun t ht hok => ?_
  split
  · exact h.fail ht hok _
  · exact h.went i

theorem PhoneOk.isOpen_link (h : PhoneOk S blake3 w passes u l) (hok : PassOk S i t) :
    ((w.links[t.link]?).any fun l => !l.closed) = true := by
  rw [hok.link, h.links]
  show (!l.closed) = true
  rw [h.isOpen]
  rfl

/-- A chunk is put on the link. -/
theorem PhoneOk.send_chunk (h : PhoneOk S blake3 w passes u l) (ht : w.tasks[i]? = some t)
    {bytes : Bytes}
    (hphase : t.phase = .sending bytes) : ∃ w', w.send blake3 i t u = w' ∧
      w'.tasks = w.tasks.set i
        { t with seq := t.seq + 1, sent := min (t.sent + bytes.length) u.size, phase := .checking } ∧
      PhoneOk S blake3 w' (passes ++ [i]) u
        { l with outbound := l.outbound ++ [{ frame := .fileChunk u.id t.seq bytes }] } := by
  have hok := h.pass i t ht
  have hr := hok.reads
  unfold ReadsOk at hr
  rw [hphase] at hr
  have hin : inside t := inside_of_phase (by rw [hphase]; nofun) (by rw [hphase]; nofun)
  have hput := h.put ht hin { frame := .fileChunk u.id t.seq bytes } ⟨h.id, hr.1, hr.2.1⟩
  rw [← hok.link] at hput
  have hset := hput.setTask ht
    { t with seq := t.seq + 1, sent := min (t.sent + bytes.length) u.size, phase := .checking }
    (hok.step hr.2.2 rfl rfl rfl) fun _ => .inl hin
  unfold World.send
  rw [hphase]
  dsimp only
  rw [if_pos (h.isOpen_link hok)]
  exact ⟨_, rfl, rfl, hset.same rfl rfl rfl⟩

theorem PhoneOk.send (h : PhoneOk S blake3 w passes u l) :
    Went S blake3 (w.step blake3 false (.send i)) passes i l := by
  refine h.onTask fun t ht hok => ?_
  cases hphase : t.phase with
  | sending bytes =>
    obtain ⟨w', rfl, -, hsent⟩ := h.send_chunk ht hphase
    exact ⟨u, _, .inr ⟨_, hsent, rfl⟩⟩
  | finishing =>
    have hr := hok.reads
    unfold ReadsOk at hr
    rw [hphase] at hr
    have hin : inside t := inside_of_phase (by rw [hphase]; nofun) (by rw [hphase]; nofun)
    have hput := h.put ht hin { frame := .fileDone u.id u.size (blake3 t.hasher) } ⟨h.id, h.size, congrArg blake3 hr⟩
    rw [← hok.link] at hput
    unfold World.send
    rw [hphase]
    dsimp only
    rw [if_pos (h.isOpen_link hok)]
    exact ⟨u, _, .inr ⟨_, hput.ended ht hok, rfl⟩⟩
  | checking =>
    unfold World.send
    rw [hphase]
    exact h.went i
  | reading =>
    unfold World.send
    rw [hphase]
    exact h.went i
  | ended =>
    unfold World.send
    rw [hphase]
    exact h.went i

theorem PhoneOk.frame_step (h : PhoneOk S blake3 w passes u l) (frame : HostFrame) {os : Phone.Os} :
    w.step blake3 false (.frame 0 frame os) = w.onFrame 0 l.owner os frame := by
  rw [World.step, h.links]
  show (if l.closed = true then w else _) = _
  rw [h.isOpen]
  rfl

theorem PhoneOk.ownedUpload (h : PhoneOk S blake3 w passes u l) {owner : TransferOwner}
    {u' : UploadTransfer}
    (hu : w.ownedUpload uploadId owner = some u') : u' = u := by
  rw [World.ownedUpload, h.find] at hu
  exact (Option.some.inj (Option.filter_eq_some_iff.mp hu).1).symm

theorem PhoneOk.retry (h : PhoneOk S blake3 w passes u l) (fromSeq : Nat) :
    Went S blake3 (w.step blake3 false (.frame 0 (.fileRetry (.transfer uploadId) fromSeq) {})) passes 0 l := by
  rw [h.frame_step, World.onFrame]
  cases hu : w.ownedUpload uploadId l.owner with
  | none => exact h.went 0
  | some u' =>
    obtain rfl := h.ownedUpload hu
    exact (h.spawn fromSeq).went 0

theorem PhoneOk.fileErr (h : PhoneOk S blake3 w passes u l) (reason : String) :
    Went S blake3 (w.step blake3 false (.frame 0 (.fileErr (.transfer uploadId) reason) {})) passes 0 l := by
  rw [h.frame_step, World.onFrame]
  have hdown : PhoneOk S blake3 (w.failDownload uploadId l.owner) passes u l := by
    unfold World.failDownload
    split
    · exact h
    · exact h.same rfl rfl rfl
  have hup : ∃ u', PhoneOk S blake3 ((w.failDownload uploadId l.owner).failUpload uploadId l.owner) passes u' l := by
    unfold World.failUpload
    split
    · exact ⟨u, hdown⟩
    · next u' hu =>
      obtain rfl := hdown.ownedUpload hu
      exact ⟨_, hdown.modifyUpload _ rfl rfl rfl⟩
  obtain ⟨u', hu'⟩ := hup
  split
  · exact ⟨_, _, .inl ⟨hu'.same rfl rfl rfl, rfl⟩⟩
  · exact hu'.went 0

end Phone

/-! ## The host -/

section Host

variable {host : FileTransfer.State} {id : FileTransfer.TransferId} {v : FileTransfer.Upload}
  {os : FileTransfer.Os}
variable {blake3 : Bytes → Digest}

/-- What the chunk is to the upload: it is not taken, or it is the next one. -/
def Takes (v₀ v : FileTransfer.Upload) (seq : Nat) (bytes : Bytes) : Prop :=
  v.hasher = v₀.hasher ∧ v.nextSeq = v₀.nextSeq ∨
    seq = v₀.nextSeq ∧ v.hasher = v₀.hasher ++ bytes ∧ v.nextSeq = (v₀.nextSeq + 1) % 2 ^ 64

/-- A new upload begins with nothing. -/
theorem lookup_startUpload {path : PathBuf} {size : Nat} {mode : Option Nat} {allowOutside : Bool}
    (hv : (host.startUpload id path size mode allowOutside os).1.transfers.uploads.lookup id = some v) :
    host.transfers.uploads.lookup id = some v ∨ v.hasher = [] ∧ v.nextSeq = 0 := by
  unfold FileTransfer.State.startUpload at hv
  dsimp only at hv
  split at hv
  · exact .inl hv
  split at hv
  · exact .inl hv
  split at hv
  · exact .inl hv
  split at hv
  · split at hv
    · exact .inl hv
    · exact .inl hv
  split at hv
  · exact .inl hv
  · rw [Finmap.lookup_insert] at hv
    cases hv
    exact .inr ⟨rfl, rfl⟩

/-- A chunk is taken by the upload of its id. -/
theorem lookup_uploadChunk {seq : Nat} {bytes : Bytes}
    (hv : (host.uploadChunk id seq bytes os).1.transfers.uploads.lookup id = some v) :
    ∃ v₀, host.transfers.uploads.lookup id = some v₀ ∧ Takes v₀ v seq bytes := by
  unfold FileTransfer.State.uploadChunk at hv
  cases hu : host.transfers.uploads.lookup id with
  | none =>
    rw [hu] at hv
    dsimp only at hv
    rw [hu] at hv
    cases hv
  | some v₀ =>
    rw [hu] at hv
    dsimp only at hv
    have hsame (h : host.transfers.uploads.lookup id = some v) : Takes v₀ v seq bytes := by
      rw [hu] at h
      cases h
      exact .inl ⟨rfl, rfl⟩
    refine ⟨v₀, rfl, ?_⟩
    split at hv
    · exact hsame hv
    next hseq =>
    split at hv
    · exact hsame hv
    split at hv
    · exact hsame hv
    split at hv
    · rw [FileTransfer.State.setUpload, Finmap.lookup_insert] at hv
      cases hv
      exact .inl ⟨rfl, rfl⟩
    split at hv
    · rw [FileTransfer.State.setUpload, Finmap.lookup_insert] at hv
      cases hv
      exact .inl ⟨rfl, rfl⟩
    · rw [FileTransfer.State.setUpload, Finmap.lookup_insert] at hv
      cases hv
      exact .inr ⟨not_not.mp hseq, rfl, rfl⟩

theorem lookup_cancelUpload : (host.cancelUpload id os).transfers.uploads.lookup id = none := by
  unfold FileTransfer.State.cancelUpload
  cases hu : host.transfers.uploads.lookup id with
  | none => exact hu
  | some v => exact Finmap.lookup_erase _ _

theorem lookup_finishUpload {size : Nat} {checksum : Digest} :
    (host.finishUpload blake3 id size checksum os).1.transfers.uploads.lookup id = none := by
  unfold FileTransfer.State.finishUpload
  cases hu : host.transfers.uploads.lookup id with
  | none => exact hu
  | some v =>
    dsimp only
    split
    · exact Finmap.lookup_erase _ _
    · exact Finmap.lookup_erase _ _
    · split
      · exact Finmap.lookup_erase _ _
      · exact Finmap.lookup_erase _ _

/-- What a frame makes of the upload on the host, if it is for it. -/
def Leaves (host : FileTransfer.State) (id : FileTransfer.TransferId) (v : FileTransfer.Upload) :
    FileTransfer.Frame → Prop
  | .filePutReq id' .. => id' = id → v.hasher = [] ∧ v.nextSeq = 0
  | .fileChunk id' seq bytes =>
    id' = id → ∃ v₀, host.transfers.uploads.lookup id = some v₀ ∧ Takes v₀ v seq bytes
  | .fileDone id' .. => id' ≠ id
  | _ => True

/-- What a frame leaves of an upload. -/
theorem lookup_step {f : FileTransfer.Frame}
    (hv : (host.step blake3 (.frame f os)).transfers.uploads.lookup id = some v) :
    host.transfers.uploads.lookup id = some v ∨ Leaves host id v f := by
  unfold FileTransfer.State.step at hv
  dsimp only at hv
  split at hv
  · cases f with
    | fileGetReq => exact .inr trivial
    | fileRetry => exact .inr trivial
    | fileErr => exact .inr trivial
    | filePutReq id' path size mode allowOutside =>
      by_cases he : id' = id
      · subst he
        rw [FileTransfer.State.handle, FileTransfer.State.transfers_answer] at hv
        exact (lookup_startUpload hv).imp_right fun h _ => h
      · exact .inr fun h => absurd h he
    | fileDone id' size checksum =>
      refine .inr ?_
      rintro rfl
      rw [FileTransfer.State.handle, FileTransfer.State.transfers_answer, lookup_finishUpload] at hv
      cases hv
    | fileChunk id' seq bytes =>
      refine .inr ?_
      rintro rfl
      unfold FileTransfer.State.handle at hv
      dsimp only at hv
      split at hv
      · rw [lookup_cancelUpload] at hv
        cases hv
      · rw [FileTransfer.State.transfers_answer] at hv
        exact lookup_uploadChunk hv
  · exact .inl hv

end Host

/-! ## Runs -/

section Runs

variable {S : Splits file} {blake3 : Bytes → Digest} {components : String → PathBuf} {s : System}
  {u : UploadTransfer}
variable {l : Link}

/-- The phone, the link and what has been taken from it. -/
structure Shape (S : Splits file) (blake3 : Bytes → Digest) (s : System) (u : UploadTransfer) (l : Link) : Prop where
  phone : PhoneOk S blake3 s.phone s.passes u l
  taken : s.taken ≤ l.outbound.length

/-- The host has what the pass had read before the next chunk, of which it took the last one. -/
def HostOk (S : Splits file) (s : System) : Prop := ∀ v, s.upload = some v → ∃ n pass : Nat, n < s.taken ∧
  s.passes[n]? = some pass ∧ v.hasher = file.take (S.cut pass v.nextSeq)

/-- A step of pass `i` puts at most one frame on the link. -/
theorem Shape.turn (h : Shape S blake3 s u l) {i : Nat} {ev : Transfers.Event}
    (hw : Went S blake3 (s.phone.step blake3 false ev) s.passes i l) :
    (∃ u' l', Shape S blake3 (s.turn blake3 i ev) u' l') ∧
      s.passes <+: (s.turn blake3 i ev).passes := by
  obtain ⟨u', l', ⟨hp, hout⟩ | ⟨p, hp, hout⟩⟩ := hw
  · have hpasses : (s.turn blake3 i ev).passes = s.passes := by
      show s.passes ++ _ = s.passes
      rw [hp.outbound, ← hp.length, Nat.sub_self, List.replicate_zero, List.append_nil]
    refine ⟨⟨u', l', ?_, ?_⟩, ?_⟩
    · rw [hpasses]
      exact hp
    · rw [hout]
      exact h.taken
    · rw [hpasses]
  · have hlen := hp.length
    rw [List.length_append, List.length_singleton] at hlen
    have hpasses : (s.turn blake3 i ev).passes = s.passes ++ [i] := by
      show s.passes ++ _ = s.passes ++ [i]
      rw [hp.outbound, ← hlen, Nat.add_sub_cancel_left, List.replicate_one]
    refine ⟨⟨u', l', ?_, ?_⟩, ?_⟩
    · rw [hpasses]
      exact hp
    · rw [hout, List.length_append]
      exact Nat.le_add_right_of_le h.taken
    · rw [hpasses]
      exact List.prefix_append _ _

theorem prefix_get {l l' : List Nat} {n pass : Nat} (h : l <+: l') (hn : l[n]? = some pass) :
    l'[n]? = some pass := by
  obtain ⟨more, rfl⟩ := h
  rw [List.getElem?_append_left (List.getElem?_eq_some_iff.mp hn).1, hn]

theorem HostOk.turn (h : HostOk S s) {i : Nat} {ev : Transfers.Event}
    (hp : s.passes <+: (s.turn blake3 i ev).passes) : HostOk S (s.turn blake3 i ev) := by
  intro v hv
  obtain ⟨n, pass, hn, hpass, hh⟩ := h v hv
  exact ⟨n, pass, hn, prefix_get hp hpass, hh⟩

theorem free_of_isFree {i : Nat} (h : s.isFree i = true) (j : Nat) (t : UploadTask)
    (ht : s.phone.tasks[j]? = some t)
    (hj : j ≠ i) : ¬ inside t := by
  have hlt := (List.getElem?_eq_some_iff.mp ht).1
  have hfree := List.all_eq_true.mp h j (List.mem_range.mpr hlt)
  simpa [hj, ht] using hfree

/-- The steps of the phone. -/
theorem Shape.phone_step (h : Shape S blake3 s u l) (components : String → PathBuf) {ev : Event}
    (hd : ∀ os, ev ≠ .deliver os) (hl : ev ≠ .lose) :
    (∃ u' l', Shape S blake3 (s.step S blake3 components ev) u' l') ∧
      (HostOk S s → HostOk S (s.step S blake3 components ev)) := by
  have hturn {i : Nat} {e : Transfers.Event} (hw : Went S blake3 (s.phone.step blake3 false e) s.passes i l) :
      (∃ u' l', Shape S blake3 (s.turn blake3 i e) u' l') ∧ (HostOk S s → HostOk S (s.turn blake3 i e)) := by
    obtain ⟨hs, hp⟩ := h.turn hw
    exact ⟨hs, fun hh => hh.turn hp⟩
  cases ev with
  | retry fromSeq => exact hturn (h.phone.retry fromSeq)
  | fileErr reason => exact hturn (h.phone.fileErr reason)
  | check i =>
    unfold System.step
    dsimp only
    split
    · next hfree => exact hturn (h.phone.check (free_of_isFree hfree))
    · exact ⟨⟨u, l, h⟩, id⟩
  | read i =>
    refine hturn (h.phone.read fun t ht => ?_)
    rw [ht]
    rfl
  | readFails i error => exact hturn (h.phone.readFails error)
  | send i => exact hturn h.phone.send
  | deliver os => exact absurd rfl (hd os)
  | lose => exact absurd rfl hl

theorem outbound_get (h : Shape S blake3 s u l) {p : Packet}
    (hp : (outbound s.phone)[s.taken]? = some p) :
    ∃ i, s.passes[s.taken]? = some i ∧ FrameOk S blake3 i p ∧ s.taken < l.outbound.length := by
  rw [h.phone.outbound] at hp
  have hlt := (List.getElem?_eq_some_iff.mp hp).1
  have hlt' : s.taken < s.passes.length := by
    rw [h.phone.length]
    exact hlt
  exact ⟨_, List.getElem?_eq_getElem hlt', h.phone.frame _ _ _ hp (List.getElem?_eq_getElem hlt'), hlt⟩

theorem Shape.pass_le (h : Shape S blake3 s u l) {n m a b : Nat} (hn : s.passes[n]? = some a)
    (hm : s.passes[m]? = some b) (hnm : n < m) : a ≤ b := by
  obtain ⟨hlt, rfl⟩ := List.getElem?_eq_some_iff.mp hn
  obtain ⟨hlt', rfl⟩ := List.getElem?_eq_some_iff.mp hm
  exact List.pairwise_iff_getElem.mp h.phone.sorted n m hlt hlt' hnm

/-- The next chunk starts where the last one ends that the host took. -/
theorem HostOk.next (h : Shape S blake3 s u l) (ha : Agree S) (hh : HostOk S s)
    {v : FileTransfer.Upload} {i : Nat}
    (hv : s.upload = some v) (hi : s.passes[s.taken]? = some i)
    (hlt : S.cut i v.nextSeq < file.length) :
    v.hasher = file.take (S.cut i v.nextSeq) := by
  obtain ⟨n, pass, hn, hpass, hhasher⟩ := hh v hv
  obtain rfl | hlt' := Nat.eq_or_lt_of_le (h.pass_le hpass hi hn)
  · exact hhasher
  · rw [hhasher, ha pass i _ hlt' hlt]

/-- A frame arrives. -/
theorem HostOk.deliver (h : Shape S blake3 s u l) (ha : Agree S) (hh : HostOk S s)
    (os : FileTransfer.Os) {p : Packet}
    (hp : (outbound s.phone)[s.taken]? = some p) :
    HostOk S { s with
      host := s.host.step blake3 (.frame (toHost components p.frame) os)
      taken := s.taken + 1 } := by
  obtain ⟨i, hi, hframe, -⟩ := outbound_get h hp
  have hkeep {v₀ : FileTransfer.Upload} (hv : s.upload = some v₀) : ∃ n pass : Nat,
      n < s.taken + 1 ∧
      s.passes[n]? = some pass ∧ v₀.hasher = file.take (S.cut pass v₀.nextSeq) := by
    obtain ⟨n, pass, hn, hpass, hv⟩ := hh v₀ hv
    exact ⟨n, pass, Nat.lt_succ_of_lt hn, hpass, hv⟩
  intro v hv
  obtain hv | hv := lookup_step hv
  · exact hkeep hv
  · unfold FrameOk at hframe
    cases hf : p.frame with
    | fileGetReq => rw [hf] at hframe; exact hframe.elim
    | fileRetry => rw [hf] at hframe; exact hframe.elim
    | fileErr => rw [hf] at hframe; exact hframe.elim
    | filePutReq id path size mode allowOutsideHome =>
      rw [hf] at hframe hv
      obtain ⟨hhasher, hseq⟩ := hv (by rw [hframe])
      refine ⟨s.taken, i, Nat.lt_succ_self _, hi, ?_⟩
      rw [hhasher, hseq, S.zero, List.take_zero]
    | fileDone id size checksum =>
      rw [hf] at hframe hv
      exact absurd (by rw [hframe.1]) hv
    | fileChunk id seq bytes =>
      rw [hf] at hframe hv
      obtain ⟨hid, rfl, hlt⟩ := hframe
      obtain ⟨v₀, hv₀, ⟨hsame, hseq⟩ | ⟨rfl, hhasher, hseq⟩⟩ := hv (by rw [hid])
      · rw [hsame, hseq]
        exact hkeep hv₀
      · have hmod : (v₀.nextSeq + 1) % 2 ^ 64 = v₀.nextSeq + 1 := by
          have hseq := S.seq_le hlt
          have hmax := S.length_le
          refine Nat.mod_eq_of_lt ?_
          unfold maxFileLen at hmax
          omega
        refine ⟨s.taken, i, Nat.lt_succ_self _, hi, ?_⟩
        rw [hhasher, hseq, hmod, hh.next h ha hv₀ hi hlt, S.take_piece]

theorem step_ok (h : Shape S blake3 s u l) (ha : Agree S) (hh : HostOk S s) (ev : Event) :
    (∃ u' l', Shape S blake3 (s.step S blake3 components ev) u' l') ∧
      HostOk S (s.step S blake3 components ev) := by
  by_cases hd : ∃ os, ev = .deliver os
  · obtain ⟨os, rfl⟩ := hd
    unfold System.step
    dsimp only
    split
    · exact ⟨⟨u, l, h⟩, hh⟩
    · next p hp =>
      obtain ⟨-, -, -, hlt⟩ := outbound_get h hp
      exact ⟨⟨u, l, h.phone, hlt⟩, hh.deliver h ha os hp⟩
  · by_cases hl : ev = .lose
    · subst hl
      unfold System.step
      dsimp only
      split
      · next hlt =>
        rw [h.phone.outbound] at hlt
        refine ⟨⟨u, l, h.phone, hlt⟩, fun v hv => ?_⟩
        obtain ⟨n, pass, hn, hpass, hv⟩ := hh v hv
        exact ⟨n, pass, Nat.lt_succ_of_lt hn, hpass, hv⟩
      · exact ⟨⟨u, l, h⟩, hh⟩
    · obtain ⟨hs, hhost⟩ := h.phone_step components (fun os he => hd ⟨os, he⟩) hl
      exact ⟨hs, hhost hh⟩

theorem correct_of_ok (h : Shape S blake3 s u l) (ha : Agree S) (hh : HostOk S s) :
    Correct S blake3 s where
  accepted v hv := by
    obtain ⟨n, pass, -, -, hv⟩ := hh v hv
    rw [hv]
    exact List.take_prefix _ _
  starts v bytes pass hv hp hpass := by
    obtain ⟨i, hi, hframe, -⟩ := outbound_get h hp
    obtain ⟨-, -, hlt⟩ := hframe
    rw [hi] at hpass
    cases hpass
    rw [hh.next h ha hv hi hlt, List.length_take, Nat.min_eq_left (S.le_length _ _)]
  done size checksum hp := by
    obtain ⟨n, hn⟩ := List.mem_iff_getElem?.mp hp
    rw [h.phone.outbound] at hn
    have hlt : n < s.passes.length := by
      rw [h.phone.length]
      exact (List.getElem?_eq_some_iff.mp hn).1
    exact (h.phone.frame _ _ _ hn (List.getElem?_eq_getElem hlt)).2

/-- The first frame on the link. -/
def Setup.request (setup : Setup) (size : Nat) : Packet :=
  { frame := .filePutReq uploadId setup.remotePath size setup.mode setup.allowOutsideHome }

/-- The upload as `upload` enters it. -/
def Setup.transfer (setup : Setup) (size : Nat) : UploadTransfer :=
  { id := uploadId, owner := setup.owner, remotePath := setup.remotePath, size, epoch := 1 }

/-- The pass that `upload` spawns. -/
def firstPass : UploadTask := { upload := uploadId, link := 0, epoch := 1, fromSeq := 0, sent := 0 }

theorem start_uploads (setup : Setup) (size : Nat) :
    (setup.start blake3 size).phone.uploads = [setup.transfer size] := rfl

theorem start_tasks (setup : Setup) (size : Nat) :
    (setup.start blake3 size).phone.tasks = [firstPass] := rfl

theorem start_links (setup : Setup) (size : Nat) : (setup.start blake3 size).phone.links =
    [{ owner := setup.owner, outbound := [setup.request size] }] := rfl

/-- At the start only the request is on the link. -/
theorem shape_start (setup : Setup) :
    Shape S blake3 (setup.start blake3 file.length) (setup.transfer file.length)
    { owner := setup.owner, outbound := [setup.request file.length] } := by
  have hget {i : Nat} {t : UploadTask} (ht : (setup.start blake3 file.length).phone.tasks[i]? = some t) :
      i = 0 ∧ t = firstPass := by
    rw [start_tasks, List.getElem?_singleton] at ht
    split at ht
    · next hi => exact ⟨hi, (Option.some.inj ht).symm⟩
    · cases ht
  refine ⟨⟨start_uploads _ _, rfl, rfl, ?_, start_links _ _, rfl, ?_, ?_, rfl, List.pairwise_singleton _ _, ?_, ?_,
    ?_⟩, Nat.zero_le _⟩
  · rw [start_tasks]
    rfl
  · intro i t ht
    obtain ⟨rfl, rfl⟩ := hget ht
    refine ⟨rfl, rfl, rfl, ?_⟩
    show [] = file.take (S.cut 0 0)
    rw [S.zero, List.take_zero]
  · intro i j t t' ht ht' _ _
    rw [(hget ht).1, (hget ht').1]
  · intro i t ht hin
    rw [(hget ht).2] at hin
    exact absurd hin (by decide)
  · intro p hp
    rw [List.mem_singleton.mp hp, start_tasks]
    exact Nat.one_pos
  · intro n p i hp hi
    rw [List.getElem?_singleton] at hp
    split at hp
    · cases hp
      rfl
    · cases hp

theorem run_correct (ha : Agree S) (setup : Setup) (evs : List Event) :
    Correct S blake3 (setup.run S blake3 evs) := by
  have hok : (∃ u l, Shape S blake3 (setup.run S blake3 evs) u l) ∧
      HostOk S (setup.run S blake3 evs) := by
    refine Run.run_induction (I := fun _ s => (∃ u l, Shape S blake3 s u l) ∧ HostOk S s)
      ⟨⟨_, _, shape_start setup⟩, ?_⟩ ?_
    · intro v hv
      rw [System.upload] at hv
      exact Option.noConfusion rfl (heq_of_eq (hv.symm.trans setup.absent))
    · rintro pre ev post - ⟨⟨u, l, h⟩, hh⟩
      exact step_ok h ha hh ev
  obtain ⟨⟨u, l, h⟩, hh⟩ := hok
  exact correct_of_ok h ha hh

end Runs

/-! ## A run into each disagreement -/

section Schedule

variable {S : Splits file} {blake3 : Bytes → Digest} {components : String → PathBuf} {s : System}
  {u : UploadTransfer}
variable {l : Link} {v : FileTransfer.Upload} {i seq fromSeq : Nat} {host : FileTransfer.State}

/-- The host goes on with the upload. -/
structure Room (host : FileTransfer.State) (v : FileTransfer.Upload) : Prop where
  alive : host.alive = true
  upload : host.transfers.uploads.lookup ⟨.ofNat uploadId⟩ = some v
  lost : v.file.lost = false
  data : (host.fs.data v.file.inode).length = v.written
  hasher : v.hasher.length = v.written
  fits : v.expectedSize ≤ maxFileLen

/-- The next chunk is taken. -/
theorem Room.chunk (h : Room host v) (blake3 : Bytes → Digest) {bytes : Bytes}
    (hb : bytes.length ≤ fileChunkBytes)
    (hfits : v.written + bytes.length ≤ v.expectedSize) : ∃ v',
      Room (host.step blake3 (.frame (.fileChunk ⟨.ofNat uploadId⟩ v.nextSeq bytes) {})) v' ∧
      v'.nextSeq = (v.nextSeq + 1) % 2 ^ 64 ∧ v'.written = v.written + bytes.length ∧
      v'.expectedSize = v.expectedSize := by
  have hmax := h.fits
  have hmin : min (v.written + bytes.length) FileTransfer.u64Max = v.written + bytes.length := by
    refine Nat.min_eq_left ?_
    unfold maxFileLen at hmax
    unfold FileTransfer.u64Max
    omega
  have hwrite : v.file.writeAll host.fs bytes .ok =
      (.ok (), v.file, host.fs.append v.file.inode bytes) := by
    have hlen : ¬ maxFileLen < (host.fs.data v.file.inode).length + bytes.length := by
      rw [h.data]
      omega
    rw [FileTransfer.File.writeAll, h.lost]
    exact if_neg hlen
  have hchunk : host.uploadChunk ⟨.ofNat uploadId⟩ v.nextSeq bytes {} =
      (FileTransfer.State.setUpload { host with fs := host.fs.append v.file.inode bytes } ⟨.ofNat uploadId⟩
        { v with
          hasher := v.hasher ++ bytes
          written := v.written + bytes.length
          nextSeq := (v.nextSeq + 1) % 2 ^ 64 }, .ok none) := by
    rw [FileTransfer.State.uploadChunk, h.upload]
    dsimp only
    rw [if_neg (not_not.mpr rfl), if_neg (Nat.not_lt.mpr hb), hmin, if_neg (Nat.not_lt.mpr hfits),
      hwrite]
    rfl
  refine ⟨{ v with
    hasher := v.hasher ++ bytes
    written := v.written + bytes.length
    nextSeq := (v.nextSeq + 1) % 2 ^ 64 }, ?_, rfl, rfl, rfl⟩
  rw [FileTransfer.State.step, h.alive, FileTransfer.State.handle, hchunk]
  refine ⟨h.alive, Finmap.lookup_insert _, h.lost, ?_, ?_, h.fits⟩
  · show (Function.update host.fs.data v.file.inode _ v.file.inode).length = _
    rw [Function.update_self, List.length_append, h.data]
  · show (v.hasher ++ bytes).length = _
    rw [List.length_append, h.hasher]

/-- Pass `i` is the last one and about to read, and all frames on the link are taken. -/
structure Stage (S : Splits file) (blake3 : Bytes → Digest) (s : System) (i seq fromSeq : Nat)
    (v : FileTransfer.Upload) : Prop where
  shape : ∃ u l, Shape S blake3 s u l ∧ u.cancelled = false ∧ u.registered = true ∧ u.owner = l.owner ∧
    s.taken = l.outbound.length
  last : s.phone.tasks.length = i + 1
  task : ∃ t, s.phone.tasks[i]? = some t ∧ t.phase = .checking ∧ t.seq = seq ∧ t.fromSeq = fromSeq
  others : ∀ (j : Nat) t, s.phone.tasks[j]? = some t → j ≠ i → ¬ inside t
  host : Room s.host v
  size : v.expectedSize = file.length

theorem isFree_of_others (h : ∀ (j : Nat) t, s.phone.tasks[j]? = some t → j ≠ i → ¬ inside t) :
    s.isFree i = true := by
  refine List.all_eq_true.mpr fun j hj => ?_
  have hlt := List.mem_range.mp hj
  by_cases hji : j = i
  · simp [hji]
  · simp [List.getElem?_eq_getElem hlt, h j _ (List.getElem?_eq_getElem hlt) hji]

theorem turn_of_same (s : System) {w : World} {ev : Transfers.Event}
    (hw : s.phone.step blake3 false ev = w)
    (h : PhoneOk S blake3 w s.passes u l) (i : Nat) :
    s.turn blake3 i ev = { s with phone := w } := by
  rw [System.turn, hw]
  rw [h.outbound, ← h.length, Nat.sub_self, List.replicate_zero, List.append_nil]

theorem turn_of_put (s : System) {w : World} {ev : Transfers.Event}
    (hw : s.phone.step blake3 false ev = w)
    (h : PhoneOk S blake3 w (s.passes ++ [i]) u l) :
    s.turn blake3 i ev = { s with phone := w, passes := s.passes ++ [i] } := by
  have hlen := h.length
  rw [List.length_append, List.length_singleton] at hlen
  rw [System.turn, hw]
  rw [h.outbound, ← hlen, Nat.add_sub_cancel_left, List.replicate_one]

/-- The next pass starts, and the one before it ends. -/
theorem Stage.next (h : Stage S blake3 s i seq fromSeq v) (components : String → PathBuf)
    (fromSeq' : Nat) :
    Stage S blake3 (Run.run (System.step S blake3 components) s [.retry fromSeq', .check i]) (i + 1) 0 fromSeq' v := by
  obtain ⟨⟨u, l, hs, hc, hreg, howner, htaken⟩, hlast, ⟨t, ht, hphase, -, -⟩, hothers, hroom, hsize⟩ := h
  have hok := hs.phone.pass i t ht
  have hspawn := hs.phone.spawn fromSeq'
  have howned : s.phone.ownedUpload uploadId l.owner = some u := by
    rw [World.ownedUpload, hs.phone.find, Option.filter_some, hreg, howner]
    simp
  have hretry : s.phone.step blake3 false (.frame 0 (.fileRetry (.transfer uploadId) fromSeq') {}) =
      s.phone.spawnUploadRange u 0 fromSeq' := by
    rw [hs.phone.frame_step, World.onFrame, howned]
  have ht' : (s.phone.spawnUploadRange u 0 fromSeq').tasks[i]? = some t := Table.concat_some ht _
  have hcheck : (s.phone.spawnUploadRange u 0 fromSeq').step blake3 false (.check i) =
      (s.phone.spawnUploadRange u 0 fromSeq').setTask i { t with phase := .ended } := by
    have hstale : u.epoch + 1 ≠ t.epoch := by
      rw [hok.epoch, hs.phone.epoch, hlast]
      omega
    rw [World.step, hspawn.onTask_eq ht', if_pos hphase, World.check, if_pos (.inr hstale)]
  have hended := hspawn.ended ht' (hspawn.pass i t ht')
  have hget {j : Nat} {t₁ : UploadTask} (hj : (s.phone.spawnUploadRange u 0 fromSeq').tasks[j]? = some t₁)
      (hne : j ≠ i) : ¬ inside t₁ := by
    obtain hj | ⟨-, rfl⟩ := Table.concat_cases hj
    · exact hothers j t₁ hj hne
    · exact Bool.false_ne_true
  have hrun : Run.run (System.step S blake3 components) s [.retry fromSeq', .check i] =
      { s with phone := (s.phone.spawnUploadRange u 0 fromSeq').setTask i { t with phase := .ended } } := by
    rw [Run.run_cons, System.step, turn_of_same s hretry hspawn, Run.run_cons, System.step,
      if_pos (isFree_of_others fun j t₁ hj hne => hget hj hne),
      turn_of_same { s with phone := s.phone.spawnUploadRange u 0 fromSeq' } hcheck hended]
    rfl
  rw [hrun]
  refine ⟨⟨_, l, ⟨hended, hs.taken⟩, hc, hreg, howner, htaken⟩, ?_, ?_, ?_, hroom, hsize⟩
  · show ((s.phone.spawnUploadRange u 0 fromSeq').tasks.set i _).length = _
    rw [List.length_set, World.spawnUploadRange, List.length_append, hlast]
    rfl
  · have hnew : ((s.phone.spawnUploadRange u 0 fromSeq').tasks.set i { t with phase := .ended })[i + 1]? =
        some { upload := u.id, link := 0, epoch := u.epoch + 1, fromSeq := fromSeq'
               sent := min (fromSeq' * fileChunkBytes) FileTransfer.u64Max } := by
      rw [List.getElem?_set_ne (by omega), World.spawnUploadRange, ← hlast]
      exact List.getElem?_concat_length
    exact ⟨_, hnew, rfl, rfl, rfl⟩
  · intro j t₁ hj hne
    obtain ⟨rfl, rfl⟩ | ⟨hji, hj⟩ := getElem?_setTask ht' hj
    · exact not_inside_ended rfl
    · exact hget hj hji

/-- The pass goes on to read. -/
theorem Stage.check (h : Stage S blake3 s i seq fromSeq v) (components : String → PathBuf) :
    ∃ t u l, Shape S blake3 s u l ∧ u.cancelled = false ∧ u.registered = true ∧ u.owner = l.owner ∧
      s.taken = l.outbound.length ∧ s.phone.tasks[i]? = some t ∧ t.seq = seq ∧ t.fromSeq = fromSeq ∧
      PhoneOk S blake3 (s.phone.setTask i { t with phase := .reading }) s.passes u l ∧
      s.step S blake3 components (.check i) =
        { s with phone := s.phone.setTask i { t with phase := .reading } } := by
  obtain ⟨⟨u, l, hs, hc, hreg, howner, htaken⟩, hlast, ⟨t, ht, hphase, hseq, hfrom⟩, hothers, -, -⟩ := h
  have hok := hs.phone.pass i t ht
  have hgo : ¬ (u.cancelled = true ∨ u.epoch ≠ t.epoch) := by
    rw [hc, hok.epoch, hs.phone.epoch, hlast]
    simp
  have hreads : PassOk S i { t with phase := .reading } := by
    refine hok.step ?_ rfl rfl rfl
    have hr := hok.reads
    unfold ReadsOk at hr ⊢
    rw [hphase] at hr
    exact hr
  have hset :=
    hs.phone.setTask ht { t with phase := .reading } hreads fun _ => .inr ⟨hlast.symm, hothers⟩
  have hcheck : s.phone.step blake3 false (.check i) =
      s.phone.setTask i { t with phase := .reading } := by
    rw [World.step, hs.phone.onTask_eq ht, if_pos hphase, World.check, if_neg hgo]
  refine ⟨t, u, l, hs, hc, hreg, howner, htaken, ht, hseq, hfrom, hset, ?_⟩
  rw [System.step, if_pos (isFree_of_others hothers), turn_of_same s hcheck hset]

theorem getElem?_set_self' {l : List UploadTask} {t t' : UploadTask} (h : l[i]? = some t) :
    (l.set i t')[i]? = some t' := by
  rw [List.getElem?_set_self (List.getElem?_eq_some_iff.mp h).1]

/-- A pass reads the next piece. -/
theorem Stage.read (h : Stage S blake3 s i seq fromSeq v) (components : String → PathBuf)
    (hlt : S.cut i seq < file.length) :
    ∃ t u l, Shape S blake3 s u l ∧ u.cancelled = false ∧ u.registered = true ∧ u.owner = l.owner ∧
      s.taken = l.outbound.length ∧ s.phone.tasks[i]? = some t ∧ t.seq = seq ∧ t.fromSeq = fromSeq ∧
      PhoneOk S blake3 (s.phone.setTask i (afterRead t (S.piece i seq))) s.passes u l ∧
      Run.run (System.step S blake3 components) s [.check i, .read i] =
        { s with phone := s.phone.setTask i (afterRead t (S.piece i seq)) } := by
  obtain ⟨t, u, l, hs, hc, hreg, howner, htaken, ht, rfl, hfrom, hset, hcheck⟩ := h.check components
  have ht' : (s.phone.setTask i { t with phase := .reading }).tasks[i]? =
      some { t with phase := .reading } :=
    getElem?_set_self' ht
  obtain ⟨hread, hafter⟩ := hset.read_piece ht' rfl hlt
  have htwice : (s.phone.setTask i { t with phase := .reading }).setTask i
      (afterRead { t with phase := .reading } (S.piece i t.seq)) =
        s.phone.setTask i (afterRead t (S.piece i t.seq)) := by
    have hphase : afterRead { t with phase := .reading } (S.piece i t.seq) =
        afterRead t (S.piece i t.seq) := by
      unfold afterRead
      rfl
    rw [hphase, World.setTask, World.setTask, World.setTask, List.set_set]
  rw [htwice] at hread hafter
  refine ⟨t, u, l, hs, hc, hreg, howner, htaken, ht, rfl, hfrom, hafter, ?_⟩
  rw [Run.run_cons, hcheck, Run.run_cons, System.step, ht']
  exact turn_of_same { s with phone := s.phone.setTask i { t with phase := .reading } } hread hafter i

/-- A piece that is not sent. -/
theorem Stage.skip (h : Stage S blake3 s i seq fromSeq v) (components : String → PathBuf)
    (hlt : S.cut i seq < file.length) (hskip : seq < fromSeq) :
    Stage S blake3 (Run.run (System.step S blake3 components) s [.check i, .read i]) i (seq + 1) fromSeq v := by
  obtain ⟨t, u, l, hs, hc, hreg, howner, htaken, ht, rfl, rfl, hafter, hrun⟩ :=
    h.read components hlt
  have htask : afterRead t (S.piece i t.seq) =
      { t with hasher := t.hasher ++ S.piece i t.seq, seq := t.seq + 1, phase := .checking } :=
    if_neg (Nat.not_le.mpr hskip)
  rw [hrun]
  refine ⟨⟨u, l, ⟨hafter, hs.taken⟩, hc, hreg, howner, htaken⟩, ?_, ⟨_, getElem?_set_self' ht, ?_, ?_, ?_⟩, ?_, h.host,
    h.size⟩
  · show (s.phone.tasks.set i _).length = _
    rw [List.length_set, h.last]
  · rw [htask]
  · rw [htask]
  · rw [htask]
  · intro j t₁ hj hne
    obtain ⟨rfl, -⟩ | ⟨-, hj⟩ := getElem?_setTask ht hj
    · exact absurd rfl hne
    · exact h.others j t₁ hj hne

/-- A piece is put on the link. -/
theorem Stage.put (h : Stage S blake3 s i seq fromSeq v) (components : String → PathBuf)
    (hlt : S.cut i seq < file.length) (hsend : fromSeq ≤ seq) :
    ∃ s' t u l, Run.run (System.step S blake3 components) s [.check i, .read i, .send i] = s' ∧
      Shape S blake3 s' u l ∧
      u.cancelled = false ∧ u.registered = true ∧ u.owner = l.owner ∧
        s'.taken + 1 = l.outbound.length ∧
      l.outbound[s'.taken]? = some { frame := .fileChunk uploadId seq (S.piece i seq) } ∧
      s'.passes[s'.taken]? = some i ∧ s'.host = s.host ∧ s'.phone.tasks = s.phone.tasks.set i t ∧
      s.phone.tasks.length = i + 1 ∧ t.phase = .checking ∧ t.seq = seq + 1 ∧
        t.fromSeq = fromSeq := by
  obtain ⟨t, u, l, hs, hc, hreg, howner, htaken, ht, rfl, rfl, hafter, hrun⟩ :=
    h.read components hlt
  have htask : afterRead t (S.piece i t.seq) =
      { t with hasher := t.hasher ++ S.piece i t.seq, phase := .sending (S.piece i t.seq) } := if_pos hsend
  have ht' : (s.phone.setTask i (afterRead t (S.piece i t.seq))).tasks[i]? =
      some (afterRead t (S.piece i t.seq)) :=
    getElem?_set_self' ht
  obtain ⟨w', hw', htasks, hput⟩ := hafter.send_chunk ht' (by rw [htask])
  have hstep : (s.phone.setTask i (afterRead t (S.piece i t.seq))).step blake3 false (.send i) =
      w' := by
    rw [World.step, hafter.onTask_eq ht', hw']
  have hturn :=
    turn_of_put { s with phone := s.phone.setTask i (afterRead t (S.piece i t.seq)) } hstep hput
  have hlen := hs.phone.length
  refine ⟨{ s with phone := w', passes := s.passes ++ [i] },
    { afterRead t (S.piece i t.seq) with
      seq := (afterRead t (S.piece i t.seq)).seq + 1
      sent := min ((afterRead t (S.piece i t.seq)).sent + (S.piece i t.seq).length) u.size
      phase := .checking },
    u, _, ?_, ⟨hput, ?_⟩, hc, hreg, howner, ?_, ?_, ?_, rfl, ?_, h.last, rfl, ?_, ?_⟩
  · rw [show [Event.check i, .read i, .send i] = [.check i, .read i] ++ [.send i] from rfl,
      Run.run_append, hrun]
    exact hturn
  · rw [List.length_append]
    exact Nat.le_add_right_of_le hs.taken
  · rw [List.length_append, htaken]
    rfl
  · rw [htask, hs.phone.id, htaken]
    exact List.getElem?_concat_length
  · rw [htaken, ← hlen]
    exact List.getElem?_concat_length
  · rw [htasks]
    exact List.set_set ..
  · rw [htask]
  · rw [htask]

/-- A piece arrives. -/
theorem Stage.chunk (h : Stage S blake3 s i seq fromSeq v) (components : String → PathBuf)
    (hlt : S.cut i seq < file.length) (hsend : fromSeq ≤ seq)
    (hseq : v.nextSeq = seq) (hw : v.written = S.cut i seq) : ∃ v',
      Stage S blake3 (Run.run (System.step S blake3 components) s [.check i, .read i, .send i, .deliver {}]) i (seq + 1)
        fromSeq v' ∧ v'.nextSeq = seq + 1 ∧ v'.written = S.cut i (seq + 1) := by
  obtain ⟨s', t, u, l, hrun, hs, hc, hreg, howner, htaken, hget, -, hhost, htasks, hlast, hphase, ht, hfrom⟩ :=
    h.put components hlt hsend
  have hmono := S.mono i seq
  have hle := S.le_length i (seq + 1)
  have hpiece : v.written + (S.piece i seq).length = S.cut i (seq + 1) := by
    rw [Splits.length_piece, hw]
    omega
  obtain ⟨v', hroom, hnext, hwritten, hsize⟩ := h.host.chunk blake3 Splits.piece_le
    (by rw [hpiece, h.size]; exact hle)
  have hi : i < s.phone.tasks.length := by
    rw [hlast]
    exact Nat.lt_succ_self _
  refine ⟨v', ?_, ?_, hwritten.trans hpiece⟩
  · have hdeliver : Run.run (System.step S blake3 components) s [.check i, .read i, .send i, .deliver {}] =
        { s' with
          host := s'.host.step blake3 (.frame (.fileChunk ⟨.ofNat uploadId⟩ v.nextSeq (S.piece i seq)) {})
          taken := s'.taken + 1 } := by
      rw [show [Event.check i, .read i, .send i, .deliver {}] = [.check i, .read i, .send i] ++ [.deliver {}] from rfl,
        Run.run_append, hrun, Run.run_cons, System.step, hs.phone.outbound, hget, hseq]
      rfl
    rw [hdeliver]
    refine ⟨⟨u, l, ⟨hs.phone, Nat.le_of_eq htaken⟩, hc, hreg, howner, htaken⟩, ?_, ⟨t, ?_, hphase, ht, hfrom⟩, ?_, ?_,
      hsize.trans h.size⟩
    · show s'.phone.tasks.length = i + 1
      rw [htasks, List.length_set, hlast]
    · show s'.phone.tasks[i]? = some t
      rw [htasks, List.getElem?_set_self hi]
    · intro j t₁ hj hne
      have hj : s'.phone.tasks[j]? = some t₁ := hj
      rw [htasks, List.getElem?_set_ne (Ne.symm hne)] at hj
      exact h.others j t₁ hj hne
    · rw [hhost]
      exact hroom
  · have hbound := S.seq_le hlt
    have hmax := S.length_le
    rw [hnext, hseq]
    refine Nat.mod_eq_of_lt ?_
    unfold maxFileLen at hmax
    omega

theorem Stage.chunks (h : Stage S blake3 s i 0 0 v) (components : String → PathBuf)
    (hseq : v.nextSeq = 0)
    (hw : v.written = 0) (k : Nat) (hlt : ∀ n < k, S.cut i n < file.length) : ∃ evs v',
      Stage S blake3 (Run.run (System.step S blake3 components) s evs) i k 0 v' ∧ v'.nextSeq = k ∧
        v'.written = S.cut i k := by
  induction k with
  | zero => exact ⟨[], v, h, hseq, hw.trans (S.zero i).symm⟩
  | succ k ih =>
    obtain ⟨evs, v', hv, hseq', hw'⟩ := ih fun n hn => hlt n (Nat.lt_succ_of_lt hn)
    obtain ⟨v'', hv'', hmore⟩ :=
      hv.chunk components (hlt k (Nat.lt_succ_self k)) (Nat.zero_le _) hseq' hw'
    refine ⟨evs ++ [.check i, .read i, .send i, .deliver {}], v'', ?_, hmore⟩
    rw [Run.run_append]
    exact hv''

theorem Stage.skips (h : Stage S blake3 s i 0 fromSeq v) (components : String → PathBuf) (k : Nat)
    (hk : k ≤ fromSeq) (hlt : ∀ n < k, S.cut i n < file.length) : ∃ evs,
      Stage S blake3 (Run.run (System.step S blake3 components) s evs) i k fromSeq v := by
  induction k with
  | zero => exact ⟨[], h⟩
  | succ k ih =>
    obtain ⟨evs, hv⟩ := ih (Nat.le_of_succ_le hk) fun n hn => hlt n (Nat.lt_succ_of_lt hn)
    refine ⟨evs ++ [.check i, .read i], ?_⟩
    rw [Run.run_append]
    exact hv.skip components (hlt k (Nat.lt_succ_self k)) hk

/-- Retries up to a later pass. -/
theorem Stage.passTo (h : Stage S blake3 s i seq fromSeq v) (components : String → PathBuf)
    (fromSeq' : Nat)
    {j : Nat} (hj : i < j) :
    ∃ evs, Stage S blake3 (Run.run (System.step S blake3 components) s evs) j 0 fromSeq' v := by
  induction j with
  | zero => exact absurd hj (Nat.not_lt_zero _)
  | succ j ih =>
    obtain rfl | hlt := Nat.eq_or_lt_of_le (Nat.le_of_lt_succ hj)
    · exact ⟨_, h.next components fromSeq'⟩
    · obtain ⟨evs, hv⟩ := ih hlt
      refine ⟨evs ++ [.retry fromSeq', .check j], ?_⟩
      rw [Run.run_append]
      exact hv.next components fromSeq'

theorem fresh_nothing : ∀ (p : FileTransfer.AbsPath) (i : Nat), (fun _ => none : FileTransfer.AbsPath → Option Nat) p = some i →
    i < 0 :=
  fun _ _ h => (Option.some_ne_none _ h.symm).elim

/-- A host without files. -/
def plain : Setup where
  owner := ⟨⟨0⟩, ⟨0⟩⟩
  remotePath := "notes"
  mode := none
  allowOutsideHome := false
  files _ := none
  documents _ := none
  components path := [.normal path]
  host := .start ["home"] 0
    { entries := fun _ => none, data := fun _ => [], next := 0
      fresh := fresh_nothing } ⟨∅, ∅⟩
  absent := rfl

/-- The upload on it before the first chunk. -/
def fresh (size : Nat) : FileTransfer.Upload :=
  { target := ["home", "notes"], temporary := ["home", ".portty-upload-1.part"], file := { inode := 0 }
    expectedSize := size, written := 0, nextSeq := 0, mode := none, hasher := [] }

/-- The host has begun the upload. -/
theorem room_plain (blake3 : Bytes → Digest) {size : Nat} (h : size ≤ maxFileLen) :
    Room (plain.host.step blake3 (.frame (.filePutReq ⟨.ofNat uploadId⟩ [.normal "notes"] size none false)
      { canonical := .ok ["home"] })) (fresh size) := by
  have hslot : plain.host.transfers.pruneFinishedDownloads.hasActiveSlot = true := by decide
  have hpaths : FileTransfer.State.uploadPaths plain.host.transfers.pruneFinishedDownloads ⟨.ofNat uploadId⟩
      [.normal "notes"] size false { canonical := .ok ["home"] } =
      .ok (["home", "notes"], ["home", ".portty-upload-1.part"]) := by rfl
  have htrack : plain.host.cleanup.track ["home", ".portty-upload-1.part"] .ok =
      (.ok (), ⟨{["home", ".portty-upload-1.part"]}, {["home", ".portty-upload-1.part"]}⟩) := by rfl
  have hstart : ∃ host, plain.host.startUpload ⟨.ofNat uploadId⟩ [.normal "notes"] size none false
      { canonical := .ok ["home"] } = (host, .ok ()) ∧ Room host (fresh size) := by
    unfold FileTransfer.State.startUpload
    dsimp only
    rw [hslot, hpaths]
    dsimp only
    rw [htrack]
    exact ⟨_, rfl, rfl, Finmap.lookup_insert _, rfl, rfl, rfl, h⟩
  obtain ⟨host, hhost, hroom⟩ := hstart
  rw [FileTransfer.State.step, FileTransfer.State.handle, hhost]
  exact hroom

/-- And the first pass is about to read. -/
theorem stage_plain (S : Splits file) (blake3 : Bytes → Digest) :
    Stage S blake3 (plain.run S blake3 [.deliver { canonical := .ok ["home"] }]) 0 0 0 (fresh file.length) := by
  have hs : Shape S blake3 (plain.start blake3 file.length) _ _ := shape_start plain
  have hrun : plain.run S blake3 [.deliver { canonical := .ok ["home"] }] =
      { plain.start blake3 file.length with
        host := plain.host.step blake3 (.frame (.filePutReq ⟨.ofNat uploadId⟩ [.normal "notes"] file.length none false)
          { canonical := .ok ["home"] })
        taken := 1 } := by
    rw [Setup.run, Run.run_cons, System.step, hs.phone.outbound]
    rfl
  rw [hrun]
  refine ⟨⟨_, _, ⟨hs.phone, Nat.le_refl _⟩, rfl, rfl, rfl, rfl⟩, rfl, ⟨firstPass, rfl, rfl, rfl, rfl⟩, ?_,
    room_plain blake3 S.length_le, rfl⟩
  intro j t ht hne
  have hlt := (List.getElem?_eq_some_iff.mp ht).1
  exact absurd (Nat.lt_one_iff.mp hlt) hne

/-- Passes that disagree meet: the later one goes on where the earlier one did not end. -/
theorem agree_of_correct (h : ∀ setup evs, Correct S blake3 (Setup.run S blake3 setup evs))
    {i j : Nat} (hij : i < j)
    (k : Nat) (hj : S.cut j k < file.length) (hbefore : ∀ n < k, S.cut i n = S.cut j n) :
    S.cut i k = S.cut j k := by
  have hlt {n : Nat} (hn : n < k) : S.cut j n < file.length :=
    Nat.lt_of_le_of_lt (S.mono_le j (Nat.le_of_lt hn)) hj
  have hstart := stage_plain S blake3
  obtain ⟨evs₁, h₁⟩ : ∃ evs, Stage S blake3 (plain.run S blake3 evs) i 0 0 (fresh file.length) := by
    obtain rfl | hi := Nat.eq_zero_or_pos i
    · exact ⟨_, hstart⟩
    · obtain ⟨evs, hv⟩ := hstart.passTo plain.components 0 hi
      refine ⟨[.deliver { canonical := .ok ["home"] }] ++ evs, ?_⟩
      rw [Setup.run, Run.run_append]
      exact hv
  obtain ⟨evs₂, v, h₂, hseq, hw⟩ := h₁.chunks plain.components rfl rfl k fun n hn => by
    rw [hbefore n hn]
    exact hlt hn
  obtain ⟨evs₃, h₃⟩ := h₂.passTo plain.components k hij
  obtain ⟨evs₄, h₄⟩ := h₃.skips plain.components k (Nat.le_refl k) fun n hn => hlt hn
  obtain ⟨s, t, u, l, hrun, hs, -, -, -, -, hget, hpass, hhost, -⟩ :=
    h₄.put plain.components hj (Nat.le_refl k)
  have hc := h plain (evs₁ ++ evs₂ ++ evs₃ ++ evs₄ ++ [.check j, .read j, .send j])
  rw [Setup.run, Run.run_append, Run.run_append, Run.run_append, Run.run_append, ← Setup.run,
    hrun] at hc
  have hup : s.upload = some v := by
    rw [System.upload, hhost]
    exact h₄.host.upload
  have hstarts := hc.starts v (S.piece j k) j hup (by rw [hs.phone.outbound, hget, hseq]) hpass
  rw [hseq, h₄.host.hasher, hw] at hstarts
  exact hstarts.symm

end Schedule

/-- The retries of an upload are right for all setups, retries and losses if and only if the passes
agree on where a read starts. -/
theorem upload_retry (S : Splits file) (blake3 : Bytes → Digest) :
    (∀ setup evs, Correct S blake3 (Setup.run S blake3 setup evs)) ↔ Agree S := by
  constructor
  · intro h i j seq hij hj
    induction seq using Nat.strongRecOn with
    | ind k ih =>
      refine agree_of_correct h hij k hj fun n hn => ih n hn ?_
      exact Nat.lt_of_le_of_lt (S.mono_le j (Nat.le_of_lt hn)) hj
  · intro ha setup evs
    exact run_correct ha setup evs

/-- A file of three bytes: the first pass reads them one by one, and the others two at once. -/
def shortReads : Splits [1, 2, 3] where
  cut pass seq := if pass = 0 then min seq 3 else min (2 * seq) 3
  zero pass := by split <;> rfl
  lt_next pass seq h := by
    simp only [List.length_cons, List.length_nil] at h ⊢
    by_cases hp : pass = 0
    · rw [if_pos hp] at h
      rw [if_pos hp, if_pos hp]
      omega
    · rw [if_neg hp] at h
      rw [if_neg hp, if_neg hp]
      omega
  next_le pass seq := by
    unfold fileChunkBytes
    split <;> omega
  le_length pass seq := by
    simp only [List.length_cons, List.length_nil]
    split <;> omega
  mono pass seq := by split <;> omega
  length_le := by decide

/-- The host has got the first byte, the second one is lost, and then the third one comes under its
number. -/
def lostChunk : List Event :=
  [.deliver { canonical := .ok ["home"] }, .check 0, .read 0, .send 0, .deliver {}, .check 0, .read 0, .send 0, .lose,
    .retry 1, .check 0, .check 1, .read 1, .check 1, .read 1, .send 1, .deliver {}]

theorem retry_skips_byte :
    ¬ Correct shortReads (fun _ => 0) (plain.run shortReads (fun _ => 0) lostChunk) := by
  intro h
  have hup : (plain.run shortReads (fun _ => 0) lostChunk).upload.map (·.hasher) = some [1, 3] := by
    decide
  obtain ⟨v, hv, hhasher⟩ := Option.map_eq_some_iff.mp hup
  have hprefix := h.accepted v hv
  rw [hhasher] at hprefix
  exact absurd hprefix (by decide)

end UploadRetry

end Phone

end Portty
