import Portty.Phone.TransfersOwned

/-!
# Transfers do not cross pairings

`transfers_never_cross`: after every run, what is in the queue of a link is about transfers that
were started for its pairing. A frame that arrives on a link does nothing to a transfer of another
pairing (`view`), and without a frame no transfer is written, verified, retried or answered
(`Idle`).
-/

namespace Portty

namespace Phone

open FileTransfer (Digest)

/-! ## One download -/

namespace Downloads

variable {blake3 : Bytes → Digest} {windows : Bool} {s s' s'' : Downloads} {d : DownloadTransfer}
  {n : Nat}
  {o owner : TransferOwner} {os : Os}

/-- Only the download `n` differs, and it is none of `o`. -/
structure Apart (o : TransferOwner) (n : Nat) (s s' : Downloads) : Prop where
  downloads : s'.downloads.filter (·.owner = o) = s.downloads.filter (·.owner = o)
  verifying : s'.verifying.filter (·.transfer.owner = o) = s.verifying.filter (·.transfer.owner = o)
  staged : OnlyTemporary n s.disk s'.disk

/-- The download is not one of `o`. -/
def Foreign (o : TransferOwner) (n : Nat) (s : Downloads) : Prop :=
  ∀ d ∈ s.unfinished, d.id = n → d.owner ≠ o

theorem Apart.refl : Apart o n s s := ⟨rfl, rfl, fun _ _ => rfl⟩

theorem Foreign.download (h : Foreign o n s) (hd : d ∈ s.downloads) (hid : d.id = n) :
    decide (d.owner = o) = false :=
  decide_eq_false (h d (List.mem_append_left _ hd) hid)

theorem Foreign.verification {v : Verification} (h : Foreign o n s) (hv : v ∈ s.verifying)
    (hid : v.transfer.id = n) : decide (v.transfer.owner = o) = false :=
  decide_eq_false (h v.transfer (List.mem_append_right _ (List.mem_map_of_mem hv)) hid)

/-- Abandoning the download `n` is not seen by others. -/
theorem Apart.abandon (h : Foreign o n s) (ha : Apart o n s s') (hs : s'.downloads = s.downloads)
    (hid : d.id = n) : Apart o n s (s'.abandon d) := by
  have hdownloads : (Rows.remove DownloadTransfer.id d.id s'.downloads).filter (·.owner = o) =
      s.downloads.filter (·.owner = o) := by
    rw [hs]
    refine Rows.filter_remove fun b hb hk => ?_
    exact h.download hb (hk.trans hid)
  have hstaged : OnlyTemporary n s.disk (s'.disk.removeFile (.temporary d.id)) := by
    intro i hi
    rw [Disk.removeFile, files_set_of_ne _ _ (by rw [hid]; simpa using hi)]
    exact ha.staged i hi
  unfold Downloads.abandon Downloads.dropTarget
  split
  · exact ⟨hdownloads, ha.verifying, hstaged⟩
  · exact ⟨hdownloads, ha.verifying, hstaged⟩

/-- A download of another pairing is written. -/
theorem Apart.onFileChunk (h : Foreign o n s) (hne : owner ≠ o) (seq : Nat) (bytes : Bytes) :
    Apart o n s (s.onFileChunk owner n seq bytes os).1 := by
  unfold Downloads.onFileChunk
  split
  · exact .refl
  next d howned =>
  obtain ⟨-, hid, ho⟩ := owned_eq howned
  split
  · exact .refl
  split
  · exact .abandon h .refl rfl hid
  split
  · exact .refl
  split
  · exact .abandon h .refl rfl hid
  · refine ⟨Rows.filter_put (fun b hb hk => h.download hb (hk.trans hid)) ?_, rfl, onlyTemporary_set _ _⟩
    exact decide_eq_false fun he => hne (ho.symm.trans he)

theorem Apart.onFileDone (h : Foreign o n s) (hne : owner ≠ o) {size : Nat} {checksum : Digest}
    (hs : s.onFileDone owner n size checksum = some s') : Apart o n s s' := by
  obtain ⟨d, howned, rfl⟩ := Option.map_eq_some_iff.mp hs
  obtain ⟨-, -, ho⟩ := owned_eq howned
  refine ⟨Rows.filter_remove fun b hb hk => h.download hb hk, ?_, fun _ _ => rfl⟩
  have hd : decide (d.owner = o) = false := decide_eq_false fun he => hne (ho.symm.trans he)
  simp [List.filter_append, hd]

theorem temporary_rename {p q : Path} {i : Nat} (hp : .temporary i ≠ p) (hq : .temporary i ≠ q)
    (disk : Disk) (os' : Option String) :
    (disk.rename p q os').2.files (.temporary i) = disk.files (.temporary i) := by
  obtain ⟨-, e, he⟩ | ⟨content, -, he⟩ := rename_cases disk p q os'
  · rw [he]
  · rw [he, files_set_of_ne _ _ hp, files_set_of_ne _ _ hq]

/-- A download is installed; the staging files of others stay. -/
theorem onlyTemporary_replace (disk : Disk) (n : Nat) (name : String) (os : Os) :
    OnlyTemporary n disk (replaceDownloadFile windows disk n (.user name) os).2 := by
  intro i hi
  have hi : Path.temporary i ≠ .temporary n := by simpa using hi
  have hinstall : ∀ (disk : Disk), (disk.rename (.temporary n) (.user name) os.rename).2.files
      (.temporary i) = disk.files (.temporary i) := fun disk => temporary_rename hi (by simp) disk _
  unfold replaceDownloadFile
  split
  swap
  · exact hinstall disk
  split
  · rfl
  · exact hinstall disk
  split
  · rfl
  · rfl
  -- The destination is renamed to the backup.
  have hretain := temporary_rename (i := i) (p := .user name) (q := .backup n) (by simp) (by simp) disk
    os.retain
  split
  · next he => rw [he] at hretain; exact hretain
  next disk₁ he =>
  rw [he] at hretain
  have hrename := hinstall disk₁
  split
  · next disk₂ he₂ =>
    rw [he₂] at hrename
    have hback := temporary_rename (i := i) (p := .backup n) (q := .user name) (by simp) (by simp) disk₂
      os.rollback
    split
    · next he₃ => rw [he₃] at hback; exact hback.trans (hrename.trans hretain)
    · next he₃ => rw [he₃] at hback; exact hback.trans (hrename.trans hretain)
  · next disk₂ he₂ =>
    rw [he₂] at hrename
    split
    · exact hrename.trans hretain
    · rw [Disk.removeFile, files_set_of_ne _ _ (by simp)]
      exact hrename.trans hretain

/-- A download of another pairing is finished. -/
theorem Apart.finish (h : Foreign o n s) (os : Os) :
    Apart o n s (s.handle blake3 windows (.finish n os)).1 := by
  simp only [Downloads.handle]
  split
  · exact .refl
  next v hv =>
  have hid := Rows.key_of_find hv
  have hforeign : decide (v.transfer.owner = o) = false := h.verification (Rows.mem_of_find hv) hid
  have hverifying : (Rows.remove (·.transfer.id) v.transfer.id s.verifying).filter
      (·.transfer.owner = o) = s.verifying.filter (·.transfer.owner = o) :=
    Rows.filter_remove fun b hb hk => h.verification hb (hk.trans hid)
  have htaken : Apart o n s { s with
      verifying := Rows.remove (·.transfer.id) v.transfer.id s.verifying } :=
    ⟨rfl, hverifying, fun _ _ => rfl⟩
  unfold Downloads.finish
  dsimp only
  split
  · split
    · exact .abandon h htaken rfl hid
    -- It starts again.
    refine ⟨Rows.filter_put (fun b hb hk => h.download hb (hk.trans hid)) hforeign, hverifying, ?_⟩
    unfold restartFile
    dsimp only
    split
    · exact hid ▸ onlyTemporary_set _ _
    · exact fun _ _ => rfl
  split
  · exact .abandon h htaken rfl hid
  split
  · exact .abandon h htaken rfl hid
  split
  · exact ⟨rfl, hverifying, fun _ _ => rfl⟩
  next name _ =>
  have hreplace : OnlyTemporary n s.disk (replaceDownloadFile windows s.disk v.transfer.id (.user name) os).2 :=
    hid ▸ onlyTemporary_replace s.disk v.transfer.id name os
  split
  · next he =>
    rw [he] at hreplace
    exact ⟨rfl, hverifying, hreplace⟩
  · next he =>
    rw [he] at hreplace
    refine ⟨rfl, hverifying, fun i hi => ?_⟩
    have hne : Path.temporary i ≠ .temporary v.transfer.id := by
      intro heq
      exact hi ((Path.temporary.inj heq).trans hid)
    exact (files_set_of_ne _ _ hne).trans (hreplace i hi)

end Downloads

/-! ## The transfers of a pairing -/

namespace Transfers

/-- The transfer that the user is told about. -/
def about : Notice → Option Nat
  | .progress id .. | .complete id _ | .error id _ => some id
  | .note _ => none

/-- All that the phone has and does about the transfers of a pairing. -/
structure View where
  downloads : List DownloadTransfer
  verifying : List Verification
  staged : Nat → Option Bytes
  uploads : List UploadTransfer
  tasks : List UploadTask
  probes : List Probe
  answers : List (Nat × Except String Unit)
  told : List Notice

/-- What belongs to an owner. -/
def World.view (w : World) (o : TransferOwner) : View where
  downloads := w.downloads.downloads.filter (·.owner = o)
  verifying := w.downloads.verifying.filter (·.transfer.owner = o)
  staged id :=
    if w.started (.transfer id) = some o then w.downloads.disk.files (.temporary id) else none
  uploads := w.uploads.filter (·.owner = o)
  tasks := w.tasks.filter fun t => w.started (.transfer t.upload) = some o
  probes := w.probes.filter (·.owner = o)
  answers := w.answers.filter fun a => w.started (.probe a.1) = some o
  told := w.told.filter fun n => (about n).any fun id => w.started (.transfer id) = some o

/-- The link on which the frame has come that the step is about. -/
def Event.arrivesOn : Event → Option Nat
  | .frame link .. | .finish link .. => some link
  | _ => none

variable {blake3 : Bytes → Digest} {windows : Bool} {w w' : World} {link : Nat}
  {o owner : TransferOwner}
  {id : TransferId} {n : Nat} {u : UploadTransfer} {os : Os}

theorem Wf.foreign (h : Wf w) (hs : w.started (.transfer n) ≠ some o) :
    Downloads.Foreign o n w.downloads := by
  rintro d hd rfl rfl
  exact hs (h.claims _ _ (.inl ⟨d, hd, rfl, rfl⟩))

/-- A transfer of the owner of a link is none of another pairing. -/
theorem started_ne (hs : w.started id = some owner) (hne : owner ≠ o) : w.started id ≠ some o := by
  rw [hs]
  exact fun he => hne (Option.some.inj he)

/-- The user is told about a transfer of another pairing. -/
theorem view_tell (w : World) {told : List Notice}
    (h : ∀ m ∈ told, ∀ n ∈ about m, w.started (.transfer n) ≠ some o) :
    ({ w with told := w.told ++ told } : World).view o = w.view o := by
  have hnew : told.filter (fun m => (about m).any fun n => w.started (.transfer n) = some o) =
      [] := by
    refine List.filter_eq_nil_iff.mpr fun m hm => ?_
    cases ha : about m with
    | none => simp
    | some n => simpa using h m hm n ha
  unfold World.view
  simp only [List.filter_append, hnew, List.append_nil]

theorem view_emit (w : World) (link : Nat) {out : Out}
    (h : ∀ m ∈ out.told, ∀ n ∈ about m, w.started (.transfer n) ≠ some o) :
    (w.emit link out).view o = w.view o :=
  view_tell w h

/-- Downloads of another owner are not seen. -/
theorem view_downloads (w : World) {downloads : Downloads} (hs : w.started (.transfer n) ≠ some o)
    (h : Downloads.Apart o n w.downloads downloads) :
    ({ w with downloads } : World).view o = w.view o := by
  have hstaged : ∀ i, w.started (.transfer i) = some o →
      downloads.disk.files (.temporary i) = w.downloads.disk.files (.temporary i) := by
    intro i hi
    refine h.staged i ?_
    rintro rfl
    exact hs hi
  unfold World.view
  simp only [h.downloads, h.verifying]
  congr 1
  funext i
  by_cases hi : w.started (.transfer i) = some o
  · rw [if_pos hi, if_pos hi, hstaged i hi]
  · rw [if_neg hi, if_neg hi]

/-- An upload of another pairing. -/
theorem view_modifyUpload (h : Wf w) (hs : w.started (.transfer n) ≠ some o)
    {f : UploadTransfer → UploadTransfer} (hf : ∀ u, (f u).owner = u.owner) :
    (w.modifyUpload n f).view o = w.view o := by
  have hrows : (w.modifyUpload n f).uploads.filter (·.owner = o) =
      w.uploads.filter (·.owner = o) := by
    refine Rows.filter_map_of fun u hu => ?_
    by_cases hid : u.id = n
    · right
      have hne : u.owner ≠ o := by
        rintro rfl
        exact hs (h.claims _ _ (.inr (.inl ⟨u, hu, by rw [hid], rfl⟩)))
      rw [if_pos hid, hf u]
      exact ⟨decide_eq_false hne, decide_eq_false hne⟩
    · exact .inl (if_neg hid)
  unfold World.view
  rw [hrows]
  rfl

theorem view_spawnUploadRange (h : Wf w) (hs : w.started (.transfer u.id) ≠ some o)
    (link fromSeq : Nat) :
    (w.spawnUploadRange u link fromSeq).view o = w.view o := by
  have hmod : (w.modifyUpload u.id fun u => { u with epoch := u.epoch + 1 }).view o = w.view o := by
    refine view_modifyUpload h hs ?_
    exact fun _ => rfl
  rw [← hmod]
  unfold World.view
  simp [World.spawnUploadRange, World.modifyUpload, hs]

/-- A probe of another pairing is answered. -/
theorem view_answer (h : Wf w) (hne : owner ≠ o) (n : Nat) (result : Except String Unit)
    (cancel : Option Nat) : (w.answer n owner result cancel).view o = w.view o := by
  unfold World.answer
  split
  · rfl
  next p hp =>
  obtain ⟨hf, ho⟩ := Option.filter_eq_some_iff.mp hp
  have howner : p.owner = owner := by simpa using (Bool.and_eq_true_iff.mp ho).2
  have hs : w.started (.probe p.id) ≠ some o :=
    started_ne (h.claims _ _ (.inr (.inr ⟨p, Rows.mem_of_find hf, rfl, howner.symm⟩))) hne
  have hrows : (w.stopWaiting p.id).probes.filter (·.owner = o) =
      w.probes.filter (·.owner = o) := by
    refine Rows.filter_map_of fun b hb => ?_
    by_cases hid : b.id = p.id
    · right
      have hne : b.owner ≠ o := by
        rintro rfl
        exact hs (h.claims _ _ (.inr (.inr ⟨b, hb, by rw [hid], rfl⟩)))
      rw [if_pos hid]
      exact ⟨decide_eq_false hne, decide_eq_false hne⟩
    · exact .inl (if_neg hid)
  have hanswer : ({ w.stopWaiting p.id with answers := w.answers ++ [(p.id, result)] } : World).view o =
      w.view o := by
    have hanswers : (w.answers ++ [(p.id, result)]).filter
        (fun a => w.started (.probe a.1) = some o) =
        w.answers.filter fun a => w.started (.probe a.1) = some o := by
      simp [hs]
    unfold World.view
    rw [hrows]
    congr 1
  dsimp only
  split
  · exact hanswer
  · exact hanswer

/-- What the user is told of a step about one download is about it. -/
theorem told_onFileChunk {s : Downloads} {seq : Nat} {bytes : Bytes} {m : Notice}
    (hm : m ∈ (s.onFileChunk owner n seq bytes os).2.told) : about m = some n := by
  unfold Downloads.onFileChunk at hm
  split at hm
  · cases hm
  split at hm
  · cases hm
  split at hm
  · rw [List.mem_singleton.mp hm, about]
  split at hm
  · rw [List.mem_singleton.mp hm, about]
  split at hm
  · rw [List.mem_singleton.mp hm, about]
  · rw [List.mem_singleton.mp hm, about]

/-- A notice of a finish is about its download. -/
theorem told_finish {s : Downloads} {m : Notice}
    (hm : m ∈ (s.handle blake3 windows (.finish n os)).2.told) : about m = some n := by
  simp only [Downloads.handle] at hm
  split at hm
  · cases hm
  next v hv =>
  have hid := Rows.key_of_find hv
  have hone : ∀ m', m ∈ [m'] → about m' = some v.transfer.id → about m = some n := by
    intro m' hm' ha
    rw [List.mem_singleton.mp hm', ha]
    exact congrArg some hid
  unfold Downloads.finish at hm
  dsimp only at hm
  split at hm
  · split at hm
    · exact hone _ hm rfl
    · cases hm
  split at hm
  · exact hone _ hm rfl
  split at hm
  · exact hone _ hm rfl
  split at hm
  · cases hm
  split at hm
  · exact hone _ hm rfl
  · exact hone _ hm rfl

theorem view_failDownload (h : Wf w) (hne : owner ≠ o) (n : Nat) :
    (w.failDownload n owner).view o = w.view o := by
  unfold World.failDownload
  split
  · rfl
  next d hd =>
  have hs := started_ne (h.claims _ _ (mem_unfinished_owned hd)) hne
  exact view_downloads w hs (.abandon (h.foreign hs) .refl rfl (Downloads.owned_eq hd).2.1)

theorem view_failUpload (h : Wf w) (hne : owner ≠ o) (n : Nat) :
    (w.failUpload n owner).view o = w.view o := by
  unfold World.failUpload
  split
  · rfl
  next u hu =>
  obtain ⟨hmem, -, ho⟩ := ownedUpload_eq hu
  refine view_modifyUpload h (started_ne (h.claims _ _ (.inr (.inl ⟨u, hmem, rfl, ho.symm⟩))) hne) ?_
  exact fun _ => rfl

/-- Only `FileErr` itself tells the user. -/
theorem told_failUpload (w : World) (n : Nat) (owner : TransferOwner) :
    ((w.failDownload n owner).failUpload n owner).started = w.started ∧
      ((w.failDownload n owner).failUpload n owner).told = w.told := by
  have hd : (w.failDownload n owner).started = w.started ∧
      (w.failDownload n owner).told = w.told := by
    unfold World.failDownload
    split <;> exact ⟨rfl, rfl⟩
  unfold World.failUpload
  split <;> exact hd

/-- A frame on a link of another pairing. -/
theorem view_onFrame (h : Wf w) (hne : owner ≠ o) (link : Nat) (os : Os) (frame : HostFrame) :
    (w.onFrame link owner os frame).view o = w.view o := by
  -- A transfer that the owner of the link has is none of `o`.
  have hdownload : ∀ n d, w.downloads.owned n owner = some d → w.started (.transfer n) ≠ some o :=
    fun n d hd => started_ne (h.claims _ _ (mem_unfinished_owned hd)) hne
  have hupload : ∀ n u, w.ownedUpload n owner = some u → u.id = n ∧
      w.started (.transfer u.id) ≠ some o := by
    intro n u hu
    obtain ⟨hmem, hid, ho⟩ := ownedUpload_eq hu
    exact ⟨hid, started_ne (h.claims _ _ (.inr (.inl ⟨u, hmem, rfl, ho.symm⟩))) hne⟩
  cases frame with
  | fileChunk id seq bytes =>
    cases id with
    | probe n => exact view_answer h hne n _ _
    | transfer n =>
      by_cases hs : w.started (.transfer n) = some o
      · -- The owner of the link has no such download.
        have hnone : w.downloads.owned n owner = none := by
          cases hd : w.downloads.owned n owner with
          | none => rfl
          | some d => exact absurd hs (hdownload n d hd)
        simp [World.onFrame, Downloads.onFileChunk, hnone, World.emit, World.put, World.view]
      · have hd : ({ w with downloads := (w.downloads.onFileChunk owner n seq bytes os).1 } : World).view o =
            w.view o :=
          view_downloads w hs (.onFileChunk (h.foreign hs) hne seq bytes)
        rw [← hd]
        refine view_emit _ link fun m hm k hk => ?_
        rw [told_onFileChunk hm] at hk
        obtain rfl := Option.mem_some.mp hk
        exact hs
  | fileDone id size checksum =>
    cases id with
    | probe n => exact view_answer h hne n _ _
    | transfer n =>
      simp only [World.onFrame]
      split
      · next downloads hd =>
        obtain ⟨d, howned, -⟩ := Option.map_eq_some_iff.mp hd
        have hs := hdownload n d howned
        exact view_downloads w hs (.onFileDone (h.foreign hs) hne hd)
      · split
        · rfl
        next u hu =>
        obtain ⟨-, hs⟩ := hupload n u hu
        have hmod : (w.modifyUpload u.id fun u => { u with registered := false }).view o =
            w.view o := by
          refine view_modifyUpload h hs ?_
          exact fun _ => rfl
        refine Eq.trans (view_tell (w.modifyUpload u.id fun u => { u with registered := false })
          fun m hm k hk => ?_) hmod
        rw [List.mem_singleton.mp hm] at hk
        obtain rfl := Option.mem_some.mp hk
        exact hs
  | fileRetry id fromSeq =>
    cases id with
    | probe n => rfl
    | transfer n =>
      simp only [World.onFrame]
      split
      · rfl
      · next u hu => exact view_spawnUploadRange h (hupload n u hu).2 link fromSeq
  | fileErr id reason =>
    cases id with
    | probe n => exact view_answer h hne n _ _
    | transfer n =>
      have hfail : ((w.failDownload n owner).failUpload n owner).view o = w.view o :=
        (view_failUpload (h.failDownload n owner) hne n).trans (view_failDownload h hne n)
      obtain ⟨hstarted, htold⟩ := told_failUpload w n owner
      simp only [World.onFrame]
      split
      · next howned =>
        have hs : w.started (.transfer n) ≠ some o := by
          obtain hd | hu := Bool.or_eq_true_iff.mp howned
          · obtain ⟨d, hd⟩ := Option.isSome_iff_exists.mp hd
            exact hdownload n d hd
          · obtain ⟨u, hu⟩ := Option.isSome_iff_exists.mp hu
            obtain ⟨rfl, hs⟩ := hupload n u hu
            exact hs
        rw [← hfail, ← htold]
        refine view_tell _ fun m hm k hk => ?_
        rw [List.mem_singleton.mp hm] at hk
        obtain rfl := Option.mem_some.mp hk
        rw [hstarted]
        exact hs
      · exact hfail

/-- What a download was verified for, after the frame that has ended it. -/
theorem view_finish (h : Wf w) (hs : w.started (.transfer n) ≠ some o) (link : Nat)
    (dones : List (Nat × Nat)) (os : Os) :
    (({ w with downloads := (w.downloads.handle blake3 windows (.finish n os)).1, dones }).emit link
      (w.downloads.handle blake3 windows (.finish n os)).2).view o = w.view o := by
  have hd : ({ w with downloads := (w.downloads.handle blake3 windows (.finish n os)).1 } : World).view o =
      w.view o :=
    view_downloads w hs (.finish (h.foreign hs) os)
  rw [← hd]
  refine view_emit { w with
    downloads := (w.downloads.handle blake3 windows (.finish n os)).1, dones } link fun m hm k hk => ?_
  rw [told_finish hm] at hk
  obtain rfl := Option.mem_some.mp hk
  exact hs

/-- What arrives on a link of another pairing. -/
theorem view_step (h : Wf w) {ev : Event} (hev : ev.arrivesOn = some link)
    (hl : ∀ l, w.links[link]? = some l → l.owner ≠ o) :
    (w.step blake3 windows ev).view o = w.view o := by
  cases ev with
  | frame k frame os =>
    obtain rfl := Option.some.inj hev
    simp only [World.step]
    split
    · rfl
    next l hk =>
    split
    · rfl
    · exact view_onFrame h (hl l hk) k os frame
  | finish k n os =>
    obtain rfl := Option.some.inj hev
    simp only [World.step]
    split
    · next hd =>
      obtain ⟨owner, hs, ho⟩ := h.uses _ _ (.inl ⟨n, hd, rfl⟩)
      obtain ⟨l, hk, rfl⟩ := Option.map_eq_some_iff.mp ho
      exact view_finish h (started_ne hs (hl l hk)) k _ os
    · rfl
  | _ => cases hev

/-! ## Without a frame -/

/-- Nothing is written, verified, retried or answered. -/
structure Idle (w w' : World) : Prop where
  downloads : ∀ d ∈ w'.downloads.downloads,
    d ∈ w.downloads.downloads ∨ w.started (.transfer d.id) = none
  verifying : w'.downloads.verifying = w.downloads.verifying
  uploads : ∀ u' ∈ w'.uploads, (∃ u ∈ w.uploads, u.id = u'.id ∧ u.epoch = u'.epoch) ∨
    w.started (.transfer u'.id) = none
  answers : w'.answers = w.answers
  started : ∀ id o, w.started id = some o → w'.started id = some o

theorem Idle.same (hd : w'.downloads.downloads = w.downloads.downloads)
    (hv : w'.downloads.verifying = w.downloads.verifying) (hu : w'.uploads = w.uploads)
    (ha : w'.answers = w.answers) (hs : w'.started = w.started) : Idle w w' :=
  ⟨fun _ hmem => .inl (hd ▸ hmem), hv, fun u hmem => .inl ⟨u, hu ▸ hmem, rfl, rfl⟩, ha,
    fun _ _ h => hs ▸ h⟩

/-- The uploads are the same, but for flags. -/
theorem Idle.setUploads {f : UploadTransfer → UploadTransfer}
    (hf : ∀ u, (f u).id = u.id ∧ (f u).epoch = u.epoch) :
    Idle w { w with uploads := w.uploads.map f } := by
  refine ⟨fun _ hd => .inl hd, rfl, fun u' hu' => ?_, rfl, fun _ _ hs => hs⟩
  obtain ⟨u, hu, rfl⟩ := List.mem_map.mp hu'
  exact .inl ⟨u, hu, (hf u).1.symm, (hf u).2.symm⟩

theorem Idle.modifyUpload {f : UploadTransfer → UploadTransfer}
    (hf : ∀ u, (f u).id = u.id ∧ (f u).epoch = u.epoch) (n : Nat) :
    Idle w (w.modifyUpload n f) := by
  refine Idle.setUploads fun u => ?_
  by_cases hid : u.id = n
  · rw [if_pos hid]
    exact hf u
  · rw [if_neg hid]
    exact ⟨rfl, rfl⟩

theorem abandon_sub {s : Downloads} {d d' : DownloadTransfer} (h : d' ∈ (s.abandon d).downloads) :
    d' ∈ s.downloads := by
  unfold Downloads.abandon Downloads.dropTarget at h
  split at h <;> exact (Rows.mem_remove.mp h).1

theorem verifying_abandon (s : Downloads) (d : DownloadTransfer) :
    (s.abandon d).verifying = s.verifying := by
  unfold Downloads.abandon Downloads.dropTarget
  split <;> rfl

theorem abandonAll_sub {l : List DownloadTransfer} {s : Downloads} {d : DownloadTransfer}
    (h : d ∈ (l.foldl Downloads.abandon s).downloads) : d ∈ s.downloads := by
  induction l generalizing s with
  | nil => exact h
  | cons e l ih => exact abandon_sub (ih h)

theorem verifying_abandonAll (l : List DownloadTransfer) (s : Downloads) :
    (l.foldl Downloads.abandon s).verifying = s.verifying := by
  induction l generalizing s with
  | nil => rfl
  | cons d l ih => rw [List.foldl_cons, ih, verifying_abandon]

theorem Idle.cancelDownloads (owner : TransferOwner) : Idle w (w.cancelDownloads owner) :=
  ⟨fun _ hd => .inl (abandonAll_sub hd), verifying_abandonAll _ _,
    fun u hu => .inl ⟨u, hu, rfl, rfl⟩, rfl, fun _ _ hs => hs⟩

theorem Idle.cancelUploads (owner : TransferOwner) : Idle w (w.cancelUploads owner) := by
  have hset : Idle w { w with uploads := (w.cancelUploads owner).uploads } := by
    refine Idle.setUploads fun u => ?_
    split <;> exact ⟨rfl, rfl⟩
  exact ⟨hset.downloads, rfl, hset.uploads, rfl, hset.started⟩

/-- A new transfer; those that were started before stay. -/
theorem started_begin (h : Wf w) (hid : Fresh w id) (owner : TransferOwner) (id' : TransferId)
    (o : TransferOwner) (hs : w.started id' = some o) :
    Function.update w.started id (some owner) id' = some o := by
  have hne : id' ≠ id := by
    rintro rfl
    rw [h.started_fresh hid] at hs
    cases hs
  rw [Function.update_of_ne hne]
  exact hs

/-- A new download. -/
theorem Idle.download (h : Wf w) (c : Connection) (remotePath : String) (target : DownloadTarget)
    (allowOutsideHome queued : Bool) :
    Idle w (w.download c remotePath target allowOutsideHome queued) := by
  have hnew : ∀ d ∈ (w.downloads.register c.owner remotePath target allowOutsideHome).1.downloads,
      d ∈ w.downloads.downloads ∨ w.started (.transfer d.id) = none := by
    intro d hd
    obtain rfl | ⟨hd, -⟩ := Rows.mem_put.mp hd
    · exact .inr (h.fresh _ (Nat.le_refl _)).1
    · exact .inl hd
  have hs := started_begin h (.inl rfl) c.owner
  unfold World.download
  dsimp only
  split
  · exact ⟨hnew, rfl, fun u hu => .inl ⟨u, hu, rfl, rfl⟩, rfl, hs⟩
  · unfold Downloads.unregister
    split
    · exact ⟨hnew, rfl, fun u hu => .inl ⟨u, hu, rfl, rfl⟩, rfl, hs⟩
    · exact ⟨fun d hd => hnew d (abandon_sub hd), verifying_abandon _ _,
        fun u hu => .inl ⟨u, hu, rfl, rfl⟩, rfl, hs⟩

/-- A new upload. Its first task starts, which is no retry. -/
theorem Idle.upload (h : Wf w) (c : Connection) (remotePath : String) (size : Nat)
    (mode : Option Nat)
    (allowOutsideHome : Bool) : Idle w (w.upload c remotePath size mode allowOutsideHome) := by
  have hfresh : w.started (.transfer w.nextId) = none := (h.fresh _ (Nat.le_refl _)).1
  have hs := started_begin h (.inl rfl) c.owner
  unfold World.upload
  dsimp only
  split
  · refine ⟨fun _ hd => .inl hd, rfl, fun u' hu' => ?_, rfl, hs⟩
    obtain ⟨u, hu, rfl⟩ := List.mem_map.mp hu'
    by_cases hid : u.id = w.nextId
    · rw [if_pos hid]
      exact .inr (hid ▸ hfresh)
    · rw [if_neg hid]
      obtain hu | hu := List.mem_append.mp hu
      · exact .inl ⟨u, hu, rfl, rfl⟩
      · rw [List.mem_singleton.mp hu]
        exact .inr hfresh
  · refine ⟨fun _ hd => .inl hd, rfl, fun u hu => ?_, rfl, hs⟩
    obtain hu | hu := List.mem_append.mp hu
    · exact .inl ⟨u, hu, rfl, rfl⟩
    · rw [List.mem_singleton.mp hu]
      exact .inr hfresh

theorem Idle.probe (h : Wf w) (c : Connection) (remotePath : String)
    (allowOutsideHome queued : Bool) :
    Idle w (w.probe c remotePath allowOutsideHome queued) := by
  have hs := started_begin h (.inr rfl) c.owner
  unfold World.probe
  dsimp only
  split
  · exact ⟨fun _ hd => .inl hd, rfl, fun u hu => .inl ⟨u, hu, rfl, rfl⟩, rfl, hs⟩
  · exact ⟨fun _ hd => .inl hd, rfl, fun u hu => .inl ⟨u, hu, rfl, rfl⟩, rfl, hs⟩

theorem Idle.fail (i : Nat) (t : UploadTask) (u : UploadTransfer) (message : String) :
    Idle w (w.fail i t u message) := by
  unfold World.fail
  dsimp only
  split
  · exact .same rfl rfl rfl rfl rfl
  · have hmod : Idle w (w.modifyUpload u.id fun u => { u with cancelled := true, registered := false }) := by
      refine Idle.modifyUpload ?_ u.id
      exact fun _ => ⟨rfl, rfl⟩
    exact ⟨hmod.downloads, rfl, hmod.uploads, rfl, hmod.started⟩

theorem Idle.onTask {i : Nat} {f : UploadTask → UploadTransfer → World}
    (hf : ∀ t u, Idle w (f t u)) :
    Idle w (w.onTask i f) := by
  unfold World.onTask
  split
  · exact .same rfl rfl rfl rfl rfl
  split
  · exact .same rfl rfl rfl rfl rfl
  · exact hf _ _

theorem Idle.read (i : Nat) (t : UploadTask) (u : UploadTransfer) (result : Except String Bytes) :
    Idle w (w.read i t u result) := by
  unfold World.read
  split
  · exact .fail i t u _
  · exact .same rfl rfl rfl rfl rfl
  · dsimp only
    split
    · exact .same rfl rfl rfl rfl rfl
    · exact .same rfl rfl rfl rfl rfl

theorem Idle.send (i : Nat) (t : UploadTask) (u : UploadTransfer) :
    Idle w (w.send blake3 i t u) := by
  unfold World.send
  dsimp only
  split
  · split
    · exact .same rfl rfl rfl rfl rfl
    · exact .fail i t u _
  · split
    · exact .same rfl rfl rfl rfl rfl
    · exact .fail i t u _
  · exact .same rfl rfl rfl rfl rfl

/-- The phone does not act on a transfer by itself, but to start, stream or end it. -/
theorem idle_step (h : Wf w) {ev : Event} (hev : ev.arrivesOn = none) :
    Idle w (w.step blake3 windows ev) := by
  cases ev with
  | connect | disconnect | loopEnds | look => exact .same rfl rfl rfl rfl rfl
  | cancelDownloads link =>
    simp only [World.step]
    split
    · exact .same rfl rfl rfl rfl rfl
    · exact .cancelDownloads _
  | cancelUploads link =>
    simp only [World.step]
    split
    · exact .same rfl rfl rfl rfl rfl
    · exact .cancelUploads _
  | resume link =>
    simp only [World.step]
    split
    · exact .same rfl rfl rfl rfl rfl
    · exact .same rfl rfl rfl rfl rfl
  | download look remotePath target allowOutsideHome queued =>
    simp only [World.step]
    split
    · exact .same rfl rfl rfl rfl rfl
    · exact .download h ..
  | upload look remotePath size mode allowOutsideHome =>
    simp only [World.step]
    split
    · exact .same rfl rfl rfl rfl rfl
    · exact .upload h ..
  | probe look remotePath allowOutsideHome queued =>
    simp only [World.step]
    split
    · exact .same rfl rfl rfl rfl rfl
    · exact .probe h ..
  | probeTimeout n =>
    simp only [World.step]
    split
    · exact .same rfl rfl rfl rfl rfl
    · exact .same rfl rfl rfl rfl rfl
  | check i =>
    refine Idle.onTask fun t u => ?_
    split
    · unfold World.check
      split
      · exact .same rfl rfl rfl rfl rfl
      · exact .same rfl rfl rfl rfl rfl
    · exact .same rfl rfl rfl rfl rfl
  | read i result =>
    refine Idle.onTask fun t u => ?_
    split
    · exact .read i t u result
    · exact .same rfl rfl rfl rfl rfl
  | send i => exact .onTask fun t u => .send i t u
  | frame | finish => cases hev
  | commit n os =>
    simp only [World.step, Downloads.handle]
    split
    · exact .same rfl rfl rfl rfl rfl
    · unfold Downloads.commit
      dsimp only
      split
      · exact .same rfl rfl rfl rfl rfl
      · exact .same rfl rfl rfl rfl rfl
  | discard os =>
    simp only [World.step, Downloads.handle]
    unfold Downloads.discard
    split
    · exact .same rfl rfl rfl rfl rfl
    · exact .same rfl rfl rfl rfl rfl

/-! ## Whole runs -/

/-- A frame of the host starts no transfer. -/
theorem started_onFrame (w : World) (link : Nat) (owner : TransferOwner) (os : Os)
    (frame : HostFrame) :
    (w.onFrame link owner os frame).started = w.started := by
  have hanswer : ∀ n result cancel, (w.answer n owner result cancel).started = w.started := by
    intro n result cancel
    unfold World.answer
    split
    · rfl
    · dsimp only
      split <;> rfl
  cases frame with
  | fileChunk id seq bytes =>
    cases id with
    | probe n => exact hanswer ..
    | transfer n => rfl
  | fileDone id size checksum =>
    cases id with
    | probe n => exact hanswer ..
    | transfer n =>
      simp only [World.onFrame]
      split
      · rfl
      · split <;> rfl
  | fileRetry id fromSeq =>
    cases id with
    | probe n => rfl
    | transfer n =>
      simp only [World.onFrame]
      split <;> rfl
  | fileErr id reason =>
    cases id with
    | probe n => exact hanswer ..
    | transfer n =>
      have hfail := (told_failUpload w n owner).1
      simp only [World.onFrame]
      split <;> exact hfail

/-- A transfer stays one of the pairing that it was started for. -/
theorem started_step (h : Wf w) (ev : Event) (hs : w.started id = some o) :
    (w.step blake3 windows ev).started id = some o := by
  cases hev : ev.arrivesOn with
  | none => exact (idle_step h hev).started id o hs
  | some link =>
    cases ev with
    | frame k frame os =>
      simp only [World.step]
      split
      · exact hs
      split
      · exact hs
      · rw [started_onFrame]
        exact hs
    | finish k n os =>
      simp only [World.step]
      split
      · exact hs
      · exact hs
    | _ => cases hev

theorem wf_run (blake3 : Bytes → Digest) (windows : Bool) (files documents : String → Option Bytes)
    (evs : List Event) : Wf (Run.run (World.step blake3 windows) (.start files documents) evs) :=
  Run.run_induction (I := fun _ w => Wf w) (wf_start files documents) fun _ ev _ _ h => h.step ev

/-- After every run: what is in the queue of a link is about transfers of its pairing. A transfer
stays one of its pairing. What arrives on a link does nothing to the transfers of other pairings,
and without a frame no transfer is written, verified, retried or answered. -/
theorem transfers_never_cross (blake3 : Bytes → Digest) (windows : Bool)
    (files documents : String → Option Bytes) (evs : List Event) (ev : Event) :
    let w := Run.run (World.step blake3 windows) (.start files documents) evs
    let w' := w.step blake3 windows ev
    SentToOwner w ∧
      (∀ id o, w.started id = some o → w'.started id = some o) ∧
      (∀ link l o, ev.arrivesOn = some link → w.links[link]? = some l → l.owner ≠ o →
        w'.view o = w.view o) ∧
      (ev.arrivesOn = none → Idle w w') := by
  intro w w'
  have h : Wf w := wf_run blake3 windows files documents evs
  refine ⟨h.sentToOwner, fun id o => started_step h ev, ?_, idle_step h⟩
  intro link l o hev hl hne
  refine view_step h hev fun l' hl' => ?_
  rw [hl] at hl'
  obtain rfl := Option.some.inj hl'
  exact hne

end Transfers

end Phone

end Portty
