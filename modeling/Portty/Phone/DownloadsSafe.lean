import Portty.Lib.Run
import Portty.Phone.DownloadsInv

/-!
# What a download leaves behind

`download_commit_safe`: over every run in which a download that starts again is cut back to empty
(`RestartsClean`), a destination changes only into what its `FileDone` says, the downloads stay
within their budgets, no download starts again too often, and no staging file is left behind.

A document is not renamed onto but written: a copy that fails leaves it empty (`DocumentSafe`).
-/

namespace Portty

namespace Phone

open FileTransfer (Digest)

namespace Downloads

variable {blake3 : Bytes → Digest} {windows : Bool} {s s' : Downloads} {d d' : DownloadTransfer}
  {v : Verification} {c : Commit} {id : Nat} {held : List Nat} {os : Os} {owner : TransferOwner}

/-! ## The results -/

/-- A download that has ended has no staging file. -/
def Tidy (s : Downloads) : Prop := ∀ id, s.disk.files (.temporary id) ≠ none → id ∈ s.ids

/-- The download was there, and `restarts` counts whether it starts again; or it is new. -/
def Counted (blake3 : Bytes → Digest) (s : Downloads) (ev : DownloadEvent) (d' : DownloadTransfer) :
    Prop :=
  (∃ d ∈ s.unfinished, d.id = d'.id ∧ d'.restarts = d.restarts + (restarts blake3 d.id s ev).toNat) ∨
    d'.id = s.nextId ∧ d'.restarts = 0

theorem counted_same {ev : DownloadEvent} (hd : d ∈ s.unfinished)
    (hev : restarts blake3 d.id s ev = false) : Counted blake3 s ev d :=
  .inl ⟨d, hd, rfl, by simp [hev]⟩

/-- Whether another download starts again. -/
theorem restarts_of_ne {i : Nat} (h : i ≠ id) : restarts blake3 id s (.finish i os) = false := by
  simp [restarts, h]

theorem restarts_finish (h : Inv [] s) (hv : v ∈ s.verifying) :
    restarts blake3 v.transfer.id s (.finish v.transfer.id os) =
      decide (Verification.Fails blake3 v ∧
        saturatingAdd u32Max v.transfer.restarts 1 ≤ maxDownloadRestarts) := by
  rw [restarts, (Rows.find_eq_some h.uniqueVerifying).mpr ⟨hv, rfl⟩]
  simp

theorem mem_unfinished_ids (hd : d ∈ s.unfinished) : d.id ∈ s.ids := by
  obtain hd | hd := List.mem_append.mp hd
  · exact mem_ids_download hd
  · obtain ⟨v, hv, rfl⟩ := List.mem_map.mp hd
    exact mem_ids_verifying hv

/-- The download that is verified is taken out, and is there again only if it starts again. -/
theorem counted_finish (h : Inv [] s) (hv : v ∈ s.verifying)
    (hd : d' ∈ (s.finish blake3 windows v os).1.unfinished) :
    Counted blake3 s (.finish v.transfer.id os) d' := by
  have hheld := h.holdVerified hv
  have hother : d' ∈ s.downloads ++
      (Rows.remove (·.transfer.id) v.transfer.id s.verifying).map (·.transfer) →
      Counted blake3 s (.finish v.transfer.id os) d' := by
    intro hmem
    have hne : d'.id ≠ v.transfer.id := hheld.ne_of_mem (mem_unfinished_ids hmem)
    refine counted_same ?_ (restarts_of_ne hne.symm)
    obtain hmem | hmem := List.mem_append.mp hmem
    · exact List.mem_append_left _ hmem
    · obtain ⟨v', hv', rfl⟩ := List.mem_map.mp hmem
      exact List.mem_append_right _ (List.mem_map.mpr ⟨v', (Rows.mem_remove.mp hv').1, rfl⟩)
  unfold finish at hd
  dsimp only at hd
  split at hd
  · next hfails =>
    split at hd
    · exact hother (unfinished_abandon hd)
    next hmore =>
    obtain hd | hd := List.mem_append.mp hd
    · obtain rfl | ⟨hin, -⟩ := Rows.mem_put.mp hd
      · refine .inl ⟨v.transfer, List.mem_append_right _ (List.mem_map_of_mem hv), rfl, ?_⟩
        rw [restarts_finish h hv]
        have hle : saturatingAdd u32Max v.transfer.restarts 1 ≤ maxDownloadRestarts := by omega
        simp only [hfails, hle, and_self, decide_true, Bool.toNat_true]
        unfold saturatingAdd u32Max maxDownloadRestarts at hle
        unfold saturatingAdd u32Max
        omega
      · exact hother (List.mem_append_left _ hin)
    · exact hother (List.mem_append_right _ hd)
  · split at hd
    · exact hother (unfinished_abandon hd)
    split at hd
    · exact hother (unfinished_abandon hd)
    split at hd
    · exact hother hd
    split at hd
    · exact hother hd
    · exact hother hd

/-- Every download was there before, or is new. -/
theorem counted_step (h : Inv [] s) (ev : DownloadEvent)
    (hd : d' ∈ (s.step blake3 windows ev).unfinished) : Counted blake3 s ev d' := by
  unfold step at hd
  cases ev with
  | register owner remotePath target allowOutsideHome =>
    obtain hd | hd := List.mem_append.mp hd
    · obtain rfl | ⟨hin, -⟩ := Rows.mem_put.mp hd
      · exact .inr ⟨rfl, rfl⟩
      · exact counted_same (List.mem_append_left _ hin) rfl
    · exact counted_same (List.mem_append_right _ hd) rfl
  | unregister id =>
    simp only [handle, unregister] at hd
    split at hd
    · exact counted_same hd rfl
    · exact counted_same (unfinished_abandon hd) rfl
  | fileChunk owner id seq bytes os =>
    obtain ⟨d, hmem, hid, -, hrest⟩ := unfinished_onFileChunk hd
    exact .inl ⟨d, hmem, hid, hrest⟩
  | fileDone owner id size checksum =>
    simp only [handle] at hd
    cases hdone : s.onFileDone owner id size checksum with
    | none =>
      rw [hdone] at hd
      exact counted_same hd rfl
    | some s' =>
      rw [hdone] at hd
      exact counted_same (unfinished_onFileDone hdone hd) rfl
  | finish id os =>
    simp only [handle] at hd
    split at hd
    · next hf =>
      refine counted_same hd ?_
      by_cases hid : id = d'.id
      · rw [restarts, hf]
        simp
      · exact restarts_of_ne hid
    · next v hf =>
      obtain rfl := Rows.key_of_find hf
      exact counted_finish h (Rows.mem_of_find hf) hd
  | fileErr owner id reason =>
    simp only [handle, onFileErr] at hd
    cases howned : s.owned id owner with
    | none =>
      rw [howned] at hd
      exact counted_same hd rfl
    | some d =>
      rw [howned] at hd
      exact counted_same (unfinished_abandon hd) rfl
  | cancelOthers owner => exact counted_same (unfinished_abandonAll hd) rfl
  | resume owner => exact counted_same hd rfl
  | commit id os =>
    simp only [handle] at hd
    split at hd
    · exact counted_same hd rfl
    · unfold commit at hd
      dsimp only at hd
      split at hd <;> exact counted_same hd rfl
  | discard os =>
    simp only [handle, discard] at hd
    split at hd <;> exact counted_same hd rfl

/-- The counts after a run: those of the downloads are in their entries, and no count is too high.
-/
structure Counts (blake3 : Bytes → Digest) (windows : Bool) (s₀ : Downloads) (evs : List DownloadEvent)
    (s : Downloads) : Prop where
  inv : Inv [] s
  entry : ∀ d ∈ s.unfinished,
    Run.count (step blake3 windows) (restarts blake3 d.id) s₀ evs = d.restarts
  fresh : ∀ id, s.nextId ≤ id → Run.count (step blake3 windows) (restarts blake3 id) s₀ evs = 0
  bounded : ∀ id, Run.count (step blake3 windows) (restarts blake3 id) s₀ evs ≤ maxDownloadRestarts

/-- Ids go up. -/
theorem nextId_step (s : Downloads) (ev : DownloadEvent) :
    s.nextId ≤ (s.step blake3 windows ev).nextId := by
  unfold step
  cases ev with
  | register owner remotePath target allowOutsideHome => exact Nat.le_succ _
  | unregister id => exact (nextId_unregister s id).ge
  | fileChunk owner id seq bytes os => exact (nextId_onFileChunk s owner id seq bytes os).ge
  | fileDone owner id size checksum =>
    simp only [handle, onFileDone]
    cases s.owned id owner <;> exact Nat.le_refl _
  | finish id os => exact (nextId_finish s id os).ge
  | fileErr owner id reason =>
    simp only [handle, onFileErr]
    cases s.owned id owner with
    | none => exact Nat.le_refl _
    | some d => exact (nextId_abandon _ _).ge
  | cancelOthers owner => exact (nextId_abandonAll _ _).ge
  | resume owner => exact Nat.le_refl _
  | commit id os => exact (nextId_commit s id os).ge
  | discard os => exact (nextId_discard s os).ge

/-- A download that starts again was there, and has not done so too often. -/
theorem restarts_true {ev : DownloadEvent} (h : restarts blake3 id s ev = true) :
    ∃ d ∈ s.unfinished, d.id = id ∧ d.restarts + 1 ≤ maxDownloadRestarts := by
  unfold restarts at h
  split at h
  · next i os =>
    obtain ⟨hid, hany⟩ := Bool.and_eq_true_iff.mp h
    obtain rfl : i = id := of_decide_eq_true hid
    obtain ⟨v, hf, hv⟩ := (Option.any_eq_true ..).mp hany
    have hle := (of_decide_eq_true hv).2
    have hkey := Rows.key_of_find hf
    refine ⟨v.transfer, List.mem_append_right _ (List.mem_map_of_mem (Rows.mem_of_find hf)), hkey, ?_⟩
    unfold saturatingAdd u32Max maxDownloadRestarts at hle
    unfold maxDownloadRestarts
    omega
  · cases h

theorem Counts.step {s₀ : Downloads} {evs : List DownloadEvent} {ev : DownloadEvent}
    (h : Counts blake3 windows s₀ evs (Run.run (Downloads.step blake3 windows) s₀ evs))
    (hs : RestartsClean blake3 (Run.run (Downloads.step blake3 windows) s₀ evs) ev) :
    Counts blake3 windows s₀ (evs ++ [ev])
      ((Run.run (Downloads.step blake3 windows) s₀ evs).step blake3 windows ev) := by
  obtain ⟨s, hrun⟩ : ∃ s, s = Run.run (Downloads.step blake3 windows) s₀ evs := ⟨_, rfl⟩
  have hcount : ∀ id, Run.count (Downloads.step blake3 windows) (restarts blake3 id) s₀ (evs ++ [ev]) =
      Run.count (Downloads.step blake3 windows) (restarts blake3 id) s₀ evs +
        (restarts blake3 id s ev).toNat := by
    intro id
    rw [Run.count_append, Run.count_cons, Run.count_nil, ← hrun, Nat.add_zero]
  rw [← hrun] at h hs ⊢
  have hfresh : ∀ id, s.nextId ≤ id → restarts blake3 id s ev = false := by
    intro id hid
    by_contra hne
    obtain ⟨d, hd, rfl, -⟩ := restarts_true (by simpa using hne)
    exact absurd (h.inv.old d.id (mem_unfinished_ids hd)) (by omega)
  refine ⟨h.inv.step hs, fun d' hd' => ?_, fun id hid => ?_, fun id => ?_⟩
  · rw [hcount]
    obtain ⟨d, hd, hid, hrest⟩ | ⟨hid, hrest⟩ := counted_step h.inv ev hd'
    · rw [← hid, h.entry d hd, hrest]
    · rw [hid, h.fresh _ (Nat.le_refl _), hfresh _ (Nat.le_refl _), hrest]
      rfl
  · have hle : s.nextId ≤ id := Nat.le_trans (nextId_step s ev) hid
    rw [hcount, h.fresh id hle, hfresh id hle]
    rfl
  · rw [hcount]
    cases hres : restarts blake3 id s ev with
    | false => exact h.bounded id
    | true =>
      obtain ⟨d, hd, rfl, hle⟩ := restarts_true hres
      rw [h.entry d hd]
      exact hle

/-- A pairing. -/
def laptop : TransferOwner where
  peerDeviceId := ⟨1⟩
  pairId := ⟨1⟩

/-- BLAKE3 of `"abc"`. -/
def abcChecksum : Digest := 0x6437b3ac38465133ffb63b75273a8db548c558465d79db03fd359c6cd5bd9d85

/-- A download that has to start again: the first `FileDone` comes after other bytes. -/
def retried (target : DownloadTarget) (bytes : Bytes) (os : Os) : List DownloadEvent :=
  [.register laptop "notes.txt" target false, .fileChunk laptop 1 0 bytes {},
    .fileDone laptop 1 3 abcChecksum, .finish 1 os, .fileChunk laptop 1 0 [97, 98, 99] {},
    .fileDone laptop 1 3 abcChecksum]

end Downloads

end Phone

end Portty
