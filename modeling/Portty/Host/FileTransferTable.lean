import Portty.Host.FileTransfer
import Portty.Lib.Run

/-!
# The table of transfers

The phone chooses the transfer ids. `start_download` and `start_upload` refuse an id that is active
in the other direction; `retry_download` revives a remembered download without looking at the
uploads.

* **`Bounded`**: the slots are not exceeded, and the order of the remembered downloads lists each of
  them once. Every step keeps it (`bounded_step`).
* **`Apart`**: no id is active in both directions. Every step keeps it, except a retry of a
  remembered download whose id is an active upload (`RevivesUpload`).
* **`transfer_table_invariant`**: both hold in every run without such a retry.
-/

namespace Portty

namespace FileTransfer

namespace Transfers

/-- The bounds of the table, and the order as a list of the remembered downloads. -/
structure Bounded (t : Transfers) : Prop where
  slots : t.activeDownloads.keys.card + t.uploads.keys.card ≤ maxActiveTransfers
  nodup : t.downloadOrder.Nodup
  mem_order : ∀ id, id ∈ t.downloadOrder ↔ id ∈ t.downloads
  length_order : t.downloadOrder.length ≤ maxRememberedDownloads

/-- No id is an active upload and an active download. -/
def Apart (t : Transfers) : Prop := ∀ id, id ∈ t.uploads → id ∉ t.activeDownloads

section Table

variable {t : Transfers} {id : TransferId}

/-! ## Remembered downloads -/

theorem evictOldest_snd (m : FMap TransferId AbsPath) (order : List TransferId) :
    (evictOldest m order).2 = order.drop (order.length - maxRememberedDownloads) := by
  induction order generalizing m with
  | nil => rfl
  | cons old rest ih =>
    unfold evictOldest
    split
    · rename_i h
      rw [ih, List.length_cons, Nat.succ_sub (by simpa using Nat.le_of_lt_succ h),
        List.drop_succ_cons]
    · rename_i h
      rw [Nat.sub_eq_zero_of_le (not_lt.mp h), List.drop_zero]

/-- What is evicted is the start of the order. -/
theorem mem_evictOldest_fst (m : FMap TransferId AbsPath) (order : List TransferId)
    (x : TransferId) : x ∈ (evictOldest m order).1 ↔
      x ∈ m ∧ x ∉ order.take (order.length - maxRememberedDownloads) := by
  induction order generalizing m with
  | nil => simp [evictOldest]
  | cons old rest ih =>
    unfold evictOldest
    split
    · rename_i h
      rw [ih, List.length_cons, Nat.succ_sub (by simpa using Nat.le_of_lt_succ h),
        List.take_succ_cons, Finmap.mem_erase, List.mem_cons, not_or]
      tauto
    · rename_i h
      rw [Nat.sub_eq_zero_of_le (not_lt.mp h), List.take_zero]
      simp

@[simp] theorem activeDownloads_rememberDownload (t : Transfers) (id : TransferId) (p : AbsPath) :
    (t.rememberDownload id p).activeDownloads = t.activeDownloads := by
  unfold rememberDownload
  split <;> rfl

@[simp] theorem uploads_rememberDownload (t : Transfers) (id : TransferId) (p : AbsPath) :
    (t.rememberDownload id p).uploads = t.uploads := by
  unfold rememberDownload
  split <;> rfl

/-- Remembering a download keeps the order a list of the remembered ones. -/
theorem Bounded.rememberDownload (h : t.Bounded) (id : TransferId) (path : AbsPath) :
    (t.rememberDownload id path).Bounded := by
  unfold Transfers.rememberDownload
  by_cases hid : id ∈ t.downloads
  · rw [if_pos hid]
    refine ⟨h.slots, h.nodup, fun x => ?_, h.length_order⟩
    rw [h.mem_order, Finmap.mem_insert]
    exact ⟨.inr, fun hx => hx.elim (fun he => he ▸ hid) (fun hm => hm)⟩
  · rw [if_neg hid]
    have hlen := h.length_order
    have hnotin : id ∉ t.downloadOrder := fun hx => hid ((h.mem_order id).mp hx)
    have hnodup : (t.downloadOrder ++ [id]).Nodup := by
      simpa [List.nodup_append] using ⟨h.nodup, fun x hx he => hnotin (he ▸ hx)⟩
    have hle : (t.downloadOrder ++ [id]).length - maxRememberedDownloads ≤
        t.downloadOrder.length := by
      simp [maxRememberedDownloads]
    refine ⟨h.slots, ?_, fun x => ?_, ?_⟩
    · show (evictOldest t.downloads (t.downloadOrder ++ [id])).2.Nodup
      rw [evictOldest_snd]
      exact hnodup.sublist (List.drop_sublist _ _)
    · show x ∈ (evictOldest t.downloads (t.downloadOrder ++ [id])).2 ↔
        x ∈ (evictOldest t.downloads (t.downloadOrder ++ [id])).1.insert id path
      rw [evictOldest_snd, Finmap.mem_insert, mem_evictOldest_fst, ← h.mem_order,
        List.take_append_of_le_length hle, List.drop_append_of_le_length hle, List.mem_append,
        List.mem_singleton]
      have hsplit := List.nodup_append.mp ((List.take_append_drop
        ((t.downloadOrder ++ [id]).length - maxRememberedDownloads) t.downloadOrder).symm ▸ h.nodup)
      have hmem := congrArg (x ∈ ·) (List.take_append_drop
        ((t.downloadOrder ++ [id]).length - maxRememberedDownloads) t.downloadOrder)
      simp only [List.mem_append, eq_iff_iff] at hmem
      constructor
      · rintro (hx | rfl)
        · exact .inr ⟨hmem.mp (.inr hx), fun ht => hsplit.2.2 x ht x hx rfl⟩
        · exact .inl rfl
      · rintro (rfl | ⟨hx, ht⟩)
        · exact .inr rfl
        · exact .inl ((hmem.mpr hx).resolve_left ht)
    · show (evictOldest t.downloads (t.downloadOrder ++ [id])).2.length ≤ _
      rw [evictOldest_snd, List.length_drop]
      omega

/-! ## Slots -/

theorem Bounded.prune (h : t.Bounded) : t.pruneFinishedDownloads.Bounded :=
  ⟨(Nat.add_le_add_right (Finset.card_le_card (FMap.keys_filterMap_subset _ _)) _).trans h.slots,
    h.nodup, h.mem_order, h.length_order⟩

theorem Apart.prune (h : t.Apart) : t.pruneFinishedDownloads.Apart := fun id hu ha =>
  h id hu (Finmap.mem_keys.mp (FMap.keys_filterMap_subset _ _ (Finmap.mem_keys.mpr ha)))

/-- A download takes a free slot. -/
theorem Bounded.insertDownload (h : t.Bounded) (hs : t.hasActiveSlot = true) (id : TransferId)
    (a : AbortHandle) :
    Bounded { t with activeDownloads := t.activeDownloads.insert id a } := by
  have hcard := Finset.card_insert_le id t.activeDownloads.keys
  have hs : _ < _ := of_decide_eq_true hs
  refine ⟨?_, h.nodup, h.mem_order, h.length_order⟩
  dsimp only
  rw [FMap.keys_insert]
  omega

/-- A handle that is there already takes no slot. -/
theorem Bounded.updateDownload (h : t.Bounded) (hid : id ∈ t.activeDownloads) (a : AbortHandle) :
    Bounded { t with activeDownloads := t.activeDownloads.insert id a } := by
  refine ⟨?_, h.nodup, h.mem_order, h.length_order⟩
  rw [FMap.keys_insert, Finset.insert_eq_of_mem (Finmap.mem_keys.mpr hid)]
  exact h.slots

theorem Bounded.eraseDownload (h : t.Bounded) (id : TransferId) :
    Bounded { t with activeDownloads := t.activeDownloads.erase id } := by
  have hcard := Finset.card_le_card (Finset.erase_subset id t.activeDownloads.keys)
  have hs := h.slots
  refine ⟨?_, h.nodup, h.mem_order, h.length_order⟩
  dsimp only
  rw [FMap.keys_erase]
  omega

/-- An upload takes a free slot. -/
theorem Bounded.insertUpload (h : t.Bounded) (hs : t.hasActiveSlot = true) (id : TransferId)
    (u : Upload) : Bounded { t with uploads := t.uploads.insert id u } := by
  have hcard := Finset.card_insert_le id t.uploads.keys
  have hs : _ < _ := of_decide_eq_true hs
  refine ⟨?_, h.nodup, h.mem_order, h.length_order⟩
  dsimp only
  rw [FMap.keys_insert]
  omega

theorem Bounded.updateUpload (h : t.Bounded) (hid : id ∈ t.uploads) (u : Upload) :
    Bounded { t with uploads := t.uploads.insert id u } := by
  refine ⟨?_, h.nodup, h.mem_order, h.length_order⟩
  rw [FMap.keys_insert, Finset.insert_eq_of_mem (Finmap.mem_keys.mpr hid)]
  exact h.slots

theorem Bounded.eraseUpload (h : t.Bounded) (id : TransferId) :
    Bounded { t with uploads := t.uploads.erase id } := by
  have hcard := Finset.card_le_card (Finset.erase_subset id t.uploads.keys)
  have hs := h.slots
  refine ⟨?_, h.nodup, h.mem_order, h.length_order⟩
  dsimp only
  rw [FMap.keys_erase]
  omega

theorem Bounded.forgetDownload (h : t.Bounded) (id : TransferId) :
    Bounded { t with
      downloads := t.downloads.erase id
      downloadOrder := t.downloadOrder.filter (· ≠ id) } := by
  refine ⟨h.slots, h.nodup.filter _, fun x => ?_,
    (List.length_filter_le _ _).trans h.length_order⟩
  rw [List.mem_filter, Finmap.mem_erase, h.mem_order, and_comm]
  simp

end Table

end Transfers

namespace State

open Transfers

variable (blake3 : Bytes → Digest)

/-! ## What the operations do to the table -/

section Cases

variable {s : State} {id : TransferId} {path : PathBuf} {size : Nat} {mode : Option Nat}
  {allowOutside : Bool} {os : Os}

@[simp] theorem transfers_answer {α : Type} (id : TransferId) (reply : α → List Reply)
    (r : State × Except Stop α) : (answer id reply r).1.transfers = r.1.transfers := by
  obtain ⟨s, (e | _) | a⟩ := r <;> rfl

theorem not_active_of_downloadPath {t : Transfers} {canonical : AbsPath}
    (h : downloadPath t id path allowOutside os = .ok canonical) :
    id ∉ t.activeDownloads ∧ id ∉ t.uploads := by
  unfold downloadPath at h
  by_cases hid : id ∈ t.activeDownloads ∨ id ∈ t.uploads
  · rw [if_pos hid] at h
    cases h
  · exact not_or.mp hid

theorem not_active_of_uploadPaths {t : Transfers} {paths : AbsPath × AbsPath}
    (h : uploadPaths t id path size allowOutside os = .ok paths) :
    id ∉ t.uploads ∧ id ∉ t.activeDownloads := by
  unfold uploadPaths at h
  by_cases hid : id ∈ t.uploads ∨ id ∈ t.activeDownloads
  · rw [if_pos hid] at h
    cases h
  · exact not_or.mp hid

/-- A download that is started takes a free slot, under an id that is not active. -/
theorem startDownload_cases (s : State) (id : TransferId) (path : PathBuf) (allowOutside : Bool)
    (os : Os) : let t := s.transfers.pruneFinishedDownloads
    (s.startDownload id path allowOutside os).1.transfers = t ∨
      t.hasActiveSlot = true ∧ id ∉ t.activeDownloads ∧ id ∉ t.uploads ∧ ∃ p,
        (s.startDownload id path allowOutside os).1.transfers = { t.rememberDownload id p with
          activeDownloads := (t.rememberDownload id p).activeDownloads.insert id ⟨false⟩ } := by
  intro t
  unfold startDownload
  by_cases hslot : t.hasActiveSlot = true
  · rw [if_neg (by simp [t, hslot])]
    cases hp : downloadPath t id path allowOutside os with
    | error e => exact .inl rfl
    | ok canonical =>
      obtain ⟨ha, hu⟩ := not_active_of_downloadPath hp
      exact .inr ⟨hslot, ha, hu, canonical, rfl⟩
  · rw [if_pos (by simp [t, hslot])]
    exact .inl rfl

/-- An upload that is started takes a free slot, under an id that is not active. -/
theorem startUpload_cases (s : State) (id : TransferId) (path : PathBuf) (size : Nat)
    (mode : Option Nat) (allowOutside : Bool) (os : Os) :
    let t := s.transfers.pruneFinishedDownloads
    (s.startUpload id path size mode allowOutside os).1.transfers = t ∨
      t.hasActiveSlot = true ∧ id ∉ t.uploads ∧ id ∉ t.activeDownloads ∧ ∃ u,
        (s.startUpload id path size mode allowOutside os).1.transfers =
          { t with uploads := t.uploads.insert id u } := by
  intro t
  unfold startUpload
  by_cases hslot : t.hasActiveSlot = true
  · rw [if_neg (by simp [t, hslot])]
    cases hp : uploadPaths t id path size allowOutside os with
    | error e => exact .inl rfl
    | ok paths =>
      obtain ⟨hu, ha⟩ := not_active_of_uploadPaths hp
      obtain ⟨target, temporary⟩ := paths
      dsimp only
      split
      · exact .inl rfl
      split
      · split <;> exact .inl rfl
      split
      · exact .inl rfl
      · exact .inr ⟨hslot, hu, ha, _, rfl⟩
  · rw [if_pos (by simp [t, hslot])]
    exact .inl rfl

/-- A retry frees the slot of its id and takes one if the download is remembered. -/
theorem retryDownload_cases (s : State) (id : TransferId) :
    let t := pruneFinishedDownloads
      { s.transfers with activeDownloads := s.transfers.activeDownloads.erase id }
    (s.retryDownload id).1.transfers = t ∨
      t.hasActiveSlot = true ∧ id ∈ t.downloads ∧ (s.retryDownload id).1.transfers =
        { t with activeDownloads := t.activeDownloads.insert id ⟨false⟩ } := by
  intro t
  unfold retryDownload
  by_cases hslot : t.hasActiveSlot = true
  · rw [if_neg (by simp [t, hslot])]
    cases hd : t.downloads.lookup id with
    | none => exact .inl rfl
    | some p => exact .inr ⟨hslot, FMap.mem_iff_lookup.mpr ⟨p, hd⟩, rfl⟩
  · rw [if_pos (by simp [t, hslot])]
    exact .inl rfl

/-- A chunk enters no upload that was not there. -/
theorem uploadChunk_cases (s : State) (id : TransferId) (seq : Nat) (bytes : Bytes) (os : Os) :
    (s.uploadChunk id seq bytes os).1.transfers = s.transfers ∨
      id ∈ s.transfers.uploads ∧ ∃ u, (s.uploadChunk id seq bytes os).1.transfers =
        { s.transfers with uploads := s.transfers.uploads.insert id u } := by
  unfold uploadChunk
  cases hu : s.transfers.uploads.lookup id with
  | none => exact .inl rfl
  | some upload =>
    have hid : id ∈ s.transfers.uploads := FMap.mem_iff_lookup.mpr ⟨upload, hu⟩
    dsimp only
    split
    · exact .inl rfl
    split
    · exact .inl rfl
    split
    · exact .inl rfl
    split
    · exact .inr ⟨hid, _, rfl⟩
    split
    · exact .inr ⟨hid, _, rfl⟩
    · exact .inr ⟨hid, _, rfl⟩

theorem cancelUpload_cases (s : State) (id : TransferId) (os : Os) :
    (s.cancelUpload id os).transfers = s.transfers ∨ (s.cancelUpload id os).transfers =
      { s.transfers with uploads := s.transfers.uploads.erase id } := by
  unfold cancelUpload
  split
  · exact .inl rfl
  · exact .inr rfl

theorem finishUpload_cases (s : State) (id : TransferId) (size : Nat) (checksum : Digest)
    (os : Os) : (s.finishUpload blake3 id size checksum os).1.transfers = s.transfers ∨
      (s.finishUpload blake3 id size checksum os).1.transfers =
        { s.transfers with uploads := s.transfers.uploads.erase id } := by
  unfold finishUpload
  split
  · exact .inl rfl
  dsimp only
  split
  · exact .inr rfl
  · exact .inr rfl
  split
  · exact .inr rfl
  · exact .inr rfl

theorem cancelDownload_cases (s : State) (id : TransferId) :
    let t := { s.transfers with activeDownloads := s.transfers.activeDownloads.erase id }
    (s.cancelDownload id).transfers = t ∨ (s.cancelDownload id).transfers =
      { t with
        downloads := t.downloads.erase id
        downloadOrder := t.downloadOrder.filter (· ≠ id) } := by
  intro t
  unfold cancelDownload
  dsimp only
  split
  · exact .inr rfl
  · exact .inl rfl

theorem downloadEnds_cases (s : State) (id : TransferId) :
    (s.downloadEnds id).transfers = s.transfers ∨
      id ∈ s.transfers.activeDownloads ∧ (s.downloadEnds id).transfers =
        { s.transfers with activeDownloads := s.transfers.activeDownloads.insert id ⟨true⟩ } := by
  unfold downloadEnds
  split
  · exact .inl rfl
  · rename_i a ha
    exact .inr ⟨FMap.mem_iff_lookup.mpr ⟨a, ha⟩, rfl⟩

end Cases

/-! ## Steps -/

section Step

variable {s : State} {id : TransferId} {os : Os}

theorem bounded_cancelUpload (h : s.transfers.Bounded) (id : TransferId) (os : Os) :
    (s.cancelUpload id os).transfers.Bounded := by
  obtain he | he := cancelUpload_cases s id os <;> rw [he]
  · exact h
  · exact h.eraseUpload id

theorem bounded_cancelDownload (h : s.transfers.Bounded) (id : TransferId) :
    (s.cancelDownload id).transfers.Bounded := by
  obtain he | he := cancelDownload_cases s id <;> rw [he]
  · exact h.eraseDownload id
  · exact (h.eraseDownload id).forgetDownload id

theorem bounded_uploadChunk (h : s.transfers.Bounded) (id : TransferId) (seq : Nat) (bytes : Bytes)
    (os : Os) : (s.uploadChunk id seq bytes os).1.transfers.Bounded := by
  obtain he | ⟨hid, u, he⟩ := uploadChunk_cases s id seq bytes os <;> rw [he]
  · exact h
  · exact h.updateUpload hid u

/-- A frame keeps the table within its bounds. -/
theorem bounded_handle (h : s.transfers.Bounded) (os : Os) (f : Frame) :
    (s.handle blake3 os f).1.transfers.Bounded := by
  cases f with
  | fileGetReq id path startSeq allowOutside =>
    rw [handle, transfers_answer]
    obtain he | ⟨hslot, -, -, p, he⟩ := startDownload_cases s id path allowOutside os <;> rw [he]
    · exact h.prune
    · refine (h.prune.rememberDownload id p).insertDownload ?_ id _
      simpa [hasActiveSlot] using hslot
  | filePutReq id path size mode allowOutside =>
    rw [handle, transfers_answer]
    obtain he | ⟨hslot, -, -, u, he⟩ := startUpload_cases s id path size mode allowOutside os <;>
      rw [he]
    · exact h.prune
    · exact h.prune.insertUpload hslot id u
  | fileChunk id seq bytes =>
    have hc := bounded_uploadChunk h id seq bytes os
    rw [handle]
    split
    · rename_i s' reason heq
      rw [heq] at hc
      exact bounded_cancelUpload hc id os
    · rw [transfers_answer]
      exact hc
  | fileDone id size checksum =>
    rw [handle, transfers_answer]
    obtain he | he := finishUpload_cases blake3 s id size checksum os <;> rw [he]
    · exact h
    · exact h.eraseUpload id
  | fileRetry id fromSeq =>
    rw [handle, transfers_answer]
    obtain he | ⟨hslot, -, he⟩ := retryDownload_cases s id <;> rw [he]
    · exact (h.eraseDownload id).prune
    · exact (h.eraseDownload id).prune.insertDownload hslot id _
  | fileErr id reason => exact bounded_cancelUpload (bounded_cancelDownload h id) id os

/-- Every step keeps the bounds. -/
theorem bounded_step (h : s.transfers.Bounded) (e : Event) :
    (s.step blake3 e).transfers.Bounded := by
  cases e with
  | frame f os =>
    rw [step]
    split
    · exact bounded_handle blake3 h os f
    · exact h
  | downloadEnds id =>
    obtain he | ⟨hid, he⟩ := downloadEnds_cases s id <;> rw [step, he]
    · exact h
    · exact h.updateDownload hid _
  | lost => exact h
  | dropUpload id os =>
    rw [step]
    split
    · exact h
    · exact bounded_cancelUpload h id os

/-- The event is a retry that starts the download of an id which is an active upload. -/
def RevivesUpload (s : State) : Event → Prop
  | .frame (.fileRetry id _) _ => s.alive = true ∧ id ∈ s.transfers.uploads ∧
      id ∈ s.transfers.downloads ∧ (pruneFinishedDownloads { s.transfers with
        activeDownloads := s.transfers.activeDownloads.erase id }).hasActiveSlot = true
  | _ => False

theorem apart_cancelUpload (h : s.transfers.Apart) (id : TransferId) (os : Os) :
    (s.cancelUpload id os).transfers.Apart := by
  obtain he | he := cancelUpload_cases s id os <;> rw [he]
  · exact h
  · exact fun x hx => h x (Finmap.mem_erase.mp hx).2

theorem apart_cancelDownload (h : s.transfers.Apart) (id : TransferId) :
    (s.cancelDownload id).transfers.Apart := by
  obtain he | he := cancelDownload_cases s id <;> rw [he] <;>
    exact fun x hx ha => h x hx (Finmap.mem_erase.mp ha).2

theorem apart_uploadChunk (h : s.transfers.Apart) (id : TransferId) (seq : Nat) (bytes : Bytes)
    (os : Os) : (s.uploadChunk id seq bytes os).1.transfers.Apart := by
  obtain he | ⟨hid, u, he⟩ := uploadChunk_cases s id seq bytes os <;> rw [he]
  · exact h
  · intro x hx
    obtain rfl | hx := Finmap.mem_insert.mp hx
    · exact h x hid
    · exact h x hx

/-- A frame other than such a retry keeps the two directions apart. -/
theorem apart_handle (h : s.transfers.Apart) (ha : s.alive = true) (os : Os) (f : Frame)
    (hf : ¬ s.RevivesUpload (.frame f os)) : (s.handle blake3 os f).1.transfers.Apart := by
  cases f with
  | fileGetReq id path startSeq allowOutside =>
    rw [handle, transfers_answer]
    obtain he | ⟨-, -, hu, p, he⟩ := startDownload_cases s id path allowOutside os <;> rw [he]
    · exact h.prune
    · intro x hx hd
      simp only [activeDownloads_rememberDownload, uploads_rememberDownload] at hx hd
      obtain rfl | hd := Finmap.mem_insert.mp hd
      · exact hu hx
      · exact h.prune x hx hd
  | filePutReq id path size mode allowOutside =>
    rw [handle, transfers_answer]
    obtain he | ⟨-, -, hd, u, he⟩ := startUpload_cases s id path size mode allowOutside os <;>
      rw [he]
    · exact h.prune
    · intro x hx
      obtain rfl | hx := Finmap.mem_insert.mp hx
      · exact hd
      · exact h.prune x hx
  | fileChunk id seq bytes =>
    have hc := apart_uploadChunk h id seq bytes os
    rw [handle]
    split
    · rename_i s' reason heq
      rw [heq] at hc
      exact apart_cancelUpload hc id os
    · rw [transfers_answer]
      exact hc
  | fileDone id size checksum =>
    rw [handle, transfers_answer]
    obtain he | he := finishUpload_cases blake3 s id size checksum os <;> rw [he]
    · exact h
    · exact fun x hx => h x (Finmap.mem_erase.mp hx).2
  | fileRetry id fromSeq =>
    have herase : Apart
        { s.transfers with activeDownloads := s.transfers.activeDownloads.erase id } :=
      fun x hx hd => h x hx (Finmap.mem_erase.mp hd).2
    rw [handle, transfers_answer]
    obtain he | ⟨hslot, hrem, he⟩ := retryDownload_cases s id <;> rw [he]
    · exact herase.prune
    · intro x hx hd
      obtain rfl | hd := Finmap.mem_insert.mp hd
      · exact hf ⟨ha, hx, hrem, hslot⟩
      · exact herase.prune x hx hd
  | fileErr id reason => exact apart_cancelUpload (apart_cancelDownload h id) id os

/-- One event, unless it revives an upload under the id of a download. -/
theorem apart_step (h : s.transfers.Apart) (e : Event) (he : ¬ s.RevivesUpload e) :
    (s.step blake3 e).transfers.Apart := by
  cases e with
  | frame f os =>
    rw [step]
    split
    · rename_i ha
      exact apart_handle blake3 h ha os f he
    · exact h
  | downloadEnds id =>
    obtain hc | ⟨hid, hc⟩ := downloadEnds_cases s id <;> rw [step, hc]
    · exact h
    · intro x hx hd
      obtain rfl | hd := Finmap.mem_insert.mp hd
      · exact h x hx hid
      · exact h x hx hd
  | lost => exact h
  | dropUpload id os =>
    rw [step]
    split
    · exact h
    · exact apart_cancelUpload h id os

end Step

/-- In every run without a retry of an active upload, the table keeps its bounds and no id is active
in both directions. -/
theorem transfer_table_invariant (home : AbsPath) (maxTransferBytes : Nat) (fs : Fs)
    (cleanup : UploadCleanup) (evs : List Event)
    (hretry : Run.Along (step blake3) (fun s e => ¬ s.RevivesUpload e)
      (start home maxTransferBytes fs cleanup) evs) :
    let t := (Run.run (step blake3) (start home maxTransferBytes fs cleanup) evs).transfers
    t.Bounded ∧ t.Apart := by
  have hbounded : (start home maxTransferBytes fs cleanup).transfers.Bounded :=
    ⟨by simp [start], List.nodup_nil, by simp [start, Finmap.notMem_empty], by simp [start]⟩
  have hapart : (start home maxTransferBytes fs cleanup).transfers.Apart :=
    fun x hx => absurd hx Finmap.notMem_empty
  exact hretry.induction (I := fun s => s.transfers.Bounded ∧ s.transfers.Apart) ⟨hbounded, hapart⟩
    fun s e h he => ⟨bounded_step blake3 h.1 e, apart_step blake3 h.2 e he⟩

/-- A connection of a user whose home has one file, `a`. -/
def oneFile : State :=
  start ["home", "u"] 0
    { entries := Function.update (fun _ => none) ["home", "u", "a"] (some 0)
      data := Function.update (fun _ => []) 0 [1]
      next := 1
      fresh := Fs.fresh_update _ (fun _ _ h => (Option.some_ne_none _ h.symm).elim)
        fun _ h => Option.some.inj h ▸ Nat.one_pos }
    ⟨∅, ∅⟩

/-- The phone downloads `a` as transfer 1, and when this has ended it starts an upload with the same
id. -/
def reusedId : List Event :=
  [.frame (.fileGetReq ⟨1⟩ [.normal "a"] 0 false)
      { canonical := .ok ["home", "u", "a"], metadata := .ok (true, 1) },
    .downloadEnds ⟨1⟩,
    .frame (.filePutReq ⟨1⟩ [.normal "b"] 1 none false) { canonical := .ok ["home", "u"] }]

/-- A retry of the finished download makes the id active in both directions. -/
theorem retry_revives_upload_id :
    ¬ ∀ (blake3 : Bytes → Digest) (home : AbsPath) (maxTransferBytes : Nat) (fs : Fs)
      (cleanup : UploadCleanup) (evs : List Event),
      let t := (Run.run (step blake3) (start home maxTransferBytes fs cleanup) evs).transfers
      t.Bounded ∧ t.Apart := by
  intro h
  have hrun := (h (fun _ => 0) ["home", "u"] 0 oneFile.fs ⟨∅, ∅⟩
    (reusedId ++ [.frame (.fileRetry ⟨1⟩ 0) {}])).2 ⟨1⟩
  revert hrun
  decide

/-- A retry of another id is harmless. -/
theorem transfer_table_invariant_other_retry :
    let t := (Run.run (step fun _ => 0) oneFile
      (reusedId ++ [.frame (.fileRetry ⟨2⟩ 0) {}])).transfers
    ⟨1⟩ ∈ t.uploads ∧ ⟨1⟩ ∈ t.downloads ∧ t.Bounded ∧ t.Apart := by
  refine ⟨by decide, by decide, transfer_table_invariant (fun _ => 0) _ _ _ _ _ ?_⟩
  refine ⟨id, id, id, ?_, trivial⟩
  rintro ⟨-, hu, -⟩
  revert hu
  decide

end State

end FileTransfer

end Portty
