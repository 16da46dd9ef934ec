import Portty.Host.FileTransfer
import Portty.Lib.Run

/-!
# Uploads

An upload is written to a temporary in the directory of its target and renamed over the target when
its size and digest are right. The phone chooses both the target's name and the id, of which the
temporary's name is made.

* **`Wf`**: the temporary of every upload is its own file, with the bytes of the accepted chunks as
  long as no write has failed; no target of an upload is a temporary of one; a temporary that is
  still there is in the registry.
* **`Aliased`**: a request whose target is its own temporary or the one of another upload, or the
  other way round. This is the one way to break `Wf`.
* **`upload_commit_safety`**: in a run without such requests, the content of a target changes only
  when its upload is verified, and a temporary is gone or registered.
-/

namespace Portty

open Records

namespace FileTransfer

/-! ## The registry -/

namespace UploadCleanup

variable {c : UploadCleanup} {p q : AbsPath} {o : Outcome String}

/-- The registry has the path, in memory and on disk. -/
def Lists (c : UploadCleanup) (p : AbsPath) : Prop := p ∈ c.paths ∧ p ∈ c.record

theorem Lists.track (h : c.Lists p) (q : AbsPath) (o : Outcome String) :
    (c.track q o).2.Lists p := by
  unfold UploadCleanup.track
  split
  · exact h
  by_cases hq : q ∈ c.paths
  · rw [if_pos hq]
    exact h
  · have hne : p ≠ q := fun he => hq (he ▸ h.1)
    rw [if_neg hq]
    cases o <;> simp [persist, Outcome.reply, Lists, h.1, h.2, hne]

/-- A path that was registered is new, and it is on record. -/
theorem lists_of_track (h : (c.track p o).1 = .ok ()) : p ∉ c.paths ∧ (c.track p o).2.Lists p := by
  unfold UploadCleanup.track at h ⊢
  split at h
  · cases h
  by_cases hp : p ∈ c.paths
  · rw [if_pos hp] at h
    cases h
  · rw [if_neg hp] at h
    cases o with
    | ok => simp_all [persist, Outcome.reply, Lists]
    | failedOld e | failedNew e => cases h

theorem Lists.forget (h : c.Lists p) (hne : p ≠ q) (o : Outcome String) :
    (c.forget q o).2.Lists p := by
  unfold UploadCleanup.forget
  split
  · exact h
  · cases o <;> simp [persist, Outcome.reply, Lists, h.1, h.2, hne]

end UploadCleanup

/-! ## The file system -/

namespace Fs

variable {fs fs' : Fs} {p q : AbsPath} {i : Nat}

theorem entries_removeFile (fs : Fs) (q : AbsPath) (os : Option String) (p : AbsPath) :
    (fs.removeFile q os).1.entries p = fs.entries p ∨
      p = q ∧ (fs.removeFile q os).1.entries p = none := by
  unfold removeFile
  split
  · exact .inl rfl
  · exact .inl rfl
  · by_cases hp : p = q
    · subst hp
      exact .inr ⟨rfl, Function.update_self _ _ _⟩
    · exact .inl (Function.update_of_ne hp _ _)

@[simp] theorem data_removeFile (fs : Fs) (q : AbsPath) (os : Option String) :
    (fs.removeFile q os).1.data = fs.data := by
  unfold removeFile
  split <;> rfl

@[simp] theorem next_removeFile (fs : Fs) (q : AbsPath) (os : Option String) :
    (fs.removeFile q os).1.next = fs.next := by
  unfold removeFile
  split <;> rfl

/-- If the file is said to be gone, it is. -/
theorem entries_of_removeFile {os : Option String} (h : (fs.removeFile q os).2 = true) :
    (fs.removeFile q os).1.entries q = none := by
  unfold removeFile at h ⊢
  split at h
  · assumption
  · cases h
  · exact Function.update_self _ _ _

theorem content_removeFile (os : Option String) (hp : p ≠ q) :
    (fs.removeFile q os).1.content p = fs.content p := by
  obtain he | ⟨he, -⟩ := entries_removeFile fs q os p
  · rw [content, he, data_removeFile, content]
  · exact absurd he hp

/-- A new file gets a new inode, and nothing else changes. -/
theorem createNew_eq {os : Option String} (h : fs.createNew q os = .ok (i, fs')) :
    fs.entries q = none ∧ i = fs.next ∧
      fs'.entries = Function.update fs.entries q (some fs.next) ∧
      fs'.data = Function.update fs.data fs.next [] ∧ fs'.next = fs.next + 1 := by
  unfold createNew at h
  split at h
  · cases h
  · cases h
  · rename_i he
    cases h
    exact ⟨he, rfl, rfl, rfl, rfl⟩

theorem rename_eq {os : Option String} (hne : p ≠ q) (h : fs.rename p q os = .ok fs') :
    ∃ i, fs.entries p = some i ∧
      fs'.entries = Function.update (Function.update fs.entries q (some i)) p none ∧
      fs'.data = fs.data ∧ fs'.next = fs.next := by
  unfold rename at h
  split at h
  · cases h
  · cases h
  · rename_i i he
    rw [if_neg hne] at h
    cases h
    exact ⟨i, he, rfl, rfl, rfl⟩

theorem content_append (bytes : Bytes) (h : fs.entries p ≠ some i) :
    (fs.append i bytes).content p = fs.content p := by
  unfold content append
  cases he : fs.entries p with
  | none => rfl
  | some j =>
    have hj : j ≠ i := fun hj => h (by rw [he, hj])
    simp [hj]

end Fs

namespace State

/-! ## The invariant -/

/-- The temporary of the upload is its own file, made by this connection, and it has the bytes of
the accepted chunks unless a write has failed. -/
structure UploadOk (s : State) (u : Upload) : Prop where
  entry : s.fs.entries u.temporary = some u.file.inode
  sole : ∀ p, s.fs.entries p = some u.file.inode → p = u.temporary
  made : (u.temporary, u.file.inode) ∈ s.made
  written : u.written = u.hasher.length
  bound : u.hasher.length ≤ maxFileLen + fileChunkBytes
  intact : u.file.lost = false →
    s.fs.data u.file.inode = u.hasher ∧ u.hasher.length ≤ maxFileLen

/-- The invariant of the uploads (module doc). -/
structure Wf (s : State) : Prop where
  upload : ∀ id u, s.transfers.uploads.lookup id = some u → s.UploadOk u
  inj : ∀ id u id' u', s.transfers.uploads.lookup id = some u →
    s.transfers.uploads.lookup id' = some u' → u.file.inode = u'.file.inode → id = id'
  apart : ∀ id u id' u', s.transfers.uploads.lookup id = some u →
    s.transfers.uploads.lookup id' = some u' → u.target ≠ u'.temporary
  freshMade : ∀ p i, (p, i) ∈ s.made → i < s.fs.next
  once : ∀ p q i, (p, i) ∈ s.made → (q, i) ∈ s.made → p = q
  listed : ∀ p i, (p, i) ∈ s.made → s.fs.entries p = some i → s.cleanup.Lists p

section Wf

variable {s : State} {id : TransferId} {u : Upload}

/-- Only the uploads of the table matter. -/
theorem Wf.of_uploads (h : s.Wf) {t : Transfers}
    (ht : ∀ id u, t.uploads.lookup id = some u → s.transfers.uploads.lookup id = some u)
    (alive : Bool) : Wf { s with transfers := t, alive } where
  upload id u hu := by
    obtain ⟨h₁, h₂, h₃, h₄, h₅, h₆⟩ := h.upload id u (ht id u hu)
    exact ⟨h₁, h₂, h₃, h₄, h₅, h₆⟩
  inj id u id' u' hu hu' := h.inj id u id' u' (ht id u hu) (ht id' u' hu')
  apart id u id' u' hu hu' := h.apart id u id' u' (ht id u hu) (ht id' u' hu')
  freshMade := h.freshMade
  once := h.once
  listed := h.listed

/-- Two uploads have different temporaries. -/
theorem Wf.temporary_ne (h : s.Wf) {id' : TransferId} {u' : Upload}
    (hu : s.transfers.uploads.lookup id = some u) (hu' : s.transfers.uploads.lookup id' = some u')
    (hne : id ≠ id') : u.temporary ≠ u'.temporary := by
  intro he
  have hi := (h.upload id u hu).entry
  rw [he, (h.upload id' u' hu').entry] at hi
  exact hne (h.inj id u id' u' hu hu' (Option.some.inj hi).symm)

theorem lookup_of_erase {m : FMap TransferId Upload} {x : TransferId}
    (h : (m.erase id).lookup x = some u) : x ≠ id ∧ m.lookup x = some u := by
  rw [FMap.lookup_erase_ite] at h
  split at h
  · cases h
  · exact ⟨‹_›, h⟩

/-- Removing a file that is no upload's temporary. -/
theorem wf_removeFile (h : s.Wf) {p : AbsPath}
    (hp : ∀ id u, s.transfers.uploads.lookup id = some u → u.temporary ≠ p) (os : Option String) :
    Wf { s with fs := (s.fs.removeFile p os).1 } where
  upload id u hu := by
    obtain ⟨he, hs, hm, hw, hb, hi⟩ := h.upload id u hu
    refine ⟨?_, fun q hq => ?_, hm, hw, hb, fun hl => ?_⟩
    · obtain hr | ⟨hr, -⟩ := Fs.entries_removeFile s.fs p os u.temporary
      · exact hr.trans he
      · exact absurd hr (hp id u hu)
    · obtain hr | ⟨-, hr⟩ := Fs.entries_removeFile s.fs p os q
      · exact hs q (hr.symm.trans hq)
      · exact absurd (hr.symm.trans hq) (Option.some_ne_none _).symm
    · simpa using hi hl
  inj := h.inj
  apart := h.apart
  freshMade q i hq := by simpa using h.freshMade q i hq
  once := h.once
  listed q i hq he := by
    obtain hr | ⟨-, hr⟩ := Fs.entries_removeFile s.fs p os q
    · exact h.listed q i hq (hr.symm.trans he)
    · exact absurd (hr.symm.trans he) (Option.some_ne_none _).symm

/-- Forgetting a path at which there is no file. -/
theorem wf_forget (h : s.Wf) {p : AbsPath} (hp : s.fs.entries p = none) (o : Outcome String) :
    Wf { s with cleanup := (s.cleanup.forget p o).2 } :=
  { h with
    upload := fun id u hu => by
      obtain ⟨h₁, h₂, h₃, h₄, h₅, h₆⟩ := h.upload id u hu
      exact ⟨h₁, h₂, h₃, h₄, h₅, h₆⟩
    listed := fun q i hq he => by
      refine (h.listed q i hq he).forget ?_ o
      rintro rfl
      exact absurd (hp.symm.trans he) (Option.some_ne_none _).symm }

theorem wf_discard (h : s.Wf) {p : AbsPath}
    (hp : ∀ id u, s.transfers.uploads.lookup id = some u → u.temporary ≠ p) (os : Os) :
    (s.discard p os).Wf := by
  have hr := wf_removeFile h hp os.remove
  unfold discard
  cases hg : (s.fs.removeFile p os.remove).2 with
  | false => simpa [hg] using hr
  | true => simpa [hg] using wf_forget hr (Fs.entries_of_removeFile hg) os.forget

theorem wf_cancelUpload (h : s.Wf) (id : TransferId) (os : Os) : (s.cancelUpload id os).Wf := by
  unfold cancelUpload
  cases hu : s.transfers.uploads.lookup id with
  | none => exact h
  | some u =>
    refine wf_discard (h.of_uploads (fun x v hv => (lookup_of_erase hv).2) s.alive)
      (fun x v hv => ?_) os
    obtain ⟨hne, hv⟩ := lookup_of_erase hv
    exact h.temporary_ne hv hu hne

/-- An upload that is put into the table, in place of the one with its id. -/
theorem wf_setUpload
    (h : Wf { s with transfers := { s.transfers with uploads := s.transfers.uploads.erase id } })
    (hu : s.UploadOk u) (hself : u.target ≠ u.temporary)
    (hinj : ∀ x v, x ≠ id → s.transfers.uploads.lookup x = some v → v.file.inode ≠ u.file.inode)
    (hapart : ∀ x v, x ≠ id → s.transfers.uploads.lookup x = some v →
      u.target ≠ v.temporary ∧ v.target ≠ u.temporary) : (s.setUpload id u).Wf := by
  have hlookup : ∀ x v, (s.setUpload id u).transfers.uploads.lookup x = some v →
      x = id ∧ v = u ∨ x ≠ id ∧ s.transfers.uploads.lookup x = some v := by
    intro x v hv
    simp only [setUpload, FMap.lookup_insert_ite] at hv
    split at hv
    · exact .inl ⟨‹_›, (Option.some.inj hv).symm⟩
    · exact .inr ⟨‹_›, hv⟩
  have herase : ∀ x v, x ≠ id → s.transfers.uploads.lookup x = some v →
      (s.transfers.uploads.erase id).lookup x = some v := by
    intro x v hx hv
    rw [FMap.lookup_erase_ite, if_neg hx, hv]
  refine ⟨fun x v hv => ?_, fun x v y w hv hw he => ?_, fun x v y w hv hw => ?_,
    h.freshMade, h.once, h.listed⟩
  · obtain ⟨rfl, rfl⟩ | ⟨hx, hv⟩ := hlookup x v hv
    · obtain ⟨h₁, h₂, h₃, h₄, h₅, h₆⟩ := hu
      exact ⟨h₁, h₂, h₃, h₄, h₅, h₆⟩
    · obtain ⟨h₁, h₂, h₃, h₄, h₅, h₆⟩ := h.upload x v (herase x v hx hv)
      exact ⟨h₁, h₂, h₃, h₄, h₅, h₆⟩
  · obtain ⟨rfl, rfl⟩ | ⟨hx, hv'⟩ := hlookup x v hv <;>
      obtain ⟨rfl, rfl⟩ | ⟨hy, hw'⟩ := hlookup y w hw
    · rfl
    · exact absurd he.symm (hinj y w hy hw')
    · exact absurd he (hinj x v hx hv')
    · exact h.inj x v y w (herase x v hx hv') (herase y w hy hw') he
  · obtain ⟨rfl, rfl⟩ | ⟨hx, hv'⟩ := hlookup x v hv <;>
      obtain ⟨rfl, rfl⟩ | ⟨hy, hw'⟩ := hlookup y w hw
    · exact hself
    · exact (hapart y w hy hw').1
    · exact (hapart x v hx hv').2
    · exact h.apart x v y w (herase x v hx hv') (herase y w hy hw')

/-! ## Starting an upload -/

/-- A registered path. -/
theorem wf_track (h : s.Wf) (p : AbsPath) (o : Outcome String) :
    Wf { s with cleanup := (s.cleanup.track p o).2 } :=
  { h with
    upload := fun id u hu => by
      obtain ⟨h₁, h₂, h₃, h₄, h₅, h₆⟩ := h.upload id u hu
      exact ⟨h₁, h₂, h₃, h₄, h₅, h₆⟩
    listed := fun q i hq he => (h.listed q i hq he).track p o }

/-- A path that was registered just now can be forgotten, whatever is there. -/
theorem wf_track_forget (h : s.Wf) {p : AbsPath} {o : Outcome String}
    (ht : (s.cleanup.track p o).1 = .ok ()) (o' : Outcome String) :
    Wf { s with cleanup := ((s.cleanup.track p o).2.forget p o').2 } :=
  { h with
    upload := fun id u hu => by
      obtain ⟨h₁, h₂, h₃, h₄, h₅, h₆⟩ := h.upload id u hu
      exact ⟨h₁, h₂, h₃, h₄, h₅, h₆⟩
    listed := fun q i hq he => by
      refine ((h.listed q i hq he).track p o).forget ?_ o'
      rintro rfl
      exact (UploadCleanup.lists_of_track ht).1 (h.listed q i hq he).1 }

/-- A new temporary that is in the registry. -/
theorem wf_createNew (h : s.Wf) {p : AbsPath} {i : Nat} {fs : Fs} {os : Option String}
    (hc : s.fs.createNew p os = .ok (i, fs)) (hp : s.cleanup.Lists p) :
    Wf { s with fs, made := (p, i) :: s.made } := by
  obtain ⟨hnone, rfl, hentries, hdata, hnext⟩ := Fs.createNew_eq hc
  have hentry : ∀ q j, fs.entries q = some j →
      q = p ∧ j = s.fs.next ∨ s.fs.entries q = some j := by
    intro q j hq
    rw [hentries] at hq
    by_cases hqp : q = p
    · subst hqp
      rw [Function.update_self] at hq
      exact .inl ⟨rfl, (Option.some.inj hq).symm⟩
    · rw [Function.update_of_ne hqp] at hq
      exact .inr hq
  refine ⟨fun id u hu => ?_, h.inj, h.apart, fun q j hq => ?_, fun q r j hq hr => ?_,
    fun q j hq he => ?_⟩
  · obtain ⟨he, hs, hm, hw, hb, hi⟩ := h.upload id u hu
    have hlt := s.fs.fresh _ _ he
    have hne : u.temporary ≠ p := by
      intro heq
      rw [heq, hnone] at he
      cases he
    refine ⟨?_, fun q hq => ?_, List.mem_cons_of_mem _ hm, hw, hb, fun hl => ?_⟩
    · show fs.entries u.temporary = _
      rw [hentries, Function.update_of_ne hne]
      exact he
    · obtain ⟨-, hj⟩ | hq := hentry q _ hq
      · omega
      · exact hs q hq
    · show fs.data u.file.inode = u.hasher ∧ _
      rw [hdata, Function.update_of_ne (by omega)]
      exact hi hl
  · show j < fs.next
    rw [hnext]
    obtain heq | hq := List.mem_cons.mp hq
    · cases heq
      exact Nat.lt_succ_self _
    · exact Nat.lt_succ_of_lt (h.freshMade q j hq)
  · obtain heq | hq := List.mem_cons.mp hq <;> obtain heq' | hr := List.mem_cons.mp hr
    · cases heq
      cases heq'
      rfl
    · cases heq
      exact absurd (h.freshMade r _ hr) (lt_irrefl _)
    · cases heq'
      exact absurd (h.freshMade q _ hq) (lt_irrefl _)
    · exact h.once q r j hq hr
  · obtain heq | hq := List.mem_cons.mp hq
    · cases heq
      exact hp
    · obtain ⟨-, rfl⟩ | he := hentry q j he
      · exact absurd (h.freshMade q _ hq) (lt_irrefl _)
      · exact h.listed q j hq he

/-- A request whose upload would be started, and whose target is its own temporary or the one of an
upload, or whose temporary is the target of an upload. -/
def Aliased (s : State) : Event → Prop
  | .frame (.filePutReq id path size _ allowOutside) os =>
    let t := s.transfers.pruneFinishedDownloads
    ∃ target temporary, t.hasActiveSlot = true ∧
      uploadPaths t id path size allowOutside os = .ok (target, temporary) ∧
      (s.cleanup.track temporary os.track).1 = .ok () ∧
      (s.fs.createNew temporary os.create).toOption.isSome ∧
      (target = temporary ∨ ∃ x v, s.transfers.uploads.lookup x = some v ∧
        (v.temporary = target ∨ v.target = temporary))
  | _ => False

/-- A new upload has a file of its own, unless its target is that of another one. -/
theorem wf_startUpload (h : s.Wf) (id : TransferId) (path : PathBuf) (size : Nat)
    (mode : Option Nat) (allowOutside : Bool) (os : Os)
    (ha : ¬ s.Aliased (.frame (.filePutReq id path size mode allowOutside) os)) :
    (s.startUpload id path size mode allowOutside os).1.Wf := by
  have hprune := h.of_uploads (t := s.transfers.pruneFinishedDownloads) (fun _ _ hu => hu) s.alive
  unfold startUpload
  dsimp only
  split
  · exact hprune
  rename_i hslot
  split
  · exact hprune
  rename_i target temporary hpaths
  split
  · rename_i e c htrack
    have hw := wf_track hprune temporary os.track
    rw [htrack] at hw
    exact hw
  rename_i c htrack
  have hok : (s.cleanup.track temporary os.track).1 = .ok () := by rw [htrack]
  have hlists := (UploadCleanup.lists_of_track hok).2
  have hw := wf_track hprune temporary os.track
  rw [htrack] at hw hlists
  split
  · split
    · exact hw
    · have hf := wf_track_forget hprune hok os.forget
      rw [htrack] at hf
      exact hf
  rename_i inode fs hcreate
  have hcreated := wf_createNew hw hcreate hlists
  split
  · exact hcreated
  -- the upload is put into the table
  obtain ⟨hself, hothers⟩ : target ≠ temporary ∧ ∀ x v, s.transfers.uploads.lookup x = some v →
      v.temporary ≠ target ∧ v.target ≠ temporary := by
    refine ⟨fun he => ha ?_, fun x v hv => ⟨fun he => ha ?_, fun he => ha ?_⟩⟩ <;>
      refine ⟨target, temporary, by simpa using hslot, hpaths, hok, by rw [hcreate]; rfl, ?_⟩
    · exact .inl he
    · exact .inr ⟨x, v, hv, .inl he⟩
    · exact .inr ⟨x, v, hv, .inr he⟩
  obtain ⟨hnone, rfl, hentries, hdata, -⟩ := Fs.createNew_eq hcreate
  refine wf_setUpload (hcreated.of_uploads (fun x v hv => (lookup_of_erase hv).2) s.alive)
    ⟨?_, fun q hq => ?_, List.mem_cons_self, rfl, Nat.zero_le _, fun _ => ⟨?_, Nat.zero_le _⟩⟩ hself
    (fun x v _ hv => ?_)
    (fun x v _ hv => ⟨fun he => (hothers x v hv).1 he.symm, (hothers x v hv).2⟩)
  · show fs.entries temporary = _
    rw [hentries, Function.update_self]
  · by_contra hne
    have hq : s.fs.entries q = some s.fs.next := by
      rw [← Function.update_of_ne hne (some s.fs.next) s.fs.entries, ← hentries]
      exact hq
    exact lt_irrefl _ (s.fs.fresh q _ hq)
  · show fs.data s.fs.next = []
    rw [hdata, Function.update_self]
  · exact (s.fs.fresh _ _ (h.upload x v hv).entry).ne

/-! ## A chunk -/

/-- What a write does: it may append to its file, and if it is not lost, all bytes are there. -/
theorem writeAll_spec (f : File) (fs : Fs) (bytes : Bytes) (r : WriteResult) :
    let w := f.writeAll fs bytes r
    (w.2.2 = fs ∨ ∃ bs, w.2.2 = fs.append f.inode bs) ∧ w.2.1.inode = f.inode ∧
      (f.lost = true → w.1 ≠ .ok ()) ∧ (w.1 ≠ .ok () → w.2.1.lost = true) ∧
      (w.2.1.lost = false → w.2.2.data f.inode = fs.data f.inode ++ bytes ∧
        (fs.data f.inode ++ bytes).length ≤ maxFileLen) := by
  intro w
  unfold w File.writeAll
  split
  · rename_i hl
    simp [hl]
  rename_i hl
  split
  · simp [hl]
  · simp [hl]
  split
  · simp [hl]
  · rename_i hlen
    refine ⟨.inr ⟨bytes, rfl⟩, rfl, by simp [hl], by simp, fun _ => ⟨?_, ?_⟩⟩
    · exact Function.update_self _ _ _
    · rw [List.length_append]
      omega

/-- Bytes that are appended to a file which is no upload's. -/
theorem wf_append (h : s.Wf) {i : Nat} (bs : Bytes)
    (hi : ∀ x v, s.transfers.uploads.lookup x = some v → v.file.inode ≠ i) :
    Wf { s with fs := s.fs.append i bs } :=
  { h with
    upload := fun x v hv => by
      obtain ⟨h₁, h₂, h₃, h₄, h₅, h₆⟩ := h.upload x v hv
      refine ⟨h₁, h₂, h₃, h₄, h₅, fun hl => ?_⟩
      show Function.update s.fs.data i _ v.file.inode = v.hasher ∧ _
      rw [Function.update_of_ne (hi x v hv)]
      exact h₆ hl }

/-- The other uploads keep the invariant when one of them writes. -/
theorem wf_others_written (h : s.Wf) (hu : s.transfers.uploads.lookup id = some u) {fs : Fs}
    (hfs : fs = s.fs ∨ ∃ bs, fs = s.fs.append u.file.inode bs) :
    Wf { s with fs, transfers := { s.transfers with uploads := s.transfers.uploads.erase id } } := by
  have herase := h.of_uploads (t := { s.transfers with uploads := s.transfers.uploads.erase id })
    (fun x v hv => (lookup_of_erase hv).2) s.alive
  obtain rfl | ⟨bs, rfl⟩ := hfs
  · exact herase
  · refine wf_append herase bs fun x v hv he => ?_
    obtain ⟨hx, hv⟩ := lookup_of_erase hv
    exact hx (h.inj x v id u hv hu he)

/-- A chunk writes to the file of its own upload. -/
theorem wf_uploadChunk (h : s.Wf) (id : TransferId) (seq : Nat) (bytes : Bytes) (os : Os) :
    (s.uploadChunk id seq bytes os).1.Wf := by
  unfold uploadChunk
  cases hu : s.transfers.uploads.lookup id with
  | none => exact h
  | some u =>
    obtain ⟨he, hs, hm, hw, hb, hi⟩ := h.upload id u hu
    obtain ⟨hfs, hinode, hlost, herr, hdata⟩ := writeAll_spec u.file s.fs bytes os.write
    dsimp only
    split
    · exact h
    split
    · exact h
    rename_i hchunk
    split
    · exact h
    -- whatever is put back has the same paths and the same file
    have hput : ∀ v : Upload, v.target = u.target → v.temporary = u.temporary →
        v.file.inode = u.file.inode → v.written = v.hasher.length →
        v.hasher.length ≤ maxFileLen + fileChunkBytes →
        (v.file.lost = false → (u.file.writeAll s.fs bytes os.write).2.2.data u.file.inode =
          v.hasher ∧ v.hasher.length ≤ maxFileLen) →
        (State.setUpload { s with fs := (u.file.writeAll s.fs bytes os.write).2.2 } id v).Wf := by
      intro v htarget htemp hvinode hvw hvb hvi
      have hentries : (u.file.writeAll s.fs bytes os.write).2.2.entries = s.fs.entries := by
        obtain hfs | ⟨bs, hfs⟩ := hfs <;> rw [hfs]
        rfl
      refine wf_setUpload (wf_others_written h hu hfs)
        ⟨?_, fun q hq => ?_, ?_, hvw, hvb, ?_⟩ ?_ (fun x w hx hxw => ?_) (fun x w hx hxw => ?_)
      · show (u.file.writeAll s.fs bytes os.write).2.2.entries _ = _
        rw [hentries, htemp, hvinode]
        exact he
      · rw [hvinode] at hq
        rw [htemp]
        exact hs q ((congrFun hentries q).symm.trans hq)
      · rw [htemp, hvinode]
        exact hm
      · rw [hvinode]
        exact hvi
      · rw [htarget, htemp]
        exact h.apart id u id u hu hu
      · rw [hvinode]
        exact fun heq => hx (h.inj x w id u hxw hu heq)
      · rw [htarget, htemp]
        exact ⟨h.apart id u x w hu hxw, h.apart x w id u hxw hu⟩
    split
    · exact hput _ rfl rfl hinode hw hb fun hn => Bool.noConfusion hn
    split
    · rename_i e herror
      refine hput _ rfl rfl hinode hw hb fun hn => ?_
      have hl := herr (by rw [herror]; simp)
      exact absurd (hl.symm.trans hn) (by decide)
    · rename_i hok
      have hnotlost : u.file.lost = false := by
        cases hl : u.file.lost with
        | false => rfl
        | true => exact absurd hok (hlost hl)
      obtain ⟨hd, hlen⟩ := hi hnotlost
      refine hput _ rfl rfl hinode ?_ ?_ fun hn => ?_
      · -- the size does not saturate: the file is shorter than that
        show min (u.written + bytes.length) u64Max = (u.hasher ++ bytes).length
        rw [hw, List.length_append]
        unfold fileChunkBytes at hchunk
        unfold maxFileLen at hlen
        unfold u64Max
        omega
      · show (u.hasher ++ bytes).length ≤ _
        rw [List.length_append]
        omega
      · obtain ⟨hd', hlen'⟩ := hdata hn
        rw [hd] at hd' hlen'
        exact ⟨hd', hlen'⟩

/-! ## The commit -/

/-- The renaming of an upload's temporary over its target. -/
theorem wf_rename (h : s.Wf) (hu : s.transfers.uploads.lookup id = some u) {fs : Fs}
    {os : Option String} (hr : s.fs.rename u.temporary u.target os = .ok fs) :
    Wf { s with fs, transfers := { s.transfers with uploads := s.transfers.uploads.erase id } } ∧
      fs.entries u.temporary = none := by
  have hne : u.temporary ≠ u.target := (h.apart id u id u hu hu).symm
  obtain ⟨i, hi, hentries, hdata, hnext⟩ := Fs.rename_eq hne hr
  obtain ⟨he, hs, hm, -⟩ := h.upload id u hu
  cases he.symm.trans hi
  have hentry : ∀ q j, fs.entries q = some j → q = u.target ∧ j = u.file.inode ∨
      q ≠ u.temporary ∧ s.fs.entries q = some j := by
    intro q j hq
    rw [hentries] at hq
    by_cases hqt : q = u.temporary
    · rw [hqt, Function.update_self] at hq
      cases hq
    rw [Function.update_of_ne hqt] at hq
    by_cases hqg : q = u.target
    · rw [hqg, Function.update_self] at hq
      exact .inl ⟨hqg, (Option.some.inj hq).symm⟩
    · rw [Function.update_of_ne hqg] at hq
      exact .inr ⟨hqt, hq⟩
  refine ⟨⟨fun x v hv => ?_, fun x v y w hv hw => ?_, fun x v y w hv hw => ?_, fun q j hq => ?_,
    h.once, fun q j hq hj => ?_⟩, by rw [hentries, Function.update_self]⟩
  · obtain ⟨hx, hv⟩ := lookup_of_erase hv
    obtain ⟨he', hs', hm', hw', hb', hi'⟩ := h.upload x v hv
    refine ⟨?_, fun q hq => ?_, hm', hw', hb', fun hl => ?_⟩
    · show fs.entries v.temporary = _
      rw [hentries, Function.update_of_ne (h.temporary_ne hv hu hx),
        Function.update_of_ne (h.apart id u x v hu hv).symm]
      exact he'
    · obtain ⟨-, hj⟩ | ⟨-, hq⟩ := hentry q _ hq
      · exact absurd (h.inj x v id u hv hu hj) hx
      · exact hs' q hq
    · show fs.data v.file.inode = v.hasher ∧ _
      rw [hdata]
      exact hi' hl
  · exact h.inj x v y w (lookup_of_erase hv).2 (lookup_of_erase hw).2
  · exact h.apart x v y w (lookup_of_erase hv).2 (lookup_of_erase hw).2
  · show j < fs.next
    rw [hnext]
    exact h.freshMade q j hq
  · obtain ⟨rfl, rfl⟩ | ⟨-, hj⟩ := hentry q j hj
    · exact absurd (h.once _ _ _ hq hm) hne.symm
    · exact h.listed q j hq hj

/-- The upload has the declared size and digest. -/
def Verifies (blake3 : Bytes → Digest) (u : Upload) (size : Nat) (checksum : Digest) : Prop :=
  size = u.expectedSize ∧ u.written = u.expectedSize ∧ blake3 u.hasher = checksum

variable {blake3 : Bytes → Digest}

theorem replaceVerifiedFile_cases (fs : Fs) (p q : AbsPath) (os : Os) :
    (∃ e, replaceVerifiedFile fs p q os = (fs, .error e)) ∨
      ∃ fs' r, fs.rename p q os.rename = .ok fs' ∧ replaceVerifiedFile fs p q os = (fs', r) := by
  unfold replaceVerifiedFile
  cases fs.rename p q os.rename with
  | ok fs' => exact .inr ⟨fs', _, rfl, rfl⟩
  | error e =>
    left
    by_cases hd : os.droppedAt = some .rename
    · exact ⟨.dropped, by simp [Os.await, hd, bind, Except.bind]⟩
    · exact ⟨.err ("could not commit upload: " ++ e), by simp [Os.await, hd, bind, Except.bind, throw,
        throwThe, MonadExceptOf.throw]⟩

/-- The commit leaves the files as they are, and fails; or the upload verifies, all its bytes are in
the file, and the temporary is renamed. -/
theorem commitUpload_cases (blake3 : Bytes → Digest) (fs : Fs) (id : TransferId) (u : Upload)
    (size : Nat)
    (checksum : Digest) (os : Os) :
    (∃ e, commitUpload blake3 fs id u size checksum os = (fs, .error e)) ∨
      Verifies blake3 u size checksum ∧ u.file.lost = false ∧ ∃ fs' r,
        fs.rename u.temporary u.target os.rename = .ok fs' ∧
        commitUpload blake3 fs id u size checksum os = (fs', r) := by
  unfold commitUpload
  split
  · exact .inl ⟨_, rfl⟩
  rename_i hsize
  split
  · exact .inl ⟨_, rfl⟩
  rename_i hsum
  split
  · exact .inl ⟨_, rfl⟩
  rename_i hsettle
  have hlost : u.file.lost = false := by
    cases hl : u.file.lost with
    | false => rfl
    | true =>
      exfalso
      simp only [settle, Os.await, hl, ↓reduceIte, failing] at hsettle
      split at hsettle
      · cases hsettle
      · cases hsettle
  obtain ⟨hs, hw⟩ := not_or.mp hsize
  obtain ⟨e, hr⟩ | ⟨fs', r, hren, hr⟩ := replaceVerifiedFile_cases fs u.temporary u.target os
  · rw [hr]
    exact .inl ⟨e, rfl⟩
  · right
    rw [hr]
    refine ⟨⟨not_not.mp hs, not_not.mp hw, not_not.mp hsum⟩, hlost, fs', ?_⟩
    cases r with
    | error e => exact ⟨_, hren, rfl⟩
    | ok _ => exact ⟨_, hren, rfl⟩

/-- An upload that is finished has left the table. -/
theorem wf_finishUpload (h : s.Wf) (id : TransferId) (size : Nat) (checksum : Digest) (os : Os) :
    (s.finishUpload blake3 id size checksum os).1.Wf := by
  unfold finishUpload
  cases hu : s.transfers.uploads.lookup id with
  | none => exact h
  | some u =>
    have herase := h.of_uploads (t := { s.transfers with uploads := s.transfers.uploads.erase id })
      (fun x v hv => (lookup_of_erase hv).2) s.alive
    have htemp : ∀ x v, (s.transfers.uploads.erase id).lookup x = some v →
        v.temporary ≠ u.temporary := fun x v hv =>
      h.temporary_ne (lookup_of_erase hv).2 hu (lookup_of_erase hv).1
    dsimp only
    obtain ⟨e, hc⟩ | ⟨-, -, fs', r, hren, hc⟩ :=
      commitUpload_cases blake3 s.fs id u size checksum os
    · rw [hc]
      cases e with
      | dropped => exact herase
      | err reason =>
        dsimp only
        split
        · exact wf_removeFile herase htemp os.remove
        · exact wf_discard herase htemp os
    · obtain ⟨hw, hnone⟩ := wf_rename h hu hren
      rw [hc]
      cases r with
      | ok reply => exact wf_forget hw hnone os.forget
      | error e =>
        cases e with
        | dropped => exact hw
        | err reason =>
          dsimp only
          split
          · exact wf_removeFile hw htemp os.remove
          · exact wf_discard hw htemp os

/-- Only the downloads of the table differ. -/
def SameUploads (s s' : State) : Prop :=
  ∃ t : Transfers, s' = { s with transfers := t } ∧ t.uploads = s.transfers.uploads

theorem Wf.sameUploads {s' : State} (h : s.Wf) (hs : SameUploads s s') : s'.Wf := by
  obtain ⟨t, rfl, ht⟩ := hs
  exact h.of_uploads (fun id u hu => by rwa [ht] at hu) s.alive

theorem startDownload_sameUploads (s : State) (id : TransferId) (path : PathBuf)
    (allowOutside : Bool) (os : Os) :
    SameUploads s (s.startDownload id path allowOutside os).1 := by
  unfold startDownload
  dsimp only
  split
  · exact ⟨_, rfl, rfl⟩
  split
  · exact ⟨_, rfl, rfl⟩
  · refine ⟨_, rfl, ?_⟩
    unfold Transfers.rememberDownload
    split <;> rfl

theorem retryDownload_sameUploads (s : State) (id : TransferId) :
    SameUploads s (s.retryDownload id).1 := by
  unfold retryDownload
  dsimp only
  split
  · exact ⟨_, rfl, rfl⟩
  split
  · exact ⟨_, rfl, rfl⟩
  · exact ⟨_, rfl, rfl⟩

theorem cancelDownload_sameUploads (s : State) (id : TransferId) :
    SameUploads s (s.cancelDownload id) := by
  unfold cancelDownload
  dsimp only
  split
  · exact ⟨_, rfl, rfl⟩
  · exact ⟨_, rfl, rfl⟩

theorem downloadEnds_sameUploads (s : State) (id : TransferId) :
    SameUploads s (s.downloadEnds id) := by
  unfold downloadEnds
  split
  · exact ⟨_, rfl, rfl⟩
  · exact ⟨_, rfl, rfl⟩

theorem wf_answer {α : Type} (id : TransferId) (reply : α → List Reply) {r : State × Except Stop α}
    (h : r.1.Wf) : (answer id reply r).1.Wf := by
  obtain ⟨s, (e | _) | a⟩ := r
  · exact h
  · exact h.of_uploads (fun _ _ hu => hu) false
  · exact h

/-! ## Steps -/

/-- A frame, unless its target is that of another upload. -/
theorem wf_handle (h : s.Wf) (os : Os) (f : Frame) (hf : ¬ s.Aliased (.frame f os)) :
    (s.handle blake3 os f).1.Wf := by
  cases f with
  | fileGetReq id path startSeq allowOutside =>
    exact wf_answer _ _ (h.sameUploads (startDownload_sameUploads s id path allowOutside os))
  | filePutReq id path size mode allowOutside =>
    exact wf_answer _ _ (wf_startUpload h id path size mode allowOutside os hf)
  | fileChunk id seq bytes =>
    have hc := wf_uploadChunk h id seq bytes os
    rw [handle]
    split
    · rename_i s' reason heq
      rw [heq] at hc
      exact wf_cancelUpload hc id os
    · exact wf_answer _ _ hc
  | fileDone id size checksum => exact wf_answer _ _ (wf_finishUpload h id size checksum os)
  | fileRetry id fromSeq => exact wf_answer _ _ (h.sameUploads (retryDownload_sameUploads s id))
  | fileErr id reason =>
    exact wf_cancelUpload (h.sameUploads (cancelDownload_sameUploads s id)) id os

theorem wf_step (h : s.Wf) (e : Event) (he : ¬ s.Aliased e) : (s.step blake3 e).Wf := by
  cases e with
  | frame f os =>
    rw [step]
    split
    · exact wf_handle h os f he
    · exact h
  | downloadEnds id => exact h.sameUploads (downloadEnds_sameUploads s id)
  | lost => exact h.of_uploads (fun _ _ hu => hu) false
  | dropUpload id os =>
    rw [step]
    split
    · exact h
    · exact wf_cancelUpload h id os

/-! ## The content of a target -/

/-- An upload has this target. -/
def Targets (s : State) (p : AbsPath) : Prop :=
  ∃ id u, s.transfers.uploads.lookup id = some u ∧ u.target = p

variable {p : AbsPath}

theorem content_cancelUpload {s : State}
    (hp : ∀ u, s.transfers.uploads.lookup id = some u → u.temporary ≠ p) (os : Os) :
    (s.cancelUpload id os).fs.content p = s.fs.content p := by
  unfold cancelUpload
  cases hu : s.transfers.uploads.lookup id with
  | none => rfl
  | some u => exact Fs.content_removeFile os.remove (hp u hu).symm

theorem Wf.temporary_ne_target (h : s.Wf) (hp : s.Targets p) (u : Upload)
    (hu : s.transfers.uploads.lookup id = some u) : u.temporary ≠ p := by
  obtain ⟨x, v, hv, rfl⟩ := hp
  exact (h.apart x v id u hv hu).symm

/-- A chunk goes to the file of its upload, which keeps its paths. -/
theorem uploadChunk_fs (s : State) (id : TransferId) (seq : Nat) (bytes : Bytes) (os : Os) :
    ((s.uploadChunk id seq bytes os).1.fs = s.fs ∨ ∃ u bs, s.transfers.uploads.lookup id = some u ∧
      (s.uploadChunk id seq bytes os).1.fs = s.fs.append u.file.inode bs) ∧
    ∀ v, (s.uploadChunk id seq bytes os).1.transfers.uploads.lookup id = some v →
      ∃ u, s.transfers.uploads.lookup id = some u ∧ v.temporary = u.temporary := by
  unfold uploadChunk
  cases hu : s.transfers.uploads.lookup id with
  | none => exact ⟨.inl rfl, fun v hv => ⟨v, hu ▸ hv, rfl⟩⟩
  | some u =>
    have hfs := (writeAll_spec u.file s.fs bytes os.write).1
    have hput : ∀ v : Upload, v.temporary = u.temporary →
        ((State.setUpload { s with fs := (u.file.writeAll s.fs bytes os.write).2.2 } id v).fs = s.fs ∨
          ∃ u' bs, some u = some u' ∧ (State.setUpload
            { s with fs := (u.file.writeAll s.fs bytes os.write).2.2 } id v).fs =
              s.fs.append u'.file.inode bs) ∧
        ∀ w, (State.setUpload { s with fs := (u.file.writeAll s.fs bytes os.write).2.2 } id
            v).transfers.uploads.lookup id = some w →
          ∃ u', some u = some u' ∧ w.temporary = u'.temporary := by
      intro v hv
      refine ⟨?_, fun w hw => ⟨u, rfl, ?_⟩⟩
      · obtain hfs | ⟨bs, hfs⟩ := hfs
        · exact .inl hfs
        · exact .inr ⟨u, bs, rfl, hfs⟩
      · simp only [setUpload, Finmap.lookup_insert, Option.some.injEq] at hw
        rw [← hw, hv]
    dsimp only
    split
    · exact ⟨.inl rfl, fun v hv => ⟨v, hu ▸ hv, rfl⟩⟩
    split
    · exact ⟨.inl rfl, fun v hv => ⟨v, hu ▸ hv, rfl⟩⟩
    split
    · exact ⟨.inl rfl, fun v hv => ⟨v, hu ▸ hv, rfl⟩⟩
    split
    · exact hput _ rfl
    split
    · exact hput _ rfl
    · exact hput _ rfl

theorem content_uploadChunk (h : s.Wf) (hp : s.Targets p) (id : TransferId) (seq : Nat)
    (bytes : Bytes) (os : Os) :
    (s.uploadChunk id seq bytes os).1.fs.content p = s.fs.content p := by
  obtain hfs | ⟨u, bs, hu, hfs⟩ := (uploadChunk_fs s id seq bytes os).1 <;> rw [hfs]
  refine Fs.content_append bs fun he => ?_
  exact h.temporary_ne_target hp u hu ((h.upload id u hu).sole p he).symm

theorem content_rename {fs fs' : Fs} {q : AbsPath} {os : Option String} {i : Nat} (hne : p ≠ q)
    (hi : fs.entries p = some i) (h : fs.rename p q os = .ok fs') :
    fs'.content q = some (fs.data i) ∧ ∀ r, r ≠ p → r ≠ q → fs'.content r = fs.content r := by
  obtain ⟨j, hj, hentries, hdata, -⟩ := Fs.rename_eq hne h
  cases hi.symm.trans hj
  refine ⟨?_, fun r hr hrq => ?_⟩
  · rw [Fs.content, hentries, hdata, Function.update_of_ne hne.symm, Function.update_self]
    rfl
  · rw [Fs.content, hentries, hdata, Function.update_of_ne hr, Function.update_of_ne hrq,
      Fs.content]

/-- After the commit, at most the temporary is removed. -/
theorem finishUpload_fs (blake3 : Bytes → Digest) (hu : s.transfers.uploads.lookup id = some u)
    (size : Nat)
    (checksum : Digest) (os : Os) :
    let fs := (commitUpload blake3 s.fs id u size checksum os).1
    (s.finishUpload blake3 id size checksum os).1.fs = fs ∨
      (s.finishUpload blake3 id size checksum os).1.fs = (fs.removeFile u.temporary os.remove).1 := by
  intro fs
  unfold finishUpload
  rw [hu]
  dsimp only
  rcases hc : commitUpload blake3 s.fs id u size checksum os with ⟨fs', r⟩
  have hfs : fs = fs' := congrArg Prod.fst hc
  cases r with
  | ok reply => exact .inl hfs.symm
  | error e =>
    cases e with
    | dropped => exact .inl hfs.symm
    | err reason =>
      right
      rw [hfs]
      dsimp only
      split
      · rfl
      · rfl

/-- The end of an upload changes only its own target, and this only if it verifies. -/
theorem content_finishUpload (blake3 : Bytes → Digest) (h : s.Wf) (hp : s.Targets p)
    (id : TransferId) (size : Nat)
    (checksum : Digest) (os : Os) :
    (s.finishUpload blake3 id size checksum os).1.fs.content p = s.fs.content p ∨
      ∃ u, s.transfers.uploads.lookup id = some u ∧ u.target = p ∧
        Verifies blake3 u size checksum ∧
        (s.finishUpload blake3 id size checksum os).1.fs.content p = some u.hasher := by
  cases hu : s.transfers.uploads.lookup id with
  | none =>
    left
    unfold finishUpload
    rw [hu]
  | some u =>
    have hne : p ≠ u.temporary := (h.temporary_ne_target hp u hu).symm
    have hok := h.upload id u hu
    have hafter : (s.finishUpload blake3 id size checksum os).1.fs.content p =
        (commitUpload blake3 s.fs id u size checksum os).1.content p := by
      obtain hfs | hfs := finishUpload_fs blake3 hu size checksum os <;> rw [hfs]
      exact Fs.content_removeFile os.remove hne
    rw [hafter]
    obtain ⟨e, hc⟩ | ⟨hver, hlost, fs', r, hren, hc⟩ :=
      commitUpload_cases blake3 s.fs id u size checksum os
    · rw [hc]
      exact .inl rfl
    · rw [hc]
      have hself : u.temporary ≠ u.target := (h.apart id u id u hu hu).symm
      obtain ⟨htarget, hothers⟩ := content_rename hself hok.entry hren
      by_cases hpu : p = u.target
      · refine .inr ⟨u, rfl, hpu.symm, hver, ?_⟩
        rw [hpu, ← (hok.intact hlost).1]
        exact htarget
      · exact .inl (hothers p hne hpu)

/-- The event is a request for an upload to this target. -/
def Requests (s : State) (p : AbsPath) : Event → Prop
  | .frame (.filePutReq id path size _ allowOutside) os => ∃ temporary,
      uploadPaths s.transfers.pruneFinishedDownloads id path size allowOutside os =
        .ok (p, temporary)
  | _ => False

/-- Starting an upload touches no target. -/
theorem content_startUpload {path : PathBuf} {size : Nat} {mode : Option Nat} {allowOutside : Bool}
    {os : Os} (ha : ¬ s.Aliased (.frame (.filePutReq id path size mode allowOutside) os))
    (hp : s.Targets p ∨ s.Requests p (.frame (.filePutReq id path size mode allowOutside) os)) :
    (s.startUpload id path size mode allowOutside os).1.fs.content p = s.fs.content p := by
  unfold startUpload
  dsimp only
  split
  · rfl
  rename_i hslot
  split
  · rfl
  rename_i target temporary hpaths
  split
  · rfl
  rename_i c htrack
  split
  · split <;> rfl
  rename_i inode fs hcreate
  have hne : p ≠ temporary := by
    rintro rfl
    refine ha ⟨target, p, by simpa using hslot, hpaths, by rw [htrack], by rw [hcreate]; rfl, ?_⟩
    obtain ⟨x, v, hv, rfl⟩ | ⟨temporary', hreq⟩ := hp
    · exact .inr ⟨x, v, hv, .inr rfl⟩
    · rw [hpaths] at hreq
      cases hreq
      exact .inl rfl
  obtain ⟨-, -, hentries, hdata, -⟩ := Fs.createNew_eq hcreate
  have hcontent : fs.content p = s.fs.content p := by
    rw [Fs.content, hentries, hdata, Function.update_of_ne hne, Fs.content]
    cases he : s.fs.entries p with
    | none => rfl
    | some j =>
      have hj : j ≠ s.fs.next := (s.fs.fresh p j he).ne
      simp [hj]
  split
  · exact hcontent
  · exact hcontent

@[simp] theorem fs_answer {α : Type} (id : TransferId) (reply : α → List Reply)
    (r : State × Except Stop α) : (answer id reply r).1.fs = r.1.fs := by
  obtain ⟨s, (e | _) | a⟩ := r <;> rfl

theorem SameUploads.fs {s s' : State} (h : SameUploads s s') : s'.fs = s.fs := by
  obtain ⟨t, rfl, -⟩ := h
  rfl

/-- The event ends an upload to this target, which has the declared size and digest. -/
def Commits (blake3 : Bytes → Digest) (s : State) (p : AbsPath) (bytes : Bytes) : Event → Prop
  | .frame (.fileDone id size checksum) _ => ∃ u, s.transfers.uploads.lookup id = some u ∧
      u.target = p ∧ u.hasher = bytes ∧ size = u.expectedSize ∧ bytes.length = size ∧
      blake3 bytes = checksum
  | _ => False

/-- A frame leaves a target as it is, or installs the bytes of a verified upload. -/
theorem content_handle (h : s.Wf) (os : Os) (f : Frame) (hf : ¬ s.Aliased (.frame f os))
    (hp : s.Targets p ∨ s.Requests p (.frame f os)) :
    (s.handle blake3 os f).1.fs.content p = s.fs.content p ∨ ∃ bytes,
      s.Commits blake3 p bytes (.frame f os) ∧
      (s.handle blake3 os f).1.fs.content p = some bytes := by
  cases f with
  | fileGetReq id path startSeq allowOutside =>
    rw [handle, fs_answer, (startDownload_sameUploads s id path allowOutside os).fs]
    exact .inl rfl
  | filePutReq id path size mode allowOutside =>
    rw [handle, fs_answer]
    exact .inl (content_startUpload hf hp)
  | fileChunk id seq bytes =>
    have hp : s.Targets p := hp.resolve_right fun hr => hr
    have hc := content_uploadChunk h hp id seq bytes os
    left
    rw [handle]
    split
    · rename_i s' reason heq
      have htemp := (uploadChunk_fs s id seq bytes os).2
      rw [heq] at hc htemp
      refine (content_cancelUpload (fun v hv => ?_) os).trans hc
      obtain ⟨u, hu, hvu⟩ := htemp v hv
      rw [hvu]
      exact h.temporary_ne_target hp u hu
    · rw [fs_answer]
      exact hc
  | fileDone id size checksum =>
    rw [handle, fs_answer]
    obtain hc | ⟨u, hu, ht, ⟨hs, hw, hb⟩, hc⟩ :=
      content_finishUpload blake3 h (hp.resolve_right fun hr => hr) id size checksum os
    · exact .inl hc
    · refine .inr ⟨u.hasher, ⟨u, hu, ht, rfl, hs, ?_, hb⟩, hc⟩
      rw [← (h.upload id u hu).written, hw, hs]
  | fileRetry id fromSeq =>
    rw [handle, fs_answer, (retryDownload_sameUploads s id).fs]
    exact .inl rfl
  | fileErr id reason =>
    have hp : s.Targets p := hp.resolve_right fun hr => hr
    obtain ⟨t, he, ht⟩ := cancelDownload_sameUploads s id
    left
    rw [handle, he]
    refine content_cancelUpload (fun u hu => ?_) os
    rw [ht] at hu
    exact h.temporary_ne_target hp u hu

/-- A target changes only when an upload to it is committed. -/
theorem content_step (h : s.Wf) (e : Event) (he : ¬ s.Aliased e)
    (hp : s.Targets p ∨ s.Requests p e) :
    (s.step blake3 e).fs.content p = s.fs.content p ∨ ∃ bytes,
      s.Commits blake3 p bytes e ∧ (s.step blake3 e).fs.content p = some bytes := by
  cases e with
  | frame f os =>
    rw [step]
    split
    · exact content_handle h os f he hp
    · exact .inl rfl
  | downloadEnds id => exact .inl (by rw [step, (downloadEnds_sameUploads s id).fs])
  | lost => exact .inl rfl
  | dropUpload id os =>
    rw [step]
    split
    · exact .inl rfl
    · exact .inl (content_cancelUpload
        (fun u hu => h.temporary_ne_target (hp.resolve_right fun hr => hr) u hu) os)

end Wf

variable (blake3 : Bytes → Digest)

theorem wf_start (home : AbsPath) (maxTransferBytes : Nat) (fs : Fs) (cleanup : UploadCleanup) :
    (start home maxTransferBytes fs cleanup).Wf where
  upload _ _ hu := (Option.some_ne_none _ hu.symm).elim
  inj _ _ _ _ hu := (Option.some_ne_none _ hu.symm).elim
  apart _ _ _ _ hu := (Option.some_ne_none _ hu.symm).elim
  freshMade _ _ h := (List.not_mem_nil h).elim
  once _ _ _ h := (List.not_mem_nil h).elim
  listed _ _ h := (List.not_mem_nil h).elim

/-- The step leaves the content of every target as it is, or it ends an upload to the target that
has the declared size and digest, and installs the bytes of its accepted chunks. -/
def SafeAt (s : State) (e : Event) : Prop :=
  ∀ p, s.Targets p ∨ s.Requests p e → (s.step blake3 e).fs.content p = s.fs.content p ∨
    ∃ bytes, s.Commits blake3 p bytes e ∧ (s.step blake3 e).fs.content p = some bytes

/-- Every temporary that is still there is in the registry. -/
def TemporariesListed (s : State) : Prop :=
  ∀ p i, (p, i) ∈ s.made → s.fs.entries p = some i → s.cleanup.Lists p

/-- In every run without aliased requests, targets change only by verified uploads, and temporaries
are removed or registered. -/
theorem upload_commit_safety (home : AbsPath) (maxTransferBytes : Nat) (fs : Fs)
    (cleanup : UploadCleanup) (evs : List Event)
    (halias : Run.Along (step blake3) (fun s e => ¬ s.Aliased e)
      (start home maxTransferBytes fs cleanup) evs) :
    Run.Along (step blake3) (SafeAt blake3) (start home maxTransferBytes fs cleanup) evs ∧
      (Run.run (step blake3) (start home maxTransferBytes fs cleanup) evs).TemporariesListed := by
  have hstart := wf_start home maxTransferBytes fs cleanup
  have hstep : ∀ (s : State) (e : Event), s.Wf → ¬ s.Aliased e → (s.step blake3 e).Wf :=
    fun s e h he => wf_step h e he
  exact ⟨halias.of_invariant hstart hstep fun s e h he p hp => content_step h e he hp,
    (halias.induction hstart hstep).listed⟩

/-- A connection to a host without files. -/
def noFiles : State :=
  start ["home"] 0
    { entries := fun _ => none, data := fun _ => [], next := 0
      fresh := fun _ _ h => (Option.some_ne_none _ h.symm).elim } ⟨∅, ∅⟩

/-- A request for an upload of three bytes. -/
def put (id : UInt64) (name : String) : Event :=
  .frame (.filePutReq ⟨id⟩ [.normal name] 3 none false) { canonical := .ok ["home"] }

/-- The target of the upload 1 is named like the temporary of the upload 2. When this is started and
gets its first byte, the target of the upload 1 has it, and no chunk of the upload 1 has come. -/
theorem aliased_target_changes :
    ¬ ∀ (blake3 : Bytes → Digest) (home : AbsPath) (maxTransferBytes : Nat) (fs : Fs)
      (cleanup : UploadCleanup) (evs : List Event),
      Run.Along (step blake3) (SafeAt blake3) (start home maxTransferBytes fs cleanup) evs ∧
        (Run.run (step blake3) (start home maxTransferBytes fs cleanup) evs).TemporariesListed := by
  intro h
  let s₁ := noFiles.step (fun _ => 0) (put 1 ".portty-upload-2.part")
  let s₂ := s₁.step (fun _ => 0) (put 2 "notes")
  let chunk : Event := .frame (.fileChunk ⟨2⟩ 0 [7]) {}
  have hsafe : s₂.SafeAt (fun _ => 0) chunk := (h (fun _ => 0) ["home"] 0 noFiles.fs ⟨∅, ∅⟩
    [put 1 ".portty-upload-2.part", put 2 "notes", chunk]).1.2.2.1
  have htarget : s₂.Targets ["home", ".portty-upload-2.part"] := by
    have hu : (s₂.transfers.uploads.lookup ⟨1⟩).map (·.target) =
        some ["home", ".portty-upload-2.part"] := by decide
    obtain ⟨u, hu, ht⟩ := Option.map_eq_some_iff.mp hu
    exact ⟨_, u, hu, ht⟩
  have hchanged : (s₂.step (fun _ => 0) chunk).fs.content ["home", ".portty-upload-2.part"] ≠
      s₂.fs.content ["home", ".portty-upload-2.part"] := by decide
  obtain hsame | ⟨_, hcommit, -⟩ := hsafe _ (.inl htarget)
  · exact hchanged hsame
  · exact hcommit

/-- The digest of `abc`. -/
def abcDigest : Digest := 0x6437b3ac38465133ffb63b75273a8db548c558465d79db03fd359c6cd5bd9d85

/-- A digest function that is right on `abc`. -/
def digestOfAbc (b : Bytes) : Digest := if b = [97, 98, 99] then abcDigest else 0

/-- An upload of `abc` in two chunks, the second of which comes twice. -/
def uploadAbc : List Event :=
  [put 1 "notes", .frame (.fileChunk ⟨1⟩ 0 [97, 98]) {}, .frame (.fileChunk ⟨1⟩ 1 [99]) {},
    .frame (.fileChunk ⟨1⟩ 1 [99]) {}, .frame (.fileDone ⟨1⟩ 3 abcDigest) {}]

/-- The upload installs `abc` and leaves no temporary. -/
theorem upload_commit_safety_abc :
    let s := Run.run (step digestOfAbc) noFiles uploadAbc
    s.fs.content ["home", "notes"] = some [97, 98, 99] ∧
      s.fs.entries ["home", ".portty-upload-1.part"] = none ∧
      Run.Along (step digestOfAbc) (SafeAt digestOfAbc) noFiles uploadAbc ∧ s.TemporariesListed := by
  refine ⟨by decide, by decide, upload_commit_safety digestOfAbc _ _ _ _ _ ?_⟩
  refine ⟨?_, id, id, id, id, trivial⟩
  rintro ⟨target, temporary, -, hpaths, -, -, halias⟩
  have hp : uploadPaths noFiles.transfers.pruneFinishedDownloads ⟨1⟩ [.normal "notes"] 3 false
      { canonical := .ok ["home"] } =
      .ok (["home", "notes"], ["home", ".portty-upload-1.part"]) := by rfl
  cases hp.symm.trans hpaths
  obtain hself | ⟨x, v, hv, -⟩ := halias
  · revert hself
    decide
  · exact Option.some_ne_none _ hv.symm

end State

end FileTransfer

end Portty
