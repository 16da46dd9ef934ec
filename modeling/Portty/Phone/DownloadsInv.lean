import Portty.Phone.Downloads

/-!
# The invariant of the downloads

What is staged of a download is what its hasher was fed, as long as a download that starts again is
cut back to empty (`RestartsClean`).

`Inv held s` is the invariant of the registry with the downloads `held` taken out of it. A step
takes a download (`Inv.hold`, `Inv.holdVerified`) and puts it back, drops it or hands it on
(`Inv.keep`, `Inv.drop`, `Inv.verify`, `Inv.copy`).
-/

namespace Portty

namespace Phone

open FileTransfer (Digest WriteResult fileChunkBytes u64Max)

namespace Downloads

variable {blake3 : Bytes → Digest} {windows : Bool} {s s' : Downloads} {d d' : DownloadTransfer}
  {v : Verification} {c : Commit} {id : Nat} {held : List Nat} {os : Os} {owner : TransferOwner}

/-! ## Ids and restarts -/

/-- The ids of the downloads that have not ended. -/
def ids (s : Downloads) : List Nat :=
  s.downloads.map DownloadTransfer.id ++
    (s.verifying.map (·.transfer.id) ++ s.commits.map Commit.id)

/-- The step starts the download again. -/
def restarts (blake3 : Bytes → Digest) (id : Nat) (s : Downloads) : DownloadEvent → Bool
  | .finish i _ =>
    i = id && (Rows.find (·.transfer.id) i s.verifying).any fun v =>
      Verification.Fails blake3 v ∧ saturatingAdd u32Max v.transfer.restarts 1 ≤ maxDownloadRestarts
  | _ => false

/-- When a download starts again, `set_len` and `seek` do not fail. -/
def RestartsClean (blake3 : Bytes → Digest) (s : Downloads) : DownloadEvent → Prop
  | .finish id os => restarts blake3 id s (.finish id os) = true → os.setLen = none ∧ os.seek = none
  | _ => True

instance (s : Downloads) : DecidablePred (RestartsClean blake3 s) := fun ev =>
  match ev with
  | .finish _ os => inferInstanceAs (Decidable (_ → os.setLen = none ∧ os.seek = none))
  | .register .. | .unregister _ | .fileChunk .. | .fileDone .. | .fileErr .. | .cancelOthers _
  | .resume _ | .commit .. | .discard _ => .isTrue trivial

/-! ## Files -/

@[simp] theorem files_set_self (disk : Disk) (p : Path) (content : Option Bytes) :
    (disk.set p content).files p = content := Function.update_self _ _ _

theorem files_set_of_ne {p q : Path} (disk : Disk) (content : Option Bytes) (h : q ≠ p) :
    (disk.set p content).files q = disk.files q := Function.update_of_ne h _ _

@[simp] theorem documents_set (disk : Disk) (p : Path) (content : Option Bytes) :
    (disk.set p content).documents = disk.documents := rfl

@[simp] theorem files_setDocument (disk : Disk) (uri : String) (content : Option Bytes) :
    (disk.setDocument uri content).files = disk.files := rfl

theorem writeAt_end (content bytes : Bytes) :
    writeAt content content.length bytes = content ++ bytes := by
  simp [writeAt]

/-- What a call of `write_all` leaves in a file that is as long as the position says. -/
theorem writeAll_spec {f f' : File} {content content' bytes : Bytes} {r : WriteResult}
    (hpos : f.lost = false → f.pos = content.length)
    (h : f.writeAll content bytes r = (.ok (), f', content')) :
    content'.length ≤ content.length + bytes.length ∧
      (f'.lost = false → f.lost = false ∧ content' = content ++ bytes ∧ f'.pos = content'.length) := by
  unfold File.writeAll at h
  split at h
  · cases h
  next hlost =>
  have hlost : f.lost = false := by simpa using hlost
  have hpos := hpos hlost
  cases r with
  | ok =>
    cases h
    rw [hpos, writeAt_end]
    refine ⟨by simp, fun _ => ⟨hlost, rfl, ?_⟩⟩
    rw [List.length_append]
  | lost n =>
    cases h
    rw [hpos, writeAt_end]
    refine ⟨?_, fun h => by cases h⟩
    rw [List.length_append, List.length_take]
    omega
  | failed n e => cases h

/-! ## The invariant -/

/-- What is staged is what the hasher was fed, unless a write was lost, which the next call reports.
-/
structure DownloadOk (file : Option Bytes) (d : DownloadTransfer) : Prop where
  staged : ∃ content, file = some content ∧ content.length ≤ d.written ∧
    (d.file.lost = false → content = d.hasher ∧ d.file.pos = content.length)
  counted : d.written = d.hasher.length
  bounded : d.written ≤ maxDownloadBytes
  restarted : d.restarts ≤ maxDownloadRestarts

/-- No two downloads share an id, and each fits its file. -/
structure Inv (held : List Nat) (s : Downloads) : Prop where
  nodup : (held ++ s.ids).Nodup
  old : ∀ id ∈ held ++ s.ids, id < s.nextId
  registered : ∀ d ∈ s.downloads, DownloadOk (s.disk.files (.temporary d.id)) d
  verified : ∀ v ∈ s.verifying, DownloadOk (s.disk.files (.temporary v.transfer.id)) v.transfer
  total : s.liveTotal ≤ maxTotalDownloadBytes
  tidy : ∀ id, s.disk.files (.temporary id) ≠ none → id ∈ held ++ s.ids

theorem Inv.unique (h : Inv held s) : Rows.Unique DownloadTransfer.id s.downloads :=
  ((List.nodup_append.mp h.nodup).2.1.sublist (List.sublist_append_left _ _))

theorem Inv.uniqueVerifying (h : Inv held s) : Rows.Unique (·.transfer.id) s.verifying := by
  refine (List.nodup_append.mp h.nodup).2.1.sublist ?_
  exact (List.sublist_append_left _ _).trans (List.sublist_append_right _ _)

theorem Inv.uniqueCommits (h : Inv held s) : Rows.Unique Commit.id s.commits := by
  refine (List.nodup_append.mp h.nodup).2.1.sublist ?_
  exact (List.sublist_append_right _ _).trans (List.sublist_append_right _ _)

theorem mem_ids_download (hd : d ∈ s.downloads) : d.id ∈ s.ids :=
  List.mem_append_left _ (List.mem_map_of_mem hd)

theorem mem_ids_verifying (hv : v ∈ s.verifying) : v.transfer.id ∈ s.ids :=
  List.mem_append_right _ (List.mem_append_left _ (List.mem_map.mpr ⟨v, hv, rfl⟩))

/-- A download is taken out of the lists. -/
theorem Inv.holdOf (h : Inv [] s) (hp : s.ids.Perm (id :: s'.ids)) (hn : s'.nextId = s.nextId)
    (hdisk : s'.disk = s.disk) (hd : s'.downloads.Sublist s.downloads)
    (hv : s'.verifying.Sublist s.verifying) : Inv [id] s' where
  nodup := hp.nodup_iff.mp h.nodup
  old i hi := hn ▸ h.old i (hp.mem_iff.mpr hi)
  registered d hmem := hdisk ▸ h.registered d (hd.subset hmem)
  verified v hmem := hdisk ▸ h.verified v (hv.subset hmem)
  total := (hd.map _).sum_le_sum (fun _ _ => Nat.zero_le _) |>.trans h.total
  tidy i hi := hp.mem_iff.mp (h.tidy i (hdisk ▸ hi))

theorem Inv.hold (h : Inv [] s) (hd : d ∈ s.downloads) :
    Inv [d.id] { s with downloads := Rows.remove DownloadTransfer.id d.id s.downloads } := by
  refine h.holdOf ?_ rfl rfl Rows.remove_sublist (.refl _)
  exact ((Rows.perm_remove h.unique hd).map DownloadTransfer.id).append_right _

theorem Inv.holdVerified (h : Inv [] s) (hv : v ∈ s.verifying) :
    Inv [v.transfer.id] { s with
      verifying := Rows.remove (·.transfer.id) v.transfer.id s.verifying } := by
  refine h.holdOf ?_ rfl rfl (.refl _) Rows.remove_sublist
  have hp := (Rows.perm_remove h.uniqueVerifying hv).map (·.transfer.id)
  exact ((hp.append_right _).append_left _).trans List.perm_middle

theorem Inv.holdCommit (h : Inv [] s) (hc : c ∈ s.commits) :
    Inv [c.id] { s with commits := Rows.remove Commit.id c.id s.commits } := by
  refine h.holdOf ?_ rfl rfl (.refl _) (.refl _)
  have hp := (Rows.perm_remove h.uniqueCommits hc).map Commit.id
  refine ((hp.append_left _).append_left _).trans ?_
  rw [← List.append_assoc, ids, ← List.append_assoc]
  exact List.perm_middle

/-- The downloads that are not held have another id. -/
theorem Inv.ne_of_mem (h : Inv [id] s) {i : Nat} (hi : i ∈ s.ids) : i ≠ id := by
  rintro rfl
  exact (List.nodup_cons.mp h.nodup).1 hi

/-- Only the staging file of the download that is held changes, and what is not one. -/
def OnlyTemporary (id : Nat) (disk disk' : Disk) : Prop :=
  ∀ i, i ≠ id → disk'.files (.temporary i) = disk.files (.temporary i)

theorem onlyTemporary_set (disk : Disk) (content : Option Bytes) :
    OnlyTemporary id disk (disk.set (.temporary id) content) := by
  intro i hi
  exact files_set_of_ne _ _ fun h => hi (Path.temporary.inj h)

/-- The download that is held is put somewhere, with its staging file, or is dropped without one. -/
theorem Inv.release (h : Inv [id] s) (hdisk : OnlyTemporary id s.disk s'.disk)
    (hn : s'.nextId = s.nextId) (hids : s'.ids.Perm (id :: s.ids) ∨
      s'.ids = s.ids ∧ s'.disk.files (.temporary id) = none)
    (hd : ∀ d ∈ s'.downloads, d ∈ s.downloads ∨
      d.id = id ∧ DownloadOk (s'.disk.files (.temporary id)) d)
    (hv : ∀ v ∈ s'.verifying, v ∈ s.verifying ∨
      v.transfer.id = id ∧ DownloadOk (s'.disk.files (.temporary id)) v.transfer)
    (ht : s'.liveTotal ≤ maxTotalDownloadBytes) : Inv [] s' where
  nodup := by
    obtain hids | ⟨hids, -⟩ := hids
    · exact hids.nodup_iff.mpr h.nodup
    · rw [List.nil_append, hids]
      exact (List.nodup_cons.mp h.nodup).2
  old i hi := by
    rw [hn]
    obtain hids | ⟨hids, -⟩ := hids
    · exact h.old i (hids.mem_iff.mp hi)
    · exact h.old i (List.mem_cons_of_mem _ (hids ▸ hi))
  registered d hmem := by
    obtain hmem | ⟨hid, hok⟩ := hd d hmem
    · rw [hdisk d.id (h.ne_of_mem (mem_ids_download hmem))]
      exact h.registered d hmem
    · rw [hid]
      exact hok
  verified v hmem := by
    obtain hmem | ⟨hid, hok⟩ := hv v hmem
    · rw [hdisk v.transfer.id (h.ne_of_mem (mem_ids_verifying hmem))]
      exact h.verified v hmem
    · rw [hid]
      exact hok
  total := ht
  tidy i hi := by
    by_cases hii : i = id
    · subst hii
      obtain hids | ⟨-, hnone⟩ := hids
      · exact hids.mem_iff.mpr List.mem_cons_self
      · exact absurd hnone hi
    · rw [hdisk i hii] at hi
      have hmem := (List.mem_cons.mp (h.tidy i hi)).resolve_left hii
      obtain hids | ⟨hids, -⟩ := hids
      · exact hids.mem_iff.mpr (List.mem_cons_of_mem _ hmem)
      · exact hids ▸ hmem

/-- The download has ended. -/
theorem Inv.drop (h : Inv [id] s) (hdisk : OnlyTemporary id s.disk s'.disk)
    (hnone : s'.disk.files (.temporary id) = none) (hn : s'.nextId = s.nextId)
    (hd : s'.downloads = s.downloads) (hv : s'.verifying = s.verifying)
    (hc : s'.commits = s.commits) : Inv [] s' := by
  refine h.release hdisk hn (.inr ⟨?_, hnone⟩) (fun d hmem => .inl (hd ▸ hmem))
    (fun v hmem => .inl (hv ▸ hmem)) ?_
  · rw [ids, ids, hd, hv, hc]
  · rw [liveTotal, hd]
    exact h.total

/-- The download is registered again. -/
theorem Inv.keep (h : Inv [id] s) (hid : d.id = id) {content : Option Bytes}
    (hok : DownloadOk content d) (ht : s.liveTotal + d.written ≤ maxTotalDownloadBytes) :
    Inv [] { s with
      downloads := Rows.put DownloadTransfer.id d s.downloads
      disk := s.disk.set (.temporary d.id) content } := by
  subst hid
  have hput : Rows.put DownloadTransfer.id d s.downloads = s.downloads ++ [d] :=
    Rows.put_of_forall fun d' hd' => h.ne_of_mem (mem_ids_download hd')
  rw [hput]
  refine h.release (onlyTemporary_set _ _) rfl (.inl ?_) (fun d' hd' => ?_) (fun v hv => .inl hv) ?_
  · simp only [ids, List.map_append, List.map_cons, List.map_nil, List.append_assoc,
      List.singleton_append]
    exact List.perm_middle
  · obtain hd' | hd' := List.mem_append.mp hd'
    · exact .inl hd'
    · rw [List.mem_singleton.mp hd', files_set_self]
      exact .inr ⟨rfl, hok⟩
  · simpa [liveTotal] using ht

/-- `FileDone` hands the download on. -/
theorem Inv.verify (h : Inv [d.id] s) (hok : DownloadOk (s.disk.files (.temporary d.id)) d)
    (size : Nat) (checksum : Digest) :
    Inv [] { s with verifying := s.verifying ++ [{ transfer := d, size, checksum }] } := by
  refine h.release (fun _ _ => rfl) rfl (.inl ?_) (fun d' hd' => .inl hd') (fun v hv => ?_) h.total
  · simp only [ids, List.map_append, List.map_cons, List.map_nil, List.append_assoc,
      List.singleton_append]
    rw [← List.append_assoc, ← List.append_assoc]
    exact List.perm_middle
  · obtain hv | hv := List.mem_append.mp hv
    · exact .inl hv
    · rw [List.mem_singleton.mp hv]
      exact .inr ⟨rfl, hok⟩

/-- The download is copied into its document. -/
theorem Inv.copy (h : Inv [c.id] s) : Inv [] { s with commits := s.commits ++ [c] } := by
  refine h.release (fun _ _ => rfl) rfl (.inl ?_) (fun d' hd' => .inl hd') (fun v hv => .inl hv) h.total
  simp only [ids, List.map_append, List.map_cons, List.map_nil, ← List.append_assoc]
  exact List.perm_append_singleton _ _

/-! ## Steps -/

/-- A document that is dropped is only noted. -/
theorem Inv.dropTarget (h : Inv [] s) (t : DownloadTarget) : Inv [] (s.dropTarget t) := by
  cases t with
  | path name => exact h
  | document uri label => exact ⟨h.nodup, h.old, h.registered, h.verified, h.total, h.tidy⟩

theorem Inv.abandon (h : Inv [] s) (hd : d ∈ s.downloads) : Inv [] (s.abandon d) := by
  refine Inv.dropTarget ?_ _
  exact (h.hold hd).drop (onlyTemporary_set _ _) (files_set_self _ _ _) rfl rfl rfl rfl

/-- The download that is held is dropped. -/
theorem Inv.abandonHeld (h : Inv [d.id] s) : Inv [] (s.abandon d) := by
  have hremove : Rows.remove DownloadTransfer.id d.id s.downloads = s.downloads :=
    Rows.remove_of_forall fun d' hd' => h.ne_of_mem (mem_ids_download hd')
  refine Inv.dropTarget ?_ _
  rw [hremove]
  exact h.drop (onlyTemporary_set _ _) (files_set_self _ _ _) rfl rfl rfl rfl

theorem owned_eq (h : s.owned id owner = some d) :
    d ∈ s.downloads ∧ d.id = id ∧ d.owner = owner := by
  obtain ⟨hf, ho⟩ := Option.filter_eq_some_iff.mp h
  exact ⟨Rows.mem_of_find hf, Rows.key_of_find hf, by simpa using ho⟩

theorem Inv.register (h : Inv [] s) (owner : TransferOwner) (remotePath : String)
    (target : DownloadTarget) (allowOutsideHome : Bool) :
    Inv [] (s.register owner remotePath target allowOutsideHome).1 := by
  have hnew : s.nextId ∉ s.ids := fun hmem => Nat.lt_irrefl _ (h.old _ hmem)
  have hheld : Inv [s.nextId] { s with nextId := s.nextId + 1 } := by
    refine ⟨List.nodup_cons.mpr ⟨hnew, h.nodup⟩, fun i hi => ?_, h.registered, h.verified, h.total,
      fun i hi => List.mem_cons_of_mem _ (h.tidy i hi)⟩
    obtain rfl | hi := List.mem_cons.mp hi
    · exact Nat.lt_succ_self _
    · exact Nat.lt_succ_of_lt (h.old i hi)
  refine Inv.keep (d := { id := s.nextId, owner, remotePath, target, allowOutsideHome }) hheld rfl ?_ ?_
  · exact ⟨⟨[], rfl, Nat.le_refl _, fun _ => ⟨rfl, rfl⟩⟩, rfl, Nat.zero_le _, Nat.zero_le _⟩
  · exact h.total

theorem liveTotal_hold (h : Inv [] s) (hd : d ∈ s.downloads) : s.liveTotal = d.written +
    liveTotal { s with downloads := Rows.remove DownloadTransfer.id d.id s.downloads } := by
  have := ((Rows.perm_remove h.unique hd).map DownloadTransfer.written).sum_eq
  simpa [liveTotal] using this

/-- A chunk that is within the budgets. -/
theorem not_overBudget {bytes : Bytes} (h : s.overBudget d bytes = false) :
    d.written + bytes.length ≤ maxDownloadBytes ∧
      s.liveTotal + bytes.length ≤ maxTotalDownloadBytes := by
  obtain ⟨hone, htotal⟩ := Bool.or_eq_false_iff.mp h
  have hone := of_decide_eq_false hone
  have htotal := of_decide_eq_false htotal
  unfold saturatingAdd u64Max at hone htotal
  unfold maxDownloadBytes at hone ⊢
  unfold maxTotalDownloadBytes at htotal ⊢
  omega

/-- A chunk is appended, or the download begins again. -/
theorem Inv.onFileChunk (h : Inv [] s) (owner : TransferOwner) (id seq : Nat) (bytes : Bytes)
    (os : Os) :
    Inv [] (s.onFileChunk owner id seq bytes os).1 := by
  unfold Downloads.onFileChunk
  split
  · exact h
  next d howned =>
  obtain ⟨hd, rfl, -⟩ := owned_eq howned
  split
  · exact h
  split
  · exact h.abandon hd
  next hbudget =>
  split
  · exact h
  split
  · exact h.abandon hd
  next file bytes' hwrite =>
  obtain ⟨hone, htotal⟩ := not_overBudget (by simpa using hbudget)
  obtain ⟨⟨staged, hfile, hlen, hsame⟩, hcount, -, hrestarts⟩ := h.registered d hd
  have hcontent : s.content d.id = staged := by
    rw [content, hfile]
    rfl
  rw [hcontent] at hwrite
  obtain ⟨hlen', hsame'⟩ := writeAll_spec (fun hlost => (hsame hlost).2) hwrite
  obtain ⟨d', hd'⟩ : ∃ d' : DownloadTransfer, d' = { d with
      file, hasher := d.hasher ++ bytes, written := d.written + bytes.length
      nextSeq := (d.nextSeq + 1) % 2 ^ 64 } := ⟨_, rfl⟩
  have hid : d'.id = d.id := by rw [hd']
  have hok : DownloadOk (some bytes') d' := by
    rw [hd']
    refine ⟨⟨bytes', rfl, ?_, fun hlost => ?_⟩, ?_, hone, hrestarts⟩
    · dsimp only
      omega
    · obtain ⟨hold, heq, hpos⟩ := hsame' hlost
      rw [heq, (hsame hold).1] at hpos ⊢
      exact ⟨rfl, hpos⟩
    · dsimp only
      rw [List.length_append, hcount]
  have hlive := liveTotal_hold h hd
  have hkeep := (h.hold hd).keep hid hok (by rw [hd']; dsimp only; omega)
  dsimp only at hkeep ⊢
  rw [Rows.put_remove hid, hid, hd'] at hkeep
  exact hkeep

theorem Inv.onFileDone (h : Inv [] s) {size : Nat} {checksum : Digest}
    (hs : s.onFileDone owner id size checksum = some s') : Inv [] s' := by
  obtain ⟨d, howned, rfl⟩ := Option.map_eq_some_iff.mp hs
  obtain ⟨hd, rfl, -⟩ := owned_eq howned
  exact (h.hold hd).verify (h.registered d hd) size checksum

/-- The downloads of other pairings end, one after the other. -/
theorem Inv.abandonAll {l : List DownloadTransfer} (h : Inv [] s) (hl : ∀ d ∈ l, d ∈ s.downloads)
    (hu : Rows.Unique DownloadTransfer.id l) : Inv [] (l.foldl Downloads.abandon s) := by
  induction l generalizing s with
  | nil => exact h
  | cons d l ih =>
    obtain ⟨hd, hu⟩ := List.nodup_cons.mp hu
    refine ih (h.abandon (hl d List.mem_cons_self)) (fun e he => ?_) hu
    have hne : e.id ≠ d.id := fun hid => hd (hid ▸ List.mem_map_of_mem he)
    have hmem := Rows.mem_remove.mpr ⟨hl e (List.mem_cons_of_mem _ he), hne⟩
    cases ht : d.target with
    | path name =>
      rw [Downloads.abandon, ht]
      exact hmem
    | document uri label =>
      rw [Downloads.abandon, ht]
      exact hmem

theorem rename_cases (disk : Disk) (p q : Path) (os : Option String) :
    ((os ≠ none ∨ disk.files p = none) ∧ ∃ e, disk.rename p q os = (.error e, disk)) ∨
      ∃ content, disk.files p = some content ∧
        disk.rename p q os = (.ok (), (disk.set q (some content)).set p none) := by
  unfold Disk.rename
  cases os with
  | some e => exact .inl ⟨.inl (by simp), e, rfl⟩
  | none =>
    cases hp : disk.files p with
    | none => exact .inl ⟨.inr rfl, _, rfl⟩
    | some content => exact .inr ⟨content, rfl, rfl⟩

/-- What `replace_download_file` leaves on the disk. -/
structure Replaced (windows : Bool) (disk disk' : Disk) (id : Nat) (name : String) (content : Bytes)
    (os : Os) (installed : Bool) : Prop where
  frame : ∀ p, p ≠ .user name → p ≠ .temporary id → p ≠ .backup id → disk'.files p = disk.files p
  documents : disk'.documents = disk.documents
  gone : installed = true → disk'.files (.temporary id) = none
  destination : disk'.files (.user name) = some content ∨
    (installed = false ∧ (disk'.files (.user name) = disk.files (.user name) ∨
      (windows = true ∧ os.rename ≠ none ∧ os.rollback ≠ none ∧ disk'.files (.user name) = none ∧
        disk'.files (.backup id) = disk.files (.user name))))

theorem Replaced.refl {disk : Disk} {name : String} {content : Bytes} :
    Replaced windows disk disk id name content os false :=
  ⟨fun _ _ _ _ => rfl, rfl, nofun, .inr ⟨rfl, .inl rfl⟩⟩

/-- The staging file is renamed onto the destination. -/
theorem replaced_rename {disk : Disk} {content : Bytes}
    (hs : disk.files (.temporary id) = some content)
    (name : String) (os' : Option String) :
    ∃ disk', (∃ e, disk.rename (.temporary id) (.user name) os' = (.error e, disk') ∧
        Replaced windows disk disk' id name content os false) ∨
      (disk.rename (.temporary id) (.user name) os' = (.ok (), disk') ∧
        Replaced windows disk disk' id name content os true) := by
  obtain ⟨-, e, he⟩ | ⟨bytes, hb, he⟩ := rename_cases disk (.temporary id) (.user name) os'
  · exact ⟨disk, .inl ⟨e, he, .refl⟩⟩
  · obtain rfl : content = bytes := by simpa [hs] using hb
    refine ⟨_, .inr ⟨he, fun p hn ht _ => ?_, rfl, fun _ => files_set_self _ _ _, .inl ?_⟩⟩
    · rw [files_set_of_ne _ _ ht, files_set_of_ne _ _ hn]
    · rw [files_set_of_ne _ _ (by simp), files_set_self]

/-- The file is replaced as a whole, or stays as it was. -/
theorem replaceDownloadFile_spec (windows : Bool) {disk : Disk} {content : Bytes}
    (hs : disk.files (.temporary id) = some content) (name : String) (os : Os) :
    ∃ disk', (∃ e, replaceDownloadFile windows disk id (.user name) os = (.error e, disk') ∧
        Replaced windows disk disk' id name content os false) ∨
      (replaceDownloadFile windows disk id (.user name) os = (.ok (), disk') ∧
        Replaced windows disk disk' id name content os true) := by
  unfold replaceDownloadFile
  split
  swap
  · exact replaced_rename hs name os.rename
  next hwin =>
  split
  · next e _ => exact ⟨disk, .inl ⟨e, rfl, .refl⟩⟩
  · exact replaced_rename hs name os.rename
  next old _ hold =>
  split
  · next e _ => exact ⟨disk, .inl ⟨e, rfl, .refl⟩⟩
  · exact ⟨disk, .inl ⟨_, rfl, .refl⟩⟩
  -- The destination is renamed to the backup.
  obtain ⟨-, e, he⟩ | ⟨bytes, hb, he⟩ := rename_cases disk (.user name) (.backup id) os.retain
  · rw [he]
    exact ⟨disk, .inl ⟨e, rfl, .refl⟩⟩
  obtain rfl : old = bytes := by simpa [hold] using hb
  rw [he]
  dsimp only
  obtain ⟨disk₁, hdisk₁⟩ : ∃ disk₁, disk₁ = (disk.set (.backup id) (some old)).set (.user name) none :=
    ⟨_, rfl⟩
  rw [← hdisk₁]
  have htemp : disk₁.files (.temporary id) = some content := by
    rw [hdisk₁, files_set_of_ne _ _ (by simp), files_set_of_ne _ _ (by simp), hs]
  have hback : disk₁.files (.backup id) = some old := by
    rw [hdisk₁, files_set_of_ne _ _ (by simp), files_set_self]
  have huser : disk₁.files (.user name) = none := by
    rw [hdisk₁, files_set_self]
  have hframe : ∀ p, p ≠ .user name → p ≠ .backup id → disk₁.files p = disk.files p := by
    intro p hn hbk
    rw [hdisk₁, files_set_of_ne _ _ hn, files_set_of_ne _ _ hbk]
  have hdocs : disk₁.documents = disk.documents := by
    rw [hdisk₁]
    rfl
  obtain ⟨hfail, e, he⟩ | ⟨bytes, hb, he⟩ :=
    rename_cases disk₁ (.temporary id) (.user name) os.rename
  · -- It cannot be installed, and the old file is put back.
    rw [he]
    dsimp only
    have hfail : os.rename ≠ none := hfail.resolve_right (by simp [htemp])
    obtain ⟨hfail', e', he'⟩ | ⟨bytes, hb, he'⟩ :=
      rename_cases disk₁ (.backup id) (.user name) os.rollback
    · rw [he']
      have hfail' : os.rollback ≠ none := hfail'.resolve_right (by simp [hback])
      refine ⟨disk₁, .inl ⟨_, rfl, fun p hn _ hbk => hframe p hn hbk, hdocs, nofun, ?_⟩⟩
      refine .inr ⟨rfl, .inr ⟨hwin, hfail, hfail', huser, ?_⟩⟩
      rw [hback, hold]
    · obtain rfl : old = bytes := by simpa [hback] using hb
      rw [he']
      refine ⟨_, .inl ⟨e, rfl, fun p hn _ hbk => ?_, hdocs, nofun, .inr ⟨rfl, .inl ?_⟩⟩⟩
      · rw [files_set_of_ne _ _ hbk, files_set_of_ne _ _ hn, hframe p hn hbk]
      · rw [files_set_of_ne _ _ (by simp), files_set_self, hold]
  · obtain rfl : content = bytes := by simpa [htemp] using hb
    rw [he]
    dsimp only
    have huser' : ((disk₁.set (.user name) (some content)).set (.temporary id) none).files (.user name) =
        some content := by
      rw [files_set_of_ne _ _ (by simp), files_set_self]
    split
    · next e _ =>
      refine ⟨_, .inl ⟨e, rfl, fun p hn ht hbk => ?_, hdocs, nofun, .inl huser'⟩⟩
      rw [files_set_of_ne _ _ ht, files_set_of_ne _ _ hn, hframe p hn hbk]
    · refine ⟨_, .inr ⟨rfl, fun p hn ht hbk => ?_, hdocs, fun _ => ?_, .inl ?_⟩⟩
      · rw [Disk.removeFile, files_set_of_ne _ _ hbk, files_set_of_ne _ _ ht,
          files_set_of_ne _ _ hn, hframe p hn hbk]
      · rw [Disk.removeFile, files_set_of_ne _ _ (by simp), files_set_self]
      · rw [Disk.removeFile, files_set_of_ne _ _ (by simp), huser']

theorem Replaced.onlyTemporary {disk disk' : Disk} {name : String} {content : Bytes}
    {installed : Bool}
    (h : Replaced windows disk disk' id name content os installed) : OnlyTemporary id disk disk' :=
  fun i hi => h.frame _ (by simp) (by simpa using hi) (by simp)

/-- A verified download leaves the table, or begins again. -/
theorem Inv.finish (h : Inv [] s) (hv : v ∈ s.verifying)
    (hs : RestartsClean blake3 s (.finish v.transfer.id os)) :
    Inv [] (s.finish blake3 windows v os).1 := by
  have hok := h.verified v hv
  have hheld := h.holdVerified hv
  unfold Downloads.finish
  dsimp only
  split
  · next hfails =>
    split
    · exact hheld.abandonHeld
    next hmore =>
    have hclean : os.setLen = none ∧ os.seek = none := by
      refine hs ?_
      rw [restarts, (Rows.find_eq_some h.uniqueVerifying).mpr ⟨hv, rfl⟩]
      simpa [hfails] using hmore
    rw [restartFile, hclean.1, hclean.2]
    refine Inv.keep (d := { v.transfer with
      restarts := saturatingAdd u32Max v.transfer.restarts 1, nextSeq := 0, written := 0, hasher := []
      file := { v.transfer.file with pos := 0 } }) hheld rfl ⟨⟨[], rfl, Nat.le_refl _, ?_⟩, rfl, ?_, ?_⟩ ?_
    · exact fun _ => ⟨rfl, rfl⟩
    · exact Nat.zero_le _
    · simpa using hmore
    · exact h.total
  · split
    · exact hheld.abandonHeld
    split
    · exact hheld.abandonHeld
    split
    · next uri label _ =>
      exact Inv.copy (c := { id := v.transfer.id, uri, label, size := v.size, checksum := v.checksum })
        hheld
    next name ht =>
    obtain ⟨content, hfile, -⟩ := hok.staged
    obtain ⟨disk', ⟨e, he, hr⟩ | ⟨he, hr⟩⟩ := replaceDownloadFile_spec windows hfile name os
    · rw [he]
      refine hheld.drop (fun i hi => ?_) (files_set_self _ _ _) rfl rfl rfl rfl
      rw [← hr.onlyTemporary i hi]
      exact onlyTemporary_set _ _ i hi
    · rw [he]
      exact hheld.drop hr.onlyTemporary (hr.gone rfl) rfl rfl rfl rfl

theorem Inv.commit (h : Inv [] s) (hc : c ∈ s.commits) : Inv [] (s.commit blake3 c os).1 := by
  have hheld := h.holdCommit hc
  have hdrop : ∀ document : Option Bytes, Inv [] { s with
      commits := Rows.remove Commit.id c.id s.commits
      disk := (s.disk.removeFile (.temporary c.id)).setDocument c.uri document } := fun document =>
    hheld.drop (onlyTemporary_set _ _) (files_set_self _ _ _) rfl rfl rfl rfl
  unfold Downloads.commit
  dsimp only
  split
  · exact hdrop _
  · exact hdrop _

theorem Inv.discard (h : Inv [] s) : Inv [] (s.discard os).1 := by
  unfold Downloads.discard
  split
  · exact h
  · exact ⟨h.nodup, h.old, h.registered, h.verified, h.total, h.tidy⟩

theorem Inv.step (h : Inv [] s) {ev : DownloadEvent} (hs : RestartsClean blake3 s ev) :
    Inv [] (s.step blake3 windows ev) := by
  unfold Downloads.step
  cases ev with
  | register owner remotePath target allowOutsideHome => exact h.register _ _ _ _
  | unregister id =>
    simp only [Downloads.handle, Downloads.unregister]
    split
    · exact h
    · next hf => exact h.abandon (Rows.mem_of_find hf)
  | fileChunk owner id seq bytes os => exact h.onFileChunk owner id seq bytes os
  | fileDone owner id size checksum =>
    simp only [Downloads.handle]
    cases hd : s.onFileDone owner id size checksum with
    | none => exact h
    | some s' => exact h.onFileDone hd
  | finish id os =>
    simp only [Downloads.handle]
    split
    · exact h
    · next v hf =>
      obtain rfl := Rows.key_of_find hf
      exact h.finish (Rows.mem_of_find hf) hs
  | fileErr owner id reason =>
    simp only [Downloads.handle, Downloads.onFileErr]
    cases hd : s.owned id owner with
    | none => exact h
    | some d => exact h.abandon (owned_eq hd).1
  | cancelOthers owner =>
    refine h.abandonAll (fun d hd => (List.mem_filter.mp hd).1) ?_
    exact h.unique.sublist List.filter_sublist
  | resume owner => exact h
  | commit id os =>
    simp only [Downloads.handle]
    split
    · exact h
    · next hf => exact h.commit (Rows.mem_of_find hf)
  | discard os => exact h.discard

theorem inv_start (files documents : String → Option Bytes) : Inv [] (start files documents) := by
  refine ⟨List.nodup_nil, ?_, ?_, ?_, Nat.zero_le _, ?_⟩
  · simp [start, ids]
  · simp [start]
  · simp [start]
  · simp [start]

/-! ## The downloads of a step -/

/-- The downloads that can still start again. -/
def unfinished (s : Downloads) : List DownloadTransfer :=
  s.downloads ++ s.verifying.map (·.transfer)

theorem unfinished_abandon (h : d' ∈ (s.abandon d).unfinished) : d' ∈ s.unfinished := by
  have hmem : d' ∈ Rows.remove DownloadTransfer.id d.id s.downloads ++ s.verifying.map (·.transfer) := by
    unfold abandon dropTarget at h
    split at h <;> exact h
  obtain hmem | hmem := List.mem_append.mp hmem
  · exact List.mem_append_left _ (Rows.mem_remove.mp hmem).1
  · exact List.mem_append_right _ hmem

theorem unfinished_abandonAll {l : List DownloadTransfer} (h : d ∈ (l.foldl abandon s).unfinished) :
    d ∈ s.unfinished := by
  induction l generalizing s with
  | nil => exact h
  | cons e l ih => exact unfinished_abandon (ih h)

/-- A chunk makes no download unfinished that was not. -/
theorem unfinished_onFileChunk {seq : Nat} {bytes : Bytes}
    (h : d' ∈ (s.onFileChunk owner id seq bytes os).1.unfinished) :
    ∃ d ∈ s.unfinished, d.id = d'.id ∧ d.owner = d'.owner ∧ d'.restarts = d.restarts := by
  unfold onFileChunk at h
  split at h
  · exact ⟨d', h, rfl, rfl, rfl⟩
  next d howned =>
  split at h
  · exact ⟨d', h, rfl, rfl, rfl⟩
  split at h
  · exact ⟨d', unfinished_abandon h, rfl, rfl, rfl⟩
  split at h
  · exact ⟨d', h, rfl, rfl, rfl⟩
  split at h
  · exact ⟨d', unfinished_abandon h, rfl, rfl, rfl⟩
  obtain h | h := List.mem_append.mp h
  · obtain rfl | ⟨hin, -⟩ := Rows.mem_put.mp h
    · exact ⟨d, List.mem_append_left _ (owned_eq howned).1, rfl, rfl, rfl⟩
    · exact ⟨d', List.mem_append_left _ hin, rfl, rfl, rfl⟩
  · exact ⟨d', List.mem_append_right _ h, rfl, rfl, rfl⟩

theorem nextId_abandon (s : Downloads) (d : DownloadTransfer) :
    (s.abandon d).nextId = s.nextId := by
  unfold abandon dropTarget
  split <;> rfl

theorem nextId_abandonAll (l : List DownloadTransfer) (s : Downloads) :
    (l.foldl abandon s).nextId = s.nextId := by
  induction l generalizing s with
  | nil => rfl
  | cons d l ih => rw [List.foldl_cons, ih, nextId_abandon]

theorem nextId_unregister (s : Downloads) (id : Nat) : (s.unregister id).1.nextId = s.nextId := by
  unfold unregister
  split
  · rfl
  · exact nextId_abandon _ _

/-- A chunk draws no id. -/
theorem nextId_onFileChunk (s : Downloads) (owner : TransferOwner) (id seq : Nat) (bytes : Bytes)
    (os : Os) : (s.onFileChunk owner id seq bytes os).1.nextId = s.nextId := by
  unfold onFileChunk
  split
  · rfl
  split
  · rfl
  split
  · exact nextId_abandon _ _
  split
  · rfl
  split
  · exact nextId_abandon _ _
  · rfl

/-- A finish draws no id. -/
theorem nextId_finish (s : Downloads) (id : Nat) (os : Os) :
    (s.handle blake3 windows (.finish id os)).1.nextId = s.nextId := by
  simp only [handle]
  split
  · rfl
  unfold finish
  dsimp only
  split
  · split
    · rw [nextId_abandon]
    · rfl
  · split
    · rw [nextId_abandon]
    split
    · rw [nextId_abandon]
    split
    · rfl
    split <;> rfl

theorem nextId_commit (s : Downloads) (id : Nat) (os : Os) :
    (s.handle blake3 windows (.commit id os)).1.nextId = s.nextId := by
  simp only [handle]
  split
  · rfl
  unfold commit
  dsimp only
  split <;> rfl

theorem nextId_discard (s : Downloads) (os : Os) : (s.discard os).1.nextId = s.nextId := by
  unfold discard
  split <;> rfl

/-- The download that was verified is there again only with its own id and owner. -/
theorem unfinished_finish (h : d' ∈ (s.handle blake3 windows (.finish id os)).1.unfinished) :
    ∃ d ∈ s.unfinished, d.id = d'.id ∧ d.owner = d'.owner := by
  simp only [handle] at h
  split at h
  · exact ⟨d', h, rfl, rfl⟩
  next v hf =>
  have hother : d' ∈ s.downloads ++
      (Rows.remove (·.transfer.id) v.transfer.id s.verifying).map (·.transfer) →
      ∃ d ∈ s.unfinished, d.id = d'.id ∧ d.owner = d'.owner := by
    intro hmem
    refine ⟨d', ?_, rfl, rfl⟩
    obtain hmem | hmem := List.mem_append.mp hmem
    · exact List.mem_append_left _ hmem
    · obtain ⟨v', hv', rfl⟩ := List.mem_map.mp hmem
      exact List.mem_append_right _ (List.mem_map_of_mem (Rows.mem_remove.mp hv').1)
  unfold finish at h
  dsimp only at h
  split at h
  · split at h
    · exact hother (unfinished_abandon h)
    obtain h | h := List.mem_append.mp h
    · obtain rfl | ⟨hin, -⟩ := Rows.mem_put.mp h
      · exact ⟨v.transfer, List.mem_append_right _ (List.mem_map_of_mem (Rows.mem_of_find hf)), rfl, rfl⟩
      · exact hother (List.mem_append_left _ hin)
    · exact hother (List.mem_append_right _ h)
  · split at h
    · exact hother (unfinished_abandon h)
    split at h
    · exact hother (unfinished_abandon h)
    split at h
    · exact hother h
    split at h
    · exact hother h
    · exact hother h

theorem unfinished_onFileDone {size : Nat} {checksum : Digest}
    (hs : s.onFileDone owner id size checksum = some s') (h : d' ∈ s'.unfinished) :
    d' ∈ s.unfinished := by
  obtain ⟨d, howned, rfl⟩ := Option.map_eq_some_iff.mp hs
  obtain h | h := List.mem_append.mp h
  · exact List.mem_append_left _ (Rows.mem_remove.mp h).1
  · obtain ⟨v, hv, rfl⟩ := List.mem_map.mp h
    obtain hv | hv := List.mem_append.mp hv
    · exact List.mem_append_right _ (List.mem_map_of_mem hv)
    · rw [List.mem_singleton.mp hv]
      exact List.mem_append_left _ (owned_eq howned).1

end Downloads

end Phone

end Portty
