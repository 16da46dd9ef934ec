import Portty.Lib.Run
import Portty.Lib.Table
import Portty.Phone.DownloadsInv
import Portty.Phone.Transfers

/-!
# The owners of the transfers

After every run, what is in the queue of a link is about transfers that were started for its pairing
(`Wf.sentToOwner`).

`Claims` are the transfers that the phone knows, with the pairing that each is checked against, and
`Uses` the links that it uses for a transfer. The invariant is that both agree with `started`.
-/

namespace Portty

namespace Phone

namespace Transfers

open FileTransfer (Digest)

/-- The pairing of a link. -/
def World.ownerOf (w : World) (link : Nat) : Option TransferOwner := (w.links[link]?).map Link.owner

/-- What is sent about a transfer is sent to its owner. -/
def SentToOwner (w : World) : Prop :=
  ∀ l ∈ w.links, ∀ p ∈ l.outbound, w.started p.id = some l.owner

/-! ## The invariant -/

variable {blake3 : Bytes → Digest} {windows : Bool} {w w' : World} {link : Nat}
  {o owner : TransferOwner}
  {id : TransferId} {n : Nat} {u : UploadTransfer} {t : UploadTask} {p : Probe} {c : Connection}
  {downloads : Downloads} {os : Os}

/-- The phone knows the transfer, as one of `o`. -/
def Claims (w : World) (id : TransferId) (o : TransferOwner) : Prop :=
  (∃ d ∈ w.downloads.unfinished, id = .transfer d.id ∧ o = d.owner) ∨
    (∃ u ∈ w.uploads, id = .transfer u.id ∧ o = u.owner) ∨
    ∃ p ∈ w.probes, id = .probe p.id ∧ o = p.owner

/-- The phone has used the link for the transfer, or will. -/
def Uses (w : World) (id : TransferId) (link : Nat) : Prop :=
  (∃ n, (n, link) ∈ w.dones ∧ id = .transfer n) ∨
    (∃ t ∈ w.tasks, id = .transfer t.upload ∧ link = t.link) ∨
    (∃ p ∈ w.probes, id = .probe p.id ∧ link = p.link) ∨
    ∃ l, w.links[link]? = some l ∧ ∃ p ∈ l.outbound, id = p.id

/-- The link is one of the pairing for which the transfer was started. -/
def Fits (w : World) (id : TransferId) (link : Nat) : Prop :=
  ∃ o, w.started id = some o ∧ w.ownerOf link = some o

/-- Every id belongs to one owner. -/
structure Wf (w : World) : Prop where
  claims : ∀ id o, Claims w id o → w.started id = some o
  uses : ∀ id link, Uses w id link → Fits w id link
  looks : ∀ c, c ∈ w.connection ∨ c ∈ w.looks → w.ownerOf c.link = some c.owner
  fresh : ∀ n, w.nextId ≤ n → w.started (.transfer n) = none ∧ w.started (.probe n) = none

theorem Wf.sentToOwner (h : Wf w) : SentToOwner w := by
  intro l hl p hp
  obtain ⟨link, hlink⟩ := List.mem_iff_getElem?.mp hl
  obtain ⟨o, hs, ho⟩ := h.uses p.id link (.inr (.inr (.inr ⟨l, hlink, p, hp, rfl⟩)))
  rw [World.ownerOf, hlink] at ho
  rw [hs, ← ho, Option.map_some]

/-- The downloads are the same, but for their progress. -/
theorem Wf.setDownloads (h : Wf w) (downloads : Downloads)
    (hd : ∀ d' ∈ downloads.unfinished, ∃ d ∈ w.downloads.unfinished,
      d.id = d'.id ∧ d.owner = d'.owner) (hn : downloads.nextId = w.nextId) :
    Wf { w with downloads } := by
  refine ⟨?_, h.uses, h.looks, ?_⟩
  · rintro id o (⟨d', hd', rfl, rfl⟩ | hother)
    · obtain ⟨d, hmem, hid, ho⟩ := hd d' hd'
      exact h.claims _ _ (.inl ⟨d, hmem, by rw [hid], ho.symm⟩)
    · exact h.claims id o (.inr hother)
  · intro n hle
    rw [World.nextId, hn] at hle
    exact h.fresh n hle

/-- The uploads are the same, but for their flags. -/
theorem Wf.setUploads (h : Wf w) (uploads : List UploadTransfer)
    (hu : ∀ u' ∈ uploads, ∃ u ∈ w.uploads, u.id = u'.id ∧ u.owner = u'.owner) :
    Wf { w with uploads } := by
  refine ⟨?_, h.uses, h.looks, h.fresh⟩
  rintro id o (hd | ⟨u', hu', rfl, rfl⟩ | hp)
  · exact h.claims id o (.inl hd)
  · obtain ⟨u, hmem, hid, ho⟩ := hu u' hu'
    exact h.claims _ _ (.inr (.inl ⟨u, hmem, by rw [hid], ho.symm⟩))
  · exact h.claims id o (.inr (.inr hp))

theorem Wf.modifyUpload (h : Wf w) (n : Nat) {f : UploadTransfer → UploadTransfer}
    (hf : ∀ u, (f u).id = u.id ∧ (f u).owner = u.owner) : Wf (w.modifyUpload n f) := by
  refine h.setUploads _ fun u' hu' => ?_
  obtain ⟨u, hu, rfl⟩ := List.mem_map.mp hu'
  refine ⟨u, hu, ?_⟩
  by_cases hid : u.id = n
  · rw [if_pos hid]
    exact ⟨(hf u).1.symm, (hf u).2.symm⟩
  · rw [if_neg hid]
    exact ⟨rfl, rfl⟩

/-- The tasks stream over links that fit. -/
theorem Wf.setTasks (h : Wf w) {tasks : List UploadTask}
    (ht : ∀ t ∈ tasks, Fits w (.transfer t.upload) t.link) : Wf { w with tasks } := by
  refine ⟨h.claims, ?_, h.looks, h.fresh⟩
  rintro id link (hd | ⟨t, hmem, rfl, rfl⟩ | hrest)
  · exact h.uses id link (.inl hd)
  · exact ht t hmem
  · exact h.uses id link (.inr (.inr hrest))

theorem Wf.fits_task (h : Wf w) (ht : t ∈ w.tasks) : Fits w (.transfer t.upload) t.link :=
  h.uses _ _ (.inr (.inl ⟨t, ht, rfl, rfl⟩))

theorem Wf.setTask (h : Wf w) {i : Nat} {t' : UploadTask} (ht : w.tasks[i]? = some t)
    (hu : t'.upload = t.upload) (hl : t'.link = t.link) : Wf (w.setTask i t') := by
  refine h.setTasks fun x hx => ?_
  obtain hx | rfl := List.mem_or_eq_of_mem_set hx
  · exact h.fits_task hx
  · rw [hu, hl]
    exact h.fits_task (List.mem_of_getElem? ht)

/-- The probes are the same, but for whether they wait. -/
theorem Wf.stopWaiting (h : Wf w) (n : Nat) : Wf (w.stopWaiting n) := by
  have hold : ∀ p' ∈ (w.stopWaiting n).probes, ∃ p ∈ w.probes, p.id = p'.id ∧ p.owner = p'.owner ∧
      p.link = p'.link := by
    intro p' hp'
    obtain ⟨p, hp, rfl⟩ := List.mem_map.mp hp'
    refine ⟨p, hp, ?_⟩
    split <;> exact ⟨rfl, rfl, rfl⟩
  refine ⟨?_, ?_, h.looks, h.fresh⟩
  · rintro id o (hd | hu | ⟨p', hp', rfl, rfl⟩)
    · exact h.claims id o (.inl hd)
    · exact h.claims id o (.inr (.inl hu))
    · obtain ⟨p, hp, hid, ho, -⟩ := hold p' hp'
      exact h.claims _ _ (.inr (.inr ⟨p, hp, by rw [hid], ho.symm⟩))
  · rintro id link (hd | ht | ⟨p', hp', rfl, rfl⟩ | hl)
    · exact h.uses id link (.inl hd)
    · exact h.uses id link (.inr (.inl ht))
    · obtain ⟨p, hp, hid, -, hlink⟩ := hold p' hp'
      exact h.uses _ _ (.inr (.inr (.inl ⟨p, hp, by rw [hid], hlink.symm⟩)))
    · exact h.uses id link (.inr (.inr (.inr hl)))

/-- Changes of links that keep their owners. -/
theorem ownerOf_modify (w : World) (link : Nat) {f : Link → Link} (hf : ∀ l, (f l).owner = l.owner)
    (k : Nat) : ({ w with links := w.links.modify link f } : World).ownerOf k = w.ownerOf k := by
  rw [World.ownerOf, World.ownerOf, List.getElem?_modify]
  cases w.links[k]? with
  | none => simp
  | some l =>
    by_cases hk : link = k
    · simp [hk, hf]
    · simp [hk]

/-- What is put on a link belongs to its owner. -/
theorem Wf.setLinks (h : Wf w) (link : Nat) {f : Link → Link} (hf : ∀ l, (f l).owner = l.owner)
    (hout : ∀ l p, p ∈ (f l).outbound → p ∈ l.outbound ∨ Fits w p.id link) :
    Wf { w with links := w.links.modify link f } := by
  have howner := ownerOf_modify w link hf
  have hfits : ∀ id k, Fits w id k → Fits { w with links := w.links.modify link f } id k := by
    rintro id k ⟨o, hs, ho⟩
    exact ⟨o, hs, (howner k).trans ho⟩
  refine ⟨h.claims, ?_, fun c hc => (howner c.link).trans (h.looks c hc), h.fresh⟩
  rintro id k (hd | ht | hp | ⟨l', hl', p, hp, rfl⟩)
  · exact hfits _ _ (h.uses id k (.inl hd))
  · exact hfits _ _ (h.uses id k (.inr (.inl ht)))
  · exact hfits _ _ (h.uses id k (.inr (.inr (.inl hp))))
  · obtain ⟨rfl, l, hl, rfl⟩ | ⟨-, hl⟩ := Table.modify_cases hl'
    · obtain hp | hp := hout l p hp
      · exact hfits _ _ (h.uses p.id k (.inr (.inr (.inr ⟨l, hl, p, hp, rfl⟩))))
      · exact hfits _ _ hp
    · exact hfits _ _ (h.uses p.id k (.inr (.inr (.inr ⟨l', hl, p, hp, rfl⟩))))

theorem Wf.put (h : Wf w) {packets : List Packet} (hp : ∀ p ∈ packets, Fits w p.id link) :
    Wf (w.put link packets) := by
  refine h.setLinks link (fun _ => rfl) fun l p hmem => ?_
  obtain hmem | hmem := List.mem_append.mp hmem
  · exact .inl hmem
  · exact .inr (hp p hmem)

theorem fits_put {packets : List Packet} {k : Nat} (h : Fits w id k) :
    Fits (w.put link packets) id k := by
  obtain ⟨o, hs, ho⟩ := h
  refine ⟨o, hs, ?_⟩
  rw [← ho]
  refine ownerOf_modify w link ?_ k
  exact fun _ => rfl

theorem Wf.tell (h : Wf w) (told : List Notice) : Wf { w with told } :=
  ⟨h.claims, h.uses, h.looks, h.fresh⟩

theorem Wf.emit (h : Wf w) {out : Out} (hp : ∀ f ∈ out.sent, Fits w (.transfer f.number) link) :
    Wf (w.emit link out) := by
  refine (h.tell _).put fun p hmem => ?_
  obtain ⟨f, hf, rfl⟩ := List.mem_map.mp hmem
  exact hp f hf

/-! ## Steps -/

theorem Wf.fits_claim (h : Wf w) (hc : Claims w id o) (hl : w.ownerOf link = some o) :
    Fits w id link :=
  ⟨o, h.claims id o hc, hl⟩

/-- A transfer with a new id. -/
def Fresh (w : World) (id : TransferId) : Prop := id = .transfer w.nextId ∨ id = .probe w.nextId

theorem Wf.started_fresh (h : Wf w) (hid : Fresh w id) : w.started id = none := by
  obtain rfl | rfl := hid
  · exact (h.fresh _ (Nat.le_refl _)).1
  · exact (h.fresh _ (Nat.le_refl _)).2

/-- A transfer is started; nothing knows it yet. -/
theorem Wf.start (h : Wf w) (hid : Fresh w id) (o : TransferOwner) (downloads : Downloads)
    (hd : downloads.unfinished = w.downloads.unfinished) (hn : downloads.nextId = w.nextId + 1) :
    Wf { w with downloads, started := Function.update w.started id (some o) } := by
  have hold : ∀ id' o', w.started id' = some o' →
      Function.update w.started id (some o) id' = some o' := by
    intro id' o' hs
    have hne : id' ≠ id := by
      rintro rfl
      rw [h.started_fresh hid] at hs
      cases hs
    rw [Function.update_of_ne hne]
    exact hs
  refine ⟨?_, ?_, h.looks, ?_⟩
  · rintro id' o' (⟨d, hmem, hrest⟩ | hother)
    · exact hold _ _ (h.claims id' o' (.inl ⟨d, hd ▸ hmem, hrest⟩))
    · exact hold _ _ (h.claims id' o' (.inr hother))
  · intro id' link huse
    obtain ⟨o', hs, ho⟩ := h.uses id' link huse
    exact ⟨o', hold _ _ hs, ho⟩
  · intro n hle
    have hlt : w.nextId < n := by
      rw [World.nextId, hn] at hle
      exact hle
    have hne : TransferId.transfer n ≠ id ∧ TransferId.probe n ≠ id := by
      obtain rfl | rfl := hid
      · exact ⟨by simp; omega, by simp⟩
      · exact ⟨by simp, by simp; omega⟩
    obtain ⟨ht, hp⟩ := h.fresh n (Nat.le_of_lt hlt)
    exact ⟨(Function.update_of_ne hne.1 _ _).trans ht, (Function.update_of_ne hne.2 _ _).trans hp⟩

theorem Wf.begin (h : Wf w) (hid : Fresh w id) (o : TransferOwner) : Wf (w.begin id o) :=
  h.start hid o _ rfl rfl

theorem fits_begin (hl : w.ownerOf link = some o) : Fits (w.begin id o) id link :=
  ⟨o, Function.update_self _ _ _, hl⟩

/-- A download is started for the owner of the link. -/
theorem Wf.download (h : Wf w) (hl : w.ownerOf c.link = some c.owner) (remotePath : String)
    (target : DownloadTarget) (allowOutsideHome queued : Bool) :
    Wf (w.download c remotePath target allowOutsideHome queued) := by
  have hstart : Wf { w with
      downloads := (w.downloads.register c.owner remotePath target allowOutsideHome).1
      started := Function.update w.started (.transfer w.nextId) (some c.owner) } := by
    have hold := h.start (.inl rfl) c.owner { w.downloads with nextId := w.nextId + 1 } rfl rfl
    refine ⟨?_, hold.uses, hold.looks, hold.fresh⟩
    rintro id o (⟨d, hd, rfl, rfl⟩ | hother)
    · obtain hd | hd := List.mem_append.mp hd
      · obtain rfl | ⟨hin, -⟩ := Rows.mem_put.mp hd
        · exact Function.update_self _ _ _
        · exact hold.claims _ _ (.inl ⟨d, List.mem_append_left _ hin, rfl, rfl⟩)
      · exact hold.claims _ _ (.inl ⟨d, List.mem_append_right _ hd, rfl, rfl⟩)
    · exact hold.claims id o (.inr hother)
  unfold World.download
  dsimp only
  split
  · refine hstart.emit fun f hf => ?_
    obtain rfl := List.mem_singleton.mp hf
    exact ⟨c.owner, Function.update_self _ _ _, hl⟩
  · refine hstart.setDownloads _ (fun d' hd' => ⟨d', ?_, rfl, rfl⟩) (Downloads.nextId_unregister _ _)
    unfold Downloads.unregister at hd'
    split at hd'
    · exact hd'
    · exact Downloads.unfinished_abandon hd'

/-- A new row of an upload that was started. -/
theorem Wf.addUpload (h : Wf w) (hs : w.started (.transfer u.id) = some u.owner) :
    Wf { w with uploads := w.uploads ++ [u] } := by
  refine ⟨?_, h.uses, h.looks, h.fresh⟩
  rintro id o (hd | ⟨u', hu', rfl, rfl⟩ | hp)
  · exact h.claims id o (.inl hd)
  · obtain hu' | hu' := List.mem_append.mp hu'
    · exact h.claims _ _ (.inr (.inl ⟨u', hu', rfl, rfl⟩))
    · rw [List.mem_singleton.mp hu']
      exact hs
  · exact h.claims id o (.inr (.inr hp))

theorem Wf.spawnUploadRange (h : Wf w) (hf : Fits w (.transfer u.id) link) (fromSeq : Nat) :
    Wf (w.spawnUploadRange u link fromSeq) := by
  have hmod : Wf (w.modifyUpload u.id fun u => { u with epoch := u.epoch + 1 }) :=
    h.modifyUpload u.id fun _ => ⟨rfl, rfl⟩
  refine hmod.setTasks fun t ht => ?_
  obtain ht | ht := List.mem_append.mp ht
  · exact h.fits_task ht
  · rw [List.mem_singleton.mp ht]
    exact hf

/-- So is an upload, -/
theorem Wf.upload (h : Wf w) (hl : w.ownerOf c.link = some c.owner) (remotePath : String)
    (size : Nat)
    (mode : Option Nat) (allowOutsideHome : Bool) :
    Wf (w.upload c remotePath size mode allowOutsideHome) := by
  have hbegin : Wf (w.begin (.transfer w.nextId) c.owner) := h.begin (.inl rfl) c.owner
  have hs : (w.begin (.transfer w.nextId) c.owner).started (.transfer w.nextId) = some c.owner :=
    Function.update_self _ _ _
  have hfits : Fits (w.begin (.transfer w.nextId) c.owner) (.transfer w.nextId) c.link :=
    fits_begin hl
  unfold World.upload
  dsimp only
  split
  · refine Wf.spawnUploadRange (Wf.put (hbegin.addUpload hs) fun p hp => ?_) ?_ 0
    · rw [List.mem_singleton.mp hp]
      exact hfits
    · exact fits_put hfits
  · exact hbegin.addUpload hs

/-- and so is a probe. -/
theorem Wf.probe (h : Wf w) (hl : w.ownerOf c.link = some c.owner) (remotePath : String)
    (allowOutsideHome queued : Bool) : Wf (w.probe c remotePath allowOutsideHome queued) := by
  have hbegin : Wf (w.begin (.probe w.nextId) c.owner) := h.begin (.inr rfl) c.owner
  have hfits : Fits (w.begin (.probe w.nextId) c.owner) (.probe w.nextId) c.link := fits_begin hl
  have hadd : Wf { w.begin (.probe w.nextId) c.owner with
      probes := w.probes ++ [{ id := w.nextId, owner := c.owner, link := c.link, waiting := queued }] } := by
    refine ⟨?_, ?_, hbegin.looks, hbegin.fresh⟩
    · rintro id o (hd | hu | ⟨p, hp, rfl, rfl⟩)
      · exact hbegin.claims id o (.inl hd)
      · exact hbegin.claims id o (.inr (.inl hu))
      · obtain hp | hp := List.mem_append.mp hp
        · exact hbegin.claims _ _ (.inr (.inr ⟨p, hp, rfl, rfl⟩))
        · rw [List.mem_singleton.mp hp]
          exact Function.update_self _ _ _
    · rintro id k (hd | ht | ⟨p, hp, rfl, rfl⟩ | hk)
      · exact hbegin.uses id k (.inl hd)
      · exact hbegin.uses id k (.inr (.inl ht))
      · obtain hp | hp := List.mem_append.mp hp
        · exact hbegin.uses _ _ (.inr (.inr (.inl ⟨p, hp, rfl, rfl⟩)))
        · rw [List.mem_singleton.mp hp]
          exact hfits
      · exact hbegin.uses id k (.inr (.inr (.inr hk)))
  unfold World.probe
  dsimp only
  split
  · refine hadd.put fun p hp => ?_
    rw [List.mem_singleton.mp hp]
    exact hfits
  · exact hadd

theorem Wf.fail (h : Wf w) {i : Nat} (ht : w.tasks[i]? = some t) (message : String) :
    Wf (w.fail i t u message) := by
  have hset : Wf (w.setTask i { t with phase := .ended }) := h.setTask ht rfl rfl
  unfold World.fail
  dsimp only
  split
  · exact hset
  · have hmod : Wf ((w.setTask i { t with phase := .ended }).modifyUpload u.id fun u =>
        { u with cancelled := true, registered := false }) :=
      hset.modifyUpload u.id fun _ => ⟨rfl, rfl⟩
    exact hmod.tell _

theorem Wf.check (h : Wf w) {i : Nat} (ht : w.tasks[i]? = some t) : Wf (w.check i t u) := by
  unfold World.check
  split
  · exact h.setTask ht rfl rfl
  · exact h.setTask ht rfl rfl

theorem Wf.read (h : Wf w) {i : Nat} (ht : w.tasks[i]? = some t) (result : Except String Bytes) :
    Wf (w.read i t u result) := by
  unfold World.read
  split
  · exact h.fail ht _
  · exact h.setTask ht rfl rfl
  · dsimp only
    split
    · exact h.setTask ht rfl rfl
    · exact h.setTask ht rfl rfl

/-- A task sends on its own link, about its own upload. -/
theorem Wf.send (h : Wf w) {i : Nat} (ht : w.tasks[i]? = some t) (hu : t.upload = u.id) :
    Wf (w.send blake3 i t u) := by
  have hfits : Fits w (.transfer u.id) t.link := hu ▸ h.fits_task (List.mem_of_getElem? ht)
  unfold World.send
  dsimp only
  split
  · split
    · refine Wf.put (Wf.tell ?_ _) fun p hp => ?_
      · exact h.setTask ht rfl rfl
      · rw [List.mem_singleton.mp hp]
        exact hfits
    · exact h.fail ht _
  · split
    · refine Wf.put ?_ fun p hp => ?_
      · exact h.setTask ht rfl rfl
      · rw [List.mem_singleton.mp hp]
        exact hfits
    · exact h.fail ht _
  · exact h

theorem Wf.onTask (h : Wf w) {i : Nat} {f : UploadTask → UploadTransfer → World}
    (hf : ∀ t u, w.tasks[i]? = some t → t.upload = u.id → Wf (f t u)) : Wf (w.onTask i f) := by
  unfold World.onTask
  split
  · exact h
  next t ht =>
  split
  · exact h
  next u hu => exact hf t u ht (Rows.key_of_find hu).symm

/-! ## Frames -/

/-- An answer goes to the owner. -/
theorem Wf.answer (h : Wf w) (hl : w.ownerOf link = some owner) (n : Nat)
    (result : Except String Unit)
    {cancel : Option Nat} (hc : ∀ k ∈ cancel, k = link) : Wf (w.answer n owner result cancel) := by
  unfold World.answer
  split
  · exact h
  next p hp =>
  obtain ⟨hf, ho⟩ := Option.filter_eq_some_iff.mp hp
  have howner : p.owner = owner := by simpa using (Bool.and_eq_true_iff.mp ho).2
  have hstop := h.stopWaiting p.id
  have hanswer : Wf { w.stopWaiting p.id with answers := w.answers ++ [(p.id, result)] } :=
    ⟨hstop.claims, hstop.uses, hstop.looks, hstop.fresh⟩
  dsimp only
  split
  · exact hanswer
  · next k =>
    refine hanswer.put fun x hx => ?_
    rw [List.mem_singleton.mp hx, hc k rfl]
    exact h.fits_claim (.inr (.inr ⟨p, Rows.mem_of_find hf, rfl, howner.symm⟩)) hl

theorem ownedUpload_eq (h : w.ownedUpload n owner = some u) :
    u ∈ w.uploads ∧ u.id = n ∧ u.owner = owner := by
  obtain ⟨hf, ho⟩ := Option.filter_eq_some_iff.mp h
  exact ⟨Rows.mem_of_find hf, Rows.key_of_find hf, by simpa using (Bool.and_eq_true_iff.mp ho).2⟩

theorem mem_unfinished_owned {d : DownloadTransfer} (h : w.downloads.owned n owner = some d) :
    Claims w (.transfer n) owner := by
  obtain ⟨hd, hid, ho⟩ := Downloads.owned_eq h
  exact .inl ⟨d, List.mem_append_left _ hd, by rw [hid], ho.symm⟩

/-- Frames about a chunk are about its download, which the owner has. -/
theorem sent_onFileChunk {s : Downloads} {seq : Nat} {bytes : Bytes} {f : Frame}
    (hf : f ∈ (s.onFileChunk owner n seq bytes os).2.sent) :
    f.number = n ∧ ∃ d, s.owned n owner = some d := by
  unfold Downloads.onFileChunk at hf
  split at hf
  · cases hf
  next d howned =>
  split at hf
  · exact ⟨by rw [List.mem_singleton.mp hf]; rfl, d, howned⟩
  split at hf
  · exact ⟨by rw [List.mem_singleton.mp hf]; rfl, d, howned⟩
  split at hf
  · cases hf
  split at hf
  · exact ⟨by rw [List.mem_singleton.mp hf]; rfl, d, howned⟩
  · cases hf

theorem Wf.failDownload (h : Wf w) (n : Nat) (owner : TransferOwner) :
    Wf (w.failDownload n owner) := by
  unfold World.failDownload
  split
  · exact h
  · refine h.setDownloads _ (fun d' hd' => ?_) (Downloads.nextId_abandon _ _)
    exact ⟨d', Downloads.unfinished_abandon hd', rfl, rfl⟩

theorem Wf.failUpload (h : Wf w) (n : Nat) (owner : TransferOwner) : Wf (w.failUpload n owner) := by
  unfold World.failUpload
  split
  · exact h
  · refine h.modifyUpload _ ?_
    exact fun _ => ⟨rfl, rfl⟩

/-- A frame of a link finds only what belongs to its owner. -/
theorem Wf.onFrame (h : Wf w) (hl : w.ownerOf link = some owner) (os : Os) (frame : HostFrame) :
    Wf (w.onFrame link owner os frame) := by
  cases frame with
  | fileChunk id seq bytes =>
    cases id with
    | probe n => exact h.answer hl n _ fun k hk => (Option.mem_some.mp hk).symm
    | transfer n =>
      refine Wf.emit (h.setDownloads _ (fun d' hd' => ?_) (Downloads.nextId_onFileChunk ..)) fun f hf => ?_
      · obtain ⟨d, hd, hid, ho, -⟩ := Downloads.unfinished_onFileChunk hd'
        exact ⟨d, hd, hid, ho⟩
      · obtain ⟨hn, d, hd⟩ := sent_onFileChunk hf
        rw [hn]
        exact h.fits_claim (mem_unfinished_owned hd) hl
  | fileDone id size checksum =>
    cases id with
    | probe n => exact h.answer hl n _ fun k hk => absurd hk (Option.not_mem_none k)
    | transfer n =>
      simp only [World.onFrame]
      split
      · next downloads hd =>
        have hset : Wf { w with downloads } := by
          refine h.setDownloads _ (fun d' hd' => ?_) ?_
          · exact ⟨d', Downloads.unfinished_onFileDone hd hd', rfl, rfl⟩
          · obtain ⟨d, -, rfl⟩ := Option.map_eq_some_iff.mp hd
            rfl
        refine ⟨hset.claims, ?_, hset.looks, hset.fresh⟩
        rintro id k (⟨m, hm, rfl⟩ | hrest)
        · obtain hm | hm := List.mem_append.mp hm
          · exact hset.uses _ _ (.inl ⟨m, hm, rfl⟩)
          · obtain ⟨rfl, rfl⟩ := Prod.mk.inj (List.mem_singleton.mp hm)
            obtain ⟨d, hd, -⟩ := Option.map_eq_some_iff.mp hd
            exact h.fits_claim (mem_unfinished_owned hd) hl
        · exact hset.uses id k (.inr hrest)
      · split
        · exact h
        · refine Wf.tell (h.modifyUpload _ ?_) _
          exact fun _ => ⟨rfl, rfl⟩
  | fileRetry id fromSeq =>
    cases id with
    | probe n => exact h
    | transfer n =>
      simp only [World.onFrame]
      split
      · exact h
      · next u hu =>
        obtain ⟨hmem, -, ho⟩ := ownedUpload_eq hu
        exact h.spawnUploadRange (h.fits_claim (.inr (.inl ⟨u, hmem, rfl, ho.symm⟩)) hl) fromSeq
  | fileErr id reason =>
    cases id with
    | probe n => exact h.answer hl n _ fun k hk => absurd hk (Option.not_mem_none k)
    | transfer n =>
      have hfail := (h.failDownload n owner).failUpload n owner
      simp only [World.onFrame]
      split
      · exact hfail.tell _
      · exact hfail

/-! ## Whole runs -/

theorem Wf.cancelDownloads (h : Wf w) (owner : TransferOwner) : Wf (w.cancelDownloads owner) := by
  refine Wf.tell (h.setDownloads _ (fun d' hd' => ?_) (Downloads.nextId_abandonAll _ _)) _
  exact ⟨d', Downloads.unfinished_abandonAll hd', rfl, rfl⟩

theorem Wf.cancelUploads (h : Wf w) (owner : TransferOwner) : Wf (w.cancelUploads owner) := by
  have hset : Wf { w with uploads := (w.cancelUploads owner).uploads } := by
    refine h.setUploads _ fun u' hu' => ?_
    obtain ⟨u, hu, rfl⟩ := List.mem_map.mp hu'
    refine ⟨u, hu, ?_⟩
    split <;> exact ⟨rfl, rfl⟩
  exact hset.tell _

/-- What a verified download sends is about itself. -/
theorem sent_finish {s : Downloads} {f : Frame}
    (hf : f ∈ (s.handle blake3 windows (.finish n os)).2.sent) : f.number = n := by
  simp only [Downloads.handle] at hf
  split at hf
  · cases hf
  next v hv =>
  have hid := Rows.key_of_find hv
  unfold Downloads.finish at hf
  dsimp only at hf
  split at hf
  · split at hf <;> rw [List.mem_singleton.mp hf] <;> exact hid
  · split at hf
    · cases hf
    split at hf
    · cases hf
    split at hf
    · cases hf
    split at hf <;> cases hf

theorem Wf.finish (h : Wf w) (hd : (n, link) ∈ w.dones) (os : Os) (dones : List (Nat × Nat))
    (hsub : ∀ x ∈ dones, x ∈ w.dones) :
    Wf (({ w with downloads := (w.downloads.handle blake3 windows (.finish n os)).1, dones }).emit link
      (w.downloads.handle blake3 windows (.finish n os)).2) := by
  have hset := h.setDownloads (w.downloads.handle blake3 windows (.finish n os)).1
    (fun _ hd' => Downloads.unfinished_finish hd') (Downloads.nextId_finish _ _ _)
  have hdones : Wf { w with
      downloads := (w.downloads.handle blake3 windows (.finish n os)).1, dones } := by
    refine ⟨hset.claims, ?_, hset.looks, hset.fresh⟩
    rintro id k (⟨m, hm, rfl⟩ | hrest)
    · exact hset.uses _ _ (.inl ⟨m, hsub _ hm, rfl⟩)
    · exact hset.uses id k (.inr hrest)
  refine hdones.emit fun f hf => ?_
  rw [sent_finish hf]
  exact h.uses _ _ (.inl ⟨n, hd, rfl⟩)

/-- A new link; those that are there keep their owners. -/
theorem Wf.connect (h : Wf w) (owner : TransferOwner) :
    Wf { w with
      links := w.links ++ [{ owner }]
      connection := some { link := w.links.length, owner } } := by
  have hold : ∀ k o, w.ownerOf k = some o →
      ((w.links ++ [({ owner } : Link)])[k]?).map Link.owner = some o := by
    intro k o hk
    obtain ⟨l, hl, rfl⟩ := Option.map_eq_some_iff.mp hk
    rw [Table.concat_some hl, Option.map_some]
  have hfits : ∀ id k, Fits w id k → Fits { w with
      links := w.links ++ [{ owner }], connection := some { link := w.links.length, owner } } id k := by
    rintro id k ⟨o, hs, ho⟩
    exact ⟨o, hs, hold k o ho⟩
  refine ⟨h.claims, ?_, ?_, h.fresh⟩
  · rintro id k (hd | ht | hp | ⟨l, hl, p, hp, rfl⟩)
    · exact hfits _ _ (h.uses id k (.inl hd))
    · exact hfits _ _ (h.uses id k (.inr (.inl ht)))
    · exact hfits _ _ (h.uses id k (.inr (.inr (.inl hp))))
    · obtain hl | ⟨-, rfl⟩ := Table.concat_cases hl
      · exact hfits _ _ (h.uses p.id k (.inr (.inr (.inr ⟨l, hl, p, hp, rfl⟩))))
      · cases hp
  · rintro c (hc | hc)
    · obtain rfl := Option.mem_some.mp hc
      simp [World.ownerOf]
    · exact hold _ _ (h.looks c (.inr hc))

/-- A new link is asked for the rest of the downloads of its pairing. -/
theorem Wf.resume (h : Wf w) (hl : w.ownerOf link = some owner) :
    Wf (w.emit link { sent := w.downloads.resume owner }) := by
  refine h.emit fun f hf => ?_
  obtain ⟨d, hd, rfl⟩ := List.mem_map.mp hf
  obtain ⟨hd, ho⟩ := List.mem_filter.mp hd
  exact h.fits_claim (.inl ⟨d, List.mem_append_left _ hd, rfl, (of_decide_eq_true ho).symm⟩) hl

theorem Wf.look (h : Wf w) : Wf { w with looks := w.looks ++ w.connection.toList } := by
  refine ⟨h.claims, h.uses, ?_, h.fresh⟩
  rintro c (hc | hc)
  · exact h.looks c (.inl hc)
  · obtain hc | hc := List.mem_append.mp hc
    · exact h.looks c (.inr hc)
    · exact h.looks c (.inl (Option.mem_toList.mp hc))

/-- The phone stops waiting and says so on the link of the probe. -/
theorem Wf.probeTimeout (h : Wf w) (hp : p ∈ w.probes) : Wf (w.probeTimeout p) := by
  refine (h.stopWaiting p.id).put fun x hx => ?_
  rw [List.mem_singleton.mp hx]
  exact h.uses _ _ (.inr (.inr (.inl ⟨p, hp, rfl, rfl⟩)))

theorem Wf.commit (h : Wf w) (n : Nat) (os : Os) :
    Wf { w with downloads := (w.downloads.handle blake3 windows (.commit n os)).1 } := by
  refine h.setDownloads _ (fun d' hd' => ⟨d', ?_, rfl, rfl⟩) (Downloads.nextId_commit _ _ _)
  simp only [Downloads.handle] at hd'
  split at hd'
  · exact hd'
  unfold Downloads.commit at hd'
  dsimp only at hd'
  split at hd' <;> exact hd'

theorem Wf.discard (h : Wf w) (os : Os) :
    Wf { w with downloads := (w.downloads.handle blake3 windows (.discard os)).1 } := by
  refine h.setDownloads _ (fun d' hd' => ⟨d', ?_, rfl, rfl⟩) (Downloads.nextId_discard _ _)
  simp only [Downloads.handle] at hd'
  unfold Downloads.discard at hd'
  split at hd' <;> exact hd'

theorem ownerOf_eq {l : Link} (hl : w.links[link]? = some l) : w.ownerOf link = some l.owner := by
  rw [World.ownerOf, hl, Option.map_some]

theorem Wf.step (h : Wf w) (ev : Event) : Wf (w.step blake3 windows ev) := by
  cases ev with
  | connect owner => exact h.connect owner
  | cancelDownloads link =>
    simp only [World.step]
    split
    · exact h
    · exact h.cancelDownloads _
  | cancelUploads link =>
    simp only [World.step]
    split
    · exact h
    · exact h.cancelUploads _
  | resume link =>
    simp only [World.step]
    split
    · exact h
    · next hl => exact h.resume (ownerOf_eq hl)
  | disconnect =>
    refine ⟨h.claims, h.uses, fun c hc => h.looks c (.inr ?_), h.fresh⟩
    exact hc.resolve_left (Option.not_mem_none c)
  | loopEnds link =>
    refine h.setLinks link ?_ ?_
    · exact fun _ => rfl
    · exact fun _ _ hp => .inl hp
  | look => exact h.look
  | download look remotePath target allowOutsideHome queued =>
    simp only [World.step]
    split
    · exact h
    · next c hc => exact h.download (h.looks c (.inr (List.mem_of_getElem? hc))) _ _ _ _
  | upload look remotePath size mode allowOutsideHome =>
    simp only [World.step]
    split
    · exact h
    · next c hc => exact h.upload (h.looks c (.inr (List.mem_of_getElem? hc))) _ _ _ _
  | probe look remotePath allowOutsideHome queued =>
    simp only [World.step]
    split
    · exact h
    · next c hc => exact h.probe (h.looks c (.inr (List.mem_of_getElem? hc))) _ _ _
  | probeTimeout n =>
    simp only [World.step]
    split
    · exact h
    · next hp => exact h.probeTimeout (Rows.mem_of_find hp)
  | check i =>
    refine h.onTask fun t u ht _ => ?_
    split
    · exact h.check ht
    · exact h
  | read i result =>
    refine h.onTask fun t u ht _ => ?_
    split
    · exact h.read ht result
    · exact h
  | send i => exact h.onTask fun t u ht hu => h.send ht hu
  | frame link frame os =>
    simp only [World.step]
    split
    · exact h
    next l hl =>
    split
    · exact h
    · exact h.onFrame (ownerOf_eq hl) os frame
  | finish link n os =>
    simp only [World.step]
    split
    · next hd => exact h.finish hd os _ fun x hx => (List.mem_filter.mp hx).1
    · exact h
  | commit n os =>
    have hset : Wf { w with downloads := (w.downloads.handle blake3 windows (.commit n os)).1 } :=
      h.commit n os
    exact hset.tell _
  | discard os =>
    have hset : Wf { w with downloads := (w.downloads.handle blake3 windows (.discard os)).1 } :=
      h.discard os
    exact hset.tell _

theorem wf_start (files documents : String → Option Bytes) : Wf (World.start files documents) := by
  refine ⟨?_, ?_, ?_, fun _ _ => ⟨rfl, rfl⟩⟩
  · rintro id o (⟨d, hd, -⟩ | ⟨u, hu, -⟩ | ⟨p, hp, -⟩)
    · cases hd
    · cases hu
    · cases hp
  · rintro id k (⟨n, hn, -⟩ | ⟨t, ht, -⟩ | ⟨p, hp, -⟩ | ⟨l, hl, -⟩)
    · cases hn
    · cases ht
    · cases hp
    · cases hl
  · rintro c (hc | hc)
    · cases hc
    · cases hc

end Transfers

end Phone

end Portty
