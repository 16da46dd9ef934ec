import Portty.Transport.PeersRefine

/-!
# Reloading the store

The host replaces its store by the one it loads from the records at every connection, so an
operation must not leave in memory what it has not written.

* **`Mirrored s d`**: loading the records `d` gives `s`, the last host included.
* **`Op.mirrored`**: an operation all of whose calls succeed ends with a store that its records
  mirror.
* **`reload_agrees`**: after every sequence of such operations, the reloaded store answers every
  question as the one in memory.
-/

namespace Portty

open Records

namespace PeerStore

variable {B : Type} [Postcard B] {s t : PeerStore} {peer : DeviceId} {c : HandshakeCommit}
  {d : Disk RecordName B}

/-- The record of the last host decodes to the store's. -/
def LastIs (s : PeerStore) (b : Option B) : Prop := b.bind Codec.fromBytes = s.lastConnected

/-- The records decode to the store. -/
structure Mirrored (s : PeerStore) (d : Disk RecordName B) : Prop extends Loaded s d where
  lastConnected : s.LastIs (d .lastHost).current

theorem mirrored_iff : s.Mirrored d ↔ ((loadFrom (B := B)).exec [] d).1 = .ok s := by
  rw [loadFrom_exec]
  constructor
  · intro h
    rw [h.map, h.pairState, h.grace, h.revocations, h.lastConnected]
    rfl
  · intro h
    have hl := loaded_of_loadFrom ((loadFrom_exec d).trans h)
    rw [hl.revocations] at h
    exact ⟨hl, congrArg PeerStore.lastConnected (Except.ok.inj h)⟩

/-! ## The record of the last host -/

section LastHost

variable {b : Option B}

theorem rememberToken_last (h : s.LastIs b) (peer : DeviceId) (ticket : Option String)
    (token : ResumptionToken) (dur : Durability) :
    (s.rememberToken peer ticket token dur).follows .lastHost (fun x b => x.2.LastIs b) b := h

theorem installGeneration_last (h : s.LastIs b) (peer : DeviceId) (c : HandshakeCommit)
    (dur : Durability) :
    (s.installGeneration peer c dur).follows .lastHost (fun x b => x.2.LastIs b) b := h

/-- A commit leaves the last host. -/
theorem commitHandshake_last (h : s.LastIs b) (peer : DeviceId) (c : HandshakeCommit) :
    (s.commitHandshake peer c).follows .lastHost (fun x b => x.2.LastIs b) b := by
  unfold commitHandshake
  split
  · unfold commitResume
    split
    · exact h
    split
    · exact h
    split
    · exact h
    · exact h
  · unfold commitFresh
    split
    · exact h
    refine Prog.follows_bind (installGeneration_last h peer c _) fun x b hb => ?_
    obtain ⟨r | r, s'⟩ := x
    · exact hb
    · show (clearTombstone s' peer _).follows _ _ _
      unfold clearTombstone
      split
      · exact hb
      · exact hb

theorem dropGrace_last (h : s.LastIs b) (peer : DeviceId) :
    (s.dropGrace peer).follows .lastHost (fun s b => s.LastIs b) b := by
  unfold dropGrace persistGrace
  split
  · exact h
  dsimp only
  split
  · exact h
  · exact h

theorem stageGrace_last (h : s.LastIs b) (peer : DeviceId) (c : HandshakeCommit) :
    (s.stageGrace peer c).follows .lastHost (fun s b => s.LastIs b) b := by
  unfold stageGrace setGrace persistGrace
  split
  · dsimp only
    split
    · exact h
    · exact h
  · exact h

theorem commitHostHandshake_last (h : s.LastIs b) (peer : DeviceId) (c : HandshakeCommit)
    (r : ResumedWith) :
    (s.commitHostHandshake peer c r).follows .lastHost (fun x b => x.2.LastIs b) b := by
  unfold commitHostHandshake
  split
  · refine Prog.follows_bind (commitHandshake_last h peer c) fun x b hb => ?_
    obtain ⟨r | r, s'⟩ := x
    · exact hb
    · exact Prog.follows_bind (dropGrace_last hb peer) fun _ _ hb => hb
  · exact Prog.follows_bind (stageGrace_last h peer c) fun _ _ hb => commitHandshake_last hb peer c

/-- The record goes with the last host in memory. -/
theorem dropLastHost_last (h : s.LastIs b) (drop : Bool) :
    (s.dropLastHost drop).follows .lastHost (fun x b => x.2.LastIs b) b := by
  cases drop with
  | false => exact h
  | true => exact rfl

theorem revoke_last (h : s.LastIs b) (peer : DeviceId) (e : EventId) (now : Nat) :
    (s.revoke peer e now).follows .lastHost (fun x b => x.2.LastIs b) b := by
  refine StoreM.follows_write (by decide) (StoreM.follows_write (by decide) ?_)
  refine StoreM.follows_write (by decide) ?_
  refine Prog.follows_bind (dropGrace_last (by exact h) peer) fun s' b hb => ?_
  split
  · exact rfl
  · exact hb

theorem forget_last (h : s.LastIs b) (peer : DeviceId) :
    (s.forget peer).follows .lastHost (fun x b => x.2.LastIs b) b := by
  unfold forget
  split
  · exact h
  refine StoreM.follows_write (by decide) (StoreM.follows_write (by decide) ?_)
  exact Prog.follows_bind (dropGrace_last (by exact h) peer) fun s' b hb => dropLastHost_last hb _

theorem clear_last (h : s.LastIs b) :
    s.clear.follows .lastHost (fun x b => x.2.LastIs b) b := by
  unfold clear
  split
  · exact h
  refine StoreM.follows_write (by decide) (StoreM.follows_write (by decide) ?_)
  dsimp only
  split
  · exact dropLastHost_last (s := { s with map := ∅, pairState := ∅ }) h _
  · exact dropLastHost_last (s := { s with map := ∅, pairState := ∅, grace := ∅ }) h _

theorem setLastHost_last (h : s.LastIs b) (peer : DeviceId) :
    (s.setLastHost peer).follows .lastHost (fun x b => x.2.LastIs b) b := by
  unfold setLastHost
  split
  · exact h
  · exact Codec.fromBytes_toAllocvec peer

theorem remember_last (h : s.LastIs b) (peer : DeviceId) (ticket : Option String)
    (token : ResumptionToken) :
    (s.remember peer ticket token).follows .lastHost (fun x b => x.2.LastIs b) b := by
  unfold remember
  split
  · exact h
  · exact rememberToken_last h peer ticket token _

end LastHost

/-! ## The other records -/

/-- The program ends with a store that the records decode to, up to the last host. -/
def KeepsLoaded {α : Type} (s : PeerStore) (p : StoreM B (α × PeerStore)) : Prop :=
  ∃ x t, RunsTo p s x t ∧ t = { x.2 with lastConnected := t.lastConnected }

/-- After a commit the store is the one that its records give. -/
theorem commitHandshake_keepsLoaded (s : PeerStore) (peer : DeviceId) (c : HandshakeCommit) :
    s.KeepsLoaded (B := B) (s.commitHandshake peer c) := by
  cases href : s.refusal peer c with
  | some e =>
    rw [commitHandshake_refused href]
    exact ⟨_, _, .ret _, rfl⟩
  | none =>
    have href := refusal_eq_none_iff.mp href
    unfold commitHandshake
    split
    · rw [if_pos ‹_›] at href
      exact ⟨_, _, commitResume_runsTo rfl href.1 href.2, rfl⟩
    · rw [if_neg ‹_›] at href
      exact ⟨_, _, commitFresh_runsTo href, rfl⟩

theorem remember_keepsLoaded (s : PeerStore) (peer : DeviceId) (ticket : Option String)
    (token : ResumptionToken) : s.KeepsLoaded (B := B) (s.remember peer ticket token) := by
  unfold remember
  split
  · exact ⟨_, _, .ret _, rfl⟩
  · exact ⟨_, _, rememberToken_runsTo s peer ticket token _, rfl⟩

theorem setLastHost_keepsLoaded (s : PeerStore) (peer : DeviceId) :
    s.KeepsLoaded (B := B) (s.setLastHost peer) := by
  unfold setLastHost
  split
  · exact ⟨_, _, .ret _, rfl⟩
  · exact ⟨_, s, fun d h => ⟨_, rfl, h.map, h.pairState, h.revocations, h.grace⟩, rfl⟩

theorem dropLastHost_keepsLoaded (s : PeerStore) (drop : Bool) :
    s.KeepsLoaded (B := B) (s.dropLastHost drop) := by
  cases drop with
  | false => exact ⟨_, _, .ret _, rfl⟩
  | true => exact ⟨_, _, (removeLastHost_runsTo none).bind (.ret _), rfl⟩

/-- And so after a clear. -/
theorem clear_keepsLoaded (s : PeerStore) : s.KeepsLoaded (B := B) s.clear := by
  unfold clear
  split
  · exact ⟨_, _, .ret _, rfl⟩
  dsimp only
  split
  · obtain ⟨x, t, hx, ht⟩ := dropLastHost_keepsLoaded (B := B)
      { s with map := ∅, pairState := ∅ } s.lastConnected.isSome
    exact ⟨x, t, (persist_runsTo _ _).bind ((persistPairState_runsTo _).bind hx), ht⟩
  · obtain ⟨x, t, hx, ht⟩ := dropLastHost_keepsLoaded (B := B)
      { s with map := ∅, pairState := ∅, grace := ∅ } s.lastConnected.isSome
    exact ⟨x, t, (persist_runsTo _ _).bind ((persistPairState_runsTo _).bind
      ((persistGrace_runsTo _).bind hx)), ht⟩

/-- Without failures, an operation that keeps both parts keeps the store mirrored. -/
theorem Mirrored.exec {α : Type} {p : StoreM B (α × PeerStore)} (h : s.Mirrored d)
    (hp : s.KeepsLoaded p)
    (hl : p.follows .lastHost (fun x b => x.2.LastIs b) (d .lastHost).current) :
    (p.exec [] d).1.2.Mirrored (p.exec [] d).2.1 := by
  obtain ⟨x, t, hx, ht⟩ := hp
  have hlast := Prog.follows_exec hl
  obtain ⟨d', he, hd'⟩ := hx d h.toLoaded
  rw [he] at hlast ⊢
  rw [ht] at hd'
  exact ⟨⟨hd'.map, hd'.pairState, hd'.revocations, hd'.grace⟩, hlast⟩

theorem Mirrored.exec_some {α : Type} {p : StoreM B (α × PeerStore)} (h : s.Mirrored d)
    (hp : s.KeepsLoaded p)
    (hl : p.follows .lastHost (fun x b => x.2.LastIs b) (d .lastHost).current) :
    ∃ s' d' os, (do return some (← p).2 : StoreM B (Option PeerStore)).exec [] d =
      (some s', d', os) ∧ s'.Mirrored d' := by
  rw [Prog.exec_bind]
  exact ⟨_, _, _, rfl, h.exec hp hl⟩

theorem loadFrom_disk (d : Disk RecordName B) : ((loadFrom (B := B)).exec [] d).2.1 = d := by
  cases h : revocationsOf (d .revocations).current <;>
    simp [loadFrom, StoreM.andThen, StoreM.read, Prog.exec, Outcome.replyRead, h]

/-- Every operation, if its calls succeed, keeps the store mirrored. -/
theorem Mirrored.op (h : s.Mirrored d) (o : Op) :
    ∃ s' d' os, (o.prog s).exec [] d = (some s', d', os) ∧ s'.Mirrored d' := by
  have hl := h.lastConnected
  cases o with
  | commitHandshake peer c =>
    exact h.exec_some (commitHandshake_keepsLoaded s peer c) (commitHandshake_last hl peer c)
  | commitHostHandshake peer c r =>
    exact h.exec_some ⟨_, _, commitHostHandshake_refines s peer c r, rfl⟩
      (commitHostHandshake_last hl peer c r)
  | revoke peer e now =>
    exact h.exec_some ⟨_, _, revoke_refines s peer e now, rfl⟩ (revoke_last hl peer e now)
  | forget peer => exact h.exec_some ⟨_, _, forget_refines s peer, rfl⟩ (forget_last hl peer)
  | clear => exact h.exec_some (clear_keepsLoaded s) (clear_last hl)
  | remember peer ticket token =>
    exact h.exec_some (remember_keepsLoaded s peer ticket token) (remember_last hl peer ticket token)
  | setLastHost peer =>
    exact h.exec_some (setLastHost_keepsLoaded s peer) (setLastHost_last hl peer)
  | loadFrom =>
    refine ⟨s, d, ((loadFrom (B := B)).exec [] d).2.2, ?_, h⟩
    rw [Op.prog, Prog.exec_bind, mirrored_iff.mp h, loadFrom_disk]
    rfl

/-! ## Agreement -/

/-- The two stores answer alike. The last host is settled by the maps' iteration order if the last
connected one cannot be dialed. -/
structure Agrees (s s' : PeerStore) : Prop where
  tokens : s'.tokens = s.tokens
  graceTokens : s'.graceTokens = s.graceTokens
  pairId : s'.pairId = s.pairId
  revocation : s'.revocation = s.revocation
  knownDevices : s'.knownDevices = s.knownDevices
  records : s'.records = s.records
  knownHosts : s'.knownHosts = s.knownHosts
  lastHost : (s.lastConnected.bind s.dialable).isSome →
    ∀ iter iter', s'.lastHost iter' = s.lastHost iter

/-- The last connected host, if it can be dialed, does not depend on the iteration order. -/
theorem lastHost_eq (h : (s.lastConnected.bind s.dialable).isSome) (iter iter' : List DeviceId) :
    s.lastHost iter' = s.lastHost iter := by
  unfold lastHost
  cases hd : s.lastConnected.bind s.dialable with
  | none => rw [hd] at h; cases h
  | some x => rfl

theorem Agrees.refl (s : PeerStore) : s.Agrees s :=
  ⟨rfl, rfl, rfl, rfl, rfl, rfl, rfl, fun h iter iter' => lastHost_eq h iter iter'⟩

/-- In a run without failures and crashes, the process has a store and its records mirror it. -/
theorem mirrored_run (h : s.Mirrored d) (ops : List Op) :
    ∃ s', (Process.run ⟨some s, d⟩ (ops.map .call)).mem = some s' ∧
      s'.Mirrored (Process.run ⟨some s, d⟩ (ops.map .call)).disk := by
  induction ops generalizing s d with
  | nil => exact ⟨s, rfl, h⟩
  | cons o ops ih =>
    obtain ⟨s', d', os, he, h'⟩ := h.op o
    have hstep : Process.step ⟨some s, d⟩ (.call o) = ⟨some s', d'⟩ := by
      rw [Process.step, Process.prog_some rfl, he]
    rw [List.map_cons, Process.run_cons, hstep]
    exact ih h'

/-- After every sequence of operations whose calls succeed, on a store that was loaded from its
records, loading the records again gives a store that agrees with the one in memory. -/
theorem reload_agrees (d : Disk RecordName B) (s : PeerStore)
    (hload : ((loadFrom (B := B)).exec [] d).1 = .ok s) (ops : List Op) :
    ∃ mem reloaded, (Process.run ⟨some s, d⟩ (ops.map .call)).mem = some mem ∧
      ((loadFrom (B := B)).exec [] (Process.run ⟨some s, d⟩ (ops.map .call)).disk).1 =
        .ok reloaded ∧ mem.Agrees reloaded := by
  obtain ⟨mem, hm, hd⟩ := mirrored_run (mirrored_iff.mpr hload) ops
  exact ⟨mem, mem, hm, mirrored_iff.mp hd, .refl mem⟩

/-- A phone pairs with two hosts, connects to both and forgets the second. -/
def twoHosts : List Op :=
  [.commitHandshake ⟨1⟩ { Blob.freshPair 1 1 none with ticket := some "a" }, .setLastHost ⟨1⟩,
    .commitHandshake ⟨2⟩ { Blob.freshPair 2 2 none with ticket := some "b" }, .setLastHost ⟨2⟩,
    .forget ⟨2⟩]

theorem reload_agrees_two_hosts :
    ∃ mem reloaded,
      (Process.run ⟨some ⟨∅, ∅, ∅, ∅, none⟩, Blob.empty⟩ (twoHosts.map .call)).mem = some mem ∧
      mem.token ⟨1⟩ = some ⟨1⟩ ∧ mem.token ⟨2⟩ = none ∧ mem.lastConnected = none ∧
      mem.Agrees reloaded := by
  obtain ⟨mem, reloaded, hm, -, ha⟩ := reload_agrees (B := Blob) Blob.empty ⟨∅, ∅, ∅, ∅, none⟩
    (by decide) twoHosts
  have hmem : (Process.run ⟨some ⟨∅, ∅, ∅, ∅, none⟩, Blob.empty⟩ (twoHosts.map .call)).mem.map
      (fun s => (s.token ⟨1⟩, s.token ⟨2⟩, s.lastConnected)) = some (some ⟨1⟩, none, none) := by
    decide
  rw [hm] at hmem
  obtain ⟨h₁, h₂, h₃⟩ : mem.token ⟨1⟩ = some ⟨1⟩ ∧ mem.token ⟨2⟩ = none ∧
      mem.lastConnected = none := by
    simpa using hmem
  exact ⟨mem, reloaded, hm, h₁, h₂, h₃, ha⟩

end PeerStore

end Portty
