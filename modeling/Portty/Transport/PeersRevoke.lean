import Portty.Transport.PeersExec

/-!
# A revoke that fails

`revoke` writes the revocation record first, and returns an error only if this write fails. It then
takes the new tombstone back from memory by removing the peer's entry.

* **`revoke_exec_failed`, `revoke_exec_ok`**: what `revoke` returns and leaves in memory, for any
  outcomes of its calls.
* **`revoke_failed_changes_nothing_iff`**: a failed revoke leaves the store as it was exactly for a
  peer without a tombstone: a tombstone that the peer had before is removed as well.
-/

namespace Portty

open Records

namespace PeerStore

variable {B : Type} [Postcard B] {os : List (Outcome IoError)}

/-- The rollback of `revoke`. -/
theorem erase_insert_revocations (s : PeerStore) (peer : DeviceId) (r : RevocationRecord) :
    (s.revocations.insert peer r).erase peer = s.revocations.erase peer := by
  apply FMap.ext_at peer
  · simp
  · intro x hx
    simp [hx]

/-- If the tombstone cannot be written, the error is returned and memory loses the peer's
tombstone. -/
theorem revoke_exec_failed (s : PeerStore) (peer : DeviceId) (e : EventId) (now : Nat)
    (d : Disk RecordName B) (h : (os.getD 0 .ok).failed = true) :
    ∃ err, ((s.revoke peer e now).exec os d).1 =
      (.error err, { s with revocations := s.revocations.erase peer }) := by
  rw [revoke, Prog.exec_bind, persistRevocations, write_exec]
  cases h0 : os.getD 0 .ok with
  | ok => rw [h0] at h; cases h
  | failedOld err | failedNew err =>
    refine ⟨err, ?_⟩
    simp only [Outcome.reply, erase_insert_revocations]
    rfl

theorem dropGrace_spares (s : PeerStore) (peer : DeviceId) :
    (s.dropGrace (B := B) peer).spares .revocations fun s' => s'.revocations = s.revocations := by
  unfold dropGrace persistGrace
  split
  · exact rfl
  dsimp only
  split
  · exact ⟨by decide, fun _ => rfl⟩
  · exact ⟨by decide, fun _ => rfl⟩

/-- The clean-up of a revoke does not touch the tombstones. -/
theorem revoke_cleanup_spares (s : PeerStore) (peer : DeviceId) (r : RevocationRecord) :
    (do
      let _ ← s.persist .required
      let _ ← s.persistPairState
      let s ← s.dropGrace peer
      if s.lastConnected = some peer then
        let _ ← StoreM.remove .lastHost
        return (Except.ok r, { s with lastConnected := none })
      else return (.ok r, s) : StoreM B (Except IoError RevocationRecord × PeerStore)).spares
        .revocations fun x => x.1 = .ok r ∧ x.2.revocations = s.revocations := by
  refine StoreM.spares_write (by decide) fun _ => StoreM.spares_write (by decide) fun _ => ?_
  refine Prog.spares_bind (dropGrace_spares s peer) fun s' hs' => ?_
  split
  · exact ⟨by decide, fun _ => ⟨rfl, hs'⟩⟩
  · exact ⟨rfl, hs'⟩

/-- Once the tombstone is written, `revoke` succeeds, and the record holds the tombstones of
memory. -/
theorem revoke_exec_ok (s : PeerStore) (peer : DeviceId) (e : EventId) (now : Nat)
    (d : Disk RecordName B) (h : (os.getD 0 .ok).failed = false) :
    ∃ s', ((s.revoke peer e now).exec os d).1 = (.ok (s.tombstone peer e now), s') ∧
      s'.revocations = s.revocations.insert peer (s.tombstone peer e now) ∧
      revocationsOf (((s.revoke peer e now).exec os d).2.1 .revocations).current =
        .ok s'.revocations := by
  rw [revoke, Prog.exec_bind, persistRevocations, write_exec]
  cases h0 : os.getD 0 .ok with
  | failedOld err | failedNew err => rw [h0] at h; cases h
  | ok =>
    obtain ⟨⟨hr, hs⟩, hd⟩ := Prog.spares_exec (revoke_cleanup_spares (B := B)
      { s with
        map := s.map.erase peer
        pairState := s.pairState.erase peer
        revocations := s.revocations.insert peer (s.tombstone peer e now) }
      peer (s.tombstone peer e now)) (os.drop 1)
      (Function.update d .revocations ((d .revocations).write (Codec.toAllocvec
        (s.revocations.insert peer (s.tombstone peer e now))) true .ok))
    refine ⟨_, Prod.ext hr rfl, hs, ?_⟩
    refine (congrArg (fun x : Slot B => revocationsOf x.current) hd).trans ?_
    rw [Function.update_self]
    exact (revocationsOf_toAllocvec _).trans (congrArg Except.ok hs.symm)

/-- If this revoke fails, the store in memory is as before; so whoever was revoked is, and the
record that a later revoke of another device writes still has the tombstones of before. -/
def FailedRevokeChangesNothing (s : PeerStore) (peer : DeviceId) (e : EventId) (now : Nat)
    (os : List (Outcome IoError)) (d : Disk RecordName B) : Prop :=
  ∀ err s', ((s.revoke peer e now).exec os d).1 = (.error err, s') →
    s' = s ∧ (∀ x, s.isRevoked x = true → s'.isRevoked x = true) ∧
    ∀ other e' now' os' d' r s'', ((s'.revoke other e' now').exec os' d').1 = (.ok r, s'') →
      ∃ m, revocationsOf (((s'.revoke (B := B) other e' now').exec os' d').2.1 .revocations).current
        = .ok m ∧ ∀ x, x ≠ other → m.lookup x = s.revocations.lookup x

/-- A failed revoke changes nothing in memory exactly if the peer had no tombstone. -/
theorem revoke_failed_changes_nothing_iff (s : PeerStore) (peer : DeviceId) (e : EventId)
    (now : Nat) (os : List (Outcome IoError)) (d : Disk RecordName B) :
    s.FailedRevokeChangesNothing peer e now os d ↔
      (os.getD 0 .ok).failed = false ∨ s.isRevoked peer = false := by
  constructor
  · intro h
    by_contra hc
    obtain ⟨hf, hr⟩ : (os.getD 0 .ok).failed = true ∧ s.isRevoked peer = true := by simpa using hc
    obtain ⟨err, hx⟩ := revoke_exec_failed s peer e now d hf
    have hrev := (h err _ hx).2.1 peer hr
    simp [isRevoked] at hrev
  · intro h err s' hx
    have hs' : s' = s := by
      cases hf : (os.getD 0 .ok).failed with
      | false =>
        obtain ⟨s₁, h₁, -⟩ := revoke_exec_ok s peer e now d hf
        rw [h₁] at hx
        cases hx
      | true =>
        obtain ⟨err', h₁⟩ := revoke_exec_failed s peer e now d hf
        have hr : s.isRevoked peer = false := h.resolve_left (by rw [hf]; decide)
        rw [h₁, FMap.erase_of_lookup_none (by simpa [isRevoked] using hr)] at hx
        exact (Prod.mk.inj hx).2.symm
    subst hs'
    refine ⟨rfl, fun x hx => hx, fun other e' now' os' d' r s'' hok => ?_⟩
    cases hf : (os'.getD 0 .ok).failed with
    | true =>
      obtain ⟨err', h₁⟩ := revoke_exec_failed s' other e' now' d' hf
      rw [h₁] at hok
      cases hok
    | false =>
      obtain ⟨s₁, -, hm, hd⟩ := revoke_exec_ok s' other e' now' d' hf
      refine ⟨_, hd, fun x hx => ?_⟩
      rw [hm, FMap.lookup_insert_ite, if_neg hx]

/-- The device 1 was paired and revoked; the write that should remove its token failed, and the
process was started again. -/
def revokedWithToken : Process Blob :=
  Process.boot ((((Blob.paired ⟨1⟩ 1 1).store.revoke (B := Blob) ⟨1⟩ 7 0).exec
    [.ok, .failedOld ⟨.other, "disk full"⟩] (Blob.paired ⟨1⟩ 1 1).disk).2.1)

/-- A second revoke of the device fails, and the device is no longer revoked: its old token is
accepted. -/
theorem failed_revoke_readmits :
    ¬ ∀ (s : PeerStore) (peer : DeviceId) (e : EventId) (now : Nat)
      (os : List (Outcome IoError)) (d : Disk RecordName Blob),
      s.FailedRevokeChangesNothing peer e now os d := by
  intro h
  let s := revokedWithToken.store
  let s' := ((s.revoke (B := Blob) ⟨1⟩ 8 1).exec [.failedOld ⟨.other, "disk full"⟩]
    revokedWithToken.disk).1.2
  have hbefore : s.isRevoked ⟨1⟩ = true ∧ ¬ s.Accepts ⟨1⟩ ⟨1⟩ := by decide
  have hafter : s'.isRevoked ⟨1⟩ = false ∧ s'.Accepts ⟨1⟩ ⟨1⟩ := by decide
  have hsame := (h s ⟨1⟩ 8 1 [.failedOld ⟨.other, "disk full"⟩] revokedWithToken.disk
    ⟨.other, "disk full"⟩ s' (by decide)).1
  exact hbefore.2 (hsame ▸ hafter.2)

end PeerStore

end Portty
