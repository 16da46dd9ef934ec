import Mathlib.Data.List.Dedup
import Portty.Lib.Run
import Portty.PushRelay.Relay

/-!
# The bounds of the tables of the push relay

In every run of the relay the table of devices keeps its bounds (`Bounded`), and a row is written or
revoked only by a request that proves the secret of its pseudonym (`Attested`).

The map `last_wake` is bounded by the table of devices as long as each of its pseudonyms has a
registration (`WakesRegistered`). This holds in the runs whose steps meet `Meets`; in those that
meet `Spares` a pseudonym without a registration is there only while a revocation is about to forget
it (`WakesHeld`). `last_wake_outlives_registration`: a registration that is reclaimed leaves its
pseudonym in `last_wake`.
-/

namespace Portty.PushRelay

open World

/-! ## The table of devices -/

/-- The pseudonyms under a token of a device. -/
def tokenHosts (devices : List Device) (token : String) : List String :=
  ((devices.filter (·.deviceToken = token)).map (·.hostPseudonym)).dedup

/-- The limits of the table. -/
structure Bounded (devices : List Device) : Prop where
  unique : Rows.Unique (·.key) devices
  length_le : devices.length ≤ maxDevices
  host_le : ∀ host, hostCount devices host ≤ maxDevicesPerHost
  token_le : ∀ token, (tokenHosts devices token).length ≤ maxPseudonymsPerToken

variable {devices devices' : List Device} {d : Device} {request : RegisterRequest} {now : Nat}
  {host token : String}

theorem mem_tokenHosts : host ∈ tokenHosts devices token ↔
    ∃ d ∈ devices, d.deviceToken = token ∧ d.hostPseudonym = host := by
  simp [tokenHosts, and_assoc]

theorem length_tokenHosts_le {l : List String} (h : tokenHosts devices token ⊆ l) :
    (tokenHosts devices token).length ≤ l.length :=
  (List.subperm_of_subset (List.nodup_dedup _) h).length_le

theorem tokenHosts_subset (h : devices' ⊆ devices) :
    tokenHosts devices' token ⊆ tokenHosts devices token := by
  intro host hm
  obtain ⟨d, hd, ht, hh⟩ := mem_tokenHosts.mp hm
  exact mem_tokenHosts.mpr ⟨d, h hd, ht, hh⟩

theorem bounded_nil : Bounded [] where
  unique := List.nodup_nil
  length_le := Nat.zero_le _
  host_le := fun _ => Nat.zero_le _
  token_le := fun _ => Nat.zero_le _

theorem Bounded.sublist (h : Bounded devices) (hs : devices'.Sublist devices) :
    Bounded devices' where
  unique := h.unique.sublist hs
  length_le := hs.length_le.trans h.length_le
  host_le := fun host => (hs.countP_le).trans (h.host_le host)
  token_le := fun token => (length_tokenHosts_le (tokenHosts_subset hs.subset)).trans (h.token_le token)

theorem Bounded.perm (h : Bounded devices) (hp : devices'.Perm devices) : Bounded devices' where
  unique := (hp.map _).nodup_iff.mpr h.unique
  length_le := hp.length_eq.le.trans h.length_le
  host_le := fun host => (hp.countP_eq _).le.trans (h.host_le host)
  token_le := fun token => (length_tokenHosts_le (tokenHosts_subset hp.subset)).trans (h.token_le token)

@[simp] theorem stamp_key (host : String) (now : Nat) (d : Device) :
    (stamp host now d).key = d.key := by
  unfold stamp
  split <;> rfl

@[simp] theorem stamp_host (host : String) (now : Nat) (d : Device) :
    (stamp host now d).hostPseudonym = d.hostPseudonym := by
  unfold stamp
  split <;> rfl

@[simp] theorem stamp_token (host : String) (now : Nat) (d : Device) :
    (stamp host now d).deviceToken = d.deviceToken := by
  unfold stamp
  split <;> rfl

/-- A stamp changes no key. -/
theorem Bounded.stamp (h : Bounded devices) (host : String) (now : Nat) :
    Bounded (devices.map (PushRelay.stamp host now)) where
  unique := by
    have hmap : (devices.map (PushRelay.stamp host now)).map (·.key) = devices.map (·.key) := by
      simp [List.map_map, Function.comp_def]
    rw [Rows.Unique, hmap]
    exact h.unique
  length_le := by
    rw [List.length_map]
    exact h.length_le
  host_le := by
    intro host'
    rw [hostCount, List.countP_map]
    simp only [Function.comp_def, stamp_host]
    exact h.host_le host'
  token_le := by
    intro token
    refine (length_tokenHosts_le ?_).trans (h.token_le token)
    intro host' hm
    obtain ⟨d', hd', ht, hh⟩ := mem_tokenHosts.mp hm
    obtain ⟨d, hd, rfl⟩ := List.mem_map.mp hd'
    rw [stamp_token] at ht
    rw [stamp_host] at hh
    exact mem_tokenHosts.mpr ⟨d, hd, ht, hh⟩

theorem reclaim_sublist (devices : List Device) (now : Nat) :
    (reclaimRegistrations devices now).Sublist devices := by
  unfold reclaimRegistrations
  dsimp only
  split
  · exact List.filter_sublist
  · exact List.filter_sublist.trans List.filter_sublist

/-- The pseudonyms of the token of a new row are those of the others and its own. -/
theorem tokenHosts_put_subset : tokenHosts (Rows.put (·.key) d devices) d.deviceToken ⊆
    d.hostPseudonym :: pseudonymsForToken devices d.deviceToken d.hostPseudonym := by
  intro host hm
  obtain ⟨d', hd, ht, rfl⟩ := mem_tokenHosts.mp hm
  rcases Rows.mem_put.mp hd with rfl | ⟨hd, -⟩
  · exact List.mem_cons_self
  · by_cases hh : d'.hostPseudonym = d.hostPseudonym
    · rw [hh]
      exact List.mem_cons_self
    · refine List.mem_cons_of_mem _ ?_
      simp only [pseudonymsForToken, List.mem_dedup, List.mem_map, List.mem_filter]
      exact ⟨d', ⟨hd, by simp [ht, hh]⟩, rfl⟩

/-- A token under fewer pseudonyms than the bound can be written. -/
theorem Bounded.token_put (h : Bounded devices)
    (ht : (pseudonymsForToken devices d.deviceToken d.hostPseudonym).length < maxPseudonymsPerToken)
    (token : String) :
    (tokenHosts (Rows.put (·.key) d devices) token).length ≤ maxPseudonymsPerToken := by
  by_cases htok : token = d.deviceToken
  · subst htok
    exact (length_tokenHosts_le tokenHosts_put_subset).trans ht
  · refine (length_tokenHosts_le ?_).trans (h.token_le token)
    intro host hm
    obtain ⟨d', hd, ht', hh⟩ := mem_tokenHosts.mp hm
    rcases Rows.mem_put.mp hd with rfl | ⟨hd, -⟩
    · exact absurd ht'.symm htok
    · exact mem_tokenHosts.mpr ⟨d', hd, ht', hh⟩

/-- A row with a new key. -/
theorem Bounded.insert (h : Bounded devices) (hnew : ∀ d' ∈ devices, d'.key ≠ d.key)
    (hlen : devices.length < maxDevices)
    (hhost : hostCount devices d.hostPseudonym < maxDevicesPerHost)
    (ht : (pseudonymsForToken devices d.deviceToken d.hostPseudonym).length < maxPseudonymsPerToken) :
    Bounded (Rows.put (·.key) d devices) where
  unique := h.unique.put d
  length_le := by
    rw [Rows.put_of_forall hnew, List.length_append]
    exact hlen
  host_le := by
    intro host
    rw [Rows.put_of_forall hnew, hostCount, List.countP_append, List.countP_singleton]
    split
    · rename_i hd
      rw [decide_eq_true_eq] at hd
      subst hd
      exact hhost
    · exact h.host_le host
  token_le := h.token_put ht

/-- A row replaces the one with its key. -/
theorem Bounded.replace (h : Bounded devices) {old : Device} (hold : old ∈ devices)
    (hk : old.key = d.key)
    (ht : (pseudonymsForToken devices d.deviceToken d.hostPseudonym).length < maxPseudonymsPerToken) :
    Bounded (Rows.put (·.key) d devices) := by
  have hp : devices.Perm (old :: Rows.remove (·.key) d.key devices) :=
    hk ▸ Rows.perm_remove h.unique hold
  have hp' : (Rows.put (·.key) d devices).Perm (d :: Rows.remove (·.key) d.key devices) :=
    List.perm_append_singleton _ _
  have hhost : old.hostPseudonym = d.hostPseudonym := congrArg Prod.fst hk
  exact
    { unique := h.unique.put d
      length_le := by
        rw [hp'.length_eq]
        exact hp.length_eq.symm.le.trans h.length_le
      host_le := by
        intro host
        rw [hostCount, hp'.countP_eq, List.countP_cons, ← hhost, ← List.countP_cons, ← hp.countP_eq]
        exact h.host_le host
      token_le := h.token_put ht }

/-- A new row is checked against the limits. -/
theorem Bounded.registerLocked (h : Bounded devices) (request : RegisterRequest) (now : Nat) :
    Bounded (registerLocked devices request now).2 := by
  unfold PushRelay.registerLocked
  dsimp only
  cases hf : Rows.find (·.key) (request.hostPseudonym, request.registrationId) devices with
  | none =>
    have hr := h.sublist (reclaim_sublist devices now)
    simp only [Option.isNone_none, ite_true, Bool.true_and]
    split
    · exact hr
    · split
      · exact hr
      · rename_i hcap htok
        simp only [Bool.or_eq_true, decide_eq_true_eq, not_or, not_le] at hcap htok
        refine hr.insert (fun d' hd => ?_) hcap.1 hcap.2 htok
        exact Rows.find_eq_none.mp hf d' ((reclaim_sublist devices now).subset hd)
  | some old =>
    simp only [Option.isNone_some, Bool.false_and]
    split
    · contradiction
    · split
      · exact h
      · rename_i htok
        exact h.replace (Rows.mem_of_find hf) (Rows.key_of_find hf) (not_le.mp htok)

/-! ## What a step does to the table -/

variable {c : Config} {w : World} {e : Event} {i : Nat} {t t' : Task}

/-- The step of an event and the table after it. -/
inductive Writes (w : World) : Event → List Device → Prop
  | same (e : Event) : Writes w e w.devices
  | reorder (devices : List Device) (hp : devices.Perm w.devices) : Writes w (.reorder devices) devices
  | register (i : Nat) (headers : Headers) (request : RegisterRequest) (now : Nat)
    (hi : w.tasks[i]? = some (.register headers request now)) :
    Writes w (.go i) (registerLocked w.devices request now).2
  | wake (i : Nat) (headers : Headers) (host : String) (now : Nat)
    (hi : w.tasks[i]? = some (.wake headers host now)) : Writes w (.go i) (w.devices.map (stamp host now))
  | revoke (i : Nat) (headers : Headers) (host id : String)
    (hi : w.tasks[i]? = some (.revoke headers host id)) :
    Writes w (.go i) (Rows.remove (·.key) (host, id) w.devices)

@[simp] theorem setTask_devices (w : World) (i : Nat) (t : Task) :
    (w.setTask i t).devices = w.devices := rfl

@[simp] theorem setTask_lastWake (w : World) (i : Nat) (t : Task) :
    (w.setTask i t).lastWake = w.lastWake := rfl

@[simp] theorem spawn_devices (w : World) (t : Task) : (w.spawn t).devices = w.devices := rfl

@[simp] theorem spawn_lastWake (w : World) (t : Task) : (w.spawn t).lastWake = w.lastWake := rfl

@[simp] theorem arrive_devices (w : World) (ip : IpAddr) (t : Task) :
    (w.arrive ip t).devices = w.devices := rfl

@[simp] theorem arrive_lastWake (w : World) (ip : IpAddr) (t : Task) :
    (w.arrive ip t).lastWake = w.lastWake := rfl

theorem throttle_devices (w : World) (i : Nat) (host : String) (ds : List Device) :
    (w.throttle i host ds).devices = w.devices := by
  unfold World.throttle
  split <;> rfl

theorem ring_devices (w : World) (i now : Nat) (d : Device) (rest : List Device)
    (delivered : Bool) :
    (w.ring i now d rest delivered).devices = w.devices := by
  unfold World.ring
  dsimp only
  split <;> rfl

theorem notifyRevoked_devices (w : World) (i : Nat) : (w.notifyRevoked i).devices = w.devices := by
  unfold World.notifyRevoked
  split <;> rfl

theorem answered_devices (w : World) (i : Nat) (ok : Bool) (t : Task) :
    (w.answered i ok t).devices = w.devices := by
  cases t <;> rfl

/-- What a task writes. -/
theorem go_writes (hi : w.tasks[i]? = some t) : Writes w (.go i) (w.go i t).devices := by
  cases t with
  | register headers request now => exact .register i headers request now hi
  | wake headers host now => exact .wake i headers host now hi
  | waking host ds =>
    rw [World.go, throttle_devices]
    exact .same _
  | looping now ds delivered =>
    cases ds with
    | nil => exact .same _
    | cons d rest =>
      rw [World.go, ring_devices]
      exact .same _
  | revoke headers host id =>
    rw [World.go, World.removeDevice]
    split
    · exact .same _
    · exact .revoke i headers host id hi
  | notify =>
    rw [World.go, notifyRevoked_devices]
    exact .same _
  | woken | sending | revoked | forget | notifying | done => exact .same _

/-- What an event writes. -/
theorem step_writes (c : Config) (w : World) (e : Event) : Writes w e (w.step c e).devices := by
  cases e with
  | reorder ds =>
    rw [World.step]
    split
    · rename_i hp
      exact .reorder ds (List.isPerm_iff.mp hp)
    · exact .same _
  | go i =>
    rw [World.step]
    cases hi : w.tasks[i]? with
    | none => exact .same _
    | some t => exact go_writes hi
  | sent i ok =>
    rw [World.step]
    cases hi : w.tasks[i]? with
    | none => exact .same _
    | some t =>
      rw [Option.elim_some, answered_devices]
      exact .same _
  | tick | register | wake | revoke => exact .same _

theorem Writes.bounded {ds : List Device} (hw : Writes w e ds) (h : Bounded w.devices) :
    Bounded ds := by
  cases hw with
  | same => exact h
  | reorder _ hp => exact h.perm hp
  | register i headers request now => exact h.registerLocked request now
  | wake i headers host now => exact h.stamp host now
  | revoke => exact h.sublist Rows.remove_sublist

/-! ## Who writes the table -/

/-- The request presents a secret of the pseudonym: its bearer is one, or, where the bearer is the
token of the operator, the other header has one. -/
def Task.Proves (c : Config) (host : String) : Task → Prop
  | .register headers request _ => request.hostPseudonym = host ∧
    match c.registration with
    | .open => c.hostBearerMatches headers host = true
    | .admin token => bearer headers = some token ∧ c.hostRegistrationProofMatches headers host = true
  | .wake headers host' _ => host' = host ∧ c.hostBearerMatches headers host = true
  | .revoke headers host' _ => host' = host ∧ c.hostBearerMatches headers host = true
  | _ => False

/-- The pseudonym whose rows a request writes. -/
def Task.writes : Task → Option String
  | .register _ request _ => some request.hostPseudonym
  | .wake _ host _ => some host
  | .revoke _ host _ => some host
  | _ => none

/-- A task writes for a pseudonym only if its request has proved it. -/
def Task.Authentic (c : Config) (t : Task) : Prop := ∀ host, t.writes = some host → t.Proves c host

theorem authorized_proves {headers : Headers}
    (h : c.authorized headers request.hostPseudonym = true) :
    (Task.register headers request now).Proves c request.hostPseudonym := by
  refine ⟨rfl, ?_⟩
  unfold Config.authorized at h
  split at h
  · rename_i token presented hreg hb
    rw [Bool.and_eq_true, decide_eq_true_eq] at h
    simp only [hreg]
    exact ⟨h.1 ▸ hb, h.2⟩
  · rename_i hreg hb
    simp only [hreg]
    exact h
  · contradiction

theorem throttle_tasks (w : World) (i : Nat) (host : String) (ds : List Device) :
    ∃ t, t.writes = none ∧ (w.throttle i host ds).tasks = w.tasks.modify i fun _ => t := by
  unfold World.throttle
  split <;> exact ⟨_, rfl, rfl⟩

theorem ring_tasks (w : World) (i now : Nat) (d : Device) (rest : List Device) (delivered : Bool) :
    ∃ t, t.writes = none ∧ (w.ring i now d rest delivered).tasks = w.tasks.modify i fun _ => t := by
  unfold World.ring
  dsimp only
  split <;> exact ⟨_, rfl, rfl⟩

theorem removeDevice_tasks (w : World) (i : Nat) (host id : String) :
    ∃ t, t.writes = none ∧ (w.removeDevice i host id).tasks = w.tasks.modify i fun _ => t := by
  unfold World.removeDevice
  split <;> exact ⟨_, rfl, rfl⟩

theorem notifyRevoked_tasks (w : World) (i : Nat) :
    ∃ t, t.writes = none ∧ (w.notifyRevoked i).tasks = w.tasks.modify i fun _ => t := by
  unfold World.notifyRevoked
  split <;> exact ⟨_, rfl, rfl⟩

/-- A task that goes on writes the table no more. -/
theorem go_tasks (w : World) (i : Nat) (t : Task) :
    (w.go i t).tasks = w.tasks ∨ ∃ t', t'.writes = none ∧
      (w.go i t).tasks = w.tasks.modify i fun _ => t' := by
  cases t with
  | register | woken | forget => exact .inr ⟨_, rfl, rfl⟩
  | wake headers host now =>
    refine .inr ⟨_, ?_, rfl⟩
    split <;> rfl
  | waking host ds => exact .inr (throttle_tasks w i host ds)
  | looping now ds delivered =>
    cases ds with
    | nil => exact .inr ⟨_, rfl, rfl⟩
    | cons d rest => exact .inr (ring_tasks w i now d rest delivered)
  | revoke headers host id => exact .inr (removeDevice_tasks w i host id)
  | revoked host =>
    refine .inr ⟨_, ?_, rfl⟩
    split <;> rfl
  | notify => exact .inr (notifyRevoked_tasks w i)
  | sending | notifying | done => exact .inl rfl

theorem answered_tasks (w : World) (i : Nat) (ok : Bool) (t : Task) :
    (w.answered i ok t).tasks = w.tasks ∨
    ∃ t', t'.writes = none ∧ (w.answered i ok t).tasks = w.tasks.modify i fun _ => t' := by
  cases t with
  | sending | notifying => exact .inr ⟨_, rfl, rfl⟩
  | register | wake | waking | woken | looping | revoke | revoked | forget | notify | done => exact .inl rfl

theorem authentic_of_writes_none (h : t.writes = none) : t.Authentic c := by
  intro host hh
  rw [h] at hh
  cases hh

theorem Arrives.authentic (h : Arrives c w t) : t.Authentic c := by
  cases h with
  | done => exact authentic_of_writes_none rfl
  | register headers request h =>
    rintro _ ⟨⟩
    exact authorized_proves h
  | wake headers host h =>
    rintro _ ⟨⟩
    exact ⟨rfl, h⟩
  | revoke headers host id h =>
    rintro _ ⟨⟩
    exact ⟨rfl, h⟩

theorem arrive_authentic {ip : IpAddr} (ht : Arrives c w t) (h : t' ∈ (w.arrive ip t).tasks) :
    t' ∈ w.tasks ∨ t'.Authentic c := by
  obtain ⟨ipHits, s, hs, he⟩ := arrive_arrives ht ip
  rw [he] at h
  rcases List.mem_append.mp h with h | h
  · exact .inl h
  · rw [List.mem_singleton.mp h]
    exact .inr hs.authentic

/-- A new task has proved its pseudonym. -/
theorem step_tasks_authentic (c : Config) (w : World) (e : Event) (h : t ∈ (w.step c e).tasks) :
    t ∈ w.tasks ∨ t.Authentic c := by
  have hmod : ∀ tasks : List Task, (tasks = w.tasks ∨ ∃ i t', t'.writes = none ∧
      tasks = w.tasks.modify i fun _ => t') → t ∈ tasks → t ∈ w.tasks ∨ t.Authentic c := by
    rintro tasks (rfl | ⟨i, t', hw, rfl⟩) hmem
    · exact .inl hmem
    · rcases Table.mem_replace hmem with hmem | rfl
      · exact .inl hmem
      · exact .inr (authentic_of_writes_none hw)
  cases e with
  | tick => exact .inl h
  | reorder ds =>
    rw [World.step] at h
    split at h <;> exact .inl h
  | register ip headers request => exact arrive_authentic (registerTask_arrives c w headers request) h
  | wake ip headers host => exact arrive_authentic (wakeTask_arrives c w headers host) h
  | revoke headers host id =>
    rcases List.mem_append.mp h with h | h
    · exact .inl h
    · rw [List.mem_singleton.mp h]
      exact .inr (revokeTask_arrives c w headers host id).authentic
  | go i =>
    rw [World.step] at h
    cases hi : w.tasks[i]? with
    | none =>
      rw [hi] at h
      exact .inl h
    | some s =>
      rw [hi] at h
      exact hmod _ ((go_tasks w i s).imp_right fun ⟨t', ht⟩ => ⟨i, t', ht⟩) h
  | sent i ok =>
    rw [World.step] at h
    cases hi : w.tasks[i]? with
    | none =>
      rw [hi] at h
      exact .inl h
    | some s =>
      rw [hi] at h
      exact hmod _ ((answered_tasks w i ok s).imp_right fun ⟨t', ht⟩ => ⟨i, t', ht⟩) h

/-- What a step writes, and what it removes other than by reclaiming it, is by a request that proves
the secret of the pseudonym. -/
structure Attested (c : Config) (w : World) (e : Event) : Prop where
  written : ∀ d ∈ (w.step c e).devices, d ∉ w.devices →
    ∃ i t, e = .go i ∧ w.tasks[i]? = some t ∧ t.Proves c d.hostPseudonym
  removed : ∀ d ∈ w.devices, (∀ d' ∈ (w.step c e).devices, d'.key ≠ d.key) →
    ∃ i t, e = .go i ∧ w.tasks[i]? = some t ∧
      ((∃ headers, t = .revoke headers d.hostPseudonym d.registrationId ∧ t.Proves c d.hostPseudonym) ∨
        ∃ headers request now, t = .register headers request now ∧ d ∉ reclaimRegistrations w.devices now)

/-- The rows that `register` has kept when it looks at the bounds. -/
def keptRows (devices : List Device) (request : RegisterRequest) (now : Nat) : List Device :=
  if (Rows.find (·.key) (request.hostPseudonym, request.registrationId) devices).isNone then
    reclaimRegistrations devices now
  else devices

theorem keptRows_sublist : (keptRows devices request now).Sublist devices := by
  unfold keptRows
  split
  · exact reclaim_sublist devices now
  · exact List.Sublist.refl _

theorem registerLocked_cases (devices : List Device) (request : RegisterRequest) (now : Nat) :
    (registerLocked devices request now).2 = keptRows devices request now ∨
      (registerLocked devices request now).2 =
        Rows.put (·.key) (request.device now) (keptRows devices request now) := by
  unfold registerLocked
  dsimp only
  rw [← keptRows]
  split
  · exact .inl rfl
  · split
    · exact .inl rfl
    · exact .inr rfl

theorem mem_registerLocked (h : d ∈ (registerLocked devices request now).2) :
    d ∈ devices ∨ d.hostPseudonym = request.hostPseudonym := by
  rcases registerLocked_cases devices request now with he | he
  · rw [he] at h
    exact .inl (keptRows_sublist.subset h)
  · rw [he] at h
    rcases Rows.mem_put.mp h with rfl | ⟨h, -⟩
    · exact .inr rfl
    · exact .inl (keptRows_sublist.subset h)

theorem registerLocked_key (hd : d ∈ keptRows devices request now) :
    ∃ d' ∈ (registerLocked devices request now).2, d'.key = d.key := by
  rcases registerLocked_cases devices request now with he | he
  · rw [he]
    exact ⟨d, hd, rfl⟩
  · rw [he]
    by_cases hk : d.key = (request.device now).key
    · exact ⟨request.device now, Rows.mem_put.mpr (.inl rfl), hk.symm⟩
    · exact ⟨d, Rows.mem_put.mpr (.inr ⟨hd, hk⟩), rfl⟩

theorem mem_keptRows (hd : d ∈ devices)
    (hr : Rows.find (·.key) (request.hostPseudonym, request.registrationId) devices = none →
      d ∈ reclaimRegistrations devices now) : d ∈ keptRows devices request now := by
  unfold keptRows
  split
  · rename_i hn
    exact hr (Option.isNone_iff_eq_none.mp hn)
  · exact hd

/-- So what is written was proved. -/
theorem attested_of_authentic (ha : ∀ t ∈ w.tasks, t.Authentic c) (e : Event) : Attested c w e := by
  have hauth : ∀ {i : Nat} {t : Task}, w.tasks[i]? = some t → t.Authentic c :=
    fun hi => ha _ (List.mem_of_getElem? hi)
  constructor
  · intro d hd hnew
    have hw := step_writes c w e
    generalize (w.step c e).devices = ds at hd hw
    cases hw with
    | same => exact absurd hd hnew
    | reorder _ hp => exact absurd (hp.subset hd) hnew
    | register i headers request now hi =>
      refine ⟨i, _, rfl, hi, hauth hi _ ?_⟩
      rw [(mem_registerLocked hd).resolve_left hnew, Task.writes]
    | wake i headers host now hi =>
      refine ⟨i, _, rfl, hi, hauth hi _ ?_⟩
      obtain ⟨d', hd', rfl⟩ := List.mem_map.mp hd
      unfold stamp at hnew ⊢
      split at hnew
      · rename_i hh
        rw [if_pos hh, ← hh, Task.writes]
      · exact absurd hd' hnew
    | revoke => exact absurd (Rows.mem_remove.mp hd).1 hnew
  · intro d hd hgone
    have hw := step_writes c w e
    generalize (w.step c e).devices = ds at hgone hw
    cases hw with
    | same => exact absurd rfl (hgone d hd)
    | reorder _ hp => exact absurd rfl (hgone d (hp.symm.subset hd))
    | register i headers request now hi =>
      refine ⟨i, _, rfl, hi, .inr ⟨headers, request, now, rfl, fun hr => ?_⟩⟩
      obtain ⟨d', hd', hk⟩ := registerLocked_key (mem_keptRows hd fun _ => hr)
      exact hgone d' hd' hk
    | wake i headers host now hi =>
      exact absurd (stamp_key host now d) (hgone _ (List.mem_map_of_mem hd))
    | revoke i headers host id hi =>
      have hk : d.key = (host, id) := by
        by_contra hne
        exact hgone d (Rows.mem_remove.mpr ⟨hd, hne⟩) rfl
      obtain ⟨rfl, rfl⟩ := Prod.mk.inj hk
      exact ⟨i, _, rfl, hi, .inl ⟨headers, rfl, hauth hi _ rfl⟩⟩

/-! ## The pseudonyms of `last_wake` -/

/-- The pseudonym has a row. -/
def Registered (w : World) (host : String) : Prop := ∃ d ∈ w.devices, d.hostPseudonym = host

/-- A revocation is about to look whether it has to forget the pseudonym, or to forget it. -/
def Forgetting (w : World) (host : String) : Prop :=
  .revoked host ∈ w.tasks ∨ .forget host ∈ w.tasks

/-- Every pseudonym that was woken has a row. -/
def WakesRegistered (w : World) : Prop := ∀ p ∈ w.lastWake, Registered w p.1

/-- Every pseudonym that was woken has a row, or is about to be forgotten. -/
def WakesHeld (w : World) : Prop := ∀ p ∈ w.lastWake, Registered w p.1 ∨ Forgetting w p.1

/-- The row is neither expired nor, in a full table, among the oldest. -/
def Spared (devices : List Device) (now : Nat) (d : Device) : Prop :=
  live now d = true ∧
    ((devices.filter (live now)).length < maxDevices ∨ d.key ∉ oldest (devices.filter (live now)))

/-- Reclaiming for a new registration leaves a row of each pseudonym that was woken; and a pseudonym
that is woken still has a row when it is entered. -/
def Task.Spares (w : World) : Task → Prop
  | .register _ request now =>
    Rows.find (·.key) (request.hostPseudonym, request.registrationId) w.devices = none →
      ∀ p ∈ w.lastWake, Registered w p.1 → ∃ d ∈ w.devices, d.hostPseudonym = p.1 ∧ Spared w.devices now d
  | .waking host _ => w.throttled host = false → Registered w host
  | _ => True

/-- A revocation does not take the last row of a pseudonym that was woken. -/
def Task.LeavesOne (w : World) : Task → Prop
  | .revoke _ host id => ∀ p ∈ w.lastWake, p.1 = host →
    ∃ d ∈ w.devices, d.hostPseudonym = host ∧ d.registrationId ≠ id
  | _ => True

/-- The step does not reclaim the last row of a pseudonym that was woken. -/
def Spares (w : World) : Event → Prop
  | .go i => ∀ t ∈ w.tasks[i]?, t.Spares w
  | _ => True

/-- The condition on a step. -/
def Meets (w : World) : Event → Prop
  | .go i => ∀ t ∈ w.tasks[i]?, t.Spares w ∧ t.LeavesOne w
  | _ => True

instance (w : World) (host : String) : Decidable (Registered w host) :=
  inferInstanceAs (Decidable (∃ d ∈ w.devices, d.hostPseudonym = host))

instance (w : World) : Decidable (WakesRegistered w) :=
  inferInstanceAs (Decidable (∀ p ∈ w.lastWake, Registered w p.1))

instance (devices : List Device) (now : Nat) (d : Device) : Decidable (Spared devices now d) :=
  inferInstanceAs (Decidable (_ ∧ (_ ∨ _)))

instance (w : World) : (t : Task) → Decidable (t.Spares w)
  | .register _ request now => inferInstanceAs (Decidable
    (Rows.find (·.key) (request.hostPseudonym, request.registrationId) w.devices = none →
      ∀ p ∈ w.lastWake, Registered w p.1 → ∃ d ∈ w.devices, d.hostPseudonym = p.1 ∧ Spared w.devices now d))
  | .waking host _ => inferInstanceAs (Decidable (w.throttled host = false → Registered w host))
  | .wake .. | .woken _ | .looping .. | .sending .. | .revoke .. | .revoked _ | .forget _ | .notify |
    .notifying _ | .done _ => isTrue trivial

instance (w : World) : (t : Task) → Decidable (t.LeavesOne w)
  | .revoke _ host id => inferInstanceAs (Decidable (∀ p ∈ w.lastWake, p.1 = host →
    ∃ d ∈ w.devices, d.hostPseudonym = host ∧ d.registrationId ≠ id))
  | .register .. | .waking .. | .wake .. | .woken _ | .looping .. | .sending .. | .revoked _ | .forget _ |
    .notify | .notifying _ | .done _ => isTrue trivial

instance (w : World) : (e : Event) → Decidable (Meets w e)
  | .go i => inferInstanceAs (Decidable (∀ t ∈ w.tasks[i]?, t.Spares w ∧ t.LeavesOne w))
  | .tick _ | .reorder _ | .register .. | .wake .. | .revoke .. | .sent .. => isTrue trivial

theorem mem_reclaim :
    d ∈ reclaimRegistrations devices now ↔ d ∈ devices ∧ Spared devices now d := by
  unfold reclaimRegistrations Spared
  dsimp only
  split
  · rename_i hlt
    simp [hlt]
  · rename_i hlt
    simp only [List.mem_filter, decide_eq_true_eq, hlt, false_or, and_assoc]

/-- A step that writes the table for another reason than a revocation leaves a row of each
pseudonym. -/
theorem Writes.registered {ds : List Device} (hw : Writes w e ds) (hs : Spares w e)
    {p : String × Nat}
    (hp : p ∈ w.lastWake) (hr : Registered w p.1) :
    (∃ d ∈ ds, d.hostPseudonym = p.1) ∨ ∃ i headers id, e = .go i ∧
      w.tasks[i]? = some (.revoke headers p.1 id) ∧ ∀ d ∈ w.devices, d.hostPseudonym = p.1 →
        d.registrationId = id := by
  cases hw with
  | same => exact .inl hr
  | reorder _ hperm =>
    obtain ⟨d, hd, hh⟩ := hr
    exact .inl ⟨d, hperm.symm.subset hd, hh⟩
  | register i headers request now hi =>
    have hkept : ∃ d ∈ keptRows w.devices request now, d.hostPseudonym = p.1 := by
      unfold keptRows
      split
      · rename_i hn
        obtain ⟨d, hd, hh, hsp⟩ := hs _ hi (Option.isNone_iff_eq_none.mp hn) p hp hr
        exact ⟨d, mem_reclaim.mpr ⟨hd, hsp⟩, hh⟩
      · exact hr
    obtain ⟨d, hd, hh⟩ := hkept
    obtain ⟨d', hd', hk⟩ := registerLocked_key hd
    exact .inl ⟨d', hd', (congrArg Prod.fst hk).trans hh⟩
  | wake i headers host now hi =>
    obtain ⟨d, hd, hh⟩ := hr
    exact .inl ⟨_, List.mem_map_of_mem hd, (stamp_host host now d).trans hh⟩
  | revoke i headers host id hi =>
    by_cases hall : ∀ d ∈ w.devices, d.hostPseudonym = p.1 → d.key = (host, id)
    · obtain ⟨d, hd, hh⟩ := hr
      have hhost : host = p.1 := (congrArg Prod.fst (hall d hd hh)).symm.trans hh
      subst hhost
      exact .inr ⟨i, headers, id, rfl, hi, fun d' hd' hh' => congrArg Prod.snd (hall d' hd' hh')⟩
    · push Not at hall
      obtain ⟨d, hd, hh, hne⟩ := hall
      exact .inl ⟨d, Rows.mem_remove.mpr ⟨hd, hne⟩, hh⟩

theorem throttle_lastWake {ds : List Device} {p : String × Nat}
    (hp : p ∈ (w.throttle i host ds).lastWake) :
    p ∈ w.lastWake ∨ p.1 = host ∧ w.throttled host = false := by
  unfold World.throttle at hp
  split at hp
  · exact .inl hp
  · rename_i ht
    rcases Rows.mem_put.mp hp with rfl | ⟨hp, -⟩
    · exact .inr ⟨rfl, Bool.eq_false_iff.mpr ht⟩
    · exact .inl hp

theorem ring_lastWake (w : World) (i now : Nat) (d : Device) (rest : List Device)
    (delivered : Bool) :
    (w.ring i now d rest delivered).lastWake = w.lastWake := by
  unfold World.ring
  dsimp only
  split <;> rfl

theorem removeDevice_lastWake (w : World) (i : Nat) (host id : String) :
    (w.removeDevice i host id).lastWake = w.lastWake := by
  unfold World.removeDevice
  split <;> rfl

theorem notifyRevoked_lastWake (w : World) (i : Nat) :
    (w.notifyRevoked i).lastWake = w.lastWake := by
  unfold World.notifyRevoked
  split <;> rfl

theorem answered_lastWake (w : World) (i : Nat) (ok : Bool) (t : Task) :
    (w.answered i ok t).lastWake = w.lastWake := by
  cases t <;> rfl

/-- A pseudonym is entered by a wake only. -/
theorem go_lastWake {p : String × Nat} (hp : p ∈ (w.go i t).lastWake) :
    p ∈ w.lastWake ∨ ∃ ds, t = .waking p.1 ds ∧ w.throttled p.1 = false := by
  cases t with
  | waking host ds =>
    rcases throttle_lastWake hp with hp | ⟨rfl, ht⟩
    · exact .inl hp
    · exact .inr ⟨ds, rfl, ht⟩
  | looping now ds delivered =>
    cases ds with
    | nil => exact .inl hp
    | cons d rest =>
      rw [World.go, ring_lastWake] at hp
      exact .inl hp
  | revoke headers host id =>
    rw [World.go, removeDevice_lastWake] at hp
    exact .inl hp
  | forget host => exact .inl (Rows.mem_remove.mp hp).1
  | notify =>
    rw [World.go, notifyRevoked_lastWake] at hp
    exact .inl hp
  | register | wake | woken | sending | revoked | notifying | done => exact .inl hp

/-- A pseudonym has one time. -/
theorem unique_go_lastWake (hu : Rows.Unique (·.1) w.lastWake) (i : Nat) (t : Task) :
    Rows.Unique (·.1) (w.go i t).lastWake := by
  cases t with
  | waking host ds =>
    rw [World.go, World.throttle]
    split
    · exact hu
    · exact hu.put _
  | looping now ds delivered =>
    cases ds with
    | nil => exact hu
    | cons d rest =>
      rw [World.go, ring_lastWake]
      exact hu
  | revoke headers host id =>
    rw [World.go, removeDevice_lastWake]
    exact hu
  | forget host => exact hu.remove host
  | notify =>
    rw [World.go, notifyRevoked_lastWake]
    exact hu
  | register | wake | woken | sending | revoked | notifying | done => exact hu

/-- The other tasks stay. -/
theorem go_mem_of_ne (hi : w.tasks[i]? = some t) (h : t' ∈ w.tasks) (hne : t' ≠ t) :
    t' ∈ (w.go i t).tasks := by
  rcases go_tasks w i t with he | ⟨s, -, he⟩
  · rw [he]
    exact h
  · rw [he]
    exact Table.mem_replace_of_ne hi h hne

/-- A revocation that has still to forget the pseudonym goes on to do so, unless it has a row again.
-/
theorem forgetting_go (hi : w.tasks[i]? = some t) (hf : Forgetting w host) :
    Forgetting (w.go i t) host ∨ Registered (w.go i t) host ∨ ∀ p ∈ (w.go i t).lastWake,
      p.1 ≠ host := by
  by_cases hrev : t = .revoked host
  · subst hrev
    rw [World.go]
    split
    · rename_i hany
      obtain ⟨d, hd, hh⟩ := List.any_eq_true.mp hany
      exact .inr (.inl ⟨d, hd, by simpa using hh⟩)
    · exact .inl (.inr (Table.mem_replace_self hi))
  · by_cases hfor : t = .forget host
    · subst hfor
      exact .inr (.inr fun p hp => (Rows.mem_remove.mp hp).2)
    · refine .inl (hf.imp (fun hm => go_mem_of_ne hi hm ?_) fun hm => go_mem_of_ne hi hm ?_)
      · exact fun he => hrev he.symm
      · exact fun he => hfor he.symm

/-- A task goes on that spares the last rows. -/
theorem WakesHeld.go (h : WakesHeld w) (hi : w.tasks[i]? = some t) (hs : t.Spares w) :
    WakesHeld (w.go i t) := by
  intro p hp
  rcases go_lastWake hp with hold | ⟨ds, rfl, ht⟩
  · rcases h p hold with hr | hf
    · have hsp : Spares w (.go i) := by
        intro t' ht'
        obtain rfl := Option.some.inj (hi.symm.trans ht')
        exact hs
      rcases (go_writes hi).registered hsp hold hr with hr' | ⟨j, headers, id, he, hj, hall⟩
      · exact .inl hr'
      · -- The last row was removed, and the task is about to look for others.
        cases he
        obtain rfl := Option.some.inj (hi.symm.trans hj)
        obtain ⟨d, hd, hh⟩ := hr
        have hk : d.key = (p.1, id) := Prod.ext hh (hall d hd hh)
        refine .inr (.inl ?_)
        rw [World.go, World.removeDevice]
        split
        · rename_i hn
          exact absurd hk (Rows.find_eq_none.mp hn d hd)
        · exact Table.mem_replace_self hi
    · rcases forgetting_go hi hf with hf' | hr | hn
      · exact .inr hf'
      · exact .inl hr
      · exact absurd rfl (hn p hp)
  · refine .inl ?_
    obtain ⟨d, hd, hh⟩ := hs ht
    refine ⟨d, ?_, hh⟩
    rw [World.go, throttle_devices]
    exact hd

/-- A task goes on that leaves a row. -/
theorem WakesRegistered.go (h : WakesRegistered w) (hi : w.tasks[i]? = some t) (hs : t.Spares w)
    (hl : t.LeavesOne w) : WakesRegistered (w.go i t) := by
  intro p hp
  rcases go_lastWake hp with hold | ⟨ds, rfl, ht⟩
  · have hsp : Spares w (.go i) := by
      intro t' ht'
      obtain rfl := Option.some.inj (hi.symm.trans ht')
      exact hs
    rcases (go_writes hi).registered hsp hold (h p hold) with hr' | ⟨j, headers, id, he, hj, hall⟩
    · exact hr'
    · cases he
      obtain rfl := Option.some.inj (hi.symm.trans hj)
      obtain ⟨d, hd, hh, hne⟩ := hl p hold rfl
      exact absurd (hall d hd hh) hne
  · obtain ⟨d, hd, hh⟩ := hs ht
    refine ⟨d, ?_, hh⟩
    rw [World.go, throttle_devices]
    exact hd

theorem Forgetting.mono {w' : World} (hf : Forgetting w host) (h : ∀ t ∈ w.tasks, t ∈ w'.tasks) :
    Forgetting w' host := hf.imp (h _) (h _)

theorem arrive_forgetting {ip : IpAddr} (hf : Forgetting w host) :
    Forgetting (w.arrive ip t) host :=
  hf.mono fun _ => List.mem_append_left _

theorem answered_forgetting {ok : Bool} (hi : w.tasks[i]? = some t) (hf : Forgetting w host) :
    Forgetting (w.answered i ok t) host := by
  cases t with
  | sending | notifying =>
    exact hf.imp (fun hm => Table.mem_replace_of_ne hi hm nofun) fun hm => Table.mem_replace_of_ne hi hm nofun
  | register | wake | waking | woken | looping | revoke | revoked | forget | notify | done => exact hf

/-- The events that are no step of a task. -/
theorem step_quiet (c : Config) (w : World) (he : ∀ i, e ≠ .go i) :
    (w.step c e).lastWake = w.lastWake ∧
      (∀ host, Registered w host → Registered (w.step c e) host) ∧
      ∀ host, Forgetting w host → Forgetting (w.step c e) host := by
  have hreg : ∀ host, Registered w host → Registered (w.step c e) host := by
    rintro host ⟨d, hd, hh⟩
    have hw := step_writes c w e
    unfold Registered
    generalize (w.step c e).devices = ds at hw
    cases hw with
    | same => exact ⟨d, hd, hh⟩
    | reorder _ hp => exact ⟨d, hp.symm.subset hd, hh⟩
    | register i | wake i | revoke i => exact absurd rfl (he i)
  cases e with
  | tick => exact ⟨rfl, hreg, fun _ hf => hf⟩
  | reorder ds =>
    refine ⟨?_, hreg, fun host hf => ?_⟩
    · rw [World.step]
      split <;> rfl
    · rw [World.step]
      split <;> exact hf
  | register => exact ⟨rfl, hreg, fun _ hf => arrive_forgetting hf⟩
  | wake => exact ⟨rfl, hreg, fun _ hf => arrive_forgetting hf⟩
  | revoke => exact ⟨rfl, hreg, fun _ hf => hf.mono fun _ => List.mem_append_left _⟩
  | go i => exact absurd rfl (he i)
  | sent i ok =>
    refine ⟨?_, hreg, fun host hf => ?_⟩
    · rw [World.step]
      cases hi : w.tasks[i]? with
      | none => rfl
      | some t => exact answered_lastWake w i ok t
    · rw [World.step]
      cases hi : w.tasks[i]? with
      | none => exact hf
      | some t => exact answered_forgetting hi hf

theorem step_go_some (c : Config) (hi : w.tasks[i]? = some t) : w.step c (.go i) = w.go i t := by
  rw [World.step, hi]
  rfl

theorem step_go_none (c : Config) (hi : w.tasks[i]? = none) : w.step c (.go i) = w := by
  rw [World.step, hi]
  rfl

theorem WakesHeld.step (h : WakesHeld w) (c : Config) (hs : Spares w e) :
    WakesHeld (w.step c e) := by
  by_cases hgo : ∃ i, e = .go i
  · obtain ⟨i, rfl⟩ := hgo
    cases hi : w.tasks[i]? with
    | none =>
      rw [step_go_none c hi]
      exact h
    | some t =>
      rw [step_go_some c hi]
      exact h.go hi (hs t hi)
  · push Not at hgo
    obtain ⟨hl, hr, hf⟩ := step_quiet c w hgo
    intro p hp
    rw [hl] at hp
    exact (h p hp).imp (hr p.1) (hf p.1)

theorem WakesRegistered.step (h : WakesRegistered w) (c : Config) (hm : Meets w e) :
    WakesRegistered (w.step c e) := by
  by_cases hgo : ∃ i, e = .go i
  · obtain ⟨i, rfl⟩ := hgo
    cases hi : w.tasks[i]? with
    | none =>
      rw [step_go_none c hi]
      exact h
    | some t =>
      rw [step_go_some c hi]
      exact h.go hi (hm t hi).1 (hm t hi).2
  · push Not at hgo
    obtain ⟨hl, hr, -⟩ := step_quiet c w hgo
    intro p hp
    rw [hl] at hp
    exact hr p.1 (h p hp)

/-- What holds in every run. -/
structure TableInv (c : Config) (w : World) : Prop where
  bounded : Bounded w.devices
  authentic : ∀ t ∈ w.tasks, t.Authentic c
  unique : Rows.Unique (·.1) w.lastWake

theorem TableInv.step (h : TableInv c w) (e : Event) : TableInv c (w.step c e) where
  bounded := (step_writes c w e).bounded h.bounded
  authentic := fun t ht => (step_tasks_authentic c w e ht).elim (h.authentic t) id
  unique := by
    by_cases hgo : ∃ i, e = .go i
    · obtain ⟨i, rfl⟩ := hgo
      cases hi : w.tasks[i]? with
      | none =>
        rw [step_go_none c hi]
        exact h.unique
      | some t =>
        rw [step_go_some c hi]
        exact unique_go_lastWake h.unique i t
    · push Not at hgo
      rw [(step_quiet c w hgo).1]
      exact h.unique

theorem tableInv_run (c : Config) (events : List Event) :
    TableInv c (Run.run (World.step c) {} events) := by
  refine Run.run_induction (I := fun _ w => TableInv c w) ⟨bounded_nil, nofun, List.nodup_nil⟩ ?_
  intro pre e post _ h
  exact h.step e

/-- Pseudonyms with a registration are at most as many as the registrations. -/
theorem length_lastWake_le (hu : Rows.Unique (·.1) w.lastWake) (h : WakesRegistered w) :
    w.lastWake.length ≤ w.devices.length := by
  have hsub : w.lastWake.map (·.1) ⊆ w.devices.map (·.hostPseudonym) := by
    intro host hm
    obtain ⟨p, hp, rfl⟩ := List.mem_map.mp hm
    obtain ⟨d, hd, hh⟩ := h p hp
    exact List.mem_map.mpr ⟨d, hd, hh⟩
  have hle := (List.subperm_of_subset hu hsub).length_le
  rwa [List.length_map, List.length_map] at hle

/-- The bounds of the table and who writes it, in every run; and `last_wake`, where the steps of the
run meet the conditions. -/
theorem relay_tables_bounded (c : Config) (events : List Event) :
    let w := Run.run (World.step c) {} events
    Bounded w.devices ∧ (∀ e, Attested c w e) ∧
      (Run.Along (World.step c) Meets {} events →
        WakesRegistered w ∧ w.lastWake.length ≤ w.devices.length) ∧
      (Run.Along (World.step c) Spares {} events → WakesHeld w) := by
  have hinv := tableInv_run c events
  refine ⟨hinv.bounded, attested_of_authentic hinv.authentic, fun hm => ?_, fun hs => ?_⟩
  · have hw : WakesRegistered (Run.run (World.step c) {} events) :=
      hm.induction (I := WakesRegistered) nofun fun _ _ h hm => h.step c hm
    exact ⟨hw, length_lastWake_le hinv.unique hw⟩
  · exact hs.induction (I := WakesHeld) nofun fun _ _ h hs => h.step c hs

/-- A host has registered two devices, is woken, and revokes one of them. -/
theorem relay_tables_bounded_woken :
    let w := Run.run (World.step openRelay) {}
      [.register 1 laptop.headers (laptop.request (registrationId 1) "t"), .go 0,
        .register 1 laptop.headers (laptop.request (registrationId 2) "u"), .go 1,
        .wake 1 laptop.headers laptop.hostPseudonym, .go 2, .go 2,
        .revoke laptop.headers laptop.hostPseudonym (registrationId 2), .go 3]
    w.lastWake = [(laptop.hostPseudonym, 0)] ∧ WakesRegistered w ∧ w.lastWake.length ≤ w.devices.length :=
  ⟨by decide +kernel, (relay_tables_bounded openRelay _).2.2.1 (by decide +kernel)⟩

/-- A host registers and is woken; after the lifetime of its registration another host registers. -/
theorem last_wake_outlives_registration :
    let w := Run.run (World.step openRelay) {}
      [.register 1 laptop.headers (laptop.request (registrationId 1) "t"), .go 0,
        .wake 1 laptop.headers laptop.hostPseudonym, .go 1, .go 1, .tick registrationTtl,
        .register 2 desktop.headers (desktop.request (registrationId 1) "u"), .go 2]
    w.devices.map (·.hostPseudonym) = [desktop.hostPseudonym] ∧
      w.lastWake.map (·.1) = [laptop.hostPseudonym] ∧ ¬ WakesRegistered w := by
  decide +kernel

end Portty.PushRelay
