import Portty.Lib.Map
import Portty.Lib.Run
import Portty.Transport.Types

/-!
# The registry of live connections (`ActiveDevices` in `active.rs`)

The calls are cut at their accesses of shared state, so that the calls of any tasks interleave at
them.

* `register` draws an id, then has the lock for one insertion, and aborts the task of the connection
  that it replaced when the lock is free again (`ActiveDevices.drawId`, `ActiveDevices.insert`,
  `Event.abortReplaced`).
* `deregister` and `drop_revoked` do all that they do with the registry under its lock.
* `notify_revoked` takes the task out under the lock, and aborts it later.
* `connections_accounted`: what has become of a connection that is not in the registry.
-/

namespace Portty.Host.Active

open Run

/-! ## The source -/

/-- What the registry has of a connection: its id, and the task that its handle aborts. -/
structure Conn where
  id : BitVec 64
  abort : Nat
  deriving DecidableEq, Repr

/-- The connection of each device, and the next id. -/
structure ActiveDevices where
  inner : FMap DeviceId Conn := ∅
  nextConnectionId : BitVec 64 := 1

/-- `next_connection_id.fetch_add(1)` -/
def ActiveDevices.drawId (active : ActiveDevices) : BitVec 64 × ActiveDevices :=
  (active.nextConnectionId, { active with nextConnectionId := active.nextConnectionId + 1 })

/-- The insertion of `register`, with the connection that it replaces. -/
def ActiveDevices.insert (active : ActiveDevices) (device : DeviceId) (conn : Conn) :
    Option Conn × ActiveDevices :=
  (active.inner.lookup device, { active with inner := active.inner.insert device conn })

/-- The entry goes, if it is still that of this connection. -/
def ActiveDevices.deregister (active : ActiveDevices) (device : DeviceId)
    (connectionId : BitVec 64) :
    Bool × ActiveDevices :=
  if (active.inner.lookup device).any (·.id = connectionId) then
    (true, { active with inner := active.inner.erase device })
  else (false, active)

/-- The tasks that `drop_revoked` aborts. -/
def ActiveDevices.dropRevoked (active : ActiveDevices) (valid : List DeviceId) : Multiset Nat :=
  (active.inner.entries.filter fun entry => entry.1 ∉ valid).map fun entry => entry.2.abort

/-! ## Interleaved calls -/

/-- A connection as its caller has it: its device, the id that `register` returns, and its task. -/
structure Connection where
  device : DeviceId
  id : BitVec 64
  task : Nat
  deriving DecidableEq, Repr

/-- The table, and the connections of all tasks. -/
structure State where
  active : ActiveDevices := {}
  /-- Each connection has a task of its own, numbered in the order of the draws. -/
  spawned : Nat := 0
  /-- The calls of `register` that have their id and not yet the lock. -/
  waiting : Multiset Connection := 0
  /-- The tasks that running calls of `register` have replaced, and abort in their next step. -/
  replacing : Multiset Nat := 0
  /-- The tasks that a call of `notify_revoked` aborts when its delay is over. -/
  notified : Multiset Nat := 0
  registered : Multiset Connection := 0
  aborted : Multiset Nat := 0
  /-- The connections that have deregistered themselves. -/
  deregistered : Multiset Connection := 0

/-- What the tasks of the connections do, in any order. -/
inductive Event where
  | draw (device : DeviceId)
  | insert (c : Connection)
  | abortReplaced (task : Nat)
  | deregister (c : Connection)
  | dropRevoked (valid : List DeviceId)
  | notifyRevoked (device : DeviceId)
  | abortNotified (task : Nat)
  deriving DecidableEq

/-- One event. -/
def step (σ : State) : Event → State
  | .draw device =>
    let (id, active) := σ.active.drawId
    { σ with active, spawned := σ.spawned + 1, waiting := ⟨device, id, σ.spawned⟩ ::ₘ σ.waiting }
  | .insert c =>
    if c ∈ σ.waiting then
      let (replaced, active) := σ.active.insert c.device ⟨c.id, c.task⟩
      { σ with
        active, waiting := σ.waiting.erase c, registered := c ::ₘ σ.registered
        replacing := (replaced.map Conn.abort).toList + σ.replacing }
    else σ
  | .abortReplaced task =>
    if task ∈ σ.replacing then
      { σ with replacing := σ.replacing.erase task, aborted := task ::ₘ σ.aborted }
    else σ
  | .deregister c =>
    if c ∈ σ.registered then
      let (removed, active) := σ.active.deregister c.device c.id
      { σ with active, deregistered := if removed then c ::ₘ σ.deregistered else σ.deregistered }
    else σ
  | .dropRevoked valid => { σ with aborted := σ.active.dropRevoked valid + σ.aborted }
  | .notifyRevoked device =>
    { σ with notified := ((σ.active.inner.lookup device).map Conn.abort).toList + σ.notified }
  | .abortNotified task =>
    if task ∈ σ.notified then
      { σ with notified := σ.notified.erase task, aborted := task ::ₘ σ.aborted }
    else σ

/-- The entry of its device is that of the connection. -/
def State.Holds (σ : State) (c : Connection) : Prop :=
  σ.active.inner.lookup c.device = some ⟨c.id, c.task⟩

instance (σ : State) (c : Connection) : Decidable (σ.Holds c) := inferInstanceAs (Decidable (_ = _))

/-- It was aborted, has deregistered itself, or is what a running call of `register` aborts next. -/
def State.Signalled (σ : State) (c : Connection) : Prop :=
  c.task ∈ σ.aborted ∨ c ∈ σ.deregistered ∨ c.task ∈ σ.replacing

/-- Every id is the number of its draw, modulo `2^64`. -/
structure Numbered (σ : State) : Prop where
  next : σ.active.nextConnectionId = BitVec.ofNat 64 (σ.spawned + 1)
  waiting : ∀ c ∈ σ.waiting, c.task < σ.spawned ∧ c.id = BitVec.ofNat 64 (c.task + 1)
  registered : ∀ c ∈ σ.registered, c.task < σ.spawned ∧ c.id = BitVec.ofNat 64 (c.task + 1)

/-- Every entry is that of a registered connection, and every registered connection without one is
accounted for. -/
structure Accounted (σ : State) : Prop where
  entry : ∀ device conn, σ.active.inner.lookup device = some conn →
    ∃ c ∈ σ.registered, c.device = device ∧ conn = ⟨c.id, c.task⟩
  left : ∀ c ∈ σ.registered, σ.Holds c ∨ σ.Signalled c

/-! ## One step -/

variable {σ : State} {ev : Event} {evs : List Event} {c c' : Connection} {device : DeviceId}
  {valid : List DeviceId}

theorem aborted_step (σ : State) (ev : Event) : σ.aborted ⊆ (step σ ev).aborted := by
  intro task h
  cases ev with
  | dropRevoked valid => exact Multiset.mem_add.mpr (.inr h)
  | abortReplaced task' => simp only [step]; split_ifs <;> simp [h]
  | abortNotified task' => simp only [step]; split_ifs <;> simp [h]
  | insert c => simp only [step]; split_ifs <;> exact h
  | deregister c => simp only [step]; split_ifs <;> exact h
  | draw device => exact h
  | notifyRevoked device => exact h

theorem deregistered_step (σ : State) (ev : Event) : σ.deregistered ⊆ (step σ ev).deregistered := by
  intro c h
  cases ev with
  | deregister c' => simp only [step]; split_ifs <;> simp [h]
  | abortReplaced task => simp only [step]; split_ifs <;> exact h
  | abortNotified task => simp only [step]; split_ifs <;> exact h
  | insert c' => simp only [step]; split_ifs <;> exact h
  | draw device => exact h
  | dropRevoked valid => exact h
  | notifyRevoked device => exact h

/-- What a call has replaced stays so until the call aborts it. -/
theorem replacing_step {task : Nat} (h : task ∈ σ.replacing) (ev : Event) :
    task ∈ (step σ ev).replacing ∨ task ∈ (step σ ev).aborted := by
  cases ev with
  | insert c =>
    simp only [step]
    split_ifs
    · exact .inl (Multiset.mem_add.mpr (.inr h))
    · exact .inl h
  | abortReplaced task' =>
    simp only [step]
    split_ifs
    · by_cases htask : task = task'
      · exact .inr (htask ▸ Multiset.mem_cons_self _ _)
      · exact .inl ((Multiset.mem_erase_of_ne htask).mpr h)
    · exact .inl h
  | deregister c => simp only [step]; split_ifs <;> exact .inl h
  | abortNotified task' => simp only [step]; split_ifs <;> exact .inl h
  | draw device => exact .inl h
  | dropRevoked valid => exact .inl h
  | notifyRevoked device => exact .inl h

theorem State.Signalled.step (h : σ.Signalled c) (ev : Event) : (step σ ev).Signalled c := by
  rcases h with h | h | h
  · exact .inl (aborted_step σ ev h)
  · exact .inr (.inl (deregistered_step σ ev h))
  · rcases replacing_step h ev with h | h
    · exact .inr (.inr h)
    · exact .inl h

theorem deregister_next (active : ActiveDevices) (device : DeviceId) (id : BitVec 64) :
    (active.deregister device id).2.nextConnectionId = active.nextConnectionId := by
  rw [ActiveDevices.deregister]
  split_ifs <;> rfl

/-- Ids are drawn one after the other, whatever the tasks do. -/
theorem Numbered.step (h : Numbered σ) (ev : Event) : Numbered (step σ ev) := by
  obtain ⟨hnext, hwaiting, hregistered⟩ := h
  cases ev with
  | draw device =>
    refine ⟨?_, ?_, fun x hx => ⟨Nat.lt_succ_of_lt (hregistered x hx).1, (hregistered x hx).2⟩⟩
    · simp only [Active.step, ActiveDevices.drawId, hnext]
      rw [BitVec.ofNat_add, BitVec.ofNat_add, BitVec.ofNat_add]
      rfl
    · refine Multiset.forall_mem_cons.mpr ⟨⟨Nat.lt_succ_self _, hnext⟩, fun x hx => ?_⟩
      exact ⟨Nat.lt_succ_of_lt (hwaiting x hx).1, (hwaiting x hx).2⟩
  | insert x =>
    simp only [Active.step]
    split_ifs with hx
    · exact ⟨hnext, fun y hy => hwaiting y (Multiset.mem_of_mem_erase hy),
        Multiset.forall_mem_cons.mpr ⟨hwaiting x hx, hregistered⟩⟩
    · exact ⟨hnext, hwaiting, hregistered⟩
  | abortReplaced task => simp only [Active.step]; split_ifs <;> exact ⟨hnext, hwaiting, hregistered⟩
  | deregister x =>
    simp only [Active.step]
    split
    · exact ⟨(deregister_next _ _ _).trans hnext, hwaiting, hregistered⟩
    · exact ⟨hnext, hwaiting, hregistered⟩
  | dropRevoked valid => exact ⟨hnext, hwaiting, hregistered⟩
  | notifyRevoked device => exact ⟨hnext, hwaiting, hregistered⟩
  | abortNotified task => simp only [Active.step]; split_ifs <;> exact ⟨hnext, hwaiting, hregistered⟩

/-- An entry is that of one connection. -/
theorem State.Holds.eq_of_device (h : σ.Holds c) (h' : σ.Holds c')
    (hdevice : c.device = c'.device) : c = c' := by
  rw [State.Holds, hdevice] at h
  have hconn := Option.some.inj (h.symm.trans h')
  rw [Conn.mk.injEq] at hconn
  obtain ⟨device, id, task⟩ := c
  obtain ⟨device', id', task'⟩ := c'
  exact (Connection.mk.injEq ..).mpr ⟨hdevice, hconn⟩

/-- As long as the ids have not wrapped, a connection is known by its device and its id. -/
theorem Numbered.eq_of_id (h : Numbered σ) (hspawned : σ.spawned ≤ 2 ^ 64) (hc : c ∈ σ.registered)
    (hc' : c' ∈ σ.registered) (hdevice : c.device = c'.device) (hid : c.id = c'.id) : c = c' := by
  obtain ⟨hlt, hnum⟩ := h.registered c hc
  obtain ⟨hlt', hnum'⟩ := h.registered c' hc'
  have htask : c.task = c'.task := by
    rw [hnum, hnum'] at hid
    have hmod := congrArg BitVec.toNat hid
    rw [BitVec.toNat_ofNat, BitVec.toNat_ofNat] at hmod
    omega
  obtain ⟨device, id, task⟩ := c
  obtain ⟨device', id', task'⟩ := c'
  exact (Connection.mk.injEq ..).mpr ⟨hdevice, hid, htask⟩

/-- `deregister` removes the entry of the caller, and no other. -/
theorem Accounted.deregister_eq (h : Accounted σ) (hn : Numbered σ) (hspawned : σ.spawned ≤ 2 ^ 64)
    (hc : c ∈ σ.registered) :
    σ.active.deregister c.device c.id =
      if σ.Holds c then (true, { σ.active with inner := σ.active.inner.erase c.device }) else (false, σ.active) := by
  rw [ActiveDevices.deregister]
  refine if_congr ?_ rfl rfl
  constructor
  · intro hany
    obtain ⟨conn, hlookup, hid⟩ := Option.any_eq_true _ _ |>.mp hany
    obtain ⟨x, hx, hdevice, rfl⟩ := h.entry _ _ hlookup
    rw [State.Holds, ← hn.eq_of_id hspawned hx hc hdevice (of_decide_eq_true hid), hdevice, hlookup]
  · intro hholds
    rw [show σ.active.inner.lookup c.device = _ from hholds]
    exact decide_eq_true rfl

/-- The connection that is replaced is to be aborted. -/
theorem Accounted.insert (h : Accounted σ) (c : Connection) :
    Accounted (Active.step σ (.insert c)) := by
  simp only [Active.step]
  split_ifs with hc
  · refine ⟨fun device conn hlookup => ?_, Multiset.forall_mem_cons.mpr ⟨.inl (Finmap.lookup_insert _), ?_⟩⟩
    · simp only [ActiveDevices.insert, FMap.lookup_insert_ite] at hlookup
      split_ifs at hlookup with hdevice
      · obtain rfl := Option.some.inj hlookup
        exact ⟨c, Multiset.mem_cons_self _ _, hdevice.symm, rfl⟩
      · obtain ⟨x, hx, hx'⟩ := h.entry device conn hlookup
        exact ⟨x, Multiset.mem_cons_of_mem hx, hx'⟩
    · intro x hx
      rcases h.left x hx with hholds | hs
      · by_cases hdevice : x.device = c.device
        · -- The connection is the one that is replaced.
          refine .inr (.inr (.inr (Multiset.mem_add.mpr (.inl ?_))))
          rw [ActiveDevices.insert, ← hdevice, show σ.active.inner.lookup x.device = _ from hholds]
          exact List.mem_singleton.mpr rfl
        · exact .inl ((Finmap.lookup_insert_of_ne _ hdevice).trans hholds)
      · have hs' := State.Signalled.step hs (.insert c)
        simp only [Active.step, if_pos hc] at hs'
        exact .inr hs'
  · exact h

theorem Accounted.step_own (h : Accounted σ) (hn : Numbered σ) (hspawned : σ.spawned ≤ 2 ^ 64)
    (hc : c ∈ σ.registered) (hholds : σ.Holds c) :
    Active.step σ (.deregister c) =
      { σ with
        active := { σ.active with inner := σ.active.inner.erase c.device }
        deregistered := c ::ₘ σ.deregistered } := by
  simp only [Active.step, if_pos hc, h.deregister_eq hn hspawned hc, if_pos hholds, if_true]

/-- The caller was replaced before. -/
theorem Accounted.step_stale (h : Accounted σ) (hn : Numbered σ) (hspawned : σ.spawned ≤ 2 ^ 64)
    (hc : c ∈ σ.registered) (hholds : ¬ σ.Holds c) : Active.step σ (.deregister c) = σ := by
  simp only [Active.step, if_pos hc, h.deregister_eq hn hspawned hc, if_neg hholds,
    Bool.false_eq_true, if_false]

/-- An entry is taken by the connection that it is of, and by no other. -/
theorem Accounted.deregister (h : Accounted σ) (hn : Numbered σ) (hspawned : σ.spawned ≤ 2 ^ 64)
    (c : Connection) :
    Accounted (Active.step σ (.deregister c)) := by
  by_cases hc : c ∈ σ.registered
  · by_cases hholds : σ.Holds c
    · have hstep := h.step_own hn hspawned hc hholds
      rw [hstep]
      refine ⟨fun device conn hlookup => ?_, fun x hx => ?_⟩
      · rw [FMap.lookup_erase_ite] at hlookup
        split_ifs at hlookup
        exact h.entry device conn hlookup
      · rcases h.left x hx with hx' | hs
        · by_cases hdevice : x.device = c.device
          · obtain rfl : x = c := hx'.eq_of_device hholds hdevice
            exact .inr (.inr (.inl (Multiset.mem_cons_self _ _)))
          · exact .inl ((FMap.lookup_erase_ite _ _ _).trans ((if_neg hdevice).trans hx'))
        · exact .inr (hstep ▸ State.Signalled.step hs (.deregister c))
    · rwa [h.step_stale hn hspawned hc hholds]
  · simpa only [Active.step, if_neg hc] using h

theorem Accounted.step (h : Accounted σ) (hn : Numbered σ) (hspawned : σ.spawned ≤ 2 ^ 64)
    (ev : Event) :
    Accounted (Active.step σ ev) := by
  -- The other events keep the registry and the registered connections.
  have hkeep : (Active.step σ ev).active.inner = σ.active.inner →
      (Active.step σ ev).registered = σ.registered →
      Accounted (Active.step σ ev) := by
    intro hinner hregistered
    refine ⟨?_, fun x hx => ?_⟩
    · rw [hinner, hregistered]
      exact h.entry
    · rw [State.Holds, hinner]
      exact (h.left x (hregistered ▸ hx)).imp id fun hs => hs.step ev
  cases ev with
  | insert c => exact h.insert c
  | deregister c => exact h.deregister hn hspawned c
  | draw device => exact hkeep rfl rfl
  | dropRevoked valid => exact hkeep rfl rfl
  | notifyRevoked device => exact hkeep rfl rfl
  | abortReplaced task =>
    refine hkeep ?_ ?_
    all_goals
      simp only [Active.step]
      split_ifs <;> rfl
  | abortNotified task =>
    refine hkeep ?_ ?_
    all_goals
      simp only [Active.step]
      split_ifs <;> rfl

theorem spawned_step_le (σ : State) (ev : Event) : σ.spawned ≤ (step σ ev).spawned := by
  cases ev with
  | draw device => exact Nat.le_succ _
  | insert c => simp only [step]; split_ifs <;> exact Nat.le_refl _
  | abortReplaced task => simp only [step]; split_ifs <;> exact Nat.le_refl _
  | deregister c => simp only [step]; split <;> exact Nat.le_refl _
  | dropRevoked valid => exact Nat.le_refl _
  | notifyRevoked device => exact Nat.le_refl _
  | abortNotified task => simp only [step]; split_ifs <;> exact Nat.le_refl _

/-! ## Every run -/

theorem numbered_run (evs : List Event) : Numbered (run step {} evs) :=
  run_induction (I := fun _ σ => Numbered σ) ⟨rfl, by simp, by simp⟩ fun _ ev _ _ h => h.step ev

theorem accounted_run (evs : List Event) (h : (run step {} evs).spawned ≤ 2 ^ 64) :
    Accounted (run step {} evs) := by
  refine run_induction (I := fun pre σ => Numbered σ ∧ (σ.spawned ≤ 2 ^ 64 → Accounted σ))
    ⟨⟨rfl, by simp, by simp⟩, fun _ => ⟨by simp, by simp⟩⟩ (fun pre ev _ _ hI => ?_) |>.2 h
  refine ⟨hI.1.step ev, fun hspawned => ?_⟩
  have hbefore := (spawned_step_le _ ev).trans hspawned
  exact (hI.2 hbefore).step hI.1 hbefore ev

theorem signalled_run (h : σ.Signalled c) (evs : List Event) : (run step σ evs).Signalled c :=
  run_induction (I := fun _ σ => State.Signalled σ c) h fun _ ev _ _ h => h.step ev

/-- What `drop_revoked` aborts: every entry of a device that is not valid. -/
theorem mem_dropRevoked {conn : Conn} (h : σ.active.inner.lookup device = some conn)
    (hdevice : device ∉ valid) :
    conn.abort ∈ σ.active.dropRevoked valid := by
  refine Multiset.mem_map.mpr ⟨⟨device, conn⟩, Multiset.mem_filter.mpr ⟨?_, hdevice⟩, rfl⟩
  exact Finmap.mem_lookup_iff.mp h

/-- In every interleaving with at most `2^64` registrations: `deregister` removes no entry but that
of its caller; every registered connection that is not in the registry was aborted, has deregistered
itself, or is aborted next by the call that replaced it; so that after `drop_revoked`, and ever
after, this holds of all connections of the revoked devices. -/
theorem connections_accounted (evs : List Event) (σ : State) (hσ : σ = run step {} evs)
    (hspawned : σ.spawned ≤ 2 ^ 64) :
    (∀ c ∈ σ.registered, ∀ c', c' ≠ c → σ.Holds c' → (step σ (.deregister c)).Holds c') ∧
      (∀ c ∈ σ.registered, ¬ σ.Holds c → σ.Signalled c) ∧
      ∀ valid, ∀ c ∈ σ.registered, c.device ∉ valid → ∀ later,
        (run step σ (.dropRevoked valid :: later)).Signalled c := by
  have hn : Numbered σ := hσ ▸ numbered_run evs
  have h : Accounted σ := by
    subst hσ
    exact accounted_run evs hspawned
  refine ⟨fun c hc c' hne hholds => ?_, fun c hc hholds => (h.left c hc).resolve_left hholds, ?_⟩
  · by_cases hcaller : σ.Holds c
    · have hdevice : c'.device ≠ c.device := fun hdevice => hne (hholds.eq_of_device hcaller hdevice)
      rw [h.step_own hn hspawned hc hcaller]
      exact (FMap.lookup_erase_ite _ _ _).trans ((if_neg hdevice).trans hholds)
    · rwa [h.step_stale hn hspawned hc hcaller]
  · intro valid c hc hdevice later
    refine signalled_run ?_ later
    rcases h.left c hc with hholds | hs
    · exact .inl (Multiset.mem_add.mpr (.inl (mem_dropRevoked hholds hdevice)))
    · exact hs.step _

/-- A device. -/
def phone : DeviceId := ⟨7⟩

/-- Connection `n` of the phone, if no other device connects. -/
def phoneConnection (n : Nat) : Connection := ⟨phone, BitVec.ofNat 64 (n + 1), n⟩

/-- The phone reconnects `n` times, and each call of `register` is over before the next one. -/
def reconnects : Nat → List Event
  | 0 => [.draw phone, .insert (phoneConnection 0)]
  | n + 1 => reconnects n ++ [.draw phone, .insert (phoneConnection (n + 1)), .abortReplaced n]

theorem connections_accounted_reconnect :
    (step (run step {} (reconnects 1)) (.deregister (phoneConnection 0))).Holds (phoneConnection 1) ∧
      (run step {} (reconnects 1)).Signalled (phoneConnection 0) := by
  obtain ⟨hstale, hleft, -⟩ := connections_accounted (reconnects 1) _ rfl (by decide)
  exact ⟨hstale (phoneConnection 0) (by decide) (phoneConnection 1) (by decide) (by decide),
    hleft (phoneConnection 0) (by decide) (by decide)⟩

/-- After `n` reconnections: the registry has connection `n`, and the earlier ones are aborted. -/
structure Reconnected (n : Nat) (σ : State) : Prop where
  active : σ.active = ⟨Finmap.singleton phone ⟨BitVec.ofNat 64 (n + 1), n⟩, BitVec.ofNat 64 (n + 1 + 1)⟩
  spawned : σ.spawned = n + 1
  waiting : σ.waiting = 0
  replacing : σ.replacing = 0
  deregistered : σ.deregistered = 0
  first : phoneConnection 0 ∈ σ.registered
  last : phoneConnection n ∈ σ.registered
  aborted : ∀ task ∈ σ.aborted, task < n

theorem reconnected (n : Nat) : Reconnected n (run step {} (reconnects n)) := by
  induction n with
  | zero => exact ⟨rfl, rfl, rfl, rfl, rfl, by decide, by decide, by decide⟩
  | succ n ih =>
    rw [reconnects, run_append]
    generalize run step {} (reconnects n) = σ at ih ⊢
    obtain ⟨active, spawned, waiting, replacing, notified, registered, aborted, deregistered⟩ := σ
    obtain ⟨hactive, hspawned, hwaiting, hreplacing, hderegistered, hfirst, hlast, haborted⟩ := ih
    dsimp only at hactive hspawned hwaiting hreplacing hderegistered hfirst hlast haborted
    subst hactive hspawned hwaiting hreplacing hderegistered
    have hnext : BitVec.ofNat 64 (n + 1 + 1) + 1 = BitVec.ofNat 64 (n + 1 + 1 + 1) :=
      (BitVec.ofNat_add ..).symm
    simp only [run_cons, run_nil, step, ActiveDevices.drawId, ActiveDevices.insert, phoneConnection,
      hnext, Multiset.mem_cons_self, if_true, Finmap.lookup_singleton_eq,
      Finmap.insert_singleton_eq, Option.map_some, Option.toList_some, Multiset.coe_singleton,
      add_zero, Multiset.mem_singleton, Multiset.erase_cons_head]
    refine ⟨rfl, rfl, rfl, ?_, rfl, Multiset.mem_cons_of_mem hfirst, Multiset.mem_cons_self _ _, ?_⟩
    · exact Multiset.erase_singleton n
    · exact Multiset.forall_mem_cons.mpr ⟨Nat.lt_succ_self n, fun task h => Nat.lt_succ_of_lt (haborted task h)⟩

/-- Once the ids have wrapped, the first connection has the id of the last one, and removes its
entry. -/
theorem first_removes_last {n : Nat} (hid : BitVec.ofNat 64 (n + 1) = 1) {σ : State}
    (h : Reconnected n σ) :
    step σ (.deregister (phoneConnection 0)) =
      { σ with
        active := { σ.active with inner := σ.active.inner.erase phone }
        deregistered := phoneConnection 0 ::ₘ σ.deregistered } := by
  have hremoved : σ.active.deregister phone 1 =
      (true, { σ.active with inner := σ.active.inner.erase phone }) := by
    rw [ActiveDevices.deregister, h.active, Finmap.lookup_singleton_eq, Option.any_some,
      if_pos (decide_eq_true hid)]
  simp only [step, if_pos h.first]
  rw [show (phoneConnection 0).device = phone from rfl, show (phoneConnection 0).id = 1 from rfl,
    hremoved]
  rfl

/-- A registered connection that is out of the registry, and neither aborted nor deregistered by
itself. -/
def State.Lost (σ : State) (c : Connection) : Prop :=
  c ∈ σ.registered ∧ ¬ σ.Holds c ∧ c.task ∉ σ.aborted ∧ c ∉ σ.deregistered

instance (σ : State) (c : Connection) : Decidable (σ.Lost c) := inferInstanceAs (Decidable (_ ∧ _))

theorem last_lost {n : Nat} (hid : BitVec.ofNat 64 (n + 1) = 1) (hpos : 0 < n) {σ : State}
    (h : Reconnected n σ) :
    (step σ (.deregister (phoneConnection 0))).Lost (phoneConnection n) := by
  rw [first_removes_last hid h]
  refine ⟨h.last, fun hholds => ?_, fun haborted => Nat.lt_irrefl n (h.aborted n haborted), fun hmem => ?_⟩
  · have hnone : (σ.active.inner.erase phone).lookup phone = none := Finmap.lookup_erase _ _
    exact nomatch hnone.symm.trans hholds
  · rw [h.deregistered] at hmem
    have htask := congrArg Connection.task (Multiset.mem_singleton.mp hmem)
    exact absurd htask (Nat.ne_of_gt hpos)

theorem Reconnected.holds {n : Nat} {σ : State} (h : Reconnected n σ) :
    σ.Holds (phoneConnection n) := by
  rw [State.Holds, h.active]
  exact Finmap.lookup_singleton_eq

theorem ofNat_wrapped : BitVec.ofNat 64 (2 ^ 64 + 1) = 1 := by decide

/-- The two ways in which a connection gets lost: after `2^64` registrations its id is that of the
first connection, which removes its entry; or the call that has replaced it is between the insertion
and the abort, and a revocation comes in between. -/
theorem connections_lost :
    (run step {} (reconnects (2 ^ 64))).Holds (phoneConnection (2 ^ 64)) ∧
      (step (run step {} (reconnects (2 ^ 64))) (.deregister (phoneConnection 0))).Lost (phoneConnection (2 ^ 64)) ∧
      (run step {} [.draw phone, .insert (phoneConnection 0), .draw phone, .insert (phoneConnection 1),
        .dropRevoked []]).Lost (phoneConnection 0) :=
  ⟨(reconnected (2 ^ 64)).holds, last_lost ofNat_wrapped (Nat.two_pow_pos 64) (reconnected (2 ^ 64)), by decide⟩

end Portty.Host.Active
