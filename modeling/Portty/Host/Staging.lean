import Mathlib.Data.Multiset.MapFold
import Portty.Lib.Run
import Portty.Lib.Tally
import Portty.Transport.Handshake

/-!
# Half-open dials of one source (`StagingGate` in `iroh_serve.rs`)

* `StagingGate.tryEnter` claims a slot, `StagingSlot.drop` is the `Drop` of a slot. Each of them has
  the lock of the map from its first access to its last, so that in any interleaving they come one
  after another.
* `State`: the gate with the slots that live. A slot can be dropped by any task, at any time.
* `slots_accounted`: the map has the number of live slots of every source, over every run.

Nothing between a lock and its unlock can panic: `*count += 1` is below the maximum, and
`saturating_sub` does not underflow. So the lock is never poisoned (`Accounted.sound`).
-/

namespace Portty.Host.Staging

open Run

/-- How many stagings of each key are under way. -/
structure StagingGate where
  inFlight : Mutex (FMap String Nat) := ⟨∅, false⟩

/-- The place of a staging. -/
structure StagingSlot where
  key : String
  deriving DecidableEq, Repr

/-- What a thread with the lock leaves in the map. -/
def StagingGate.write (gate : StagingGate) (value : FMap String Nat) : StagingGate :=
  ⟨{ gate.inFlight with value }⟩

/-- A slot for the source, unless it holds `max` of them or the lock is poisoned. -/
def StagingGate.tryEnter (gate : StagingGate) (key : String) (max : Nat) :
    Option StagingSlot × StagingGate :=
  if gate.inFlight.poisoned then (none, gate)
  else
    let count := (gate.inFlight.value.lookup key).getD 0
    let inFlight := gate.inFlight.value.insert key count
    if max ≤ count then (none, gate.write (if count = 0 then inFlight.erase key else inFlight))
    else (some ⟨key⟩, gate.write (inFlight.insert key (count + 1)))

/-- The place is free again, unless the lock is poisoned. -/
def StagingSlot.drop (slot : StagingSlot) (gate : StagingGate) : StagingGate :=
  if gate.inFlight.poisoned then gate
  else
    match gate.inFlight.value.lookup slot.key with
    | none => gate
    | some count =>
      let inFlight := gate.inFlight.value.insert slot.key (count - 1)
      gate.write (if count - 1 = 0 then inFlight.erase slot.key else inFlight)

/-- The count that the map has for a source. -/
def StagingGate.recorded (gate : StagingGate) (key : String) : Nat :=
  (gate.inFlight.value.lookup key).getD 0

/-- The gate and the slots that were returned and not dropped. -/
structure State where
  gate : StagingGate := {}
  live : Multiset StagingSlot := 0

/-- A staging begins or ends. -/
inductive Event where
  | enter (key : String) (max : Nat)
  | drop (slot : StagingSlot)
  deriving DecidableEq, Repr

/-- Only a slot that lives can be dropped. -/
def step (σ : State) : Event → State
  | .enter key max =>
    match σ.gate.tryEnter key max with
    | (some slot, gate) => ⟨gate, slot ::ₘ σ.live⟩
    | (none, gate) => ⟨gate, σ.live⟩
  | .drop slot => if slot ∈ σ.live then ⟨slot.drop σ.gate, σ.live.erase slot⟩ else σ

/-! ## One step -/

/-- The map counts the live slots. -/
structure Accounted (σ : State) : Prop where
  sound : σ.gate.inFlight.poisoned = false
  tally : Tally.Of σ.gate.inFlight.value (σ.live.map StagingSlot.key)

variable {σ : State} {key : String} {max : Nat} {slot : StagingSlot} {evs : List Event}

theorem count_key (live : Multiset StagingSlot) (key : String) :
    (live.map StagingSlot.key).count key = live.count ⟨key⟩ :=
  Multiset.count_map_eq_count' StagingSlot.key live (fun _ _ h => congrArg StagingSlot.mk h) ⟨key⟩

theorem Accounted.recorded_eq (h : Accounted σ) (key : String) :
    σ.gate.recorded key = σ.live.count ⟨key⟩ :=
  (h.tally.getD_lookup key).trans (count_key σ.live key)

theorem Accounted.tryEnter_eq (h : Accounted σ) (key : String) (max : Nat) :
    σ.gate.tryEnter key max =
      let inFlight := σ.gate.inFlight.value.insert key (σ.gate.recorded key)
      if max ≤ σ.gate.recorded key then
        (none, σ.gate.write (if σ.gate.recorded key = 0 then inFlight.erase key else inFlight))
      else (some ⟨key⟩, σ.gate.write (inFlight.insert key (σ.gate.recorded key + 1))) :=
  if_neg (by rw [h.sound]; decide)

/-- A source is refused at its maximum, and the map stays as it is. -/
theorem Accounted.tryEnter_refused (h : Accounted σ) (hmax : max ≤ σ.gate.recorded key) :
    σ.gate.tryEnter key max = (none, σ.gate) := by
  have hlookup := h.tally key
  rw [count_key, ← h.recorded_eq] at hlookup
  rw [h.tryEnter_eq]
  dsimp only
  rw [if_pos hmax]
  refine congrArg (Prod.mk none) (congrArg σ.gate.write (?_ : _ = σ.gate.inFlight.value))
  split_ifs with hzero
  · rw [if_pos hzero] at hlookup
    exact FMap.ext_at key (by simp [hlookup]) fun x hx => by simp [hx]
  · rw [if_neg hzero] at hlookup
    exact FMap.ext_at key (by simp [hlookup]) fun x hx => by simp [hx]

theorem Accounted.tryEnter_entered (h : Accounted σ) (hmax : σ.gate.recorded key < max) :
    σ.gate.tryEnter key max =
      (some ⟨key⟩, σ.gate.write (σ.gate.inFlight.value.insert key (σ.gate.recorded key + 1))) := by
  rw [h.tryEnter_eq]
  dsimp only
  rw [if_neg (Nat.not_le.mpr hmax), Finmap.insert_insert]

theorem Accounted.tryEnter_eq_none (h : Accounted σ) :
    (σ.gate.tryEnter key max).1 = none ↔ max ≤ σ.gate.recorded key := by
  rcases Nat.lt_or_ge (σ.gate.recorded key) max with hroom | hfull
  · rw [h.tryEnter_entered hroom]
    exact iff_of_false nofun (Nat.not_le.mpr hroom)
  · rw [h.tryEnter_refused hfull]
    exact iff_of_true rfl hfull

theorem Accounted.drop_eq (h : Accounted σ) (hlive : slot ∈ σ.live) :
    slot.drop σ.gate = σ.gate.write
      (if σ.gate.recorded slot.key = 1 then σ.gate.inFlight.value.erase slot.key
        else σ.gate.inFlight.value.insert slot.key (σ.gate.recorded slot.key - 1)) := by
  have hlookup := h.tally.lookup_of_mem (Multiset.mem_map_of_mem StagingSlot.key hlive)
  have hpos := Multiset.count_pos.mpr hlive
  rw [count_key] at hlookup
  rw [← h.recorded_eq] at hlookup hpos
  unfold StagingSlot.drop
  rw [if_neg (by rw [h.sound]; decide), hlookup]
  dsimp only
  rcases eq_or_ne (σ.gate.recorded slot.key) 1 with hlast | hmore
  · rw [if_pos hlast, if_pos (by omega)]
    exact congrArg σ.gate.write (FMap.ext_at slot.key (by simp) fun x hx => by simp [hx])
  · rw [if_neg hmore, if_neg (by omega)]

theorem Accounted.enter (h : Accounted σ) (key : String) (max : Nat) :
    Accounted (step σ (.enter key max)) := by
  rcases Nat.lt_or_ge (σ.gate.recorded key) max with hroom | hfull
  · simp only [step, h.tryEnter_entered hroom]
    refine ⟨h.sound, ?_⟩
    have htally := h.tally.insert_succ key
    rw [count_key, ← h.recorded_eq] at htally
    rwa [Multiset.map_cons]
  · simp only [step, h.tryEnter_refused hfull]
    exact h

theorem Accounted.drop (h : Accounted σ) (slot : StagingSlot) :
    Accounted (step σ (.drop slot)) := by
  simp only [step]
  split_ifs with hlive
  · rw [h.drop_eq hlive]
    refine ⟨h.sound, ?_⟩
    have hmem := Multiset.mem_map_of_mem StagingSlot.key hlive
    rw [Multiset.map_erase_of_mem StagingSlot.key σ.live hlive]
    split_ifs with hlast
    · exact h.tally.erase_last (by rw [count_key, ← h.recorded_eq, hlast])
    · have htally := h.tally.insert_pred (by rw [count_key, ← h.recorded_eq]; exact hlast) hmem
      rwa [count_key, ← h.recorded_eq] at htally
  · exact h

theorem Accounted.step (h : Accounted σ) (ev : Event) : Accounted (step σ ev) := by
  cases ev with
  | enter key max => exact h.enter key max
  | drop slot => exact h.drop slot

/-- The live slots of a source grow only by a call that stays below its maximum. -/
theorem Accounted.count_step_le (h : Accounted σ) {ev : Event} {n : Nat}
    (hn : σ.live.count ⟨key⟩ ≤ n)
    (hmax : ∀ m, ev = .enter key m → m ≤ n) : (Staging.step σ ev).live.count ⟨key⟩ ≤ n := by
  cases ev with
  | drop slot =>
    simp only [Staging.step]
    split_ifs
    · exact (Multiset.count_le_of_le _ (Multiset.erase_le slot σ.live)).trans hn
    · exact hn
  | enter key' max =>
    rcases Nat.lt_or_ge (σ.gate.recorded key') max with hroom | hfull
    · simp only [Staging.step, h.tryEnter_entered hroom, Multiset.count_cons, StagingSlot.mk.injEq]
      split_ifs with hkey
      · subst hkey
        rw [h.recorded_eq] at hroom
        exact Nat.le_trans hroom (hmax max rfl)
      · exact hn
    · simp only [Staging.step, h.tryEnter_refused hfull]
      exact hn

/-! ## Every run -/

theorem accounted_start : Accounted {} := ⟨rfl, Tally.Of.zero⟩

theorem accounted_run (evs : List Event) : Accounted (run step {} evs) :=
  run_induction (I := fun _ σ => Accounted σ) accounted_start fun _ ev _ _ h => h.step ev

/-- Over every interleaving of calls and drops: the recorded count of each source is the number of
its live slots, it is never above the largest maximum of its calls, a call is refused exactly when
its maximum is reached, and the map has an entry exactly for the sources with a slot. -/
theorem slots_accounted (evs : List Event) (σ : State) (hσ : σ = run step {} evs) (key : String) :
    σ.gate.recorded key = σ.live.count ⟨key⟩ ∧
    (∀ max, (∀ m, .enter key m ∈ evs → m ≤ max) → σ.gate.recorded key ≤ max) ∧
    (∀ max, (σ.gate.tryEnter key max).1 = none ↔ max ≤ σ.gate.recorded key) ∧
    (key ∈ σ.gate.inFlight.value ↔ 0 < σ.gate.recorded key) := by
  subst hσ
  have h := accounted_run evs
  refine ⟨h.recorded_eq key, fun max hmax => ?_, fun max => h.tryEnter_eq_none, ?_⟩
  · rw [h.recorded_eq]
    refine run_induction (I := fun _ (σ : State) => σ.live.count ⟨key⟩ ≤ max) (Nat.zero_le _)
      fun pre ev post he hcount => ?_
    refine (accounted_run pre).count_step_le hcount fun m hm => hmax m ?_
    rw [he, hm]
    exact List.mem_append_right _ List.mem_cons_self
  · rw [h.recorded_eq, ← count_key]
    exact h.tally.mem_iff

/-- The second dial of a source is refused at its maximum of one, and let in when the first one has
ended. -/
def twoDials : List Event := [.enter "ip:a" 1, .enter "ip:a" 1, .drop ⟨"ip:a"⟩, .enter "ip:a" 1]

theorem slots_accounted_twoDials : (run step {} twoDials).gate.recorded "ip:a" = 1 ∧
    (run step {} twoDials).gate.recorded "ip:a" ≤ 1 := by
  have h := slots_accounted twoDials _ rfl "ip:a"
  refine ⟨h.1.trans ?_, h.2.1 1 fun m hm => ?_⟩
  · decide +kernel
  · simp [twoDials] at hm
    omega

end Portty.Host.Staging
