import Portty.Transport.HandshakeServer

/-!
# Many handshakes that share one window

Any number of server handshakes share a `PairingState` and a rate limiter, and take their steps in
any order, between openings of the window and claims. Between two openings at most
`globalFirstPairCap` challenges go to devices without a token, whatever the keys of the limiter and
the device ids are, and none outside an open window (`first_pair_guesses_bounded`).

A device that the handshake exempts from the window gets a challenge also when it is closed
(`exempt_device_challenged_outside_window`).
-/

namespace Portty

open Handshake Run ServerHandshake

variable {C : Crypto}

/-- The shared locks, and the handshakes with their states. -/
structure Pool where
  locks : Locks
  handshakes : List (ServerHandshake × ServerState)

/-- What the connections do, in any order. -/
inductive PoolEvent (C : Crypto) where
  /-- A connection, with any configuration. -/
  | connect (h : ServerHandshake)
  /-- The handshake number `i` receives a message. -/
  | receive (i : Nat) (entropy : Entropy C) (message : HandshakeMessage)
  | rotate (secrets : List PairingSecret) (now dur : Nat)
  | «open» (now dur : Nat)
  | consume (now : Nat) (epoch : BitVec 64)
  /-- A holder of a lock panics. -/
  | poison (window limiter : Bool)

/-- The event opens a new opportunity. -/
def PoolEvent.opens : PoolEvent C → Bool
  | rotate .. | «open» .. => true
  | _ => false

namespace Pool

variable (σ : Pool)

/-- The pairing state changes, under its lock. -/
def withPairing (f : PairingState → PairingState) : Pool :=
  { σ with locks.pairingState.value := f σ.locks.pairingState.value }

/-- One event. -/
def step : PoolEvent C → Pool
  | .connect h => { σ with handshakes := σ.handshakes ++ [(h, .awaitingHello)] }
  | .receive i entropy message =>
    match σ.handshakes[i]? with
    | none => σ
    | some (h, s) =>
      let (_, s', locks) := h.step s σ.locks entropy message
      { locks, handshakes := σ.handshakes.set i (h, s') }
  | .rotate secrets now dur => σ.withPairing (·.rotate secrets now dur)
  | .open now dur => σ.withPairing (·.open now dur)
  | .consume now epoch => σ.withPairing fun s => (s.consumeFirstPair now epoch).2
  | .poison window limiter =>
    { σ with
      locks.pairingState.poisoned := σ.locks.pairingState.poisoned || window
      locks.rateLimiter.poisoned := σ.locks.rateLimiter.poisoned || limiter }

/-- The event is a message for a handshake at which `p` holds. -/
def holdsAt (p : Nat → ServerHandshake → ServerState → Incoming C → Bool) : PoolEvent C → Bool
  | .receive i entropy message =>
    match σ.handshakes[i]? with
    | none => false
    | some (h, s) => p i h s ⟨message, σ.locks, entropy⟩
  | _ => false

end Pool

/-! ## The attempts that are left -/

namespace PairingState

/-- The number of attempts that the window still allows. -/
def slots (s : PairingState) : Nat :=
  if s.window.openUntil = none then 0 else globalFirstPairCap - s.window.globalFailures

theorem slots_le (s : PairingState) : s.slots ≤ globalFirstPairCap := by
  unfold slots
  split <;> omega

/-- An attempt that is allowed uses up a slot. -/
theorem slots_gate (s : PairingState) (now : Nat) (e : Option (BitVec 64)) :
    (match (s.gateFirstPair now e).1 with | .allow _ => 1 | _ => 0) +
      (s.gateFirstPair now e).2.slots ≤ s.slots := by
  rcases s.gateFirstPair_cases now e with ⟨h, hn⟩ | ⟨hopen, -, hcap, h⟩
  · rw [h]
    cases hg : (s.gateFirstPair now e).1 with
    | allow e' => exact absurd hg (hn e')
    | closed | locked => simp
  · have hne : s.window.openUntil ≠ none := by
      intro hnone
      simp [isOpen, EnrollmentWindow.isOpen, hnone] at hopen
    have hcap' : globalFirstPairCap = 1024 := rfl
    rw [h]
    simp only [slots, saturatingSucc, if_neg hne]
    omega

theorem slots_consume (s : PairingState) (now : Nat) (e : BitVec 64) :
    (s.consumeFirstPair now e).2.slots ≤ s.slots := by
  simp only [consumeFirstPair, EnrollmentWindow.consumeFirstPair]
  split
  · exact Nat.le_refl _
  · exact Nat.zero_le _

end PairingState

namespace ServerHandshake

theorem slots_enroll (h : ServerHandshake) (locks : Locks) (now : Nat) (device : DeviceId) :
    (match (h.enroll locks now device).1 with | .ok (some _) => 1 | _ => 0) +
      (h.enroll locks now device).2.pairingState.value.slots ≤ locks.pairingState.value.slots := by
  rcases h.enroll_cases locks now device with ⟨hl, hn⟩ | ⟨-, hl, ha⟩
  · rw [hl]
    split
    · exact absurd ‹_› (hn _)
    · exact Nat.le_of_eq (Nat.zero_add _)
  · have hg := locks.pairingState.value.slots_gate now h.snapshotEpoch
    rw [hl]
    split
    · rwa [ha _ ‹_›] at hg
    · exact Nat.le_trans (Nat.add_le_add_right (Nat.zero_le _) _) hg

/-- The step is a challenge to a device for which the handshake holds no token. -/
def challengesTokenless (h : ServerHandshake) (s : ServerState) (i : Incoming C) : Bool :=
  match i.message with
  | .hello device _ _ _ => h.isFirstPair device && h.challenges s i
  | _ => false

/-- The message is the Hello of a device that the handshake exempts from the window. -/
def exempts (h : ServerHandshake) (i : Incoming C) : Bool :=
  match i.message with
  | .hello device _ _ _ => h.enrollmentExemptDevice = some device
  | _ => false

/-- The step is a challenge that the window has to let through. -/
def challengesGated (h : ServerHandshake) (s : ServerState) (i : Incoming C) : Bool :=
  h.challengesTokenless s i && !h.exempts i

/-- Such a challenge is one that the gate has allowed. -/
theorem enroll_of_challengesGated {h : ServerHandshake} {i : Incoming C} {device : DeviceId}
    {version : BitVec 16} {name : String} {eph : BitVec 256} (hw : h.windowed = true)
    (hm : i.message = .hello device version name eph)
    (hc : h.challengesGated .awaitingHello i = true) :
    ∃ e, (h.enroll i.locks i.entropy.now device).1 = .ok (some e) ∧
      (h.stepHello i.locks i.entropy device version name eph).2.2.pairingState =
        (h.enroll i.locks i.entropy.now device).2.pairingState := by
  simp only [challengesGated, challengesTokenless, exempts, hm, Bool.and_eq_true,
    Bool.not_eq_true', decide_eq_false_iff_not] at hc
  obtain ⟨⟨hf, hc⟩, hx⟩ := hc
  have hstep : h.step .awaitingHello i.locks i.entropy i.message =
      h.stepHello i.locks i.entropy device version name eph := by rw [hm]; rfl
  rw [challenges, answer, hstep] at hc
  rcases h.stepHello_cases i.locks i.entropy device version name eph with
    ⟨reason, locks, hh⟩ | ⟨locks, hh⟩ | ⟨-, epoch, locks₁, _, _, _, he, hl, -, -, hh⟩
  · rw [hh] at hc; cases hc
  · rw [hh] at hc; cases hc
  · obtain ⟨e, rfl⟩ := enroll_firstPair he hw hf hx
    have hlim := h.limited_pairingState locks₁ i.entropy.later
    rw [hl] at hlim
    exact ⟨e, by rw [he], by rw [hh, he]; exact hlim⟩

/-- A step pays for the challenge it sends from the slots of the window. -/
theorem slots_step {h : ServerHandshake} (hw : h.windowed = true) (s : ServerState)
    (i : Incoming C) :
    (h.challengesGated s i).toNat +
      (h.step s i.locks i.entropy i.message).2.2.pairingState.value.slots ≤
      i.locks.pairingState.value.slots := by
  rcases h.step_cases s i.locks i.entropy i.message with
    ⟨device, version, name, eph, rfl, hm, hr⟩ | ⟨c, proof, rfl, hm, hr⟩ | hr
  · have he := h.slots_enroll i.locks i.entropy.now device
    rw [hr]
    cases hc : h.challengesGated .awaitingHello i with
    | true =>
      obtain ⟨e, ha, hp⟩ := enroll_of_challengesGated hw hm hc
      rw [ha] at he
      rw [hp]
      exact he
    | false =>
      rcases h.stepHello_pairingState i.locks i.entropy device version name eph with hp | hp
      · rw [hp]; exact Nat.le_of_eq (Nat.zero_add _)
      · rw [hp]
        exact Nat.le_trans (Nat.add_le_add_right (Nat.zero_le _) _) he
  · have hc : h.challengesGated (.sentChallenge c) i = false := by
      simp [challengesGated, challengesTokenless, hm]
    rw [hc, hr]
    rcases h.stepProof_cases C c i.locks proof with ⟨r, hp⟩ | ⟨reason, hp⟩ <;>
      rw [hp] <;> simp [refuse]
  · have hc : h.challengesGated s i = false := by
      simp only [challengesGated, challengesTokenless, challenges, answer, hr]
      split <;> simp
    rw [hc, hr]
    exact Nat.le_of_eq (Nat.zero_add _)

end ServerHandshake

namespace Pool

variable {σ : Pool} {evs : List (PoolEvent C)}

/-- Every handshake has the shared window. -/
def Windowed (σ : Pool) : Prop := ∀ x ∈ σ.handshakes, x.1.windowed = true

/-- Every connection of the run has the shared window. -/
def WindowedRun (evs : List (PoolEvent C)) : Prop := ∀ h, .connect h ∈ evs → h.windowed = true

/-- Every handshake is windowed as long as only such ones connect. -/
theorem windowed_step (h : σ.Windowed) {ev : PoolEvent C}
    (hev : ∀ h', ev = .connect h' → h'.windowed = true) : (σ.step ev).Windowed := by
  intro x hx
  cases ev with
  | connect h' =>
    rcases List.mem_append.mp hx with hx | hx
    · exact h x hx
    · rw [List.mem_singleton.mp hx]; exact hev h' rfl
  | receive i entropy message =>
    simp only [step] at hx
    split at hx
    · exact h x hx
    · rename_i h' s hi
      rcases List.mem_or_eq_of_mem_set hx with hx | rfl
      · exact h x hx
      · exact h (h', s) (List.mem_of_getElem? hi)
  | _ => exact h x hx

/-- Every event but an opening pays for the challenge it is from the slots of the window. -/
theorem slots_le_of_step (h : σ.Windowed) {ev : PoolEvent C} (ho : ev.opens = false) :
    (σ.holdsAt (fun _ => challengesGated) ev).toNat +
      (σ.step ev).locks.pairingState.value.slots ≤ σ.locks.pairingState.value.slots := by
  cases ev with
  | receive i entropy message =>
    simp only [holdsAt, step]
    cases hi : σ.handshakes[i]? with
    | none => exact Nat.le_of_eq (Nat.zero_add _)
    | some x => exact slots_step (h x (List.mem_of_getElem? hi)) x.2 ⟨message, σ.locks, entropy⟩
  | consume now epoch =>
    exact (Nat.zero_add _).trans_le (σ.locks.pairingState.value.slots_consume now epoch)
  | rotate | «open» => cases ho
  | connect | poison => exact Nat.le_of_eq (Nat.zero_add _)

/-- What is left to evaluate for the handshake number `k`. -/
def pendingAt (k : Nat) (σ : Pool) : Nat :=
  match σ.handshakes[k]? with
  | none => 1
  | some (_, s) => pending s

/-- Every event pays for the evaluation it is. -/
theorem pendingAt_step (k : Nat) (σ : Pool) (ev : PoolEvent C) :
    (σ.holdsAt (fun i _ s m => i = k && evaluates s m) ev).toNat + pendingAt k (σ.step ev) ≤
      pendingAt k σ := by
  cases ev with
  | connect h =>
    simp only [holdsAt, step, pendingAt, Bool.toNat_false, Nat.zero_add]
    rcases Nat.lt_trichotomy k σ.handshakes.length with hk | rfl | hk
    · rw [List.getElem?_append_left hk]
    · simp [pending]
    · simp [List.getElem?_eq_none, Nat.le_of_lt hk, Nat.succ_le_of_lt hk]
  | receive i entropy message =>
    simp only [holdsAt, step]
    cases hi : σ.handshakes[i]? with
    | none => exact Nat.le_of_eq (Nat.zero_add _)
    | some x =>
      by_cases hk : i = k
      · subst hk
        have hp := x.1.pending_step x.2 ⟨message, σ.locks, entropy⟩
        have hlt := (List.getElem?_eq_some_iff.mp hi).1
        simp only [pendingAt, hi, List.getElem?_set_self hlt, decide_true, Bool.true_and]
        exact hp
      · simp only [pendingAt, List.getElem?_set_ne hk, hk, decide_false, Bool.false_and,
          Bool.toNat_false, Nat.zero_add, Nat.le_refl]
  | _ => exact Nat.le_of_eq (Nat.zero_add _)

/-- A challenge that the window has to let through is sent while it is open. -/
theorem isOpen_of_challengesGated {h : ServerHandshake} (hw : h.windowed = true) {s : ServerState}
    {i : Incoming C} (hc : h.challengesGated s i = true) :
    i.locks.pairingState.value.isOpen i.entropy.now = true := by
  have hch : h.challenges s i = true := by
    simp only [challengesGated, challengesTokenless] at hc
    split at hc
    · simp only [Bool.and_eq_true] at hc; exact hc.1.2
    · cases hc
  rcases h.step_cases s i.locks i.entropy i.message with
    ⟨device, version, name, eph, rfl, hm, -⟩ | ⟨c, proof, rfl, hm, hr⟩ | hr
  · obtain ⟨e, ha, -⟩ := enroll_of_challengesGated hw hm hc
    rcases h.enroll_cases i.locks i.entropy.now device with ⟨-, hn⟩ | ⟨-, -, hg⟩
    · exact absurd ha (hn e)
    · exact (PairingState.gateFirstPair_eq_allow (hg e ha)).2.1
  · rw [challenges, answer, hr] at hch
    rcases h.stepProof_cases C c i.locks proof with ⟨r, hp⟩ | ⟨reason, hp⟩ <;>
      rw [hp] at hch <;> cases hch
  · rw [challenges, answer, hr] at hch
    cases hch

/-- For every interleaving of handshakes that share a window and a limiter, with openings and
claims: at most `globalFirstPairCap` challenges between two openings go to devices without a token,
devices that are exempt from the window apart; each is sent while the window is open; and every
handshake evaluates at most one proof. -/
theorem first_pair_guesses_bounded (σ : Pool) (evs : List (PoolEvent C)) (hw : σ.Windowed)
    (hev : WindowedRun evs) :
    (∀ pre seg post, evs = pre ++ seg ++ post → (∀ ev ∈ seg, ev.opens = false) →
      count step (holdsAt · fun _ => challengesGated) (run step σ pre) seg ≤ globalFirstPairCap) ∧
    (∀ pre i entropy message post, evs = pre ++ .receive i entropy message :: post →
      (run step σ pre).holdsAt (fun _ => challengesGated) (.receive i entropy message) = true →
      (run step σ pre).locks.pairingState.value.isOpen entropy.now = true) ∧
    ∀ k, count step (holdsAt · fun i _ s m => i = k && evaluates s m) σ evs ≤ 1 := by
  have hall : ∀ pre post, evs = pre ++ post → (run step σ pre).Windowed := by
    intro pre post he
    refine run_induction (I := fun _ => Windowed) hw fun pre' ev post' he' h => ?_
    refine windowed_step h fun h' hh => hev h' ?_
    rw [he, he', hh]
    simp
  refine ⟨fun pre seg post he ho => ?_, fun pre i entropy message post he hc => ?_, fun k => ?_⟩
  · refine Nat.le_trans (count_le_of_invariant (I := Windowed)
      (fun σ => σ.locks.pairingState.value.slots) (fun σ ev hmem h => ?_)
      (fun σ ev hmem h => slots_le_of_step h (ho ev hmem))
      (hall pre (seg ++ post) (by simpa using he)))
      (PairingState.slots_le _)
    exact windowed_step h fun h' hh => hev h' (by rw [he, ← hh]; simp [hmem])
  · simp only [holdsAt] at hc
    split at hc
    · cases hc
    · rename_i h s hi
      exact isOpen_of_challengesGated (hall pre _ he _ (List.mem_of_getElem? hi)) hc
  · refine Nat.le_trans (count_le (pendingAt k) (pendingAt_step k) σ evs) ?_
    unfold pendingAt
    split
    · exact Nat.le_refl 1
    · rename_i h s _
      exact pending_le s

section Runs

/-- A host with one secret, whose window was opened at 0 (or not at all), and no handshake yet. -/
def hostPool (opened : Bool) : Pool :=
  let state := PairingState.new [.ticket 8]
  { locks := ⟨⟨{}, false⟩, ⟨if opened then state.open 0 enrollmentWindow else state, false⟩⟩
    handshakes := [] }

/-- A connection armed by the snapshot of that host, with a device that is exempt or not. -/
def connectEvent (opened : Bool) (exempt : Option DeviceId) : PoolEvent Crypto.affine :=
  .connect
    { ServerHandshake.withFirstPair { deviceId := ⟨1⟩, displayName := "host" }
        ((hostPool opened).locks.pairingState.value.snapshot 1) with
      enrollmentExemptDevice := exempt }

/-- The Hello of a device without a token. -/
def helloEvent : PoolEvent Crypto.affine :=
  .receive 0 ⟨1, 1, ⟨7⟩, (4 : BitVec 256)⟩ (.hello ⟨2⟩ protocolVersion "phone" 3)

theorem first_pair_guesses_bounded_one_hello :
    (run step (hostPool true) [connectEvent true none]).holdsAt (fun _ => challengesGated)
        helloEvent = true ∧
      count step (holdsAt · fun _ => challengesGated) (hostPool true)
        [connectEvent true none, helloEvent] ≤ globalFirstPairCap := by
  refine ⟨by decide +kernel, ?_⟩
  have hev : WindowedRun [connectEvent true none, helloEvent] := by
    intro h hmem
    rcases List.mem_cons.mp hmem with he | he
    · cases he; rfl
    · cases List.mem_singleton.mp he
  have hopens : ∀ ev ∈ [connectEvent true none, helloEvent], ev.opens = false := by
    simp [connectEvent, helloEvent, PoolEvent.opens]
  have hw : (hostPool true).Windowed := fun x hx => absurd hx List.not_mem_nil
  have hbounds := first_pair_guesses_bounded (hostPool true) _ hw hev
  have hall := hbounds.1 [] [connectEvent true none, helloEvent] [] rfl hopens
  rwa [run_nil] at hall

/-- An exempt device without a token gets a challenge while the window is closed. -/
theorem exempt_device_challenged_outside_window :
    (run step (hostPool false) [connectEvent false (some ⟨2⟩)]).holdsAt
        (fun _ => challengesTokenless) helloEvent = true ∧
      (run step (hostPool false)
        [connectEvent false (some ⟨2⟩)]).locks.pairingState.value.isOpen 1 = false := by
  decide +kernel

end Runs

end Pool

end Portty
