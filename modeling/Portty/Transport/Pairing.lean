import Portty.Lib.Map
import Portty.Transport.Crypto

/-!
# Rate limits and the enrollment window (`crypto/pairing.rs`)

* `PairingRateLimiter`, `KeyedPairingRateLimiter`: exponential backoff for each source.
* `EnrollmentWindow`: the time-boxed opportunity to pair a new device, with a global cap on
  attempts. Its `epoch` changes at every opening and closing.
* `PairingState`: the armed secrets together with the window, and what a connection captures of
  both (`PairingSnapshot`).

An `Instant` is a number of nanoseconds, and a function that reads the clock gets the time as its
argument `now`. `elapsed` is 0 before the instant. The counters of the limiter saturate at
`u32::MAX`; the epoch of the window wraps at `2^64`.

The last part is about every interleaving of the operations of a `PairingState`
(`enrollment_generation_binding`).
-/

namespace Portty

/-- Nanoseconds of a number of seconds. -/
def secs (n : Nat) : Nat := n * 10 ^ 9

/-- `u32::saturating_add(1)`. -/
def saturatingSucc (n : Nat) : Nat := min (n + 1) (2 ^ 32 - 1)

/-! ## Backoff -/

/-- The backoff of one source. -/
structure PairingRateLimiter where
  failures : Nat := 0
  lastAttempt : Option Nat := none
  deriving DecidableEq, Repr

namespace PairingRateLimiter

/-- One second, doubled with each failure up to ten minutes. -/
def currentWait (l : PairingRateLimiter) : Nat :=
  if l.failures = 0 then 0
  else min (secs (2 ^ min (l.failures - 1) 10)) (secs 600)

/-- An attempt is refused while the wait lasts. -/
def check (l : PairingRateLimiter) (now : Nat) : Except SyncError Unit :=
  match l.lastAttempt with
  | none => .ok ()
  | some last => if now - last < l.currentWait then .error .rateLimited else .ok ()

/-- An attempt that is allowed counts as a failure until it succeeds. -/
def checkAndReserve (l : PairingRateLimiter) (now : Nat) :
    Except SyncError Unit × PairingRateLimiter :=
  match l.check now with
  | .error e => (.error e, l)
  | .ok () => (.ok (), { failures := saturatingSucc l.failures, lastAttempt := some now })

/-- The last attempt is twenty minutes ago. -/
def isCold (l : PairingRateLimiter) (now : Nat) : Bool :=
  match l.lastAttempt with
  | none => true
  | some t => secs 1200 < now - t

end PairingRateLimiter

/-- The backoff of every source that is not cold. -/
structure KeyedPairingRateLimiter where
  perKey : FMap String PairingRateLimiter := ∅
  deriving DecidableEq

namespace KeyedPairingRateLimiter

/-- Limits that are cold are dropped. -/
def gcCold (l : KeyedPairingRateLimiter) (now : Nat) : KeyedPairingRateLimiter :=
  ⟨l.perKey.filterMap fun _ rl => if rl.isCold now then none else some rl⟩

/-- The limit of the key, after the cold ones were dropped. -/
def checkAndReserve (l : KeyedPairingRateLimiter) (key : String) (now : Nat) :
    Except SyncError Unit × KeyedPairingRateLimiter :=
  let l := l.gcCold now
  let (r, rl) := ((l.perKey.lookup key).getD {}).checkAndReserve now
  (r, ⟨l.perKey.insert key rl⟩)

/-- A success forgets the failures of the key. -/
def recordSuccess (l : KeyedPairingRateLimiter) (key : String) : KeyedPairingRateLimiter :=
  ⟨l.perKey.erase key⟩

end KeyedPairingRateLimiter

/-! ## The enrollment window -/

/-- How long new devices can pair. -/
def enrollmentWindow : Nat := secs 300

/-- First pairings that are tried in one window, over all addresses. -/
def globalFirstPairCap : Nat := 1024

/-- What a handshake of an unknown device is told. -/
inductive FirstPairGate where
  | allow (epoch : BitVec 64)
  | closed
  | locked
  deriving DecidableEq, Repr

/-- Till when new devices can pair, and which window it is. -/
structure EnrollmentWindow where
  openUntil : Option Nat := none
  globalFailures : Nat := 0
  epoch : BitVec 64 := 0
  deriving DecidableEq, Repr

namespace EnrollmentWindow

/-- A new window begins. -/
def «open» (w : EnrollmentWindow) (now dur : Nat) : EnrollmentWindow :=
  { openUntil := some (now + dur), globalFailures := 0, epoch := w.epoch + 1 }

/-- The window ends, and what was let in under it is of an old epoch. -/
def close (w : EnrollmentWindow) : EnrollmentWindow :=
  { openUntil := none, globalFailures := 0, epoch := w.epoch + 1 }

/-- The deadline is not reached. -/
def isOpen (w : EnrollmentWindow) (now : Nat) : Bool :=
  match w.openUntil with
  | some deadline => now < deadline
  | none => false

/-- `EnrollmentWindow::epoch`: the id of the current opportunity, if there is one. -/
def currentEpoch (w : EnrollmentWindow) (now : Nat) : Option (BitVec 64) :=
  if w.isOpen now then some w.epoch else none

/-- The window that was open then is open still. -/
def epochIsCurrent (w : EnrollmentWindow) (now : Nat) (epoch : BitVec 64) : Bool :=
  w.isOpen now && w.epoch = epoch

/-- An attempt is counted, and learns the epoch. -/
def checkAndReserveFirstPair (w : EnrollmentWindow) (now : Nat) :
    FirstPairGate × EnrollmentWindow :=
  if !w.isOpen now then (.closed, w)
  else if globalFirstPairCap ≤ w.globalFailures then (.locked, w)
  else (.allow w.epoch, { w with globalFailures := saturatingSucc w.globalFailures })

/-- The first pairing that commits closes the window. -/
def consumeFirstPair (w : EnrollmentWindow) (now : Nat) (epoch : BitVec 64) :
    Bool × EnrollmentWindow :=
  if !w.isOpen now || w.epoch ≠ epoch then (false, w) else (true, w.close)

end EnrollmentWindow

/-- The armed secrets and the window, behind one lock. -/
structure PairingState where
  secrets : List PairingSecret
  window : EnrollmentWindow
  deriving DecidableEq

/-- What one connection captures. -/
structure PairingSnapshot where
  secrets : List PairingSecret
  epoch : Option (BitVec 64)
  deriving DecidableEq

namespace PairingState

/-- Secrets without a window. -/
def new (secrets : List PairingSecret) : PairingState := ⟨secrets, {}⟩

/-- A window for the secrets that are there. -/
def «open» (s : PairingState) (now dur : Nat) : PairingState :=
  { s with window := s.window.open now dur }

/-- New secrets and a new window. -/
def rotate (s : PairingState) (secrets : List PairingSecret) (now dur : Nat) : PairingState :=
  { secrets, window := s.window.open now dur }

/-- What a handshake takes along when it starts. -/
def snapshot (s : PairingState) (now : Nat) : PairingSnapshot :=
  { secrets := s.secrets, epoch := s.window.currentEpoch now }

/-- A handshake that has begun under another window is refused. -/
def gateFirstPair (s : PairingState) (now : Nat) (snapshotEpoch : Option (BitVec 64)) :
    FirstPairGate × PairingState :=
  match snapshotEpoch with
  | some epoch =>
    if s.window.epochIsCurrent now epoch then
      let (g, w) := s.window.checkAndReserveFirstPair now
      (g, { s with window := w })
    else (.closed, s)
  | none => (.closed, s)

/-- The pairing claims the window. -/
def consumeFirstPair (s : PairingState) (now : Nat) (epoch : BitVec 64) : Bool × PairingState :=
  let (claimed, w) := s.window.consumeFirstPair now epoch
  (claimed, { s with window := w })

/-- New devices can pair. -/
def isOpen (s : PairingState) (now : Nat) : Bool := s.window.isOpen now

end PairingState

/-! ## Every interleaving -/

/-- The operations that change a `PairingState`, by any number of holders of snapshots. -/
inductive PairingEvent where
  | rotate (secrets : List PairingSecret) (dur : Nat)
  | «open» (dur : Nat)
  | gate (snapshotEpoch : Option (BitVec 64))
  | consume (epoch : BitVec 64)
  deriving DecidableEq

/-- The event opens a new opportunity. -/
def PairingEvent.opens : PairingEvent → Bool
  | rotate _ _ | «open» _ => true
  | gate _ | consume _ => false

namespace PairingState

variable {s : PairingState} {now : Nat} {ev : PairingEvent} {evs : List (Nat × PairingEvent)}

/-- One event. -/
def step (s : PairingState) (now : Nat) : PairingEvent → PairingState
  | .rotate secrets dur => s.rotate secrets now dur
  | .open dur => s.open now dur
  | .gate e => (s.gateFirstPair now e).2
  | .consume e => (s.consumeFirstPair now e).2

/-- The event is a successful claim. -/
def claims (s : PairingState) (now : Nat) : PairingEvent → Bool
  | .consume e => (s.consumeFirstPair now e).1
  | _ => false

/-- A run: each event with the time it happens at. -/
def run (s : PairingState) (evs : List (Nat × PairingEvent)) : PairingState :=
  evs.foldl (fun s x => s.step x.1 x.2) s

@[simp] theorem run_nil : s.run [] = s := rfl

@[simp] theorem run_cons : s.run ((now, ev) :: evs) = (s.step now ev).run evs := rfl

/-- The number of openings and closings of a run. -/
def bumps (s : PairingState) : List (Nat × PairingEvent) → Nat
  | [] => 0
  | (now, ev) :: evs =>
    (if ev.opens || s.claims now ev then 1 else 0) + (s.step now ev).bumps evs

/-- The number of successful claims of a run. -/
def claimCount (s : PairingState) : List (Nat × PairingEvent) → Nat
  | [] => 0
  | (now, ev) :: evs => (if s.claims now ev then 1 else 0) + (s.step now ev).claimCount evs

/-- The two states have the same opportunity: the same secrets, deadline and epoch. -/
structure SameOpportunity (s s' : PairingState) : Prop where
  secrets : s'.secrets = s.secrets
  openUntil : s'.window.openUntil = s.window.openUntil
  epoch : s'.window.epoch = s.window.epoch

theorem SameOpportunity.refl (s : PairingState) : SameOpportunity s s := ⟨rfl, rfl, rfl⟩

theorem SameOpportunity.trans {s₁ s₂ s₃ : PairingState} (h : SameOpportunity s₁ s₂)
    (h' : SameOpportunity s₂ s₃) : SameOpportunity s₁ s₃ :=
  ⟨h'.secrets.trans h.secrets, h'.openUntil.trans h.openUntil, h'.epoch.trans h.epoch⟩

/-- The gate changes nothing, or reserves an attempt of the open window of the snapshot. -/
theorem gateFirstPair_cases (s : PairingState) (now : Nat) (e : Option (BitVec 64)) :
    (s.gateFirstPair now e).2 = s ∧ (∀ e', (s.gateFirstPair now e).1 ≠ .allow e') ∨
    s.isOpen now = true ∧ e = some s.window.epoch ∧
      s.window.globalFailures < globalFirstPairCap ∧
      s.gateFirstPair now e = (.allow s.window.epoch,
        { s with window.globalFailures := saturatingSucc s.window.globalFailures }) := by
  cases e with
  | none => exact .inl ⟨rfl, nofun⟩
  | some e =>
    by_cases hcur : s.window.epochIsCurrent now e = true
    · obtain ⟨hopen, hepoch⟩ : s.window.isOpen now = true ∧ s.window.epoch = e := by
        simpa [EnrollmentWindow.epochIsCurrent] using hcur
      by_cases hcap : globalFirstPairCap ≤ s.window.globalFailures
      · left
        simp [gateFirstPair, EnrollmentWindow.checkAndReserveFirstPair, hcur, hopen, hcap]
      · right
        simp [gateFirstPair, EnrollmentWindow.checkAndReserveFirstPair, hcur, hopen, hcap, hepoch,
          isOpen, Nat.lt_of_not_le hcap]
    · left
      simp [gateFirstPair, hcur]

theorem sameOpportunity_gate (s : PairingState) (now : Nat) (e : Option (BitVec 64)) :
    SameOpportunity s (s.gateFirstPair now e).2 := by
  rcases s.gateFirstPair_cases now e with ⟨h, -⟩ | ⟨-, -, -, h⟩
  · rw [h]; exact .refl s
  · rw [h]; exact ⟨rfl, rfl, rfl⟩

/-- A step that is no opening and no claim keeps the opportunity. -/
theorem step_same (ho : ev.opens = false) (hc : s.claims now ev = false) :
    SameOpportunity s (s.step now ev) := by
  cases ev with
  | rotate secrets dur => cases ho
  | «open» dur => cases ho
  | gate e => exact sameOpportunity_gate s now e
  | consume e =>
    simp only [claims, consumeFirstPair, EnrollmentWindow.consumeFirstPair] at hc
    simp only [step, consumeFirstPair, EnrollmentWindow.consumeFirstPair]
    split at hc
    · rw [if_pos ‹_›]; exact .refl s
    · cases hc

/-- Every opening and every claim changes the epoch by one. -/
theorem step_epoch (s : PairingState) (now : Nat) (ev : PairingEvent) :
    (s.step now ev).window.epoch =
      s.window.epoch + BitVec.ofNat 64 (if ev.opens || s.claims now ev then 1 else 0) := by
  cases ev with
  | rotate secrets dur => rfl
  | «open» dur => rfl
  | gate e => simpa [step, PairingEvent.opens, claims] using (sameOpportunity_gate s now e).epoch
  | consume e =>
    simp only [step, claims, consumeFirstPair, EnrollmentWindow.consumeFirstPair]
    split <;> simp [PairingEvent.opens, EnrollmentWindow.close]

theorem run_epoch (s : PairingState) (evs : List (Nat × PairingEvent)) :
    (s.run evs).window.epoch = s.window.epoch + BitVec.ofNat 64 (s.bumps evs) := by
  induction evs generalizing s with
  | nil => simp [bumps]
  | cons x evs ih =>
    obtain ⟨now, ev⟩ := x
    rw [run_cons, ih, step_epoch, bumps, BitVec.ofNat_add, BitVec.add_assoc]

/-- Without openings and claims the opportunity is the same all along. -/
theorem same_of_bumps (h : s.bumps evs = 0) {pre post : List (Nat × PairingEvent)}
    (he : evs = pre ++ post) : SameOpportunity s (s.run pre) ∧ (s.run pre).bumps post = 0 := by
  subst he
  induction pre generalizing s with
  | nil => exact ⟨.refl s, h⟩
  | cons x pre ih =>
    obtain ⟨now, ev⟩ := x
    simp only [List.cons_append, bumps, Nat.add_eq_zero_iff] at h
    have hb : (ev.opens || s.claims now ev) = false := by
      cases hb : (ev.opens || s.claims now ev) with
      | false => rfl
      | true => rw [hb] at h; exact absurd h.1 (by simp)
    rw [Bool.or_eq_false_iff] at hb
    obtain ⟨h₁, h₂⟩ := ih h.2
    exact ⟨(step_same hb.1 hb.2).trans h₁, h₂⟩

theorem isOpen_of_le {w : EnrollmentWindow} {t t' : Nat} (h : w.isOpen t' = true) (ht : t ≤ t') :
    w.isOpen t = true := by
  unfold EnrollmentWindow.isOpen at *
  cases hw : w.openUntil with
  | none => rw [hw] at h; cases h
  | some deadline =>
    rw [hw] at h
    have := of_decide_eq_true h
    exact decide_eq_true (by omega)

theorem gateFirstPair_eq_allow {e' : Option (BitVec 64)} {e : BitVec 64}
    (h : (s.gateFirstPair now e').1 = .allow e) :
    e' = some e ∧ s.isOpen now = true ∧ s.window.epoch = e := by
  rcases s.gateFirstPair_cases now e' with ⟨-, hn⟩ | ⟨hopen, he, -, hg⟩
  · exact absurd h (hn e)
  · rw [hg] at h
    cases h
    exact ⟨he, hopen, rfl⟩

theorem consumeFirstPair_eq_true {e : BitVec 64} (h : (s.consumeFirstPair now e).1 = true) :
    s.isOpen now = true ∧ s.window.epoch = e := by
  unfold consumeFirstPair EnrollmentWindow.consumeFirstPair at h
  dsimp only at h
  split at h
  · cases h
  · rename_i hc
    simpa [isOpen] using hc

/-- A closed window stays closed until it is opened, and cannot be claimed. -/
theorem step_closed (now : Nat) (hw : s.window.openUntil = none) (ho : ev.opens = false) :
    s.claims now ev = false ∧ (s.step now ev).window.openUntil = none := by
  have hc : s.claims now ev = false := by
    cases ev with
    | consume e =>
      cases hc : s.claims now (.consume e) with
      | false => rfl
      | true =>
        have := (consumeFirstPair_eq_true hc).1
        rw [isOpen, EnrollmentWindow.isOpen, hw] at this
        cases this
    | _ => rfl
  exact ⟨hc, (step_same ho hc).openUntil.trans hw⟩

theorem claimCount_closed (hw : s.window.openUntil = none)
    (ho : ∀ x ∈ evs, x.2.opens = false) : s.claimCount evs = 0 := by
  induction evs generalizing s with
  | nil => rfl
  | cons x evs ih =>
    obtain ⟨now, ev⟩ := x
    obtain ⟨hc, hw'⟩ := step_closed now hw (ho _ List.mem_cons_self)
    rw [claimCount, hc, ih hw' fun y hy => ho y (List.mem_cons_of_mem _ hy)]
    rfl

/-- A claim closes the window. -/
theorem openUntil_of_claims (h : s.claims now ev = true) :
    (s.step now ev).window.openUntil = none := by
  cases ev with
  | consume e =>
    simp only [claims, consumeFirstPair, EnrollmentWindow.consumeFirstPair] at h
    simp only [step, consumeFirstPair, EnrollmentWindow.consumeFirstPair]
    split at h
    · cases h
    · rw [if_neg ‹_›]; rfl
  | _ => cases h

/-- One opening is claimed at most once. -/
theorem claimCount_le_one (ho : ∀ x ∈ evs, x.2.opens = false) : s.claimCount evs ≤ 1 := by
  induction evs generalizing s with
  | nil => exact Nat.zero_le _
  | cons x evs ih =>
    obtain ⟨now, ev⟩ := x
    have ho' : ∀ y ∈ evs, y.2.opens = false := fun y hy => ho y (List.mem_cons_of_mem _ hy)
    rw [claimCount]
    cases hc : s.claims now ev with
    | true => rw [claimCount_closed (openUntil_of_claims hc) ho']; decide
    | false => simpa using ih ho'

/-- The epoch of a snapshot that was taken at `t₀` is accepted at `t₁`, by the gate or by a claim.
-/
def Accepted (s : PairingState) (t₁ : Nat) (snap : PairingSnapshot) (e : BitVec 64) : Prop :=
  (s.gateFirstPair t₁ snap.epoch).1 = .allow e ∨
    snap.epoch = some e ∧ (s.consumeFirstPair t₁ e).1 = true

/-- In every interleaving with fewer than `2^64` openings and closings: if the epoch of a snapshot
is accepted, the snapshot's secrets are the armed ones, and since the snapshot the window was never
opened, claimed or expired. And one opening is claimed at most once. -/
theorem enrollment_generation_binding :
    (∀ (s : PairingState) (t₀ : Nat) (evs : List (Nat × PairingEvent)) (t₁ : Nat) (e : BitVec 64),
      (t₀ :: evs.map Prod.fst ++ [t₁]).Pairwise (· ≤ ·) → s.bumps evs < 2 ^ 64 →
      (s.run evs).Accepted t₁ (s.snapshot t₀) e →
      (s.snapshot t₀).epoch = some e ∧ (s.snapshot t₀).secrets = (s.run evs).secrets ∧
      (s.run evs).isOpen t₁ = true ∧ SameOpportunity s (s.run evs) ∧
      ∀ pre t ev post, evs = pre ++ (t, ev) :: post →
        (s.run pre).isOpen t = true ∧ SameOpportunity s (s.run pre) ∧ ev.opens = false ∧
          (s.run pre).claims t ev = false) ∧
    ∀ (s : PairingState) (evs : List (Nat × PairingEvent)), (∀ x ∈ evs, x.2.opens = false) →
      s.claimCount evs ≤ 1 := by
  refine ⟨?_, fun s evs => claimCount_le_one⟩
  intro s t₀ evs t₁ e hclock hbumps hacc
  obtain ⟨hsnap, hopen, hepoch⟩ : (s.snapshot t₀).epoch = some e ∧
      (s.run evs).isOpen t₁ = true ∧ (s.run evs).window.epoch = e := by
    rcases hacc with h | ⟨h, h'⟩
    · exact gateFirstPair_eq_allow h
    · exact ⟨h, consumeFirstPair_eq_true h'⟩
  -- the epoch is the same again, so it was never changed
  have hs : s.window.epoch = e := by
    simp only [snapshot, EnrollmentWindow.currentEpoch] at hsnap
    split at hsnap
    · exact Option.some.inj hsnap
    · cases hsnap
  have hzero : s.bumps evs = 0 := by
    have h := run_epoch s evs
    rw [hepoch, hs] at h
    have h' := congrArg BitVec.toNat (BitVec.self_eq_add_right.mp h)
    rwa [BitVec.toNat_ofNat, Nat.mod_eq_of_lt hbumps] at h'
  have hsame := (same_of_bumps hzero (List.append_nil evs).symm).1
  refine ⟨hsnap, hsame.secrets.symm, hopen, hsame, ?_⟩
  rintro pre t ev post rfl
  obtain ⟨hpre, hb⟩ := same_of_bumps hzero rfl
  rw [bumps, Nat.add_eq_zero_iff] at hb
  have hb' : (ev.opens || (s.run pre).claims t ev) = false := by
    cases hb' : (ev.opens || (s.run pre).claims t ev) with
    | false => rfl
    | true => rw [hb'] at hb; exact absurd hb.1 (by simp)
  rw [Bool.or_eq_false_iff] at hb'
  refine ⟨?_, hpre, hb'.1, hb'.2⟩
  have ht : t ≤ t₁ := by
    rw [List.pairwise_append] at hclock
    exact hclock.2.2 t (by simp) t₁ (List.mem_singleton_self _)
  have hw : (s.run pre).window.openUntil = (s.run (pre ++ (t, ev) :: post)).window.openUntil :=
    hpre.openUntil.trans hsame.openUntil.symm
  have := isOpen_of_le hopen ht
  rw [isOpen, EnrollmentWindow.isOpen, hw]
  exact this

/-- Two holders of the same snapshot: both pass the gate. -/
theorem enrollment_generation_binding_two_holders :
    ((new [.ticket 7]).open 0 enrollmentWindow).run [(1, .gate (some 1)), (2, .gate (some 1))] =
        ⟨[.ticket 7], ⟨some enrollmentWindow, 2, 1⟩⟩ ∧
      (⟨[.ticket 7], ⟨some enrollmentWindow, 2, 1⟩⟩ : PairingState).isOpen 3 = true ∧
      ((new [.ticket 7]).open 0 enrollmentWindow).claimCount
        [(1, .consume 1), (2, .consume 1)] ≤ 1 :=
  have h := enrollment_generation_binding.1 ((new [.ticket 7]).open 0 enrollmentWindow) 0
    [(1, .gate (some 1)), (2, .gate (some 1))] 3 1 (by decide) (by decide) (.inr (by decide))
  ⟨by decide, h.2.2.1, enrollment_generation_binding.2 _ _ (by decide)⟩

end PairingState

end Portty
