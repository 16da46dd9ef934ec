import Portty.App.LinkGuardLedger
import Portty.Lib.Run
import Portty.Lib.Table

/-!
# The guard never eats the keyboard (`linkGuard.ts`)

`typed_input_accounted`: every run of the guard has a ledger that accounts for all that was typed,
and a run in which no operation without an open session comes during a check does not stay in the
hold `checking` when its checks are answered. `checking_hold_left`: else it can stay there.
-/

namespace Portty.App.LinkGuard

variable {g : LinkGuard} {p : Probe} {i : Nat} {session : Nat} {data : Text} {now : Int}

/-! ## Steps -/

/-- The guard has a ledger. -/
def Kept (g : LinkGuard) : Prop := ∃ pieces, Inv g.log g.hold g.held pieces

theorem Kept.same {g' : LinkGuard} (h : Kept g) (hlog : g'.log = g.log) (hhold : g'.hold = g.hold)
    (hheld : g'.held = g.held) : Kept g' := by
  unfold Kept
  rw [hlog, hhold, hheld]
  exact h

theorem Kept.plain (h : Kept g) {c : Call} (hc : c.plain = true) : Kept (g.call c) := by
  obtain ⟨pieces, hp⟩ := h
  exact ⟨pieces, hp.plain hc⟩

theorem Kept.setHold (h : Kept g) (why : LinkHold) : Kept (g.setHold (some why)) := by
  unfold LinkGuard.setHold
  split
  · exact h
  · obtain ⟨pieces, hp⟩ := h
    exact ⟨pieces, hp.enter why⟩

/-- `HeldInput.hold` keeps a piece of the session it holds for, or spoils the hold. -/
theorem hold_cases (held : HeldInput) (session : Nat) (data : Text) (now : Int) :
    (∃ held', held.hold session data now = (true, held') ∧ held.spoiled = false ∧
      held'.spoiled = held.spoiled ∧ (held.session = none ∨ held.session = some session) ∧
      held'.session = some session ∧ held'.chunks = held.chunks ++ [data] ∧
      held'.chars = held.chars + data.length) ∨
    (∃ held', held.hold session data now = (false, held') ∧ held'.session ≠ none ∧
      held'.spoiled = true ∧ held.chars ≤ held'.chars) := by
  have hbegin : (held.begin session now).session = some (held.session.getD session) ∧
      (held.begin session now).spoiled = held.spoiled ∧ (held.begin session now).chunks = held.chunks := by
    unfold HeldInput.begin
    cases hs : held.session <;> simp [hs]
  obtain ⟨hsession, hspoiled, hchunks⟩ := hbegin
  unfold HeldInput.hold
  by_cases hbad : (held.begin session now).spoiled = true ∨
      (held.begin session now).session ≠ some session ∨
      now - (held.begin session now).since > (held.begin session now).maxAgeMs ∨
      held.chars + data.length > (held.begin session now).maxChars
  · refine .inr ⟨_, if_pos hbad, ?_, rfl, Nat.le_add_right _ _⟩
    simp [hsession]
  · refine .inl ⟨_, if_neg hbad, ?_⟩
    simp only [not_or, ne_eq, not_not] at hbad
    obtain ⟨hs, hsame, -, -⟩ := hbad
    refine ⟨by simpa [hspoiled] using hs, hspoiled, ?_, hsame, by simp only [hchunks], rfl⟩
    rw [hsession] at hsame
    cases hheld : held.session with
    | none => exact .inl rfl
    | some s => exact .inr (by simpa [hheld] using hsame)

/-- A piece goes to the link, or is held, or spoils the hold and is dropped. -/
theorem Kept.input (h : Kept g) (session : Nat) (data : Text) (now : Int) :
    Kept (g.input session data now) := by
  obtain ⟨pieces, hp⟩ := h
  unfold LinkGuard.input
  by_cases hhold : g.hold = none
  · simp only [call, hhold, ↓reduceIte, List.append_assoc]
    rw [hhold] at hp
    exact ⟨_, hp.live session data⟩
  · simp only [call, hhold, ↓reduceIte]
    rcases hold_cases g.held session data now with
      ⟨held, he, hs, hspoiled, hother, hsession, hchunks, hchars⟩ | ⟨held, he, hsession, hspoiled, hchars⟩
    · simp only [he]
      exact ⟨_, hp.kept hhold hspoiled hsession hs hother hchunks hchars⟩
    · simp only [he, List.append_assoc]
      exact ⟨_, hp.refused hhold hsession hspoiled hchars _⟩

theorem setHold_none (g : LinkGuard) : g.stopAwaiting.setHold none =
    { g.stopAwaiting with hold := none, log := g.log ++ ends g.hold } := by
  unfold LinkGuard.setHold ends stopAwaiting
  by_cases hhold : g.hold = none <;> simp [hhold, call]

/-- What was held is dropped, and a call tells the user if it was anything. -/
theorem Kept.clear (h : Kept g) {c : Call} (hc : c.plain = true)
    (ht : g.held.chars ≠ 0 → c.tells = true) :
    Kept { g with hold := none, held := g.held.reset, log := g.log ++ ends g.hold ++ [c] } := by
  obtain ⟨pieces, hp⟩ := h
  by_cases h0 : g.held.chars = 0
  · exact ⟨_, (hp.quiet (hp.text_of_chars h0)).plain hc⟩
  · exact ⟨_, hp.tells hc (ht h0)⟩

theorem Kept.quiet (h : Kept g) (h0 : g.held.chars = 0) :
    Kept { g with hold := none, held := g.held.reset, log := g.log ++ ends g.hold } := by
  obtain ⟨pieces, hp⟩ := h
  exact ⟨_, hp.quiet (hp.text_of_chars h0)⟩

theorem Kept.drop (h : Kept g) (notice : Notice) : Kept (g.drop notice) := by
  simp only [LinkGuard.drop, HeldInput.clear, setHold_none]
  simp only [stopAwaiting]
  by_cases h0 : g.held.chars = 0
  · simp only [h0, ne_eq, not_true_eq_false, ↓reduceIte]
    exact (h.quiet h0).same rfl rfl rfl
  · simp only [h0, ne_eq, not_false_eq_true, ↓reduceIte]
    exact (h.clear (c := .notify notice) rfl fun _ => rfl).same rfl rfl rfl

/-- What is held is delivered as a whole, or dropped with a notice. -/
theorem Kept.restored (h : Kept g) (session : Nat) (now : Int) : Kept (g.restored session now) := by
  simp only [LinkGuard.restored, HeldInput.take, setHold_none]
  simp only [stopAwaiting]
  by_cases hwhole : g.held.spoiled = false ∧ g.held.session = some session ∧
      now - g.held.since ≤ g.held.maxAgeMs
  · obtain ⟨hspoiled, hsession, -⟩ := id hwhole
    obtain ⟨pieces, hp⟩ := h
    simp only [hwhole, and_self, ↓reduceIte, ne_eq, not_true_eq_false]
    by_cases hd : g.held.chunks.flatten = []
    · simp only [hd, not_true_eq_false, ↓reduceIte]
      exact ⟨_, hp.quiet ((hp.chunks hspoiled).symm.trans hd)⟩
    · simp only [hd, not_false_eq_true, ↓reduceIte]
      exact ⟨_, hp.delivers hspoiled hsession⟩
  · simp only [hwhole, ↓reduceIte, ne_eq, not_true_eq_false]
    by_cases h0 : g.held.chars = 0
    · simp only [h0, not_true_eq_false, ↓reduceIte]
      exact (h.quiet h0).same rfl rfl rfl
    · simp only [h0, not_false_eq_true, ↓reduceIte]
      exact (h.clear (c := .notify .heldInputDropped) rfl fun _ => rfl).same rfl rfl rfl

/-- What is held is delivered if its session is still there, else dropped. -/
theorem Kept.settle (h : Kept g) (session : Nat) (report : Bool) (now : Int) :
    Kept (g.settle session report now) := by
  unfold LinkGuard.settle
  split
  · by_cases hr : report = true
    · simp only [hr, ↓reduceIte]
      exact (h.restored session now).plain rfl
    · simp only [hr, Bool.false_eq_true, ↓reduceIte]
      exact h.restored session now
  · by_cases hr : report = true
    · simp only [hr, ↓reduceIte, HeldInput.clear, setHold_none]
      simp only [stopAwaiting]
      refine (h.clear (c := .report ⟨false, g.held.chars⟩) rfl fun h0 => ?_).same rfl rfl rfl
      simpa [Call.tells] using h0
    · simp only [hr, Bool.false_eq_true, ↓reduceIte]
      exact h.drop _

/-- An answer delivers what is held, or the guard goes on to hold. -/
theorem Kept.onAnswer (h : Kept g) (p : Probe) (alive linkSettled : Bool) (now : Int) :
    Kept (g.onAnswer p alive linkSettled now) := by
  unfold LinkGuard.onAnswer
  split
  · exact h
  · split
    · cases p.session with
      | none => exact h
      | some session =>
        dsimp only
        split
        · exact h.restored session now
        · exact h
    · split
      · exact (h.setHold .reconnecting).plain rfl
      · exact h.plain rfl

theorem Kept.checked (h : Kept g) (i : Nat) (linkSettled : Bool) (now : Int) :
    Kept (g.checked i linkSettled now) := by
  unfold LinkGuard.checked
  split
  · split
    · refine Kept.onAnswer ?_ ..
      exact h.same rfl rfl rfl
    · exact h
  · exact h

theorem Kept.step (h : Kept g) (ev : Event) : Kept (g.step ev) := by
  cases ev with
  | input session data now => exact h.input session data now
  | verify session =>
    simp only [LinkGuard.step, LinkGuard.verify]
    by_cases hs : session = none
    · simp only [hs, ne_eq, not_true_eq_false, ↓reduceIte]
      exact h.same rfl rfl rfl
    · simp only [hs, ne_eq, not_false_eq_true, ↓reduceIte]
      have h' : Kept { g with check := g.check + 1 } := h.same rfl rfl rfl
      exact (h'.setHold .checking).same rfl rfl rfl
  | ping i answered => exact h.same rfl rfl rfl
  | probeTimeout i => exact h.same rfl rfl rfl
  | checked i linkSettled now => exact h.checked i linkSettled now
  | linkLost session =>
    simp only [LinkGuard.step, LinkGuard.linkLost]
    have h' : Kept { g with check := g.check + 1, listed := none }.stopAwaiting :=
      h.same rfl rfl rfl
    split
    · exact h'.setHold .reconnecting
    · exact h'
  | sessionsListed ids now =>
    simp only [LinkGuard.step, LinkGuard.sessionsListed]
    have h' : Kept { g with listed := some ids } := h.same rfl rfl rfl
    split
    · exact h'.settle _ _ now
    · exact h'
  | reattached session report now =>
    simp only [LinkGuard.step, LinkGuard.reattached]
    have h' : Kept g.stopAwaiting := h.same rfl rfl rfl
    split
    · exact h'.settle session report now
    · exact h'.same rfl rfl rfl
  | restored session now => exact h.restored session now
  | abandon => exact h.drop _
  | awaitTimeout =>
    simp only [LinkGuard.step, LinkGuard.awaitTimeout]
    split
    · have h' : Kept { g with awaiting := none } := h.same rfl rfl rfl
      exact h'.drop _
    · exact h

/-! ## The hold `checking` -/

/-- A check without an open session, or a lost link without one, does not come during a check. -/
def Meets (g : LinkGuard) : Event → Prop
  | .verify none | .linkLost none => g.hold ≠ some .checking
  | _ => True

instance (g : LinkGuard) : (ev : Event) → Decidable (Meets g ev)
  | .verify none | .linkLost none => inferInstanceAs (Decidable (g.hold ≠ some .checking))
  | .verify (some _) | .linkLost (some _) | .input .. | .ping .. | .probeTimeout _ | .checked ..
  | .sessionsListed .. | .reattached .. | .restored .. | .abandon | .awaitTimeout => .isTrue trivial

/-- Some check will end the hold: the newest one, for an open session, is not answered on a settled
link. -/
def Watched (g : LinkGuard) : Prop :=
  g.hold = some .checking → ∃ (i : Nat) (p : Probe), g.probes[i]? = some p ∧ p.check = g.check ∧
    p.session ≠ none ∧ p.answer ≠ .done true

theorem Watched.of_ne (h : g.hold ≠ some .checking) : Watched g := fun he => absurd he h

theorem Watched.same {g' : LinkGuard} (h : Watched g) (hhold : g'.hold = g.hold)
    (hprobes : g'.probes = g.probes) (hcheck : g'.check = g.check) : Watched g' := by
  unfold Watched
  rw [hhold, hprobes, hcheck]
  exact h

theorem input_frame (g : LinkGuard) (session : Nat) (data : Text) (now : Int) :
    (g.input session data now).hold = g.hold ∧ (g.input session data now).probes = g.probes ∧
      (g.input session data now).check = g.check := by
  unfold LinkGuard.input
  dsimp only
  split
  · exact ⟨rfl, rfl, rfl⟩
  · split <;> exact ⟨rfl, rfl, rfl⟩

theorem restored_hold (g : LinkGuard) (session : Nat) (now : Int) :
    (g.restored session now).hold = none := by
  unfold LinkGuard.restored
  rw [setHold_none]
  dsimp only
  split <;> split <;> rfl

theorem drop_hold (g : LinkGuard) (notice : Notice) : (g.drop notice).hold = none := by
  unfold LinkGuard.drop
  rw [setHold_none]
  dsimp only
  split <;> rfl

theorem settle_hold (g : LinkGuard) (session : Nat) (report : Bool) (now : Int) :
    (g.settle session report now).hold = none := by
  unfold LinkGuard.settle
  split
  · cases report <;> exact restored_hold g session now
  · split
    · rw [setHold_none]
      rfl
    · exact drop_hold g _

theorem Watched.resolve (h : Watched g) (i : Nat) (alive : Bool) : Watched (g.resolve i alive) := by
  intro hc
  obtain ⟨j, p, hp, hcheck, hsession, hanswer⟩ := h hc
  by_cases hij : i = j
  · subst hij
    refine ⟨i, _, Table.modify_self hp _, ?_⟩
    split
    · exact ⟨hcheck, hsession, nofun⟩
    · exact ⟨hcheck, hsession, hanswer⟩
  · exact ⟨j, p, (Table.modify_of_ne (Ne.symm hij) _).trans hp, hcheck, hsession, hanswer⟩

theorem setHold_hold (g : LinkGuard) (hold : Option LinkHold) : (g.setHold hold).hold = hold := by
  unfold LinkGuard.setHold
  split
  · assumption
  · rfl

/-- The answer of the newest check for an open session ends the hold. -/
theorem onAnswer_hold {alive : Bool} (hcheck : p.check = g.check) (hsession : p.session ≠ none) :
    (g.onAnswer p alive true now).hold ≠ some .checking := by
  obtain ⟨session, hs⟩ := Option.ne_none_iff_exists'.mp hsession
  unfold LinkGuard.onAnswer
  simp only [hcheck, ne_eq, not_true_eq_false, Bool.true_eq_false, or_self, ↓reduceIte, hs]
  by_cases hc : g.hold = some .checking
  · cases alive
    · simp only [hc, ↓reduceIte, Bool.false_eq_true]
      show (g.setHold (some .reconnecting)).hold ≠ some .checking
      simp [setHold_hold]
    · simp [hc, restored_hold]
  · cases alive <;> simp [hc, call]

/-- An answer changes nothing, or the hold is not that of a check after it. -/
theorem onAnswer_cases (g : LinkGuard) (p : Probe) (alive linkSettled : Bool) (now : Int) :
    g.onAnswer p alive linkSettled now = g ∨
      (g.onAnswer p alive linkSettled now).hold ≠ some .checking := by
  unfold LinkGuard.onAnswer
  by_cases hover : p.check ≠ g.check ∨ linkSettled = false
  · exact .inl (if_pos hover)
  · simp only [hover, ↓reduceIte]
    by_cases hc : g.hold = some .checking
    · cases alive with
      | true =>
        cases p.session with
        | none => exact .inl rfl
        | some session => exact .inr (by simp [hc, restored_hold])
      | false =>
        refine .inr ?_
        simp only [hc, ↓reduceIte, Bool.false_eq_true]
        show (g.setHold (some .reconnecting)).hold ≠ some .checking
        simp [setHold_hold]
    · cases alive with
      | true =>
        refine .inl ?_
        cases p.session <;> simp [hc]
      | false => exact .inr (by simp [hc, call])

/-- Only the newest check ends the hold. -/
theorem Watched.checked (h : Watched g) (i : Nat) (linkSettled : Bool) (now : Int) :
    Watched (g.checked i linkSettled now) := by
  unfold LinkGuard.checked
  split
  · rename_i p hp
    split
    · rename_i alive ha
      intro hc
      dsimp only at hc ⊢
      rcases onAnswer_cases _ p alive linkSettled now with he | hne
      case inr => exact absurd hc hne
      have hhold : g.hold = some .checking := by
        rw [he] at hc
        exact hc
      rw [he]
      obtain ⟨j, q, hq, hqc, hqs, hqa⟩ := h hhold
      by_cases hij : i = j
      · subst hij
        obtain rfl : p = q := Option.some.inj (hp.symm.trans hq)
        cases linkSettled with
        | true => exact absurd hc (onAnswer_hold hqc hqs)
        | false => exact ⟨i, _, Table.modify_self hp _, hqc, hqs, nofun⟩
      · exact ⟨j, q, (Table.modify_of_ne (Ne.symm hij) _).trans hq, hqc, hqs, hqa⟩
    · exact h
  · exact h

theorem Watched.step (h : Watched g) {ev : Event} (hm : Meets g ev) : Watched (g.step ev) := by
  cases ev with
  | input session data now =>
    obtain ⟨hhold, hprobes, hcheck⟩ := input_frame g session data now
    exact h.same hhold hprobes hcheck
  | verify session =>
    simp only [LinkGuard.step, LinkGuard.verify]
    cases session with
    | none => exact .of_ne hm
    | some session =>
      intro _
      simp only [ne_eq, reduceCtorEq, not_false_eq_true, ↓reduceIte]
      exact ⟨_, _, List.getElem?_concat_length .., rfl, nofun, nofun⟩
  | ping i answered => exact h.resolve i answered
  | probeTimeout i => exact h.resolve i false
  | checked i linkSettled now => exact h.checked i linkSettled now
  | linkLost session =>
    simp only [LinkGuard.step, LinkGuard.linkLost]
    cases session with
    | none => exact .of_ne hm
    | some session =>
      refine .of_ne ?_
      simp [setHold_hold]
  | sessionsListed ids now =>
    simp only [LinkGuard.step, LinkGuard.sessionsListed]
    split
    · exact .of_ne (by simp [settle_hold])
    · exact h.same rfl rfl rfl
  | reattached session report now =>
    simp only [LinkGuard.step, LinkGuard.reattached]
    split
    · exact .of_ne (by simp [settle_hold])
    · exact h.same rfl rfl rfl
  | restored session now => exact .of_ne (by simp [LinkGuard.step, restored_hold])
  | abandon => exact .of_ne (by simp [LinkGuard.step, LinkGuard.abandon, drop_hold])
  | awaitTimeout =>
    simp only [LinkGuard.step, LinkGuard.awaitTimeout]
    split
    · exact .of_ne (by simp [LinkGuard.abandon, drop_hold])
    · exact h

/-! ## The result -/

/-- Every check was answered while the link was settled. -/
def Answered (g : LinkGuard) : Prop := ∀ p ∈ g.probes, p.answer = .done true

/-- A guard with limits of its own. -/
def start (maxChars : Nat) (maxAgeMs : Int) : LinkGuard := { held := { maxChars, maxAgeMs } }

theorem kept_start (maxChars : Nat) (maxAgeMs : Int) : Kept (start maxChars maxAgeMs) :=
  ⟨[], { ok := nofun, every := nofun, sorted := .nil, written := nofun, inOrder := .nil, whole := nofun
         waits := nofun, now := rfl, free := fun _ => rfl, blank := fun _ => ⟨rfl, nofun⟩
         current := nofun, settled := nofun, before := nofun, chunks := fun _ => rfl, session := nofun
         chars := Nat.zero_le _ }⟩

/-- Typed input is written once, in order, for its own session, or the user is told; and the checks
end the hold they began. -/
theorem typed_input_accounted (maxChars : Nat) (maxAgeMs : Int) (evs : List Event) :
    let g := Run.run LinkGuard.step (start maxChars maxAgeMs) evs
    (∃ pieces, Accounted g.log pieces) ∧
      (Run.Along LinkGuard.step Meets (start maxChars maxAgeMs) evs → Answered g →
        g.hold ≠ some .checking) := by
  intro g
  refine ⟨?_, fun hm ha hc => ?_⟩
  · have hkept : Kept g :=
      Run.run_induction (I := fun _ g => Kept g) (kept_start maxChars maxAgeMs)
        fun _ ev _ _ h => h.step ev
    obtain ⟨pieces, hp⟩ := hkept
    exact ⟨pieces, hp.toAccounted⟩
  · have hwatched : Watched g := hm.induction (.of_ne nofun) fun _ _ h hev => h.step hev
    obtain ⟨i, p, hp, -, -, hne⟩ := hwatched hc
    exact hne (ha p (List.mem_of_getElem? hp))

/-- Two checks of an open session, of which the second overtakes the first, and typing in between.
-/
theorem typed_input_accounted_overtaken :
    let evs : List Event := [.verify (some 5), .input 5 [97] 0, .verify (some 5), .ping 0 false,
      .checked 0 true 1, .ping 1 true, .checked 1 true 1]
    let g := Run.run LinkGuard.step (start maxHeldInputChars maxHeldInputAgeMs) evs
    Answered g ∧ g.hold ≠ some .checking ∧ Call.deliver 5 [97] ∈ g.log :=
  ⟨by unfold Answered; decide, (typed_input_accounted _ _ _).2 (by decide) (by unfold Answered; decide),
    by decide⟩

/-- A check without an open session overtakes the one that holds typing: both are answered, and
typing is held still. -/
theorem checking_hold_left :
    let evs : List Event := [.verify (some 5), .verify none, .ping 0 true, .ping 1 true,
      .checked 0 true 0, .checked 1 true 0]
    let g := Run.run LinkGuard.step (start maxHeldInputChars maxHeldInputAgeMs) evs
    Answered g ∧ g.hold = some .checking :=
  ⟨by unfold Answered; decide, by decide⟩

end Portty.App.LinkGuard
