import Mathlib.Data.List.TakeWhile
import Portty.App.Echo
import Portty.Lib.Run

/-!
# What confidence is earned by (`echo.ts`)

A run of calls is watched (`Trace`): the keys sent since the last command boundary, the output
received since then, and the units of confidence gained. Each unit should be an echo: a key of its
own, and an occurrence of its text of its own, in the output received after the key was sent, in the
order of the keys (`Earned`).

* `sampleEchoes_eq`: the loop takes the keys that the chunk contains, from the oldest one on, and
  never what it matched.
* `confidence_earned`: so confidence is earned as long as the keys that are taken from a chunk stand
  in it one after another.
-/

namespace Portty.Echo

open Find

/-! ## Watching -/

/-- What was sent and received since the last reset. -/
structure Trace where
  /-- The keys that were sent, each with the length of the output received before. -/
  keys : List (Text × Nat) := []
  output : Text := []
  gained : Nat := 0

/-- The predictor and its trace. -/
structure Watched where
  echo : PredictiveEcho := {}
  trace : Trace := {}

/-- A call in the trace. -/
def Trace.observe (t : Trace) (e : PredictiveEcho) : Call → Trace
  | .noteSent text _ => { t with keys := t.keys ++ [(text, t.output.length)] }
  | .onOutput plain now =>
    { t with output := t.output ++ plain, gained := t.gained + ((e.sampleEchoes plain now).confidence - e.confidence) }
  | .commandBoundary | .reset => {}
  | .onInput .. | .sweep _ => t

/-- A call. -/
def Watched.next (u : Unicode) (w : Watched) (c : Call) : Watched :=
  ⟨(w.echo.apply u c).1, w.trace.observe w.echo c⟩

/-- An occurrence of the text of a key. -/
structure Match where
  key : Text × Nat
  place : Nat

/-- Where the match ends. -/
def Match.stop (m : Match) : Nat := m.place + m.key.1.length

/-- Every unit is an echo of its own. -/
def Earned (t : Trace) : Prop :=
  ∃ matched : List Match, t.gained ≤ matched.length ∧ (matched.map Match.key).Sublist t.keys ∧
    matched.Pairwise (fun m m' => m.stop ≤ m'.place) ∧
    ∀ m ∈ matched, m.key.2 ≤ m.place ∧ Stands m.key.1 t.output m.place

/-- Some texts stand one after another. -/
def InOrder : List Text → Text → Prop
  | [], _ => True
  | text :: texts, plain => ∃ n, Stands text plain n ∧ InOrder texts (plain.drop (n + text.length))

/-- The oldest pending keys, as many as confidence has room for: if the chunk includes the text of
each of them, the texts stand in it one after another. -/
def EchoesInOrder (w : Watched) : Call → Prop
  | .onOutput plain _ => ∀ n ≤ maxConfidence - w.echo.confidence,
      (∀ p ∈ w.echo.pending.take n, includes plain p.text = true) →
        InOrder ((w.echo.pending.take n).map Pending.text) plain
  | _ => True

/-- The keys that the loop counts: those that the chunk includes, from the oldest one on, up to the
most confidence. -/
def counted (e : PredictiveEcho) (plain : Text) : List Text :=
  ((e.pending.takeWhile (includes plain ·.text)).take (maxConfidence - e.confidence)).map Pending.text

/-! ## The calls -/

variable {u : Unicode} {e : PredictiveEcho} {w : Watched} {text plain : Text} {now : Rat}
  {opts : InputOpts} {c : Call}

theorem takeEchoes_pending (plain : Text) (now : Rat) (pending : List Pending) (rtt : Rat)
    (confidence : Nat) :
    (PredictiveEcho.takeEchoes plain now pending rtt confidence).1 =
      pending.dropWhile (includes plain ·.text) := by
  induction pending generalizing rtt confidence with
  | nil => rfl
  | cons p pending ih =>
    rw [PredictiveEcho.takeEchoes, List.dropWhile_cons]
    split
    · exact ih _ _
    · rfl

theorem takeEchoes_confidence (plain : Text) (now : Rat) (pending : List Pending) (rtt : Rat)
    {confidence : Nat}
    (h : confidence ≤ maxConfidence) :
    (PredictiveEcho.takeEchoes plain now pending rtt confidence).2.2 =
      min maxConfidence (confidence + (pending.takeWhile (includes plain ·.text)).length) := by
  induction pending generalizing rtt confidence with
  | nil => exact (Nat.min_eq_right h).symm
  | cons p pending ih =>
    rw [PredictiveEcho.takeEchoes, List.takeWhile_cons]
    split
    · dsimp only
      rw [ih _ (Nat.min_le_left _ _), List.length_cons]
      omega
    · exact (Nat.min_eq_right h).symm

/-- What the loop gains is what it counts. -/
theorem gained_eq (plain : Text) (now : Rat) (h : e.confidence ≤ maxConfidence) :
    (e.sampleEchoes plain now).confidence - e.confidence = (counted e plain).length := by
  have hconf : (e.sampleEchoes plain now).confidence = _ :=
    takeEchoes_confidence plain now e.pending e.rtt h
  rw [hconf, counted, List.length_map, List.length_take]
  omega

theorem takeErase_pending :
    e.takeErase.1.pending = e.pending ∧ e.takeErase.1.confidence = e.confidence := by
  rw [PredictiveEcho.takeErase]
  split
  · exact ⟨rfl, rfl⟩
  · exact ⟨rfl, rfl⟩

/-- What is left of the keys, and of the confidence. -/
def Less (e e' : PredictiveEcho) : Prop :=
  e'.pending.Sublist e.pending ∧ e'.confidence ≤ e.confidence

theorem less_expireStale (e : PredictiveEcho) (now : Rat) : Less e (e.expireStale now) := by
  rw [PredictiveEcho.expireStale]
  split
  · exact ⟨List.filter_sublist, Nat.zero_le _⟩
  · exact ⟨List.Sublist.refl _, Nat.le_refl _⟩

theorem Less.takeErase {e' : PredictiveEcho} (h : Less e e') : Less e e'.takeErase.1 := by
  rw [Less, takeErase_pending.1, takeErase_pending.2]
  exact h

/-- Typing adds neither a pending key nor confidence. -/
theorem less_onInput (u : Unicode) (e : PredictiveEcho) (d : Text) (opts : InputOpts) (now : Rat) :
    Less e (e.onInput u d opts now).1 := by
  have h := less_expireStale e now
  rw [PredictiveEcho.onInput]
  split
  · exact h
  · split
    · split
      · exact h
      · exact h
    · split
      · exact h
      · split
        · exact h
        · exact h

theorem less_sweep (e : PredictiveEcho) (now : Rat) : Less e (e.sweep now).1 := by
  have h := less_expireStale e now
  rw [PredictiveEcho.sweep]
  split
  · exact h.takeErase
  · exact h

/-! ## Occurrences -/

/-- The places of texts that stand one after another. -/
theorem InOrder.places {keys : List (Text × Nat)} {whole : Text} {start : Nat}
    (h : InOrder (keys.map Prod.fst) (whole.drop start)) :
    ∃ matched :
    List Match, matched.map Match.key = keys ∧ matched.Pairwise (fun m m' => m.stop ≤ m'.place) ∧
      ∀ m ∈ matched, start ≤ m.place ∧ Stands m.key.1 whole m.place := by
  induction keys generalizing start with
  | nil => exact ⟨[], rfl, List.Pairwise.nil, nofun⟩
  | cons key keys ih =>
    obtain ⟨n, hn, hrest⟩ := h
    rw [List.drop_drop] at hrest
    obtain ⟨matched, hkeys, hpair, hall⟩ := ih hrest
    refine ⟨⟨key, start + n⟩ :: matched, by rw [List.map_cons, hkeys], List.pairwise_cons.mpr ⟨fun m hm => ?_, hpair⟩,
      List.forall_mem_cons.mpr ⟨⟨Nat.le_add_right _ _, Stands.drop.mp hn⟩, fun m hm => ?_⟩⟩
    · have := (hall m hm).1
      rw [Match.stop]
      dsimp only
      omega
    · have := (hall m hm).1
      exact ⟨by omega, (hall m hm).2⟩

/-! ## The invariant -/

/-- The keys are cut: up to the last matched one, and those that may still be pending. -/
structure Watching (w : Watched) : Prop where
  matched : ∃ (done rest : List (Text × Nat)) (matched : List Match), w.trace.keys = done ++ rest ∧
    matched.length = w.trace.gained ∧ (matched.map Match.key).Sublist done ∧
    matched.Pairwise (fun m m' => m.stop ≤ m'.place) ∧
    (∀ m ∈ matched, m.key.1 ≠ [] ∧ m.key.2 ≤ m.place ∧ Stands m.key.1 w.trace.output m.place) ∧
    (w.echo.pending.map Pending.text).Sublist (rest.map Prod.fst)
  sent : ∀ k ∈ w.trace.keys, k.2 ≤ w.trace.output.length
  texts : ∀ p ∈ w.echo.pending, p.text ≠ []
  gained : w.echo.confidence ≤ w.trace.gained
  most : w.echo.confidence ≤ maxConfidence

theorem Watching.earned (h : Watching w) : Earned w.trace := by
  obtain ⟨done, rest, matched, hkeys, hlen, hsub, hpair, hall, -⟩ := h.matched
  refine ⟨matched, Nat.le_of_eq hlen.symm, ?_, hpair, fun m hm => (hall m hm).2⟩
  rw [hkeys]
  exact hsub.trans (List.sublist_append_left done rest)

theorem watching_start : Watching {} :=
  ⟨⟨[], [], [], rfl, rfl, List.Sublist.slnil, List.Pairwise.nil, nofun, List.Sublist.slnil⟩, nofun, nofun, Nat.le_refl _,
    Nat.zero_le _⟩

/-- Calls that watch nothing new keep less. -/
theorem Watching.less {e' : PredictiveEcho} (h : Watching w) (hless : Less w.echo e') :
    Watching ⟨e', w.trace⟩ := by
  obtain ⟨done, rest, matched, hkeys, hlen, hsub, hpair, hall, hpending⟩ := h.matched
  exact ⟨⟨done, rest, matched, hkeys, hlen, hsub, hpair, hall, (hless.1.map _).trans hpending⟩, h.sent,
    fun p hp => h.texts p (hless.1.mem hp), Nat.le_trans hless.2 h.gained, Nat.le_trans hless.2 h.most⟩

theorem graphemeCellWidth_ne_nil (h : (graphemeCellWidth u text).isSome = true) : text ≠ [] := by
  rintro rfl
  rw [graphemeCellWidth, if_pos (.inl rfl)] at h
  cases h

theorem isBackspace_ne_nil (h : isBackspace text = true) : text ≠ [] := by
  rintro rfl
  cases h

theorem noteSent_cases (u : Unicode) (e : PredictiveEcho) (text : Text) (now : Rat) :
    (e.noteSent u text now).confidence = e.confidence ∧
      ((e.noteSent u text now).pending = e.pending ∨
      text ≠ [] ∧ (e.noteSent u text now).pending.Sublist (e.pending ++ [⟨text, now⟩])) := by
  rw [PredictiveEcho.noteSent]
  split
  · next h =>
    refine ⟨rfl, .inr ⟨h.elim graphemeCellWidth_ne_nil isBackspace_ne_nil, ?_⟩⟩
    dsimp only
    split
    · exact List.drop_sublist 1 _
    · exact List.Sublist.refl _
  · exact ⟨rfl, .inl rfl⟩

/-! ## The steps -/

/-- The key that is noted is the last of the trace. -/
theorem Watching.noteSent (h : Watching w) (text : Text) (now : Rat) :
    Watching (w.next u (.noteSent text now)) := by
  obtain ⟨done, rest, matched, hkeys, hlen, hsub, hpair, hall, hpending⟩ := h.matched
  obtain ⟨hconf, hcases⟩ := noteSent_cases u w.echo text now
  have hnew : (w.echo.pending ++ [(⟨text, now⟩ : Pending)]).map Pending.text =
      w.echo.pending.map Pending.text ++ [text] := List.map_append
  have hsub' : ((w.echo.noteSent u text now).pending.map Pending.text).Sublist
      ((rest ++ [(text, w.trace.output.length)]).map Prod.fst) := by
    rw [List.map_append]
    obtain heq | ⟨-, hle⟩ := hcases
    · rw [heq]
      exact hpending.trans (List.sublist_append_left _ _)
    · refine (hle.map Pending.text).trans ?_
      rw [hnew]
      exact hpending.append (List.Sublist.refl _)
  refine ⟨⟨done, rest ++ [(text, w.trace.output.length)], matched, ?_, hlen, hsub, hpair, hall, hsub'⟩, ?_, ?_, ?_, ?_⟩
  · rw [← List.append_assoc, ← hkeys]
    rfl
  · intro k hk
    obtain hk | hk := List.mem_append.mp hk
    · exact h.sent k hk
    · rw [List.mem_singleton.mp hk]
      exact Nat.le_refl _
  · intro p hp
    obtain heq | ⟨hne, hle⟩ := hcases
    · exact h.texts p (heq ▸ hp)
    · obtain hp | hp := List.mem_append.mp (hle.mem hp)
      · exact h.texts p hp
      · rwa [List.mem_singleton.mp hp]
  · exact Nat.le_trans (Nat.le_of_eq hconf) h.gained
  · exact Nat.le_trans (Nat.le_of_eq hconf) h.most

theorem counted_ne_nil (h : Watching w) (hmem : text ∈ counted w.echo plain) : text ≠ [] := by
  obtain ⟨p, hp, rfl⟩ := List.mem_map.mp hmem
  exact h.texts p ((List.takeWhile_sublist _).mem ((List.take_sublist _ _).mem hp))

theorem InOrder.take {texts : List Text} (h : InOrder texts plain) (n : Nat) :
    InOrder (texts.take n) plain := by
  induction texts generalizing plain n with
  | nil =>
    rw [List.take_nil]
    exact h
  | cons text texts ih =>
    cases n with
    | zero => trivial
    | succ n =>
      obtain ⟨place, hstands, hrest⟩ := h
      exact ⟨place, hstands, ih hrest n⟩

/-- It is enough to look at the keys that the loop counts. -/
theorem echoesInOrder_iff :
    EchoesInOrder w (.onOutput plain now) ↔ InOrder (counted w.echo plain) plain := by
  have hprefix := List.takeWhile_prefix (includes plain ·.text) (l := w.echo.pending)
  constructor
  · intro h
    have htaken := (List.take_prefix (maxConfidence - w.echo.confidence) _).trans hprefix
    rw [counted, List.prefix_iff_eq_take.mp htaken]
    refine h _ (List.length_take_le _ _) fun p hp => ?_
    rw [← List.prefix_iff_eq_take.mp htaken] at hp
    exact List.mem_takeWhile_imp (p := fun p : Pending => includes plain p.text)
      (List.mem_of_mem_take hp)
  · intro h n hn hincluded
    have hall : (w.echo.pending.take n).takeWhile (includes plain ·.text) = w.echo.pending.take n :=
      List.takeWhile_eq_self_iff.mpr hincluded
    have hcounted : (counted w.echo plain).take n = (w.echo.pending.take n).map Pending.text := by
      rw [counted, ← List.map_take, List.take_take, Nat.min_eq_left hn, List.take_takeWhile, hall]
    rw [← hcounted]
    exact h.take n

/-- The loop: the keys that it counts get the occurrences that stand one after another in the chunk.
-/
theorem Watching.sampleEchoes (h : Watching w) (now : Rat)
    (hok : InOrder (counted w.echo plain) plain) :
    Watching ⟨w.echo.sampleEchoes plain now, w.trace.observe w.echo (.onOutput plain now)⟩ := by
  obtain ⟨done, rest, matched, hkeys, hlen, hsub, hpair, hall, hpending⟩ := h.matched
  rw [← List.takeWhile_append_dropWhile (p := (includes plain ·.text)) (l := w.echo.pending),
    List.map_append] at hpending
  obtain ⟨r₁, r₂, hr, hhits, hleft⟩ := List.append_sublist_iff.mp hpending
  obtain ⟨rest₁, rest₂, rfl, rfl, rfl⟩ := List.map_eq_append_iff.mp hr
  have hcounted : (counted w.echo plain).Sublist (rest₁.map Prod.fst) :=
    ((List.take_sublist _ _).map Pending.text).trans hhits
  obtain ⟨keys, hkeys₁, htexts⟩ := List.sublist_map_iff.mp hcounted
  have hdrop : (w.trace.output ++ plain).drop w.trace.output.length = plain := List.drop_left
  have horder : InOrder (keys.map Prod.fst) ((w.trace.output ++ plain).drop w.trace.output.length) := by
    rw [hdrop, ← htexts]
    exact hok
  obtain ⟨new, hnew, hnewPair, hplaces⟩ := horder.places
  have hold : ∀ m ∈ matched, m.stop ≤ w.trace.output.length :=
    fun m hm => (hall m hm).2.2.le_length (hall m hm).1
  have hgained := gained_eq plain now h.most
  have hconf : (w.echo.sampleEchoes plain now).confidence ≤ maxConfidence := by
    have heq : (w.echo.sampleEchoes plain now).confidence = _ :=
      takeEchoes_confidence plain now w.echo.pending w.echo.rtt h.most
    rw [heq]
    exact Nat.min_le_left _ _
  have hpend : (w.echo.sampleEchoes plain now).pending =
      w.echo.pending.dropWhile (includes plain ·.text) :=
    takeEchoes_pending plain now w.echo.pending w.echo.rtt w.echo.confidence
  refine ⟨⟨done ++ rest₁, rest₂, matched ++ new, ?_, ?_, ?_, ?_, ?_, ?_⟩, ?_, ?_, ?_, hconf⟩
  · exact hkeys.trans (List.append_assoc _ _ _).symm
  · have hcount : new.length = (counted w.echo plain).length := by
      rw [← List.length_map (f := Match.key), hnew, htexts, List.length_map]
    rw [List.length_append, hlen, hcount, ← hgained]
    rfl
  · rw [List.map_append, hnew]
    exact hsub.append hkeys₁
  · exact List.pairwise_append.mpr ⟨hpair, hnewPair, fun m hm m' hm' =>
      Nat.le_trans (hold m hm) (hplaces m' hm').1⟩
  · intro m hm
    obtain hm | hm := List.mem_append.mp hm
    · obtain ⟨hne, hle, hs⟩ := hall m hm
      exact ⟨hne, hle, hs.append plain hne⟩
    · have hkey : m.key ∈ keys := by
        rw [← hnew]
        exact List.mem_map_of_mem hm
      have hne : m.key.1 ≠ [] := counted_ne_nil h (by rw [htexts]; exact List.mem_map_of_mem hkey)
      have hmem : m.key ∈ w.trace.keys := by
        rw [hkeys]
        exact List.mem_append_right _ (List.mem_append_left _ (hkeys₁.mem hkey))
      exact ⟨hne, Nat.le_trans (h.sent _ hmem) (hplaces m hm).1, (hplaces m hm).2⟩
  · rw [hpend]
    exact hleft
  · intro k hk
    have hlong : (w.trace.output ++ plain).length = w.trace.output.length + plain.length :=
      List.length_append
    have hbefore := h.sent k hk
    show k.2 ≤ (w.trace.output ++ plain).length
    omega
  · intro p hp
    rw [hpend] at hp
    exact h.texts p ((List.dropWhile_sublist _).mem hp)
  · have hbefore := h.gained
    show (w.echo.sampleEchoes plain now).confidence ≤ w.trace.gained + _
    omega

/-- What one call keeps. -/
theorem Watching.next (h : Watching w) (hok : EchoesInOrder w c) : Watching (w.next u c) := by
  cases c with
  | noteSent text now => exact h.noteSent text now
  | onInput d opts now => exact h.less (less_onInput u w.echo d opts now)
  | onOutput plain now => exact (h.sampleEchoes now (echoesInOrder_iff.mp hok)).less (less_expireStale _ now).takeErase
  | sweep now => exact h.less (less_sweep w.echo now)
  | commandBoundary =>
    have hstart : Watching ⟨{ w.echo with confidence := 0, pending := [] }, {}⟩ :=
      ⟨watching_start.matched, nofun, nofun, Nat.le_refl _, Nat.zero_le _⟩
    exact hstart.less (Less.takeErase ⟨List.Sublist.refl _, Nat.le_refl _⟩)
  | reset => exact watching_start

/-- Confidence is earned by echoes, in every run in which the keys that a chunk counts stand in it
one after another. -/
theorem confidence_earned (u : Unicode) (calls : List Call)
    (h : Run.Along (Watched.next u) EchoesInOrder {} calls) :
    (Run.run (Watched.next u) {} calls).echo.confidence ≤
      (Run.run (Watched.next u) {} calls).trace.gained ∧
      Earned (Run.run (Watched.next u) {} calls).trace := by
  have hw : Watching (Run.run (Watched.next u) {} calls) :=
    h.induction watching_start fun _ _ hw hok => hw.next hok
  exact ⟨hw.gained, hw.earned⟩

theorem confidence_earned_two :
    Earned (Run.run (Watched.next asciiUnicode) {}
      [.noteSent ['a'] 0, .noteSent ['b'] 10, .onOutput ['a', 'b'] 200]).trace := by
  have hcounted : counted (Run.run (Watched.next asciiUnicode) {} [.noteSent ['a'] 0, .noteSent ['b'] 10]).echo ['a', 'b'] =
      [['a'], ['b']] := by decide +kernel
  have horder : InOrder
      (counted (Run.run (Watched.next asciiUnicode) {} [.noteSent ['a'] 0, .noteSent ['b'] 10]).echo ['a', 'b'])
      ['a', 'b'] := by
    rw [hcounted]
    exact ⟨0, ⟨['b'], rfl⟩, 0, ⟨[], rfl⟩, trivial⟩
  have hrun : Run.Along (Watched.next asciiUnicode) EchoesInOrder {}
      [.noteSent ['a'] 0, .noteSent ['b'] 10, .onOutput ['a', 'b'] 200] := 
    ⟨trivial, trivial, echoesInOrder_iff.mpr horder, trivial⟩
  exact (confidence_earned asciiUnicode _ hrun).2

/-- Three keys and one echo. -/
def repeatedKey : Watched := Run.run (Watched.next asciiUnicode) {}
  [.noteSent ['a'] 0, .noteSent ['a'] 10, .noteSent ['a'] 20, .onOutput ['a'] 200]

theorem confidence_earned_repeated :
    ¬ ∀ u calls, Earned (Run.run (Watched.next u) {} calls).trace := by
  intro h
  obtain ⟨matched, hlen, hsub, hpair, hall⟩ : Earned repeatedKey.trace := h asciiUnicode _
  have hgained : repeatedKey.trace.gained = 3 := by decide +kernel
  have hkeys : repeatedKey.trace.keys = [(['a'], 0), (['a'], 0), (['a'], 0)] := by decide +kernel
  have houtput : repeatedKey.trace.output = ['a'] := by decide +kernel
  rw [hgained] at hlen
  rw [hkeys] at hsub
  -- One character has one occurrence of it.
  have hplace : ∀ m ∈ matched, m.place = 0 ∧ m.stop = 1 := by
    intro m hm
    have hkey : m.key = (['a'], 0) := by simpa using hsub.mem (List.mem_map_of_mem hm)
    have hle := (hall m hm).2.le_length (by rw [hkey]; exact List.cons_ne_nil _ _)
    rw [houtput, hkey] at hle
    have hzero : m.place = 0 := Nat.le_zero.mp (Nat.le_of_succ_le_succ hle)
    rw [Match.stop, hzero, hkey]
    exact ⟨rfl, rfl⟩
  match matched with
  | [] | [_] => simp at hlen
  | m :: m' :: _ =>
    have hlt : m.stop ≤ m'.place := (List.pairwise_cons.mp hpair).1 m' List.mem_cons_self
    rw [(hplace m List.mem_cons_self).2, (hplace m' (List.mem_cons_of_mem _ List.mem_cons_self)).1] at hlt
    exact absurd hlt (by decide)

end Portty.Echo
