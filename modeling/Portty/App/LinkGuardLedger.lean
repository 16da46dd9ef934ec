import Mathlib.Data.List.Basic
import Mathlib.Tactic.Common
import Portty.App.LinkGuard
import Portty.Lib.Run
import Portty.Lib.Table

/-!
# Where typed input ends up (`linkGuard.ts`)

A ledger assigns each typed piece of the log its fate. `Accounted` is what a ledger has to say for
the user: every piece is written once, for its own session and in order, or the user is told;
nothing is written during a hold; and what was typed in one hold is written as a whole or not at
all.
-/

namespace Portty.App.LinkGuard

/-! ## Ledgers -/

/-- Typing is held after these calls. -/
def holding (log : List Call) : Bool :=
  log.foldl (fun b c => match c with | .onHold hold => hold.isSome | _ => b) false

/-- The number of holds that have ended. -/
def releases (log : List Call) : Nat := log.countP (· = .onHold none)

/-- The hold during which position `n` of the log was reached. -/
def holdAt (log : List Call) (n : Nat) : Option Nat :=
  if holding (log.take n) then some (releases (log.take n)) else none

/-- The call tells the user that something was not sent. -/
def Call.tells : Call → Bool
  | .notify _ => true
  | .report outcome => outcome.unsent ≠ 0
  | _ => false

/-- What became of a piece; the numbers are positions of the log. -/
inductive Fate where
  | waiting
  | delivered (k : Nat)
  | dropped (k : Nat)
  /-- There was nothing to send. -/
  | empty
  deriving DecidableEq, Repr

/-- What was typed at once. -/
structure Piece where
  /-- The position of the piece in the log. -/
  pos : Nat
  session : Nat
  data : Text
  /-- The hold it was typed in. -/
  hold : Option Nat
  fate : Fate
  deriving DecidableEq, Repr

/-- The log bears out what the ledger says of a piece. -/
structure Piece.Ok (log : List Call) (p : Piece) : Prop where
  typed : log[p.pos]? = some (.typed p.session p.data)
  hold : p.hold = holdAt log p.pos
  delivered : ∀ k, p.fate = .delivered k → p.pos < k ∧ ∃ data, log[k]? = some (.deliver p.session data)
  dropped : ∀ k, p.fate = .dropped k → p.pos < k ∧ ∃ c, log[k]? = some c ∧ c.tells = true
  empty : p.fate = .empty → p.data = []

/-- The text of the pieces with a fate, in order. -/
def text (pieces : List Piece) (fate : Fate) : Text :=
  ((pieces.filter (·.fate = fate)).map (·.data)).flatten

/-- Every piece that was typed, in its order. -/
structure Accounted (log : List Call) (pieces : List Piece) : Prop where
  ok : ∀ p ∈ pieces, p.Ok log
  every : ∀ (n session : Nat) (data : Text), log[n]? = some (.typed session data) →
    ∃ p ∈ pieces, p.pos = n
  sorted : pieces.Pairwise (·.pos < ·.pos)
  /-- A write has the text of its pieces, and is not made during a hold. -/
  written : ∀ (k session : Nat) (data : Text), log[k]? = some (.deliver session data) →
    data = text pieces (.delivered k) ∧ holding (log.take k) = false
  /-- Earlier pieces for the session of a written one were written no later, or dropped. -/
  inOrder : pieces.Pairwise fun p q => p.session = q.session → ∀ k, q.fate = .delivered k →
    p.fate ≠ .waiting ∧ ∀ m, p.fate = .delivered m → m ≤ k
  /-- The pieces of one hold are written together. -/
  whole : ∀ p ∈ pieces, ∀ q ∈ pieces, p.hold ≠ none → p.hold = q.hold →
    ∀ k, p.fate = .delivered k → q.fate = .delivered k
  waits : ∀ p ∈ pieces, p.fate = .waiting → holding log = true

/-! ## The log grows -/

variable {log tail : List Call} {p : Piece} {pieces : List Piece} {n k : Nat}

theorem holding_append (c : Call) : holding (log ++ [c]) =
    match c with | .onHold hold => hold.isSome | _ => holding log := by
  simp only [holding, List.foldl_append, List.foldl_cons, List.foldl_nil]

theorem holdAt_append (h : n ≤ log.length) : holdAt (log ++ tail) n = holdAt log n := by
  simp only [holdAt, List.take_append_of_le_length h]

theorem holdAt_length :
    holdAt log log.length = if holding log then some (releases log) else none := by
  simp [holdAt]

theorem getElem?_append_some {c : Call} (h : log[n]? = some c) : (log ++ tail)[n]? = some c := by
  rw [List.getElem?_append_left (List.getElem?_eq_some_iff.mp h).1, h]

theorem Piece.Ok.lt (h : p.Ok log) : p.pos < log.length :=
  (List.getElem?_eq_some_iff.mp h.typed).1

theorem Piece.Ok.delivered_lt (h : p.Ok log) (hk : p.fate = .delivered k) : k < log.length := by
  obtain ⟨-, data, hdata⟩ := h.delivered k hk
  exact (List.getElem?_eq_some_iff.mp hdata).1

theorem Piece.Ok.append (h : p.Ok log) (tail : List Call) : p.Ok (log ++ tail) where
  typed := getElem?_append_some h.typed
  hold := by rw [holdAt_append (Nat.le_of_lt h.lt), h.hold]
  delivered k hk := by
    obtain ⟨hlt, data, hdata⟩ := h.delivered k hk
    exact ⟨hlt, data, getElem?_append_some hdata⟩
  dropped k hk := by
    obtain ⟨hlt, c, hc, ht⟩ := h.dropped k hk
    exact ⟨hlt, c, getElem?_append_some hc, ht⟩
  empty := h.empty

/-- A new fate for the pieces that wait. -/
def settleAs (f : Fate) (p : Piece) : Piece := if p.fate = .waiting then { p with fate := f } else p

@[simp] theorem settleAs_pos (f : Fate) (p : Piece) : (settleAs f p).pos = p.pos := by
  unfold settleAs; split <;> rfl

@[simp] theorem settleAs_session (f : Fate) (p : Piece) : (settleAs f p).session = p.session := by
  unfold settleAs; split <;> rfl

@[simp] theorem settleAs_data (f : Fate) (p : Piece) : (settleAs f p).data = p.data := by
  unfold settleAs; split <;> rfl

@[simp] theorem settleAs_hold (f : Fate) (p : Piece) : (settleAs f p).hold = p.hold := by
  unfold settleAs; split <;> rfl

theorem settleAs_fate (f : Fate) (p : Piece) :
    (settleAs f p).fate = if p.fate = .waiting then f else p.fate := by
  unfold settleAs; split <;> rfl

theorem text_settleAs {f : Fate} {k : Nat} (hf : f ≠ .delivered k) :
    text (pieces.map (settleAs f)) (.delivered k) = text pieces (.delivered k) := by
  have hfilter : (pieces.map (settleAs f)).filter (·.fate = .delivered k) =
      (pieces.filter (·.fate = .delivered k)).map (settleAs f) := by
    rw [List.filter_map]
    congr 1
    refine List.filter_congr fun p _ => ?_
    simp only [Function.comp, settleAs_fate, decide_eq_decide]
    by_cases hw : p.fate = .waiting <;> simp [hw, hf]
  simp [text, hfilter, Function.comp_def]

/-- What is delivered is the text that waited. -/
theorem text_settleAs_self (h : ∀ p ∈ pieces, p.fate ≠ .delivered k) :
    text (pieces.map (settleAs (.delivered k))) (.delivered k) = text pieces .waiting := by
  have hfilter : (pieces.map (settleAs (.delivered k))).filter (·.fate = .delivered k) =
      (pieces.filter (·.fate = .waiting)).map (settleAs (.delivered k)) := by
    rw [List.filter_map]
    congr 1
    refine List.filter_congr fun p hp => ?_
    simp only [Function.comp, settleAs_fate, decide_eq_decide]
    by_cases hw : p.fate = .waiting <;> simp [hw, h p hp]
  simp [text, hfilter, Function.comp_def]

/-! ## The ledger of a guard -/

/-- The ledger is kept, and what waits is what the guard holds. -/
structure Inv (log : List Call) (hold : Option LinkHold) (held : HeldInput) (pieces : List Piece) :
    Prop extends Accounted log pieces where
  now : holding log = hold.isSome
  /-- Without a hold nothing is held. -/
  free : hold = none → held.session = none
  blank : held.session = none → held.spoiled = false ∧ ∀ p ∈ pieces, p.fate ≠ .waiting
  current : ∀ p ∈ pieces, p.fate = .waiting → p.hold = some (releases log)
  /-- The pieces of this hold wait, but for those that were refused. -/
  settled : ∀ p ∈ pieces, p.hold = some (releases log) →
    p.fate = .waiting ∨ (held.spoiled = true ∧ ∃ k, p.fate = .dropped k)
  before : ∀ p ∈ pieces, ∀ n, p.hold = some n → n ≤ releases log
  chunks : held.spoiled = false → held.chunks.flatten = text pieces .waiting
  session : held.spoiled = false → ∀ p ∈ pieces, p.fate = .waiting → held.session = some p.session
  chars : (text pieces .waiting).length ≤ held.chars

variable {hold : Option LinkHold} {held held' : HeldInput}

/-- Calls that say nothing about pieces. -/
def Call.plain : Call → Bool
  | .notify _ | .report _ | .dropLink => true
  | _ => false

theorem releases_append (c : Call) : releases (log ++ [c]) =
    releases log + if c = .onHold none then 1 else 0 := by
  simp only [releases, List.countP_append, List.countP_singleton, decide_eq_true_eq]

theorem getElem?_snoc_cases {c c' : Call} (h : (log ++ [c])[n]? = some c') :
    log[n]? = some c' ∨ n = log.length ∧ c' = c := by
  rw [List.getElem?_append] at h
  split at h
  · exact .inl h
  · rename_i hn
    obtain ⟨hlt, he⟩ := List.getElem?_eq_some_iff.mp h
    have hn' : n = log.length := by simp at hlt; omega
    subst hn'
    exact .inr ⟨rfl, by simpa using he.symm⟩

/-- A call that is no piece and no write. -/
theorem Accounted.call (h : Accounted log pieces) {c : Call} (ht : ∀ s d, c ≠ .typed s d)
    (hd : ∀ s d, c ≠ .deliver s d) (hw : ∀ p ∈ pieces, p.fate = .waiting → holding (log ++ [c]) = true) :
    Accounted (log ++ [c]) pieces where
  ok p hp := (h.ok p hp).append [c]
  every n s d hn := by
    rcases getElem?_snoc_cases hn with hn | ⟨-, rfl⟩
    · exact h.every n s d hn
    · exact absurd rfl (ht s d)
  sorted := h.sorted
  written k s d hk := by
    rcases getElem?_snoc_cases hk with hk | ⟨-, rfl⟩
    · have hlt := (List.getElem?_eq_some_iff.mp hk).1
      rw [List.take_append_of_le_length (Nat.le_of_lt hlt)]
      exact h.written k s d hk
    · exact absurd rfl (hd s d)
  inOrder := h.inOrder
  whole := h.whole
  waits := hw

/-- A plain call changes no piece. -/
theorem Inv.plain (h : Inv log hold held pieces) {c : Call} (hc : c.plain = true) :
    Inv (log ++ [c]) hold held pieces := by
  have hr : releases (log ++ [c]) = releases log := by
    rw [releases_append, if_neg (by rintro rfl; cases hc), Nat.add_zero]
  have hh : holding (log ++ [c]) = holding log := by
    rw [holding_append]; cases c <;> first | rfl | cases hc
  have ha := h.toAccounted.call (c := c) (by rintro s d rfl; cases hc) (by rintro s d rfl; cases hc)
    (fun p hp hw => hh.trans (h.waits p hp hw))
  exact { ha with
    now := hh.trans h.now
    free := h.free
    blank := h.blank
    current := by rw [hr]; exact h.current
    settled := by rw [hr]; exact h.settled
    before := by rw [hr]; exact h.before
    chunks := h.chunks
    session := h.session
    chars := h.chars }

/-- A hold begins, or goes on for another reason. -/
theorem Inv.enter (h : Inv log hold held pieces) (why : LinkHold) :
    Inv (log ++ [.onHold (some why)]) (some why) held pieces := by
  have hr : releases (log ++ [Call.onHold (some why)]) = releases log := by
    simp [releases_append]
  have ha := h.toAccounted.call (c := .onHold (some why)) nofun nofun
    (fun _ _ _ => by rw [holding_append]; rfl)
  exact { ha with
    now := by rw [holding_append]
    free := nofun
    blank := h.blank
    current := by rw [hr]; exact h.current
    settled := by rw [hr]; exact h.settled
    before := by rw [hr]; exact h.before
    chunks := h.chunks
    session := h.session
    chars := h.chars }

/-! ## A new piece -/

theorem text_concat (q : Piece) (f : Fate) :
    text (pieces ++ [q]) f = text pieces f ++ if q.fate = f then q.data else [] := by
  by_cases hq : q.fate = f <;> simp [text, hq]

theorem text_eq_nil {f : Fate} (h : ∀ p ∈ pieces, p.fate ≠ f) : text pieces f = [] := by
  have hnil : pieces.filter (·.fate = f) = [] := by simpa using h
  simp [text, hnil]

theorem take_append_left (h : k < log.length) : (log ++ tail).take k = log.take k :=
  List.take_append_of_le_length (Nat.le_of_lt h)

/-- A typed piece, and the calls that follow from it. -/
theorem Accounted.add (h : Accounted log pieces) {s : Nat} {d : Text} {q : Piece} {l : List Call}
    (hq : q.Ok (log ++ .typed s d :: l)) (hpos : q.pos = log.length)
    (htail : ∀ c ∈ l, ∀ s' d', c ≠ .typed s' d')
    (hw : ∀ (k s' : Nat) (data : Text), log.length < k →
      (log ++ .typed s d :: l)[k]? = some (.deliver s' data) →
      data = q.data ∧ q.fate = .delivered k ∧ holding ((log ++ .typed s d :: l).take k) = false)
    (hfate : ∀ k, q.fate = .delivered k → log.length < k ∧ ∀ p ∈ pieces, p.fate ≠ .waiting)
    (hwhole : ∀ p ∈ pieces, p.hold ≠ none → p.hold = q.hold →
      ∀ k, p.fate ≠ .delivered k ∧ q.fate ≠ .delivered k)
    (hwaits : ∀ p ∈ pieces ++ [q], p.fate = .waiting → holding (log ++ .typed s d :: l) = true) :
    Accounted (log ++ .typed s d :: l) (pieces ++ [q]) where
  ok p hp := by
    rcases List.mem_append.mp hp with hp | hp
    · exact (h.ok p hp).append _
    · rw [List.mem_singleton.mp hp]
      exact hq
  every n s' d' hn := by
    rcases Nat.lt_trichotomy n log.length with hlt | rfl | hlt
    · rw [List.getElem?_append_left hlt] at hn
      obtain ⟨p, hp, he⟩ := h.every n s' d' hn
      exact ⟨p, List.mem_append_left _ hp, he⟩
    · exact ⟨q, by simp, hpos⟩
    · obtain ⟨m, rfl⟩ : ∃ m, n = log.length + 1 + m := ⟨n - (log.length + 1), by omega⟩
      have hm : l[m]? = some (.typed s' d') := by
        rw [List.getElem?_append_right (by omega)] at hn
        have : log.length + 1 + m - log.length = m + 1 := by omega
        rwa [this, List.getElem?_cons_succ] at hn
      exact absurd rfl (htail _ (List.mem_of_getElem? hm) s' d')
  sorted := by
    refine List.pairwise_append.mpr ⟨h.sorted, List.pairwise_singleton _ _, fun p hp p' hp' => ?_⟩
    rw [List.mem_singleton.mp hp', hpos]
    exact (h.ok p hp).lt
  written k s' data hk := by
    rcases Nat.lt_trichotomy k log.length with hlt | rfl | hlt
    · rw [List.getElem?_append_left hlt] at hk
      obtain ⟨hd, hn⟩ := h.written k s' data hk
      have hne : q.fate ≠ .delivered k := fun hf => absurd (hfate k hf).1 (by omega)
      rw [text_concat, if_neg hne, List.append_nil, take_append_left hlt]
      exact ⟨hd, hn⟩
    · simp at hk
    · obtain ⟨hd, hf, hn⟩ := hw k s' data hlt hk
      have hold : text pieces (.delivered k) = [] := text_eq_nil fun p hp hpk => by
        have := (h.ok p hp).delivered_lt hpk
        omega
      rw [text_concat, if_pos hf, hold, List.nil_append]
      exact ⟨hd, hn⟩
  inOrder := by
    refine List.pairwise_append.mpr ⟨h.inOrder, List.pairwise_singleton _ _, fun p hp p' hp' => ?_⟩
    intro _ k hk
    rw [List.mem_singleton.mp hp'] at hk
    obtain ⟨hlt, hnone⟩ := hfate k hk
    refine ⟨hnone p hp, fun m hm => ?_⟩
    have := (h.ok p hp).delivered_lt hm
    omega
  whole p hp p' hp' hne he k hk := by
    rcases List.mem_append.mp hp with hp | hp <;> rcases List.mem_append.mp hp' with hp' | hp'
    · exact h.whole p hp p' hp' hne he k hk
    · rw [List.mem_singleton.mp hp'] at he ⊢
      exact absurd hk (hwhole p hp hne he k).1
    · rw [List.mem_singleton.mp hp] at he hne hk
      exact absurd hk (hwhole p' hp' (he ▸ hne) he.symm k).2
    · rw [List.mem_singleton.mp hp', ← List.mem_singleton.mp hp]
      exact hk
  waits := hwaits

theorem holding_typed (s : Nat) (d : Text) : holding (log ++ [.typed s d]) = holding log := by
  rw [holding_append]

theorem Inv.holdAt_length (h : Inv log hold held pieces) :
    holdAt log log.length = if hold.isSome then some (releases log) else none := by
  rw [LinkGuard.holdAt_length, h.now]

theorem Inv.not_waiting (h : Inv log none held pieces) : ∀ p ∈ pieces, p.fate ≠ .waiting :=
  (h.blank (h.free rfl)).2

/-- The new piece of the ledger. -/
def newPiece (log : List Call) (s : Nat) (d : Text) (fate : Fate) : Piece :=
  ⟨log.length, s, d, holdAt log log.length, fate⟩

theorem text_newPiece (s : Nat) (d : Text) (f : Fate) :
    text (pieces ++ [newPiece log s d f]) f = text pieces f ++ d := by
  simp [text_concat, newPiece]

/-- A piece is written at once. -/
theorem Inv.live (h : Inv log none held pieces) (s : Nat) (d : Text) :
    Inv (log ++ [.typed s d, .deliver s d]) none held
      (pieces ++ [newPiece log s d (.delivered (log.length + 1))]) := by
  have hn : ∀ p ∈ pieces, p.fate ≠ .waiting := h.not_waiting
  have hfree : holding log = false := h.now
  have hnone : holdAt log log.length = none := h.holdAt_length
  have hh : holding (log ++ [.typed s d, .deliver s d]) = false := by
    rw [← List.singleton_append, ← List.append_assoc, holding_append]
    exact (holding_typed s d).trans hfree
  have hr : releases (log ++ [.typed s d, .deliver s d]) = releases log := by
    simp [releases]
  have hwait : text (pieces ++ [newPiece log s d (.delivered (log.length + 1))]) .waiting = [] := by
    refine text_eq_nil fun p hp => ?_
    rcases List.mem_append.mp hp with hp | hp
    · exact hn p hp
    · rw [List.mem_singleton.mp hp]
      exact nofun
  have hall : ∀ p ∈ pieces ++ [newPiece log s d (.delivered (log.length + 1))],
      p.fate ≠ .waiting := by
    intro p hp
    rcases List.mem_append.mp hp with hp | hp
    · exact hn p hp
    · rw [List.mem_singleton.mp hp]
      exact nofun
  have ha := h.toAccounted.add (l := [.deliver s d]) (s := s) (d := d)
    (q := newPiece log s d (.delivered (log.length + 1)))
    { typed := by simp [newPiece]
      hold := (holdAt_append (Nat.le_refl _)).symm
      delivered := fun k hk => by cases hk; exact ⟨Nat.lt_succ_self _, d, by simp [newPiece]⟩
      dropped := nofun
      empty := nofun } rfl (by simp)
    (by
      intro k s' data hlt hk
      obtain ⟨hk', -⟩ := List.getElem?_eq_some_iff.mp hk
      obtain rfl : k = log.length + 1 := by simp at hk'; omega
      simp at hk
      refine ⟨hk.2.symm, rfl, ?_⟩
      have : (log ++ [Call.typed s d, .deliver s d]).take (log.length + 1) =
          log ++ [.typed s d] := by
        simp [List.take_append, List.take_of_length_le]
      rw [this, holding_typed, hfree])
    (by rintro k ⟨⟩; exact ⟨Nat.lt_succ_self _, hn⟩)
    (fun p hp hne he => absurd (he.trans hnone) hne)
    (fun p hp hw => absurd hw (hall p hp))
  exact { ha with
    now := hh
    free := h.free
    blank := fun hs => ⟨(h.blank hs).1, hall⟩
    current := fun p hp hw => absurd hw (hall p hp)
    settled := by
      intro p hp hold
      rw [hr] at hold
      rcases List.mem_append.mp hp with hp | hp
      · exact h.settled p hp hold
      · rw [List.mem_singleton.mp hp] at hold
        cases hnone.symm.trans hold
    before := by
      intro p hp n hold
      rw [hr]
      rcases List.mem_append.mp hp with hp | hp
      · exact h.before p hp n hold
      · rw [List.mem_singleton.mp hp] at hold
        cases hnone.symm.trans hold
    chunks := fun hs => by rw [h.chunks hs, hwait, text_eq_nil hn]
    session := fun _ p hp hw => absurd hw (hall p hp)
    chars := by rw [hwait]; exact Nat.zero_le _ }

/-- A piece is kept. -/
theorem Inv.kept (h : Inv log hold held pieces) {s : Nat} {d : Text} (hsome : hold ≠ none)
    (hspoiled : held'.spoiled = held.spoiled) (hsession : held'.session = some s)
    (hsame : held.spoiled = false) (hother : held.session = none ∨ held.session = some s)
    (hchunks : held'.chunks = held.chunks ++ [d]) (hchars : held'.chars = held.chars + d.length) :
    Inv (log ++ [.typed s d]) hold held' (pieces ++ [newPiece log s d .waiting]) := by
  have hh : holding log = true := by rw [h.now]; exact Option.isSome_iff_ne_none.mpr hsome
  have hcur : holdAt log log.length = some (releases log) := by
    rw [LinkGuard.holdAt_length, if_pos hh]
  have hr : releases (log ++ [.typed s d]) = releases log := by simp [releases]
  have hnd : ∀ p ∈ pieces, p.hold = some (releases log) → ∀ k, p.fate ≠ .delivered k := by
    intro p hp hold k hk
    rcases h.settled p hp hold with hw | ⟨-, m, hm⟩
    · cases hw.symm.trans hk
    · cases hm.symm.trans hk
  have hold' : ∀ p ∈ pieces, p.fate = .waiting → held'.session = some p.session := by
    intro p hp hw
    have he := h.session hsame p hp hw
    rcases hother with hs | hs
    · cases hs.symm.trans he
    · rw [hsession, ← hs, he]
  have ha := h.toAccounted.add (l := []) (s := s) (d := d) (q := newPiece log s d .waiting)
    { typed := by simp [newPiece]
      hold := (holdAt_append (Nat.le_refl _)).symm
      delivered := nofun
      dropped := nofun
      empty := nofun } rfl nofun
    (by
      intro k s' data hlt hk
      obtain ⟨hk', -⟩ := List.getElem?_eq_some_iff.mp hk
      simp at hk'
      omega) nofun
    (fun p hp _ he k => ⟨hnd p hp (he.trans hcur) k, nofun⟩)
    (fun _ _ _ => by rw [holding_typed]; exact hh)
  exact { ha with
    now := by rw [holding_typed, h.now]
    free := fun hn => absurd hn hsome
    blank := fun hn => by cases hsession.symm.trans hn
    current := by
      intro p hp hw
      rw [hr]
      rcases List.mem_append.mp hp with hp | hp
      · exact h.current p hp hw
      · rw [List.mem_singleton.mp hp]
        exact hcur
    settled := by
      intro p hp hold
      rw [hr] at hold
      rcases List.mem_append.mp hp with hp | hp
      · rw [hspoiled]
        exact h.settled p hp hold
      · rw [List.mem_singleton.mp hp]
        exact .inl rfl
    before := by
      intro p hp n hn
      rw [hr]
      rcases List.mem_append.mp hp with hp | hp
      · exact h.before p hp n hn
      · rw [List.mem_singleton.mp hp] at hn
        cases hcur.symm.trans hn
        exact Nat.le_refl _
    chunks := fun _ => by
      rw [hchunks, text_newPiece, List.flatten_append, h.chunks hsame]
      simp
    session := by
      intro _ p hp hw
      rcases List.mem_append.mp hp with hp | hp
      · exact hold' p hp hw
      · rw [List.mem_singleton.mp hp]
        exact hsession
    chars := by
      have := h.chars
      rw [text_newPiece, List.length_append, hchars]
      exact Nat.add_le_add_right this _ }

/-- A piece is refused: the user is told, and nothing of the hold will be sent. -/
theorem Inv.refused (h : Inv log hold held pieces) {s : Nat} {d : Text} (hsome : hold ≠ none)
    (hsession : held'.session ≠ none) (hspoiled : held'.spoiled = true)
    (hchars : held.chars ≤ held'.chars) (notice : Notice) :
    Inv (log ++ [.typed s d, .notify notice]) hold held'
      (pieces ++ [newPiece log s d (.dropped (log.length + 1))]) := by
  have hh : holding log = true := by rw [h.now]; exact Option.isSome_iff_ne_none.mpr hsome
  have hcur : holdAt log log.length = some (releases log) := by
    rw [LinkGuard.holdAt_length, if_pos hh]
  have hh' : holding (log ++ [.typed s d, .notify notice]) = holding log := by
    rw [← List.singleton_append, ← List.append_assoc, holding_append]
    exact holding_typed s d
  have hr : releases (log ++ [.typed s d, .notify notice]) = releases log := by simp [releases]
  have hnd : ∀ p ∈ pieces, p.hold = some (releases log) → ∀ k, p.fate ≠ .delivered k := by
    intro p hp hold k hk
    rcases h.settled p hp hold with hw | ⟨-, m, hm⟩
    · cases hw.symm.trans hk
    · cases hm.symm.trans hk
  have hwait : ∀ p ∈ pieces ++ [newPiece log s d (.dropped (log.length + 1))], p.fate = .waiting →
      p ∈ pieces := by
    intro p hp hw
    rcases List.mem_append.mp hp with hp | hp
    · exact hp
    · rw [List.mem_singleton.mp hp] at hw
      cases hw
  have ha := h.toAccounted.add (l := [.notify notice]) (s := s) (d := d)
    (q := newPiece log s d (.dropped (log.length + 1)))
    { typed := by simp [newPiece]
      hold := (holdAt_append (Nat.le_refl _)).symm
      delivered := nofun
      dropped := fun k hk => by
        cases hk
        exact ⟨Nat.lt_succ_self _, .notify notice, by simp, rfl⟩
      empty := nofun } rfl (by simp)
    (by
      intro k s' data hlt hk
      obtain ⟨hk', -⟩ := List.getElem?_eq_some_iff.mp hk
      obtain rfl : k = log.length + 1 := by simp at hk'; omega
      simp at hk) nofun
    (fun p hp _ he k => ⟨hnd p hp (he.trans hcur) k, nofun⟩)
    (fun _ _ _ => by rw [hh']; exact hh)
  exact { ha with
    now := by rw [hh', h.now]
    free := fun hn => absurd hn hsome
    blank := fun hn => absurd hn hsession
    current := fun p hp hw => by rw [hr]; exact h.current p (hwait p hp hw) hw
    settled := by
      intro p hp hold
      rw [hr] at hold
      rcases List.mem_append.mp hp with hp | hp
      · exact (h.settled p hp hold).imp_right fun hs => ⟨hspoiled, hs.2⟩
      · rw [List.mem_singleton.mp hp]
        exact .inr ⟨hspoiled, _, rfl⟩
    before := by
      intro p hp n hn
      rw [hr]
      rcases List.mem_append.mp hp with hp | hp
      · exact h.before p hp n hn
      · rw [List.mem_singleton.mp hp] at hn
        cases hcur.symm.trans hn
        exact Nat.le_refl _
    chunks := fun hs => by cases hspoiled.symm.trans hs
    session := fun hs => by cases hspoiled.symm.trans hs
    chars := by
      rw [text_concat, if_neg nofun, List.append_nil]
      exact Nat.le_trans h.chars hchars }

/-! ## A hold ends -/

/-- The pieces that wait get their fate. -/
theorem Inv.release (h : Inv log hold held pieces) {f : Fate} {log' : List Call}
    (hlog : log' = log ++ tail) (hblank : held'.session = none) (hspoiled : held'.spoiled = false)
    (hchunks : held'.chunks = []) (hfw : f ≠ .waiting)
    (hheld : holding log' = false) (hrel : hold ≠ none → releases log < releases log')
    (hrel' : releases log ≤ releases log')
    (htail : ∀ n ≥ log.length, ∀ s d, log'[n]? ≠ some (.typed s d))
    (hok : ∀ p ∈ pieces, p.fate = .waiting → Piece.Ok log' { p with fate := f })
    (hw : ∀ (k s : Nat) (data : Text), log.length ≤ k → log'[k]? = some (.deliver s data) →
      data = text pieces .waiting ∧ f = .delivered k ∧ holding (log'.take k) = false)
    (hf : ∀ k, f = .delivered k → log.length ≤ k ∧ held.spoiled = false) :
    Inv log' none held' (pieces.map (settleAs f)) := by
  have hall : ∀ p ∈ pieces.map (settleAs f), p.fate ≠ .waiting := by
    intro p hp hpw
    obtain ⟨p, -, rfl⟩ := List.mem_map.mp hp
    rw [settleAs_fate] at hpw
    split at hpw
    · exact hfw hpw
    · contradiction
  have hwait : text (pieces.map (settleAs f)) .waiting = [] := text_eq_nil hall
  -- The pieces of an earlier hold have their fate, and those of this one are counted below.
  have hnew : ∀ p ∈ pieces, p.hold ≠ some (releases log') := by
    intro p hp he
    have hle := h.before p hp _ he
    by_cases hnone : hold = none
    · have heq : releases log = releases log' := by omega
      rw [← heq] at he
      rcases h.settled p hp he with hpw | ⟨hs, -⟩
      · subst hnone
        exact h.not_waiting p hp hpw
      · subst hnone
        cases (h.blank (h.free rfl)).1.symm.trans hs
    · have := hrel hnone
      omega
  refine
    { ok := ?_, every := ?_, sorted := ?_, written := ?_, inOrder := ?_, whole := ?_
      waits := fun p hp hpw => absurd hpw (hall p hp)
      now := hheld
      free := fun _ => hblank
      blank := fun _ => ⟨hspoiled, hall⟩
      current := fun p hp hpw => absurd hpw (hall p hp)
      settled := ?_, before := ?_
      chunks := fun _ => by rw [hchunks, hwait]; rfl
      session := fun _ p hp hpw => absurd hpw (hall p hp)
      chars := by rw [hwait]; exact Nat.zero_le _ }
  · intro p' hp'
    obtain ⟨p, hp, rfl⟩ := List.mem_map.mp hp'
    unfold settleAs
    split
    · exact hok p hp ‹_›
    · subst hlog
      exact (h.ok p hp).append _
  · intro n s d hn
    have hlt : n < log.length := by
      by_contra hge
      exact htail n (by omega) s d hn
    rw [hlog, List.getElem?_append_left hlt] at hn
    obtain ⟨p, hp, he⟩ := h.every n s d hn
    exact ⟨settleAs f p, List.mem_map_of_mem hp, by rw [settleAs_pos, he]⟩
  · refine List.pairwise_map.mpr (h.sorted.imp fun hlt => ?_)
    simpa using hlt
  · intro k s data hk
    by_cases hlt : k < log.length
    · subst hlog
      rw [List.getElem?_append_left hlt] at hk
      have hne : f ≠ .delivered k := fun he => absurd (hf k he).1 (by omega)
      rw [text_settleAs hne, take_append_left hlt]
      exact h.written k s data hk
    · obtain ⟨hd, he, hn⟩ := hw k s data (by omega) hk
      subst he
      have hnone : ∀ p ∈ pieces, p.fate ≠ .delivered k := fun p hp hpk => by
        have := (h.ok p hp).delivered_lt hpk
        omega
      rw [text_settleAs_self hnone]
      exact ⟨hd, hn⟩
  · refine List.pairwise_map.mpr ((List.pairwise_iff_forall_sublist.mpr fun {p q} hpq => ?_))
    have hp : p ∈ pieces := hpq.subset (by simp)
    have hord := List.pairwise_iff_forall_sublist.mp h.inOrder hpq
    intro hs k hk
    rw [settleAs_session, settleAs_session] at hs
    refine ⟨hall _ (List.mem_map_of_mem hp), fun m hm => ?_⟩
    rw [settleAs_fate] at hk hm
    by_cases hqw : q.fate = .waiting
    · rw [if_pos hqw] at hk
      by_cases hpw : p.fate = .waiting
      · rw [if_pos hpw, hk] at hm
        cases hm
        exact Nat.le_refl _
      · rw [if_neg hpw] at hm
        have := (h.ok p hp).delivered_lt hm
        have := (hf k hk).1
        omega
    · rw [if_neg hqw] at hk
      obtain ⟨hpw, hle⟩ := hord hs k hk
      rw [if_neg hpw] at hm
      exact hle m hm
  · intro p' hp' q' hq' hne he k hk
    obtain ⟨p, hp, rfl⟩ := List.mem_map.mp hp'
    obtain ⟨q, hq, rfl⟩ := List.mem_map.mp hq'
    rw [settleAs_hold] at hne he
    rw [settleAs_hold] at he
    rw [settleAs_fate] at hk ⊢
    by_cases hpw : p.fate = .waiting
    · rw [if_pos hpw] at hk
      rcases h.settled q hq (he ▸ h.current p hp hpw) with hqw | ⟨hs, -⟩
      · rw [if_pos hqw, hk]
      · cases (hf k hk).2.symm.trans hs
    · rw [if_neg hpw] at hk
      by_cases hqw : q.fate = .waiting
      · rcases h.settled p hp (he.trans (h.current q hq hqw)) with hpw' | ⟨-, m, hm⟩
        · exact absurd hpw' hpw
        · cases hm.symm.trans hk
      · rw [if_neg hqw]
        exact h.whole p hp q hq hne he k hk
  · intro p' hp' he
    obtain ⟨p, hp, rfl⟩ := List.mem_map.mp hp'
    rw [settleAs_hold] at he
    exact absurd he (hnew p hp)
  · intro p' hp' n hn
    obtain ⟨p, hp, rfl⟩ := List.mem_map.mp hp'
    rw [settleAs_hold] at hn
    have := h.before p hp n hn
    omega

/-- What `setHold(null)` calls. -/
def ends (hold : Option LinkHold) : List Call := if hold = none then [] else [.onHold none]

theorem Inv.holding_ends (h : Inv log hold held pieces) : holding (log ++ ends hold) = false := by
  cases hold with
  | none => simpa [ends] using h.now
  | some why => simp [ends, holding_append]

theorem releases_ends (hold : Option LinkHold) :
    releases (log ++ ends hold) = releases log + (ends hold).length := by
  cases hold <;> simp [ends, releases]

theorem ends_ne_nil (hold : Option LinkHold) (hne : hold ≠ none) : 0 < (ends hold).length := by
  simp [ends, hne]

theorem mem_ends {c : Call} (h : c ∈ ends hold) : c = .onHold none := by
  unfold ends at h
  split at h
  · cases h
  · exact List.mem_singleton.mp h

/-- Past the end of the log there are only the end of the hold and the call after it. -/
theorem getElem?_ends_cases {c c' : Call} (hn : log.length ≤ n)
    (h : (log ++ ends hold ++ [c])[n]? = some c') :
    c' = .onHold none ∨ n = (log ++ ends hold).length ∧ c' = c := by
  rcases getElem?_snoc_cases h with h | h
  · rw [List.getElem?_append_right hn] at h
    exact .inl (mem_ends (List.mem_of_getElem? h))
  · exact .inr h

/-- What is delivered is all that was held, in its order. -/
theorem Inv.delivers (h : Inv log hold held pieces) {s : Nat} (hspoiled : held.spoiled = false)
    (hsession : held.session = some s) :
    Inv (log ++ ends hold ++ [.deliver s held.chunks.flatten]) none held.reset
      (pieces.map (settleAs (.delivered (log ++ ends hold).length))) := by
  have hrel : releases (log ++ ends hold ++ [.deliver s held.chunks.flatten]) =
      releases log + (ends hold).length := by
    rw [releases_append, if_neg nofun, releases_ends, Nat.add_zero]
  refine h.release (List.append_assoc ..) rfl rfl rfl nofun ?_ ?_ (by omega) ?_ ?_ ?_ ?_
  · rw [holding_append]
    exact h.holding_ends
  · intro hne
    have := ends_ne_nil hold hne
    omega
  · intro n hn s' d hc
    rcases getElem?_ends_cases hn hc with he | ⟨-, he⟩ <;> cases he
  · intro p hp hw
    have hok := (h.ok p hp).append (ends hold ++ [.deliver s held.chunks.flatten])
    rw [← List.append_assoc] at hok
    have hs : p.session = s := by
      have := h.session hspoiled p hp hw
      exact Option.some.inj (this.symm.trans hsession)
    refine ⟨hok.typed, hok.hold, fun k hk => ?_, nofun, nofun⟩
    cases hk
    have := (h.ok p hp).lt
    exact ⟨by simp; omega, held.chunks.flatten, by simp [hs]⟩
  · intro k s' data hk hc
    rcases getElem?_ends_cases hk hc with he | ⟨rfl, he⟩
    · cases he
    · cases he
      refine ⟨h.chunks hspoiled, rfl, ?_⟩
      rw [List.take_left]
      exact h.holding_ends
  · rintro k ⟨⟩
    exact ⟨by simp, hspoiled⟩

/-- What is dropped, the user is told of. -/
theorem Inv.tells (h : Inv log hold held pieces) {c : Call} (hc : c.plain = true)
    (ht : c.tells = true) :
    Inv (log ++ ends hold ++ [c]) none held.reset
      (pieces.map (settleAs (.dropped (log ++ ends hold).length))) := by
  have hrel : releases (log ++ ends hold ++ [c]) = releases log + (ends hold).length := by
    rw [releases_append, if_neg (by rintro rfl; cases hc), releases_ends, Nat.add_zero]
  refine h.release (List.append_assoc ..) rfl rfl rfl nofun ?_ ?_ (by omega) ?_ ?_ ?_ nofun
  · rw [holding_append]
    cases c <;> first | exact h.holding_ends | cases hc
  · intro hne
    have := ends_ne_nil hold hne
    omega
  · intro n hn s' d hc'
    rcases getElem?_ends_cases hn hc' with he | ⟨-, rfl⟩
    · cases he
    · cases hc
  · intro p hp hw
    have hok := (h.ok p hp).append (ends hold ++ [c])
    rw [← List.append_assoc] at hok
    refine ⟨hok.typed, hok.hold, nofun, fun k hk => ?_, nofun⟩
    cases hk
    have := (h.ok p hp).lt
    exact ⟨by simp; omega, c, by simp, ht⟩
  · intro k s' data hk hc'
    rcases getElem?_ends_cases hk hc' with he | ⟨-, rfl⟩
    · cases he
    · cases hc

/-- A hold with no text ends without a call. -/
theorem Inv.quiet (h : Inv log hold held pieces) (hnil : text pieces .waiting = []) :
    Inv (log ++ ends hold) none held.reset (pieces.map (settleAs .empty)) := by
  have hno : ∀ n ≥ log.length, ∀ c, (log ++ ends hold)[n]? = some c → c = .onHold none := by
    intro n hn c hc
    rw [List.getElem?_append_right hn] at hc
    exact mem_ends (List.mem_of_getElem? hc)
  refine h.release rfl rfl rfl rfl nofun h.holding_ends ?_ ?_ ?_ ?_ ?_ nofun
  · intro hne
    have := ends_ne_nil hold hne
    rw [releases_ends]
    omega
  · rw [releases_ends]
    omega
  · intro n hn s d hc
    cases hno n hn _ hc
  · intro p hp hw
    have hok := (h.ok p hp).append (ends hold)
    refine ⟨hok.typed, hok.hold, nofun, nofun, fun _ => ?_⟩
    rw [text, List.flatten_eq_nil_iff] at hnil
    have hmem : p ∈ pieces.filter (·.fate = .waiting) := List.mem_filter.mpr ⟨hp, by simpa using hw⟩
    exact hnil p.data (List.mem_map_of_mem hmem)
  · intro k s data hk hc
    cases hno k hk _ hc

theorem Inv.text_of_chars (h : Inv log hold held pieces) (h0 : held.chars = 0) :
    text pieces .waiting = [] := by
  have := h.chars
  exact List.length_eq_zero_iff.mp (by omega)

end Portty.App.LinkGuard
