import Mathlib.Order.Nat
import Portty.Lib.Rows

/-!
# Fixed-window rate limiters

A limiter counts, for each key, the calls of the current window of the key. A call drops the windows
that have ended, counts in the window of its key or starts one; a window that has `max` calls
refuses.

A call has a time `now`, which can be earlier than the clock. Where every call that starts a window
is made at its time (`Current`):

* `Paid`: at most `2 * max` calls for a key are granted in any interval of the length of a window
  (`Paid.count_le`).
* `Alike`: the limiter decides about a key as one that sees only the calls for the key.
-/

namespace FixedWindow

variable {κ : Type}

/-- The window of a key, and how many of its calls were granted. -/
structure Hit (κ : Type) where
  key : κ
  start : Nat
  count : Nat
  deriving DecidableEq, Repr

/-- The window is running at `now`; a time before its start counts as its start. -/
def Hit.live (window : Nat) (now : Nat) (h : Hit κ) : Bool := now - h.start < window

/-- The hits that are still live. -/
def retain (window : Nat) (now : Nat) (hits : List (Hit κ)) : List (Hit κ) :=
  hits.filter (·.live window now)

/-- The decision about a call, and the windows after it. -/
def allow [DecidableEq κ] (window max : Nat) (hits : List (Hit κ)) (key : κ) (now : Nat) :
    Bool × List (Hit κ) :=
  let hits := retain window now hits
  match Rows.find (·.key) key hits with
  | some h =>
    if h.live window now then
      if max ≤ h.count then (false, hits) else (true, Rows.put (·.key) { h with count := h.count + 1 } hits)
    else (true, Rows.put (·.key) ⟨key, now, 1⟩ hits)
  | none => (true, Rows.put (·.key) ⟨key, now, 1⟩ hits)

variable {window max clock now : Nat} {hits : List (Hit κ)} {key k : κ} {h : Hit κ}

theorem mem_retain : h ∈ retain window now hits ↔ h ∈ hits ∧ h.live window now = true :=
  List.mem_filter

theorem unique_retain (hu : Rows.Unique (·.key) hits) :
    Rows.Unique (·.key) (retain window now hits) :=
  hu.sublist List.filter_sublist

variable [DecidableEq κ]

/-- What a call does: it counts in a running window, is refused by a full one, or starts a window.
-/
inductive Call (window max : Nat) (hits : List (Hit κ)) (key : κ) (now : Nat) : Bool → List (Hit κ) → Prop
  | refused (h : Hit κ) (hm : h ∈ hits) (hk : h.key = key) (hl : h.live window now = true)
    (hc : max ≤ h.count) : Call window max hits key now false (retain window now hits)
  | counted (h : Hit κ) (hm : h ∈ hits) (hk : h.key = key) (hl : h.live window now = true)
    (hc : h.count < max) :
    Call window max hits key now true
      (Rows.put (·.key) { h with count := h.count + 1 } (retain window now hits))
  | started (hn : ∀ h ∈ hits, h.key = key → h.live window now = false) :
    Call window max hits key now true (Rows.put (·.key) ⟨key, now, 1⟩ (retain window now hits))

/-- The ways in which a call can go. -/
theorem allow_call (window max : Nat) (hits : List (Hit κ)) (key : κ) (now : Nat) :
    Call window max hits key now (allow window max hits key now).1 (allow window max hits key now).2 := by
  unfold allow
  dsimp only
  cases hf : Rows.find (·.key) key (retain window now hits) with
  | some h =>
    obtain ⟨hm, hl⟩ := mem_retain.mp (Rows.mem_of_find hf)
    have hk : h.key = key := Rows.key_of_find hf
    dsimp only
    rw [if_pos hl]
    split
    · exact .refused h hm hk hl (by assumption)
    · exact .counted h hm hk hl (by omega)
  | none =>
    refine .started fun h hm hk => ?_
    rw [Bool.eq_false_iff]
    intro hl
    exact Rows.find_eq_none.mp hf h (mem_retain.mpr ⟨hm, hl⟩) hk

theorem Call.unique {granted : Bool} {hits' : List (Hit κ)} (hu : Rows.Unique (·.key) hits)
    (hc : Call window max hits key now granted hits') : Rows.Unique (·.key) hits' := by
  cases hc with
  | refused => exact unique_retain hu
  | counted => exact (unique_retain hu).put _
  | started => exact (unique_retain hu).put _

/-- The windows of other keys are dropped or stay. -/
theorem Call.other {granted : Bool} {hits' : List (Hit κ)}
    (hc : Call window max hits key now granted hits')
    (hk : h.key ≠ key) : h ∈ hits' ↔ h ∈ hits ∧ h.live window now = true := by
  cases hc with
  | refused => exact mem_retain
  | counted h' hm hk' =>
    rw [Rows.mem_put, mem_retain]
    constructor
    · rintro (rfl | ⟨hh, -⟩)
      · exact absurd hk' hk
      · exact hh
    · exact fun hh => .inr ⟨hh, fun he => hk (he.trans hk')⟩
  | started =>
    rw [Rows.mem_put, mem_retain]
    constructor
    · rintro (rfl | ⟨hh, -⟩)
      · exact absurd rfl hk
      · exact hh
    · exact fun hh => .inr ⟨hh, hk⟩

/-- A call that starts a window is made at its time. -/
def Current (window : Nat) (clock : Nat) (hits : List (Hit κ)) (key : κ) (now : Nat) : Prop :=
  (∀ h ∈ hits, h.key = key → h.live window now = false) → now = clock

instance (window clock : Nat) (hits : List (Hit κ)) (key : κ) (now : Nat) :
    Decidable (Current window clock hits key now) :=
  inferInstanceAs (Decidable ((∀ h ∈ hits, h.key = key → h.live window now = false) → now = clock))

/-! ## The number of calls granted -/

/-- The number of times in the interval of the length of a window from `a` on. -/
def countIn (window a : Nat) (times : List Nat) : Nat :=
  times.countP fun t => a ≤ t ∧ t < a + window

/-- How many of the times are not before `a`. -/
def countFrom (a : Nat) (times : List Nat) : Nat := times.countP fun t => a ≤ t

/-- At most two windows of calls are in an interval, and at most one is in an interval that reaches
beyond `e`. -/
def Spread (window max e : Nat) (times : List Nat) : Prop :=
  (∀ a, countIn window a times ≤ 2 * max) ∧ ∀ a, e < a + window → countFrom a times ≤ max

theorem Spread.mono {e e' : Nat} {times : List Nat} (hs : Spread window max e times) (he : e ≤ e') :
    Spread window max e' times := ⟨hs.1, fun a ha => hs.2 a (by omega)⟩

theorem countIn_le_countFrom (window a : Nat) (times : List Nat) :
    countIn window a times ≤ countFrom a times := by
  refine List.countP_mono_left fun t _ ht => ?_
  simp only [decide_eq_true_eq] at ht ⊢
  exact ht.1

theorem countFrom_eq_zero {a : Nat} {times : List Nat} (hl : ∀ t ∈ times, t < a) :
    countFrom a times = 0 := by
  rw [countFrom, List.countP_eq_zero]
  intro t ht
  simpa using hl t ht

/-- The calls `cur` of the window that starts at `s`, after the calls `old`. -/
theorem countIn_append {s a : Nat} {cur old : List Nat} (hs : Spread window max s old)
    (hlen : cur.length ≤ max) (hcur : ∀ t ∈ cur, s ≤ t) :
    countIn window a (cur ++ old) ≤ 2 * max := by
  rw [countIn, List.countP_append]
  by_cases ha : s < a + window
  · have hold := (countIn_le_countFrom window a old).trans (hs.2 a ha)
    have hle : cur.countP (fun t => a ≤ t ∧ t < a + window) ≤ cur.length := List.countP_le_length
    unfold countIn at hold
    omega
  · have hzero : cur.countP (fun t => decide (a ≤ t ∧ t < a + window)) = 0 := by
      rw [List.countP_eq_zero]
      intro t ht
      have := hcur t ht
      simp only [decide_eq_true_eq]
      omega
    rw [hzero, Nat.zero_add]
    exact hs.1 a

/-- The window has ended. -/
theorem Spread.append {s e : Nat} {cur old : List Nat} (hs : Spread window max s old)
    (hlen : cur.length ≤ max) (hcur : ∀ t ∈ cur, s ≤ t) (hold : ∀ t ∈ old, t ≤ s)
    (he : s + window ≤ e) :
    Spread window max e (cur ++ old) := by
  refine ⟨fun a => countIn_append hs hlen hcur, fun a ha => ?_⟩
  rw [countFrom, List.countP_append]
  have hzero : countFrom a old = 0 := countFrom_eq_zero fun t ht => by
    have := hold t ht
    omega
  have hle : cur.countP (fun t => decide (a ≤ t)) ≤ cur.length := List.countP_le_length
  unfold countFrom at hzero
  omega

/-- The calls that are paid for: those of the running window, and earlier ones. -/
structure InWindow (window max clock : Nat) (h : Hit κ) (times : List Nat) : Prop where
  start_le : h.start ≤ clock
  count_le : h.count ≤ max
  split : ∃ cur old, times = cur ++ old ∧ cur.length ≤ h.count ∧ (∀ t ∈ cur, h.start ≤ t) ∧
    (∀ t ∈ old, t ≤ h.start) ∧ Spread window max h.start old

/-- The times of the calls with a key. -/
def timesOf (key : κ) (log : List (κ × Nat)) : List Nat := (log.filter (·.1 = key)).map (·.2)

/-- The granted calls of the log are paid for by the windows. -/
structure Paid (window max clock : Nat) (hits : List (Hit κ)) (log : List (κ × Nat)) : Prop where
  unique : Rows.Unique (·.key) hits
  past : ∀ p ∈ log, p.2 ≤ clock
  inWindow : ∀ h ∈ hits, InWindow window max clock h (timesOf h.key log)
  spread : ∀ key, (∀ h ∈ hits, h.key ≠ key) → Spread window max clock (timesOf key log)

variable {log : List (κ × Nat)}

theorem paid_nil : Paid window max clock ([] : List (Hit κ)) [] where
  unique := List.nodup_nil
  past := nofun
  inWindow := nofun
  spread := fun _ _ => ⟨fun _ => Nat.zero_le _, fun _ _ => Nat.zero_le _⟩

theorem Paid.count_le (hp : Paid window max clock hits log) (key : κ) (a : Nat) :
    countIn window a (timesOf key log) ≤ 2 * max := by
  by_cases hk : ∃ h ∈ hits, h.key = key
  · obtain ⟨h, hh, rfl⟩ := hk
    obtain ⟨-, hcount, cur, old, he, hlen, hcur, -, hs⟩ := hp.inWindow h hh
    rw [he]
    exact countIn_append hs (hlen.trans hcount) hcur
  · push Not at hk
    exact (hp.spread key hk).1 a

theorem Paid.tick (hp : Paid window max clock hits log) {clock' : Nat} (hle : clock ≤ clock') :
    Paid window max clock' hits log where
  unique := hp.unique
  past := fun p hp' => (hp.past p hp').trans hle
  inWindow := fun h hh =>
    let hw := hp.inWindow h hh
    { hw with start_le := hw.start_le.trans hle }
  spread := fun key hk => (hp.spread key hk).mono hle

omit [DecidableEq κ] in
/-- The calls of a window that has ended. -/
theorem InWindow.ended {times : List Nat} (hw : InWindow window max clock h times)
    (he : h.start + window ≤ clock) : Spread window max clock times := by
  obtain ⟨-, hcount, cur, old, rfl, hlen, hcur, hold, hs⟩ := hw
  exact hs.append (hlen.trans hcount) hcur hold he

omit [DecidableEq κ] in
theorem ended_of_not_live (hw : 0 < window) (hn : h.live window now = false) :
    h.start + window ≤ now := by
  rw [Hit.live, decide_eq_false_iff_not] at hn
  omega

/-- A key without a running window: what was granted to it is spread. -/
theorem Paid.spread_of_not_live (hp : Paid window max clock hits log) (hw : 0 < window)
    (hle : now ≤ clock)
    (hn : ∀ h ∈ hits, h.key = key → h.live window now = false) :
    Spread window max clock (timesOf key log) := by
  by_cases hk : ∃ h ∈ hits, h.key = key
  · obtain ⟨h, hh, rfl⟩ := hk
    exact (hp.inWindow h hh).ended ((ended_of_not_live hw (hn h hh rfl)).trans hle)
  · push Not at hk
    exact hp.spread key hk

theorem timesOf_cons (key k : κ) (t : Nat) (log : List (κ × Nat)) :
    timesOf key ((k, t) :: log) = if k = key then t :: timesOf key log else timesOf key log := by
  by_cases hk : k = key <;> simp [timesOf, hk]

/-- The windows that a call dropped. -/
theorem Paid.retain (hp : Paid window max clock hits log) (hw : 0 < window) (hle : now ≤ clock) :
    Paid window max clock (FixedWindow.retain window now hits) log where
  unique := unique_retain hp.unique
  past := hp.past
  inWindow := fun h hh => hp.inWindow h (mem_retain.mp hh).1
  spread := by
    intro key hk
    refine hp.spread_of_not_live hw hle fun h hh hkey => ?_
    rw [Bool.eq_false_iff]
    intro hl
    exact hk h (mem_retain.mpr ⟨hh, hl⟩) hkey

/-- A call that is granted counts in the window of its key. -/
theorem Paid.put (hp : Paid window max clock hits log)
    (hw : InWindow window max clock h (timesOf h.key log)) :
    Paid window max clock (Rows.put (·.key) h hits) log where
  unique := hp.unique.put h
  past := hp.past
  inWindow := by
    intro h' hh
    rcases Rows.mem_put.mp hh with rfl | ⟨hh, -⟩
    · exact hw
    · exact hp.inWindow h' hh
  spread := by
    intro key hk
    refine hp.spread key fun h' hh => ?_
    by_cases he : h'.key = h.key
    · exact he ▸ hk h (Rows.mem_put.mpr (.inl rfl))
    · exact hk h' (Rows.mem_put.mpr (.inr ⟨hh, he⟩))

/-- A granted call is entered. -/
theorem Paid.grant (hp : Paid window max clock hits log) (hh : h ∈ hits)
    (hw : InWindow window max clock h (clock :: timesOf h.key log)) :
    Paid window max clock hits ((h.key, clock) :: log) where
  unique := hp.unique
  past := by
    intro p hmem
    rcases List.mem_cons.mp hmem with rfl | hmem
    · exact le_refl _
    · exact hp.past p hmem
  inWindow := by
    intro h' hh'
    rw [timesOf_cons]
    split
    · rename_i hk
      rwa [← hp.unique.eq hh hh' hk]
    · exact hp.inWindow h' hh'
  spread := by
    intro key hk
    rw [timesOf_cons, if_neg (hk h hh)]
    exact hp.spread key hk

omit [DecidableEq κ] in
theorem InWindow.succ {times : List Nat} (hw : InWindow window max clock h times)
    (hc : h.count < max) :
    InWindow window max clock { h with count := h.count + 1 } times ∧
      InWindow window max clock { h with count := h.count + 1 } (clock :: times) := by
  obtain ⟨hs, -, cur, old, rfl, hlen, hcur, hold, hspread⟩ := hw
  refine ⟨⟨hs, hc, cur, old, rfl, Nat.le_succ_of_le hlen, hcur, hold, hspread⟩,
    ⟨hs, hc, clock :: cur, old, rfl, Nat.succ_le_succ hlen, ?_, hold, hspread⟩⟩
  intro t ht
  rcases List.mem_cons.mp ht with rfl | ht
  · exact hs
  · exact hcur t ht

omit [DecidableEq κ] in
theorem InWindow.start {times : List Nat} (hs : Spread window max clock times)
    (hpast : ∀ t ∈ times, t ≤ clock)
    (hm : 0 < max) :
    InWindow window max clock ⟨k, clock, 1⟩ times ∧
      InWindow window max clock ⟨k, clock, 1⟩ (clock :: times) := by
  refine ⟨⟨le_refl _, hm, [], times, rfl, Nat.zero_le _, nofun, hpast, hs⟩,
    ⟨le_refl _, hm, [clock], times, rfl, le_refl _, ?_, hpast, hs⟩⟩
  intro t ht
  exact (List.mem_singleton.mp ht).ge

theorem Paid.timesOf_le (hp : Paid window max clock hits log) (key : κ) :
    ∀ t ∈ timesOf key log, t ≤ clock := by
  intro t ht
  obtain ⟨p, hmem, rfl⟩ := List.mem_map.mp ht
  exact hp.past p (List.mem_filter.mp hmem).1

/-- After a call the log is paid for, with the call if it was granted. -/
theorem Paid.call {granted : Bool} {hits' : List (Hit κ)} (hp : Paid window max clock hits log)
    (hw : 0 < window) (hm : 0 < max) (hle : now ≤ clock) (hcur : Current window clock hits key now)
    (hc : Call window max hits key now granted hits') :
    Paid window max clock hits' log ∧ (granted = true → Paid window max clock hits' ((key, clock) :: log)) := by
  cases hc with
  | refused => exact ⟨hp.retain hw hle, nofun⟩
  | counted h hmem hk hl hcount =>
    subst hk
    obtain ⟨hin, hin'⟩ := (hp.inWindow h hmem).succ hcount
    have hput := (hp.retain hw hle).put hin
    exact ⟨hput, fun _ => hput.grant (h := { h with count := h.count + 1 }) (Rows.mem_put.mpr (.inl rfl)) hin'⟩
  | started hn =>
    obtain rfl := hcur hn
    obtain ⟨hin, hin'⟩ :=
      InWindow.start (k := key) (hp.spread_of_not_live hw hle hn) (hp.timesOf_le key) hm
    have hput := (hp.retain hw hle).put hin
    exact ⟨hput, fun _ => hput.grant (Rows.mem_put.mpr (.inl rfl)) hin'⟩

/-! ## The other keys -/

/-- `alone` has the windows of the key, also those that have ended and were dropped. -/
structure Alike (window clock : Nat) (key : κ) (hits alone : List (Hit κ)) : Prop where
  unique : Rows.Unique (·.key) hits
  unique_alone : Rows.Unique (·.key) alone
  sub : ∀ h ∈ hits, h.key = key → h ∈ alone
  ended : ∀ h ∈ alone, h.key = key → h ∈ hits ∨ h.start + window ≤ clock

variable {alone : List (Hit κ)}

omit [DecidableEq κ] in
theorem alike_nil : Alike window clock key ([] : List (Hit κ)) [] :=
  ⟨List.nodup_nil, List.nodup_nil, nofun, nofun⟩

omit [DecidableEq κ] in
theorem Alike.tick (ha : Alike window clock key hits alone) {clock' : Nat} (hle : clock ≤ clock') :
    Alike window clock' key hits alone :=
  { ha with ended := fun h hh hk => (ha.ended h hh hk).imp_right fun he => he.trans hle }

/-- A call for another key drops windows that have ended. -/
theorem Alike.other {granted : Bool} {hits' : List (Hit κ)} (ha : Alike window clock key hits alone)
    (hw : 0 < window) (hle : now ≤ clock) (hk : k ≠ key)
    (hc : Call window max hits k now granted hits') :
    Alike window clock key hits' alone where
  unique := hc.unique ha.unique
  unique_alone := ha.unique_alone
  sub := fun h hh hkey => ha.sub h ((hc.other (hkey ▸ hk.symm)).mp hh).1 hkey
  ended := by
    intro h hh hkey
    rcases ha.ended h hh hkey with hmem | he
    · cases hl : h.live window now with
      | true => exact .inl ((hc.other (hkey ▸ hk.symm)).mpr ⟨hmem, hl⟩)
      | false => exact .inr ((ended_of_not_live hw hl).trans hle)
    · exact .inr he

omit [DecidableEq κ] in
theorem Alike.retain (ha : Alike window clock key hits alone) :
    Alike window clock key (FixedWindow.retain window now hits) (FixedWindow.retain window now alone) where
  unique := unique_retain ha.unique
  unique_alone := unique_retain ha.unique_alone
  sub := fun h hh hk => mem_retain.mpr ⟨ha.sub h (mem_retain.mp hh).1 hk, (mem_retain.mp hh).2⟩
  ended := fun h hh hk =>
    (ha.ended h (mem_retain.mp hh).1 hk).imp_left fun hmem => mem_retain.mpr ⟨hmem, (mem_retain.mp hh).2⟩

/-- Both get the same window of the key. -/
theorem Alike.put (ha : Alike window clock key hits alone) (hk : h.key = key) :
    Alike window clock key (Rows.put (·.key) h hits) (Rows.put (·.key) h alone) where
  unique := ha.unique.put h
  unique_alone := ha.unique_alone.put h
  sub := by
    intro h' hh hk'
    rcases Rows.mem_put.mp hh with rfl | ⟨-, hne⟩
    · exact Rows.mem_put.mpr (.inl rfl)
    · exact absurd (hk'.trans hk.symm) hne
  ended := by
    intro h' hh hk'
    rcases Rows.mem_put.mp hh with rfl | ⟨-, hne⟩
    · exact .inl (Rows.mem_put.mpr (.inl rfl))
    · exact absurd (hk'.trans hk.symm) hne

omit [DecidableEq κ] in
/-- The key has a running window for both or for none. -/
theorem Alike.not_live (ha : Alike window clock key hits alone) (hw : 0 < window)
    (hcur : Current window clock hits key now)
    (hn : ∀ h ∈ hits, h.key = key → h.live window now = false) :
    ∀ h ∈ alone, h.key = key → h.live window now = false := by
  intro h hh hk
  rcases ha.ended h hh hk with hmem | he
  · exact hn h hmem hk
  · rw [hcur hn, Hit.live, decide_eq_false_iff_not]
    omega

/-- A key is told the same as if it were alone. -/
theorem Alike.call {granted granted' : Bool} {hits' alone' : List (Hit κ)}
    (ha : Alike window clock key hits alone) (hw : 0 < window)
    (hcur : Current window clock hits key now)
    (hc : Call window max hits key now granted hits')
    (hc' : Call window max alone key now granted' alone') :
    granted = granted' ∧ Alike window clock key hits' alone' := by
  cases hc with
  | refused h hm hk hl hcount =>
    have hmem := ha.sub h hm hk
    cases hc' with
    | refused => exact ⟨rfl, ha.retain⟩
    | counted h' hm' hk' hl' hcount' =>
      have he := ha.unique_alone.eq hmem hm' (hk.trans hk'.symm)
      rw [he] at hcount
      omega
    | started hn => exact absurd hl (by rw [hn h hmem hk]; nofun)
  | counted h hm hk hl hcount =>
    have hmem := ha.sub h hm hk
    cases hc' with
    | refused h' hm' hk' hl' hcount' =>
      have he := ha.unique_alone.eq hmem hm' (hk.trans hk'.symm)
      rw [he] at hcount
      omega
    | counted h' hm' hk' hl' hcount' =>
      rw [← ha.unique_alone.eq hmem hm' (hk.trans hk'.symm)]
      exact ⟨rfl, ha.retain.put hk⟩
    | started hn => exact absurd hl (by rw [hn h hmem hk]; nofun)
  | started hn =>
    have hn' := ha.not_live hw hcur hn
    cases hc' with
    | refused h' hm' hk' hl' => exact absurd hl' (by rw [hn' h' hm' hk']; nofun)
    | counted h' hm' hk' hl' => exact absurd hl' (by rw [hn' h' hm' hk']; nofun)
    | started => exact ⟨rfl, ha.retain.put rfl⟩

/-- The windows after the calls. -/
def after (window max : Nat) (hits : List (Hit κ)) (calls : List (κ × Nat)) : List (Hit κ) :=
  calls.foldl (fun hits call => (allow window max hits call.1 call.2).2) hits

/-- What the calls are told. -/
def decisions (window max : Nat) : List (Hit κ) → List (κ × Nat) → List Bool
  | _, [] => []
  | hits, call :: calls =>
    let (granted, hits) := allow window max hits call.1 call.2
    granted :: decisions window max hits calls

theorem decisions_concat (window max : Nat) (hits : List (Hit κ)) (calls : List (κ × Nat))
    (call : κ × Nat) :
    decisions window max hits (calls ++ [call]) = decisions window max hits calls ++
      [(allow window max (after window max hits calls) call.1 call.2).1] := by
  induction calls generalizing hits with
  | nil => rfl
  | cons c calls ih =>
    rw [List.cons_append, decisions, decisions]
    dsimp only
    rw [ih]
    rfl

theorem after_concat (window max : Nat) (hits : List (Hit κ)) (calls : List (κ × Nat))
    (call : κ × Nat) :
    after window max hits (calls ++ [call]) =
      (allow window max (after window max hits calls) call.1 call.2).2 := by
  simp [after]

end FixedWindow
