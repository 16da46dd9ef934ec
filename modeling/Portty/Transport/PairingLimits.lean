import Mathlib.Data.Option.Basic
import Portty.Transport.Pairing

/-!
# One source among many (`KeyedPairingRateLimiter`)

Any sequence of `check_and_reserve` and `record_success` with any keys. One call reads the clock
more than once: `gc_cold` at every entry, then `check`, then the reservation. `Reads` has these
readings, and `checkAndReserve` with one reading is the case in which they are the same
(`checkAndReserveAt_at`).

* `seen`: the entry of a key as a call at some time sees it. Cold entries are not seen, so it does
  not matter which call collects them (`gcColdAt_seen`).
* `log_filter`: the calls of one key do not notice the others.
* `BackedOff`: how far apart the reservations of a key are. A reservation after more than 1200
  seconds without one starts over; refused calls in between do not count (`restarted_while_called`).
* `limiter_isolated`: both, for every sequence.
-/

namespace Portty

/-- The backoff with a reading for the check and one for the reservation. -/
def PairingRateLimiter.checkAndReserveAt (l : PairingRateLimiter) (check stamp : Nat) :
    Except SyncError Unit × PairingRateLimiter :=
  match l.check check with
  | .error e => (.error e, l)
  | .ok () => (.ok (), { failures := saturatingSucc l.failures, lastAttempt := some stamp })

/-- A reservation has waited, and is counted. -/
theorem PairingRateLimiter.checkAndReserveAt_ok {l : PairingRateLimiter} {check stamp : Nat}
    (h : (l.checkAndReserveAt check stamp).1 = .ok ()) :
    (∀ last ∈ l.lastAttempt, l.currentWait ≤ check - last) ∧
      (l.checkAndReserveAt check stamp).2 =
        { failures := saturatingSucc l.failures, lastAttempt := some stamp } := by
  unfold PairingRateLimiter.checkAndReserveAt at *
  cases hcheck : l.check check with
  | error e =>
    rw [hcheck] at h
    cases h
  | ok =>
    refine ⟨fun last hlast => ?_, rfl⟩
    rw [PairingRateLimiter.check, Option.mem_def.mp hlast] at hcheck
    dsimp only at hcheck
    split_ifs at hcheck with hwait
    exact Nat.not_lt.mp hwait

theorem PairingRateLimiter.checkAndReserveAt_error {l : PairingRateLimiter} {check stamp : Nat}
    {e : SyncError}
    (h : (l.checkAndReserveAt check stamp).1 = .error e) :
    l.lastAttempt ≠ none ∧ (l.checkAndReserveAt check stamp).2 = l := by
  unfold PairingRateLimiter.checkAndReserveAt at *
  cases hcheck : l.check check with
  | error e' =>
    refine ⟨fun hnone => ?_, rfl⟩
    rw [PairingRateLimiter.check, hnone] at hcheck
    cases hcheck
  | ok =>
    rw [hcheck] at h
    cases h

namespace KeyedPairingRateLimiter

/-- What one call reads from the clock. The reservation reads it only if the check passes. -/
structure Reads where
  cold : String → Nat
  check : Nat
  stamp : Nat

/-- All readings are the same. -/
def Reads.at (now : Nat) : Reads := ⟨fun _ => now, now, now⟩

/-- `gc_cold`, each key with the time that it reads. -/
def gcColdAt (l : KeyedPairingRateLimiter) (cold : String → Nat) : KeyedPairingRateLimiter :=
  ⟨l.perKey.filterMap fun key rl => if rl.isCold (cold key) then none else some rl⟩

/-- `check_and_reserve`, with the times that it reads. -/
def checkAndReserveAt (l : KeyedPairingRateLimiter) (key : String) (reads : Reads) :
    Except SyncError Unit × KeyedPairingRateLimiter :=
  let l := l.gcColdAt reads.cold
  let (r, rl) := ((l.perKey.lookup key).getD {}).checkAndReserveAt reads.check reads.stamp
  (r, ⟨l.perKey.insert key rl⟩)

/-! ## Calls -/

/-- The calls of the limiter. -/
inductive Call where
  | reserve (key : String) (reads : Reads)
  | success (key : String)

/-- The key of a call. -/
def Call.key : Call → String
  | reserve key _ | success key => key

/-- `record_success` returns nothing. -/
def apply (l : KeyedPairingRateLimiter) : Call → Except SyncError Unit × KeyedPairingRateLimiter
  | .reserve key reads => l.checkAndReserveAt key reads
  | .success key => (.ok (), l.recordSuccess key)

/-- The calls with their outcomes. -/
def log (l : KeyedPairingRateLimiter) : List Call → List (Call × Except SyncError Unit)
  | [] => []
  | x :: calls => (x, (l.apply x).1) :: log (l.apply x).2 calls

/-- The readings of a call are not before `now`, and not before each other. -/
def Call.InOrder (now : Nat) : Call → Prop
  | .success _ => True
  | .reserve _ reads => (∀ key, now ≤ reads.cold key ∧ reads.cold key ≤ reads.check) ∧ reads.check ≤ reads.stamp

/-- The time after a call. -/
def Call.after (now : Nat) : Call → Nat
  | .success _ => now
  | .reserve _ reads => reads.stamp

/-- The clock does not go back: not within a call and not from one call to the next. -/
def Ordered : (now : Nat) → List Call → Prop
  | _, [] => True
  | now, x :: calls => x.InOrder now ∧ Ordered (x.after now) calls

variable {l l' : KeyedPairingRateLimiter} {key key' : String} {reads : Reads} {now later : Nat}
  {x : Call} {calls : List Call}

/-! ## What a call sees -/

/-- The entry of a key for a call at that time. -/
def seen (l : KeyedPairingRateLimiter) (key : String) (now : Nat) : Option PairingRateLimiter :=
  (l.perKey.lookup key).bind fun rl => if rl.isCold now then none else some rl

theorem isCold_mono {rl : PairingRateLimiter} (h : now ≤ later) (hcold : rl.isCold now = true) :
    rl.isCold later = true := by
  unfold PairingRateLimiter.isCold at *
  split at hcold
  · rfl
  · have := of_decide_eq_true hcold
    exact decide_eq_true (by omega)

theorem lookup_gcColdAt (l : KeyedPairingRateLimiter) (cold : String → Nat) (key : String) :
    (l.gcColdAt cold).perKey.lookup key = l.seen key (cold key) := FMap.lookup_filterMap _ _ _

/-- An entry that still refuses calls is not collected: no wait is longer than 600 seconds. -/
theorem isCold_of_check_error {rl : PairingRateLimiter} {e : SyncError} (h : now ≤ later)
    (hcheck : rl.check later = .error e) : rl.isCold now = false := by
  unfold PairingRateLimiter.check at hcheck
  split at hcheck
  · cases hcheck
  · rename_i last hlast
    split_ifs at hcheck with hwait
    have hcap : rl.currentWait ≤ secs 600 := by
      unfold PairingRateLimiter.currentWait
      split_ifs
      · exact Nat.zero_le _
      · exact min_le_right _ _
    have hlong : secs 600 ≤ secs 1200 := Nat.mul_le_mul_right _ (by decide)
    rw [PairingRateLimiter.isCold, hlast]
    exact decide_eq_false (by omega)

/-- The collection keeps the entries that refuse calls, and makes none. -/
theorem gcColdAt_keeps (l : KeyedPairingRateLimiter) (cold : String → Nat) (key : String)
    (rl : PairingRateLimiter) :
    (∀ later e, cold key ≤ later → rl.check later = .error e → l.perKey.lookup key = some rl →
      (l.gcColdAt cold).perKey.lookup key = some rl) ∧
    ((l.gcColdAt cold).perKey.lookup key = some rl → l.perKey.lookup key = some rl) := by
  rw [lookup_gcColdAt]
  constructor
  · intro later e hlater hcheck hrl
    rw [seen, hrl, Option.bind_some, isCold_of_check_error hlater hcheck]
    rfl
  · intro hseen
    obtain ⟨rl', hrl', hkept⟩ := Option.bind_eq_some_iff.mp hseen
    split_ifs at hkept
    rw [hrl', hkept]

/-- An entry that was collected would not be seen any more. -/
theorem gcColdAt_seen {cold : String → Nat} (h : cold key ≤ later) :
    (l.gcColdAt cold).seen key later = l.seen key later := by
  rw [seen, lookup_gcColdAt, seen, seen]
  cases l.perKey.lookup key with
  | none => rfl
  | some rl =>
    rw [Option.bind_some, Option.bind_some]
    by_cases hcold : rl.isCold (cold key) = true
    · rw [if_pos hcold, if_pos (isCold_mono h hcold), Option.bind_none]
    · rw [if_neg hcold, Option.bind_some]

/-- A call of the key. -/
theorem checkAndReserveAt_fst (l : KeyedPairingRateLimiter) (key : String) (reads : Reads) :
    (l.checkAndReserveAt key reads).1 =
      (((l.seen key (reads.cold key)).getD {}).checkAndReserveAt reads.check reads.stamp).1 := by
  rw [← lookup_gcColdAt]
  rfl

theorem lookup_checkAndReserveAt (l : KeyedPairingRateLimiter) (key : String) (reads : Reads) :
    (l.checkAndReserveAt key reads).2.perKey.lookup key =
      some (((l.seen key (reads.cold key)).getD {}).checkAndReserveAt reads.check reads.stamp).2 := by
  rw [← lookup_gcColdAt]
  exact Finmap.lookup_insert _

/-- A call of another key. -/
theorem lookup_checkAndReserveAt_of_ne (h : key ≠ key') (reads : Reads) :
    (l.checkAndReserveAt key' reads).2.perKey.lookup key = l.seen key (reads.cold key) := by
  rw [← lookup_gcColdAt]
  exact Finmap.lookup_insert_of_ne _ h

theorem seen_checkAndReserveAt_of_ne (h : key ≠ key') (hlater : reads.cold key ≤ later) :
    (l.checkAndReserveAt key' reads).2.seen key later = l.seen key later := by
  have hlookup := lookup_checkAndReserveAt_of_ne (l := l) h reads
  rw [← lookup_gcColdAt] at hlookup
  rw [seen, hlookup, ← seen, gcColdAt_seen hlater]

theorem lookup_recordSuccess (l : KeyedPairingRateLimiter) (key key' : String) :
    (l.recordSuccess key').perKey.lookup key = if key = key' then none else l.perKey.lookup key :=
  FMap.lookup_erase_ite _ _ _

/-! ## The calls of one key -/

/-- From now on, no call of the key sees a difference. -/
def Agree (key : String) (now : Nat) (l l' : KeyedPairingRateLimiter) : Prop :=
  ∀ later, now ≤ later → l.seen key later = l'.seen key later

theorem agree_of_lookup (h : l.perKey.lookup key = l'.perKey.lookup key) : Agree key now l l' := fun later _ => by
  rw [seen, seen, h]

/-- A call of the key has the same outcome, and leaves the same entry. -/
theorem Agree.own (h : Agree key now l l') (hx : x.InOrder now) (hkey : x.key = key) :
    (l.apply x).1 = (l'.apply x).1 ∧ Agree key (x.after now) (l.apply x).2 (l'.apply x).2 := by
  subst hkey
  cases x with
  | success key =>
    refine ⟨rfl, agree_of_lookup ?_⟩
    simp only [apply, Call.key, lookup_recordSuccess, if_true]
  | reserve key reads =>
    have hseen : l.seen key (reads.cold key) = l'.seen key (reads.cold key) := h _ (hx.1 key).1
    refine ⟨?_, agree_of_lookup ?_⟩
    · rw [apply, apply, checkAndReserveAt_fst, checkAndReserveAt_fst, hseen]
    · simp only [apply, Call.key, lookup_checkAndReserveAt, hseen]

/-- A call of another key makes no difference. -/
theorem Agree.other (h : Agree key now l l') (hx : x.InOrder now) (hkey : key ≠ x.key) :
    Agree key (x.after now) (l.apply x).2 l' := by
  cases x with
  | success key' =>
    have hkey : key ≠ key' := hkey
    have hlookup := l.lookup_recordSuccess key key'
    rw [if_neg hkey] at hlookup
    intro later hlater
    rw [← h later hlater, apply, seen, hlookup, ← seen]
  | reserve key' reads =>
    obtain ⟨hreads, hstamp⟩ := hx
    obtain ⟨hnow, hcheck⟩ := hreads key
    intro later hlater
    have hlater : reads.stamp ≤ later := hlater
    rw [← h later (by omega)]
    exact seen_checkAndReserveAt_of_ne hkey (by omega)

/-- The outcomes of the calls of a key are the ones that they have alone. -/
theorem log_filter (ho : Ordered now calls) (h : Agree key now l l') :
    (l.log calls).filter (fun e => e.1.key = key) = l'.log (calls.filter fun x => x.key = key) := by
  induction calls generalizing now l l' with
  | nil => rfl
  | cons x calls ih =>
    rw [log]
    by_cases hkey : x.key = key
    · obtain ⟨hr, hagree⟩ := h.own ho.1 hkey
      simp only [List.filter_cons, hkey, decide_true, if_true, log, hr, ih ho.2 hagree]
    · simp only [List.filter_cons, hkey, decide_false, Bool.false_eq_true, if_false,
        ih ho.2 (h.other ho.1 (Ne.symm hkey))]

/-! ## Reservations -/

/-- The reservations of a key since its last success, after one more call. -/
def record (key : String) (times : List Nat) : Call × Except SyncError Unit → List Nat
  | (.reserve key' reads, .ok ()) => if key' = key then times ++ [reads.stamp] else times
  | (.reserve _ _, .error _) => times
  | (.success key', _) => if key' = key then [] else times

/-- The times of the reservations of a key since its last success. -/
def reservations (key : String) (entries : List (Call × Except SyncError Unit)) : List Nat :=
  entries.foldl (record key) []

/-- Between two of the reservations from `m` to `i`, the key had none for more than 1200 seconds. -/
def Idle (times : List Nat) (m i : Nat) : Prop :=
  ∃ j, m ≤ j ∧ j < i ∧ ∃ t t', times[j]? = some t ∧ times[j + 1]? = some t' ∧ t + secs 1200 < t'

/-- After `i - m + 1` reservations without an idle time, the next one waits for `min(2^(i - m),
600)` seconds. -/
def BackedOff (times : List Nat) : Prop :=
  ∀ i m t t', m ≤ i → times[i]? = some t → times[i + 1]? = some t' → ¬ Idle times m i →
    t + min (secs (2 ^ (i - m))) (secs 600) ≤ t'

variable {times : List Nat} {last stamp : Nat}

/-- The wait after `n` failures or more. -/
theorem le_currentWait {rl : PairingRateLimiter} {n : Nat}
    (hn : min (n + 1) (2 ^ 32 - 1) ≤ rl.failures) :
    min (secs (2 ^ n)) (secs 600) ≤ rl.currentWait := by
  rw [PairingRateLimiter.currentWait, if_neg (by omega)]
  rcases Nat.lt_or_ge (rl.failures - 1) 10 with hfew | hmany
  · refine min_le_min_right _ (Nat.mul_le_mul_right _ (Nat.pow_le_pow_right (by decide) ?_))
    omega
  · refine (min_le_right _ _).trans (le_min ?_ (Nat.le_refl _))
    rw [Nat.min_eq_right hmany]
    decide

theorem saturatingSucc_le {n k : Nat} (h : min n (2 ^ 32 - 1) ≤ k) :
    min (n + 1) (2 ^ 32 - 1) ≤ saturatingSucc k := by
  unfold saturatingSucc
  generalize 2 ^ 32 - 1 = bound at *
  omega

/-- What the limiter knows of the reservations of a key: while the last one is not 1200 seconds ago,
the entry has it, and counts all of them since the last idle time. -/
structure Tracks (key : String) (now : Nat) (l : KeyedPairingRateLimiter) (times : List Nat) : Prop where
  backedOff : BackedOff times
  past : ∀ last ∈ times.getLast?, last ≤ now
  entry : ∀ last ∈ times.getLast?, now ≤ last + secs 1200 → ∃ rl, l.perKey.lookup key = some rl ∧
    rl.lastAttempt = some last ∧ ∀ m, ¬ Idle times m (times.length - 1) →
      min (times.length - m) (2 ^ 32 - 1) ≤ rl.failures

theorem tracks_nil (key : String) (now : Nat) (l : KeyedPairingRateLimiter) :
    Tracks key now l [] where
  backedOff _ _ _ _ _ h := by simp at h
  past := by simp
  entry := by simp

/-- The entry of the last reservation is seen until 1200 seconds after it. -/
theorem Tracks.seen_eq (h : Tracks key now l times) (hlast : last ∈ times.getLast?)
    (hlater : now ≤ later)
    (hwarm : later ≤ last + secs 1200) :
    ∃ rl, l.seen key later = some rl ∧ rl.lastAttempt = some last ∧
      ∀ m, ¬ Idle times m (times.length - 1) →
        min (times.length - m) (2 ^ 32 - 1) ≤ rl.failures := by
  obtain ⟨rl, hrl, hattempt, hfailures⟩ := h.entry last hlast (hlater.trans hwarm)
  refine ⟨rl, ?_, hattempt, hfailures⟩
  have hcold : rl.isCold later = false := by
    rw [PairingRateLimiter.isCold, hattempt]
    exact decide_eq_false (by omega)
  rw [seen, hrl, Option.bind_some, hcold]
  rfl

/-- The entry is still there after a call that left what it saw. -/
theorem Tracks.keep (h : Tracks key now l times) {cold : Nat} (hcold : now ≤ cold)
    (hlater : cold ≤ later)
    (hsame : ∀ rl, l.seen key cold = some rl → l'.perKey.lookup key = some rl) :
    Tracks key later l' times where
  backedOff := h.backedOff
  past last hlast := (h.past last hlast).trans (hcold.trans hlater)
  entry last hlast hwarm := by
    obtain ⟨rl, hrl, hentry⟩ := h.seen_eq hlast hcold (hlater.trans hwarm)
    exact ⟨rl, hsame rl hrl, hentry⟩

/-- One more reservation leaves the times between the earlier ones. -/
theorem idle_concat {m i : Nat} (hi : i < times.length) :
    Idle (times ++ [stamp]) m i ↔ Idle times m i := by
  refine exists_congr fun j => and_congr_right fun _ => and_congr_right fun hj => ?_
  rw [List.getElem?_append_left (by omega), List.getElem?_append_left (by omega)]

/-- A reservation has waited as long as the earlier ones ask for. -/
theorem Tracks.waited (h : Tracks key now l times) (hx : (Call.reserve key reads).InOrder now)
    (hok : (l.checkAndReserveAt key reads).1 = .ok ()) {m : Nat} (hm : m < times.length)
    (hlast : last ∈ times.getLast?)
    (hidle : ¬ Idle times m (times.length - 1)) :
    last + min (secs (2 ^ (times.length - 1 - m))) (secs 600) ≤ reads.stamp := by
  obtain ⟨hreads, hstamp⟩ := hx
  obtain ⟨hnow, hcheck⟩ := hreads key
  have hpast := h.past last hlast
  rcases Nat.lt_or_ge (last + secs 1200) (reads.cold key) with hcold | hwarm
  · have hcap : min (secs (2 ^ (times.length - 1 - m))) (secs 600) ≤ secs 600 := min_le_right _ _
    have hlong : secs 600 ≤ secs 1200 := Nat.mul_le_mul_right _ (by decide)
    omega
  · obtain ⟨rl, hseen, hattempt, hfailures⟩ := h.seen_eq hlast hnow hwarm
    rw [checkAndReserveAt_fst, hseen] at hok
    have hwait := (PairingRateLimiter.checkAndReserveAt_ok hok).1 last hattempt
    have hbackoff : min (secs (2 ^ (times.length - 1 - m))) (secs 600) ≤ rl.currentWait := by
      refine le_currentWait ?_
      rw [show times.length - 1 - m + 1 = times.length - m by omega]
      exact hfailures m hidle
    have hpos : 0 < min (secs (2 ^ (times.length - 1 - m))) (secs 600) :=
      Nat.lt_min.mpr ⟨Nat.mul_pos (Nat.two_pow_pos _) (by decide), Nat.mul_pos (by decide) (by decide)⟩
    rw [Option.getD_some] at hwait
    generalize min (secs (2 ^ (times.length - 1 - m))) (secs 600) = backoff at *
    omega

/-- One more attempt, after the delay. -/
theorem backedOff_concat (h : BackedOff times)
    (hlast : ∀ last ∈ times.getLast?, ∀ m < times.length, ¬ Idle times m (times.length - 1) →
      last + min (secs (2 ^ (times.length - 1 - m))) (secs 600) ≤ stamp) :
      BackedOff (times ++ [stamp]) := by
  intro i m t t' hm ht ht' hidle
  have hlen := (List.getElem?_eq_some_iff.mp ht').1
  rw [List.length_append, List.length_singleton] at hlen
  rw [List.getElem?_append_left (by omega)] at ht
  rw [idle_concat (by omega)] at hidle
  rcases Nat.lt_or_ge (i + 1) times.length with hi | hi
  · rw [List.getElem?_append_left hi] at ht'
    exact h i m t t' hm ht ht' hidle
  · obtain rfl : i = times.length - 1 := by omega
    have ht' : some stamp = some t' := by
      rwa [show times.length - 1 + 1 = times.length by omega, List.getElem?_concat_length] at ht'
    obtain rfl := Option.some.inj ht'
    rw [← List.getLast?_eq_getElem?] at ht
    exact hlast t ht m (by omega) hidle

/-- A reservation. -/
theorem Tracks.reserved (h : Tracks key now l times) (hx : (Call.reserve key reads).InOrder now)
    (hok : (l.checkAndReserveAt key reads).1 = .ok ()) :
    Tracks key reads.stamp (l.checkAndReserveAt key reads).2 (times ++ [reads.stamp]) := by
  have hlookup := l.lookup_checkAndReserveAt key reads
  have hok' := hok
  rw [checkAndReserveAt_fst] at hok'
  rw [(PairingRateLimiter.checkAndReserveAt_ok hok').2] at hlookup
  have hconcat : ∀ last ∈ (times ++ [reads.stamp]).getLast?,
      last = reads.stamp := fun last hlast => by
    rw [List.getLast?_concat] at hlast
    exact (Option.some.inj hlast).symm
  refine ⟨backedOff_concat h.backedOff fun last hlast m hm => h.waited hx hok hm hlast, fun last hlast => ?_,
    fun last hlast _ => ⟨_, hlookup, congrArg some (hconcat last hlast).symm, fun m hidle => ?_⟩⟩
  · exact (hconcat last hlast).le
  · rw [List.length_append, List.length_singleton] at hidle ⊢
    rcases Nat.lt_or_ge m times.length with hm | hm
    · have hne : times ≠ [] := List.ne_nil_of_length_pos (by omega)
      have hlast := List.getLast?_eq_getLast_of_ne_nil hne
      -- No idle time before this reservation, so the entry of the last one was there.
      have hwarm : reads.stamp ≤ times.getLast hne + secs 1200 := by
        by_contra hcold
        refine hidle ⟨times.length - 1, by omega, by omega, times.getLast hne, reads.stamp, ?_, ?_, by omega⟩
        · rw [List.getElem?_append_left (by omega), ← List.getLast?_eq_getElem?]
          exact hlast
        · rw [show times.length - 1 + 1 = times.length by omega, List.getElem?_concat_length]
      obtain ⟨hreads, hstamp⟩ := hx
      obtain ⟨hnow, hcheck⟩ := hreads key
      obtain ⟨rl, hseen, -, hfailures⟩ := h.seen_eq hlast hnow (by omega)
      have hcount := hfailures m fun ⟨j, hmj, hj, t, t', ht, ht', hgap⟩ => hidle
        ⟨j, hmj, by omega, t, t', by rwa [List.getElem?_append_left (by omega)],
          by rwa [List.getElem?_append_left (by omega)], hgap⟩
      rw [hseen, Option.getD_some, show times.length + 1 - m = times.length - m + 1 by omega]
      exact saturatingSucc_le hcount
    · have hcount := saturatingSucc_le (n := 0) (k := ((l.seen key (reads.cold key)).getD {}).failures)
        ((min_le_left _ _).trans (Nat.zero_le _))
      exact (min_le_min_right _ (by omega)).trans hcount

theorem Tracks.step (h : Tracks key now l times) (hx : x.InOrder now) :
    Tracks key (x.after now) (l.apply x).2 (record key times (x, (l.apply x).1)) := by
  cases x with
  | success key' =>
    rw [record]
    split_ifs with hkey
    · exact tracks_nil key _ _
    · have hlookup := l.lookup_recordSuccess key key'
      rw [if_neg (Ne.symm hkey)] at hlookup
      exact ⟨h.backedOff, h.past, fun last hlast hwarm => hlookup.symm ▸ h.entry last hlast hwarm⟩
  | reserve key' reads =>
    have hkeep := hx
    obtain ⟨hreads, hstamp⟩ := hkeep
    obtain ⟨hnow, hcheck⟩ := hreads key
    by_cases hkey : key' = key
    · subst hkey
      cases hr : (l.checkAndReserveAt key' reads).1 with
      | ok =>
        simp only [apply, hr, record, if_true]
        exact h.reserved hx hr
      | error e =>
        simp only [apply, hr, record]
        refine h.keep hnow (by simp only [Call.after]; omega) fun rl hseen => ?_
        rw [checkAndReserveAt_fst] at hr
        rw [lookup_checkAndReserveAt, (PairingRateLimiter.checkAndReserveAt_error hr).2, hseen,
          Option.getD_some]
    · have hrecord : record key times (.reserve key' reads, (l.apply (.reserve key' reads)).1) =
          times := by
        cases (l.apply (.reserve key' reads)).1 with
        | ok => rw [record, if_neg hkey]
        | error e => rw [record]
      rw [hrecord]
      refine h.keep hnow (by simp only [Call.after]; omega) fun rl hseen => ?_
      rw [apply, lookup_checkAndReserveAt_of_ne (Ne.symm hkey), hseen]

theorem Tracks.backedOff_log (h : Tracks key now l times) (ho : Ordered now calls) :
    BackedOff ((l.log calls).foldl (record key) times) := by
  induction calls generalizing now l times with
  | nil => exact h.backedOff
  | cons x calls ih => exact ih (h.step ho.1) ho.2

/-- For every sequence of calls and every key: each call of the key has the outcome that it has when
only the calls of that key are made, the collection keeps every entry that still refuses calls and
makes none, and the next reservation after `k` reservations of the key comes at least `min(2^(k -
1), 600)` seconds after the last one, unless the key had no reservation for more than 1200 seconds.
-/
theorem limiter_isolated (calls : List Call) (ho : Ordered 0 calls) (key : String) :
    (log {} calls).filter (fun e => e.1.key = key) = log {} (calls.filter fun x => x.key = key) ∧
    (∀ (l : KeyedPairingRateLimiter) cold rl,
      (∀ later e, cold key ≤ later → rl.check later = .error e → l.perKey.lookup key = some rl →
        (l.gcColdAt cold).perKey.lookup key = some rl) ∧
      ((l.gcColdAt cold).perKey.lookup key = some rl → l.perKey.lookup key = some rl)) ∧
    BackedOff (reservations key (log {} calls)) :=
  ⟨log_filter ho fun _ _ => rfl, fun l cold rl => l.gcColdAt_keeps cold key rl,
    (tracks_nil key 0 {}).backedOff_log ho⟩

/-- Dials of a phone, one after another. -/
def dials (key : String) (times : List Nat) : List Call := times.map fun t => .reserve key (.at t)

theorem ordered_dials (key : String) (h : (now :: times).IsChain (· ≤ ·)) :
    Ordered now (dials key times) := by
  induction times generalizing now with
  | nil => trivial
  | cons t times ih =>
    rw [List.isChain_cons_cons] at h
    exact ⟨⟨fun _ => ⟨h.1, Nat.le_refl t⟩, Nat.le_refl t⟩, ih h.2⟩

/-- Two phones, one of them with a second attempt that comes too early. -/
def twoPhones : List Call :=
  dials "node:a" [secs 5] ++ dials "node:b" [secs 6] ++ dials "node:a" [secs 6, secs 7]

theorem limiter_isolated_twoPhones :
    (log {} twoPhones).filter (fun e => e.1.key = "node:b") = log {} (dials "node:b" [secs 6]) ∧
      BackedOff (reservations "node:a" (log {} twoPhones)) := by
  have ho : Ordered 0 twoPhones := by
    simp [twoPhones, dials, Ordered, Call.InOrder, Call.after, Reads.at, secs]
  exact ⟨(limiter_isolated twoPhones ho "node:b").1, (limiter_isolated twoPhones ho "node:a").2.2⟩

/-- A key that is refused 599 seconds after its eleventh reservation, and is called again 602
seconds later. -/
def patient : List Nat := [0, 1, 3, 7, 15, 31, 63, 127, 255, 511, 1023, 1622, 2224, 2225].map secs

/-- Without a success, and called at least every 602 seconds, a key has its thirteenth reservation
one second after the twelfth. -/
theorem restarted_while_called :
    Ordered 0 (dials "node:a" patient) ∧ patient.IsChain (fun t t' => t' ≤ t + secs 602) ∧
      ∃ times, reservations "node:a" (log {} (dials "node:a" patient)) =
        times ++ [secs 2224, secs 2225] ∧
        (times ++ [secs 2224]).length = 12 ∧
          secs 2225 < secs 2224 + min (secs (2 ^ (12 - 1))) (secs 600) := by
  refine ⟨ordered_dials "node:a" (by decide), by decide, patient.take 11, ?_, by decide, by decide⟩
  decide +kernel

end KeyedPairingRateLimiter

end Portty
