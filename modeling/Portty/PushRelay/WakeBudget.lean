import Portty.Lib.Run
import Portty.PushRelay.Relay

/-!
# The wake budget of a device token

`wake` asks the limiter of the tokens for each device in turn, with one `now` that it read before
the first send. A call that comes late has an early `now`.

* `inFlight_le`: at most `providerConcurrency` sends are in flight, in every run.
* `wake_budget`: where every call that starts a window of its token is made at its `now`, at most
  twice the budget is sent to a token in any interval of the length of a window, and the decisions
  about a token do not depend on the calls for other tokens.
* `wake_budget_exceeded`: one slow send starts a window in the past, and three windows of sends are
  in one interval.
-/

namespace Portty.PushRelay.Budget

open FixedWindow World

variable {c : Config} {w : World} {e : Event} {i : Nat} {t t' : Task}

/-! ## The slots of the provider -/

/-- The wake has been charged and is not answered yet. -/
def Task.inFlight : Task → Bool
  | .sending .. | .notifying _ => true
  | _ => false

/-- How many wakes are under way. -/
def inFlight (w : World) : Nat := w.tasks.countP Task.inFlight

/-- Every slot that is taken is the slot of a send. -/
def Slotted (w : World) : Prop := w.providerSlots + inFlight w = providerConcurrency

theorem Slotted.spawn (h : Slotted w) (ht : Task.inFlight t = false) : Slotted (w.spawn t) := by
  unfold Slotted inFlight World.spawn at *
  simp only [List.countP_append, List.countP_singleton, ht, Bool.false_eq_true, ite_false,
    Nat.add_zero]
  exact h

theorem inFlight_setTask (w : World) (hi : w.tasks[i]? = some t) (t' : Task) :
    inFlight (w.setTask i t') + (Task.inFlight t).toNat = inFlight w + (Task.inFlight t').toNat :=
  Table.countP_replace hi _

/-- A task goes on, and takes or frees no slot. -/
theorem Slotted.setTask {w' : World} (h : Slotted w) (hs : w'.providerSlots = w.providerSlots)
    (ht : w'.tasks = w.tasks) (hi : w.tasks[i]? = some t)
    (he : Task.inFlight t' = Task.inFlight t) :
    Slotted (w'.setTask i t') := by
  have hcount := inFlight_setTask w' (ht ▸ hi) t'
  have hsame : inFlight w' = inFlight w := by rw [inFlight, ht, inFlight]
  have hslots : (w'.setTask i t').providerSlots = w.providerSlots := hs
  unfold Slotted at *
  rw [he] at hcount
  omega

theorem Slotted.take {w' : World} (h : Slotted w) (hs : w'.providerSlots = w.providerSlots - 1)
    (hpos : w.providerSlots ≠ 0) (ht : w'.tasks = w.tasks) (hi : w.tasks[i]? = some t)
    (hfree : Task.inFlight t = false) (htaken : Task.inFlight t' = true) :
    Slotted (w'.setTask i t') := by
  have hcount := inFlight_setTask w' (ht ▸ hi) t'
  have hsame : inFlight w' = inFlight w := by rw [inFlight, ht, inFlight]
  have hslots : (w'.setTask i t').providerSlots = w.providerSlots - 1 := hs
  unfold Slotted at *
  rw [hfree, htaken, Bool.toNat_false, Bool.toNat_true] at hcount
  omega

theorem Slotted.free {w' : World} (h : Slotted w) (hs : w'.providerSlots = w.providerSlots + 1)
    (ht : w'.tasks = w.tasks) (hi : w.tasks[i]? = some t) (htaken : Task.inFlight t = true)
    (hfree : Task.inFlight t' = false) : Slotted (w'.setTask i t') := by
  have hcount := inFlight_setTask w' (ht ▸ hi) t'
  have hsame : inFlight w' = inFlight w := by rw [inFlight, ht, inFlight]
  have hslots : (w'.setTask i t').providerSlots = w.providerSlots + 1 := hs
  unfold Slotted at *
  rw [hfree, htaken, Bool.toNat_false, Bool.toNat_true] at hcount
  omega

theorem Slotted.ring (h : Slotted w) {now : Nat} {d : Device} {rest : List Device}
    {delivered : Bool}
    (hi : w.tasks[i]? = some t) (ht : Task.inFlight t = false) :
    Slotted (w.ring i now d rest delivered) := by
  unfold World.ring
  dsimp only
  split
  · exact h.setTask rfl rfl hi ht.symm
  · rename_i hcond
    simp only [Bool.or_eq_true, decide_eq_true_eq, not_or] at hcond
    exact h.take rfl hcond.2 rfl hi ht rfl

/-- A slot is taken before a send, and given back after it. -/
theorem Slotted.go (h : Slotted w) (hi : w.tasks[i]? = some t) : Slotted (w.go i t) := by
  cases t with
  | register | woken | forget => exact h.setTask rfl rfl hi rfl
  | wake headers host now =>
    refine h.setTask rfl rfl hi ?_
    split <;> rfl
  | waking host ds =>
    rw [World.go, World.throttle]
    split <;> exact h.setTask rfl rfl hi rfl
  | looping now ds delivered =>
    cases ds with
    | nil => exact h.setTask rfl rfl hi rfl
    | cons d rest => exact h.ring hi rfl
  | revoke headers host id =>
    rw [World.go, World.removeDevice]
    split <;> exact h.setTask rfl rfl hi rfl
  | revoked host =>
    refine h.setTask rfl rfl hi ?_
    split <;> rfl
  | notify =>
    rw [World.go, World.notifyRevoked]
    split
    · exact h.setTask rfl rfl hi rfl
    · exact h.take rfl (by assumption) rfl hi rfl rfl
  | sending | notifying | done => exact h

theorem Slotted.answered (h : Slotted w) (hi : w.tasks[i]? = some t) (ok : Bool) :
    Slotted (w.answered i ok t) := by
  cases t with
  | sending | notifying => exact h.free rfl rfl hi rfl rfl
  | register | wake | waking | woken | looping | revoke | revoked | forget | notify | done => exact h

theorem inFlight_of_arrives (h : Arrives c w t) : Task.inFlight t = false := by cases h <;> rfl

theorem Slotted.arrive (h : Slotted w) (ip : IpAddr) (ht : Arrives c w t) :
    Slotted (w.arrive ip t) := by
  obtain ⟨ipHits, s, hs, he⟩ := arrive_arrives ht ip
  rw [he]
  exact Slotted.spawn (w := { w with ipHits }) h (inFlight_of_arrives hs)

theorem Slotted.step (h : Slotted w) (c : Config) (e : Event) : Slotted (w.step c e) := by
  cases e with
  | tick => exact h
  | reorder ds =>
    rw [World.step]
    split <;> exact h
  | register ip headers request => exact h.arrive ip (registerTask_arrives c w headers request)
  | wake ip headers host => exact h.arrive ip (wakeTask_arrives c w headers host)
  | revoke headers host id => exact h.spawn (inFlight_of_arrives (revokeTask_arrives c w headers host id))
  | go i =>
    rw [World.step]
    cases hi : w.tasks[i]? with
    | none => exact h
    | some t => exact h.go hi
  | sent i ok =>
    rw [World.step]
    cases hi : w.tasks[i]? with
    | none => exact h
    | some t => exact h.answered hi ok

theorem inFlight_le (c : Config) (devices : List Device) (events : List Event) :
    inFlight (Run.run (World.step c) { devices } events) ≤ providerConcurrency := by
  have hs : Slotted (Run.run (World.step c) { devices } events) :=
    Run.run_induction (I := fun _ w => Slotted w) rfl fun _ e _ _ h => h.step c e
  unfold Slotted at hs
  omega

/-! ## The calls of the limiter -/

/-- At most twice the budget is sent to a token in an interval of the length of a window. -/
def Within (w : World) : Prop :=
  ∀ token a, countIn wakeBudgetWindow a (timesOf token w.wakes) ≤ 2 * wakeBudgetMax

/-- The calls for the token, and the decisions about them. -/
def callsOf (token : String) (calls : List (String × Nat × Bool)) : List (String × Nat) :=
  (calls.filter (·.1 = token)).map fun call => (call.1, call.2.1)

/-- What the calls for a token were told. -/
def decisionsOf (token : String) (calls : List (String × Nat × Bool)) : List Bool :=
  (calls.filter (·.1 = token)).map (·.2.2)

/-- The decisions about a token are those of a limiter that has only its calls. -/
def Independent (w : World) : Prop :=
  ∀ token, decisions wakeBudgetWindow wakeBudgetMax [] (callsOf token w.calls) = decisionsOf token w.calls

/-- The window of the device that is next has not gone by. -/
def Task.Meets (w : World) : Task → Prop
  | .looping now (device :: _) _ => Current wakeBudgetWindow w.clock w.tokenHits device.deviceToken now
  | _ => True

/-- A call that starts a window of its token is made at its `now`. -/
def Meets (w : World) : Event → Prop
  | .go i => ∀ t ∈ w.tasks[i]?, Task.Meets w t
  | _ => True

instance (w : World) : (t : Task) → Decidable (Task.Meets w t)
  | .looping now (device :: _) _ =>
    inferInstanceAs (Decidable (Current wakeBudgetWindow w.clock w.tokenHits device.deviceToken now))
  | .register .. | .wake .. | .waking .. | .woken _ | .looping _ [] _ | .sending .. | .revoke .. | .revoked _ |
    .forget _ | .notify | .notifying _ | .done _ => isTrue trivial

instance (w : World) : (e : Event) → Decidable (Meets w e)
  | .go i => inferInstanceAs (Decidable (∀ t ∈ w.tasks[i]?, Task.Meets w t))
  | .tick _ | .reorder _ | .register .. | .wake .. | .revoke .. | .sent .. => isTrue trivial

/-- The `now` of the loop of a wake. -/
def Task.loopNow : Task → Option Nat
  | .looping now _ _ => some now
  | .sending _ now _ _ => some now
  | _ => none

/-- What was sent is in the hits, and they are those of the calls. -/
structure Inv (w : World) : Prop where
  paid : Paid wakeBudgetWindow wakeBudgetMax w.clock w.tokenHits w.wakes
  alike : ∀ token, Alike wakeBudgetWindow w.clock token w.tokenHits
    (after wakeBudgetWindow wakeBudgetMax [] (callsOf token w.calls))
  decided : Independent w
  past : ∀ t ∈ w.tasks, ∀ now ∈ Task.loopNow t, now ≤ w.clock

/-- What the limiter has seen is the same; the clock can have moved on. -/
theorem Inv.of_same {w' : World} (h : Inv w) (hclock : w.clock ≤ w'.clock)
    (hhits : w'.tokenHits = w.tokenHits)
    (hcalls : w'.calls = w.calls) (hwakes : w'.wakes = w.wakes)
    (htasks : ∀ t ∈ w'.tasks, t ∈ w.tasks ∨ ∀ now ∈ Task.loopNow t, now ≤ w'.clock) : Inv w' where
  paid := by
    rw [hhits, hwakes]
    exact h.paid.tick hclock
  alike := by
    intro token
    rw [hhits, hcalls]
    exact (h.alike token).tick hclock
  decided := by
    intro token
    rw [hcalls]
    exact h.decided token
  past := by
    intro t ht now hnow
    rcases htasks t ht with ht | ht
    · exact (h.past t ht now hnow).trans hclock
    · exact ht now hnow

theorem Inv.setTask {w' : World} (h : Inv w) (hclock : w'.clock = w.clock)
    (hhits : w'.tokenHits = w.tokenHits)
    (hcalls : w'.calls = w.calls) (hwakes : w'.wakes = w.wakes) (htasks : w'.tasks = w.tasks)
    (ht : ∀ now ∈ Task.loopNow t, now ≤ w.clock) : Inv (w'.setTask i t) := by
  refine h.of_same hclock.ge hhits hcalls hwakes fun t' ht' => ?_
  have ht' : t' ∈ w'.tasks.modify i fun _ => t := ht'
  rw [htasks] at ht'
  rcases Table.mem_replace ht' with ht' | rfl
  · exact .inl ht'
  · exact .inr fun now hnow => (ht now hnow).trans hclock.ge

/-- A task that goes on to wait for nothing. -/
theorem Inv.settle {w' : World} (h : Inv w) (hclock : w'.clock = w.clock)
    (hhits : w'.tokenHits = w.tokenHits)
    (hcalls : w'.calls = w.calls) (hwakes : w'.wakes = w.wakes) (htasks : w'.tasks = w.tasks)
    (ht : Task.loopNow t = none) : Inv (w'.setTask i t) := by
  refine h.setTask hclock hhits hcalls hwakes htasks fun now hnow => ?_
  rw [ht] at hnow
  cases hnow

theorem callsOf_concat (token : String) (calls : List (String × Nat × Bool))
    (call : String × Nat × Bool) :
    callsOf token (calls ++ [call]) =
      callsOf token calls ++ if call.1 = token then [(call.1, call.2.1)] else [] := by
  by_cases h : call.1 = token <;> simp [callsOf, h]

theorem decisionsOf_concat (token : String) (calls : List (String × Nat × Bool))
    (call : String × Nat × Bool) :
    decisionsOf token (calls ++ [call]) =
      decisionsOf token calls ++ if call.1 = token then [call.2.2] else [] := by
  by_cases h : call.1 = token <;> simp [decisionsOf, h]

/-- After a call of the limiter, with its send or without. -/
theorem Inv.call {w' : World} {token : String} {now : Nat} (h : Inv w) (hle : now ≤ w.clock)
    (hcur : Current wakeBudgetWindow w.clock w.tokenHits token now)
    (hclock : w'.clock = w.clock)
    (hhits : w'.tokenHits = (allow wakeBudgetWindow wakeBudgetMax w.tokenHits token now).2)
    (hcalls : w'.calls = w.calls ++
      [(token, now, (allow wakeBudgetWindow wakeBudgetMax w.tokenHits token now).1)])
    (hwakes : w'.wakes = w.wakes ∨ (allow wakeBudgetWindow wakeBudgetMax w.tokenHits token now).1 = true ∧
      w'.wakes = (token, w.clock) :: w.wakes)
    (htasks : ∀ t ∈ w'.tasks, ∀ now ∈ Task.loopNow t, now ≤ w.clock) : Inv w' := by
  have hwin : 0 < wakeBudgetWindow := by decide
  have hc := allow_call wakeBudgetWindow wakeBudgetMax w.tokenHits token now
  have hpaid := h.paid.call hwin (by decide) hle hcur hc
  -- The limiter that has only the calls for the token decides the same.
  have hself := (h.alike token).call hwin hcur hc (allow_call wakeBudgetWindow wakeBudgetMax
    (after wakeBudgetWindow wakeBudgetMax [] (callsOf token w.calls)) token now)
  exact
    { paid := by
        rw [hclock, hhits]
        rcases hwakes with he | ⟨hok, he⟩
        · rw [he]
          exact hpaid.1
        · rw [he]
          exact hpaid.2 hok
      alike := by
        intro other
        rw [hclock, hhits, hcalls, callsOf_concat]
        by_cases ho : token = other
        · subst ho
          rw [if_pos rfl, after_concat]
          exact hself.2
        · rw [if_neg ho, List.append_nil]
          exact (h.alike other).other hwin hle ho hc
      decided := by
        intro other
        rw [hcalls, callsOf_concat, decisionsOf_concat]
        by_cases ho : token = other
        · subst ho
          rw [if_pos rfl, if_pos rfl, decisions_concat, h.decided token, hself.1]
        · rw [if_neg ho, if_neg ho, List.append_nil, List.append_nil]
          exact h.decided other
      past := fun t ht now hnow => (htasks t ht now hnow).trans hclock.ge }

/-- A wake is charged before it is sent. -/
theorem Inv.ring (h : Inv w) {now : Nat} {d : Device} {rest : List Device} {delivered : Bool}
    (hi : w.tasks[i]? = some (.looping now (d :: rest) delivered))
    (hm : Current wakeBudgetWindow w.clock w.tokenHits d.deviceToken now) :
    Inv (w.ring i now d rest delivered) := by
  have hle : now ≤ w.clock := h.past _ (List.mem_of_getElem? hi) now rfl
  have htasks : ∀ t, (∀ n ∈ Task.loopNow t, n = now) → ∀ t' ∈ w.tasks.modify i (fun _ => t),
      ∀ n ∈ Task.loopNow t', n ≤ w.clock := by
    intro t ht t' ht' n hn
    rcases Table.mem_replace ht' with ht' | rfl
    · exact h.past t' ht' n hn
    · rw [ht n hn]
      exact hle
  unfold World.ring
  dsimp only
  split
  · refine h.call hle hm rfl rfl rfl (.inl rfl) (htasks _ ?_)
    rintro n ⟨⟩
    rfl
  · rename_i hcond
    simp only [Bool.or_eq_true, decide_eq_true_eq, not_or, Bool.not_eq_true',
      Bool.not_eq_false] at hcond
    refine h.call hle hm rfl rfl rfl (.inr ⟨hcond.1, rfl⟩) (htasks _ ?_)
    rintro n ⟨⟩
    rfl

theorem Inv.go (h : Inv w) (hi : w.tasks[i]? = some t) (hm : Task.Meets w t) : Inv (w.go i t) := by
  cases t with
  | register | forget => exact h.settle rfl rfl rfl rfl rfl rfl
  | woken =>
    refine h.setTask rfl rfl rfl rfl rfl ?_
    rintro now ⟨⟩
    exact le_refl _
  | wake headers host now =>
    refine h.settle rfl rfl rfl rfl rfl ?_
    split <;> rfl
  | waking host ds =>
    rw [World.go, World.throttle]
    split <;> exact h.settle rfl rfl rfl rfl rfl rfl
  | looping now ds delivered =>
    cases ds with
    | nil => exact h.settle rfl rfl rfl rfl rfl rfl
    | cons d rest => exact h.ring hi hm
  | revoke headers host id =>
    rw [World.go, World.removeDevice]
    split <;> exact h.settle rfl rfl rfl rfl rfl rfl
  | revoked host =>
    refine h.settle rfl rfl rfl rfl rfl ?_
    split <;> rfl
  | notify =>
    rw [World.go, World.notifyRevoked]
    split <;> exact h.settle rfl rfl rfl rfl rfl rfl
  | sending | notifying | done => exact h

theorem Inv.answered (h : Inv w) (hi : w.tasks[i]? = some t) (ok : Bool) :
    Inv (w.answered i ok t) := by
  cases t with
  | sending started now ds delivered =>
    refine h.setTask rfl rfl rfl rfl rfl ?_
    rintro n ⟨⟩
    exact h.past _ (List.mem_of_getElem? hi) now rfl
  | notifying => exact h.settle rfl rfl rfl rfl rfl rfl
  | register | wake | waking | woken | looping | revoke | revoked | forget | notify | done => exact h

theorem Inv.spawn {w' : World} (h : Inv w) (hclock : w'.clock = w.clock)
    (hhits : w'.tokenHits = w.tokenHits)
    (hcalls : w'.calls = w.calls) (hwakes : w'.wakes = w.wakes) (htasks : w'.tasks = w.tasks)
    (ht : Arrives c w t) : Inv (w'.spawn t) := by
  refine h.of_same hclock.ge hhits hcalls hwakes fun t' ht' => ?_
  rcases List.mem_append.mp ht' with ht' | ht'
  · exact .inl (htasks ▸ ht')
  · refine .inr fun now hnow => ?_
    rw [List.mem_singleton.mp ht'] at hnow
    cases ht <;> cases hnow

theorem Inv.arrive (h : Inv w) (ip : IpAddr) (ht : Arrives c w t) : Inv (w.arrive ip t) := by
  obtain ⟨ipHits, s, hs, he⟩ := arrive_arrives ht ip
  rw [he]
  exact h.spawn rfl rfl rfl rfl rfl hs

theorem Inv.step (h : Inv w) (c : Config) (hm : Meets w e) : Inv (w.step c e) := by
  cases e with
  | tick d => exact h.of_same (Nat.le_add_right _ _) rfl rfl rfl fun t ht => .inl ht
  | reorder ds =>
    rw [World.step]
    split
    · exact h.of_same (le_refl _) rfl rfl rfl fun t ht => .inl ht
    · exact h
  | register ip headers request => exact h.arrive ip (registerTask_arrives c w headers request)
  | wake ip headers host => exact h.arrive ip (wakeTask_arrives c w headers host)
  | revoke headers host id => exact h.spawn rfl rfl rfl rfl rfl (revokeTask_arrives c w headers host id)
  | go i =>
    rw [World.step]
    cases hi : w.tasks[i]? with
    | none => exact h
    | some t => exact h.go hi (hm t hi)
  | sent i ok =>
    rw [World.step]
    cases hi : w.tasks[i]? with
    | none => exact h
    | some t => exact h.answered hi ok

theorem inv_start (devices : List Device) : Inv { devices } where
  paid := paid_nil
  alike := fun _ => alike_nil
  decided := fun _ => rfl
  past := nofun

/-- The sends in flight, in every run; and the budget, where every call that starts a window is made
at its `now`. -/
theorem wake_budget (c : Config) (devices : List Device) (events : List Event) :
    let w := Run.run (World.step c) { devices } events
    inFlight w ≤ providerConcurrency ∧
      (Run.Along (World.step c) Meets { devices } events → Within w ∧ Independent w) := by
  refine ⟨inFlight_le c devices events, fun hm => ?_⟩
  have hinv : Inv (Run.run (World.step c) { devices } events) :=
    hm.induction (I := Inv) (inv_start devices) fun _ _ h hm => h.step c hm
  exact ⟨fun token a => hinv.paid.count_le token a, hinv.decided⟩

/-! ## A slow send -/

/-- When the send of the task has started. -/
def Task.started : Task → Option Nat
  | .sending started _ _ _ => some started
  | .notifying started => some started
  | _ => none

/-- No send takes longer than its timeout. -/
def Timely (w : World) : Event → Prop
  | .tick d => ∀ t ∈ w.tasks, ∀ started ∈ Task.started t, w.clock + d ≤ started + providerTimeout
  | _ => True

/-- What happens at a relay that only the laptop uses. -/
inductive Move where
  | tick (d : Nat)
  | wake
  | go (i : Nat)
  | sent (i : Nat)

/-- The event of a move. -/
def Move.event : Move → Event
  | .tick d => .tick d
  | .wake => .wake 1 laptop.headers laptop.hostPseudonym
  | .go i => .go i
  | .sent i => .sent i true

/-- The step of a move, where the secret of the laptop is known to match. -/
def move (w : World) : Move → World
  | .wake => w.arrive 1 (.wake laptop.headers laptop.hostPseudonym w.clock)
  | m => w.step openRelay m.event

/-- No task is older than the time-out of the provider. -/
def moveTimely (w : World) : Move → Bool
  | .tick d => w.tasks.all fun t => (Task.started t).all fun started => w.clock + d ≤ started + providerTimeout
  | _ => true

theorem laptop_matches :
    openRelay.hostBearerMatches laptop.headers laptop.hostPseudonym = true := by
  decide +kernel

theorem step_move : (fun (w : World) (m : Move) => w.step openRelay m.event) = move := by
  funext w m
  cases m with
  | wake =>
    show w.arrive 1 (w.wakeTask openRelay laptop.headers laptop.hostPseudonym) = _
    rw [World.wakeTask, laptop_matches]
    rfl
  | tick | go | sent => rfl

theorem timely_of_moveTimely {m : Move} (h : moveTimely w m = true) : Timely w m.event := by
  cases m with
  | tick d =>
    intro t ht started hs
    have hall := List.all_eq_true.mp h t ht
    rw [Option.mem_def.mp hs] at hall
    simpa using hall
  | wake | go | sent => trivial

/-- The laptop has registered a device that is slow to reach, and a token under many registrations.
-/
def laptopDevices : List Device :=
  (laptop.request (registrationId 0) "u").device 0 ::
    (List.range 20).map fun n => (laptop.request (registrationId (n + 1)) "t").device 0

/-- A wake with the number `i` arrives and comes to its first device. -/
def begins (i : Nat) : List Move := [.wake, .go i, .go i, .go i]

/-- `n` devices of the wake are sent to at once. -/
def sends (i n : Nat) : List Move := (List.replicate n [.go i, .sent i]).flatten

/-- The first send of the second wake takes ten seconds. In that time the third wake rings the
token; the fourth one drops its window, which has ended, and the second one then starts one that is
ten seconds old. -/
def slowSend : List Move :=
  begins 0 ++ sends 0 21 ++ [.tick (292 * second)] ++ begins 1 ++ [.go 1, .tick (7 * second)] ++
  begins 2 ++ sends 2 21 ++ [.tick (3 * second)] ++ begins 3 ++ [.go 3, .sent 1] ++ sends 1 20 ++ [.sent 3] ++
  sends 3 20 ++ [.tick (3 * second)] ++ begins 4 ++ sends 4 21 ++ [.tick (287 * second)] ++
  begins 5 ++ sends 5 21 ++ [.tick (3 * second)] ++ begins 6 ++ sends 6 21 ++ [.tick (3 * second)] ++
  begins 7 ++ sends 7 21

/-- No send takes longer than its timeout, and 140 sends to one token are in one interval. -/
theorem wake_budget_exceeded :
    let events := slowSend.map Move.event
    let w := Run.run (World.step openRelay) { devices := laptopDevices } events
    Run.Along (World.step openRelay) Timely { devices := laptopDevices } events ∧
      countIn wakeBudgetWindow (299 * second) (timesOf "t" w.wakes) = 140 ∧ ¬ Within w := by
  have hcount : countIn wakeBudgetWindow (299 * second)
      (timesOf "t" (Run.run move { devices := laptopDevices } slowSend).wakes) = 140 := by
    decide +kernel
  have htimely : Run.Along move (fun w m => moveTimely w m = true) { devices := laptopDevices } slowSend := by
    decide +kernel
  simp only [Run.run_map, Run.along_map, step_move]
  refine ⟨?_, hcount, fun h => ?_⟩
  · exact htimely.of_invariant (I := fun _ => True) trivial (fun _ _ _ _ => trivial) fun _ _ _ hm =>
      timely_of_moveTimely hm
  · have hle := h "t" (299 * second)
    rw [hcount] at hle
    exact absurd hle (by decide)

/-- The sends of a wake take no time. -/
theorem wake_budget_at_once :
    let w := Run.run (World.step openRelay) { devices := laptopDevices } ((begins 0 ++ sends 0 21).map Move.event)
    w.wakes.length = 21 ∧ Within w ∧ Independent w := by
  have hmeets : Run.Along (World.step openRelay) Meets { devices := laptopDevices }
      ((begins 0 ++ sends 0 21).map Move.event) := by
    rw [Run.along_map, step_move]
    decide +kernel
  refine ⟨?_, (wake_budget openRelay laptopDevices _).2 hmeets⟩
  rw [Run.run_map, step_move]
  decide +kernel

end Portty.PushRelay.Budget
