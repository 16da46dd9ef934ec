import Portty.Host.Sessions
import Portty.Lib.Broadcast
import Portty.Lib.Table

/-!
# The doorbell (`push.rs`)

A card that an agent puts up wakes the phone: at once if no phone is connected, else after a time in
which a viewer can answer it. The bell hears of the cards from the events of the sessions, of which
it can miss some; then it asks whether any card is up. Between two wakes lies some time, and a call
within it does nothing.

A wake that the relay answers with 404 (it was started again, and has lost the registrations) is
posted a second time, when the phones are registered again. The second post does not wait.

* `every_card_rings`: in every run, each card that is up has been rung for, or is about to be; wakes
  are apart, but for a second post.

What the provider makes of a post is not here. Times are in milliseconds.
-/

namespace Portty.Host.Doorbell

open Sessions (SessionId eventsCapacity)

/-- How long a connected phone has for the card, in milliseconds. -/
def wakeGrace : Nat := 8000

/-- The shortest time between two wakes. -/
def localDebounce : Nat := 3000

/-- An approval that an agent waits for. -/
structure Card where
  session : SessionId
  toolCallId : String
  deriving DecidableEq

/-- What a task looks up after the time of grace. -/
inductive Check where
  | card (card : Card)
  | any
  deriving DecidableEq

/-- A call of `fire` that has posted a wake. -/
structure Wake where
  /-- When it was posted. -/
  posted : Nat
  /-- The relay has answered 404. -/
  lost : Bool := false
  /-- When it was posted again. -/
  again : Option Nat := none
  /-- The call has returned. -/
  ended : Bool := false
  deriving DecidableEq

/-- What the bell does. -/
inductive Bell where
  /-- At first it registers the phones. -/
  | registering
  | listening
  /-- It waits for a call of `fire`. -/
  | firing (i : Nat)
  deriving DecidableEq

/-- The cards, the channel of the events, the bell and its tasks, and what was posted. -/
structure World where
  now : Nat := 0
  /-- The sessions that were taken out of the map. -/
  closed : List SessionId := []
  /-- The cards that are up, and since when. -/
  pending : List (Card × Nat) := []
  /-- Put up, and not sent on the channel yet. -/
  announcing : List Card := []
  /-- The events of the sessions, with the card of an `AgentPermission`. -/
  log : List (Option Card) := []
  connectedPhones : Nat := 0
  /-- The next event for the bell. -/
  next : Nat := 0
  /-- Events were missed, and the cards are to be looked up. -/
  lagged : Bool := false
  bell : Bell := .registering
  /-- The tasks that wait, with the time they wake at. -/
  delayed : List (Nat × Check) := []
  lastFire : Option Nat := none
  /-- The calls of `fire` that posted a wake, in their order. -/
  wakes : List Wake := []

/-- What the sessions, the links, the bell and the relay do. -/
inductive Event where
  | tick (elapsed : Nat)
  | ask (card : Card)
  | announce (card : Card)
  | answer (card : Card)
  /-- A session leaves the map, and its cards with it. -/
  | drop (session : SessionId)
  | emit
  | connect
  | disconnect
  | receive
  | reconcile
  /-- The bell has registered the phones. -/
  | registered
  /-- The relay answers a wake with 404. -/
  | lose (i : Nat)
  /-- The phones are registered again, and the wake is posted a second time. -/
  | postAgain (i : Nat)
  /-- The last post of a wake is answered, or fails, and the call returns. -/
  | finish (i : Nat)
  | check (due : Nat) (check : Check)

namespace World

variable (w : World)

/-- `agent_permission_pending`, or `any_agent_permission_pending` -/
def isPending : Check → Bool
  | .card card => w.pending.any fun p => p.1 = card
  | .any => !w.pending.isEmpty

/-- The beginning of `fire`: nothing within the debounce, else a wake is posted. -/
def fire : World :=
  match w.lastFire with
  | some prev =>
    if w.now - prev < localDebounce then w
    else { w with lastFire := some w.now, wakes := w.wakes ++ [{ posted := w.now }] }
  | none => { w with lastFire := some w.now, wakes := w.wakes ++ [{ posted := w.now }] }

/-- The bell waits for a call that has posted a wake. -/
def await (before : Nat) : World :=
  if before < w.wakes.length then { w with bell := .firing before } else w

/-- At once, or after the time of grace. -/
def ring (check : Check) : World :=
  if w.connectedPhones = 0 then w.fire.await w.wakes.length
  else { w with delayed := w.delayed ++ [(w.now + wakeGrace, check)] }

/-- A wake goes on. -/
def setWake (i : Nat) (wake : Wake) : World :=
  { w with wakes := w.wakes.modify i fun _ => wake }

/-- The rest of `fire`: after a 404, the second post. -/
def lose (i : Nat) (wake : Wake) : World :=
  if wake.lost || wake.ended then w else w.setWake i { wake with lost := true }

/-- The second post, once the phones are registered again. -/
def postAgain (i : Nat) (wake : Wake) : World :=
  if wake.lost && wake.again.isNone then w.setWake i { wake with again := some w.now } else w

/-- The call returns, and a bell that waits for it goes on. -/
def finish (i : Nat) (wake : Wake) : World :=
  if wake.lost && wake.again.isNone then w
  else
    let w := w.setWake i { wake with ended := true }
    if w.bell = .firing i then { w with bell := .listening } else w

/-- The bell takes the next event of the channel. -/
def receive : World :=
  if w.bell ≠ .listening || w.lagged then w
  else
    match Broadcast.recv eventsCapacity w.log w.next with
    | .empty => w
    | .lagged next => { w with next, lagged := true }
    | .value none next => { w with next }
    | .value (some card) next => ({ w with next } : World).ring (.card card)

/-- After missed events, one look at all cards. -/
def reconcile : World :=
  if w.lagged then
    let w := { w with lagged := false }
    if w.isPending .any then w.ring .any else w
  else w

/-- A task that waited. -/
def runCheck (due : Nat) (check : Check) : World :=
  if (due, check) ∈ w.delayed ∧ due ≤ w.now then
    let w := { w with delayed := w.delayed.erase (due, check) }
    if w.isPending check then w.fire else w
  else w

/-- One event. -/
def step : Event → World
  | .tick elapsed => { w with now := w.now + elapsed }
  | .ask card =>
    let pending :=
      if card.session ∈ w.closed then w.pending else (card, w.now) :: w.pending.filter (·.1 ≠ card)
    { w with pending, announcing := card :: w.announcing }
  | .announce card =>
    if card ∈ w.announcing then
      { w with announcing := w.announcing.erase card, log := w.log ++ [some card] }
    else w
  | .answer card => { w with pending := w.pending.filter (·.1 ≠ card) }
  | .drop session => { w with
      closed := session :: w.closed
      pending := w.pending.filter (·.1.session ≠ session) }
  | .emit => { w with log := w.log ++ [none] }
  | .connect => { w with connectedPhones := w.connectedPhones + 1 }
  | .disconnect => { w with connectedPhones := w.connectedPhones - 1 }
  | .receive => w.receive
  | .reconcile => w.reconcile
  | .registered => if w.bell = .registering then { w with bell := .listening } else w
  | .lose i => (w.wakes[i]?).elim w (w.lose i)
  | .postAgain i => (w.wakes[i]?).elim w (w.postAgain i)
  | .finish i => (w.wakes[i]?).elim w (w.finish i)
  | .check due check => w.runCheck due check

/-- When wakes were posted for the first time. -/
def rung : List Nat := w.wakes.map (·.posted)

/-- A wake was posted at this time or later, or less than the debounce before it: while the card was
up, or so shortly before that another one would have done nothing. -/
def Rung (t : Nat) : Prop := ∃ s ∈ w.rung, t < s + localDebounce

/-- A task will look for the card. -/
def Waits (card : Card) : Prop :=
  ∃ due, (due, Check.card card) ∈ w.delayed ∨ (due, Check.any) ∈ w.delayed

/-- The bell is yet to hear of the card, a task will look for it, or it was rung for. -/
def Covered (card : Card) (t : Nat) : Prop :=
  card ∈ w.announcing ∨ some card ∈ w.log.drop w.next ∨ w.lagged = true ∨ w.Waits card ∨ w.Rung t

/-- What holds of the clocks and the channel. -/
structure Timed : Prop where
  next : w.next ≤ w.log.length
  since : ∀ p ∈ w.pending, p.2 ≤ w.now
  due : ∀ d ∈ w.delayed, d.1 ≤ w.now + wakeGrace
  last : w.lastFire = w.rung.getLast?
  past : ∀ s ∈ w.rung, s ≤ w.now
  apart : w.rung.Pairwise fun s t => s + localDebounce ≤ t

/-- A wake is posted a second time only after a 404, and after a 404 the call does not return before
that. -/
structure Wake.Retried (now : Nat) (wake : Wake) : Prop where
  again : ∀ s ∈ wake.again, wake.lost = true ∧ wake.posted ≤ s ∧ s ≤ now
  ended : wake.lost = true → wake.ended = true → wake.again.isSome = true

/-- The times of the wakes, and a wake or a task for each card. -/
structure Inv : Prop extends w.Timed where
  retried : ∀ wake ∈ w.wakes, Wake.Retried w.now wake
  covered : ∀ p ∈ w.pending, w.Covered p.1 p.2

variable {w} {card : Card} {t : Nat} {check : Check}

theorem Wake.Retried.mono {wake : Wake} {now now' : Nat} (h : Wake.Retried now wake)
    (hle : now ≤ now') : Wake.Retried now' wake :=
  ⟨fun s hs => ⟨(h.again s hs).1, (h.again s hs).2.1, Nat.le_trans (h.again s hs).2.2 hle⟩, h.ended⟩

/-- The clocks and the channel are kept; a wake counts for every card that is up. -/
structure Fired (w w' : World) : Prop where
  same : w' = { w with lastFire := w'.lastFire, wakes := w'.wakes }
  now : w'.Rung w.now
  last : w'.lastFire = w'.rung.getLast?
  past : ∀ s ∈ w'.rung, s ≤ w.now
  apart : w'.rung.Pairwise fun s t => s + localDebounce ≤ t
  retried : (∀ wake ∈ w.wakes, Wake.Retried w.now wake) →
    ∀ wake ∈ w'.wakes, Wake.Retried w.now wake

/-- A wake that is posted is the debounce after all others. -/
theorem fire_new (h : w.Timed) (hlast : ∀ s ∈ w.rung, s + localDebounce ≤ w.now) :
    Fired w { w with lastFire := some w.now, wakes := w.wakes ++ [{ posted := w.now }] } := by
  have hrung : rung { w with lastFire := some w.now, wakes := w.wakes ++ [{ posted := w.now }] } =
      w.rung ++ [w.now] := List.map_append
  refine ⟨rfl, ?_, ?_, ?_, ?_, fun hw wake hwake => ?_⟩
  · refine ⟨w.now, ?_, Nat.lt_add_of_pos_right (by decide)⟩
    rw [hrung]
    exact List.mem_append_right _ (List.mem_singleton_self _)
  · rw [hrung]
    exact (List.getLast?_concat ..).symm
  · rw [hrung]
    intro s hs
    exact (List.mem_append.mp hs).elim (h.past s) fun hs => Nat.le_of_eq (List.mem_singleton.mp hs)
  · rw [hrung]
    refine List.pairwise_append.mpr ⟨h.apart, List.pairwise_singleton _ _, fun s hs t ht => ?_⟩
    rw [List.mem_singleton.mp ht]
    exact hlast s hs
  · rcases List.mem_append.mp hwake with hwake | hwake
    · exact hw wake hwake
    · rw [List.mem_singleton.mp hwake]
      exact ⟨nofun, nofun⟩

/-- The last of the wakes is the latest. -/
theorem le_last (h : w.Timed) {prev : Nat} (hlast : w.rung.getLast? = some prev) :
    prev ∈ w.rung ∧ ∀ s ∈ w.rung, s ≤ prev := by
  obtain ⟨init, hinit⟩ := List.getLast?_eq_some_iff.mp hlast
  have hapart := h.apart
  rw [hinit] at hapart ⊢
  refine ⟨List.mem_append_right _ (List.mem_singleton_self _), fun s hs => ?_⟩
  rcases List.mem_append.mp hs with hs | hs
  · have hle := (List.pairwise_append.mp hapart).2.2 s hs prev (List.mem_singleton_self _)
    exact Nat.le_trans (Nat.le_add_right _ _) hle
  · exact Nat.le_of_eq (List.mem_singleton.mp hs)

/-- A call of `fire` posts a wake, or one was posted within the debounce. -/
theorem fire_fired (h : w.Timed) : Fired w w.fire := by
  have hlast := h.last
  rw [fire]
  split
  next prev hprev =>
    rw [hprev] at hlast
    obtain ⟨hmem, hle⟩ := le_last h hlast.symm
    have hpast := h.past prev hmem
    split
    next hlt => exact ⟨rfl, ⟨prev, hmem, by omega⟩, h.last, h.past, h.apart, id⟩
    next hlt =>
      refine fire_new h fun s hs => ?_
      have := hle s hs
      omega
  next hnone =>
    refine fire_new h fun s hs => ?_
    rw [hnone] at hlast
    rw [List.getLast?_eq_none_iff.mp hlast.symm] at hs
    cases hs

theorem Fired.inv {w' : World} (h : w.Timed) (hw : ∀ wake ∈ w.wakes, Wake.Retried w.now wake)
    (hf : Fired w w') (bell : Bell) : Inv { w' with bell } := by
  obtain ⟨hsame, hnow, hlast, hpast, hapart, hretried⟩ := hf
  have hretried := hretried hw
  have hcovered : ∀ p ∈ w.pending, w'.Rung p.2 := fun p hp =>
    hnow.imp fun s hs => ⟨hs.1, Nat.lt_of_le_of_lt (h.since p hp) hs.2⟩
  rw [hsame]
  exact ⟨⟨h.next, h.since, h.due, hlast, hpast, hapart⟩, hretried,
    fun p hp => .inr (.inr (.inr (.inr (hcovered p hp))))⟩

/-- A task that is to be done covers the cards that it looks up. -/
theorem ring_inv (h : w.Timed) (hw : ∀ wake ∈ w.wakes, Wake.Retried w.now wake)
    (hcovered : ∀ p ∈ w.pending, w.Covered p.1 p.2 ∨ check = .card p.1 ∨ check = .any) :
    (w.ring check).Inv := by
  rw [ring]
  split
  · rw [await]
    split
    · exact (fire_fired h).inv h hw _
    · exact (fire_fired h).inv h hw _
  · have hmem : (w.now + wakeGrace, check) ∈ w.delayed ++ [(w.now + wakeGrace, check)] :=
      List.mem_append_right _ (List.mem_singleton_self _)
    refine ⟨⟨h.next, h.since, fun d hd => ?_, h.last, h.past, h.apart⟩, hw, fun p hp => ?_⟩
    · rcases List.mem_append.mp hd with hd | hd
      · exact h.due d hd
      · rw [List.mem_singleton.mp hd]
    · rcases hcovered p hp with hc | rfl | rfl
      · exact hc.imp id fun hc => hc.imp id fun hc => hc.imp id fun hc => hc.imp_left fun ⟨due, hdue⟩ =>
          ⟨due, hdue.imp (List.mem_append_left _) (List.mem_append_left _)⟩
      · exact .inr (.inr (.inr (.inl ⟨_, .inl hmem⟩)))
      · exact .inr (.inr (.inr (.inl ⟨_, .inr hmem⟩)))

/-! ## A wake goes on -/

theorem rung_setWake {i : Nat} {wake wake' : Wake} (hi : w.wakes[i]? = some wake)
    (hposted : wake'.posted = wake.posted) : (w.setWake i wake').rung = w.rung := by
  refine List.ext_getElem? fun j => ?_
  rw [rung, rung, setWake, List.getElem?_map, List.getElem?_map]
  by_cases hj : j = i
  · subst hj
    rw [Table.modify_self hi, hi]
    exact congrArg some hposted
  · rw [Table.modify_of_ne hj]

/-- A wake goes on, and was posted when it was. -/
theorem setWake_inv (h : w.Inv) {i : Nat} {wake : Wake} (hi : w.wakes[i]? = some wake)
    (wake' : Wake) (hposted : wake'.posted = wake.posted) (hretried : Wake.Retried w.now wake')
    (bell : Bell) :
    Inv { w.setWake i wake' with bell } := by
  have hrung : rung { w.setWake i wake' with bell } = w.rung := rung_setWake hi hposted
  refine ⟨⟨h.next, h.since, h.due, ?_, ?_, ?_⟩, fun x hx => ?_, fun p hp => ?_⟩
  · rw [hrung]
    exact h.last
  · rw [hrung]
    exact h.past
  · rw [hrung]
    exact h.apart
  · rcases Table.mem_replace hx with hx | rfl
    · exact h.retried x hx
    · exact hretried
  · refine (h.covered p hp).imp_right fun hc => hc.imp_right fun hc => hc.imp_right fun hc =>
      hc.imp_right fun hc => ?_
    rw [Rung, hrung]
    exact hc

theorem lose_inv (h : w.Inv) {i : Nat} {wake : Wake} (hi : w.wakes[i]? = some wake) :
    (w.lose i wake).Inv := by
  have hold := h.retried wake (List.mem_of_getElem? hi)
  rw [lose]
  split
  · exact h
  next hnot =>
    simp only [Bool.or_eq_true, not_or, Bool.not_eq_true] at hnot
    refine setWake_inv h hi { wake with lost := true } rfl
      ⟨fun s hs => ⟨rfl, (hold.again s hs).2⟩, fun _ hended => ?_⟩ w.bell
    rw [hnot.2] at hended
    cases hended

theorem postAgain_inv (h : w.Inv) {i : Nat} {wake : Wake} (hi : w.wakes[i]? = some wake) :
    (w.postAgain i wake).Inv := by
  have hmem := List.mem_of_getElem? hi
  rw [postAgain]
  split
  next hlost =>
    have hpast : wake.posted ≤ w.now := h.past _ (List.mem_map_of_mem hmem)
    refine setWake_inv h hi { wake with again := some w.now } rfl ⟨?_, fun _ _ => rfl⟩ w.bell
    rintro s ⟨⟩
    exact ⟨(Bool.and_eq_true_iff.mp hlost).1, hpast, Nat.le_refl _⟩
  · exact h

/-- A call that returns leaves the wakes as they are. -/
theorem finish_inv (h : w.Inv) {i : Nat} {wake : Wake} (hi : w.wakes[i]? = some wake) :
    (w.finish i wake).Inv := by
  have hold := h.retried wake (List.mem_of_getElem? hi)
  rw [finish]
  split
  · exact h
  next hnot =>
    have hretried : Wake.Retried w.now { wake with ended := true } := by
      refine ⟨hold.again, fun hlost _ => ?_⟩
      cases hagain : wake.again with
      | some s => rfl
      | none => exact absurd (by rw [hagain, show wake.lost = true from hlost]; rfl) hnot
    dsimp only
    split
    · exact setWake_inv h hi { wake with ended := true } rfl hretried .listening
    · exact setWake_inv h hi { wake with ended := true } rfl hretried w.bell

/-! ## Steps -/

theorem isPending_card (h : w.isPending (.card card) = false) : ∀ p ∈ w.pending, p.1 ≠ card := fun p hp heq => by
  have hnot := List.any_eq_false.mp h p hp
  exact hnot (decide_eq_true heq)

theorem isPending_any (h : w.isPending .any = false) : w.pending = [] := by
  rwa [isPending, Bool.not_eq_false', List.isEmpty_iff] at h

/-- The card of an event gets a wake or a task. -/
theorem receive_inv (h : w.Inv) : w.receive.Inv := by
  rw [receive]
  split
  · exact h
  split
  · exact h
  next next hrecv =>
    exact ⟨⟨Broadcast.recv_lagged hrecv, h.since, h.due, h.last, h.past, h.apart⟩, h.retried,
      fun p _ => .inr (.inr (.inl rfl))⟩
  next next hrecv =>
    obtain ⟨hle, hdrop, -⟩ := Broadcast.recv_value hrecv
    refine ⟨⟨hle, h.since, h.due, h.last, h.past, h.apart⟩, h.retried, fun p hp => ?_⟩
    refine (h.covered p hp).imp_right fun hc => hc.imp_left fun hc => ?_
    rw [hdrop] at hc
    exact (List.mem_cons.mp hc).elim nofun id
  next card next hrecv =>
    obtain ⟨hle, hdrop, -⟩ := Broadcast.recv_value hrecv
    refine ring_inv ⟨hle, h.since, h.due, h.last, h.past, h.apart⟩ h.retried fun p hp => ?_
    rcases h.covered p hp with hc | hc | hc
    · exact .inl (.inl hc)
    · rw [hdrop] at hc
      rcases List.mem_cons.mp hc with heq | hc
      · exact .inr (.inl (congrArg Check.card (Option.some.inj heq).symm))
      · exact .inl (.inr (.inl hc))
    · exact .inl (.inr (.inr hc))

theorem reconcile_inv (h : w.Inv) : w.reconcile.Inv := by
  have htimed : Timed { w with lagged := false } :=
    ⟨h.next, h.since, h.due, h.last, h.past, h.apart⟩
  rw [reconcile]
  split
  · dsimp only
    split
    · exact ring_inv htimed h.retried fun _ _ => .inr (.inr rfl)
    next hpending =>
      have hnil := isPending_any (Bool.eq_false_iff.mpr hpending)
      exact ⟨htimed, h.retried, fun p hp => by rw [hnil] at hp; cases hp⟩
  · exact h

/-- A task that wakes up posts a wake, if its card is still pending. -/
theorem runCheck_inv (h : w.Inv) (due : Nat) (check : Check) : (w.runCheck due check).Inv := by
  have htimed : Timed { w with delayed := w.delayed.erase (due, check) } :=
    ⟨h.next, h.since, fun d hd => h.due d (List.mem_of_mem_erase hd), h.last, h.past, h.apart⟩
  rw [runCheck]
  split
  · dsimp only
    split
    · exact (fire_fired htimed).inv htimed h.retried _
    next hpending =>
      have hpending := Bool.eq_false_iff.mpr hpending
      refine ⟨htimed, h.retried, fun p hp => ?_⟩
      refine (h.covered p hp).imp_right fun hc => hc.imp_right fun hc => hc.imp_right fun hc =>
        hc.imp_left fun ⟨due', hdue⟩ => ?_
      -- the card is not the one that was looked up, so the task that it waits for is another one
      refine ⟨due', hdue.imp (fun hmem => (List.mem_erase_of_ne ?_).mpr hmem) fun hmem => (List.mem_erase_of_ne ?_).mpr hmem⟩
      · rintro heq
        cases heq
        exact isPending_card hpending p hp rfl
      · rintro heq
        cases heq
        rw [isPending_any hpending] at hp
        cases hp
  · exact h

/-- What is sent is ahead of the bell. -/
theorem mem_drop_send (h : w.next ≤ w.log.length) {e : Option Card} :
    some card ∈ (w.log ++ [e]).drop w.next ↔ some card ∈ w.log.drop w.next ∨ some card = e := by
  rw [List.drop_append_of_le_length h, List.mem_append, List.mem_singleton]

theorem send_timed (h : w.Timed) (e : Option Card) (announcing : List Card) :
    Timed { w with announcing, log := w.log ++ [e] } :=
  ⟨List.length_append ▸ Nat.le_trans h.next (Nat.le_add_right _ _), h.since, h.due, h.last, h.past, h.apart⟩

/-- Cards that are not up are not asked about. -/
theorem filter_inv (h : w.Inv) (keep : Card × Nat → Bool) (closed : List SessionId) :
    Inv { w with closed, pending := w.pending.filter keep } :=
  ⟨⟨h.next, fun p hp => h.since p (List.mem_of_mem_filter hp), h.due, h.last, h.past, h.apart⟩,
    h.retried, fun p hp => h.covered p (List.mem_of_mem_filter hp)⟩

/-- Time goes on, and what waits is due no later. -/
theorem tick_inv (h : w.Inv) (elapsed : Nat) : (w.step (.tick elapsed)).Inv := by
  have hle : w.now ≤ w.now + elapsed := Nat.le_add_right _ _
  exact ⟨⟨h.next, fun p hp => Nat.le_trans (h.since p hp) hle,
    fun d hd => Nat.le_trans (h.due d hd) (Nat.add_le_add_right hle _), h.last,
    fun s hs => Nat.le_trans (h.past s hs) hle, h.apart⟩,
    fun wake hw => (h.retried wake hw).mono hle, h.covered⟩

/-- A card that is put up is yet to be announced. -/
theorem ask_inv (h : w.Inv) (card : Card) : (w.step (.ask card)).Inv := by
  have hold : ∀ p ∈ w.pending, Covered { w with announcing := card :: w.announcing } p.1 p.2 :=
    fun p hp => (h.covered p hp).imp_left (List.mem_cons_of_mem _)
  simp only [World.step]
  split
  · exact ⟨⟨h.next, h.since, h.due, h.last, h.past, h.apart⟩, h.retried, hold⟩
  · refine ⟨⟨h.next, fun p hp => ?_, h.due, h.last, h.past, h.apart⟩, h.retried, fun p hp => ?_⟩
    · rcases List.mem_cons.mp hp with rfl | hp
      · exact Nat.le_refl _
      · exact h.since p (List.mem_of_mem_filter hp)
    · rcases List.mem_cons.mp hp with rfl | hp
      · exact .inl List.mem_cons_self
      · exact hold p (List.mem_of_mem_filter hp)

/-- A card that is announced is ahead of the bell. -/
theorem announce_inv (h : w.Inv) (card : Card) : (w.step (.announce card)).Inv := by
  rw [World.step]
  split
  · refine ⟨send_timed h.toTimed _ _, h.retried, fun p hp => ?_⟩
    rcases h.covered p hp with hc | hc | hc
    · by_cases heq : p.1 = card
      · exact .inr (.inl ((mem_drop_send h.next).mpr (.inr (congrArg some heq))))
      · exact .inl ((List.mem_erase_of_ne heq).mpr hc)
    · exact .inr (.inl ((mem_drop_send h.next).mpr (.inl hc)))
    · exact .inr (.inr hc)
  · exact h

theorem Inv.step (h : w.Inv) (e : Event) : (w.step e).Inv := by
  cases e with
  | tick elapsed => exact tick_inv h elapsed
  | ask card => exact ask_inv h card
  | announce card => exact announce_inv h card
  | answer card => exact filter_inv h _ _
  | drop session => exact filter_inv h _ _
  | emit =>
    exact ⟨send_timed h.toTimed _ _, h.retried, fun p hp => (h.covered p hp).imp_right fun hc => hc.imp_left fun hc =>
      (mem_drop_send h.next).mpr (.inl hc)⟩
  | connect => exact ⟨⟨h.next, h.since, h.due, h.last, h.past, h.apart⟩, h.retried, h.covered⟩
  | disconnect => exact ⟨⟨h.next, h.since, h.due, h.last, h.past, h.apart⟩, h.retried, h.covered⟩
  | receive => exact receive_inv h
  | reconcile => exact reconcile_inv h
  | registered =>
    rw [World.step]
    split
    · exact ⟨⟨h.next, h.since, h.due, h.last, h.past, h.apart⟩, h.retried, h.covered⟩
    · exact h
  | lose i =>
    rw [World.step]
    cases hi : w.wakes[i]? with
    | none => exact h
    | some wake => exact lose_inv h hi
  | postAgain i =>
    rw [World.step]
    cases hi : w.wakes[i]? with
    | none => exact h
    | some wake => exact postAgain_inv h hi
  | finish i =>
    rw [World.step]
    cases hi : w.wakes[i]? with
    | none => exact h
    | some wake => exact finish_inv h hi
  | check due check => exact runCheck_inv h due check

theorem inv_start : Inv {} where
  next := Nat.le_refl _
  since _ h := nomatch h
  due _ h := nomatch h
  last := rfl
  past _ h := nomatch h
  apart := .nil
  retried _ h := nomatch h
  covered _ h := nomatch h

theorem inv_run (events : List Event) : (Run.run step {} events).Inv :=
  Run.run_induction (I := fun _ (w : World) => w.Inv) inv_start fun _ e _ _ h => h.step e

/-- No card that is up is forgotten: it is yet to be announced, its event is before the bell, the
bell missed events and is to look, a task will look within the time of grace, or a wake was posted
for it (`Rung`); wakes are apart, but for a second post, which follows a 404, and a 404 is not the
end of a call without it. -/
theorem every_card_rings (events : List Event) :
    let w := Run.run step {} events
    (∀ p ∈ w.pending, w.Covered p.1 p.2) ∧ (∀ d ∈ w.delayed, d.1 ≤ w.now + wakeGrace) ∧
      (w.rung.Pairwise fun s t => s + localDebounce ≤ t) ∧
      ∀ wake ∈ w.wakes, (∀ s ∈ wake.again, wake.lost = true ∧ wake.posted ≤ s ∧ s ≤ w.now) ∧
        (wake.lost = true → wake.ended = true → wake.again.isSome = true) :=
  ⟨(inv_run events).covered, (inv_run events).due, (inv_run events).apart,
    fun wake hw => ⟨((inv_run events).retried wake hw).again, ((inv_run events).retried wake hw).ended⟩⟩

end World

end Portty.Host.Doorbell
