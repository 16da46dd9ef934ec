import Portty.Host.AgentTurn
import Portty.Lib.Run
import Portty.Lib.Table

/-!
# Prompts are sent once and turns are closed (`session.rs`)

`agent_turns`: in every run, the accepted prompts are sent in order and once, but for a second time
after a login; one that is not sent was discarded by a cancel or is named by an error, or waits, or
the driver gave up with an error. In every run in which no connection ends during a turn, every
`TurnStarted` has its `TurnFinished`. `turn_left_open`: else a turn can stay open.
`prompt_sent_again`: the second time after a login.
-/

namespace Portty.Host.AgentTurn

/-! ## What the log says -/

/-- The prompt goes to the agent. -/
def Entry.isSend : Entry → Bool
  | .sent _ | .resent _ => true
  | _ => false

/-- The prompts that were sent, in order, without the second times. -/
def sentOf (log : List Entry) : List Nat :=
  log.filterMap fun | .sent n => some n | _ => none

/-- The prompts that are given up before they were sent. -/
def Entry.unsent : Entry → List Nat
  | .error _ (some n) => [n]
  | .cancelled ns => ns
  | _ => []

/-- The prompts that a cancel discarded, or that an error was shown for instead. -/
def unsentOf (log : List Entry) : List Nat := log.flatMap Entry.unsent

/-- The prompts that wait: those of the queue and then those of the channel. -/
def Driver.waiting (d : Driver) : List Nat :=
  d.queuedPrompts.map (·.number) ++
    d.channel.filterMap fun | .prompt p => some p.number | .control _ => none

/-- The prompt was the last one sent. -/
def LastSend (log : List Entry) (n : Nat) : Prop :=
  ∃ a b, log = a ++ .sent n :: b ∧ ∀ e ∈ b, e.isSend = false

/-- The prompt was the last one sent, and the agent asked for a login. -/
def LoginAsked (log : List Entry) (n : Nat) : Prop :=
  ∃ a b c message, log = a ++ .sent n :: b ++ .answered n (.authRequired message) :: c ∧
    ∀ e ∈ b ++ c, e.isSend = false

/-- The driver has ended with an error. -/
def GaveUp (log : List Entry) : Prop :=
  ∃ a message b, log = a ++ .error message none :: b ∧ ∀ e ∈ b, e.isSend = false

/-- A turn is open after the entries; `none` if they are not in brackets. -/
def bracket : Option Bool → Entry → Option Bool
  | some false, .turnStarted => some true
  | some true, .turnFinished _ => some false
  | some true, .turnStarted | some false, .turnFinished _ => none
  | s, _ => s

/-- Every `TurnStarted` has its `TurnFinished`, but for the last one if a turn is open. -/
def Bracketed (log : List Entry) (isOpen : Bool) : Prop :=
  log.foldl bracket (some false) = some isOpen

/-- The point of the driver is inside a turn. -/
def Phase.inTurn : Phase → Bool
  | .turn .. | .turnControl .. | .turnAuth _ | .turnLogin _ | .closing _ => true
  | _ => false

variable {log : List Entry} {d : Driver} {n m : Nat} {e : Entry} {accepted : Nat}
  {waiting rest : List Nat}

theorem sentOf_concat (e : Entry) : sentOf (log ++ [e]) =
    sentOf log ++ match e with | .sent n => [n] | _ => [] := by
  cases e <;> simp [sentOf]

theorem unsentOf_concat (e : Entry) : unsentOf (log ++ [e]) = unsentOf log ++ e.unsent := by
  simp [unsentOf]

theorem LastSend.note (h : LastSend log n) (he : e.isSend = false) : LastSend (log ++ [e]) n := by
  obtain ⟨a, b, rfl, hb⟩ := h
  refine ⟨a, b ++ [e], by simp, ?_⟩
  intro x hx
  rcases List.mem_append.mp hx with hx | hx
  · exact hb x hx
  · rwa [List.mem_singleton.mp hx]

theorem lastSend_sent : LastSend (log ++ [.sent n]) n := ⟨log, [], rfl, nofun⟩

theorem LastSend.asked (h : LastSend log n) (message : String) :
    LoginAsked (log ++ [.answered n (.authRequired message)]) n := by
  obtain ⟨a, b, rfl, hb⟩ := h
  exact ⟨a, b, [], message, by simp, by simpa using hb⟩

theorem LoginAsked.note (h : LoginAsked log n) (he : e.isSend = false) :
    LoginAsked (log ++ [e]) n := by
  obtain ⟨a, b, c, message, rfl, hbc⟩ := h
  refine ⟨a, b, c ++ [e], message, by simp, ?_⟩
  intro x hx
  rw [← List.append_assoc] at hx
  rcases List.mem_append.mp hx with hx | hx
  · exact hbc x hx
  · rwa [List.mem_singleton.mp hx]

theorem GaveUp.note (h : GaveUp log) (he : e.isSend = false) : GaveUp (log ++ [e]) := by
  obtain ⟨a, message, b, rfl, hb⟩ := h
  refine ⟨a, message, b ++ [e], by simp, ?_⟩
  intro x hx
  rcases List.mem_append.mp hx with hx | hx
  · exact hb x hx
  · rwa [List.mem_singleton.mp hx]

theorem gaveUp_error (message : String) : GaveUp (log ++ [.error message none]) :=
  ⟨log, message, [], rfl, nofun⟩

/-! ## The books of the prompts -/

/-- Prompts are sent in order, and none is lost. -/
structure Books (log : List Entry) (accepted : Nat) (waiting : List Nat) : Prop where
  sorted : waiting.Pairwise (· < ·)
  below : ∀ n ∈ waiting, n < accepted
  sentSorted : (sentOf log).Pairwise (· < ·)
  sentBelow : ∀ n ∈ sentOf log, n < accepted
  before : ∀ n ∈ sentOf log, ∀ m ∈ waiting, n < m
  every : ∀ n < accepted, n ∈ sentOf log ∨ n ∈ unsentOf log ∨ n ∈ waiting
  resends : ∀ (k n : Nat), log[k]? = some (.resent n) → LoginAsked (log.take k) n
  acceptedBelow : ∀ n, Entry.accepted n ∈ log → n < accepted

theorem Books.resends_concat (h : Books log accepted waiting)
    (he : ∀ n, e = .resent n → LoginAsked log n) :
    ∀ (k n : Nat), (log ++ [e])[k]? = some (.resent n) → LoginAsked ((log ++ [e]).take k) n := by
  intro k n hk
  rcases Table.concat_cases hk with hk | ⟨rfl, hn⟩
  · have hlt := (List.getElem?_eq_some_iff.mp hk).1
    rw [List.take_append_of_le_length (Nat.le_of_lt hlt)]
    exact h.resends k n hk
  · rw [List.take_left]
    exact he n hn.symm

/-- An entry that sends nothing, and names what no longer waits. -/
theorem Books.drop (h : Books log accepted waiting) (he : e.isSend = false)
    (ha : ∀ n, e ≠ .accepted n) (hsub : rest.Sublist waiting)
    (hdrop : ∀ n ∈ waiting, n ∈ e.unsent ∨ n ∈ rest) : Books (log ++ [e]) accepted rest := by
  have hs : sentOf (log ++ [e]) = sentOf log := by
    rw [sentOf_concat]
    cases e <;> first | exact List.append_nil _ | cases he
  exact
    { sorted := h.sorted.sublist hsub
      below := fun n hn => h.below n (hsub.subset hn)
      sentSorted := hs ▸ h.sentSorted
      sentBelow := hs ▸ h.sentBelow
      before := hs ▸ fun n hn m hm => h.before n hn m (hsub.subset hm)
      every := by
        intro n hn
        rw [hs, unsentOf_concat, List.mem_append]
        rcases h.every n hn with h1 | h1 | h1
        · exact .inl h1
        · exact .inr (.inl (.inl h1))
        · rcases hdrop n h1 with h2 | h2
          · exact .inr (.inl (.inr h2))
          · exact .inr (.inr h2)
      resends := h.resends_concat (by rintro n rfl; cases he)
      acceptedBelow := by
        intro n hn
        rcases List.mem_append.mp hn with hn | hn
        · exact h.acceptedBelow n hn
        · exact absurd (List.mem_singleton.mp hn).symm (ha n) }

theorem Books.note (h : Books log accepted waiting) (he : e.isSend = false)
    (ha : ∀ n, e ≠ .accepted n) : Books (log ++ [e]) accepted waiting :=
  h.drop he ha (List.Sublist.refl _) fun _ hn => .inr hn

/-- The first prompt of the queue goes to the agent. -/
theorem Books.send (h : Books log accepted (n :: rest)) :
    Books (log ++ [.sent n]) accepted rest := by
  have hs : sentOf (log ++ [.sent n]) = sentOf log ++ [n] := sentOf_concat _
  have hu : unsentOf (log ++ [.sent n]) = unsentOf log := by
    rw [unsentOf_concat]; exact List.append_nil _
  obtain ⟨hfirst, hrest⟩ := List.pairwise_cons.mp h.sorted
  refine
    { sorted := hrest
      below := fun m hm => h.below m (List.mem_cons_of_mem _ hm)
      sentSorted := ?_, sentBelow := ?_, before := ?_, every := ?_
      resends := h.resends_concat nofun
      acceptedBelow := ?_ }
  · rw [hs]
    refine List.pairwise_append.mpr ⟨h.sentSorted, List.pairwise_singleton _ _, fun a ha b hb => ?_⟩
    rw [List.mem_singleton.mp hb]
    exact h.before a ha n List.mem_cons_self
  · intro a ha
    rw [hs] at ha
    rcases List.mem_append.mp ha with ha | ha
    · exact h.sentBelow a ha
    · rw [List.mem_singleton.mp ha]
      exact h.below n List.mem_cons_self
  · intro a ha b hb
    rw [hs] at ha
    rcases List.mem_append.mp ha with ha | ha
    · exact h.before a ha b (List.mem_cons_of_mem _ hb)
    · rw [List.mem_singleton.mp ha]
      exact hfirst b hb
  · intro a ha
    rw [hs, hu, List.mem_append]
    rcases h.every a ha with h1 | h1 | h1
    · exact .inl (.inl h1)
    · exact .inr (.inl h1)
    · rcases List.mem_cons.mp h1 with rfl | h1
      · exact .inl (.inr List.mem_cons_self)
      · exact .inr (.inr h1)
  · intro a ha
    rcases List.mem_append.mp ha with ha | ha
    · exact h.acceptedBelow a ha
    · cases List.mem_singleton.mp ha

/-- A prompt is sent again only after a login was asked for. -/
theorem Books.resend (h : Books log accepted waiting) (ha : LoginAsked log n) :
    Books (log ++ [.resent n]) accepted waiting := by
  have hs : sentOf (log ++ [.resent n]) = sentOf log := by
    rw [sentOf_concat]; exact List.append_nil _
  have hu : unsentOf (log ++ [.resent n]) = unsentOf log := by
    rw [unsentOf_concat]; exact List.append_nil _
  exact
    { sorted := h.sorted
      below := h.below
      sentSorted := hs ▸ h.sentSorted
      sentBelow := hs ▸ h.sentBelow
      before := hs ▸ h.before
      every := by rw [hs, hu]; exact h.every
      resends := h.resends_concat (by rintro m ⟨⟩; exact ha)
      acceptedBelow := by
        intro m hm
        rcases List.mem_append.mp hm with hm | hm
        · exact h.acceptedBelow m hm
        · cases List.mem_singleton.mp hm }

/-- A prompt that is accepted waits as the last. -/
theorem Books.accept (h : Books log accepted waiting) :
    Books (log ++ [.accepted accepted]) (accepted + 1) (waiting ++ [accepted]) := by
  have hs : sentOf (log ++ [.accepted accepted]) = sentOf log := by
    rw [sentOf_concat]; exact List.append_nil _
  have hu : unsentOf (log ++ [.accepted accepted]) = unsentOf log := by
    rw [unsentOf_concat]; exact List.append_nil _
  refine
    { sorted := ?_, below := ?_
      sentSorted := hs ▸ h.sentSorted
      sentBelow := hs ▸ fun n hn => Nat.lt_succ_of_lt (h.sentBelow n hn)
      before := ?_, every := ?_
      resends := h.resends_concat nofun
      acceptedBelow := ?_ }
  · refine List.pairwise_append.mpr ⟨h.sorted, List.pairwise_singleton _ _, fun a ha b hb => ?_⟩
    rw [List.mem_singleton.mp hb]
    exact h.below a ha
  · intro a ha
    rcases List.mem_append.mp ha with ha | ha
    · exact Nat.lt_succ_of_lt (h.below a ha)
    · rw [List.mem_singleton.mp ha]
      exact Nat.lt_succ_self _
  · intro a ha b hb
    rw [hs] at ha
    rcases List.mem_append.mp hb with hb | hb
    · exact h.before a ha b hb
    · rw [List.mem_singleton.mp hb]
      exact h.sentBelow a ha
  · intro a ha
    rw [hs, hu, List.mem_append]
    rcases Nat.lt_succ_iff_lt_or_eq.mp ha with ha | rfl
    · rcases h.every a ha with h1 | h1 | h1
      · exact .inl h1
      · exact .inr (.inl h1)
      · exact .inr (.inr (.inl h1))
    · exact .inr (.inr (.inr List.mem_cons_self))
  · intro a ha
    rcases List.mem_append.mp ha with ha | ha
    · exact Nat.lt_succ_of_lt (h.acceptedBelow a ha)
    · cases List.mem_singleton.mp ha
      exact Nat.lt_succ_self _

/-! ## Steps -/

/-- What the driver relies on at a point inside a turn. -/
def Phase.Ok (log : List Entry) : Phase → Prop
  | .turn p false | .turnControl p false _ => LastSend log p.number
  | .turnAuth p | .turnLogin p => LoginAsked log p.number
  | .closing _ => False
  | .ending | .ended => GaveUp log
  | _ => True

/-- The books are kept, and the channel is not closed. -/
structure Base (d : Driver) : Prop where
  books : Books d.log d.accepted d.waiting
  handles : 0 < d.handles
  teardown : d.teardown = false

/-- The phase agrees with what is in the log. -/
structure Inv (d : Driver) : Prop extends Base d where
  phase : d.phase.Ok d.log
  /-- The turn loop waits for the channel only when nothing is queued. -/
  idle : d.phase = .idle → d.queuedPrompts = []

theorem Phase.Ok.note {ph : Phase} (h : ph.Ok log) (he : e.isSend = false) :
    ph.Ok (log ++ [e]) := by
  unfold Phase.Ok at h ⊢
  split at h
  · exact LastSend.note h he
  · exact LastSend.note h he
  · exact LoginAsked.note h he
  · exact LoginAsked.note h he
  · exact h
  · exact GaveUp.note h he
  · exact GaveUp.note h he
  · trivial

/-- An entry that is no send, and no acceptance. -/
def Entry.plain : Entry → Bool
  | .sent _ | .resent _ | .accepted _ => false
  | _ => true

theorem Entry.plain_isSend (he : e.plain = true) : e.isSend = false := by
  cases e <;> first | rfl | cases he

theorem Base.note (h : Base d) (e : Entry) (he : e.plain = true) : Base (d.note e) :=
  ⟨h.books.note (e.plain_isSend he) (by rintro n rfl; cases he), h.handles, h.teardown⟩

theorem Inv.note (h : Inv d) (e : Entry) (he : e.plain = true) : Inv (d.note e) :=
  ⟨h.toBase.note e he, h.phase.note (e.plain_isSend he), h.idle⟩

theorem Base.goto (h : Base d) {ph : Phase} (hp : ph.Ok d.log)
    (hidle : ph = .idle → d.queuedPrompts = []) : Inv (d.goto ph) :=
  ⟨⟨h.books, h.handles, h.teardown⟩, hp, hidle⟩

theorem Base.same {d' : Driver} (h : Base d) (hlog : d'.log = d.log)
    (hacc : d'.accepted = d.accepted)
    (hq : d'.queuedPrompts = d.queuedPrompts) (hc : d'.channel = d.channel)
    (hh : d'.handles = d.handles) (ht : d'.teardown = d.teardown) : Base d' := by
  refine ⟨?_, hh ▸ h.handles, ht ▸ h.teardown⟩
  have hw : d'.waiting = d.waiting := by rw [Driver.waiting, Driver.waiting, hq, hc]
  rw [hlog, hacc, hw]
  exact h.books

/-- A turn starts with the prompt that waits longest. -/
theorem startTurn_inv {d' : Driver} {p : Prompt} (h : Base d)
    (hw : d.waiting = p.number :: d'.waiting)
    (hlog : d'.log = d.log) (hacc : d'.accepted = d.accepted) (hh : d'.handles = d.handles)
    (ht : d'.teardown = d.teardown) : Inv (d'.startTurn p) := by
  have hb : Books (d.log ++ [.turnStarted]) d.accepted (p.number :: d'.waiting) :=
    hw ▸ h.books.note rfl nofun
  refine ⟨⟨?_, hh ▸ h.handles, ht ▸ h.teardown⟩, ?_, nofun⟩
  · show Books (d'.log ++ [.turnStarted] ++ [.sent p.number]) d'.accepted d'.waiting
    rw [hlog, hacc]
    exact hb.send
  · exact lastSend_sent

theorem Base.turnLoop (h : Base d) : Inv d.turnLoop := by
  unfold Driver.turnLoop
  cases hq : d.queuedPrompts with
  | nil => exact h.goto trivial fun _ => hq
  | cons p rest =>
    refine startTurn_inv h ?_ rfl rfl rfl rfl
    simp [Driver.waiting, hq]

theorem Base.finishTurn (h : Base d) (stopReason : String) : Inv (d.finishTurn stopReason) :=
  (h.note (.turnFinished stopReason) rfl).turnLoop

theorem Base.loginFailed (h : Base d) : Inv d.loginFailed :=
  (h.note (.error _ none) rfl).finishTurn _

/-- A turn that ends with an error leaves the driver idle, or in the next turn. -/
theorem Base.settle (h : Base d) (error : String) (healthy : Bool) :
    Inv (d.settle (some error) healthy) := by
  unfold Driver.settle
  rw [if_neg (by simp [h.teardown])]
  dsimp only
  generalize hd : (if healthy = true then { d with failedAttempts := 0, retryDelaySecs := 1 }
    else { d with failedAttempts := d.failedAttempts + 1 } : Driver) = d'
  have h' : Base d' := by
    subst hd
    split <;> exact h.same rfl rfl rfl rfl rfl rfl
  split
  · exact (h'.note (.error _ none) rfl).goto (gaveUp_error _) nofun
  · cases d'.everEstablished with
    | true => exact ⟨(h'.note (.error _ none) rfl).same rfl rfl rfl rfl rfl rfl, trivial, nofun⟩
    | false => exact (h'.note (.error _ none) rfl).goto (gaveUp_error _) nofun

theorem trySend_waiting {c : Command} {d' : Driver} (hs : d.trySend c = some d') :
    d' = { d with channel := d.channel ++ [c] } := by
  unfold Driver.trySend at hs
  split at hs
  · cases hs
  · exact (Option.some.inj hs).symm

theorem Inv.userMessage (h : Inv d) (c : Bool) (text : String) :
    Inv (if c = true then d else d.note (.userMessage text)) := by
  split
  · exact h
  · exact h.note (.userMessage text) rfl

theorem Inv.sendControl (h : Inv d) {c : Control} {d' : Driver}
    (hs : d.trySend (.control c) = some d') : Inv d' := by
  rw [trySend_waiting hs]
  refine ⟨⟨?_, h.handles, h.teardown⟩, h.phase, h.idle⟩
  have hw : Driver.waiting { d with channel := d.channel ++ [.control c] } = d.waiting := by
    simp [Driver.waiting]
  rw [hw]
  exact h.books

theorem Inv.sendPrompt (h : Inv d) {text : String} {d' : Driver}
    (hs : d.trySend (.prompt ⟨d.accepted, text⟩) = some d') :
    Inv ({ d' with accepted := d.accepted + 1 }.note (.accepted d.accepted)) := by
  rw [trySend_waiting hs]
  refine ⟨⟨?_, h.handles, h.teardown⟩, ?_, h.idle⟩
  · have hw : Driver.waiting { d with channel := d.channel ++ [.prompt ⟨d.accepted, text⟩] } =
        d.waiting ++ [d.accepted] := by simp [Driver.waiting]
    have hb := h.books.accept
    rw [← hw] at hb
    exact hb
  · exact h.phase.note rfl

/-- A prompt begins a turn, or waits. -/
theorem Inv.agentPrompt (h : Inv d) {sticky : Sticky} {text : String} {d' : Driver}
    (hs : d.agentPrompt sticky text = some d') : Inv d' := by
  unfold Driver.agentPrompt at hs
  split at hs
  · cases hs
  · obtain ⟨asked, -, hs⟩ := Option.bind_eq_some_iff.mp hs
    cases asked with
    | prompt =>
      obtain ⟨d₁, hd₁, hs⟩ := Option.bind_eq_some_iff.mp hs
      cases hs
      exact (h.sendPrompt hd₁).userMessage _ text
    | control c =>
      obtain ⟨d₁, hd₁, hs⟩ := Option.bind_eq_some_iff.mp hs
      cases hs
      exact (h.sendControl hd₁).userMessage _ text

/-- A command that is no prompt is taken from the channel. -/
theorem Base.take (h : Base d) {c : Control} {rest : List Command}
    (hc : d.channel = .control c :: rest) :
    Base { d with channel := rest } := by
  refine ⟨?_, h.handles, h.teardown⟩
  have hw : Driver.waiting { d with channel := rest } = d.waiting := by simp [Driver.waiting, hc]
  rw [hw]
  exact h.books

/-- A prompt is taken from the channel, and named by an error. -/
theorem Base.refuse (h : Base d) {p : Prompt} {rest : List Command}
    (hc : d.channel = .prompt p :: rest) :
    Base ({ d with channel := rest }.refuse (some p.number)) := by
  refine ⟨?_, h.handles, h.teardown⟩
  refine h.books.drop rfl nofun ?_ ?_
  · simp [Driver.waiting, hc, Driver.refuse, Driver.note]
  · intro n hn
    simp only [Driver.waiting, hc, List.filterMap_cons, List.mem_append, List.mem_cons] at hn
    rcases hn with hn | rfl | hn
    · exact .inr (List.mem_append_left _ hn)
    · exact .inl List.mem_cons_self
    · exact .inr (List.mem_append_right _ hn)

/-- During a turn a prompt goes from the channel to the end of the queue, where it waits as before.
-/
theorem waiting_queue {p : Prompt} {rest : List Command} (hc : d.channel = .prompt p :: rest) :
    Driver.waiting { d with channel := rest, queuedPrompts := d.queuedPrompts ++ [p] } =
      d.waiting := by
  simp [Driver.waiting, hc]

theorem Base.cancel (h : Base d) :
    Base { d.note (.cancelled (d.queuedPrompts.map (·.number))) with queuedPrompts := [] } := by
  refine ⟨?_, h.handles, h.teardown⟩
  refine h.books.drop rfl nofun ?_ ?_
  · simp [Driver.waiting, Driver.note]
  · intro n hn
    rcases List.mem_append.mp hn with hn | hn
    · exact .inl hn
    · exact .inr hn

theorem Inv.onSetupAuth (h : Inv d) (hph : d.phase = .setupAuth) {c : Command} {rest : List Command}
    (hc : d.channel = c :: rest) (healthy : Bool) :
    Inv ({ d with channel := rest }.onSetupAuth c healthy) := by
  have hidle : d.phase ≠ .idle := by rw [hph]; exact nofun
  cases c with
  | prompt p => exact ⟨h.toBase.refuse hc, hph ▸ trivial, fun he => absurd he hidle⟩
  | control c =>
    have hb := h.toBase.take hc
    cases c with
    | authenticate => exact hb.goto trivial nofun
    | cancel => exact hb.settle _ healthy
    | setMode | setConfig =>
      exact ⟨hb.note (.error _ none) rfl, hph ▸ trivial, fun he => absurd he hidle⟩

theorem Inv.onIdle (h : Inv d) (hph : d.phase = .idle) {c : Command} {rest : List Command}
    (hc : d.channel = c :: rest) : Inv ({ d with channel := rest }.onIdle c) := by
  cases c with
  | prompt p =>
    refine startTurn_inv h.toBase ?_ rfl rfl rfl rfl
    simp [Driver.waiting, hc, h.idle hph]
  | control c => exact (h.toBase.take hc).goto trivial nofun

theorem Phase.Ok.turnControl {p : Prompt} {reauthed : Bool} (h : (Phase.turn p reauthed).Ok log)
    (c : Control) : (Phase.turnControl p reauthed c).Ok log := by
  cases reauthed <;> exact h

/-- A command that comes during a turn. -/
theorem Inv.onTurn (h : Inv d) {p : Prompt} {reauthed : Bool} (hph : d.phase = .turn p reauthed)
    {c : Command} {rest : List Command} (hc : d.channel = c :: rest) :
    Inv ({ d with channel := rest }.onTurn p reauthed c) := by
  have hok := h.phase
  rw [hph] at hok
  cases c with
  | prompt q =>
    refine ⟨⟨?_, h.handles, h.teardown⟩, h.phase, fun he => ?_⟩
    · show Books d.log d.accepted
        (Driver.waiting { d with channel := rest, queuedPrompts := d.queuedPrompts ++ [q] })
      rw [waiting_queue hc]
      exact h.books
    · cases hph.symm.trans he
  | control c =>
    have hb := h.toBase.take hc
    unfold Driver.onTurn
    by_cases hcancel : c = .cancel
    · simp only [hcancel, ↓reduceIte]
      exact hb.cancel.goto ((hok.note rfl).turnControl _) nofun
    · simp only [hcancel, ↓reduceIte]
      exact hb.goto (hok.turnControl c) nofun

/-- A command that comes while the user is to log in. -/
theorem Inv.onTurnAuth (h : Inv d) {p : Prompt} (hph : d.phase = .turnAuth p) {c : Command}
    {rest : List Command} (hc : d.channel = c :: rest) :
    Inv ({ d with channel := rest }.onTurnAuth p c) := by
  have hok := h.phase
  have hidle : d.phase ≠ .idle := by rw [hph]; exact nofun
  cases c with
  | prompt q => exact ⟨h.toBase.refuse hc, hok.note rfl, fun he => absurd he hidle⟩
  | control c =>
    have hb := h.toBase.take hc
    cases c with
    | authenticate =>
      rw [hph] at hok
      exact hb.goto hok nofun
    | cancel => exact hb.loginFailed
    | setMode | setConfig =>
      exact ⟨hb.note (.error _ none) rfl, hok.note rfl, fun he => absurd he hidle⟩

/-- The driver takes the next command. -/
theorem Inv.recv (h : Inv d) (healthy : Bool) : Inv (d.recv healthy) := by
  unfold Driver.recv
  split
  · rename_i hrecv
    cases hc : d.channel with
    | nil =>
      have := h.handles
      simp only [Nat.ne_of_gt this, ↓reduceIte]
      exact h
    | cons c rest =>
      simp only [Driver.onCommand]
      split
      · exact h.onSetupAuth ‹_› hc healthy
      · exact h.onIdle ‹_› hc
      · exact h.onTurn ‹_› hc
      · exact h.onTurnAuth ‹_› hc
      · rename_i h1 h2 h3 h4
        unfold Driver.receives at hrecv
        split at hrecv
        · exact (h1 ‹_›).elim
        · exact (h2 ‹_›).elim
        · exact (h3 _ _ ‹_›).elim
        · exact (h4 _ ‹_›).elim
        · cases hrecv
  · exact h

theorem Inv.closed (h : Inv d) (healthy : Bool) : Inv (d.closed healthy) := by
  unfold Driver.closed
  split
  · exact h.toBase.settle _ healthy
  · exact h.toBase.settle _ healthy
  · exact h.toBase.settle _ healthy
  · exact h.toBase.loginFailed
  · exact h

/-- The answer of a turn ends it, or asks for a login. -/
theorem Inv.onTurnAnswer (h : Inv d) {p : Prompt} {reauthed : Bool}
    (hph : d.phase = .turn p reauthed)
    (r : Answer) : Inv (d.onTurnAnswer p reauthed r) := by
  have hok := h.phase
  rw [hph] at hok
  have hb := h.toBase.note (.answered p.number r) rfl
  unfold Driver.onTurnAnswer
  cases r with
  | finished stopReason => exact hb.finishTurn stopReason
  | cancelled => exact hb.finishTurn _
  | error message => exact (hb.note (.error message none) rfl).finishTurn _
  | authRequired message =>
    dsimp only
    split
    · rename_i hre
      obtain ⟨-, rfl⟩ := hre
      have hasked : LoginAsked (d.log ++ [.answered p.number (.authRequired message)]) p.number :=
        LastSend.asked hok message
      exact (hb.note (.authRequired true) rfl).goto (hasked.note rfl) nofun
    · split
      · exact ((hb.note (.authRequired true) rfl).note (.error message none) rfl).finishTurn _
      · exact (hb.note (.error message none) rfl).finishTurn _

theorem Inv.onAnswer (h : Inv d) (r : Answer) : Inv (d.onAnswer r) := by
  unfold Driver.onAnswer
  split
  · exact h.onTurnAnswer ‹_› r
  · rename_i p hph
    have hok := h.phase
    rw [hph] at hok
    exact hok.elim
  · exact h

/-- The feedback of a control adds at most one event. -/
theorem feedback_cases (d : Driver) (c : Control) (error : Option String) :
    d.feedback c error = d ∨ ∃ e : Entry, e.plain = true ∧ bracket (some true) e = some true ∧
      bracket (some false) e = some false ∧ d.feedback c error = d.note e := by
  unfold Driver.feedback
  split
  · exact .inr ⟨_, rfl, rfl, rfl, rfl⟩
  · exact .inr ⟨_, rfl, rfl, rfl, rfl⟩
  · exact .inl rfl

theorem Inv.feedback (h : Inv d) (c : Control) (error : Option String) :
    Inv (d.feedback c error) := by
  rcases feedback_cases d c error with he | ⟨e, hp, -, -, he⟩
  · rw [he]
    exact h
  · rw [he]
    exact h.note e hp

theorem feedback_phase (d : Driver) (c : Control) (error : Option String) :
    (d.feedback c error).phase = d.phase := by
  unfold Driver.feedback
  split <;> rfl

theorem Inv.controlled (h : Inv d) (error : Option String) : Inv (d.controlled error) := by
  unfold Driver.controlled
  split
  · exact (h.feedback _ error).toBase.turnLoop
  · rename_i p reauthed c hph
    have hf := h.feedback c error
    have hok := hf.phase
    rw [feedback_phase, hph] at hok
    refine hf.toBase.goto ?_ nofun
    cases reauthed <;> exact hok
  · exact h

/-- After the login the turn goes on, or is given up. -/
theorem Inv.loggedIn (h : Inv d) (error : Option String) (healthy : Bool) :
    Inv (d.loggedIn error healthy) := by
  unfold Driver.loggedIn
  split
  · cases error with
    | none => exact (h.toBase.note (.authRequired false) rfl).goto trivial nofun
    | some error => exact h.toBase.settle error healthy
  · rename_i p hph
    have hok := h.phase
    rw [hph] at hok
    cases error with
    | none =>
      have hb := h.toBase.note (.authRequired false) rfl
      have hasked : LoginAsked (d.log ++ [.authRequired false]) p.number := LoginAsked.note hok rfl
      exact ⟨⟨hb.books.resend hasked, h.handles, h.teardown⟩, trivial, nofun⟩
    | some _ => exact h.toBase.loginFailed
  · exact h

theorem Inv.step (h : Inv d) (ev : Event) : Inv (d.step ev) := by
  cases ev with
  | agentPrompt sticky text =>
    simp only [Driver.step]
    cases hs : d.agentPrompt sticky text with
    | none => exact h
    | some d' => exact h.agentPrompt hs
  | command c =>
    simp only [Driver.step]
    cases hs : d.trySend (.control c) with
    | none => exact h
    | some d' => exact h.sendControl hs
  | dropHandle =>
    simp only [Driver.step]
    split
    · exact ⟨⟨h.books, by show 0 < d.handles - 1; omega, h.teardown⟩, h.phase, h.idle⟩
    · exact h
  | initialized authMethods =>
    simp only [Driver.step]
    split
    · exact ⟨⟨h.books, h.handles, h.teardown⟩, h.phase, h.idle⟩
    · exact h
  | setupAuthRequired =>
    simp only [Driver.step]
    split
    · exact (h.toBase.note (.authRequired true) rfl).goto trivial nofun
    · exact h
  | established =>
    simp only [Driver.step]
    split
    · refine Base.turnLoop ?_
      exact h.toBase.same rfl rfl rfl rfl rfl rfl
    · exact h
  | recv healthy => exact h.recv healthy
  | closed healthy => exact h.closed healthy
  | answer r => exact h.onAnswer r
  | controlled error => exact h.controlled error
  | loggedIn error healthy => exact h.loggedIn error healthy
  | lost error healthy =>
    simp only [Driver.step]
    split
    · exact h.toBase.settle error healthy
    · exact h
  | respawn =>
    simp only [Driver.step]
    split
    · exact h.toBase.goto trivial nofun
    · exact h
  | exit =>
    simp only [Driver.step]
    split
    · rename_i hph
      have hok := h.phase
      rw [hph] at hok
      exact h.toBase.goto hok nofun
    · exact h

/-! ## Brackets -/

/-- The connection does not end during a turn, but where the driver handles it. -/
def Meets (d : Driver) : Event → Prop
  | .lost .. => d.phase.inTurn = false
  | .closed _ => d.phase.inTurn = true → ∃ p, d.phase = .turnAuth p
  | _ => True

instance (d : Driver) : (ev : Event) → Decidable (Meets d ev)
  | .lost .. => inferInstanceAs (Decidable (d.phase.inTurn = false))
  | .closed _ =>
    match h : d.phase with
    | .turnAuth p => .isTrue fun _ => ⟨p, h⟩
    | .turn .. | .turnControl .. | .turnLogin _ | .closing _ =>
      .isFalse fun hm => by obtain ⟨p, hp⟩ := hm (by rw [h]; rfl); cases h.symm.trans hp
    | .setup | .setupAuth | .setupLogin | .idle | .control _ | .sleeping | .ending | .ended =>
      .isTrue fun hm => by rw [h] at hm; cases hm
  | .agentPrompt .. | .command _ | .dropHandle | .initialized _ | .setupAuthRequired | .established
  | .recv _ | .answer _ | .controlled _ | .loggedIn .. | .respawn | .exit => .isTrue trivial

/-- The brackets agree with the point of the driver. -/
def Closed (d : Driver) : Prop := Bracketed d.log d.phase.inTurn

theorem Bracketed.note {b b' : Bool} (h : Bracketed log b) (he : bracket (some b) e = some b') :
    Bracketed (log ++ [e]) b' := by
  unfold Bracketed at h ⊢
  rw [List.foldl_append, h]
  exact he

theorem closed_startTurn {p : Prompt} (h : Bracketed d.log false) : Closed (d.startTurn p) :=
  (h.note (e := .turnStarted) rfl).note (e := .sent p.number) rfl

theorem closed_turnLoop (h : Bracketed d.log false) : Closed d.turnLoop := by
  unfold Driver.turnLoop
  split
  · exact closed_startTurn h
  · exact h

theorem closed_finishTurn (h : Bracketed d.log true) (stopReason : String) :
    Closed (d.finishTurn stopReason) :=
  closed_turnLoop (h.note (e := .turnFinished stopReason) rfl)

theorem closed_loginFailed (h : Bracketed d.log true) : Closed d.loginFailed :=
  closed_finishTurn (d := d.note (.error _ none)) (h.note (e := .error _ none) rfl) _

/-- A turn that is settled has its `TurnFinished`. -/
theorem closed_settle (h : Bracketed d.log false) (error : Option String) (healthy : Bool) :
    Closed (d.settle error healthy) := by
  unfold Driver.settle
  split
  · exact h
  · dsimp only
    generalize hd : (if healthy = true then { d with failedAttempts := 0, retryDelaySecs := 1 }
      else { d with failedAttempts := d.failedAttempts + 1 } : Driver) = d'
    have h' : Bracketed d'.log false := by
      subst hd
      split <;> exact h
    split
    · exact h'.note (e := .error _ none) rfl
    · split
      · exact h'.note (e := .error _ none) rfl
      · exact h'
      · exact h'.note (e := .error _ none) rfl
      · exact h'.note (e := .error _ none) rfl

theorem Closed.at {b : Bool} (h : Closed d) (hb : d.phase.inTurn = b) : Bracketed d.log b := hb ▸ h

theorem Closed.userMessage (h : Closed d) (c : Bool) (text : String) :
    Closed (if c = true then d else d.note (.userMessage text)) := by
  split
  · exact h
  · have hb : bracket (some d.phase.inTurn) (.userMessage text) = some d.phase.inTurn := by
      cases d.phase.inTurn <;> rfl
    exact Bracketed.note h hb

/-- A prompt that goes to the agent has its `TurnStarted`. -/
theorem Closed.agentPrompt (h : Closed d) {sticky : Sticky} {text : String} {d' : Driver}
    (hs : d.agentPrompt sticky text = some d') : Closed d' := by
  have hb : bracket (some d.phase.inTurn) (.accepted d.accepted) = some d.phase.inTurn := by
    cases d.phase.inTurn <;> rfl
  unfold Driver.agentPrompt at hs
  split at hs
  · cases hs
  · obtain ⟨asked, -, hs⟩ := Option.bind_eq_some_iff.mp hs
    cases asked with
    | prompt =>
      obtain ⟨d₁, hd₁, hs⟩ := Option.bind_eq_some_iff.mp hs
      rw [trySend_waiting hd₁] at hs
      cases hs
      refine Closed.userMessage ?_ _ text
      exact Bracketed.note h hb
    | control c =>
      obtain ⟨d₁, hd₁, hs⟩ := Option.bind_eq_some_iff.mp hs
      rw [trySend_waiting hd₁] at hs
      cases hs
      refine Closed.userMessage ?_ _ text
      exact h

/-- A command between the turns opens one at most. -/
theorem Closed.onCommand (h : Closed d) (c : Command) (healthy : Bool) :
    Closed (d.onCommand c healthy) := by
  unfold Driver.onCommand
  split
  · rename_i hph
    have hb := h.at (b := false) (by rw [hph]; rfl)
    unfold Driver.onSetupAuth
    split
    · exact hb
    · exact closed_settle hb _ healthy
    · exact (hb.note (e := .error _ none) rfl).trans (by rw [Driver.refuse, Driver.note, hph]; rfl)
    · exact (hb.note (e := .error _ (some _)) rfl).trans (by rw [Driver.refuse, Driver.note, hph]; rfl)
  · rename_i hph
    have hb := h.at (b := false) (by rw [hph]; rfl)
    unfold Driver.onIdle
    split
    · exact closed_startTurn hb
    · exact hb
  · rename_i p reauthed hph
    have hb := h.at (b := true) (by rw [hph]; rfl)
    unfold Driver.onTurn
    split
    · exact h
    · dsimp only
      split
      · exact hb.note (e := .cancelled _) rfl
      · exact hb
  · rename_i p hph
    have hb := h.at (b := true) (by rw [hph]; rfl)
    unfold Driver.onTurnAuth
    split
    · exact hb
    · exact closed_loginFailed hb
    · exact (hb.note (e := .error _ none) rfl).trans (by rw [Driver.refuse, Driver.note, hph]; rfl)
    · exact (hb.note (e := .error _ (some _)) rfl).trans (by rw [Driver.refuse, Driver.note, hph]; rfl)
  · exact h

/-- An answer closes its turn, but for a login. -/
theorem Closed.onTurnAnswer {p : Prompt} {reauthed : Bool} (hb : Bracketed d.log true)
    (r : Answer) :
    Closed (d.onTurnAnswer p reauthed r) := by
  have hn : Bracketed (d.note (.answered p.number r)).log true := hb.note (e := .answered _ _) rfl
  unfold Driver.onTurnAnswer
  cases r with
  | finished stopReason => exact closed_finishTurn hn stopReason
  | cancelled => exact closed_finishTurn hn _
  | error message =>
    refine closed_finishTurn ?_ _
    exact hn.note (e := .error message none) rfl
  | authRequired message =>
    dsimp only
    split
    · exact hn.note (e := .authRequired true) rfl
    · split
      · refine closed_finishTurn ?_ _
        exact (hn.note (e := .authRequired true) rfl).note (e := .error message none) rfl
      · refine closed_finishTurn ?_ _
        exact hn.note (e := .error message none) rfl

theorem feedback_bracketed {b : Bool} (hb : Bracketed d.log b) (c : Control)
    (error : Option String) :
    Bracketed (d.feedback c error).log b := by
  rcases feedback_cases d c error with he | ⟨e, -, ht, hf, he⟩
  · rw [he]
    exact hb
  · rw [he]
    cases b
    · exact hb.note hf
    · exact hb.note ht

theorem Closed.step (h : Closed d) (hi : Inv d) {ev : Event} (hm : Meets d ev) :
    Closed (d.step ev) := by
  cases ev with
  | agentPrompt sticky text =>
    simp only [Driver.step]
    cases hs : d.agentPrompt sticky text with
    | none => exact h
    | some d' => exact h.agentPrompt hs
  | command c =>
    simp only [Driver.step]
    cases hs : d.trySend (.control c) with
    | none => exact h
    | some d' =>
      rw [trySend_waiting hs]
      exact h
  | dropHandle =>
    simp only [Driver.step]
    split <;> exact h
  | initialized authMethods =>
    simp only [Driver.step]
    split <;> exact h
  | setupAuthRequired =>
    simp only [Driver.step]
    split
    · rename_i hph
      have hb := h.at (b := false) (by rw [hph.1]; rfl)
      exact hb.note (e := .authRequired true) rfl
    · exact h
  | established =>
    simp only [Driver.step]
    split
    · rename_i hph
      exact closed_turnLoop (d := { d with everEstablished := true }) (h.at (by rw [hph]; rfl))
    · exact h
  | recv healthy =>
    simp only [Driver.step, Driver.recv]
    split
    · cases hc : d.channel with
      | nil =>
        simp only [Nat.ne_of_gt hi.handles, ↓reduceIte]
        exact h
      | cons c rest => exact Closed.onCommand (d := { d with channel := rest }) h c healthy
    · exact h
  | closed healthy =>
    simp only [Driver.step, Driver.closed]
    split
    · rename_i hph
      exact closed_settle (h.at (by rw [hph]; rfl)) _ healthy
    · rename_i hph
      exact closed_settle (h.at (by rw [hph]; rfl)) _ healthy
    · rename_i hph
      obtain ⟨p, hp⟩ := hm (by rw [hph]; rfl)
      cases hph.symm.trans hp
    · rename_i hph
      exact closed_loginFailed (h.at (by rw [hph]; rfl))
    · exact h
  | answer r =>
    simp only [Driver.step, Driver.onAnswer]
    split
    · rename_i hph
      exact Closed.onTurnAnswer (h.at (by rw [hph]; rfl)) r
    · rename_i p hph
      have hok := hi.phase
      rw [hph] at hok
      exact hok.elim
    · exact h
  | controlled error =>
    simp only [Driver.step, Driver.controlled]
    split
    · rename_i hph
      exact closed_turnLoop (feedback_bracketed (h.at (by rw [hph]; rfl)) _ error)
    · rename_i hph
      exact feedback_bracketed (h.at (b := true) (by rw [hph]; rfl)) _ error
    · exact h
  | loggedIn error healthy =>
    simp only [Driver.step, Driver.loggedIn]
    split
    · rename_i hph
      have hb := h.at (b := false) (by rw [hph]; rfl)
      cases error with
      | none => exact hb.note (e := .authRequired false) rfl
      | some error => exact closed_settle hb _ healthy
    · rename_i p hph
      have hb := h.at (b := true) (by rw [hph]; rfl)
      cases error with
      | none => exact (hb.note (e := .authRequired false) rfl).note (e := .resent p.number) rfl
      | some _ => exact closed_loginFailed hb
    · exact h
  | lost error healthy =>
    simp only [Driver.step]
    split
    · exact closed_settle (h.at hm) _ healthy
    · exact h
  | respawn =>
    simp only [Driver.step]
    split
    · rename_i hph
      exact h.at (b := false) (by rw [hph]; rfl)
    · exact h
  | exit =>
    simp only [Driver.step]
    split
    · rename_i hph
      exact h.at (b := false) (by rw [hph]; rfl)
    · exact h

/-! ## The result -/

theorem inv_start : Inv {} where
  books :=
    { sorted := .nil, below := nofun, sentSorted := .nil, sentBelow := nofun, before := nofun
      every := nofun, resends := nofun, acceptedBelow := nofun }
  handles := by decide
  teardown := rfl
  phase := trivial
  idle := nofun

/-- The adapter exits during a turn with a prompt queued behind it. -/
def crashRun : List Event := [.initialized false, .established, .agentPrompt {} "ls", .agentPrompt {} "pwd",
  .recv true, .recv true, .closed true, .respawn, .established]

/-- The next turn starts, and the first one was never finished. -/
theorem turn_left_open : ∀ b, ¬ Bracketed (Run.run Driver.step {} crashRun).log b := by
  unfold Bracketed
  decide

end Portty.Host.AgentTurn
