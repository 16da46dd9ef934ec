import Portty.Lib.Run
import Portty.Lib.Table
import Portty.Transport.Types

/-!
# Human confirmation of a first pair (`pair_confirm.rs`, `serve_pairing_console`)

The calls of `PairConfirm::confirm`, the consoles that can be asked, and behind each console the
`portty pair` process with the operator. A step is one thing that one of them does; a run is any
order of steps.

* **A call** takes the slot, collects the attached consoles, sends its request to them one after
  the other, and waits for the first reply, for the last console to go, or for the timeout.
* **A console** waits for a request, asks its `portty pair`, reads one frame and replies. It has a
  mailbox for one request, which stays open until the console ends.
* **A reply channel** is named by its call: `PairRequest.reply` is the index of the call. The pipe
  to a `portty pair` names no request at all.

`confirm_only_approved`: a call that returns true was approved, at a console that it had collected,
by the first answer to its own request.
-/

namespace Portty

namespace PairConfirm

/-- How many answers a reply channel can buffer. -/
def replySlots : Nat := 8

/-- One pending pairing request. `reply` is the call whose reply channel it carries. -/
structure PairRequest where
  deviceId : DeviceId
  displayName : String
  code : String
  reply : Nat
  deriving DecidableEq

/-- A frame from `portty pair`: `PairingConfirmResponse`, or anything else. -/
inductive Frame where
  | response (accept : Bool)
  | other
  deriving DecidableEq

/-- Only an explicit `PairingConfirmResponse { accept: true }` approves. -/
def Frame.accepts : Frame → Bool
  | .response accept => accept
  | .other => false

/-- The `portty pair` process and the pipe to it. It sends nothing until it is asked. -/
structure Cli where
  /-- `PairingConfirmRequest` frames on the way to it: a device name and a code. -/
  asks : List (String × String) := []
  /-- What the operator is shown. -/
  prompt : Option (String × String) := none
  /-- All frames it has sent, the first one first. -/
  sent : List Frame := []
  /-- How many of them the host has read. -/
  read : Nat := 0
  gone : Bool := false
  deriving DecidableEq

/-- Where `serve_pairing_console` stands. -/
inductive ConsolePhase where
  /-- In the `select!`. -/
  | waiting
  /-- It has a request and writes the question. -/
  | asking (r : PairRequest)
  /-- It reads the one answer. -/
  | reading (r : PairRequest)
  /-- It is in `request.answer`. -/
  | answering (r : PairRequest) (accept : Bool)
  /-- It shuts the pipe down. -/
  | closing
  /-- Its receiver is gone. -/
  | dropped
  /-- Its guard is gone too. -/
  | detached
  deriving DecidableEq

/-- A console that was attached, with its mailbox and its command line. -/
structure Console where
  phase : ConsolePhase := .waiting
  mailbox : Option PairRequest := none
  /-- The request it took from the mailbox. -/
  took : Option PairRequest := none
  cli : Cli := {}
  deriving DecidableEq

/-- The receiver of the mailbox exists. -/
def Console.listens (con : Console) : Bool :=
  match con.phase with
  | .dropped | .detached => false
  | _ => true

/-- The request that the task of the console holds. -/
def Console.held (con : Console) : Option PairRequest :=
  match con.phase with
  | .asking r | .reading r | .answering r _ => some r
  | _ => none

/-- The console leaves `if let Some(request)`, and drops a request it holds. -/
def Console.close (con : Console) : Console := { con with phase := .closing }

/-- Where a call of `confirm` stands. -/
inductive CallPhase where
  /-- It has the slot, and has not looked at the consoles. -/
  | collecting
  /-- These consoles are still to be sent the request; so many have it. -/
  | sending (rest : List Nat) (delivered : Nat)
  | waiting
  | returned (ok : Bool)
  /-- Its future was dropped. -/
  | abandoned
  deriving DecidableEq

/-- A call of `confirm`. -/
structure Call where
  deviceId : DeviceId
  displayName : String
  code : String
  /-- The consoles it collected. -/
  targets : List Nat := []
  /-- What is in its reply channel. -/
  replies : List Bool := []
  phase : CallPhase
  deriving DecidableEq

/-- The call has the slot, and the receiver of its reply channel exists. -/
def Call.outstanding (call : Call) : Bool :=
  match call.phase with
  | .collecting | .sending _ _ | .waiting => true
  | .returned _ | .abandoned => false

/-- The request that call `k` sends. -/
def Call.request (call : Call) (k : Nat) : PairRequest :=
  { deviceId := call.deviceId, displayName := call.displayName, code := call.code, reply := k }

/-- `PairConfirm`, all its calls, and all consoles that were ever attached: console `c` has the
id `c`. -/
structure State where
  consoles : List Console := []
  /-- The ids in the registry. -/
  registry : List Nat := []
  calls : List Call := []
  /-- The permits left in `in_flight`. -/
  inFlight : Nat := 1
  deriving DecidableEq

namespace State

/-- A console goes on. -/
def updateConsole (s : State) (c : Nat) (f : Console → Console) : State :=
  { s with consoles := s.consoles.modify c f }

/-- A call goes on. -/
def updateCall (s : State) (k : Nat) (f : Call → Call) : State :=
  { s with calls := s.calls.modify k f }

/-! ## The calls -/

/-- A new console, with its sender in the registry. -/
def attach (s : State) : State :=
  { s with consoles := s.consoles ++ [{}], registry := s.registry ++ [s.consoles.length] }

/-- `confirm` up to `try_acquire`: it is refused if another call has the slot. -/
def confirm (s : State) (deviceId : DeviceId) (displayName code : String) : State :=
  if s.inFlight = 0 then
    { s with calls := s.calls ++ [{ deviceId, displayName, code, phase := .returned false }] }
  else
    { s with
      calls := s.calls ++ [{ deviceId, displayName, code, phase := .collecting }]
      inFlight := s.inFlight - 1 }

/-- The call ends and gives the slot back. -/
def finish (s : State) (k : Nat) (phase : CallPhase) : State :=
  { s.updateCall k fun call => { call with phase } with inFlight := s.inFlight + 1 }

/-- The call collects the attached consoles. -/
def collect (s : State) (k : Nat) : State :=
  let s' := s.updateCall k fun call =>
    { call with targets := s.registry, phase := .sending s.registry 0 }
  if s.registry = [] then s'.finish k (.returned false) else s'

/-- `try_send` to a mailbox succeeds. -/
def accepts (s : State) (c : Nat) : Bool :=
  s.consoles[c]?.any fun con => con.listens && con.mailbox.isNone

/-- The call sends its request to the next console; after the last one it waits, unless no console
took the request. -/
def send (s : State) (k : Nat) (call : Call) : List Nat → Nat → State
  | [], 0 => s.finish k (.returned false)
  | [], _ + 1 => s.updateCall k fun call => { call with phase := .waiting }
  | c :: rest, delivered =>
    if s.accepts c then
      (s.updateConsole c fun con => { con with mailbox := some (call.request k) }).updateCall k
        fun call => { call with phase := .sending rest (delivered + 1) }
    else s.updateCall k fun call => { call with phase := .sending rest delivered }

/-- A request of the call exists, so its reply channel has a sender. -/
def hasSender (s : State) (k : Nat) : Bool :=
  s.consoles.any fun con => con.mailbox.any (·.reply = k) || con.held.any (·.reply = k)

/-- The waiting call is polled. The channel is looked at before the clock. -/
def poll (s : State) (k : Nat) (call : Call) (elapsed : Bool) : State :=
  match call.replies with
  | accept :: _ => s.finish k (.returned accept)
  | [] => if !s.hasSender k || elapsed then s.finish k (.returned false) else s

/-- The call goes on. -/
def proceed (s : State) (k : Nat) (elapsed : Bool) : State :=
  match s.calls[k]? with
  | none => s
  | some call =>
    match call.phase with
    | .collecting => s.collect k
    | .sending rest delivered => s.send k call rest delivered
    | .waiting => s.poll k call elapsed
    | .returned _ | .abandoned => s

/-- The future of a waiting call is dropped. -/
def abandon (s : State) (k : Nat) : State :=
  match s.calls[k]? with
  | some { phase := .waiting, .. } => s.finish k .abandoned
  | _ => s

/-! ## The consoles -/

/-- `request.answer`: it waits while the channel is full, and is ignored if the call has ended. -/
def answer (s : State) (c : Nat) (r : PairRequest) (accept : Bool) : State :=
  match s.calls[r.reply]? with
  | none => s
  | some call =>
    if !call.outstanding then s.updateConsole c Console.close
    else if call.replies.length < replySlots then
      (s.updateCall r.reply fun call =>
        { call with replies := call.replies ++ [accept] }).updateConsole c Console.close
    else s

/-- The console takes its next step. In the `select!` a request and a hang-up can both be ready;
`hungUp` picks the second. `written` tells whether the question could be written. -/
def serve (s : State) (c : Nat) (hungUp written : Bool) : State :=
  match s.consoles[c]? with
  | none => s
  | some con =>
    match con.phase with
    | .waiting =>
      if hungUp then if con.cli.gone then s.updateConsole c Console.close else s
      else
        match con.mailbox with
        | none => s
        | some r => s.updateConsole c fun con =>
          { con with phase := .asking r, mailbox := none, took := some r }
    | .asking r =>
      if written then s.updateConsole c fun con =>
        { con with
          phase := .reading r
          cli.asks := con.cli.asks ++ [(r.displayName, r.code)] }
      else s.updateConsole c Console.close
    | .reading r =>
      match con.cli.sent[con.cli.read]? with
      | some frame => s.updateConsole c fun con =>
        { con with phase := .answering r frame.accepts, cli.read := con.cli.read + 1 }
      | none => if con.cli.gone then s.updateConsole c Console.close else s
    | .answering r accept => s.answer c r accept
    | .closing => s.updateConsole c fun con => { con with phase := .dropped, mailbox := none }
    | .dropped =>
      { s.updateConsole c fun con => { con with phase := .detached } with
        registry := s.registry.filter (· ≠ c) }
    | .detached => s

/-- The task of the console is dropped. -/
def abort (s : State) (c : Nat) : State :=
  match s.consoles[c]? with
  | none => s
  | some con =>
    if con.listens then
      s.updateConsole c fun con => { con with phase := .dropped, mailbox := none }
    else s

/-! ## `portty pair` -/

/-- It reads the question and shows it. -/
def promptPairingMatch (s : State) (c : Nat) : State :=
  s.updateConsole c fun con =>
    match con.cli.asks, con.cli.prompt with
    | ask :: asks, none =>
      if con.cli.gone then con else { con with cli.asks := asks, cli.prompt := some ask }
    | _, _ => con

/-- It sends a frame, once it has been asked. -/
def respond (s : State) (c : Nat) (frame : Frame) : State :=
  s.updateConsole c fun con =>
    if con.cli.prompt.isSome && !con.cli.gone then
      { con with cli.sent := con.cli.sent ++ [frame] }
    else con

/-- It closes the pipe. -/
def hangUp (s : State) (c : Nat) : State :=
  s.updateConsole c fun con => { con with cli.gone := true }

end State

/-! ## Runs -/

/-- What the calls, the consoles and their owners do, in any order. -/
inductive Event where
  | attach
  | confirm (deviceId : DeviceId) (displayName code : String)
  /-- A call goes on; `elapsed` if `CONFIRM_TIMEOUT` is over. -/
  | proceed (k : Nat) (elapsed : Bool)
  | abandon (k : Nat)
  /-- A console goes on. -/
  | serve (c : Nat) (hungUp written : Bool)
  | abort (c : Nat)
  | promptPairingMatch (c : Nat)
  | respond (c : Nat) (frame : Frame)
  | hangUp (c : Nat)
  deriving DecidableEq

/-- One event. -/
def State.step (s : State) : Event → State
  | .attach => s.attach
  | .confirm deviceId displayName code => s.confirm deviceId displayName code
  | .proceed k elapsed => s.proceed k elapsed
  | .abandon k => s.abandon k
  | .serve c hungUp written => s.serve c hungUp written
  | .abort c => s.abort c
  | .promptPairingMatch c => s.promptPairingMatch c
  | .respond c frame => s.respond c frame
  | .hangUp c => s.hangUp c

/-- The state after the steps, from `PairConfirm::new`. -/
def run (evs : List Event) : State := Run.run State.step {} evs

/-! ## What a step can change

A console keeps the request it took, the question its operator was shown and the answers given.
A call keeps its arguments. -/

namespace Console

/-- `con'` is a later state of `con`. -/
structure Le (con con' : Console) : Prop where
  took : ∀ r, con.took = some r → con'.took = some r
  prompt : ∀ q, con.cli.prompt = some q → con'.cli.prompt = some q
  sent : ∀ f, con.cli.sent.head? = some f → con'.cli.sent.head? = some f

/-- What a console and its `portty pair` have agreed on so far. -/
structure Ok (con : Console) : Prop where
  /-- A request is taken once, and held until it is dropped. -/
  held : ∀ r, con.held = some r → con.took = some r
  idle : con.phase = .waiting → con.took = none
  /-- Nothing is on the screen or was said before the question was written. -/
  unasked : (con.phase = .waiting ∨ ∃ r, con.phase = .asking r) →
    con.cli.asks = [] ∧ con.cli.prompt = none
  silent : con.cli.prompt = none → con.cli.sent = []
  /-- The only question is the one about the request. -/
  asks : ∀ q ∈ con.cli.asks, ∃ r, con.took = some r ∧ q = (r.displayName, r.code)
  shown : ∀ q, con.cli.prompt = some q → ∃ r, con.took = some r ∧ q = (r.displayName, r.code)
  /-- The frame that is read is the first one. -/
  unread : (con.phase = .waiting ∨ (∃ r, con.phase = .asking r) ∨ ∃ r, con.phase = .reading r) →
    con.cli.read = 0
  answer : ∀ r a, con.phase = .answering r a →
    ∃ frame, con.cli.sent.head? = some frame ∧ frame.accepts = a

theorem Le.of_eq {con con' : Console} (ht : con'.took = con.took) (hc : con'.cli = con.cli) :
    con.Le con' := by
  refine ⟨?_, ?_, ?_⟩ <;> simp [ht, hc]

end Console

namespace Console

variable {con : Console} {r : PairRequest}

/-- The console has let its request go. -/
theorem Ok.left {con' : Console} (h : con.Ok) (ht : con'.took = con.took) (hc : con'.cli = con.cli)
    (hp : con'.phase = .closing ∨ con'.phase = .dropped ∨ con'.phase = .detached) : con'.Ok where
  held r hr := by
    obtain hp | hp | hp := hp <;> simp [Console.held, hp] at hr
  idle hw := by simp [hw] at hp
  unasked hw := by
    obtain hw | ⟨r, hw⟩ := hw <;> simp [hw] at hp
  silent := by rw [hc]; exact h.silent
  asks := by rw [hc, ht]; exact h.asks
  shown := by rw [hc, ht]; exact h.shown
  unread hw := by
    obtain hw | ⟨r, hw⟩ | ⟨r, hw⟩ := hw <;> simp [hw] at hp
  answer r a hw := by simp [hw] at hp

theorem Ok.mailbox (h : con.Ok) (m : Option PairRequest) : { con with mailbox := m }.Ok :=
  ⟨h.held, h.idle, h.unasked, h.silent, h.asks, h.shown, h.unread, h.answer⟩

theorem Ok.take (h : con.Ok) (hp : con.phase = .waiting) (r : PairRequest) :
    { con with phase := .asking r, mailbox := none, took := some r }.Ok := by
  obtain ⟨ha, hn⟩ := h.unasked (.inl hp)
  refine ⟨fun r' hr => hr, fun hw => by simp at hw, fun _ => ⟨ha, hn⟩, h.silent, ?_, ?_,
    fun _ => h.unread (.inl hp), fun r' a hw => by simp at hw⟩
  · intro q hq
    simp [ha] at hq
  · intro q hq
    simp [hn] at hq

theorem le_take (h : con.Ok) (hp : con.phase = .waiting) (r : PairRequest) :
    con.Le { con with phase := .asking r, mailbox := none, took := some r } := by
  refine ⟨fun r' hr => ?_, fun _ hq => hq, fun _ hf => hf⟩
  simp [h.idle hp] at hr

theorem Ok.ask (h : con.Ok) (hp : con.phase = .asking r) :
    { con with
      phase := .reading r
      cli.asks := con.cli.asks ++ [(r.displayName, r.code)] }.Ok := by
  obtain ⟨ha, hn⟩ := h.unasked (.inr ⟨r, hp⟩)
  have ht : con.took = some r := h.held r (by simp [Console.held, hp])
  refine ⟨fun r' hr => ?_, fun hw => by simp at hw, fun hw => by simp at hw, h.silent, ?_, h.shown,
    fun _ => h.unread (.inr (.inl ⟨r, hp⟩)), fun r' a hw => by simp at hw⟩
  · simp only [Console.held, Option.some.injEq] at hr
    rw [ht, hr]
  · intro q hq
    simp only [ha, List.nil_append, List.mem_singleton] at hq
    exact ⟨r, ht, hq⟩

theorem Ok.read (h : con.Ok) (hp : con.phase = .reading r) {frame : Frame}
    (hf : con.cli.sent[con.cli.read]? = some frame) :
    { con with
      phase := .answering r frame.accepts
      cli.read := con.cli.read + 1 }.Ok := by
  have ht : con.took = some r := h.held r (by simp [Console.held, hp])
  rw [h.unread (.inr (.inr ⟨r, hp⟩)), ← List.head?_eq_getElem?] at hf
  refine ⟨fun r' hr => ?_, fun hw => by simp at hw, fun hw => by simp at hw, h.silent, h.asks,
    h.shown, fun hw => by simp at hw, fun r' a hw => ?_⟩
  · simp only [Console.held, Option.some.injEq] at hr
    rw [ht, hr]
  · simp only [ConsolePhase.answering.injEq] at hw
    exact ⟨frame, hf, hw.2⟩

theorem Ok.prompt (h : con.Ok) {ask : String × String} {asks : List (String × String)}
    (ha : con.cli.asks = ask :: asks) :
    { con with cli.asks := asks, cli.prompt := some ask }.Ok := by
  refine ⟨h.held, h.idle, fun hw => ?_, fun hq => by simp at hq, ?_, ?_, h.unread, h.answer⟩
  · have hnil := (h.unasked hw).1
    simp [ha] at hnil
  · intro q hq
    exact h.asks q (ha ▸ List.mem_cons_of_mem _ hq)
  · intro q hq
    obtain rfl : ask = q := by simpa using hq
    exact h.asks ask (ha ▸ List.mem_cons_self)

theorem head?_append_of_head? {α : Type} {l : List α} {f : α} (h : l.head? = some f) (g : α) :
    (l ++ [g]).head? = some f := by
  cases l with
  | nil => simp at h
  | cons x l => simpa using h

theorem Ok.respond (h : con.Ok) (hs : con.cli.prompt.isSome = true) (frame : Frame) :
    { con with cli.sent := con.cli.sent ++ [frame] }.Ok := by
  refine ⟨h.held, h.idle, h.unasked, fun hn => ?_, h.asks, h.shown, h.unread, fun r a hw => ?_⟩
  · simp only at hn
    simp [hn] at hs
  · obtain ⟨f, hf, hfa⟩ := h.answer r a hw
    exact ⟨f, head?_append_of_head? hf frame, hfa⟩

end Console

/-! ## The invariant -/

namespace State

variable {s : State} {c k : Nat} {con : Console} {call : Call} {r : PairRequest}
  {C : Nat → Nat → Prop}

/-- `r` is the request of a call that collected console `c`. -/
def Asked (s : State) (c : Nat) (r : PairRequest) : Prop :=
  ∃ call, s.calls[r.reply]? = some call ∧ call.request r.reply = r ∧ c ∈ call.targets

/-- A console that call `k` collected took exactly the request of `k`, its operator was shown the
name and the code of `k`, and the first answer was yes. -/
def Approved (s : State) (k : Nat) : Prop :=
  ∃ call c con, s.calls[k]? = some call ∧ c ∈ call.targets ∧ s.consoles[c]? = some con ∧
    con.took = some (call.request k) ∧ con.cli.prompt = some (call.displayName, call.code) ∧
    con.cli.sent.head? = some (.response true)

/-- A call that has the slot is the only one. -/
structure Slot (s : State) : Prop where
  le : s.inFlight ≤ 1
  free : s.inFlight = 1 → ∀ (k : Nat) (call : Call), s.calls[k]? = some call →
    call.outstanding = false
  one : ∀ (j k : Nat) (a b : Call), s.calls[j]? = some a → s.calls[k]? = some b →
    a.outstanding = true → b.outstanding = true → j = k

/-- Every request, reply and result belongs to a call. `C k c` is what is known of a console `c`
that call `k` collected. -/
structure Inv (C : Nat → Nat → Prop) (s : State) : Prop where
  fresh : ∀ (k : Nat) (call : Call), s.calls[k]? = some call → call.phase = .collecting →
    call.targets = []
  collected : ∀ (k : Nat) (call : Call), s.calls[k]? = some call → ∀ c ∈ call.targets, C k c
  sending : ∀ (k : Nat) (call : Call) (rest : List Nat) (delivered : Nat),
    s.calls[k]? = some call → call.phase = .sending rest delivered → rest ⊆ call.targets
  consoles : ∀ (c : Nat) (con : Console), s.consoles[c]? = some con → con.Ok
  asked : ∀ (c : Nat) (con : Console) (r : PairRequest), s.consoles[c]? = some con →
    con.mailbox = some r ∨ con.took = some r → s.Asked c r
  approved : ∀ (k : Nat) (call : Call), s.calls[k]? = some call →
    true ∈ call.replies ∨ call.phase = .returned true → s.Approved k

theorem slot_start : Slot {} where
  le := Nat.le_refl 1
  free _ k call h := by simp at h
  one j k a b h := by simp at h

theorem inv_start : Inv C {} where
  fresh k call h := by simp at h
  collected k call h := by simp at h
  sending k call rest delivered h := by simp at h
  consoles c con h := by simp at h
  asked c con r h := by simp at h
  approved k call h := by simp at h

@[simp] theorem calls_updateConsole (s : State) (c : Nat) (f : Console → Console) :
    (s.updateConsole c f).calls = s.calls := rfl

@[simp] theorem consoles_updateCall (s : State) (k : Nat) (g : Call → Call) :
    (s.updateCall k g).consoles = s.consoles := rfl

/-- A later console, or the same one. -/
theorem exists_updateConsole {f : Console → Console} (hc : s.consoles[c]? = some con)
    {c' : Nat} (hle : ∀ con, s.consoles[c']? = some con → con.Le (f con)) :
    ∃ con', (s.updateConsole c' f).consoles[c]? = some con' ∧ con.Le con' := by
  refine ⟨_, Table.modify_some hc c' f, ?_⟩
  split
  · next h =>
    subst h
    exact hle con hc
  · exact .of_eq rfl rfl

theorem Approved.updateConsole (h : s.Approved k) {f : Console → Console}
    (hle : ∀ con, s.consoles[c]? = some con → con.Le (f con)) :
    (s.updateConsole c f).Approved k := by
  obtain ⟨call, c', con, hk, ht, hc, htook, hprompt, hsent⟩ := h
  obtain ⟨con', hc', hle'⟩ := exists_updateConsole hc hle
  exact ⟨call, c', con', hk, ht, hc', hle'.took _ htook, hle'.prompt _ hprompt, hle'.sent _ hsent⟩

/-- One console goes on. -/
theorem Inv.updateConsole (h : Inv C s) {f : Console → Console}
    (hf : ∀ con, s.consoles[c]? = some con → (f con).Ok ∧ con.Le (f con) ∧
      ∀ r, (f con).mailbox = some r ∨ (f con).took = some r →
        (con.mailbox = some r ∨ con.took = some r) ∨ s.Asked c r) :
    Inv C (s.updateConsole c f) where
  fresh := h.fresh
  collected := h.collected
  sending := h.sending
  consoles c' con' hc' := by
    obtain ⟨rfl, con, hc, rfl⟩ | ⟨-, hc⟩ := Table.modify_cases hc'
    · exact (hf con hc).1
    · exact h.consoles c' con' hc
  asked c' con' r hc' hr := by
    obtain ⟨rfl, con, hc, rfl⟩ | ⟨-, hc⟩ := Table.modify_cases hc'
    · obtain hold | hnew := (hf con hc).2.2 r hr
      · exact h.asked c' con r hc hold
      · exact hnew
    · exact h.asked c' con' r hc hr
  approved k call hk hr :=
    (h.approved k call hk hr).updateConsole fun con hc => (hf con hc).2.1

/-- `call'` is a later state of `call`. -/
structure CallLe (call call' : Call) : Prop where
  deviceId : call'.deviceId = call.deviceId
  displayName : call'.displayName = call.displayName
  code : call'.code = call.code
  targets : call.targets ⊆ call'.targets

theorem CallLe.request {call' : Call} (h : CallLe call call') (k : Nat) :
    call'.request k = call.request k := by
  simp [Call.request, h.deviceId, h.displayName, h.code]

theorem exists_updateCall {g : Call → Call} (hk : s.calls[k]? = some call) {k' : Nat}
    (hle : ∀ call, s.calls[k']? = some call → CallLe call (g call)) :
    ∃ call', (s.updateCall k' g).calls[k]? = some call' ∧ CallLe call call' := by
  refine ⟨_, Table.modify_some hk k' g, ?_⟩
  split
  · next h =>
    subst h
    exact hle call hk
  · exact ⟨rfl, rfl, rfl, fun _ hx => hx⟩

theorem Asked.updateCall (h : s.Asked c r) {g : Call → Call}
    (hle : ∀ call, s.calls[k]? = some call → CallLe call (g call)) :
    (s.updateCall k g).Asked c r := by
  obtain ⟨call, hk, hr, hc⟩ := h
  obtain ⟨call', hk', hle'⟩ := exists_updateCall hk hle
  exact ⟨call', hk', (hle'.request _).trans hr, hle'.targets hc⟩

theorem Approved.updateCall {k' : Nat} (h : s.Approved k') {g : Call → Call}
    (hle : ∀ call, s.calls[k]? = some call → CallLe call (g call)) :
    (s.updateCall k g).Approved k' := by
  obtain ⟨call, c, con, hk, ht, hc, htook, hprompt, hsent⟩ := h
  obtain ⟨call', hk', hle'⟩ := exists_updateCall hk hle
  refine ⟨call', c, con, hk', hle'.targets ht, hc, ?_, ?_, hsent⟩
  · rw [htook, hle'.request]
  · rw [hprompt, hle'.displayName, hle'.code]

/-- One call goes on. -/
theorem Inv.updateCall (h : Inv C s) {g : Call → Call}
    (hle : ∀ call, s.calls[k]? = some call → CallLe call (g call))
    (hn : ∀ call, s.calls[k]? = some call → (g call).phase = .collecting → (g call).targets = [])
    (hC : ∀ call, s.calls[k]? = some call → ∀ c ∈ (g call).targets, C k c)
    (hs : ∀ call rest delivered, s.calls[k]? = some call →
      (g call).phase = .sending rest delivered → rest ⊆ (g call).targets)
    (ha : ∀ call, s.calls[k]? = some call →
      true ∈ (g call).replies ∨ (g call).phase = .returned true → s.Approved k) :
    Inv C (s.updateCall k g) where
  fresh k' call' hk' hp := by
    obtain ⟨rfl, call, hk, rfl⟩ | ⟨-, hk⟩ := Table.modify_cases hk'
    · exact hn call hk hp
    · exact h.fresh k' call' hk hp
  collected k' call' hk' := by
    obtain ⟨rfl, call, hk, rfl⟩ | ⟨-, hk⟩ := Table.modify_cases hk'
    · exact hC call hk
    · exact h.collected k' call' hk
  sending k' call' rest delivered hk' hp := by
    obtain ⟨rfl, call, hk, rfl⟩ | ⟨-, hk⟩ := Table.modify_cases hk'
    · exact hs call rest delivered hk hp
    · exact h.sending k' call' rest delivered hk hp
  consoles := h.consoles
  asked c con r hc hr := (h.asked c con r hc hr).updateCall hle
  approved k' call' hk' hr := by
    refine Approved.updateCall ?_ hle
    obtain ⟨rfl, call, hk, rfl⟩ | ⟨-, hk⟩ := Table.modify_cases hk'
    · exact ha call hk hr
    · exact h.approved k' call' hk hr

/-- A call goes on and keeps the slot. -/
theorem Slot.updateCall (h : Slot s) {g : Call → Call}
    (ho : ∀ call, s.calls[k]? = some call → (g call).outstanding = call.outstanding) :
    Slot (s.updateCall k g) := by
  have hout : ∀ (k' : Nat) (call' : Call), (s.updateCall k g).calls[k']? = some call' →
      ∃ call : Call, s.calls[k']? = some call ∧ call.outstanding = call'.outstanding := by
    intro k' call' hk'
    obtain ⟨rfl, call, hk, rfl⟩ | ⟨-, hk⟩ := Table.modify_cases hk'
    · exact ⟨call, hk, (ho call hk).symm⟩
    · exact ⟨call', hk, rfl⟩
  refine ⟨h.le, fun hf k' call' hk' => ?_, fun i j a b hi hj hia hjb => ?_⟩
  · obtain ⟨call, hk, heq⟩ := hout k' call' hk'
    exact heq ▸ h.free hf k' call hk
  · obtain ⟨a₀, hi₀, ha₀⟩ := hout i a hi
    obtain ⟨b₀, hj₀, hb₀⟩ := hout j b hj
    exact h.one i j a₀ b₀ hi₀ hj₀ (ha₀.trans hia) (hb₀.trans hjb)

/-- A call ends and gives the slot back. -/
theorem Slot.finish (h : Slot s) (hk : s.calls[k]? = some call) (ho : call.outstanding = true)
    {phase : CallPhase} (hp : ∀ call : Call, { call with phase }.outstanding = false) :
    Slot (s.finish k phase) := by
  have hnone : ∀ (k' : Nat) (call' : Call), (s.finish k phase).calls[k']? = some call' →
      call'.outstanding = false := by
    intro k' call' hk'
    obtain ⟨rfl, call₀, -, rfl⟩ | ⟨hne, hk₀⟩ := Table.modify_cases hk'
    · exact hp call₀
    · by_contra hc
      exact hne (h.one k' k call' call hk₀ hk (by simpa using hc) ho)
  have hle := h.le
  have h0 : s.inFlight ≠ 1 := by
    intro h1
    have := h.free h1 k call hk
    simp [ho] at this
  refine ⟨?_, fun _ => hnone, fun i j a b hi _ hia _ => ?_⟩
  · simp only [State.finish]
    omega
  · simp [hnone i a hi] at hia

theorem Inv.finish (h : Inv C s) (hk : s.calls[k]? = some call) {phase : CallPhase}
    (hn : phase ≠ .collecting) (hs : ∀ rest delivered, phase ≠ .sending rest delivered)
    (ha : phase = .returned true → true ∈ call.replies) : Inv C (s.finish k phase) := by
  have hcall : ∀ call', s.calls[k]? = some call' → call' = call := fun call' hk' =>
    Option.some.inj (hk'.symm.trans hk)
  have h' : Inv C (s.updateCall k fun call => { call with phase }) := by
    refine h.updateCall (fun call' _ => ⟨rfl, rfl, rfl, fun _ hx => hx⟩)
      (fun call' _ hp => absurd hp hn) (fun call' hk' => h.collected k call' hk')
      (fun call' rest delivered _ hp => ?_) (fun call' hk' hr => ?_)
    · exact absurd hp (hs rest delivered)
    · obtain rfl := hcall call' hk'
      exact h.approved k call' hk' (.inl (hr.elim id ha))
  exact ⟨h'.fresh, h'.collected, h'.sending, h'.consoles, h'.asked, h'.approved⟩

/-! ## The steps -/

/-- A new console has no request. -/
theorem Inv.attach (h : Inv C s) : Inv C s.attach where
  fresh := h.fresh
  collected := h.collected
  sending := h.sending
  consoles c con hc := by
    obtain hc | ⟨-, rfl⟩ := Table.concat_cases hc
    · exact h.consoles c con hc
    · constructor <;> simp [Console.held]
  asked c con r hc hr := by
    obtain hc | ⟨-, rfl⟩ := Table.concat_cases hc
    · exact h.asked c con r hc hr
    · simp at hr
  approved k call hk hr := by
    obtain ⟨call', c, con, hk', ht, hc, hrest⟩ := h.approved k call hk hr
    exact ⟨call', c, con, hk', ht, Table.concat_some hc _, hrest⟩

/-- A new call, which has collected nothing and has no reply. -/
theorem Inv.concatCall (h : Inv C s) (ht : call.targets = []) (hr : call.replies = [])
    (hs : ∀ rest delivered, call.phase ≠ .sending rest delivered)
    (hp : call.phase ≠ .returned true) (n : Nat) :
    Inv C { s with calls := s.calls ++ [call], inFlight := n } where
  fresh k call' hk hph := by
    obtain hk | ⟨-, rfl⟩ := Table.concat_cases hk
    · exact h.fresh k call' hk hph
    · exact ht
  collected k call' hk := by
    obtain hk | ⟨-, rfl⟩ := Table.concat_cases hk
    · exact h.collected k call' hk
    · simp [ht]
  sending k call' rest delivered hk hph := by
    obtain hk | ⟨-, rfl⟩ := Table.concat_cases hk
    · exact h.sending k call' rest delivered hk hph
    · exact absurd hph (hs rest delivered)
  consoles := h.consoles
  asked c con r hc hcr := by
    obtain ⟨call', hk, hrest⟩ := h.asked c con r hc hcr
    exact ⟨call', Table.concat_some hk _, hrest⟩
  approved k call' hk hrp := by
    obtain hk | ⟨-, rfl⟩ := Table.concat_cases hk
    · obtain ⟨call₀, c, con, hk', hrest⟩ := h.approved k call' hk hrp
      exact ⟨call₀, c, con, Table.concat_some hk' _, hrest⟩
    · simp [hr, hp] at hrp

theorem Inv.confirm (h : Inv C s) (deviceId : DeviceId) (displayName code : String) :
    Inv C (s.confirm deviceId displayName code) := by
  unfold State.confirm
  split
  · exact h.concatCall rfl rfl (by simp) (by simp) s.inFlight
  · exact h.concatCall rfl rfl (by simp) (by simp) (s.inFlight - 1)

/-- A call takes the only slot, or is refused. -/
theorem Slot.confirm (h : Slot s) (deviceId : DeviceId) (displayName code : String) :
    Slot (s.confirm deviceId displayName code) := by
  have hle := h.le
  unfold State.confirm
  split
  · next h0 =>
    refine ⟨h.le, fun h1 => ?_, fun i j a b hi hj ha hb => ?_⟩
    · simp [h0] at h1
    · obtain hi | ⟨-, rfl⟩ := Table.concat_cases hi
      · obtain hj | ⟨-, rfl⟩ := Table.concat_cases hj
        · exact h.one i j a b hi hj ha hb
        · simp [Call.outstanding] at hb
      · simp [Call.outstanding] at ha
  · next h0 =>
    have hnone := h.free (by omega)
    have hlast : ∀ (new : Call) (i : Nat) (a : Call), (s.calls ++ [new])[i]? = some a →
        a.outstanding = true → i = s.calls.length := by
      intro new i a hi ha
      obtain hi | ⟨hlast, -⟩ := Table.concat_cases hi
      · simp [hnone i a hi] at ha
      · exact hlast
    refine ⟨by simp only; omega, fun h1 => ?_, fun i j a b hi hj ha hb => ?_⟩
    · simp only at h1
      omega
    · exact (hlast _ i a hi ha).trans (hlast _ j b hj hb).symm

/-- The consoles of a call are those of the registry. -/
theorem Inv.collect (h : Inv C s) (hC : ∀ c ∈ s.registry, C k c)
    (hk : s.calls[k]? = some call) (hp : call.phase = .collecting) : Inv C (s.collect k) := by
  have h' : Inv C (s.updateCall k fun call =>
      { call with targets := s.registry, phase := .sending s.registry 0 }) := by
    refine h.updateCall (fun call' hk' => ⟨rfl, rfl, rfl, ?_⟩) (fun _ _ hp' => by simp at hp')
      (fun _ _ => hC) (fun call' rest delivered _ hs => ?_) (fun call' hk' hr => ?_)
    · obtain rfl := Option.some.inj (hk'.symm.trans hk)
      rw [h.fresh k call' hk hp]
      exact List.nil_subset _
    · obtain ⟨rfl, -⟩ := CallPhase.sending.inj hs
      exact fun _ hx => hx
    · exact h.approved k call' hk' (.inl (by simpa using hr))
  unfold State.collect
  simp only
  split
  · exact h'.finish (Table.modify_self hk _) (by simp) (by simp) (by simp)
  · exact h'

/-- The call is in another phase, with the consoles and replies it had. -/
theorem Inv.phase (h : Inv C s) {phase : CallPhase} (hn : phase ≠ .collecting)
    (hr : phase ≠ .returned true)
    (hs : ∀ call rest delivered, s.calls[k]? = some call → phase = .sending rest delivered →
      rest ⊆ call.targets) :
    Inv C (s.updateCall k fun call => { call with phase }) := by
  refine h.updateCall (fun call' _ => ⟨rfl, rfl, rfl, fun _ hx => hx⟩)
    (fun call' _ hp => absurd hp hn) (fun call' hk' => h.collected k call' hk')
    (fun call' rest delivered hk' hp => hs call' rest delivered hk' hp) (fun call' hk' ha => ?_)
  exact h.approved k call' hk' (.inl (ha.resolve_right hr))

/-- A request goes into the mailbox of the next console. -/
theorem Inv.send (h : Inv C s) {rest : List Nat} {delivered : Nat}
    (hk : s.calls[k]? = some call) (hp : call.phase = .sending rest delivered) :
    Inv C (s.send k call rest delivered) := by
  have hsub := h.sending k call rest delivered hk hp
  have hcall : ∀ call', s.calls[k]? = some call' → call' = call := fun call' hk' =>
    Option.some.inj (hk'.symm.trans hk)
  cases rest with
  | nil =>
    cases delivered with
    | zero => exact h.finish hk (by simp) (by simp) (by simp)
    | succ n => exact h.phase (by simp) (by simp) (by simp)
  | cons c rest =>
    have hrest : ∀ (call' : Call) (rest' : List Nat) (d d' : Nat), s.calls[k]? = some call' →
        CallPhase.sending rest d = .sending rest' d' → rest' ⊆ call'.targets := by
      intro call' rest' d d' hk' hs
      obtain ⟨rfl, -⟩ := CallPhase.sending.inj hs
      rw [hcall call' hk']
      exact (List.cons_subset.mp hsub).2
    simp only [State.send]
    split
    · have hc : Inv C (s.updateConsole c fun con =>
          { con with mailbox := some (call.request k) }) := by
        refine h.updateConsole fun con hc => ⟨(h.consoles c con hc).mailbox _, .of_eq rfl rfl, ?_⟩
        intro r hr
        obtain hr | hr := hr
        · obtain rfl : call.request k = r := by simpa using hr
          exact .inr ⟨call, hk, rfl, (List.cons_subset.mp hsub).1⟩
        · exact .inl (.inr hr)
      exact hc.phase (by simp) (by simp) fun call' rest' d' hk' => hrest call' rest' _ d' hk'
    · exact h.phase (by simp) (by simp) fun call' rest' d' hk' => hrest call' rest' _ d' hk'

theorem Inv.poll (h : Inv C s) (hk : s.calls[k]? = some call) (elapsed : Bool) :
    Inv C (s.poll k call elapsed) := by
  unfold State.poll
  split
  · next accept replies hr =>
    refine h.finish hk (by simp) (by simp) fun ha => ?_
    simp only [CallPhase.returned.injEq] at ha
    simp [hr, ha]
  · split
    · exact h.finish hk (by simp) (by simp) (by simp)
    · exact h

theorem Inv.proceed (h : Inv C s) {elapsed : Bool}
    (hC : ∀ call : Call, s.calls[k]? = some call → call.phase = .collecting →
      ∀ c ∈ s.registry, C k c) : Inv C (s.proceed k elapsed) := by
  unfold State.proceed
  split
  · exact h
  · next call hk =>
    split
    · next hp => exact h.collect (hC call hk hp) hk hp
    · next rest delivered hp => exact h.send hk hp
    · exact h.poll hk elapsed
    · exact h
    · exact h

theorem Inv.abandon (h : Inv C s) : Inv C (s.abandon k) := by
  unfold State.abandon
  split
  · next hk => exact h.finish hk (by simp) (by simp) (by simp)
  · exact h

/-- The console drops the request it holds. -/
theorem Inv.left (h : Inv C s) {f : Console → Console}
    (ht : ∀ con, (f con).took = con.took) (hc : ∀ con, (f con).cli = con.cli)
    (hm : ∀ con, (f con).mailbox = con.mailbox ∨ (f con).mailbox = none)
    (hp : ∀ con, (f con).phase = .closing ∨ (f con).phase = .dropped ∨
      (f con).phase = .detached) : Inv C (s.updateConsole c f) := by
  refine h.updateConsole fun con hcon =>
    ⟨(h.consoles c con hcon).left (ht con) (hc con) (hp con), .of_eq (ht con) (hc con), ?_⟩
  intro r hr
  rw [ht con] at hr
  obtain hm | hm := hm con
  · rw [hm] at hr
    exact .inl hr
  · rw [hm] at hr
    exact .inl (.inr (hr.resolve_left (by simp)))

theorem Inv.close (h : Inv C s) : Inv C (s.updateConsole c Console.close) :=
  h.left (fun _ => rfl) (fun _ => rfl) (fun _ => .inl rfl) (fun _ => .inl rfl)

/-- Only the `portty pair` of the console, or where its task stands, has changed. -/
theorem Inv.advance (h : Inv C s) {f : Console → Console}
    (hok : ∀ con, s.consoles[c]? = some con → (f con).Ok ∧ con.Le (f con))
    (hf : ∀ con, s.consoles[c]? = some con → (f con).mailbox = con.mailbox ∧
      (f con).took = con.took) : Inv C (s.updateConsole c f) := by
  refine h.updateConsole fun con hc => ⟨(hok con hc).1, (hok con hc).2, fun r hr => ?_⟩
  rw [(hf con hc).1, (hf con hc).2] at hr
  exact .inl hr

/-- An answer goes to the call of its own request. -/
theorem Inv.answer (h : Inv C s) (hc : s.consoles[c]? = some con) {accept : Bool}
    (hp : con.phase = .answering r accept) : Inv C (s.answer c r accept) := by
  unfold State.answer
  split
  · exact h
  next call hk =>
  split
  · exact h.close
  split
  · refine Inv.close ?_
    refine h.updateCall (fun call' _ => ⟨rfl, rfl, rfl, fun _ hx => hx⟩)
      (fun call' hk' => h.fresh _ call' hk') (fun call' hk' => h.collected _ call' hk')
      (fun call' rest delivered hk' => h.sending _ call' rest delivered hk')
      (fun call' hk' hr => ?_)
    rw [List.mem_append, List.mem_singleton, or_assoc] at hr
    obtain hr | hr | hr := hr
    · exact h.approved _ call' hk' (.inl hr)
    · -- The console has read a yes, and it was its first frame.
      have hok := h.consoles c con hc
      have htook : con.took = some r := hok.held r (by simp [Console.held, hp])
      obtain ⟨call₀, hk₀, hreq, hmem⟩ := h.asked c con r hc (.inr htook)
      obtain ⟨frame, hf, hfa⟩ := hok.answer r accept hp
      obtain ⟨q, hq⟩ : ∃ q, con.cli.prompt = some q := by
        rw [← Option.isSome_iff_exists]
        by_contra hn
        simp [hok.silent (by simpa using hn)] at hf
      obtain ⟨r', hr', rfl⟩ := hok.shown q hq
      obtain rfl : r = r' := by simpa [htook] using hr'
      have hframe : frame = .response true := by
        cases frame <;> simp_all [Frame.accepts]
      refine ⟨call₀, c, con, hk₀, hmem, hc, by rw [htook, hreq], ?_, by rw [hf, hframe]⟩
      rw [hq, ← hreq]
      rfl
    · exact h.approved _ call' hk' (.inr hr)
  · exact h

/-- The task of a console goes on with its own request. -/
theorem Inv.serve (h : Inv C s) (hungUp written : Bool) : Inv C (s.serve c hungUp written) := by
  unfold State.serve
  split
  · exact h
  next con hc =>
  have hcon : ∀ con', s.consoles[c]? = some con' → con' = con := fun con' hc' =>
    Option.some.inj (hc'.symm.trans hc)
  have hok := h.consoles c con hc
  split
  · next hp =>
    split
    · split
      · exact h.close
      · exact h
    · split
      · exact h
      · next r hm =>
        refine h.updateConsole fun con' hc' => ?_
        obtain rfl := hcon con' hc'
        refine ⟨hok.take hp r, Console.le_take hok hp r, fun r' hr => .inl (.inl ?_)⟩
        obtain rfl : r = r' := by simpa using hr
        exact hm
  · next r hp =>
    split
    · refine h.advance (fun con' hc' => ?_) fun _ _ => ⟨rfl, rfl⟩
      obtain rfl := hcon con' hc'
      exact ⟨hok.ask hp, fun _ ht => ht, fun _ hq => hq, fun _ hf => hf⟩
    · exact h.close
  · next r hp =>
    split
    · next frame hf =>
      refine h.advance (fun con' hc' => ?_) fun _ _ => ⟨rfl, rfl⟩
      obtain rfl := hcon con' hc'
      exact ⟨hok.read hp hf, fun _ ht => ht, fun _ hq => hq, fun _ hf => hf⟩
    · split
      · exact h.close
      · exact h
  · next r accept hp => exact h.answer hc hp
  · exact h.left (fun _ => rfl) (fun _ => rfl) (fun _ => .inr rfl) (fun _ => .inr (.inl rfl))
  · have h' : Inv C (s.updateConsole c fun con => { con with phase := .detached }) :=
      h.left (fun _ => rfl) (fun _ => rfl) (fun _ => .inl rfl) (fun _ => .inr (.inr rfl))
    exact ⟨h'.fresh, h'.collected, h'.sending, h'.consoles, h'.asked, h'.approved⟩
  · exact h

theorem Inv.abort (h : Inv C s) : Inv C (s.abort c) := by
  unfold State.abort
  split
  · exact h
  · split
    · exact h.left (fun _ => rfl) (fun _ => rfl) (fun _ => .inr rfl) (fun _ => .inr (.inl rfl))
    · exact h

/-- The question on the command line is the one of the request. -/
theorem Inv.promptPairingMatch (h : Inv C s) : Inv C (s.promptPairingMatch c) := by
  refine h.advance (fun con hc => ?_) fun con _ => ?_
  · have hok := h.consoles c con hc
    split
    · next ask asks ha hn =>
      split
      · exact ⟨hok, .of_eq rfl rfl⟩
      · refine ⟨hok.prompt ha, fun _ ht => ht, fun q hq => ?_, fun _ hf => hf⟩
        simp [hn] at hq
    · exact ⟨hok, .of_eq rfl rfl⟩
  · split
    · split <;> exact ⟨rfl, rfl⟩
    · exact ⟨rfl, rfl⟩

theorem Inv.respond (h : Inv C s) (frame : Frame) : Inv C (s.respond c frame) := by
  refine h.advance (fun con hc => ?_) fun con _ => ?_
  · have hok := h.consoles c con hc
    split
    · next hg =>
      rw [Bool.and_eq_true] at hg
      exact ⟨hok.respond hg.1 frame, fun _ ht => ht, fun _ hq => hq,
        fun _ hf => Console.head?_append_of_head? hf frame⟩
    · exact ⟨hok, .of_eq rfl rfl⟩
  · split <;> exact ⟨rfl, rfl⟩

theorem Inv.hangUp (h : Inv C s) : Inv C (s.hangUp c) := by
  refine h.advance (fun con hc => ?_) fun con _ => ⟨rfl, rfl⟩
  have hok := h.consoles c con hc
  exact ⟨⟨hok.held, hok.idle, hok.unasked, hok.silent, hok.asks, hok.shown, hok.unread, hok.answer⟩,
    fun _ ht => ht, fun _ hq => hq, fun _ hf => hf⟩

theorem Inv.step (h : Inv C s) {ev : Event}
    (hC : ∀ (k : Nat) (elapsed : Bool) (call : Call), ev = .proceed k elapsed →
      s.calls[k]? = some call → call.phase = .collecting → ∀ c ∈ s.registry, C k c) :
    Inv C (s.step ev) := by
  cases ev with
  | attach => exact h.attach
  | confirm deviceId displayName code => exact h.confirm deviceId displayName code
  | proceed k elapsed => exact h.proceed fun call => hC k elapsed call rfl
  | abandon k => exact h.abandon
  | serve c hungUp written => exact h.serve hungUp written
  | abort c => exact h.abort
  | promptPairingMatch c => exact h.promptPairingMatch
  | respond c frame => exact h.respond frame
  | hangUp c => exact h.hangUp

/-! ## The slot -/

theorem Slot.of_calls {s' : State} (h : Slot s) (hc : s'.calls = s.calls)
    (hn : s'.inFlight = s.inFlight) : Slot s' := by
  refine ⟨?_, ?_, ?_⟩
  · rw [hn]; exact h.le
  · rw [hn, hc]; exact h.free
  · rw [hc]; exact h.one

/-- A call with the slot goes to another phase that keeps it. -/
theorem Slot.phase (h : Slot s) (hk : s.calls[k]? = some call) (ho : call.outstanding = true)
    {g : Call → Call} (hg : ∀ call, (g call).outstanding = true) : Slot (s.updateCall k g) := by
  refine h.updateCall fun call' hk' => ?_
  obtain rfl := Option.some.inj (hk'.symm.trans hk)
  rw [ho, hg]

/-- A call that returns gives the slot back. -/
theorem Slot.proceed (h : Slot s) (elapsed : Bool) : Slot (s.proceed k elapsed) := by
  unfold State.proceed
  split
  · exact h
  next call hk =>
  split
  · next hp =>
    have ho : call.outstanding = true := by simp [Call.outstanding, hp]
    have h' : Slot (s.updateCall k fun call =>
        { call with targets := s.registry, phase := .sending s.registry 0 }) :=
      h.phase hk ho fun _ => rfl
    unfold State.collect
    simp only
    split
    · exact h'.finish (Table.modify_self hk _) rfl fun _ => rfl
    · exact h'
  · next rest delivered hp =>
    have ho : call.outstanding = true := by simp [Call.outstanding, hp]
    cases rest with
    | nil =>
      cases delivered with
      | zero => exact h.finish hk ho fun _ => rfl
      | succ n => exact h.phase hk ho fun _ => rfl
    | cons c rest =>
      simp only [State.send]
      split
      · have hsent : ∀ f, Slot (s.updateConsole c f) := fun _ => h.of_calls rfl rfl
        exact (hsent _).phase hk ho fun _ => rfl
      · exact h.phase hk ho fun _ => rfl
  · next hp =>
    have ho : call.outstanding = true := by simp [Call.outstanding, hp]
    unfold State.poll
    split
    · exact h.finish hk ho fun _ => rfl
    · split
      · exact h.finish hk ho fun _ => rfl
      · exact h
  · exact h
  · exact h

/-- A console holds no slot. -/
theorem Slot.serve (h : Slot s) (hungUp written : Bool) : Slot (s.serve c hungUp written) := by
  have hcon : ∀ c' f, Slot (s.updateConsole c' f) := fun _ _ => h.of_calls rfl rfl
  unfold State.serve
  split
  · exact h
  split
  · split
    · split
      · exact hcon _ _
      · exact h
    · split
      · exact h
      · exact hcon _ _
  · split <;> exact hcon _ _
  · split
    · exact hcon _ _
    · split
      · exact hcon _ _
      · exact h
  · next r accept _ =>
    unfold State.answer
    split
    · exact h
    split
    · exact hcon _ _
    split
    · have h' : Slot (s.updateCall r.reply fun call =>
          { call with replies := call.replies ++ [accept] }) := h.updateCall fun _ _ => rfl
      exact h'.of_calls rfl rfl
    · exact h
  · exact hcon _ _
  · exact h.of_calls rfl rfl
  · exact h

theorem Slot.step (h : Slot s) (ev : Event) : Slot (s.step ev) := by
  cases ev with
  | attach => exact h.of_calls rfl rfl
  | confirm deviceId displayName code => exact h.confirm deviceId displayName code
  | proceed k elapsed => exact h.proceed elapsed
  | abandon k =>
    simp only [State.step, State.abandon]
    split
    · next hk => exact h.finish hk rfl fun _ => rfl
    · exact h
  | serve c hungUp written => exact h.serve hungUp written
  | abort c =>
    simp only [State.step, State.abort]
    split
    · exact h
    · split
      · exact h.of_calls rfl rfl
      · exact h
  | promptPairingMatch c => exact h.of_calls rfl rfl
  | respond c frame => exact h.of_calls rfl rfl
  | hangUp c => exact h.of_calls rfl rfl

/-! ## What a console has said stays said -/

/-- A console that is served only goes forward. -/
theorem le_serve (h : Inv C s) {c' : Nat} (hc : s.consoles[c]? = some con) (hungUp written : Bool) :
    ∃ con', (s.serve c' hungUp written).consoles[c]? = some con' ∧ con.Le con' := by
  have hsame : ∃ con', s.consoles[c]? = some con' ∧ con.Le con' := ⟨con, hc, .of_eq rfl rfl⟩
  have hclose : ∃ con', (s.updateConsole c' Console.close).consoles[c]? = some con' ∧
      con.Le con' := exists_updateConsole hc fun _ _ => .of_eq rfl rfl
  unfold State.serve
  split
  · exact hsame
  next con₀ hc₀ =>
  split
  · next hp =>
    split
    · split
      · exact hclose
      · exact hsame
    · split
      · exact hsame
      · refine exists_updateConsole hc fun con₁ hc₁ => ?_
        obtain rfl := Option.some.inj (hc₁.symm.trans hc₀)
        exact Console.le_take (h.consoles c' con₁ hc₁) hp _
  · split
    · exact exists_updateConsole hc fun _ _ => ⟨fun _ ht => ht, fun _ hq => hq, fun _ hf => hf⟩
    · exact hclose
  · split
    · exact exists_updateConsole hc fun _ _ => ⟨fun _ ht => ht, fun _ hq => hq, fun _ hf => hf⟩
    · split
      · exact hclose
      · exact hsame
  · unfold State.answer
    split
    · exact hsame
    split
    · exact hclose
    split
    · exact hclose
    · exact hsame
  · exact exists_updateConsole hc fun _ _ => .of_eq rfl rfl
  · exact exists_updateConsole hc fun _ _ => .of_eq rfl rfl
  · exact hsame

/-- So does a console when a call goes on. -/
theorem le_proceed (hc : s.consoles[c]? = some con) (elapsed : Bool) :
    ∃ con', (s.proceed k elapsed).consoles[c]? = some con' ∧ con.Le con' := by
  have hsame : ∃ con', s.consoles[c]? = some con' ∧ con.Le con' := ⟨con, hc, .of_eq rfl rfl⟩
  unfold State.proceed
  split
  · exact hsame
  next call _ =>
  split
  · unfold State.collect
    simp only
    split <;> exact hsame
  · next rest delivered _ =>
    cases rest with
    | nil => cases delivered <;> exact hsame
    | cons c' rest =>
      simp only [State.send]
      split
      · exact exists_updateConsole (f := fun con => { con with mailbox := some (call.request k) })
          hc fun _ _ => .of_eq rfl rfl
      · exact hsame
  · unfold State.poll
    split
    · exact hsame
    · split <;> exact hsame
  · exact hsame
  · exact hsame

/-- No event throws a console back. -/
theorem le_step (h : Inv C s) (hc : s.consoles[c]? = some con) (ev : Event) :
    ∃ con', (s.step ev).consoles[c]? = some con' ∧ con.Le con' := by
  have hsame : ∃ con', s.consoles[c]? = some con' ∧ con.Le con' := ⟨con, hc, .of_eq rfl rfl⟩
  cases ev with
  | attach => exact ⟨con, Table.concat_some hc _, .of_eq rfl rfl⟩
  | confirm deviceId displayName code =>
    simp only [State.step, State.confirm]
    split <;> exact hsame
  | proceed k elapsed => exact le_proceed hc elapsed
  | abandon k =>
    simp only [State.step, State.abandon]
    split <;> exact hsame
  | serve c' hungUp written => exact le_serve h hc hungUp written
  | abort c' =>
    simp only [State.step, State.abort]
    split
    · exact hsame
    · split
      · exact exists_updateConsole hc fun _ _ => .of_eq rfl rfl
      · exact hsame
  | promptPairingMatch c' =>
    refine exists_updateConsole hc fun con₀ _ => ?_
    split
    · next hn =>
      split
      · exact .of_eq rfl rfl
      · refine ⟨fun _ ht => ht, fun q hq => ?_, fun _ hf => hf⟩
        simp [hn] at hq
    · exact .of_eq rfl rfl
  | respond c' frame =>
    refine exists_updateConsole hc fun con₀ _ => ?_
    split
    · exact ⟨fun _ ht => ht, fun _ hq => hq, fun _ hf => Console.head?_append_of_head? hf frame⟩
    · exact .of_eq rfl rfl
  | hangUp c' =>
    exact exists_updateConsole hc fun _ _ => ⟨fun _ ht => ht, fun _ hq => hq, fun _ hf => hf⟩

theorem le_run (h : Inv (fun _ _ => True) s) (hc : s.consoles[c]? = some con) (evs : List Event) :
    ∃ con', (Run.run State.step s evs).consoles[c]? = some con' ∧ con.Le con' := by
  induction evs generalizing s con with
  | nil => exact ⟨con, hc, .of_eq rfl rfl⟩
  | cons ev evs ih =>
    obtain ⟨con₁, hc₁, hle₁⟩ := le_step h hc ev
    obtain ⟨con₂, hc₂, hle₂⟩ := ih (h.step fun _ _ _ _ _ _ _ _ => trivial) hc₁
    exact ⟨con₂, hc₂, fun r ht => hle₂.took r (hle₁.took r ht),
      fun q hq => hle₂.prompt q (hle₁.prompt q hq), fun f hf => hle₂.sent f (hle₁.sent f hf)⟩

end State

/-- Call `k` looked at the registry while console `c` was attached, at the step after `pre`. -/
def Collected (evs : List Event) (k c : Nat) : Prop :=
  ∃ pre elapsed post call, evs = pre ++ .proceed k elapsed :: post ∧
    (run pre).calls[k]? = some call ∧ call.phase = .collecting ∧ c ∈ (run pre).registry

theorem slot_run (evs : List Event) : (run evs).Slot :=
  Run.run_induction (I := fun _ s => State.Slot s) State.slot_start fun _ ev _ _ h => h.step ev

theorem inv_run (evs : List Event) : State.Inv (Collected evs) (run evs) := by
  refine Run.run_induction (I := fun _ s => State.Inv (Collected evs) s) State.inv_start ?_
  intro pre ev post he h
  refine h.step fun k elapsed call hev hk hp c hc => ?_
  subst hev
  exact ⟨pre, elapsed, post, call, he, hk, hp, hc⟩

theorem inv_run_true (evs : List Event) : State.Inv (fun _ _ => True) (run evs) :=
  Run.run_induction (I := fun _ s => State.Inv (fun _ _ => True) s) State.inv_start
    fun _ _ _ _ h => h.step fun _ _ _ _ _ _ _ _ => trivial

/-- In every run: a call that returned true had looked at the registry while some console was
attached that had said nothing yet; this console then took exactly the request of the call, its
operator was shown the name and the code of the call, and the first answer was yes. And no two calls
are outstanding at a time. -/
theorem confirm_only_approved (evs : List Event) :
    (∀ (k : Nat) (call : Call), (run evs).calls[k]? = some call → call.phase = .returned true →
      ∃ (c : Nat) (con : Console) (pre post : List Event) (elapsed : Bool) (call₀ : Call),
        evs = pre ++ .proceed k elapsed :: post ∧
        (run pre).calls[k]? = some call₀ ∧ call₀.phase = .collecting ∧
        c ∈ (run pre).registry ∧
        (∀ con₀, (run pre).consoles[c]? = some con₀ → con₀.cli.sent = []) ∧
        (run evs).consoles[c]? = some con ∧ con.took = some (call.request k) ∧
        con.cli.prompt = some (call.displayName, call.code) ∧
        con.cli.sent.head? = some (.response true)) ∧
    ∀ (j k : Nat) (a b : Call), (run evs).calls[j]? = some a → (run evs).calls[k]? = some b →
      a.outstanding = true → b.outstanding = true → j = k := by
  refine ⟨fun k call hk hp => ?_, (slot_run evs).one⟩
  obtain ⟨call', c, con, hk', hmem, hc, htook, hprompt, hsent⟩ :=
    (inv_run evs).approved k call hk (.inr hp)
  obtain rfl := Option.some.inj (hk'.symm.trans hk)
  obtain ⟨pre, elapsed, post, call₀, he, hk₀, hp₀, hreg⟩ :=
    (inv_run evs).collected k call' hk c hmem
  refine ⟨c, con, pre, post, elapsed, call₀, he, hk₀, hp₀, hreg, fun con₀ hc₀ => ?_, hc, htook,
    hprompt, hsent⟩
  have hinv := inv_run_true pre
  have hok := hinv.consoles c con₀ hc₀
  have hnone : con₀.took = none := by
    by_contra hsome
    obtain ⟨r, hr⟩ := Option.ne_none_iff_exists'.mp hsome
    -- The request would be the one of call `k`, which has not collected any console.
    obtain ⟨con₁, hc₁, hle⟩ := State.le_run hinv hc₀ (.proceed k elapsed :: post)
    have hrun : Run.run State.step (run pre) (.proceed k elapsed :: post) = run evs := by
      rw [he, run, run, Run.run_append]
    rw [hrun] at hc₁
    obtain rfl := Option.some.inj (hc₁.symm.trans hc)
    obtain rfl : call'.request k = r := Option.some.inj (htook.symm.trans (hle.took r hr))
    obtain ⟨call₁, hk₁, -, hmem₁⟩ := hinv.asked c con₀ _ hc₀ (.inr hr)
    obtain rfl := Option.some.inj (hk₁.symm.trans hk₀)
    simp [hinv.fresh k call₁ hk₀ hp₀] at hmem₁
  refine hok.silent ?_
  by_contra hq
  obtain ⟨q, hq⟩ := Option.ne_none_iff_exists'.mp hq
  obtain ⟨r, hr, -⟩ := hok.shown q hq
  simp [hnone] at hr

/-- The first request times out while its operator looks at it. The second goes to that console as
well, and to a new one. The late yes to the first one counts for nothing, and the second call waits
for its own. -/
def lateYes : List Event :=
  [.attach, .confirm ⟨1⟩ "phone" "111111", .proceed 0 false, .proceed 0 false, .proceed 0 false,
    .serve 0 false true, .serve 0 false true, .promptPairingMatch 0, .proceed 0 true,
    .attach, .confirm ⟨2⟩ "tablet" "222222", .proceed 1 false, .proceed 1 false, .proceed 1 false,
    .proceed 1 false, .respond 0 (.response true), .serve 0 false true, .serve 0 false true,
    .serve 0 false true, .serve 0 false true, .proceed 1 false]

/-- The second call gets its own `yes`. -/
def secondYes : List Event :=
  lateYes ++ [.serve 1 false true, .serve 1 false true, .promptPairingMatch 1,
    .respond 1 (.response true), .serve 1 false true, .serve 1 false true, .proceed 1 false]

theorem confirm_only_approved_second_yes :
    (run lateYes).calls.map (·.phase) = [.returned false, .waiting] ∧
    (run secondYes).calls.map (·.phase) = [.returned false, .returned true] ∧
    ∃ (c : Nat) (con : Console), (run secondYes).consoles[c]? = some con ∧
      con.took = some ⟨⟨2⟩, "tablet", "222222", 1⟩ ∧
      con.cli.sent.head? = some (.response true) := by
  refine ⟨by decide, by decide, ?_⟩
  obtain ⟨c, con, -, -, -, -, -, -, -, -, -, hc, ht, -, hs⟩ :=
    (confirm_only_approved secondYes).1 1
      { deviceId := ⟨2⟩, displayName := "tablet", code := "222222", targets := [0, 1],
        replies := [true], phase := .returned true } (by decide) rfl
  exact ⟨c, con, hc, ht, hs⟩

end PairConfirm

end Portty
