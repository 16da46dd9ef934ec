import Mathlib.Data.List.Basic

/-!
# The turns of an agent session (`session.rs`)

Viewers put commands into the bounded channel of an agent session (`agent_prompt`, `agent_cancel`,
`send_agent_command`). The driver (`run_acp_session`) connects to the adapter, takes the commands
out and sends the prompts, one turn at a time; when a connection ends it starts another one or gives
up.

A state of the driver is the point of `run_acp_session` at which it awaits something (`Phase`).
Events are what it can await: a command, the answer of a request, the end of the connection. The log
has the events of the timeline, and between them what happened to the accepted prompts, which are
numbered in the order of their acceptance.
-/

namespace Portty.Host.AgentTurn

/-! ## Commands of viewers -/

/-- The longest prompt. -/
def maxAgentPromptBytes : Nat := 64 * 1024

/-- The commands that the channel holds. -/
def agentPromptQueue : Nat := 16

/-- The longest id in a command. -/
def maxAgentShortTextBytes : Nat := 1024

/-- A prompt that was accepted, with its number. -/
structure Prompt where
  number : Nat
  text : String
  deriving DecidableEq, Repr

/-- The commands other than prompts. -/
inductive Control where
  | cancel
  | setMode (modeId : String)
  | setConfig (configId value : String)
  | authenticate (methodId : String)
  deriving DecidableEq, Repr

/-- `AcpCommand` -/
inductive Command where
  | prompt (p : Prompt)
  | control (c : Control)
  deriving DecidableEq, Repr

/-- What `agent_prompt` reads of the sticky events: the id of the model option, and the names of the
advertised commands. -/
structure Sticky where
  model : Option String := none
  commands : Option (List String) := none
  deriving DecidableEq, Repr

/-- `char::is_whitespace` -/
def isWhitespace (c : Char) : Bool :=
  (9 ≤ c.toNat ∧ c.toNat ≤ 13) ∨ (0x2000 ≤ c.toNat ∧ c.toNat ≤ 0x200A) ∨
    c.toNat ∈ [0x20, 0x85, 0xA0, 0x1680, 0x2028, 0x2029, 0x202F, 0x205F, 0x3000]

/-- White space at the beginning is dropped. -/
def trimStart (text : List Char) : List Char := text.dropWhile isWhitespace

/-- White space at both ends is dropped. -/
def trim (text : List Char) : List Char := (trimStart (trimStart text).reverse).reverse

/-- `char::is_ascii_alphanumeric` and the marks of a command name. -/
def isCommandChar (c : Char) : Bool := c.isAlphanum ∨ c = '-' ∨ c = '_' ∨ c = ':'

/-- What a text asks for: a prompt, or a control of the host. `none` is an error. -/
inductive Asked where
  | prompt
  | control (c : Control)
  deriving DecidableEq, Repr

/-- A prompt that is a command of Portty becomes one, if what it names is there. -/
def agentCommandForText (sticky : Sticky) (text : String) : Option Asked :=
  let trimmed := trim text.toList
  let value (name : String) := trim (trimmed.drop name.length)
  let valid (id : List Char) := id ≠ [] ∧ (String.ofList id).utf8ByteSize ≤ maxAgentShortTextBytes
  if trimmed = "/mode".toList then none
  else if "/mode ".toList.isPrefixOf trimmed then
    let id := value "/mode "
    if valid id then some (.control (.setMode (String.ofList id))) else none
  else if trimmed = "/model".toList then none
  else if "/model ".toList.isPrefixOf trimmed then
    let id := value "/model "
    if valid id then sticky.model.map fun configId => .control (.setConfig configId (String.ofList id))
    else none
  else
    match trimmed with
    | '/' :: command =>
      let name := command.takeWhile (!isWhitespace ·)
      -- Only a name that looks like a command is looked up, and only in a list that was advertised.
      if name ≠ [] ∧ name.all isCommandChar ∧ (sticky.commands.any (!·.contains (String.ofList name))) then
        none
      else some .prompt
    | _ => some .prompt

/-- A prompt that the agent is not to see. -/
def isPorttyControlCommand (text : String) : Bool :=
  let text := trimStart text.toList
  text = "/mode".toList ∨ "/mode ".toList.isPrefixOf text ∨ text = "/model".toList ∨
    "/model ".toList.isPrefixOf text

/-! ## The driver -/

/-- The answer of the agent to a prompt. -/
inductive Answer where
  | finished (stopReason : String)
  | cancelled
  | authRequired (message : String)
  | error (message : String)
  deriving DecidableEq, Repr

/-- The timeline, and what happens to prompts between its events. -/
inductive Entry where
  | accepted (n : Nat)
  | userMessage (text : String)
  | turnStarted
  | sent (n : Nat)
  /-- The prompt is sent again, after a login. -/
  | resent (n : Nat)
  | answered (n : Nat) (answer : Answer)
  | turnFinished (stopReason : String)
  /-- An error; `unsent` is the prompt that was taken and not sent. -/
  | error (message : String) (unsent : Option Nat)
  | authRequired (methods : Bool)
  /-- A cancel discards the prompts queued behind the turn. -/
  | cancelled (unsent : List Nat)
  deriving DecidableEq, Repr

/-- Where `run_acp_session` awaits. -/
inductive Phase where
  /-- Connecting, up to the start of the turn loop. -/
  | setup
  /-- `authenticate_acp_interactively` of the setup: for a command, for the agent. -/
  | setupAuth
  | setupLogin
  /-- The turn loop, for a command. -/
  | idle
  | control (c : Control)
  /-- The `select!` of a turn. -/
  | turn (p : Prompt) (reauthed : Bool)
  | turnControl (p : Prompt) (reauthed : Bool) (c : Control)
  /-- `authenticate_acp_interactively` of a turn. -/
  | turnAuth (p : Prompt)
  | turnLogin (p : Prompt)
  /-- The channel is closed: `turn.await`. -/
  | closing (p : Prompt)
  /-- Before the next connection. -/
  | sleeping
  /-- The loop was left; the receiver is still there. -/
  | ending
  | ended
  deriving DecidableEq, Repr

/-- The driver of an agent, with the log of what it did. -/
structure Driver where
  channel : List Command := []
  /-- References to the handle, which has the only sender of the channel: the driver's and the
  session's. -/
  handles : Nat := 2
  queuedPrompts : List Prompt := []
  phase : Phase := .setup
  /-- The agent has offered login methods. -/
  authMethods : Bool := false
  everEstablished : Bool := false
  teardown : Bool := false
  retryDelaySecs : Nat := 1
  failedAttempts : Nat := 0
  accepted : Nat := 0
  log : List Entry := []
  deriving Repr

/-- What happens to the driver: calls of viewers, steps of its own, answers of the agent. -/
inductive Event where
  /-- `agent_prompt`, with what the history has at that moment. -/
  | agentPrompt (sticky : Sticky) (text : String)
  /-- `send_agent_command` -/
  | command (c : Control)
  /-- A viewer or the manager drops its reference to the session. -/
  | dropHandle
  | initialized (authMethods : Bool)
  /-- A request of the setup is answered with `AuthRequired`. -/
  | setupAuthRequired
  | established
  /-- A command is received, or the end of the channel. If that ends the connection, it had lived
  for `HEALTHY_UPTIME` or not; so below. -/
  | recv (healthy : Bool)
  /-- `recv_acp_command_or_closed` sees that the adapter exited. -/
  | closed (healthy : Bool)
  | answer (r : Answer)
  /-- A control call is answered. -/
  | controlled (error : Option String)
  /-- The authenticate call is answered. -/
  | loggedIn (error : Option String) (healthy : Bool)
  /-- The connection fails. -/
  | lost (error : String) (healthy : Bool)
  | respawn
  /-- The receiver is dropped. -/
  | exit
  deriving Repr

namespace Driver

variable (d : Driver)

/-- Something is logged. -/
def note (e : Entry) : Driver := { d with log := d.log ++ [e] }

/-- The driver goes on at another point. -/
def goto (phase : Phase) : Driver := { d with phase }

/-- `try_send` -/
def trySend (c : Command) : Option Driver :=
  if d.phase = .ended ∨ d.channel.length ≥ agentPromptQueue then none
  else some { d with channel := d.channel ++ [c] }

/-- `none` is an error, and leaves all as it is. -/
def agentPrompt (sticky : Sticky) (text : String) : Option Driver :=
  if trim text.toList = [] ∨ text.utf8ByteSize > maxAgentPromptBytes then none else do
  match ← agentCommandForText sticky text with
  | .prompt =>
    let d' ← d.trySend (.prompt ⟨d.accepted, text⟩)
    let d' := { d' with accepted := d.accepted + 1 }.note (.accepted d.accepted)
    return if isPorttyControlCommand text then d' else d'.note (.userMessage text)
  | .control c =>
    let d' ← d.trySend (.control c)
    return if isPorttyControlCommand text then d' else d'.note (.userMessage text)

/-- A prompt is sent. -/
def startTurn (p : Prompt) : Driver :=
  ((d.note .turnStarted).note (.sent p.number)).goto (.turn p false)

/-- The top of the turn loop: prompts queued during a turn come first. -/
def turnLoop : Driver :=
  match d.queuedPrompts with
  | p :: rest => { d with queuedPrompts := rest }.startTurn p
  | [] => d.goto .idle

/-- The turn is closed, and the next prompt is taken. -/
def finishTurn (stopReason : String) : Driver := (d.note (.turnFinished stopReason)).turnLoop

/-- After that many connections that failed early the driver gives up. -/
def maxFailedAttempts : Nat := 5

/-- `connect_with` has returned: `error` is its error. -/
def settle (error : Option String) (healthy : Bool) : Driver :=
  if d.teardown then d.goto .ending else
  let d := if healthy then { d with failedAttempts := 0, retryDelaySecs := 1 }
    else { d with failedAttempts := d.failedAttempts + 1 }
  if d.failedAttempts ≥ maxFailedAttempts then
    (d.note (.error ("The agent keeps crashing shortly after starting (" ++ toString maxFailedAttempts ++
      " attempts) - close this session and check the adapter installation") none)).goto .ending
  else
  let again (message : String) : Driver :=
    { d.note (.error message none) with
      phase := .sleeping, retryDelaySecs := min (d.retryDelaySecs * 2) 30 }
  match error, d.everEstablished with
  | none, true => again ("Agent connection closed; reconnecting in " ++ toString d.retryDelaySecs ++ "s")
  | none, false => d.goto .ending
  | some error, true =>
    again ("Agent connection lost; reconnecting in " ++ toString d.retryDelaySecs ++ "s: " ++ error)
  | some error, false => (d.note (.error ("Agent connection ended: " ++ error) none)).goto .ending

/-- A command while the driver waits for a login. -/
def refuse (unsent : Option Nat) : Driver :=
  d.note (.error "Authenticate this agent before sending commands" unsent)

/-- The login of a turn failed. -/
def loginFailed : Driver :=
  (d.note (.error "Authentication was cancelled; your message was not sent" none)).finishTurn "error"

/-- `authenticate_acp_interactively` of the setup. -/
def onSetupAuth (c : Command) (healthy : Bool) : Driver :=
  match c with
  | .control (.authenticate _) => d.goto .setupLogin
  | .control .cancel => d.settle (some "request cancelled") healthy
  | .control _ => d.refuse none
  | .prompt p => d.refuse (some p.number)

/-- A command between two turns. -/
def onIdle (c : Command) : Driver :=
  match c with
  | .prompt p => d.startTurn p
  | .control c => d.goto (.control c)

/-- A command during a turn. -/
def onTurn (p : Prompt) (reauthed : Bool) (c : Command) : Driver :=
  match c with
  | .prompt p => { d with queuedPrompts := d.queuedPrompts ++ [p] }
  | .control c =>
    -- A cancel also discards the prompts queued behind the turn.
    let d := if c = .cancel then
      { d.note (.cancelled (d.queuedPrompts.map (·.number))) with queuedPrompts := [] } else d
    d.goto (.turnControl p reauthed c)

/-- `authenticate_acp_interactively` of a turn. -/
def onTurnAuth (p : Prompt) (c : Command) : Driver :=
  match c with
  | .control (.authenticate _) => d.goto (.turnLogin p)
  | .control .cancel => d.loginFailed
  | .control _ => d.refuse none
  | .prompt p => d.refuse (some p.number)

/-- A command that was received, by the point at which the driver is. -/
def onCommand (c : Command) (healthy : Bool) : Driver :=
  match d.phase with
  | .setupAuth => d.onSetupAuth c healthy
  | .idle => d.onIdle c
  | .turn p reauthed => d.onTurn p reauthed c
  | .turnAuth p => d.onTurnAuth p c
  | _ => d

/-- The channel is closed and empty. -/
def onChannelClosed (healthy : Bool) : Driver :=
  match d.phase with
  | .setupAuth => d.settle (some "request cancelled") healthy
  | .idle => { d with teardown := true }.settle none healthy
  | .turn p _ => { d with teardown := true }.goto (.closing p)
  | .turnAuth _ => d.loginFailed
  | _ => d

/-- The driver waits for a command. -/
def receives : Phase → Bool
  | .setupAuth | .idle | .turn .. | .turnAuth _ => true
  | _ => false

/-- The driver takes the next command, or sees the end of the channel. -/
def recv (healthy : Bool) : Driver :=
  if receives d.phase then
    match d.channel with
    | c :: rest => { d with channel := rest }.onCommand c healthy
    | [] => if d.handles = 0 then d.onChannelClosed healthy else d
  else d

/-- The adapter has exited; outside of a login this ends the connection. -/
def closed (healthy : Bool) : Driver :=
  match d.phase with
  | .setupAuth | .idle | .turn .. => d.settle (some "ACP adapter process exited") healthy
  | .turnAuth _ => d.loginFailed
  | _ => d

/-- The request of the turn is answered. -/
def onTurnAnswer (p : Prompt) (reauthed : Bool) (r : Answer) : Driver :=
  let d := d.note (.answered p.number r)
  match r with
  | .finished stopReason => d.finishTurn stopReason
  | .cancelled => d.finishTurn "cancelled"
  | .authRequired message =>
    if d.authMethods ∧ reauthed = false then (d.note (.authRequired true)).goto (.turnAuth p)
    else
      let d := if d.authMethods then d.note (.authRequired true) else d
      (d.note (.error message none)).finishTurn "error"
  | .error message => (d.note (.error message none)).finishTurn "error"

/-- The agent answers the prompt. -/
def onAnswer (r : Answer) : Driver :=
  match d.phase with
  | .turn p reauthed => d.onTurnAnswer p reauthed r
  | .closing p => (d.note (.answered p.number r)).settle none false
  | _ => d

/-- What `apply_acp_control_with_feedback` shows. -/
def feedback (c : Control) (error : Option String) : Driver :=
  match error, c with
  | some error, _ => d.note (.error ("Agent control failed: " ++ error) none)
  | none, .authenticate _ => d.note (.authRequired false)
  | none, _ => d

/-- A control call is answered, and the driver goes on where it was. -/
def controlled (error : Option String) : Driver :=
  match d.phase with
  | .control c => (d.feedback c error).turnLoop
  | .turnControl p reauthed c => (d.feedback c error).goto (.turn p reauthed)
  | _ => d

/-- A login before the session is made. -/
def onSetupLogin (error : Option String) (healthy : Bool) : Driver :=
  match error with
  | none => (d.note (.authRequired false)).goto .setup
  | some error => d.settle (some error) healthy

/-- After the login the same prompt is sent again. -/
def onTurnLogin (p : Prompt) (error : Option String) : Driver :=
  match error with
  | none => ((d.note (.authRequired false)).note (.resent p.number)).goto (.turn p true)
  | some _ => d.loginFailed

/-- A login has ended, in the setup or in a turn. -/
def loggedIn (error : Option String) (healthy : Bool) : Driver :=
  match d.phase with
  | .setupLogin => d.onSetupLogin error healthy
  | .turnLogin p => d.onTurnLogin p error
  | _ => d

/-- There is a connection. -/
def connected : Phase → Bool
  | .sleeping | .ending | .ended => false
  | _ => true

/-- One event. -/
def step : Event → Driver
  | .agentPrompt sticky text => (d.agentPrompt sticky text).getD d
  | .command c => (d.trySend (.control c)).getD d
  -- The driver keeps a reference of its own as long as it runs.
  | .dropHandle => if d.handles > 1 then { d with handles := d.handles - 1 } else d
  | .initialized authMethods => if d.phase = .setup then { d with authMethods } else d
  | .setupAuthRequired =>
    if d.phase = .setup ∧ d.authMethods then (d.note (.authRequired true)).goto .setupAuth else d
  | .established => if d.phase = .setup then { d with everEstablished := true }.turnLoop else d
  | .recv healthy => d.recv healthy
  | .closed healthy => d.closed healthy
  | .answer r => d.onAnswer r
  | .controlled error => d.controlled error
  | .loggedIn error healthy => d.loggedIn error healthy
  | .lost error healthy => if connected d.phase then d.settle (some error) healthy else d
  | .respawn => if d.phase = .sleeping then d.goto .setup else d
  | .exit => if d.phase = .ending then d.goto .ended else d

end Driver

end Portty.Host.AgentTurn
