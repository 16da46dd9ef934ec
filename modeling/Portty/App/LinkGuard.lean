import Mathlib.Data.List.Basic

/-!
# Typing and a link that may be dead (`linkGuard.ts`)

`HeldInput` keeps typing while the link is not known to work. `LinkGuard` routes each piece of input
to the live write path or into it, and decides when what was held is sent or dropped.

A state of the guard has the fields of the class, the probes it has started and the log of what went
in and out: the typed pieces and the calls of `LinkGuardDeps` and of the reports, in order. What a
report does to the guard follows as events of its own: each report is the last thing its method
does.
-/

namespace Portty.App

/-- A JavaScript string: its `length` counts UTF-16 code units. -/
abbrev Text := List UInt16

namespace LinkGuard

/-- The most characters that are held. -/
def maxHeldInputChars : Nat := 8 * 1024

/-- The longest time for which input is held. -/
def maxHeldInputAgeMs : Int := 30000

/-- Why input is held. -/
inductive LinkHold where
  | checking
  | reconnecting
  deriving DecidableEq, Repr

/-- What the user is told about input that was held. -/
inductive Notice where
  /-- `HELD_INPUT_REFUSED` -/
  | heldInputRefused
  /-- `HELD_INPUT_DROPPED` -/
  | heldInputDropped
  /-- `HELD_INPUT_SESSION_GONE` -/
  | heldInputSessionGone
  deriving DecidableEq, Repr

/-- What an attach reports: whether the session is still there, and how much was not sent. -/
structure ReattachOutcome where
  survived : Bool
  unsent : Nat
  deriving DecidableEq, Repr

/-! ## Held input -/

/-- What is sent now, and how much was dropped. -/
structure HeldRelease where
  data : Text
  dropped : Nat
  deriving DecidableEq, Repr

/-- Input that waits for the link, of one session. -/
structure HeldInput where
  chunks : List Text := []
  chars : Nat := 0
  session : Option Nat := none
  since : Int := 0
  spoiled : Bool := false
  maxChars : Nat := maxHeldInputChars
  maxAgeMs : Int := maxHeldInputAgeMs
  deriving DecidableEq, Repr

namespace HeldInput

variable (h : HeldInput)

/-- Nothing is held. -/
def reset : HeldInput :=
  { h with chunks := [], chars := 0, session := none, since := 0, spoiled := false }

/-- The first piece of a hold fixes its session and its age. -/
def begin (session : Nat) (now : Int) : HeldInput :=
  if h.session = none then { h with session := some session, since := now } else h

/-- `false`: the piece was refused, and nothing of the hold will be sent. -/
def hold (session : Nat) (data : Text) (now : Int) : Bool × HeldInput :=
  let h := { h.begin session now with chars := h.chars + data.length }
  if h.spoiled = true ∨ h.session ≠ some session ∨ now - h.since > h.maxAgeMs ∨ h.chars > h.maxChars then
    (false, { h with spoiled := true, chunks := [] })
  else
    (true, { h with chunks := h.chunks ++ [data] })

/-- All that is held, if it is whole, fresh and was typed for the session. -/
def take (session : Nat) (now : Int) : HeldRelease × HeldInput :=
  let whole := h.spoiled = false ∧ h.session = some session ∧ now - h.since ≤ h.maxAgeMs
  (if whole then ⟨h.chunks.flatten, 0⟩ else ⟨[], h.chars⟩, h.reset)

/-- What is held is dropped; how much it was. -/
def clear : Nat × HeldInput := (h.chars, h.reset)

end HeldInput

/-! ## The guard -/

/-- What goes in and out: a typed piece, or a call of `deps` or of a report. -/
inductive Call where
  | typed (session : Nat) (data : Text)
  | deliver (session : Nat) (data : Text)
  | notify (message : Notice)
  | report (outcome : ReattachOutcome)
  | onHold (hold : Option LinkHold)
  | dropLink
  deriving DecidableEq, Repr

/-- The promise of `probeLink`, and the continuation of `verify` on it. -/
inductive Answer where
  | pending
  /-- The first of the ping and the timer settled it. -/
  | resolved (alive : Bool)
  /-- The continuation ran, with `linkSettled()` of that moment. -/
  | done (linkSettled : Bool)
  deriving DecidableEq, Repr

/-- A call of `verify`. -/
structure Probe where
  check : Nat
  session : Option Nat
  answer : Answer := .pending
  deriving DecidableEq, Repr

end LinkGuard

open LinkGuard

/-- The guard with its probes and timers, and the calls that it has made. -/
structure LinkGuard where
  hold : Option LinkHold := none
  check : Nat := 0
  listed : Option (List Nat) := none
  awaiting : Option Nat := none
  /-- The wait has a report. -/
  awaitReport : Bool := false
  awaitTimer : Bool := false
  held : HeldInput := {}
  probes : List Probe := []
  log : List Call := []
  deriving Repr

namespace LinkGuard

/-- The operations, and the promises and timers they wait for. -/
inductive Event where
  | input (session : Nat) (data : Text) (now : Int)
  | verify (session : Option Nat)
  /-- The ping of a probe is answered, or fails. -/
  | ping (i : Nat) (answered : Bool)
  | probeTimeout (i : Nat)
  /-- The continuation of a `verify`. -/
  | checked (i : Nat) (linkSettled : Bool) (now : Int)
  | linkLost (session : Option Nat)
  | sessionsListed (ids : List Nat) (now : Int)
  | reattached (session : Nat) (report : Bool) (now : Int)
  | restored (session : Nat) (now : Int)
  | abandon
  /-- The session list did not come in time. -/
  | awaitTimeout
  deriving Repr

variable (g : LinkGuard)

/-- A call to the outside. -/
def call (c : Call) : LinkGuard := { g with log := g.log ++ [c] }

/-- No attach waits for the list of sessions. -/
def stopAwaiting : LinkGuard :=
  { g with awaitTimer := false, awaiting := none, awaitReport := false }

/-- The hold begins or ends, which is told once. -/
def setHold (hold : Option LinkHold) : LinkGuard :=
  if g.hold = hold then g else { g with hold }.call (.onHold hold)

/-- Input is sent, or held while the link is in doubt. -/
def input (session : Nat) (data : Text) (now : Int) : LinkGuard :=
  let g := g.call (.typed session data)
  if g.hold = none then g.call (.deliver session data) else
  match g.held.hold session data now with
  | (true, held) => { g with held }
  | (false, held) => { g with held }.call (.notify .heldInputRefused)

/-- The hold ends, and what was held is sent to its session. -/
def restored (session : Nat) (now : Int) : LinkGuard :=
  let g := g.stopAwaiting.setHold none
  let (release, held) := g.held.take session now
  let g := { g with held }
  let g := if release.data ≠ [] then g.call (.deliver session release.data) else g
  if release.dropped ≠ 0 then g.call (.notify .heldInputDropped) else g

/-- The hold ends, and what was held is lost. -/
def drop (notice : Notice) : LinkGuard :=
  let g := g.stopAwaiting.setHold none
  let (dropped, held) := g.held.clear
  let g := { g with held }
  if dropped ≠ 0 then g.call (.notify notice) else g

/-- Everything that is held is dropped. -/
def abandon : LinkGuard := g.drop .heldInputDropped

/-- An attach is decided by the list: the session is there, or gone. -/
def settle (session : Nat) (report : Bool) (now : Int) : LinkGuard :=
  if (g.listed.getD []).contains session then
    let g := g.restored session now
    if report then g.call (.report ⟨true, 0⟩) else g
  else if report then
    let g := g.stopAwaiting.setHold none
    let (unsent, held) := g.held.clear
    { g with held }.call (.report ⟨false, unsent⟩)
  else
    g.drop .heldInputSessionGone

/-- A probe of the link starts, and input is held from now on. -/
def verify (session : Option Nat) : LinkGuard :=
  let g := { g with check := g.check + 1 }
  let g := if session ≠ none then g.setHold (some .checking) else g
  { g with probes := g.probes ++ [{ check := g.check, session }] }

/-- A promise is settled once: a later answer changes nothing. -/
def resolve (i : Nat) (alive : Bool) : LinkGuard :=
  { g with probes := g.probes.modify i fun p =>
      if p.answer = .pending then { p with answer := .resolved alive } else p }

/-- The continuation of `verify`. -/
def onAnswer (p : Probe) (alive linkSettled : Bool) (now : Int) : LinkGuard :=
  if p.check ≠ g.check ∨ linkSettled = false then g
  else if alive then
    match p.session with
    | some session => if g.hold = some .checking then g.restored session now else g
    | none => g
  else
    (if g.hold = some .checking then g.setHold (some .reconnecting) else g).call .dropLink

/-- A probe has been answered. Only the newest one counts. -/
def checked (i : Nat) (linkSettled : Bool) (now : Int) : LinkGuard :=
  match g.probes[i]? with
  | some p =>
    match p.answer with
    | .resolved alive =>
      let g :=
        { g with probes := g.probes.modify i fun p => { p with answer := .done linkSettled } }
      g.onAnswer p alive linkSettled now
    | _ => g
  | none => g

/-- The link is gone, and the list of sessions with it. -/
def linkLost (session : Option Nat) : LinkGuard :=
  let g := { g with check := g.check + 1, listed := none }.stopAwaiting
  if session ≠ none then g.setHold (some .reconnecting) else g

/-- The list has come, and an attach that waits for it is decided. -/
def sessionsListed (ids : List Nat) (now : Int) : LinkGuard :=
  let g := { g with listed := some ids }
  match g.awaiting with
  | some session => g.settle session g.awaitReport now
  | none => g

/-- An attach is done, and waits for the list if there is none yet. -/
def reattached (session : Nat) (report : Bool) (now : Int) : LinkGuard :=
  let g := g.stopAwaiting
  if g.listed ≠ none then g.settle session report now
  else { g with awaiting := some session, awaitReport := report, awaitTimer := true }

/-- The timer of `reattached`. -/
def awaitTimeout : LinkGuard :=
  if g.awaitTimer then { g with awaiting := none }.abandon else g

/-- One event. -/
def step : Event → LinkGuard
  | .input session data now => g.input session data now
  | .verify session => g.verify session
  | .ping i answered => g.resolve i answered
  | .probeTimeout i => g.resolve i false
  | .checked i linkSettled now => g.checked i linkSettled now
  | .linkLost session => g.linkLost session
  | .sessionsListed ids now => g.sessionsListed ids now
  | .reattached session report now => g.reattached session report now
  | .restored session now => g.restored session now
  | .abandon => g.abandon
  | .awaitTimeout => g.awaitTimeout

end LinkGuard

end Portty.App
