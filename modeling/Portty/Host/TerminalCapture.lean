import Mathlib.Algebra.GroupWithZero.Nat
import Mathlib.Logic.Function.Basic
import Portty.Lib.Utf8
import Portty.Transport.Types

/-!
# The output of a terminal command (`session.rs`)

Two tasks read what a command writes, one for each of its streams, decode what they have read and
append it to one output that keeps its end. A text is its characters; its length is counted in bytes
of UTF-8.

* `decodeLoop_spec`: the bytes that are left over are read again with those that follow, so that the
  pieces of a stream are the lossy reading of the whole stream.
* `Longest.append`, `longest_cut`: cutting after each piece leaves what cutting the whole text would
  leave.
* `terminal_capture`: both, for every interleaving of the two tasks and every way the reads split
  the streams.
-/

namespace Portty.TerminalCapture

open Utf8

/-- A `String`. -/
abbrev Text := List Char

/-- `String::len` -/
def byteLen (text : Text) : Nat := (text.map Char.utf8Size).sum

/-! ## `decode_terminal_utf8` -/

/-- The `while` loop: what was decoded, and the bytes that are left over. -/
def decodeLoop : Nat → Bytes → Option (Text × Bytes)
  | 0, _ => none
  | fuel + 1, pending =>
    if pending.isEmpty then some ([], [])
    else
      match fromUtf8 pending with
      | .ok text => some (text, [])
      | .error e =>
        -- `expect("valid_up_to is valid UTF-8")`
        match fromUtf8 (pending.take e.validUpTo) with
        | .error _ => none
        | .ok valid =>
          match e.errorLen with
          | some invalid =>
            (decodeLoop fuel (pending.drop (e.validUpTo + invalid))).map fun p => (valid ++ replacement :: p.1, p.2)
          | none => some (valid, pending.drop e.validUpTo)

/-- What was decoded, and the new `pending`. `None` is a panic. -/
def decodeTerminalUtf8 (pending bytes : Bytes) (eof : Bool) : Option (Text × Bytes) :=
  (decodeLoop ((pending ++ bytes).length + 1) (pending ++ bytes)).map fun p =>
    if eof && !p.2.isEmpty then (p.1 ++ lossy p.2, []) else p

/-! ## `append_terminal_output` -/

/-- What the task of a terminal has of its output. -/
structure AcpTerminalState where
  output : Text := []
  truncated : Bool := false
  outputLimit : Nat := 0
  deriving DecidableEq

/-- A character begins at this byte, or the text ends there. -/
def isCharBoundary : Text → Nat → Bool
  | _, 0 => true
  | [], _ + 1 => false
  | c :: text, n => c.utf8Size ≤ n && isCharBoundary text (n - c.utf8Size)

/-- The `while` loop: the next boundary. -/
def nextBoundary (text : Text) : Nat → Nat → Nat
  | 0, remove => remove
  | fuel + 1, remove =>
    if remove < byteLen text && !isCharBoundary text remove then nextBoundary text fuel (remove + 1) else remove

/-- `drain(..n)`, at a boundary. -/
def drain : Text → Nat → Text
  | text, 0 => text
  | [], _ + 1 => []
  | c :: text, n + 1 => drain text (n + 1 - c.utf8Size)

/-- The text is taken, and the oldest output beyond the limit goes. -/
def appendTerminalOutput (state : AcpTerminalState) (text : Text) : AcpTerminalState :=
  let output := state.output ++ text
  if byteLen output > state.outputLimit then
    let remove := byteLen output - state.outputLimit
    { state with output := drain output (nextBoundary output (byteLen output - remove) remove), truncated := true }
  else { state with output }

/-! ## The two tasks -/

/-- The pipes of the process. -/
inductive Source where
  | stdout
  | stderr
  deriving DecidableEq, Repr

/-- The other pipe. -/
def Source.other : Source → Source
  | .stdout => .stderr
  | .stderr => .stdout

/-- The state, and for each pipe the bytes that are held back and what was read. -/
structure World where
  state : AcpTerminalState := {}
  pending : Source → Bytes := fun _ => []
  /-- The task has left its loop. -/
  ended : Source → Bool := fun _ => false
  /-- What was read so far. -/
  bytes : Source → Bytes := fun _ => []
  /-- What was appended so far. -/
  pieces : List (Source × Text) := []

/-- What a read of a pipe brings. -/
inductive Event where
  | read (source : Source) (bytes : Bytes)
  /-- `Ok(0)` or `Err(_)` -/
  | finish (source : Source)

/-- A task decodes and appends. -/
def World.capture (w : World) (source : Source) (bytes : Bytes) (eof : Bool) : Option World :=
  (decodeTerminalUtf8 (w.pending source) bytes eof).map fun p =>
    { state := appendTerminalOutput w.state p.1
      pending := Function.update w.pending source p.2
      ended := Function.update w.ended source eof
      bytes := Function.update w.bytes source (w.bytes source ++ bytes)
      pieces := w.pieces ++ [(source, p.1)] }

/-- A pipe that has ended brings nothing more. -/
def World.step (w : World) : Event → Option World
  | .read source bytes => if w.ended source then some w else w.capture source bytes false
  | .finish source => if w.ended source then some w else w.capture source [] true

/-- A terminal with the limit of its request. -/
def start (limit : Nat) : World := { state := { outputLimit := limit } }

/-- What the command writes to a stream: what the reads of it return, up to its end. -/
def streamOf (source : Source) : List Event → Bytes
  | [] => []
  | .read s bytes :: events => (if s = source then bytes else []) ++ streamOf source events
  | .finish s :: events => if s = source then [] else streamOf source events

/-- The end of the stream is read. -/
def finished (source : Source) : List Event → Bool
  | [] => false
  | .read _ _ :: events => finished source events
  | .finish s :: events => s = source || finished source events

/-- What was decoded of a stream. -/
def World.decoded (w : World) (source : Source) : Text :=
  (w.pieces.filter (·.1 = source)).flatMap (·.2)

/-- What both tasks have appended. -/
def World.text (w : World) : Text := w.pieces.flatMap (·.2)

/-! ## The pieces of a stream -/

variable {pending bytes left : Bytes} {text out : Text} {limit : Nat}

/-- What is decoded now and what is held back, whatever comes later. -/
theorem decodeLoop_spec (fuel : Nat) (pending : Bytes) (h : pending.length < fuel) : ∃ out left,
    decodeLoop fuel pending = some (out, left) ∧ ∀ later,
      lossy (pending ++ later) = out ++ lossy (left ++ later) := by
  induction fuel generalizing pending with
  | zero => omega
  | succ fuel ih =>
    rw [decodeLoop]
    cases hp : pending with
    | nil => exact ⟨[], [], rfl, fun _ => rfl⟩
    | cons b rest =>
      rw [← hp, if_neg (by rw [hp]; exact Bool.false_ne_true)]
      cases hf : fromUtf8 pending with
      | ok text => exact ⟨text, [], rfl, fromUtf8_ok hf⟩
      | error e =>
        obtain ⟨valid, hb⟩ := fromUtf8_error hf
        simp only [hb.valid]
        cases he : e.errorLen with
        | none => exact ⟨valid, _, rfl, hb.incomplete he⟩
        | some invalid =>
          obtain ⟨hpos, hl⟩ := hb.invalid invalid he
          have hle := hb.le_length
          rw [he, Option.getD_some] at hle
          obtain ⟨out, left, hd, hs⟩ :=
            ih (pending.drop (e.validUpTo + invalid)) (by rw [List.length_drop]; omega)
          refine ⟨valid ++ replacement :: out, left, by simp only [hd, Option.map_some], fun later => ?_⟩
          rw [hl later, hs later, List.append_assoc, List.cons_append]

/-- A read in the middle of a stream. -/
theorem decode_more (pending bytes : Bytes) : ∃ out left,
    decodeTerminalUtf8 pending bytes false = some (out, left) ∧
      ∀ later, lossy (pending ++ bytes ++ later) = out ++ lossy (left ++ later) := by
  obtain ⟨out, left, hd, hs⟩ := decodeLoop_spec _ (pending ++ bytes) (Nat.lt_succ_self _)
  exact ⟨out, left, by rw [decodeTerminalUtf8, hd]; rfl, hs⟩

/-- The end of a stream. -/
theorem decode_end (pending : Bytes) :
    decodeTerminalUtf8 pending [] true = some (lossy pending, []) := by
  obtain ⟨out, left, hd, hs⟩ := decodeLoop_spec _ (pending ++ []) (Nat.lt_succ_self _)
  have hs := hs []
  rw [List.append_nil, List.append_nil, List.append_nil] at hs
  rw [decodeTerminalUtf8, hd, Option.map_some, Bool.true_and, hs]
  cases left with
  | nil => simp [lossy]
  | cons b left => rfl

/-! ## The end of a text -/

variable {kept x y : Text} {n m fuel : Nat}

@[simp] theorem byteLen_nil : byteLen [] = 0 := rfl

@[simp] theorem byteLen_cons (c : Char) (text : Text) :
    byteLen (c :: text) = c.utf8Size + byteLen text := rfl

@[simp] theorem byteLen_append (x y : Text) : byteLen (x ++ y) = byteLen x + byteLen y := by
  simp [byteLen]

theorem byteLen_pos (h : x ≠ []) : 0 < byteLen x := by
  obtain ⟨c, text, rfl⟩ := List.exists_cons_of_ne_nil h
  have := c.utf8Size_pos
  rw [byteLen_cons]
  omega

/-- A boundary parts the text between two characters. -/
theorem isCharBoundary_iff :
    isCharBoundary text n = true ↔ ∃ y x, text = y ++ x ∧ byteLen y = n := by
  induction text generalizing n with
  | nil =>
    cases n with
    | zero => simp [isCharBoundary]
    | succ n => simp [isCharBoundary]
  | cons c text ih =>
    cases n with
    | zero => exact ⟨fun _ => ⟨[], c :: text, rfl, rfl⟩, fun _ => rfl⟩
    | succ n =>
      show (decide (c.utf8Size ≤ n + 1) && isCharBoundary text (n + 1 - c.utf8Size)) = true ↔ _
      rw [Bool.and_eq_true, decide_eq_true_eq, ih]
      constructor
      · rintro ⟨hle, y, x, rfl, hy⟩
        exact ⟨c :: y, x, rfl, by rw [byteLen_cons]; omega⟩
      · rintro ⟨y, x, he, hy⟩
        cases y with
        | nil => cases hy
        | cons d y =>
          rw [List.cons_append, List.cons.injEq] at he
          obtain ⟨rfl, rfl⟩ := he
          rw [byteLen_cons] at hy
          exact ⟨by omega, y, x, rfl, by omega⟩

theorem drain_append (y x : Text) : drain (y ++ x) (byteLen y) = x := by
  induction y with
  | nil => cases x <;> rfl
  | cons c y ih =>
    have hpos := c.utf8Size_pos
    obtain ⟨k, hk⟩ : ∃ k, byteLen (c :: y) = k + 1 :=
      ⟨byteLen (c :: y) - 1, by rw [byteLen_cons]; omega⟩
    rw [hk, List.cons_append, drain, ← hk, byteLen_cons, Nat.add_sub_cancel_left, ih]

/-- The loop stops at the first boundary. -/
theorem nextBoundary_spec (hle : n ≤ byteLen text) (hf : byteLen text ≤ n + fuel) :
    n ≤ nextBoundary text fuel n ∧ isCharBoundary text (nextBoundary text fuel n) = true ∧
      ∀ k, n ≤ k → k < nextBoundary text fuel n → isCharBoundary text k = false := by
  have hend : isCharBoundary text (byteLen text) = true :=
    isCharBoundary_iff.mpr ⟨text, [], (List.append_nil _).symm, rfl⟩
  induction fuel generalizing n with
  | zero =>
    obtain rfl : n = byteLen text := by omega
    exact ⟨Nat.le_refl _, hend, fun k h₁ h₂ => absurd h₂ (Nat.not_lt_of_le h₁)⟩
  | succ fuel ih =>
    rw [nextBoundary]
    by_cases hb : isCharBoundary text n = true
    · rw [if_neg (by simp [hb])]
      exact ⟨Nat.le_refl _, hb, fun k h₁ h₂ => absurd h₂ (Nat.not_lt_of_le h₁)⟩
    · have hlt : n < byteLen text := Nat.lt_of_le_of_ne hle fun he => hb (he ▸ hend)
      rw [if_pos (by simp [hb, hlt])]
      obtain ⟨h₁, h₂, h₃⟩ := ih (n := n + 1) hlt (by omega)
      refine ⟨by omega, h₂, fun k hk hkm => ?_⟩
      obtain rfl | hk := Nat.eq_or_lt_of_le hk
      · exact Bool.eq_false_iff.mpr hb
      · exact h₃ k hk hkm

/-- The longest end of the text, cut at a character, that fits. -/
structure Longest (limit : Nat) (text kept : Text) : Prop where
  suffix : kept <:+ text
  fits : byteLen kept ≤ limit
  longest : ∀ x, x <:+ text → byteLen x ≤ limit → x <:+ kept

theorem Longest.of_fits (h : byteLen text ≤ limit) : Longest limit text text :=
  ⟨List.suffix_rfl, h, fun _ hx _ => hx⟩

/-- What is appended to the kept end of a text can be cut with it. -/
theorem Longest.append (h : Longest limit text kept) (h' : Longest limit (kept ++ out) x) :
    Longest limit (text ++ out) x := by
  refine ⟨?_, h'.fits, fun y hy hle => h'.longest y ?_ hle⟩
  · obtain ⟨cut, hcut⟩ := h.suffix
    exact h'.suffix.trans ⟨cut, by rw [← hcut, List.append_assoc]⟩
  · obtain hshort | hlong := List.suffix_or_suffix_of_suffix hy (List.suffix_append text out)
    · exact hshort.trans (List.suffix_append _ _)
    · -- It ends in what was appended, and what is before that fits too.
      obtain ⟨z, rfl⟩ := hlong
      rw [List.suffix_append_self_iff] at hy ⊢
      rw [byteLen_append] at hle
      exact h.longest z hy (by omega)

/-- The cut leaves the longest end that fits. -/
theorem longest_cut (h : limit < byteLen text) : Longest limit text
    (drain text (nextBoundary text (byteLen text - (byteLen text - limit)) (byteLen text - limit))) := by
  obtain ⟨hle, hb, hmin⟩ := nextBoundary_spec (Nat.sub_le (byteLen text) limit)
    (by omega : byteLen text ≤ byteLen text - limit + (byteLen text - (byteLen text - limit)))
  obtain ⟨y, x, he, hy⟩ := isCharBoundary_iff.mp hb
  have hlen := congrArg byteLen he
  rw [byteLen_append] at hlen
  rw [← hy]
  rw [← hy] at hle hmin
  generalize hn : byteLen text - limit = n at *
  clear hy hb
  subst he
  rw [drain_append]
  refine ⟨List.suffix_append _ _, by omega, fun z hz hfits => ?_⟩
  obtain hshort | ⟨w, hw⟩ := List.suffix_or_suffix_of_suffix hz (List.suffix_append y x)
  · exact hshort
  · -- A longer end would start at an earlier boundary.
    obtain ⟨v, hv⟩ := hz
    have hvw : y = v ++ w := List.append_cancel_right (by rw [List.append_assoc, hw, hv])
    by_cases hnil : w = []
    · rw [← hw, hnil]
      exact List.suffix_rfl
    · have hpos := byteLen_pos hnil
      have hy := congrArg byteLen hvw
      have hz := congrArg byteLen hw
      rw [byteLen_append] at hy hz
      have hfalse := hmin (byteLen v) (by omega) (by omega)
      have htrue : isCharBoundary (y ++ x) (byteLen v) = true :=
        isCharBoundary_iff.mpr ⟨v, z, hv.symm, rfl⟩
      rw [htrue] at hfalse
      cases hfalse

/-- The output is the end of the text, and `truncated` says whether it is not all of it. -/
structure Retains (state : AcpTerminalState) (text : Text) : Prop where
  longest : Longest state.outputLimit text state.output
  truncated : state.truncated = true ↔ state.output ≠ text

/-- After more output the longest end of all of it is left. -/
theorem Retains.append {state : AcpTerminalState} (h : Retains state text) (out : Text) :
    Retains (appendTerminalOutput state out) (text ++ out) := by
  unfold appendTerminalOutput
  dsimp only
  by_cases hlt : byteLen (state.output ++ out) > state.outputLimit
  · rw [if_pos hlt]
    have hcut := h.longest.append (longest_cut hlt)
    refine ⟨hcut, iff_of_true rfl fun heq => ?_⟩
    have hlen := (h.longest.suffix).length_le
    have hfits := hcut.fits
    dsimp only at heq
    rw [heq, byteLen_append] at hfits
    obtain ⟨cut, hsuf⟩ := h.longest.suffix
    rw [← hsuf, byteLen_append] at hfits
    rw [byteLen_append] at hlt
    omega
  · rw [if_neg hlt]
    refine ⟨h.longest.append (Longest.of_fits (not_lt.mp hlt)), h.truncated.trans (not_congr ?_)⟩
    exact (List.append_left_inj out).symm

/-! ## Runs -/

variable {w w' : World} {source : Source} {e : Event}

/-- What is decoded of a stream so far is the lossy reading of it, apart from the bytes left over.
-/
structure Inv (w : World) : Prop where
  running : ∀ s, w.ended s = false → ∀ later,
    lossy (w.bytes s ++ later) = w.decoded s ++ lossy (w.pending s ++ later)
  ended : ∀ s, w.ended s = true → lossy (w.bytes s) = w.decoded s
  retains : Retains w.state w.text

theorem decoded_snoc (w : World) (source s : Source) (out : Text) :
    ((w.pieces ++ [(source, out)]).filter (·.1 = s)).flatMap (·.2) =
      if s = source then w.decoded s ++ out else w.decoded s := by
  rw [List.filter_append, List.flatMap_append]
  by_cases hs : s = source
  · rw [if_pos hs, hs]
    simp [World.decoded]
  · rw [if_neg hs]
    simp [World.decoded, Ne.symm hs]

/-- A task appends a piece, and what it leaves over is read again. -/
theorem Inv.piece (h : Inv w) (hr : w.ended source = false) {bytes left : Bytes} {out : Text}
    {eof : Bool}
    (hd : decodeTerminalUtf8 (w.pending source) bytes eof = some (out, left))
    (hmore : eof = false → ∀ later, lossy (w.pending source ++ bytes ++ later) = out ++ lossy (left ++ later))
    (hend : eof = true → lossy (w.pending source ++ bytes) = out) :
    ∃ w', w.capture source bytes eof = some w' ∧ Inv w' ∧
      w'.state.outputLimit = w.state.outputLimit := by
  have hread := h.running source hr
  refine ⟨_, by rw [World.capture, hd, Option.map_some], ⟨fun s hs later => ?_, fun s hs => ?_, ?_⟩, ?_⟩
  · rw [World.decoded, decoded_snoc]
    by_cases he : s = source
    · subst he
      simp only [Function.update_self] at hs ⊢
      rw [if_true, List.append_assoc, hread, ← List.append_assoc, hmore hs, List.append_assoc]
    · simp only [Function.update_of_ne he] at hs ⊢
      rw [if_neg he]
      exact h.running s hs later
  · rw [World.decoded, decoded_snoc]
    by_cases he : s = source
    · subst he
      simp only [Function.update_self] at hs ⊢
      rw [if_true, hread, hend hs]
    · simp only [Function.update_of_ne he] at hs ⊢
      rw [if_neg he]
      exact h.ended s hs
  · have hr := h.retains.append out
    simpa only [World.text, List.flatMap_append, List.flatMap_singleton] using hr
  · dsimp only [appendTerminalOutput]
    split <;> rfl

theorem Inv.capture (h : Inv w) (hr : w.ended source = false) {bytes : Bytes} {eof : Bool}
    (hb : eof = true → bytes = []) : ∃ w', w.capture source bytes eof = some w' ∧ Inv w' ∧
      w'.state.outputLimit = w.state.outputLimit := by
  cases eof with
  | false =>
    obtain ⟨out, left, hd, hs⟩ := decode_more (w.pending source) bytes
    exact h.piece hr hd (fun _ => hs) nofun
  | true =>
    rw [hb rfl]
    exact h.piece hr (decode_end _) nofun fun _ => by rw [List.append_nil]

theorem inv_start (limit : Nat) : Inv (start limit) where
  running _ _ _ := rfl
  ended _ h := Bool.noConfusion h
  retains := ⟨Longest.of_fits (Nat.zero_le _), iff_of_false Bool.false_ne_true fun h => h rfl⟩

theorem Inv.step (h : Inv w) (e : Event) : ∃ w', w.step e = some w' ∧ Inv w' ∧
    w'.state.outputLimit = w.state.outputLimit := by
  cases e with
  | read source bytes =>
    rw [World.step]
    by_cases hr : w.ended source = true
    · rw [if_pos hr]
      exact ⟨w, rfl, h, rfl⟩
    · rw [if_neg hr]
      exact h.capture (Bool.eq_false_iff.mpr hr) nofun
  | finish source =>
    rw [World.step]
    by_cases hr : w.ended source = true
    · rw [if_pos hr]
      exact ⟨w, rfl, h, rfl⟩
    · rw [if_neg hr]
      exact h.capture (Bool.eq_false_iff.mpr hr) fun _ => rfl

theorem inv_run (limit : Nat) (events : List Event) : ∃ w,
    events.foldlM World.step (start limit) = some w ∧ Inv w ∧ w.state.outputLimit = limit := by
  suffices h : ∀ w, Inv w → ∃ w', events.foldlM World.step w = some w' ∧ Inv w' ∧
      w'.state.outputLimit = w.state.outputLimit from h _ (inv_start limit)
  induction events with
  | nil => exact fun w h => ⟨w, rfl, h, rfl⟩
  | cons e events ih =>
    intro w h
    obtain ⟨w₁, hs, h₁, hl₁⟩ := h.step e
    obtain ⟨w₂, hr, h₂, hl₂⟩ := ih w₁ h₁
    refine ⟨w₂, ?_, h₂, hl₂.trans hl₁⟩
    rw [List.foldlM_cons, hs]
    exact hr

/-- A step keeps what was read of a stream that has ended, else it adds what its event is of. -/
theorem World.step_read {w w' : World} {e : Event} (h : w.step e = some w') (source : Source) :
    w'.ended source = (w.ended source || finished source [e]) ∧
      w'.bytes source = w.bytes source ++ if w.ended source then [] else streamOf source [e] := by
  have hcapture : ∀ {s : Source} {bytes : Bytes} {eof : Bool}, w.capture s bytes eof = some w' →
      w'.ended = Function.update w.ended s eof ∧
        w'.bytes = Function.update w.bytes s (w.bytes s ++ bytes) := fun hc => by
    obtain ⟨p, -, rfl⟩ := Option.map_eq_some_iff.mp hc
    exact ⟨rfl, rfl⟩
  cases e with
  | read s _ | finish s =>
    rw [World.step] at h
    split at h
    next hended =>
      cases h
      by_cases hs : s = source
      · rw [← hs]
        simp [hended]
      · simp [finished, streamOf, hs]
    next hended =>
      obtain ⟨he, hb⟩ := hcapture h
      rw [he, hb]
      by_cases hs : s = source
      · subst hs
        simp [finished, streamOf, hended]
      · simp [finished, streamOf, hs, Function.update_of_ne (Ne.symm hs)]

/-- What a run has read of a stream is what the events say. -/
theorem read_run {w w' : World} {events : List Event} (h : events.foldlM World.step w = some w')
    (source : Source) :
    w'.ended source = (w.ended source || finished source events) ∧
      w'.bytes source = w.bytes source ++ if w.ended source then [] else streamOf source events := by
  induction events generalizing w with
  | nil =>
    cases h
    simp [finished, streamOf]
  | cons e events ih =>
    obtain ⟨w₁, hstep, hrun⟩ := Option.bind_eq_some_iff.mp h
    obtain ⟨hended, hbytes⟩ := World.step_read hstep source
    obtain ⟨hended', hbytes'⟩ := ih hrun
    rw [hended', hbytes', hended, hbytes]
    cases e with
    | read s bytes => cases w.ended source <;> simp [finished, streamOf]
    | finish s =>
      by_cases hs : s = source <;> cases w.ended source <;> simp [finished, streamOf, hs]

theorem lossy_nil : lossy [] = [] := by rw [lossy]

/-- A stream without bytes adds nothing. -/
theorem Inv.decoded_nil (h : Inv w) (hb : w.bytes source = []) : w.decoded source = [] := by
  by_cases he : w.ended source = true
  · rw [← h.ended source he, hb, lossy_nil]
  · have hr := h.running source (Bool.eq_false_iff.mpr he) []
    rw [hb, List.append_nil, lossy_nil] at hr
    exact (List.append_eq_nil_iff.mp hr.symm).1

theorem Source.eq_or_other (s source : Source) : s = source ∨ s = source.other := by
  cases s <;> cases source <;> decide

theorem Source.other_ne (source : Source) : source ≠ source.other := by
  cases source <;> decide

theorem text_of_decoded_nil (h : w.decoded source.other = []) : w.text = w.decoded source := by
  unfold World.decoded at h ⊢
  unfold World.text
  generalize w.pieces = pieces at h ⊢
  induction pieces with
  | nil => rfl
  | cons p pieces ih =>
    obtain ⟨s, out⟩ := p
    obtain rfl | rfl := s.eq_or_other source
    · rw [List.filter_cons_of_neg (by simpa using s.other_ne)] at h
      rw [List.filter_cons_of_pos (by simp), List.flatMap_cons, List.flatMap_cons, ih h]
    · rw [List.filter_cons_of_pos (by simp), List.flatMap_cons, List.append_eq_nil_iff] at h
      rw [List.filter_cons_of_neg (by simpa using source.other_ne.symm), List.flatMap_cons, h.1,
        List.nil_append, ih h.2]

/-- However the reads split the streams and whatever comes first: nothing panics, the pieces of a
stream that has ended are the lossy reading of all that was written to it, and the output is the
longest end of the text that fits. -/
theorem terminal_capture (limit : Nat) (events : List Event) : ∃ w,
    events.foldlM World.step (start limit) = some w ∧
      (∀ source, finished source events = true →
        w.decoded source = lossy (streamOf source events)) ∧
      Longest limit w.text w.state.output ∧ (w.state.truncated = true ↔ w.state.output ≠ w.text) ∧
      ∀ source, finished source events = true → streamOf source.other events = [] →
        Longest limit (lossy (streamOf source events)) w.state.output := by
  obtain ⟨w, hw, h, hl⟩ := inv_run limit events
  have hended : ∀ source, w.ended source = finished source events := fun s => (read_run hw s).1
  have hbytes : ∀ source, w.bytes source = streamOf source events := fun s => (read_run hw s).2
  have hlong := h.retains.longest
  rw [hl] at hlong
  refine ⟨w, hw, fun s hs => ?_, hlong, h.retains.truncated, fun s hs hb => ?_⟩
  · rw [← hbytes, h.ended s ((hended s).trans hs)]
  · rw [← hbytes, h.ended s ((hended s).trans hs)]
    rw [← hbytes] at hb
    rw [← text_of_decoded_nil (h.decoded_nil hb)]
    exact hlong

end Portty.TerminalCapture
