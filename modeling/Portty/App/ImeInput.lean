import Portty.Lib.Utf16

/-!
# Edits of a keyboard app (`imeInput.ts`)

* **Texts** are their UTF-16 code units, as in the source.
* `cuts`: where `textChange` cuts the two texts (`Cut`: that they agree outside, and that no pair is
  cut).
* `Discipline`: a line that the terminal edits, by what it does for each code point.
* `replacement_typed`: the bytes of a replacement turn the line that has the old text into the one
  with the new text.
-/

namespace Portty.ImeInput

open Utf16

/-- Texts are lists of code units. -/
abbrev Text := List UInt16

/-- What a backspace sends. -/
def del : UInt16 := 0x7F

/-- `"\x1b[3~"` -/
def forwardDelete : Text := [0x1B, 0x5B, 0x33, 0x7E]

/-- An `input` event. -/
structure ImeEditEvent where
  inputType : String
  data : Option Text

/-- `Array.from(text).length` -/
def characterCount (text : Text) : Nat := (points text).length

/-- What was taken away and what was put there. -/
structure TextChange where
  removed : Text
  inserted : Text
  deriving DecidableEq, Repr

/-! ## The source -/

section Source

variable (before after : Text)

/-- The loop over the common start, with `n` units of the shorter text left. -/
def skipStart : (n start : Nat) → Nat
  | 0, start => start
  | n + 1, start => if before[start]? = after[start]? then skipStart n (start + 1) else start

/-- The loop over the common end. -/
def trimEnd (start : Nat) : (endBefore endAfter : Nat) → Nat × Nat
  | endBefore + 1, endAfter + 1 =>
    if start < endBefore + 1 ∧ start < endAfter + 1 ∧ before[endBefore]? = after[endAfter]? then
      trimEnd start endBefore endAfter
    else (endBefore + 1, endAfter + 1)
  | endBefore, endAfter => (endBefore, endAfter)

/-- `start`, moved out of a pair. -/
def startCut : Nat :=
  let shorter := min before.length after.length
  let start := skipStart before after shorter 0
  if 0 < start ∧ before[start - 1]?.any isHigh = true then start - 1 else start

/-- `endBefore` and `endAfter`, moved out of a pair. -/
def endCuts (start : Nat) : Nat × Nat :=
  let ends := trimEnd before after start before.length after.length
  if ends.1 < before.length ∧ before[ends.1]?.any isLow = true then (ends.1 + 1, ends.2 + 1) else ends

/-- `text.slice(start, end)` -/
def slice (text : Text) (i j : Nat) : Text := (text.take j).drop i

/-- What the two texts do not share at their ends. -/
def textChange : TextChange :=
  let start := startCut before after
  let ends := endCuts before after start
  ⟨slice before start ends.1, slice after start ends.2⟩

/-- `text.replace(/\r?\n/g, "\r")` -/
def terminalText : Text → Text
  | [] => []
  | [u] => [if u = 0x0A then 0x0D else u]
  | u :: v :: rest =>
    if u = 0x0D ∧ v = 0x0A then 0x0D :: terminalText rest
    else (if u = 0x0A then 0x0D else u) :: terminalText (v :: rest)

/-- The types that mean Enter. -/
def lineBreaks : List String := ["insertLineBreak", "insertParagraph"]

/-- The types that delete to the left. -/
def backwardDeletes : List String :=
  ["deleteContentBackward", "deleteWordBackward", "deleteSoftLineBackward", "deleteHardLineBackward"]

/-- The types that delete to the right. -/
def forwardDeletes : List String :=
  ["deleteContentForward", "deleteWordForward", "deleteSoftLineForward", "deleteHardLineForward"]

/-- What is sent to the terminal for an event. -/
def imeEditBytes (ev : ImeEditEvent) : Text :=
  let change := textChange before after
  if ev.inputType = "insertText" then terminalText (ev.data.getD change.inserted)
  else if ev.inputType ∈ lineBreaks then [0x0D]
  else if ev.inputType ∈ backwardDeletes then List.replicate (max 1 (characterCount change.removed)) del
  else if ev.inputType ∈ forwardDeletes then
    (List.replicate (max 1 (characterCount change.removed)) forwardDelete).flatten
  else List.replicate (characterCount change.removed) del ++ terminalText change.inserted

/-- An edit that erases what went away and types what came in. -/
def IsReplacement (ev : ImeEditEvent) : Prop :=
  ev.inputType ∉ "insertText" :: (lineBreaks ++ backwardDeletes ++ forwardDeletes)

instance : DecidablePred IsReplacement := fun _ => inferInstanceAs (Decidable (¬ _))

end Source

/-! ## The cuts -/

/-- The texts agree up to `start`, and from the two ends on, and no pair is cut. -/
structure Cut (before after : Text) (start endBefore endAfter : Nat) : Prop where
  le_before : start ≤ endBefore
  le_after : start ≤ endAfter
  common_start : before.take start = after.take start
  common_end : before.drop endBefore = after.drop endAfter
  start_whole : endsHigh (before.take start) = false
  end_whole : startsLow (before.drop endBefore) = false

variable {before after P middle S : Text} {start endBefore endAfter n i j : Nat}

theorem startsLow_drop (text : Text) (i : Nat) : startsLow (text.drop i) = text[i]?.any isLow := by
  rw [startsLow, List.head?_drop]

theorem endsHigh_take {text : Text} (h : i < text.length) :
    endsHigh (text.take (i + 1)) = text[i]?.any isHigh := by
  rw [endsHigh, List.getLast?_take, if_neg (Nat.succ_ne_zero i), Nat.add_sub_cancel,
    List.getElem?_eq_getElem h, Option.some_or]

theorem skipStart_spec (n : Nat) (h : before.take start = after.take start) :
    before.take (skipStart before after n start) = after.take (skipStart before after n start) ∧
      skipStart before after n start ≤ start + n := by
  induction n generalizing start with
  | zero => exact ⟨h, Nat.le_refl _⟩
  | succ n ih =>
    rw [skipStart]
    split_ifs with heq
    · have hnext : before.take (start + 1) = after.take (start + 1) := by
        rw [List.take_add_one, List.take_add_one, h, heq]
      obtain ⟨htake, hle⟩ := ih hnext
      exact ⟨htake, by omega⟩
    · exact ⟨h, by omega⟩

/-- The cut at the front is common to both, and parts no pair. -/
theorem startCut_spec (hb : WellFormed before) (after : Text) :
    before.take (startCut before after) = after.take (startCut before after) ∧
      endsHigh (before.take (startCut before after)) = false ∧
      startCut before after ≤ before.length ∧ startCut before after ≤ after.length := by
  have hempty : before.take 0 = after.take 0 := rfl
  obtain ⟨htake, hle⟩ := skipStart_spec (min before.length after.length) hempty
  rw [startCut]
  generalize skipStart before after (min before.length after.length) 0 = start at htake hle ⊢
  split_ifs with hhigh
  · obtain ⟨hpos, hhigh⟩ := hhigh
    -- The unit that is given back starts a pair, so that nothing before it does.
    refine ⟨?_, ?_, by omega, by omega⟩
    · rw [← Nat.min_eq_left (Nat.sub_le start 1), ← List.take_take, htake, List.take_take]
    · rw [← Bool.not_eq_true, WellFormed.cut_iff (by rwa [List.take_append_drop]), startsLow_drop]
      obtain ⟨u, hu, hu'⟩ := Option.any_eq_true _ _ |>.mp hhigh
      rw [hu, Option.any_some, not_isLow_of_isHigh hu']
      exact Bool.false_ne_true
  · refine ⟨htake, ?_, by omega, by omega⟩
    cases start with
    | zero => rfl
    | succ start =>
      rw [endsHigh_take (by omega), ← Bool.not_eq_true]
      exact fun h => hhigh ⟨Nat.succ_pos _, h⟩

/-- What is cut off at the end is common to both. -/
theorem trimEnd_spec (hb : start ≤ endBefore) (ha : start ≤ endAfter)
    (h : before.drop endBefore = after.drop endAfter) :
    start ≤ (trimEnd before after start endBefore endAfter).1 ∧
      start ≤ (trimEnd before after start endBefore endAfter).2 ∧
      before.drop (trimEnd before after start endBefore endAfter).1 =
        after.drop (trimEnd before after start endBefore endAfter).2 := by
  induction endBefore, endAfter using trimEnd.induct before after start with
  | case1 endBefore endAfter hmore ih =>
    rw [trimEnd, if_pos hmore]
    refine ih (by omega) (by omega) ?_
    rw [List.drop_eq_getElem?_toList_append, h, hmore.2.2, ← List.drop_eq_getElem?_toList_append]
  | case2 endBefore endAfter hmore =>
    rw [trimEnd, if_neg hmore]
    exact ⟨hb, ha, h⟩
  | case3 endBefore endAfter hend =>
    rw [trimEnd]
    · exact ⟨hb, ha, h⟩
    · exact hend

/-- The cuts at both ends part no pair. -/
theorem cut_endCuts (hb : WellFormed before) (after : Text) :
    Cut before after (startCut before after)
    (endCuts before after (startCut before after)).1 (endCuts before after (startCut before after)).2 := by
  obtain ⟨htake, hwhole, hleb, hlea⟩ := startCut_spec hb after
  generalize startCut before after = start at htake hwhole hleb hlea ⊢
  have hempty : before.drop before.length = after.drop after.length := by
    rw [List.drop_length, List.drop_length]
  obtain ⟨hsb, hsa, hdrop⟩ := trimEnd_spec hleb hlea hempty
  rw [endCuts]
  generalize trimEnd before after start before.length after.length = ends at hsb hsa hdrop ⊢
  split_ifs with hlow
  · obtain ⟨hlt, hlow⟩ := hlow
    -- The unit that is given back ends a pair, so that nothing after it does.
    refine ⟨Nat.le_succ_of_le hsb, Nat.le_succ_of_le hsa, htake, ?_, hwhole, ?_⟩
    · rw [← List.tail_drop, ← List.tail_drop, hdrop]
    · rw [← Bool.not_eq_true, ← WellFormed.cut_iff (by rwa [List.take_append_drop]),
        endsHigh_take hlt]
      obtain ⟨u, hu, hu'⟩ := Option.any_eq_true _ _ |>.mp hlow
      rw [hu, Option.any_some]
      intro hhigh
      rw [not_isLow_of_isHigh hhigh] at hu'
      cases hu'
  · refine ⟨hsb, hsa, htake, hdrop, hwhole, ?_⟩
    rw [startsLow_drop, ← Bool.not_eq_true]
    intro h
    refine hlow ⟨?_, h⟩
    by_contra hge
    rw [List.getElem?_eq_none (by omega)] at h
    cases h

/-! ## The split -/

theorem take_slice_drop (text : Text) (h : i ≤ j) :
    text.take i ++ slice text i j ++ text.drop j = text := by
  have htake : (text.take j).take i = text.take i := by rw [List.take_take, Nat.min_eq_left h]
  rw [slice, ← htake, List.take_append_drop, List.take_append_drop]

/-- A text in three parts, without a pair that is cut. -/
structure Split (text P middle S : Text) : Prop where
  eq : text = P ++ middle ++ S
  start_apart : Apart P (middle ++ S)
  end_apart : Apart (P ++ middle) S

theorem Cut.splits (h : Cut before after start endBefore endAfter) :
    Split before (before.take start) (slice before start endBefore) (before.drop endBefore) ∧
      Split after (before.take start) (slice after start endAfter) (before.drop endBefore) := by
  have hstart : ∀ ys, Apart (before.take start) ys := fun ys hcut => by simp [h.start_whole] at hcut
  have hend : ∀ xs, Apart xs (before.drop endBefore) := fun xs hcut => by simp [h.end_whole] at hcut
  refine ⟨⟨(take_slice_drop before h.le_before).symm, hstart _, hend _⟩, ⟨?_, hstart _, hend _⟩⟩
  rw [h.common_start, h.common_end, take_slice_drop after h.le_after]

theorem Split.points_eq (h : Split before P middle S) :
    points (P ++ middle) = points P ++ points middle ∧
      points before = points (P ++ middle) ++ points S := by
  refine ⟨?_, by rw [h.eq, points_append h.end_apart]⟩
  cases middle with
  | nil => rw [List.append_nil, points, List.append_nil]
  | cons u middle => exact points_append h.start_apart

/-! ## The line of the terminal -/

/-- The code points before the cursor and after it. -/
structure Line where
  left : List Nat
  right : List Nat
  deriving DecidableEq, Repr

/-- The line without its cursor. -/
def Line.text (line : Line) : List Nat := line.left ++ line.right

/-- The code point before the cursor goes away. -/
def Line.erase (line : Line) : Line := { line with left := line.left.dropLast }

/-- What a line does for each code point that it does not take as text. -/
structure Discipline where
  control : Nat → Option (Line → Line)
  del : control 0x7F = some Line.erase
  lineFeed : (control 0x0A).isSome = true
  carriageReturn : (control 0x0D).isSome = true

variable {d : Discipline} {l r cs : List Nat}

/-- A character is a control of the line, or a part of it. -/
def Discipline.receive (d : Discipline) (line : Line) (c : Nat) : Line :=
  match d.control c with
  | some act => act line
  | none => { line with left := line.left ++ [c] }

/-- A line that gets some characters. -/
def Discipline.run (d : Discipline) (line : Line) (cs : List Nat) : Line := cs.foldl d.receive line

/-- The code points of a text that the line takes as they are. So it has no line break. -/
def Discipline.IsText (d : Discipline) (text : Text) : Prop := ∀ c ∈ points text, d.control c = none

theorem run_append (line : Line) (cs cs' : List Nat) :
    d.run line (cs ++ cs') = d.run (d.run line cs) cs' :=
  List.foldl_append

theorem run_text (h : ∀ c ∈ cs, d.control c = none) (line : Line) :
    d.run line cs = { line with left := line.left ++ cs } := by
  induction cs generalizing line with
  | nil => rw [List.append_nil]; rfl
  | cons c cs ih =>
    obtain ⟨hc, hcs⟩ := List.forall_mem_cons.mp h
    have hreceive : d.receive line c = { line with left := line.left ++ [c] } := by
      rw [Discipline.receive, hc]
    rw [Discipline.run, List.foldl_cons, ← Discipline.run, hreceive, ih hcs, List.append_assoc,
      List.singleton_append]

theorem run_del (line : Line) (n : Nat) :
    d.run line (List.replicate n 0x7F) =
      { line with left := line.left.take (line.left.length - n) } := by
  induction n generalizing line with
  | zero => rw [Nat.sub_zero, List.take_length]; rfl
  | succ n ih =>
    have hreceive : d.receive line 0x7F = line.erase := by rw [Discipline.receive, d.del]
    rw [List.replicate_succ, Discipline.run, List.foldl_cons, ← Discipline.run, hreceive, ih,
      Line.erase, List.dropLast_eq_take, List.length_take, List.take_take]
    congr 2
    omega

/-! ## The bytes -/

theorem terminalText_of_not_mem {text : Text} (h : 0x0A ∉ text) : terminalText text = text := by
  induction text using terminalText.induct with
  | case1 => rfl
  | case2 u =>
    have hu : u ≠ 0x0A := fun hu => h (List.mem_singleton.mpr hu.symm)
    rw [terminalText, if_neg hu]
  | case3 u v rest hcrlf ih =>
    rw [hcrlf.2] at h
    exact absurd (List.mem_cons_of_mem _ List.mem_cons_self) h
  | case4 u v rest hcrlf ih =>
    obtain ⟨hu, hrest⟩ := not_or.mp (List.mem_cons.not.mp h)
    rw [terminalText, if_neg hcrlf, if_neg (Ne.symm hu), ih hrest]

theorem Discipline.IsText.not_lineFeed {text : Text} (h : d.IsText text) : 0x0A ∉ text := by
  intro hmem
  have hnone := h _ (mem_points (u := 0x0A) (by decide) (by decide) hmem)
  have hsome := d.lineFeed
  rw [show ((0x0A : UInt16).toNat = 0x0A) from rfl] at hnone
  rw [hnone] at hsome
  cases hsome

theorem imeEditBytes_replacement {ev : ImeEditEvent} (h : IsReplacement ev) :
    imeEditBytes before after ev =
      List.replicate (characterCount (textChange before after).removed) del ++
        terminalText (textChange before after).inserted := by
  simp only [IsReplacement, List.mem_cons, List.mem_append, not_or] at h
  rw [imeEditBytes, if_neg h.1, if_neg h.2.1.1, if_neg h.2.1.2, if_neg h.2.2]

/-- One `DEL` for each code point that goes away, then the text that comes in. -/
theorem run_edit (hb : Split before P (textChange before after).removed S)
    (ha : Split after P (textChange before after).inserted S) {ev : ImeEditEvent}
    (hev : IsReplacement ev)
    (htext : d.IsText (textChange before after).inserted) :
    d.run ⟨points (P ++ (textChange before after).removed), points S⟩ (points (imeEditBytes before after ev)) =
      ⟨points (P ++ (textChange before after).inserted), points S⟩ := by
  rw [imeEditBytes_replacement hev, terminalText_of_not_mem htext.not_lineFeed,
    points_replicate_append (u := del) (by decide), run_append, hb.points_eq.1, ha.points_eq.1,
    characterCount]
  rw [show del.toNat = 0x7F from rfl, run_del, run_text htext, List.length_append,
    Nat.add_sub_cancel, List.take_left]

/-- `textChange` splits two well-formed texts without cutting a pair; and on a line that has the old
text, with the cursor behind what went away, the bytes of a replacement leave exactly the new text.
-/
theorem replacement_typed (before after : Text) (hb : WellFormed before) :
    ∃ P S, Split before P (textChange before after).removed S ∧
      Split after P (textChange before after).inserted S ∧
      ∀ (d : Discipline) (ev : ImeEditEvent), IsReplacement ev →
        d.IsText (textChange before after).inserted →
        ∀ line : Line, line.text = points before →
          line.left = points (P ++ (textChange before after).removed) →
          (d.run line (points (imeEditBytes before after ev))).text = points after := by
  obtain ⟨hsplit, hsplit'⟩ := (cut_endCuts hb after).splits
  generalize before.take (startCut before after) = P at hsplit hsplit'
  generalize before.drop (endCuts before after (startCut before after)).1 = S at hsplit hsplit'
  refine ⟨P, S, hsplit, hsplit', fun d ev hev htext line htext' hleft => ?_⟩
  obtain ⟨left, right⟩ := line
  obtain rfl : left = _ := hleft
  obtain rfl : right = points S := by
    rw [Line.text, hsplit.points_eq.2] at htext'
    exact List.append_cancel_left htext'
  rw [run_edit hsplit hsplit' hev htext, hsplit'.points_eq.2]
  rfl

/-- A line that leaves out control characters. -/
def plainLine : Discipline where
  control c := if c = 0x7F then some Line.erase else if c < 0x20 then some id else none
  del := rfl
  lineFeed := rfl
  carriageReturn := rfl

/-- `a😀b` and `a😁😁b`. -/
def face : Text := [0x61, 0xD83D, 0xDE00, 0x62]

/-- `a😁😁b` -/
def faces : Text := [0x61, 0xD83D, 0xDE01, 0xD83D, 0xDE01, 0x62]

theorem replacement_typed_faces :
    ∃ P S, Split face P (textChange face faces).removed S ∧
      Split faces P (textChange face faces).inserted S ∧
      (plainLine.run ⟨points (P ++ (textChange face faces).removed), points S⟩
        (points (imeEditBytes face faces ⟨"insertReplacementText", none⟩))).text =
          points faces := by
  obtain ⟨P, S, hb, ha, hrun⟩ := replacement_typed face faces (by decide)
  refine ⟨P, S, hb, ha, hrun plainLine ⟨"insertReplacementText", none⟩ (by decide) ?_ _ hb.points_eq.2.symm rfl⟩
  unfold Discipline.IsText
  decide

/-- The halves that the two faces have in common stay with them. -/
example : textChange face faces = ⟨[0xD83D, 0xDE00], [0xD83D, 0xDE01, 0xD83D, 0xDE01]⟩ := by decide

/-- A repeated text is not trimmed twice. -/
example : textChange [0x61, 0x61, 0x61] [0x61, 0x61] = ⟨[0x61], []⟩ := by decide

end Portty.ImeInput
