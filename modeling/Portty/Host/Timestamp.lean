import Portty.Host.AgentTurn
import Portty.Lib.Calendar
import Portty.Lib.Checked
import Portty.Lib.Utf8Encode
import Portty.Transport.Types

/-!
# Timestamps of agents (`unix_ms_from_rfc3339`, `session.rs`)

* A `Stamp` is what the code takes: a date-time of RFC 3339, but for a day that its month does not
  have, and an offset whose hours or minutes are a sign and a digit.
* `unixMs_stamp`, `of_ne_leaves`: the code on a stamp, and that it takes nothing else. Nothing
  panics.
* `daysFromCivil_eq`: the formula counts the days of the calendar.
* `rfc3339_parsed`: the code is exact if and only if the text is not one of these stamps, or it is
  before the epoch.
-/

namespace Portty.Timestamp

open Calendar Checked Checked.Exec
open Utf8 (encode ascii encode_cons encode_injective encode_char encode_ascii encode_split toNat_ascii)
open Host.AgentTurn (trim)

/-! ## Slices of a text -/

/-- A decimal digit. -/
def isDigit (b : UInt8) : Bool := 48 ≤ b.toNat ∧ b.toNat ≤ 57

/-- `str::is_char_boundary` -/
def isCharBoundary (bytes : Bytes) (i : Nat) : Bool :=
  match bytes[i]? with
  | none => i = bytes.length
  | some b => i = 0 ∨ b.toNat < 0x80 ∨ 0xC0 ≤ b.toNat

/-- `str::get` of a range. -/
def get (bytes : Bytes) (first last : Nat) : Option Bytes :=
  if first ≤ last ∧ isCharBoundary bytes first ∧ isCharBoundary bytes last then some ((bytes.drop first).take (last - first))
  else none

/-- `&text[i..]` -/
def sliceFrom (bytes : Bytes) (i : Nat) : Exec Bytes :=
  if isCharBoundary bytes i then returns (bytes.drop i) else panics

/-- `bytes[i]` -/
def index (bytes : Bytes) (i : Nat) : Exec UInt8 :=
  match bytes[i]? with
  | some b => returns b
  | none => panics

/-- The number that the digits write. -/
def digitsValue (digits : Bytes) : Option Int :=
  if digits ≠ [] ∧ digits.all isDigit then some (digits.foldl (fun n b => 10 * n + (b.toNat - 48)) 0) else none

/-- `parse::<i64>`, which takes a sign. -/
def parseI64 (digits : Bytes) : Option Int :=
  (if digits.head? = some (ascii '+') then digitsValue digits.tail
    else if digits.head? = some (ascii '-') then (digitsValue digits.tail).map (-·)
    else digitsValue digits).bind checked

/-! ## Translated from the source -/

/-- Days since 1970-01-01, in the machine's arithmetic. -/
def daysFromCivil (year : Int) (month day : Nat) : Exec Int := do
  let year ← returns year - (if month ≤ 2 then 1 else 0)
  let era ← (if year ≥ 0 then returns year else returns year - 399) / 400
  let yearOfEra ← returns year - returns era * 400
  let dayOfYear ← (153 * (returns (month : Int) + (if month > 2 then returns (-3) else 9)) + 2) / 5 + returns (day : Int) - 1
  let dayOfEra ← returns yearOfEra * 365 + returns yearOfEra / 4 - returns yearOfEra / 100 + returns dayOfYear
  returns era * 146097 + returns dayOfEra - 719468

/-- One of these characters is to stand there. -/
def require (bytes : Bytes) (i : Nat) (chars : List Char) : Exec Unit := do
  let b ← index bytes i
  leaveIf (b ∉ chars.map ascii)

/-- The number in some bytes of the text, which must all be digits. -/
def number (bytes : Bytes) (first last : Nat) : Option Int := do
  let slice ← get bytes first last
  if slice.all isDigit then parseI64 slice else none

/-- The milliseconds, and what is left. -/
def fraction (rest : Bytes) : Exec (Int × Bytes) :=
  if rest.head? = some (ascii '.') then do
    let digits := rest.tail.takeWhile isDigit
    leaveIf (digits = [])
    let padded := digits.take 3 ++ List.replicate (3 - (digits.take 3).length) (ascii '0')
    let millis ← lift (parseI64 padded)
    let rest ← sliceFrom rest (1 + digits.length)
    return (millis, rest)
  else return (0, rest)

/-- `Z`, or a sign with hours and minutes. -/
def offsetMinutes (rest : Bytes) : Exec Int :=
  if rest = [ascii 'Z'] ∨ rest = [ascii 'z'] then return 0
  else if (rest.head? = some (ascii '+') ∨ rest.head? = some (ascii '-')) ∧ rest.length = 6 ∧ rest[3]? = some (ascii ':') then do
    let hours ← lift (get rest 1 3 >>= parseI64)
    let minutes ← lift (get rest 4 6 >>= parseI64)
    leaveIf (hours > 23 ∨ minutes > 59)
    let magnitude ← returns hours * 60 + returns minutes
    if rest.head? = some (ascii '-') then -returns magnitude else return magnitude
  else leaves

/-- The milliseconds of a time stamp; what is no time leaves. -/
def unixMsFromRfc3339 (text : List Char) : Exec Nat := do
  let bytes := encode (trim text)
  leaveIf (bytes.length < 20)
  require bytes 10 ['T', 't', ' ']
  require bytes 4 ['-']
  require bytes 7 ['-']
  require bytes 13 [':']
  require bytes 16 [':']
  let year ← lift (number bytes 0 4)
  let month ← lift (number bytes 5 7)
  let day ← lift (number bytes 8 10)
  let hour ← lift (number bytes 11 13)
  let minute ← lift (number bytes 14 16)
  let second ← lift (number bytes 17 19)
  leaveIf (¬ (1 ≤ month ∧ month ≤ 12) ∨ ¬ (1 ≤ day ∧ day ≤ 31) ∨ hour > 23 ∨ minute > 59 ∨ second > 60)
  let rest ← sliceFrom bytes 19
  let (millis, rest) ← fraction rest
  let offset ← offsetMinutes rest
  let days ← daysFromCivil year month.toNat day.toNat
  let seconds ← returns days * 86400 + returns hour * 3600 + returns minute * 60 + returns second - returns offset * 60
  let product ← lift (checked (seconds * 1000))
  let millis ← lift (checked (product + millis))
  if 0 ≤ millis then return millis.toNat else leaves

/-! ## What a timestamp is -/

/-- Two digits. -/
structure Two where
  tens : Fin 10
  ones : Fin 10
  deriving DecidableEq

/-- The character of a digit. -/
def digit (d : Fin 10) : Char := Char.ofNat (48 + d.val)

namespace Two

/-- The number of two digits. -/
def val (t : Two) : Nat := 10 * t.tens.val + t.ones.val

/-- Two characters. -/
def text (t : Two) : List Char := [digit t.tens, digit t.ones]

end Two

/-- The hours or the minutes of an offset. -/
inductive Part where
  | digits (t : Two)
  | signed (minus : Bool) (d : Fin 10)
  deriving DecidableEq

/-- `+` or `-` -/
def sign (minus : Bool) : Char := if minus then '-' else '+'

namespace Part

/-- A part of an offset can have a sign of its own. -/
def val : Part → Int
  | digits t => t.val
  | signed minus d => if minus then -d.val else d.val

/-- As it is written. -/
def text : Part → List Char
  | digits t => t.text
  | signed minus d => [sign minus, digit d]

end Part

/-- The zones that the parser reads. -/
inductive Zone where
  | utc (lower : Bool)
  | offset (minus : Bool) (hours minutes : Part) (hours_le : hours.val ≤ 23) (minutes_le : minutes.val ≤ 59)

namespace Zone

/-- As it is written. -/
def text : Zone → List Char
  | utc lower => [if lower then 'z' else 'Z']
  | offset minus hours minutes _ _ => sign minus :: hours.text ++ ':' :: minutes.text

/-- The minutes ahead of UTC. -/
def minutes : Zone → Int
  | utc _ => 0
  | offset minus hours minutes _ _ => if minus then -(hours.val * 60 + minutes.val) else hours.val * 60 + minutes.val

/-- Two digits for the hours, and two for the minutes. -/
def Digits : Zone → Prop
  | utc _ => True
  | offset _ hours minutes _ _ => ∃ h m, hours = .digits h ∧ minutes = .digits m

end Zone

/-- What the code takes for a date-time. -/
structure Stamp where
  century : Two
  yearOfCentury : Two
  month : Two
  day : Two
  separator : Char
  hour : Two
  minute : Two
  second : Two
  fraction : List (Fin 10)
  zone : Zone
  month_mem : 1 ≤ month.val ∧ month.val ≤ 12
  day_mem : 1 ≤ day.val ∧ day.val ≤ 31
  separator_mem : separator ∈ ['T', 't', ' ']
  hour_le : hour.val ≤ 23
  minute_le : minute.val ≤ 59
  second_le : second.val ≤ 60

namespace Stamp

/-- The year of a time. -/
def year (st : Stamp) : Nat := 100 * st.century.val + st.yearOfCentury.val

/-- The fraction of a second, with its point. -/
def fractionText : List (Fin 10) → List Char
  | [] => []
  | digits => '.' :: digits.map digit

/-- As it is written. -/
def text (st : Stamp) : List Char :=
  st.century.text ++ st.yearOfCentury.text ++ '-' :: st.month.text ++ '-' :: st.day.text ++ st.separator :: st.hour.text ++
    ':' :: st.minute.text ++ ':' :: st.second.text ++ fractionText st.fraction ++ st.zone.text

/-- The thousandths of a second, cut off. -/
def thousandths (digits : List (Fin 10)) : Nat :=
  100 * (digits.getD 0 0).val + 10 * (digits.getD 1 0).val + (digits.getD 2 0).val

/-- Days since the epoch; a day that the month does not have is counted on from the first. -/
def days (st : Stamp) : Int := dayNumber st.year st.month.val st.day.val - dayNumber 1970 1 1

/-- The milliseconds that the text stands for. -/
def unixMs (st : Stamp) : Int :=
  (st.days * 86400 + st.hour.val * 3600 + st.minute.val * 60 + st.second.val - st.zone.minutes * 60) * 1000 +
    thousandths st.fraction

/-- A date-time of RFC 3339: the month has the day, and the offset is written with digits. -/
def Rfc3339 (st : Stamp) : Prop := st.day.val ≤ daysInMonth st.year st.month.val ∧ st.zone.Digits

end Stamp

/-- The text is parsed exactly, and nothing panics. -/
def Exact (text : List Char) : Prop :=
  unixMsFromRfc3339 text ≠ panics ∧
    ∀ ms : Nat, unixMsFromRfc3339 text = returns ms ↔ ∃ st : Stamp, st.Rfc3339 ∧ trim text = st.text ∧ st.unixMs = ms

/-- The numbers of the days follow the calendar, one by one. -/
def CivilDays : Prop := ∀ d d' : Date, d.year ≤ 9999 → d'.year ≤ 9999 →
  ∃ n n' : Int, daysFromCivil d.year d.month d.day = returns n ∧ daysFromCivil d'.year d'.month d'.day = returns n' ∧
    (d.Before d' ↔ n < n') ∧ (d' = d.next → n' = n + 1)

/-! ## The bytes of a text -/

variable {bytes pre rest tail : Bytes} {text text' : List Char} {b : UInt8} {c : Char}

/-- Ascii bytes end at a boundary. -/
theorem boundary_split (pre : Bytes) (text : List Char) :
    isCharBoundary (pre ++ encode text) pre.length = true := by
  rw [isCharBoundary, List.getElem?_append_right (Nat.le_refl _), Nat.sub_self]
  cases text with
  | nil => simp [encode]
  | cons c text =>
    rw [encode_cons]
    obtain ⟨hc, hlt⟩ | ⟨b, more, hc, hb⟩ := encode_char c
    · have hb : (ascii c).toNat < 0x80 := by
        rw [ascii, UInt8.toNat_ofNat', Nat.mod_eq_of_lt (by omega)]
        exact hlt
      rw [hc]
      exact decide_eq_true (.inr (.inl hb))
    · rw [hc]
      exact decide_eq_true (.inr (.inr hb))

/-- In an ASCII text each place is one between characters. -/
theorem boundary_ascii (h : ∀ b ∈ bytes, b.toNat < 0x80) {i : Nat} (hi : i ≤ bytes.length) :
    isCharBoundary bytes i = true := by
  rw [isCharBoundary]
  split
  · next hnone => exact decide_eq_true (Nat.le_antisymm hi (List.getElem?_eq_none_iff.mp hnone))
  · next b hb => exact decide_eq_true (.inr (.inl (h b (List.mem_of_getElem? hb))))

/-! ## Digits -/

theorem toNat_digit (d : Fin 10) : (ascii (digit d)).toNat = 48 + d.val := by
  revert d
  decide

theorem digit_ascii (d : Fin 10) : (digit d).toNat < 0x80 := by
  revert d
  decide

theorem isDigit_digit (d : Fin 10) : isDigit (ascii (digit d)) = true := by
  revert d
  decide

theorem exists_digit (h : isDigit b = true) : ∃ d : Fin 10, b = ascii (digit d) := by
  have h := of_decide_eq_true h
  refine ⟨⟨b.toNat - 48, by omega⟩, UInt8.toNat_inj.mp ?_⟩
  rw [toNat_digit]
  show b.toNat = 48 + (b.toNat - 48)
  omega

theorem digit_injective (d d' : Fin 10) (h : digit d = digit d') : d = d' := by
  have hval := congrArg (fun c => (ascii c).toNat) h
  rw [toNat_digit, toNat_digit] at hval
  exact Fin.ext (Nat.add_left_cancel hval)

theorem exists_digits (h : bytes.all isDigit = true) :
    ∃ ds : List (Fin 10), bytes = (ds.map digit).map ascii := by
  induction bytes with
  | nil => exact ⟨[], rfl⟩
  | cons b bytes ih =>
    rw [List.all_cons, Bool.and_eq_true] at h
    obtain ⟨d, rfl⟩ := exists_digit h.1
    obtain ⟨ds, rfl⟩ := ih h.2
    exact ⟨d :: ds, rfl⟩

theorem all_isDigit (ds : List (Fin 10)) : ((ds.map digit).map ascii).all isDigit = true := by
  rw [List.map_map, List.all_map, List.all_eq_true]
  exact fun d _ => isDigit_digit d

/-- The number that digits are. -/
def value (ds : List (Fin 10)) : Nat := ds.foldl (fun n d => 10 * n + d.val) 0

/-- The digits are read as their number. -/
theorem digitsValue_digits {ds : List (Fin 10)} (hne : ds ≠ []) :
    digitsValue ((ds.map digit).map ascii) = some (value ds : Int) := by
  have hmap : (ds.map digit).map ascii ≠ [] :=
    fun h => hne (List.map_eq_nil_iff.mp (List.map_eq_nil_iff.mp h))
  rw [digitsValue, if_pos ⟨hmap, all_isDigit ds⟩, List.map_map, List.foldl_map]
  congr 1
  have hgen : ∀ (n : Nat), ds.foldl (fun (n : Int) d => 10 * n + (((ascii ∘ digit) d).toNat - 48)) n =
      (ds.foldl (fun n d => 10 * n + d.val) n : Nat) := by
    clear hne hmap
    induction ds with
    | nil => exact fun _ => rfl
    | cons d ds ih =>
      intro n
      rw [List.foldl_cons, List.foldl_cons, ← ih]
      congr 1
      show 10 * (n : Int) + (((ascii (digit d)).toNat : Int) - 48) = _
      rw [toNat_digit]
      push_cast
      omega
  exact hgen 0

theorem head_digits (d : Fin 10) (ds : List (Fin 10)) (c : Char) (hc : c = '+' ∨ c = '-') :
    (((d :: ds).map digit).map ascii).head? ≠ some (ascii c) := by
  have hne : ∀ d : Fin 10, ascii (digit d) ≠ ascii '+' ∧ ascii (digit d) ≠ ascii '-' := by decide
  intro h
  obtain rfl | rfl := hc
  · exact (hne d).1 (Option.some.inj h)
  · exact (hne d).2 (Option.some.inj h)

theorem parseI64_digits {d : Fin 10} {ds : List (Fin 10)} (hle : value (d :: ds) ≤ 9999) :
    parseI64 (((d :: ds).map digit).map ascii) = some (value (d :: ds) : Int) := by
  rw [parseI64, if_neg (head_digits d ds _ (.inl rfl)), if_neg (head_digits d ds _ (.inr rfl)),
    digitsValue_digits (List.cons_ne_nil _ _)]
  exact checked_eq (by omega) (by omega)

/-! ## Fields -/

theorem getElem_of_drop {i : Nat} (h : bytes.drop i = b :: tail) : bytes[i]? = some b := by
  rw [← Nat.add_zero i, ← List.getElem?_drop, h]
  rfl

theorem of_require_bind {β : Type} {f : Unit → Exec β} {i : Nat} {chars : List Char}
    (hi : i < bytes.length)
    (h : (require bytes i chars >>= f) ≠ leaves) :
    (∃ c ∈ chars, bytes.drop i = ascii c :: bytes.drop (i + 1)) ∧ f () ≠ leaves := by
  rw [require, index, List.getElem?_eq_getElem hi] at h
  obtain ⟨hmem, h⟩ := of_leaveIf_bind h
  obtain ⟨c, hc, heq⟩ := List.mem_map.mp (Decidable.not_not.mp hmem)
  refine ⟨⟨c, hc, ?_⟩, h⟩
  rw [heq]
  exact List.drop_eq_getElem_cons hi

theorem require_eq {i : Nat} {chars : List Char} (h : bytes.drop i = ascii c :: tail)
    (hc : c ∈ chars) :
    require bytes i chars = returns () := by
  rw [require, index, getElem_of_drop h]
  exact leaveIf_neg (Decidable.not_not.mpr (List.mem_map_of_mem hc))

theorem get_eq (hascii : ∀ b ∈ bytes, b.toNat < 0x80) {i n : Nat} (tail : Bytes)
    (h : bytes.drop i = pre ++ tail) (hn : pre.length = n)
    (hpos : 0 < n) : get bytes i (i + n) = some pre := by
  have hlen := congrArg List.length h
  rw [List.length_drop, List.length_append] at hlen
  rw [get,
    if_pos ⟨Nat.le_add_right _ _, boundary_ascii hascii (by omega), boundary_ascii hascii (by omega)⟩,
    Nat.add_sub_cancel_left, h, List.take_append_of_le_length (by omega), ← hn, List.take_length]

theorem of_get {first last : Nat} {slice : Bytes} (h : get bytes first last = some slice) :
    slice = (bytes.drop first).take (last - first) := by
  rw [get] at h
  split at h
  · exact (Option.some.inj h).symm
  · cases h

/-- What is read as a number of `n` bytes has `n` digits. -/
theorem of_number (i n : Nat) {value' : Int} (hlen : i + n ≤ bytes.length)
    (h : number bytes i (i + n) = some value') :
    ∃ ds :
    List (Fin 10), ds.length = n ∧ bytes.drop i = (ds.map digit).map ascii ++ bytes.drop (i + n) ∧
      parseI64 ((ds.map digit).map ascii) = some value' := by
  rw [number, Option.bind_eq_bind, Option.bind_eq_some_iff] at h
  obtain ⟨slice, hget, h⟩ := h
  obtain rfl := of_get hget
  rw [Nat.add_sub_cancel_left] at h
  split at h
  · next hall =>
    obtain ⟨ds, hds⟩ := exists_digits hall
    rw [hds] at h
    refine ⟨ds, ?_, ?_, h⟩
    · have := congrArg List.length hds
      rw [List.length_map, List.length_map, List.length_take, List.length_drop] at this
      omega
    · rw [← hds, ← List.drop_drop, List.take_append_drop]
  · cases h

theorem number_eq (hascii : ∀ b ∈ bytes, b.toNat < 0x80) {i : Nat} (d : Fin 10) (ds : List (Fin 10))
    (h : bytes.drop i = ((d :: ds).map digit).map ascii ++ tail) (hle : value (d :: ds) ≤ 9999) :
    number bytes i (i + (ds.length + 1)) = some (value (d :: ds) : Int) := by
  have hget :=
    get_eq hascii tail h (by rw [List.length_map, List.length_map]; rfl) (Nat.succ_pos ds.length)
  rw [number, hget]
  show (if _ then _ else _) = _
  rw [if_pos (all_isDigit _)]
  exact parseI64_digits hle

theorem Two.val_le (t : Two) : t.val ≤ 99 := by
  have := t.tens.isLt
  have := t.ones.isLt
  rw [Two.val]
  omega

theorem value_two (t : Two) : value [t.tens, t.ones] = t.val := by
  simp [value, Two.val]

theorem number_two (hascii : ∀ b ∈ bytes, b.toNat < 0x80) {i : Nat} {t : Two}
    (h : bytes.drop i = t.text.map ascii ++ tail) :
    number bytes i (i + 2) = some (t.val : Int) := by
  have hle := t.val_le
  rw [← value_two]
  exact number_eq hascii t.tens [t.ones] h (by rw [value_two]; omega)

theorem of_number_two {i : Nat} {n : Int} (hlen : i + 2 ≤ bytes.length)
    (h : number bytes i (i + 2) = some n) :
    ∃ t : Two, n = t.val ∧ bytes.drop i = t.text.map ascii ++ bytes.drop (i + 2) := by
  obtain ⟨ds, hds, hdrop, hparse⟩ := of_number i 2 hlen h
  obtain ⟨x, y, rfl⟩ := List.length_eq_two.mp hds
  have hle := (⟨x, y⟩ : Two).val_le
  rw [parseI64_digits (by rw [value_two ⟨x, y⟩]; omega)] at hparse
  exact ⟨⟨x, y⟩, by rw [← value_two]; exact (Option.some.inj hparse).symm, hdrop⟩

theorem value_four (t t' : Two) :
    value [t.tens, t.ones, t'.tens, t'.ones] = 100 * t.val + t'.val := by
  simp [value, Two.val]
  omega

theorem number_four (hascii : ∀ b ∈ bytes, b.toNat < 0x80) (t t' : Two)
    (h : bytes = (t.text ++ t'.text).map ascii ++ tail) :
    number bytes 0 4 = some ((100 * t.val + t'.val : Nat) : Int) := by
  have hle := t.val_le
  have hle' := t'.val_le
  rw [← value_four]
  have hdrop : bytes.drop 0 = ([t.tens, t.ones, t'.tens, t'.ones].map digit).map ascii ++ tail := h
  exact number_eq hascii t.tens [t.ones, t'.tens, t'.ones] hdrop (by rw [value_four]; omega)

theorem of_number_four {n : Int} (hlen : 4 ≤ bytes.length) (h : number bytes 0 4 = some n) :
    ∃ t t' : Two, n = (100 * t.val + t'.val : Nat) ∧
      bytes = (t.text ++ t'.text).map ascii ++ bytes.drop 4 := by
  obtain ⟨ds, hds, hdrop, hparse⟩ := of_number 0 4 hlen h
  obtain ⟨x, y, z, w, rfl⟩ := List.length_eq_four.mp hds
  have hle := (⟨x, y⟩ : Two).val_le
  have hle' := (⟨z, w⟩ : Two).val_le
  rw [parseI64_digits (by rw [value_four ⟨x, y⟩ ⟨z, w⟩]; omega)] at hparse
  exact ⟨⟨x, y⟩, ⟨z, w⟩, by rw [← value_four]; exact (Option.some.inj hparse).symm, hdrop⟩

/-! ## The fraction and the offset -/

theorem parse_part (p : Part) : parseI64 (p.text.map ascii) = some p.val := by
  cases p with
  | digits t =>
    have hle := t.val_le
    show _ = some (t.val : Int)
    rw [← value_two]
    exact parseI64_digits (d := t.tens) (by rw [value_two]; omega)
  | signed minus d =>
    revert minus d
    decide

/-- Two bytes that are read are two digits, or a sign and a digit. -/
theorem of_parse_part {x y : UInt8} {n : Int} (h : parseI64 [x, y] = some n) :
    ∃ p : Part, [x, y] = p.text.map ascii ∧ n = p.val := by
  have hone {z : UInt8} (h : digitsValue [z] ≠ none) : ∃ d : Fin 10, z = ascii (digit d) := by
    rw [digitsValue] at h
    split at h
    · next hall =>
      have hall := hall.2
      rw [List.all_cons, Bool.and_eq_true] at hall
      exact exists_digit hall.1
    · exact absurd rfl h
  have hexists : ∃ p : Part, [x, y] = p.text.map ascii := by
    rw [parseI64, Option.bind_eq_some_iff] at h
    obtain ⟨value, h, -⟩ := h
    rw [List.head?_cons, List.tail_cons] at h
    by_cases hplus : x = ascii '+'
    · rw [if_pos (congrArg some hplus)] at h
      obtain ⟨d, rfl⟩ := hone (Option.ne_none_iff_exists'.mpr ⟨value, h⟩)
      exact ⟨.signed false d, congrArg (· :: _) hplus⟩
    · rw [if_neg (fun heq => hplus (Option.some.inj heq))] at h
      by_cases hminus : x = ascii '-'
      · rw [if_pos (congrArg some hminus), Option.map_eq_some_iff] at h
        obtain ⟨value, h, -⟩ := h
        obtain ⟨d, rfl⟩ := hone (Option.ne_none_iff_exists'.mpr ⟨value, h⟩)
        exact ⟨.signed true d, congrArg (· :: _) hminus⟩
      · rw [if_neg (fun heq => hminus (Option.some.inj heq)), digitsValue] at h
        split at h
        · next hall =>
          have hall := hall.2
          rw [List.all_cons, List.all_cons, Bool.and_eq_true, Bool.and_eq_true] at hall
          obtain ⟨d, rfl⟩ := exists_digit hall.1
          obtain ⟨d', rfl⟩ := exists_digit hall.2.1
          exact ⟨.digits ⟨d, d'⟩, rfl⟩
        · cases h
  obtain ⟨p, hp⟩ := hexists
  rw [hp, parse_part] at h
  exact ⟨p, hp, (Option.some.inj h).symm⟩

theorem Part.text_eq (p : Part) : ∃ a b, p.text = [a, b] ∧ a.toNat < 0x80 ∧ b.toNat < 0x80 := by
  cases p with
  | digits t => exact ⟨_, _, rfl, digit_ascii _, digit_ascii _⟩
  | signed minus d => cases minus <;> exact ⟨_, _, rfl, by decide, digit_ascii _⟩

theorem Part.val_bounds (p : Part) : -9 ≤ p.val ∧ p.val ≤ 99 := by
  cases p with
  | digits t =>
    have hle := t.val_le
    show -9 ≤ (t.val : Int) ∧ (t.val : Int) ≤ 99
    omega
  | signed minus d =>
    revert minus d
    decide

theorem map_ascii_lt (text : List Char) (h : ∀ c ∈ text, c.toNat < 0x80) :
    ∀ b ∈ text.map ascii, b.toNat < 0x80 := by
  intro b hb
  obtain ⟨c, hc, rfl⟩ := List.mem_map.mp hb
  rw [toNat_ascii (h c hc)]
  exact h c hc

theorem Zone.text_ascii (z : Zone) : ∀ c ∈ z.text, c.toNat < 0x80 := by
  cases z with
  | utc lower => cases lower <;> exact List.forall_mem_singleton.mpr (by decide)
  | offset minus hours minutes hh hm =>
    obtain ⟨a, b, hab, ha, hb⟩ := hours.text_eq
    obtain ⟨x, y, hxy, hx, hy⟩ := minutes.text_eq
    have hsign : (sign minus).toNat < 0x80 := by cases minus <;> decide
    rw [Zone.text, hab, hxy]
    simp [ha, hb, hx, hy, hsign]

/-- The minutes of a zone. -/
theorem offsetMinutes_eq (z : Zone) : offsetMinutes (z.text.map ascii) = returns z.minutes := by
  have hascii := map_ascii_lt _ z.text_ascii
  cases z with
  | utc lower => cases lower <;> rfl
  | offset minus hours minutes hh hm =>
    obtain ⟨a, b, hab, -, -⟩ := hours.text_eq
    obtain ⟨x, y, hxy, -, -⟩ := minutes.text_eq
    have hrest : (Zone.offset minus hours minutes hh hm).text.map ascii =
        [ascii (sign minus), ascii a, ascii b, ascii ':', ascii x, ascii y] := by
      rw [Zone.text, hab, hxy]
      rfl
    have hhours := parse_part hours
    have hminutes := parse_part minutes
    rw [hab] at hhours
    rw [hxy] at hminutes
    have hbounds := hours.val_bounds
    have hbounds' := minutes.val_bounds
    rw [hrest] at hascii ⊢
    have hget : get [ascii (sign minus), ascii a, ascii b, ascii ':', ascii x, ascii y] 1 3 =
        some [ascii a, ascii b] :=
      get_eq (n := 2) hascii _ rfl rfl (by decide)
    have hget' : get [ascii (sign minus), ascii a, ascii b, ascii ':', ascii x, ascii y] 4 6 =
        some [ascii x, ascii y] :=
      get_eq (n := 2) hascii [] rfl rfl (by decide)
    have hsign : ascii (sign minus) = ascii '+' ∨ ascii (sign minus) = ascii '-' := by cases minus <;> simp [sign]
    rw [offsetMinutes, if_neg (by simp), if_pos (by simpa using hsign), hget, hget']
    show (do
      let hours ← lift (parseI64 [ascii a, ascii b])
      let minutes ← lift (parseI64 [ascii x, ascii y])
      leaveIf (hours > 23 ∨ minutes > 59)
      let magnitude ← returns hours * 60 + returns minutes
      if some (ascii (sign minus)) = some (ascii '-') then -returns magnitude else return magnitude) = _
    have hparse : parseI64 [ascii a, ascii b] = some hours.val := hhours
    have hparse' : parseI64 [ascii x, ascii y] = some minutes.val := hminutes
    rw [hparse, hparse', lift_some, lift_some, returns_bind, returns_bind, leaveIf_neg (by omega),
      returns_bind, ofNat_eq, mul_eq (by omega) (by omega), add_eq (by omega) (by omega),
      returns_bind]
    cases minus with
    | false => exact if_neg (by decide)
    | true => exact (if_pos rfl).trans (neg_eq (by omega) (by omega))

/-- What stands before a magnitude is a sign, and before the minutes a colon. -/
theorem of_offsetMinutes (h : offsetMinutes rest ≠ leaves) :
    ∃ z : Zone, rest = z.text.map ascii := by
  rw [offsetMinutes] at h
  split at h
  · next hutc =>
    obtain rfl | rfl := hutc
    · exact ⟨.utc false, rfl⟩
    · exact ⟨.utc true, rfl⟩
  · split at h
    · next hshape =>
      obtain ⟨hsign, hlen, hcolon⟩ := hshape
      obtain ⟨hours, hhours, h⟩ := of_lift_bind h
      obtain ⟨minutes, hminutes, h⟩ := of_lift_bind h
      obtain ⟨hle, -⟩ := of_leaveIf_bind h
      obtain ⟨slice, hget, hhours⟩ := Option.bind_eq_some_iff.mp hhours
      obtain ⟨slice', hget', hminutes⟩ := Option.bind_eq_some_iff.mp hminutes
      obtain rfl := of_get hget
      obtain rfl := of_get hget'
      obtain ⟨s, a, b, colon, x, y, rfl⟩ : ∃ s a b colon x y, rest = [s, a, b, colon, x, y] := by
        match rest, hlen with
        | [s, a, b, colon, x, y], _ => exact ⟨s, a, b, colon, x, y, rfl⟩
      obtain rfl : colon = ascii ':' := Option.some.inj hcolon
      obtain ⟨p, hp, rfl⟩ := of_parse_part hhours
      obtain ⟨p', hp', rfl⟩ := of_parse_part hminutes
      have hbound : p.val ≤ 23 ∧ p'.val ≤ 59 := by omega
      have htext (minus : Bool) : (Zone.offset minus p p' hbound.1 hbound.2).text.map ascii =
          ascii (sign minus) :: [a, b] ++ ascii ':' :: [x, y] := by
        rw [hp, hp', Zone.text, List.map_append, List.map_cons, List.map_cons]
      obtain hs | hs := hsign
      · exact ⟨.offset false p p' hbound.1 hbound.2, (congrArg (· :: _) (Option.some.inj hs)).trans (htext false).symm⟩
      · exact ⟨.offset true p p' hbound.1 hbound.2, (congrArg (· :: _) (Option.some.inj hs)).trans (htext true).symm⟩
    · exact absurd rfl h

/-- The digits of the fraction, cut or filled up to three. -/
theorem parse_padded {ds : List (Fin 10)} (hne : ds ≠ []) :
    parseI64 (((ds.map digit).map ascii).take 3 ++
      List.replicate (3 - (((ds.map digit).map ascii).take 3).length) (ascii '0')) =
        some (Stamp.thousandths ds : Int) := by
  have hthree (a b c : Fin 10) : parseI64 (([a, b, c].map digit).map ascii) =
      some (Stamp.thousandths [a, b, c] : Int) := by
    have hvalue : value [a, b, c] = Stamp.thousandths [a, b, c] := by
      simp [value, Stamp.thousandths]
      omega
    have hle : value [a, b, c] ≤ 9999 := by
      simp [value]
      omega
    rw [parseI64_digits hle, hvalue]
  obtain _ | ⟨a, _ | ⟨b, _ | ⟨c, ds⟩⟩⟩ := ds
  · exact absurd rfl hne
  · exact hthree a 0 0
  · exact hthree a b 0
  · exact hthree a b c

theorem takeWhile_digits (ds : List (Fin 10)) (h : ∀ b ∈ tail.head?, isDigit b = false) :
    ((ds.map digit).map ascii ++ tail).takeWhile isDigit = (ds.map digit).map ascii := by
  rw [List.takeWhile_append_of_pos (List.all_eq_true.mp (all_isDigit ds))]
  cases tail with
  | nil => simp
  | cons b tail => rw [List.takeWhile_cons_of_neg (by rw [h b rfl]; decide), List.append_nil]

/-- The fraction of a text of digits, where no digit follows. -/
theorem fraction_digits {ds : List (Fin 10)} (hne : ds ≠ [])
    (h : ∀ b ∈ tail.head?, isDigit b = false)
    (hb : isCharBoundary (ascii '.' :: ((ds.map digit).map ascii ++ tail)) (1 + ((ds.map digit).map ascii).length) = true) :
    fraction (ascii '.' :: ((ds.map digit).map ascii ++ tail)) =
      returns ((Stamp.thousandths ds : Int), tail) := by
  have hmap : (ds.map digit).map ascii ≠ [] :=
    fun h => hne (List.map_eq_nil_iff.mp (List.map_eq_nil_iff.mp h))
  have hdrop : (ascii '.' :: ((ds.map digit).map ascii ++ tail)).drop (1 + ((ds.map digit).map ascii).length) = tail := by
    rw [Nat.add_comm, List.drop_succ_cons, List.drop_left]
  rw [fraction, if_pos List.head?_cons, List.tail_cons, takeWhile_digits ds h]
  dsimp only
  rw [leaveIf_neg hmap, returns_bind, parse_padded hne, lift_some, returns_bind, sliceFrom,
    if_pos hb, hdrop]
  rfl

/-- What is read as a fraction is one. -/
theorem of_fraction (h : fraction (encode text) ≠ leaves) : ∃ ds tail millis, encode text =
    (Stamp.fractionText ds).map ascii ++ encode tail ∧
      fraction (encode text) = returns (millis, encode tail) := by
  by_cases hdot : (encode text).head? = some (ascii '.')
  · rw [fraction, if_pos hdot] at h
    obtain ⟨hne, -⟩ := of_leaveIf_bind h
    obtain ⟨ds, hds⟩ := exists_digits (List.all_takeWhile (l := (encode text).tail) (p := isDigit))
    have hsplit : encode text = ascii '.' :: ((ds.map digit).map ascii ++ (encode text).tail.dropWhile isDigit) := by
      rw [← hds, List.takeWhile_append_dropWhile]
      exact (List.cons_head?_tail hdot).symm
    have hne : ds ≠ [] := by
      rintro rfl
      exact hne hds
    have hpre : ∀ b ∈ ascii '.' :: (ds.map digit).map ascii, b.toNat < 0x80 :=
      map_ascii_lt ('.' :: ds.map digit) (List.forall_mem_cons.mpr ⟨by decide, fun c hc => by
        obtain ⟨d, -, rfl⟩ := List.mem_map.mp hc
        exact digit_ascii d⟩)
    obtain ⟨tail, htail⟩ := encode_split (ascii '.' :: (ds.map digit).map ascii) hsplit hpre
    have hhead : ∀ b ∈ (encode tail).head?, isDigit b = false := by
      intro b hb
      have hnot := List.head?_dropWhile_not isDigit (encode text).tail
      rw [htail, hb] at hnot
      exact hnot
    have hb := boundary_split (ascii '.' :: (ds.map digit).map ascii) tail
    rw [List.length_cons, Nat.add_comm] at hb
    rw [hsplit, htail]
    refine ⟨ds, tail, Stamp.thousandths ds, ?_, fraction_digits hne hhead hb⟩
    cases ds with
    | nil => exact absurd rfl hne
    | cons d ds => rfl
  · refine ⟨[], text, 0, rfl, ?_⟩
    rw [fraction, if_neg hdot]
    rfl

theorem Zone.head_text (z : Zone) :
    ∀ b ∈ (z.text.map ascii).head?, isDigit b = false ∧ b ≠ ascii '.' := by
  cases z with
  | utc lower => cases lower <;> simp [text, isDigit, ascii]
  | offset minus hours minutes hh hm => cases minus <;> simp [text, isDigit, ascii, sign]

/-! ## Days -/

theorem era_eq {year : Int} (hmin : -1 ≤ year) (hmax : year ≤ 9999) :
    (if year ≥ 0 then returns year else returns year - 399 : Exec Int) / 400 =
      returns (year / 400) := by
  by_cases h : year ≥ 0
  · rw [if_pos h]
    exact div_eq (by decide) h (by omega)
  · obtain rfl : year = -1 := by omega
    rfl

theorem epoch_eq : dayNumber 1970 1 1 = 719528 := by
  have h := daysBeforeYear_eq 1970
  rw [dayNumber, daysBeforeMonth]
  omega

theorem yearOfEra_eq {year : Int} (hmin : -1 ≤ year) (hmax : year ≤ 9999) :
    (returns year - returns (year / 400) * 400 : Exec Int) = returns (year % 400) := by
  rw [ofNat_eq, mul_eq (by omega) (by omega), sub_eq (by omega) (by omega)]
  congr 1
  omega

theorem dayOfYear_eq {month shift day : Int} (hm : 0 ≤ month + shift ∧ month + shift ≤ 11)
    (hd : 1 ≤ day ∧ day ≤ 31) :
    ((153 * (returns month + returns shift) + 2) / 5 + returns day - 1 : Exec Int) =
      returns ((153 * (month + shift) + 2) / 5 + day - 1) := by
  simp (disch := omega) only [ofNat_eq, add_eq, sub_eq, mul_eq, div_eq]

theorem dayOfEra_eq {year day : Int} (hy : 0 ≤ year ∧ year ≤ 399) (hd : 0 ≤ day ∧ day ≤ 400) :
    (returns year * 365 + returns year / 4 - returns year / 100 + returns day : Exec Int) =
      returns (year * 365 + year / 4 - year / 100 + day) := by
  simp (disch := omega) only [ofNat_eq, add_eq, sub_eq, mul_eq, div_eq]

theorem sum_eq {era day : Int} (he : -1 ≤ era ∧ era ≤ 24) (hd : 0 ≤ day ∧ day ≤ 150000) :
    (returns era * 146097 + returns day - 719468 : Exec Int) =
      returns (era * 146097 + day - 719468) := by
  simp (disch := omega) only [ofNat_eq, add_eq, sub_eq, mul_eq]

/-- Leap days up to a year, by its era. -/
theorem era_days (year : Int) :
    year / 400 * 146097 + (year % 400 * 365 + year % 400 / 4 - year % 400 / 100) =
      365 * year + year / 4 - year / 100 + year / 400 := by
  omega

/-- The years that begin in March. -/
theorem daysFromMarch (year month shift day : Int) (hy : -1 ≤ year ∧ year ≤ 9999)
    (hm : 0 ≤ month + shift ∧ month + shift ≤ 11)
    (hd : 1 ≤ day ∧ day ≤ 31) :
    (do
      let era ← (if year ≥ 0 then returns year else returns year - 399) / 400
      let yearOfEra ← returns year - returns era * 400
      let dayOfYear ← (153 * (returns month + returns shift) + 2) / 5 + returns day - 1
      let dayOfEra ← returns yearOfEra * 365 + returns yearOfEra / 4 - returns yearOfEra / 100 + returns dayOfYear
      returns era * 146097 + returns dayOfEra - 719468 : Exec Int) =
      returns (365 * year + year / 4 - year / 100 + year / 400 + ((153 * (month + shift) + 2) / 5 + day - 1) - 719468) := by
  have hyear : 0 ≤ year % 400 ∧ year % 400 ≤ 399 := by omega
  have hday : 0 ≤ (153 * (month + shift) + 2) / 5 + day - 1 ∧ (153 * (month + shift) + 2) / 5 + day - 1 ≤ 400 := by omega
  rw [era_eq hy.1 hy.2, returns_bind, yearOfEra_eq hy.1 hy.2, returns_bind, dayOfYear_eq hm hd,
    returns_bind, dayOfEra_eq hyear hday, returns_bind, ← era_days]
  generalize (153 * (month + shift) + 2) / 5 + day - 1 = dayOfYear at hday ⊢
  rw [sum_eq (by omega) (by omega), ← Int.add_assoc]

/-- The days since 1970, of any day up to the 31st. -/
theorem daysFromCivil_eq {year month day : Nat} (hyear : year ≤ 9999) (hm : 1 ≤ month ∧ month ≤ 12)
    (hd : 1 ≤ day ∧ day ≤ 31) :
    daysFromCivil year month day = returns ((dayNumber year month day : Int) - dayNumber 1970 1 1) := by
  have hmonth := daysBeforeMonth_eq year hm.1 hm.2
  have hd' : 1 ≤ (day : Int) ∧ (day : Int) ≤ 31 := by omega
  rw [daysFromCivil, epoch_eq, dayNumber]
  by_cases h : month ≤ 2
  · rw [if_pos h] at hmonth ⊢
    have hdays := daysBeforeYear_eq year
    have hbase : (returns (year : Int) - 1 : Exec Int) = returns ((year : Int) - 1) :=
      i64_eq (a := (year : Int) - 1) (by omega) (by omega)
    rw [if_neg (Nat.not_lt.mpr h), hbase, returns_bind]
    refine (daysFromMarch (year - 1) month 9 day (by omega) (by omega) hd').trans ?_
    congr 1
    omega
  · rw [if_neg h] at hmonth ⊢
    have hdays := daysBeforeMarch_eq year
    generalize (if isLeap year then 60 else 59 : Nat) = february at hmonth hdays
    have hbase : (returns (year : Int) - 0 : Exec Int) = returns ((year : Int) - 0) :=
      i64_eq (a := (year : Int) - 0) (by omega) (by omega)
    rw [if_pos (Nat.lt_of_not_le h), hbase, returns_bind]
    refine (daysFromMarch (year - 0) month (-3) day (by omega) (by omega) hd').trans ?_
    congr 1
    omega

/-! ## Stamps -/

theorem Two.text_ascii (t : Two) : ∀ c ∈ t.text, c.toNat < 0x80 :=
  List.forall_mem_cons.mpr ⟨digit_ascii _, List.forall_mem_singleton.mpr (digit_ascii _)⟩

theorem fractionText_ascii (ds : List (Fin 10)) : ∀ c ∈ Stamp.fractionText ds, c.toNat < 0x80 := by
  cases ds with
  | nil => exact fun _ hc => absurd hc List.not_mem_nil
  | cons d ds =>
    refine List.forall_mem_cons.mpr ⟨by decide, fun c hc => ?_⟩
    obtain ⟨d, -, rfl⟩ := List.mem_map.mp hc
    exact digit_ascii d

/-- The fraction is cut to thousandths. -/
theorem fraction_eq (ds : List (Fin 10)) (z : Zone) :
    fraction ((Stamp.fractionText ds ++ z.text).map ascii) =
      returns ((Stamp.thousandths ds : Int), z.text.map ascii) := by
  cases ds with
  | nil =>
    have hdot : ((Stamp.fractionText [] ++ z.text).map ascii).head? ≠ some (ascii '.') := fun h =>
      (z.head_text _ h).2 rfl
    rw [fraction, if_neg hdot]
    rfl
  | cons d ds =>
    rw [List.map_append]
    refine fraction_digits (List.cons_ne_nil d ds) (fun b hb => (z.head_text b hb).1) (boundary_ascii ?_ ?_)
    · have hascii := map_ascii_lt (Stamp.fractionText (d :: ds) ++ z.text)
        (List.forall_mem_append.mpr ⟨fractionText_ascii _, z.text_ascii⟩)
      rw [List.map_append] at hascii
      exact hascii
    · rw [List.length_cons, List.length_append]
      omega

namespace Stamp

variable (st : Stamp)

/-- The date and the time. -/
def head : List Char :=
  st.century.text ++ st.yearOfCentury.text ++ '-' :: st.month.text ++ '-' :: st.day.text ++ st.separator :: st.hour.text ++
    ':' :: st.minute.text ++ ':' :: st.second.text

theorem text_eq : st.text = st.head ++ (fractionText st.fraction ++ st.zone.text) :=
  List.append_assoc _ _ _

theorem head_ascii : ∀ c ∈ st.head, c.toNat < 0x80 := by
  have hsep : st.separator.toNat < 0x80 := by
    have hall : ∀ c ∈ ['T', 't', ' '], c.toNat < 0x80 :=
      List.forall_mem_cons.mpr ⟨by decide, List.forall_mem_cons.mpr ⟨by decide, List.forall_mem_singleton.mpr (by decide)⟩⟩
    exact hall _ st.separator_mem
  have htwo := Two.text_ascii
  intro c hc
  simp only [head, List.mem_append, List.mem_cons] at hc
  obtain ((((((hc | hc) | rfl | hc) | rfl | hc) | rfl | hc) | rfl | hc) | rfl | hc) := hc
  all_goals first | exact htwo _ _ hc | exact hsep | decide

theorem text_ascii : ∀ c ∈ st.text, c.toNat < 0x80 := by
  rw [text_eq]
  exact List.forall_mem_append.mpr ⟨st.head_ascii, List.forall_mem_append.mpr ⟨fractionText_ascii _, st.zone.text_ascii⟩⟩

theorem year_le : st.year ≤ 9999 := by
  have hle := st.century.val_le
  have hle' := st.yearOfCentury.val_le
  rw [year]
  omega

end Stamp

theorem Zone.minutes_bounds (z : Zone) : -1500 ≤ z.minutes ∧ z.minutes ≤ 1500 := by
  cases z with
  | utc lower => exact (by decide : (-1500 : Int) ≤ 0 ∧ (0 : Int) ≤ 1500)
  | offset minus hours minutes hh hm =>
    have hbounds := hours.val_bounds
    have hbounds' := minutes.val_bounds
    rw [Zone.minutes]
    split <;> omega

theorem Zone.text_pos (z : Zone) : 0 < z.text.length := by
  cases z <;> exact Nat.succ_pos _

/-- The code on a stamp. -/
theorem unixMs_stamp {st : Stamp} (h : trim text = st.text) :
    unixMsFromRfc3339 text = if 0 ≤ st.unixMs then returns st.unixMs.toNat else leaves := by
  have hascii := map_ascii_lt _ st.text_ascii
  have hlen : 20 ≤ (st.text.map ascii).length := by
    have hpos := st.zone.text_pos
    rw [List.length_map, Stamp.text_eq, List.length_append, List.length_append]
    show 20 ≤ 19 + _
    omega
  have hnumber (i : Nat) (t : Two) (tail : Bytes) (h : (st.text.map ascii).drop i = t.text.map ascii ++ tail) :
      number (st.text.map ascii) i (i + 2) = some (t.val : Int) := number_two hascii h
  have hdays : daysFromCivil (st.year : Nat) st.month.val st.day.val = returns st.days :=
    daysFromCivil_eq st.year_le st.month_mem st.day_mem
  have hbound := dayNumber_le st.year st.day.val st.month_mem.2
  have hepoch := epoch_eq
  have hyear := st.year_le
  have hzone := st.zone.minutes_bounds
  have hmonth := st.month_mem
  have hday := st.day_mem
  have hhour := st.hour_le
  have hminute := st.minute_le
  have hsecond := st.second_le
  have hdaysbound : -719528 ≤ st.days ∧ st.days ≤ 3660031 := by
    rw [Stamp.days]
    omega
  have hfraction : (0 : Int) ≤ Stamp.thousandths st.fraction ∧
      (Stamp.thousandths st.fraction : Int) ≤ 999 := by
    rw [Stamp.thousandths]
    omega
  rw [unixMsFromRfc3339, h, encode_ascii st.text_ascii]
  dsimp only
  rw [leaveIf_neg (Nat.not_lt.mpr hlen), returns_bind,
    require_eq (c := st.separator) rfl st.separator_mem, returns_bind,
    require_eq (c := '-') rfl List.mem_cons_self, returns_bind,
    require_eq (c := '-') rfl List.mem_cons_self, returns_bind,
    require_eq (c := ':') rfl List.mem_cons_self, returns_bind,
    require_eq (c := ':') rfl List.mem_cons_self, returns_bind,
    number_four hascii st.century st.yearOfCentury (List.map_append ..), lift_some, returns_bind,
    hnumber 5 st.month _ rfl, lift_some, returns_bind, hnumber 8 st.day _ rfl, lift_some,
    returns_bind, hnumber 11 st.hour _ rfl, lift_some, returns_bind, hnumber 14 st.minute _ rfl,
    lift_some, returns_bind, hnumber 17 st.second _ rfl, lift_some, returns_bind,
    leaveIf_neg (by omega), returns_bind, sliceFrom, if_pos (boundary_ascii hascii (by omega)),
    returns_bind]
  have hrest : (st.text.map ascii).drop 19 = (Stamp.fractionText st.fraction ++ st.zone.text).map ascii := rfl
  rw [hrest, fraction_eq, returns_bind]
  dsimp only
  rw [offsetMinutes_eq, returns_bind, Int.toNat_natCast, Int.toNat_natCast]
  have hdays' : daysFromCivil ((100 * st.century.val + st.yearOfCentury.val : Nat) : Int) st.month.val st.day.val =
      returns st.days := hdays
  rw [hdays', returns_bind]
  simp (disch := omega) only [ofNat_eq, returns_bind, add_eq, sub_eq, mul_eq, checked_eq, lift_some]
  rfl

/-- The code takes nothing but stamps. -/
theorem of_ne_leaves (text : List Char) (h : unixMsFromRfc3339 text ≠ leaves) :
    ∃ st : Stamp, trim text = st.text := by
  rw [unixMsFromRfc3339] at h
  dsimp only at h
  generalize hbytes : encode (trim text) = bytes at h
  obtain ⟨hlen, h⟩ := of_leaveIf_bind h
  obtain ⟨⟨separator, hseparator, h10⟩, h⟩ := of_require_bind (by omega) h
  obtain ⟨⟨c, hc, h4⟩, h⟩ := of_require_bind (by omega) h
  obtain rfl := List.mem_singleton.mp hc
  obtain ⟨⟨c, hc, h7⟩, h⟩ := of_require_bind (by omega) h
  obtain rfl := List.mem_singleton.mp hc
  obtain ⟨⟨c, hc, h13⟩, h⟩ := of_require_bind (by omega) h
  obtain rfl := List.mem_singleton.mp hc
  obtain ⟨⟨c, hc, h16⟩, h⟩ := of_require_bind (by omega) h
  obtain rfl := List.mem_singleton.mp hc
  obtain ⟨n, hn, h⟩ := of_lift_bind h
  obtain ⟨century, yearOfCentury, rfl, h0⟩ := of_number_four (by omega) hn
  obtain ⟨n, hn, h⟩ := of_lift_bind h
  obtain ⟨month, rfl, h5⟩ := of_number_two (by omega) hn
  obtain ⟨n, hn, h⟩ := of_lift_bind h
  obtain ⟨day, rfl, h8⟩ := of_number_two (by omega) hn
  obtain ⟨n, hn, h⟩ := of_lift_bind h
  obtain ⟨hour, rfl, h11⟩ := of_number_two (by omega) hn
  obtain ⟨n, hn, h⟩ := of_lift_bind h
  obtain ⟨minute, rfl, h14⟩ := of_number_two (by omega) hn
  obtain ⟨n, hn, h⟩ := of_lift_bind h
  obtain ⟨second, rfl, h17⟩ := of_number_two (by omega) hn
  obtain ⟨hrange, h⟩ := of_leaveIf_bind h
  let st (fraction : List (Fin 10)) (zone : Zone) : Stamp :=
    ⟨century, yearOfCentury, month, day, separator, hour, minute, second, fraction, zone,
      by omega, by omega, hseparator, by omega, by omega, by omega⟩
  -- The first 19 bytes are the date and the time.
  have hhead : bytes = (st [] (.utc false)).head.map ascii ++ bytes.drop 19 := by
    rw [h17] at h16
    rw [h16] at h14
    rw [h14] at h13
    rw [h13] at h11
    rw [h11] at h10
    rw [h10] at h8
    rw [h8] at h7
    rw [h7] at h5
    rw [h5] at h4
    rw [h4] at h0
    exact h0
  obtain ⟨rest, hrest⟩ := encode_split _ (hbytes.trans hhead) (map_ascii_lt _ (Stamp.head_ascii _))
  have hboundary : isCharBoundary bytes 19 = true := by
    rw [hhead, hrest]
    exact boundary_split ((st [] (.utc false)).head.map ascii) rest
  rw [sliceFrom, if_pos hboundary, returns_bind, hrest] at h
  obtain ⟨ds, tail, millis, hsplit, hfraction⟩ := of_fraction (of_bind h)
  rw [hfraction, returns_bind] at h
  obtain ⟨z, hz⟩ := of_offsetMinutes (of_bind h)
  refine ⟨st ds z, encode_injective ?_⟩
  rw [encode_ascii (st ds z).text_ascii, Stamp.text_eq, List.map_append, List.map_append, ← hz,
    ← hsplit, ← hrest, hbytes]
  exact hhead

/-! ## The text of a stamp is its own -/

theorem Two.text_injective {t t' : Two} (h : t.text = t'.text) : t = t' := by
  obtain ⟨hx, h⟩ := List.cons.inj h
  obtain ⟨hy, -⟩ := List.cons.inj h
  cases t
  cases t'
  rw [Two.mk.injEq]
  exact ⟨digit_injective _ _ hx, digit_injective _ _ hy⟩

theorem sign_injective : ∀ minus minus' : Bool, sign minus = sign minus' → minus = minus' := by
  decide

/-- The two bytes tell the part. -/
theorem Part.text_injective {p p' : Part} (h : p.text = p'.text) : p = p' := by
  have hv := parse_part p
  have hsigns : ∀ (minus : Bool) (d : Fin 10), sign minus ≠ digit d := by decide
  cases p with
  | digits t =>
    cases p' with
    | digits t' => rw [Two.text_injective h]
    | signed minus d => exact absurd (List.cons.inj h).1.symm (hsigns _ _)
  | signed minus d =>
    cases p' with
    | digits t' => exact absurd (List.cons.inj h).1 (hsigns _ _)
    | signed minus' d' =>
      obtain ⟨hs, h⟩ := List.cons.inj h
      obtain rfl := digit_injective _ _ (List.cons.inj h).1
      rw [sign_injective _ _ hs]

theorem Part.text_length (p : Part) : p.text.length = 2 := by
  cases p <;> rfl

/-- The text tells the zone. -/
theorem Zone.text_injective {z z' : Zone} (h : z.text = z'.text) : z = z' := by
  have hlen (minus : Bool) (p p' : Part) (hp : p.val ≤ 23) (hp' : p'.val ≤ 59) :
      (Zone.offset minus p p' hp hp').text.length = 6 := by
    rw [Zone.text, List.length_append, List.length_cons, List.length_cons, p.text_length,
      p'.text_length]
  cases z with
  | utc lower =>
    cases z' with
    | utc lower' =>
      have heq : lower = lower' := by
        revert h
        revert lower lower'
        decide
      rw [heq]
    | offset minus p p' hp hp' =>
      have := congrArg List.length h
      rw [hlen] at this
      exact absurd this (by simp [Zone.text])
  | offset minus p p' hp hp' =>
    cases z' with
    | utc lower =>
      have := congrArg List.length h
      rw [hlen] at this
      exact absurd this (by simp [Zone.text])
    | offset minus' q q' hq hq' =>
      obtain ⟨hhours, hminutes⟩ :=
        List.append_inj h (by rw [List.length_cons, List.length_cons, p.text_length, q.text_length])
      obtain ⟨hs, htext⟩ := List.cons.inj hhours
      obtain rfl := sign_injective _ _ hs
      obtain rfl := Part.text_injective htext
      obtain rfl := Part.text_injective (List.cons.inj hminutes).2
      rfl

/-- Two stamps of one text are both RFC 3339 times, or neither is. -/
theorem rfc3339_of_text {st st' : Stamp} (h : st.text = st'.text) (hst : st.Rfc3339) :
    st'.Rfc3339 := by
  rw [Stamp.text_eq, Stamp.text_eq] at h
  obtain ⟨hhead, hrest⟩ := List.append_inj h rfl
  have hzone : st.zone = st'.zone := by
    have heq := fraction_eq st.fraction st.zone
    rw [hrest, fraction_eq] at heq
    have htext := congrArg Prod.snd (Exec.returns.inj heq)
    rw [← encode_ascii st.zone.text_ascii, ← encode_ascii st'.zone.text_ascii] at htext
    exact (Zone.text_injective (encode_injective htext)).symm
  have hcentury : st.century = st'.century := Two.text_injective (congrArg (List.take 2) hhead)
  have hyear : st.yearOfCentury = st'.yearOfCentury :=
    Two.text_injective (congrArg (fun l => (l.drop 2).take 2) hhead)
  have hmonth : st.month = st'.month :=
    Two.text_injective (congrArg (fun l => (l.drop 5).take 2) hhead)
  have hday : st.day = st'.day := Two.text_injective (congrArg (fun l => (l.drop 8).take 2) hhead)
  rw [Stamp.Rfc3339, Stamp.year, hcentury, hyear, hmonth, hday, hzone] at hst
  exact hst

/-! ## What is parsed exactly -/

/-- The days of the calendar are counted one by one. -/
theorem civilDays : CivilDays := by
  intro d d' hd hd'
  have hrange (d : Date) : 1 ≤ d.day ∧ d.day ≤ 31 := by
    refine ⟨d.day_pos, Nat.le_trans d.day_le ?_⟩
    unfold daysInMonth
    split <;> first | decide | (split <;> decide)
  refine ⟨_, _, daysFromCivil_eq hd ⟨d.month_pos, d.month_le⟩ (hrange d),
    daysFromCivil_eq hd' ⟨d'.month_pos, d'.month_le⟩ (hrange d'), ?_, ?_⟩
  · rw [Date.before_iff, Date.number, Date.number]
    omega
  · rintro rfl
    have hnext := d.number_next
    rw [Date.number, Date.number] at hnext
    omega

/-- Exact, unless it is a date-time from the epoch on whose month does not have the day, or with
another sign in the offset. -/
theorem rfc3339_parsed (text : List Char) : Exact text ∧ CivilDays ↔
    ∀ st : Stamp, trim text = st.text → 0 ≤ st.unixMs → st.Rfc3339 := by
  constructor
  · rintro ⟨⟨-, hexact⟩, -⟩ st htext hpos
    have hcode := unixMs_stamp htext
    rw [if_pos hpos] at hcode
    obtain ⟨st', hst', htext', -⟩ := (hexact _).mp hcode
    exact rfc3339_of_text (htext'.symm.trans htext) hst'
  · intro h
    refine ⟨⟨fun hpanics => ?_, fun ms => ⟨fun hcode => ?_, ?_⟩⟩, civilDays⟩
    · obtain ⟨st, htext⟩ := of_ne_leaves text (by rw [hpanics]; exact fun h => by cases h)
      rw [unixMs_stamp htext] at hpanics
      split at hpanics <;> cases hpanics
    · obtain ⟨st, htext⟩ := of_ne_leaves text (by rw [hcode]; exact fun h => by cases h)
      rw [unixMs_stamp htext] at hcode
      split at hcode
      · next hpos =>
        refine ⟨st, h st htext hpos, htext, ?_⟩
        rw [← Exec.returns.inj hcode, Int.toNat_of_nonneg hpos]
      · cases hcode
    · rintro ⟨st, -, htext, hms⟩
      rw [unixMs_stamp htext, hms, if_pos (Int.natCast_nonneg ms), Int.toNat_natCast]

/-- 2024-02-30T00:00:00Z -/
def thirtiethOfFebruary : Stamp :=
  ⟨⟨2, 0⟩, ⟨2, 4⟩, ⟨0, 2⟩, ⟨3, 0⟩, 'T', ⟨0, 0⟩, ⟨0, 0⟩, ⟨0, 0⟩, [], .utc false, by decide, by decide, by decide, by decide,
    by decide, by decide⟩

theorem february_parsed : ¬ ∀ text, Exact text ∧ CivilDays := by
  intro h
  have htrim : trim thirtiethOfFebruary.text = thirtiethOfFebruary.text := by decide
  have hpos : 0 ≤ thirtiethOfFebruary.unixMs := by
    have hdays := daysBeforeYear_eq 2024
    have hepoch := epoch_eq
    have hyear : thirtiethOfFebruary.year = 2024 := rfl
    have hminutes : thirtiethOfFebruary.zone.minutes = 0 := rfl
    rw [Stamp.unixMs, Stamp.days, dayNumber, hyear, hminutes]
    omega
  have hcode := unixMs_stamp htrim
  rw [if_pos hpos] at hcode
  obtain ⟨st, hst, htext, -⟩ := ((h _).1.2 _).mp hcode
  have hday : 30 ≤ daysInMonth 2024 2 := (rfc3339_of_text (htext.symm.trans htrim) hst).1
  exact absurd hday (by decide)

end Portty.Timestamp
