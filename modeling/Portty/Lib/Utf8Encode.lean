import Portty.Lib.Utf8

/-!
# Texts as bytes

* `encode_injective`, `encode_split`: a text and its bytes; what follows ASCII bytes is a text
  again.
* `fromUtf8_iff`: the strict reading takes the bytes of texts and nothing else.
-/

namespace Utf8

/-- The bytes of a text. -/
def encode (text : List Char) : List UInt8 := text.flatMap String.utf8EncodeChar

/-- An ASCII character as a byte. -/
def ascii (c : Char) : UInt8 := UInt8.ofNat c.toNat

variable {bytes pre rest more : List UInt8} {text text' : List Char} {b : UInt8} {c : Char}

theorem encode_cons (c : Char) (text : List Char) :
    encode (c :: text) = String.utf8EncodeChar c ++ encode text :=
  List.flatMap_cons

@[simp] theorem encode_append (text text' : List Char) :
    encode (text ++ text') = encode text ++ encode text' :=
  List.flatMap_append

theorem encode_injective (h : encode text = encode text') : text = text' := by
  have henc : text.utf8Encode = text'.utf8Encode := congrArg List.toByteArray h
  have hdec := congrArg ByteArray.utf8Decode? henc
  rw [List.utf8Decode?_utf8Encode, List.utf8Decode?_utf8Encode] at hdec
  exact Array.toList_inj.mpr (Option.some.inj hdec)

/-- An ASCII character is one byte, the bytes of others begin above. -/
theorem encode_char (c : Char) : String.utf8EncodeChar c = [ascii c] ∧ c.toNat < 0x80 ∨
    ∃ b more, String.utf8EncodeChar c = b :: more ∧ 0xC0 ≤ b.toNat := by
  rw [String.utf8EncodeChar]
  split
  · next h => exact .inl ⟨rfl, Nat.lt_succ_of_le h⟩
  · refine .inr ?_
    split
    · refine ⟨_, _, rfl, ?_⟩
      rw [UInt8.toNat_ofNat']
      omega
    · split
      · refine ⟨_, _, rfl, ?_⟩
        rw [UInt8.toNat_ofNat']
        omega
      · refine ⟨_, _, rfl, ?_⟩
        rw [UInt8.toNat_ofNat']
        omega

theorem encode_char_ascii (h : c.toNat < 0x80) : String.utf8EncodeChar c = [ascii c] :=
  if_pos (Nat.le_of_lt_succ h)

theorem encode_ascii (h : ∀ c ∈ text, c.toNat < 0x80) : encode text = text.map ascii := by
  induction text with
  | nil => rfl
  | cons c text ih =>
    rw [encode_cons, ih fun c hc => h c (List.mem_cons_of_mem _ hc),
      encode_char_ascii (h c List.mem_cons_self)]
    rfl

/-- The bytes of other characters. -/
theorem encode_char_high (h : 0x80 ≤ c.toNat) : ∀ b ∈ String.utf8EncodeChar c, 0x80 ≤ b.toNat := by
  have hv : c.val.toNat = c.toNat := rfl
  rw [String.utf8EncodeChar, hv, if_neg (by omega)]
  intro b hb
  split at hb
  · simp only [List.mem_cons, List.not_mem_nil, or_false] at hb
    obtain rfl | rfl := hb <;> rw [UInt8.toNat_ofNat'] <;> omega
  · split at hb
    · simp only [List.mem_cons, List.not_mem_nil, or_false] at hb
      obtain rfl | rfl | rfl := hb <;> rw [UInt8.toNat_ofNat'] <;> omega
    · simp only [List.mem_cons, List.not_mem_nil, or_false] at hb
      obtain rfl | rfl | rfl | rfl := hb <;> rw [UInt8.toNat_ofNat'] <;> omega

theorem toNat_ascii (h : c.toNat < 0x80) : (ascii c).toNat = c.toNat := by
  rw [ascii, UInt8.toNat_ofNat', Nat.mod_eq_of_lt (by omega)]

/-- An ASCII character is in a text when its byte is. -/
theorem ascii_mem_encode (h : c.toNat < 0x80) : ascii c ∈ encode text ↔ c ∈ text := by
  constructor
  · intro hmem
    obtain ⟨d, hd, hb⟩ := List.mem_flatMap.mp hmem
    obtain hlow | hhigh := Nat.lt_or_ge d.toNat 0x80
    · rw [encode_char_ascii hlow, List.mem_singleton] at hb
      have heq : c.toNat = d.toNat := by rw [← toNat_ascii h, ← toNat_ascii hlow, hb]
      rwa [← Char.ofNat_toNat c, heq, Char.ofNat_toNat]
    · have := encode_char_high hhigh _ hb
      rw [toNat_ascii h] at this
      omega
  · exact fun hmem => List.mem_flatMap.mpr ⟨c, hmem, by rw [encode_char_ascii h]; exact List.mem_singleton.mpr rfl⟩

/-- What follows ASCII bytes is a text again. -/
theorem encode_split (pre : List UInt8) (h : encode text = pre ++ rest)
    (hpre : ∀ b ∈ pre, b.toNat < 0x80) :
    ∃ text', rest = encode text' := by
  induction pre generalizing text with
  | nil => exact ⟨text, h.symm⟩
  | cons b pre ih =>
    cases text with
    | nil => exact absurd h.symm (List.cons_ne_nil _ _)
    | cons c text =>
      rw [encode_cons, List.cons_append] at h
      obtain ⟨hc, -⟩ | ⟨lead, more, hc, hlead⟩ := encode_char c
      · rw [hc] at h
        exact ih (List.cons.inj h).2 fun b hb => hpre b (List.mem_cons_of_mem _ hb)
      · rw [hc] at h
        obtain ⟨rfl, -⟩ := List.cons.inj h
        exact absurd (hpre lead List.mem_cons_self) (by omega)

/-- A text that is cut at an ASCII byte. -/
theorem encode_cut {sep : UInt8} (pre : List UInt8) (hsep : sep.toNat < 0x80)
    (h : encode text = pre ++ sep :: rest) :
    ∃ text₁ text₂, pre = encode text₁ ∧ rest = encode text₂ := by
  induction text generalizing pre with
  | nil => cases pre <;> cases h
  | cons c text ih =>
    rw [encode_cons] at h
    rcases List.append_eq_append_iff.mp h with ⟨more, rfl, htext⟩ | ⟨more, hc, hrest⟩
    · obtain ⟨text₁, text₂, rfl, hrest⟩ := ih _ htext
      exact ⟨c :: text₁, text₂, (encode_cons c text₁).symm, hrest⟩
    · cases more with
      | nil =>
        obtain ⟨-, text₂, -, hrest⟩ := ih [] hrest.symm
        exact ⟨[c], text₂, by rw [← List.append_nil pre, ← hc, encode_cons, encode, List.flatMap_nil, List.append_nil], hrest⟩
      | cons b more =>
        -- The byte is in the character, and so it is all of it.
        obtain ⟨rfl, hmore⟩ := List.cons.inj hrest
        rcases Nat.lt_or_ge c.toNat 0x80 with hlow | hhigh
        · rw [encode_char_ascii hlow, List.singleton_eq_append_iff] at hc
          rcases hc with ⟨rfl, hc⟩ | ⟨-, hc⟩
          · rw [(List.cons.inj hc).2] at hmore
            exact ⟨[], text, rfl, hmore⟩
          · cases hc
        · have := encode_char_high hhigh sep (hc ▸ List.mem_append_right _ List.mem_cons_self)
          omega

/-! ## The bytes of one character -/

theorem toNat_ofNat {v : Nat} (h : v.isValidChar) : (Char.ofNat v).toNat = v := by
  rw [Char.ofNat, dif_pos h]
  rfl

theorem encode_one {v : Nat} (h : v ≤ 0x7F) :
    String.utf8EncodeChar (Char.ofNat v) = [UInt8.ofNat v] := by
  have hv : (Char.ofNat v).val.toNat = v := toNat_ofNat (.inl (by omega))
  rw [String.utf8EncodeChar, hv]
  exact if_pos h

theorem encode_two {v : Nat} (hlow : 0x80 ≤ v) (h : v ≤ 0x7FF) :
    String.utf8EncodeChar (Char.ofNat v) =
      [UInt8.ofNat (v / 64 + 0xC0), UInt8.ofNat (v % 64 + 0x80)] := by
  have hv : (Char.ofNat v).val.toNat = v := toNat_ofNat (.inl (by omega))
  rw [String.utf8EncodeChar, hv]
  rw [if_neg (by omega), if_pos h, Nat.mod_eq_of_lt (by omega : v / 64 < 0x20)]

theorem encode_three {v : Nat} (hlow : 0x800 ≤ v) (h : v ≤ 0xFFFF)
    (hvalid : v < 0xD800 ∨ 0xDFFF < v) :
    String.utf8EncodeChar (Char.ofNat v) =
      [UInt8.ofNat (v / 4096 + 0xE0), UInt8.ofNat (v / 64 % 64 + 0x80), UInt8.ofNat (v % 64 + 0x80)] := by
  have hv : (Char.ofNat v).val.toNat = v := toNat_ofNat (hvalid.imp id fun h' => ⟨h', by omega⟩)
  rw [String.utf8EncodeChar, hv]
  rw [if_neg (by omega), if_neg (by omega), if_pos h, Nat.mod_eq_of_lt (by omega : v / 4096 < 0x10)]

theorem encode_four {v : Nat} (hlow : 0x10000 ≤ v) (h : v < 0x110000) :
    String.utf8EncodeChar (Char.ofNat v) =
      [UInt8.ofNat (v / 262144 + 0xF0), UInt8.ofNat (v / 4096 % 64 + 0x80),
      UInt8.ofNat (v / 64 % 64 + 0x80), UInt8.ofNat (v % 64 + 0x80)] := by
  have hv : (Char.ofNat v).val.toNat = v := toNat_ofNat (.inr ⟨by omega, h⟩)
  rw [String.utf8EncodeChar, hv]
  rw [if_neg (by omega), if_neg (by omega), if_neg (by omega),
    Nat.mod_eq_of_lt (by omega : v / 262144 < 8)]

theorem within_iff {low high : UInt8} :
    within low high b = true ↔ low.toNat ≤ b.toNat ∧ b.toNat ≤ high.toNat := by
  rw [within, Bool.and_eq_true, decide_eq_true_iff, decide_eq_true_iff, UInt8.le_iff_toNat_le,
    UInt8.le_iff_toNat_le]

/-- The ranges that may follow a first byte. -/
theorem lead_cases (b : UInt8) : b.toNat < 0x80 ∧ lead b = some ([], b.toNat) ∨
    (0xC2 ≤ b.toNat ∧ b.toNat ≤ 0xDF) ∧ lead b = some ([tail], b.toNat - 0xC0) ∨
    (0xE0 ≤ b.toNat ∧ b.toNat ≤ 0xEF) ∧ (∃ low high, lead b = some ([within low high, tail], b.toNat - 0xE0) ∧
      low.toNat = (if b.toNat = 0xE0 then 0xA0 else 0x80) ∧
        high.toNat = if b.toNat = 0xED then 0x9F else 0xBF) ∨
    (0xF0 ≤ b.toNat ∧ b.toNat ≤ 0xF4) ∧ (∃ low high, lead b = some ([within low high, tail, tail], b.toNat - 0xF0) ∧
      low.toNat = (if b.toNat = 0xF0 then 0x90 else 0x80) ∧
        high.toNat = if b.toNat = 0xF4 then 0x8F else 0xBF) ∨
    lead b = none ∧ (0x80 ≤ b.toNat ∧ b.toNat < 0xC2 ∨ 0xF4 < b.toNat) := by
  simp only [lead, within_iff, UInt8.lt_iff_toNat_lt, ← UInt8.toNat_inj, UInt8.reduceToNat]
  split
  · next h => exact .inl ⟨h, rfl⟩
  refine .inr ?_
  split
  · next h => exact .inl ⟨h, rfl⟩
  refine .inr ?_
  split
  · next h => exact .inl ⟨by omega, 0xA0, 0xBF, by rw [h], rfl, (if_neg (by omega)).symm⟩
  split
  · next h => exact .inl ⟨by omega, 0x80, 0x9F, by rw [h], rfl, rfl⟩
  split
  · next h => exact .inl ⟨by omega, 0x80, 0xBF, rfl, rfl, rfl⟩
  refine .inr ?_
  split
  · next h => exact .inl ⟨by omega, 0x90, 0xBF, by rw [h], rfl, (if_neg (by omega)).symm⟩
  split
  · next h => exact .inl ⟨by omega, 0x80, 0xBF, rfl, rfl, (if_neg (by omega)).symm⟩
  split
  · next h => exact .inl ⟨by omega, 0x80, 0x8F, by rw [h], rfl, rfl⟩
  · exact .inr ⟨rfl, by omega⟩

theorem follow_cons {p : UInt8 → Bool} {ps : List (UInt8 → Bool)} {n v len : Nat}
    (h : follow (p :: ps) rest n v = .char c len) :
    ∃ x rest', rest = x :: rest' ∧ p x = true ∧
      follow ps rest' (n + 1) (64 * v + (x.toNat - 0x80)) = .char c len := by
  cases rest with
  | nil => cases h
  | cons x rest =>
    rw [follow] at h
    split at h
    · next hx => exact ⟨x, rest, rfl, hx, h⟩
    · cases h

theorem follow_eq {p : UInt8 → Bool} {x : UInt8} (hx : p x = true) (ps : List (UInt8 → Bool))
    (rest : List UInt8) (n v : Nat) :
    follow (p :: ps) (x :: rest) n v = follow ps rest (n + 1) (64 * v + (x.toNat - 0x80)) := by
  rw [follow, if_pos hx]

theorem ofNat_eq {n : Nat} (h : n = b.toNat) : UInt8.ofNat n = b := by
  rw [h, UInt8.ofNat_toNat]

/-- What is read as a character are its bytes. -/
theorem encode_head {len : Nat} (h : head b rest = .char c len) :
    String.utf8EncodeChar c = b :: rest.take (len - 1) := by
  rw [head] at h
  obtain ⟨hb, hl⟩ | ⟨hb, hl⟩ | ⟨hb, low, high, hl, hlow, hhigh⟩ | ⟨hb, low, high, hl, hlow, hhigh⟩ | ⟨hl, -⟩ := lead_cases b
  · rw [hl] at h
    obtain ⟨rfl, rfl⟩ := Head.char.inj h
    rw [encode_one (by omega), UInt8.ofNat_toNat]
    rfl
  · rw [hl] at h
    obtain ⟨x, rest, rfl, hx, h⟩ := follow_cons h
    obtain ⟨hx, hx'⟩ : 0x80 ≤ x.toNat ∧ x.toNat ≤ 0xBF := within_iff.mp hx
    obtain ⟨rfl, rfl⟩ := Head.char.inj h
    rw [encode_two (by omega) (by omega), ofNat_eq (b := b) (by omega),
      ofNat_eq (b := x) (by omega)]
    rfl
  · rw [hl] at h
    obtain ⟨x, rest, rfl, hx, h⟩ := follow_cons h
    obtain ⟨y, rest, rfl, hy, h⟩ := follow_cons h
    obtain ⟨hx, hx'⟩ := within_iff.mp hx
    obtain ⟨hy, hy'⟩ : 0x80 ≤ y.toNat ∧ y.toNat ≤ 0xBF := within_iff.mp hy
    obtain ⟨rfl, rfl⟩ := Head.char.inj h
    rw [hlow] at hx
    rw [hhigh] at hx'
    have hx : 0x80 ≤ x.toNat ∧ x.toNat ≤ 0xBF ∧ (b.toNat = 0xE0 → 0xA0 ≤ x.toNat) ∧
        (b.toNat = 0xED → x.toNat ≤ 0x9F) := by
      split at hx <;> split at hx' <;> omega
    rw [encode_three (by omega) (by omega) (by omega), ofNat_eq (b := b) (by omega),
      ofNat_eq (b := x) (by omega), ofNat_eq (b := y) (by omega)]
    rfl
  · rw [hl] at h
    obtain ⟨x, rest, rfl, hx, h⟩ := follow_cons h
    obtain ⟨y, rest, rfl, hy, h⟩ := follow_cons h
    obtain ⟨z, rest, rfl, hz, h⟩ := follow_cons h
    obtain ⟨hx, hx'⟩ := within_iff.mp hx
    obtain ⟨hy, hy'⟩ : 0x80 ≤ y.toNat ∧ y.toNat ≤ 0xBF := within_iff.mp hy
    obtain ⟨hz, hz'⟩ : 0x80 ≤ z.toNat ∧ z.toNat ≤ 0xBF := within_iff.mp hz
    obtain ⟨rfl, rfl⟩ := Head.char.inj h
    rw [hlow] at hx
    rw [hhigh] at hx'
    have hx : 0x80 ≤ x.toNat ∧ x.toNat ≤ 0xBF ∧ (b.toNat = 0xF0 → 0x90 ≤ x.toNat) ∧
        (b.toNat = 0xF4 → x.toNat ≤ 0x8F) := by
      split at hx <;> split at hx' <;> omega
    rw [encode_four (by omega) (by omega), ofNat_eq (b := b) (by omega),
      ofNat_eq (b := x) (by omega), ofNat_eq (b := y) (by omega), ofNat_eq (b := z) (by omega)]
    rfl
  · rw [hl] at h
    cases h

theorem toNat_byte {n : Nat} (h : n < 256) : (UInt8.ofNat n).toNat = n := by
  rw [UInt8.toNat_ofNat', Nat.mod_eq_of_lt h]

theorem tail_byte (v : Nat) : tail (UInt8.ofNat (v % 64 + 0x80)) = true := by
  refine within_iff.mpr ?_
  rw [toNat_byte (by omega)]
  show 0x80 ≤ _ ∧ _ ≤ 0xBF
  omega

/-- The bytes of a character are read as it. -/
theorem head_encode (hc : String.utf8EncodeChar c = b :: more) (rest : List UInt8) :
    head b (more ++ rest) = .char c (more.length + 1) := by
  obtain ⟨v, hv, rfl⟩ : ∃ v : Nat, v.isValidChar ∧ c = Char.ofNat v :=
    ⟨c.toNat, c.valid, (Char.ofNat_toNat c).symm⟩
  have hmax : v < 0x110000 := by
    obtain hv | hv := hv
    · omega
    · exact hv.2
  have hsurrogate : v < 0xD800 ∨ 0xDFFF < v := hv.imp id And.left
  rw [head]
  by_cases hone : v ≤ 0x7F
  · rw [encode_one hone] at hc
    obtain ⟨rfl, rfl⟩ := List.cons.inj hc
    have hb := toNat_byte (n := v) (by omega)
    obtain ⟨-, hl⟩ | ⟨hb', -⟩ | ⟨hb', -⟩ | ⟨hb', -⟩ | ⟨-, hb'⟩ := lead_cases (UInt8.ofNat v)
    · rw [hl, hb]
      rfl
    all_goals omega
  by_cases htwo : v ≤ 0x7FF
  · rw [encode_two (by omega) htwo] at hc
    obtain ⟨rfl, rfl⟩ := List.cons.inj hc
    have hb := toNat_byte (n := v / 64 + 0xC0) (by omega)
    obtain ⟨hb', -⟩ | ⟨-, hl⟩ | ⟨hb', -⟩ | ⟨hb', -⟩ | ⟨-, hb'⟩ :=
      lead_cases (UInt8.ofNat (v / 64 + 0xC0))
    · omega
    · rw [hl, hb]
      dsimp only
      rw [List.cons_append, follow_eq (tail_byte v), toNat_byte (by omega)]
      refine congrArg (Head.char · 2) (congrArg Char.ofNat ?_)
      omega
    all_goals omega
  by_cases hthree : v ≤ 0xFFFF
  · rw [encode_three (by omega) hthree hsurrogate] at hc
    obtain ⟨rfl, rfl⟩ := List.cons.inj hc
    have hb := toNat_byte (n := v / 4096 + 0xE0) (by omega)
    have hx := toNat_byte (n := v / 64 % 64 + 0x80) (by omega)
    obtain ⟨hb', -⟩ | ⟨hb', -⟩ | ⟨-, low, high, hl, hlow, hhigh⟩ | ⟨hb', -⟩ | ⟨-, hb'⟩ :=
      lead_cases (UInt8.ofNat (v / 4096 + 0xE0))
    · omega
    · omega
    · have hin : within low high (UInt8.ofNat (v / 64 % 64 + 0x80)) = true := by
        refine within_iff.mpr ?_
        rw [hlow, hhigh, hb, hx]
        constructor <;> split <;> omega
      rw [hl, hb]
      dsimp only
      rw [List.cons_append, follow_eq hin, List.cons_append, follow_eq (tail_byte v), hx,
        toNat_byte (by omega)]
      refine congrArg (Head.char · 3) (congrArg Char.ofNat ?_)
      omega
    all_goals omega
  · rw [encode_four (by omega) hmax] at hc
    obtain ⟨rfl, rfl⟩ := List.cons.inj hc
    have hb := toNat_byte (n := v / 262144 + 0xF0) (by omega)
    have hx := toNat_byte (n := v / 4096 % 64 + 0x80) (by omega)
    obtain ⟨hb', -⟩ | ⟨hb', -⟩ | ⟨hb', -⟩ | ⟨-, low, high, hl, hlow, hhigh⟩ | ⟨-, hb'⟩ :=
      lead_cases (UInt8.ofNat (v / 262144 + 0xF0))
    · omega
    · omega
    · omega
    · have hin : within low high (UInt8.ofNat (v / 4096 % 64 + 0x80)) = true := by
        refine within_iff.mpr ?_
        rw [hlow, hhigh, hb, hx]
        constructor <;> split <;> omega
      rw [hl, hb]
      dsimp only
      rw [List.cons_append, follow_eq hin, List.cons_append, follow_eq (tail_byte (v / 64)),
        List.cons_append, follow_eq (tail_byte v), hx, toNat_byte (by omega), toNat_byte (by omega)]
      refine congrArg (Head.char · 4) (congrArg Char.ofNat ?_)
      omega
    · omega

/-! ## The strict reading -/

theorem utf8EncodeChar_ne_nil (c : Char) : String.utf8EncodeChar c ≠ [] := by
  obtain ⟨h, -⟩ | ⟨b, more, h, -⟩ := encode_char c
  all_goals
    rw [h]
    exact List.cons_ne_nil _ _

theorem length_le_encode (text : List Char) : text.length ≤ (encode text).length := by
  induction text with
  | nil => exact Nat.le_refl 0
  | cons c text ih =>
    have := List.length_pos_of_ne_nil (utf8EncodeChar_ne_nil c)
    rw [encode_cons, List.length_append, List.length_cons]
    omega

/-- Texts are read from their bytes, and from nothing else. -/
theorem fromUtf8_iff : fromUtf8 bytes = .ok text ↔ bytes = encode text := by
  constructor
  · intro h
    induction hn : bytes.length using Nat.strongRecOn generalizing bytes text with
    | ind n ih =>
      cases bytes with
      | nil =>
        rw [fromUtf8] at h
        cases h
        rfl
      | cons b rest =>
        rw [fromUtf8] at h
        cases hh : head b rest with
        | char c len =>
          rw [hh] at h
          dsimp only at h
          cases hr : fromUtf8 (rest.drop (len - 1)) with
          | ok t =>
            rw [hr] at h
            cases h
            have hlt : (rest.drop (len - 1)).length < n := by
              rw [← hn, List.length_drop, List.length_cons]
              omega
            rw [encode_cons, encode_head hh, ← ih _ hlt hr rfl, List.cons_append,
              List.take_append_drop]
          | error e =>
            rw [hr] at h
            cases h
        | invalid len =>
          rw [hh] at h
          cases h
        | incomplete =>
          rw [hh] at h
          cases h
  · rintro rfl
    induction text with
    | nil => exact fromUtf8.eq_1
    | cons c text ih =>
      obtain ⟨b, more, hc⟩ := List.exists_cons_of_ne_nil (utf8EncodeChar_ne_nil c)
      rw [encode_cons, hc, List.cons_append, fromUtf8, head_encode hc]
      dsimp only
      rw [Nat.add_sub_cancel, List.drop_left, ih]

end Utf8
