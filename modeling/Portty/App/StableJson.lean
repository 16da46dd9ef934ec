import Portty.App.PolicyValues
import Portty.Lib.Prefix

/-!
# The operation that an exact rule names (`policy.ts`)

An exact rule holds the canonical input of a tool call: parsed, with the members of its objects
sorted, written again.

* `canonicalToolInput_eq_iff`: two inputs have one canonical form if and only if they are equal up
  to the order of the members, after what is lost on the way: the members named `__proto__`, the
  sign of zero, and numbers that no double holds, which are written as `null`.
* `canonicalToolInput_idem`: a canonical form is its own canonical form.
* `rules_of_run`: the operations that have a rule after any run are those for which one was learned,
  told by this equality.

`Js.Standard` says of `JSON.parse` and `JSON.stringify` what is used of them; how a double is
written stays a parameter.
-/

namespace Portty

namespace Policy

/-! ## Values -/

theorem Json.induct {P : Json → Prop} (null : P .null) (bool : ∀ b, P (.bool b))
    (num : ∀ bits, P (.num bits))
    (str : ∀ s, P (.str s)) (arr : ∀ elems, (∀ v ∈ elems, P v) → P (.arr elems))
    (obj : ∀ fields, (∀ field ∈ fields, P field.2) → P (.obj fields)) (v : Json) : P v :=
  Json.rec (motive_1 := P) (motive_2 := fun elems => ∀ v ∈ elems, P v) (motive_3 := fun fields => ∀ field ∈ fields, P field.2)
    (motive_4 := fun field => P field.2) null bool num str (fun elems => arr elems) (fun fields => obj fields) nofun
    (fun _ _ hv hrest => List.forall_mem_cons.mpr ⟨hv, hrest⟩) nofun
    (fun _ _ hf hrest => List.forall_mem_cons.mpr ⟨hf, hrest⟩) (fun _ _ hv => hv) v

/-- What holds of every number and of the names of every object. -/
inductive Json.All (num : UInt64 → Prop) (names : List String → Prop) : Json → Prop where
  | null : All num names .null
  | bool (b : Bool) : All num names (.bool b)
  | num {bits : UInt64} : num bits → All num names (.num bits)
  | str (s : String) : All num names (.str s)
  | arr {elems : List Json} : (∀ v ∈ elems, All num names v) → All num names (.arr elems)
  | obj {fields : List (String × Json)} : names (fields.map (·.1)) → (∀ field ∈ fields, All num names field.2) →
      All num names (.obj fields)

/-- Array indices are enumerated first, by number. -/
def before (a b : String) : Bool :=
  match arrayIndex a, arrayIndex b with
  | some m, some n => m < n
  | some _, none => true
  | none, some _ => false
  | none, none => a ≠ b

/-- The names of an object as they are enumerated, none of them twice. -/
def Enumerated (names : List String) : Prop := names.Pairwise (before · ·)

instance : DecidablePred Enumerated := fun names => inferInstanceAs (Decidable (names.Pairwise _))

/-- What `JSON.parse` gives. -/
def Json.WellFormed : Json → Prop := Json.All (fun _ => True) Enumerated

/-! ## Numbers -/

/-- The bits of -0. -/
def negZero : UInt64 := 0x8000000000000000

/-- Neither infinite nor no number. -/
def isFinite (bits : UInt64) : Bool := bits >>> 52 &&& 0x7FF ≠ 0x7FF

/-- A number as it is read back. -/
def plainNumber (bits : UInt64) : Json :=
  if bits = negZero then .num 0 else if isFinite bits then .num bits else .null

/-- A number that is read back as it is. -/
def PlainNumber (bits : UInt64) : Prop := isFinite bits = true ∧ bits ≠ negZero

/-- What is written without a loss. -/
def Json.Plain : Json → Prop := Json.All PlainNumber Enumerated

/-! ## `JSON.stringify` -/

section

variable (number : UInt64 → List Char)

mutual

/-- A value as `JSON.stringify` writes it. -/
def write : Json → List Char
  | .null => "null".toList
  | .bool true => "true".toList
  | .bool false => "false".toList
  | .num bits => number bits
  | .str s => Quote.quote s
  | .arr elems => '[' :: Prefix.joined ',' ']' (writeElems elems)
  | .obj fields => '{' :: Prefix.joined ',' '}' (writeFields fields)

/-- The elements, each written. -/
def writeElems : List Json → List (List Char)
  | [] => []
  | value :: rest => write value :: writeElems rest

/-- The members, each written. -/
def writeFields : List (String × Json) → List (List Char)
  | [] => []
  | (key, value) :: rest => (Quote.quote key ++ ':' :: write value) :: writeFields rest

end

end

/-- What a number is written with. -/
def numberChars : List Char := "0123456789+-.e".toList

/-- How a double is written: as `null` if it is not finite, else with enough digits to be read back,
but for the sign of zero. -/
structure Numbers (number : UInt64 → List Char) : Prop where
  negZero : number negZero = number 0
  infinite : ∀ bits, isFinite bits = false → number bits = "null".toList
  ne_nil : ∀ bits, isFinite bits = true → number bits ≠ []
  chars : ∀ bits, isFinite bits = true → ∀ c ∈ number bits, c ∈ numberChars
  inj : ∀ m n, PlainNumber m → PlainNumber n → number m = number n → m = n

/-- `JSON.stringify` writes like this, and `JSON.parse` reads what it writes. -/
structure Js.Standard (js : Js) (number : UInt64 → List Char) : Prop where
  numbers : Numbers number
  stringify_eq : ∀ v, js.stringify v = String.ofList (write number v)
  parse_wellFormed : ∀ text v, js.parse text = some v → v.WellFormed
  parse_stringify : ∀ v, v.Plain → js.parse (js.stringify v) = some v

/-! ## Equal operations -/

mutual

/-- A value built again, with its numbers and its objects replaced. -/
def rebuild (num : UInt64 → Json) (obj : List (String × Json) → List (String × Json)) : Json → Json
  | .num bits => num bits
  | .arr elems => .arr (rebuildElems num obj elems)
  | .obj fields => .obj (obj (rebuildFields num obj fields))
  | value => value

/-- The elements are rebuilt. -/
def rebuildElems (num : UInt64 → Json) (obj : List (String × Json) → List (String × Json)) :
    List Json → List Json
  | [] => []
  | value :: rest => rebuild num obj value :: rebuildElems num obj rest

/-- The values of the members are rebuilt. -/
def rebuildFields (num : UInt64 → Json) (obj : List (String × Json) → List (String × Json)) :
    List (String × Json) → List (String × Json)
  | [] => []
  | (key, value) :: rest => (key, rebuild num obj value) :: rebuildFields num obj rest

end

/-- A value as `JSON.stringify` writes it. -/
def plain : Json → Json := rebuild plainNumber id

/-- The members that are set on an object. -/
def own (fields : List (String × Json)) : List (String × Json) := fields.filter (·.1 ≠ "__proto__")

/-- What a canonical form keeps of a value. -/
def kept : Json → Json := rebuild plainNumber own

mutual

/-- Equal up to the order of the members. -/
def same : Json → Json → Bool
  | .null, .null => true
  | .bool b, .bool c => b = c
  | .num m, .num n => m = n
  | .str s, .str t => s = t
  | .arr elems, .arr elems' => sameElems elems elems'
  | .obj fields, .obj fields' => fields.length = fields'.length && sameFields fields fields'
  | _, _ => false

/-- Element by element. -/
def sameElems : List Json → List Json → Bool
  | [], [] => true
  | v :: vs, w :: ws => same v w && sameElems vs ws
  | _, _ => false

/-- Each of the members is among the others. -/
def sameFields : List (String × Json) → List (String × Json) → Bool
  | [], _ => true
  | (key, value) :: rest, fields => (fields.any fun field => field.1 = key && same value field.2) && sameFields rest fields

end

variable {js : Js} {number : UInt64 → List Char} {v w : Json}
  {fields fields' acc : List (String × Json)} {key : String}
  {value : Json} {num num' : UInt64 → Prop} {names names' : List String → Prop}

/-! ## Functions on values, member by member -/

/-- A function on the values of an object. -/
def onValues (φ : Json → Json) (fields : List (String × Json)) : List (String × Json) :=
  fields.map fun field => (field.1, φ field.2)

@[simp] theorem names_onValues (φ : Json → Json) (fields : List (String × Json)) :
    (onValues φ fields).map (·.1) = fields.map (·.1) := by
  simp [onValues, Function.comp_def]

theorem onValues_cons (φ : Json → Json) (field : String × Json) (fields : List (String × Json)) :
    onValues φ (field :: fields) = (field.1, φ field.2) :: onValues φ fields := rfl

theorem onValues_onValues (φ ψ : Json → Json) (fields : List (String × Json)) :
    onValues φ (onValues ψ fields) = onValues (fun v => φ (ψ v)) fields := by
  simp [onValues, Function.comp_def]

theorem onValues_congr {φ ψ : Json → Json} (h : ∀ field ∈ fields, φ field.2 = ψ field.2) :
    onValues φ fields = onValues ψ fields :=
  List.map_congr_left fun field hf => by rw [h field hf]

theorem own_onValues (φ : Json → Json) (fields : List (String × Json)) :
    own (onValues φ fields) = onValues φ (own fields) := by
  rw [own, own, onValues, onValues, List.filter_map]
  rfl

theorem mem_onValues {φ : Json → Json} {field : String × Json} (h : field ∈ onValues φ fields) :
    ∃ v, (field.1, v) ∈ fields ∧ field.2 = φ v := by
  obtain ⟨f, hf, rfl⟩ := List.mem_map.mp h
  exact ⟨f.2, hf, rfl⟩

theorem stableElems_eq (elems : List Json) : stableElems elems = elems.map stableJson := by
  induction elems with
  | nil => rfl
  | cons v rest ih => rw [stableElems, ih, List.map_cons]

theorem stableFields_eq (fields : List (String × Json)) :
    stableFields fields = onValues stableJson fields := by
  induction fields with
  | nil => rfl
  | cons field rest ih => rw [stableFields, ih, onValues_cons]

theorem stableJson_arr (elems : List Json) :
    stableJson (.arr elems) = .arr (elems.map stableJson) := by
  rw [stableJson, stableElems_eq]

theorem stableJson_obj (fields : List (String × Json)) :
    stableJson (.obj fields) = .obj (sortFields (onValues stableJson fields)) := by
  rw [stableJson, stableFields_eq]

section

variable {leaf : UInt64 → Json} {obj : List (String × Json) → List (String × Json)}

theorem rebuildElems_eq (elems : List Json) :
    rebuildElems leaf obj elems = elems.map (rebuild leaf obj) := by
  induction elems with
  | nil => rfl
  | cons v rest ih => rw [rebuildElems, ih, List.map_cons]

theorem rebuildFields_eq (fields : List (String × Json)) :
    rebuildFields leaf obj fields = onValues (rebuild leaf obj) fields := by
  induction fields with
  | nil => rfl
  | cons field rest ih => rw [rebuildFields, ih, onValues_cons]

theorem rebuild_arr (elems : List Json) :
    rebuild leaf obj (.arr elems) = .arr (elems.map (rebuild leaf obj)) := by
  rw [rebuild, rebuildElems_eq]

theorem rebuild_obj (fields : List (String × Json)) :
    rebuild leaf obj (.obj fields) = .obj (obj (onValues (rebuild leaf obj) fields)) := by
  rw [rebuild, rebuildFields_eq]

end

theorem writeElems_eq (elems : List Json) : writeElems number elems = elems.map (write number) := by
  induction elems with
  | nil => rfl
  | cons v rest ih => rw [writeElems, ih, List.map_cons]

/-- One member. -/
def writeField (number : UInt64 → List Char) (field : String × Json) : List Char :=
  Quote.quote field.1 ++ ':' :: write number field.2

theorem writeFields_eq (fields : List (String × Json)) :
    writeFields number fields = fields.map (writeField number) := by
  induction fields with
  | nil => rfl
  | cons field rest ih => rw [writeFields, ih, List.map_cons, writeField]

theorem Json.All.mono (h : v.All num names) (hnum : ∀ bits, num bits → num' bits)
    (hnames : ∀ l, names l → names' l) :
    v.All num' names' := by
  induction h with
  | null => exact .null
  | bool b => exact .bool b
  | num h => exact .num (hnum _ h)
  | str s => exact .str s
  | arr _ ih => exact .arr ih
  | obj h _ ih => exact .obj (hnames _ h) ih

/-! ## The members of an object, sorted -/

theorem utf16_cons (c : Char) (cs : List Char) :
    utf16 (String.ofList (c :: cs)) = utf16 (String.ofList [c]) ++ utf16 (String.ofList cs) := by
  simp [utf16]

/-- The units of a text are the units of that text only. -/
theorem utf16_inj {s t : String} (h : utf16 s = utf16 t) : s = t := by
  have key : ∀ cs ds : List Char, utf16 (String.ofList cs) = utf16 (String.ofList ds) →
      cs = ds := by
    intro cs
    induction cs with
    | nil =>
      intro ds h
      cases ds with
      | nil => rfl
      | cons d ds =>
        rw [utf16_cons] at h
        simp only [utf16, String.toList_ofList, List.flatMap_nil, List.flatMap_cons,
          List.append_nil] at h
        split_ifs at h <;> simp at h
    | cons c cs ih =>
      intro ds h
      cases ds with
      | nil =>
        rw [utf16_cons] at h
        simp only [utf16, String.toList_ofList, List.flatMap_nil, List.flatMap_cons,
          List.append_nil] at h
        split_ifs at h <;> simp at h
      | cons d ds =>
        rw [utf16_cons, utf16_cons d] at h
        have hc := c.valid
        have hd := d.valid
        have heq : c.toNat = d.toNat ∧ utf16 (String.ofList cs) = utf16 (String.ofList ds) := by
          generalize utf16 (String.ofList cs) = rest at h ⊢
          generalize utf16 (String.ofList ds) = rest' at h ⊢
          have hvalid : ∀ e : Char, e.toNat < 0xD800 ∨ (0xDFFF < e.toNat ∧ e.toNat < 0x110000) :=
            fun e => e.valid
          have hc := hvalid c
          have hd := hvalid d
          simp only [utf16, String.toList_ofList, List.flatMap_cons, List.flatMap_nil,
            List.append_nil] at h
          -- A unit below the surrogates or above them is a character, a high surrogate starts a pair.
          split_ifs at h <;>
            simp only [List.cons_append, List.nil_append, List.cons.injEq] at h
          · exact h
          · omega
          · omega
          · exact ⟨by omega, h.2.2⟩
        rw [Char.ext_iff.mpr (UInt32.toNat_inj.mp heq.1), ih ds heq.2]
  have := key s.toList t.toList (by simpa using h)
  exact String.toList_inj.mp this

theorem arrayIndex_eq_some {n : Nat} (h : arrayIndex key = some n) : toString n = key := by
  rw [arrayIndex, Option.filter_eq_some_iff] at h
  simpa using (of_decide_eq_true h.2).1

theorem arrayIndex_eq_none {c : Char} (hc : c ∈ key.toList) (hdigit : c.isDigit = false) :
    arrayIndex key = none := by
  cases h : arrayIndex key with
  | none => rfl
  | some n =>
    rw [← arrayIndex_eq_some h, show toString n = n.repr from rfl, Nat.toList_repr] at hc
    rw [Nat.isDigit_of_mem_toDigits (by decide) (by decide) hc] at hdigit
    cases hdigit

theorem before_ne {a b : String} (h : before a b = true) : a ≠ b := by
  rintro rfl
  rw [before] at h
  split at h
  next m n hm hn =>
    rw [hm] at hn
    cases hn
    simp at h
  next hm hn => rw [hm] at hn; cases hn
  next hm hn => rw [hm] at hn; cases hn
  next => simp at h

theorem Enumerated.nodup {l : List String} (h : Enumerated l) : l.Nodup :=
  List.Pairwise.imp before_ne h

/-- Names are sorted by their code units. -/
def byUnits (a b : String × Json) : Prop := utf16 a.1 ≤ utf16 b.1

instance : DecidableRel byUnits := fun a b => inferInstanceAs (Decidable (utf16 a.1 ≤ utf16 b.1))

instance : Std.Total byUnits := ⟨fun a b => le_total (utf16 a.1) (utf16 b.1)⟩

instance : IsTrans (String × Json) byUnits := ⟨fun _ _ _ => le_trans⟩

theorem sortFields_eq (fields : List (String × Json)) : sortFields fields =
    (fields.insertionSort byUnits).foldl (fun sorted field => setField sorted field.1 field.2) [] := rfl

theorem field_eq_of_name (h : (fields.map (·.1)).Nodup) {f g : String × Json} (hf : f ∈ fields)
    (hg : g ∈ fields)
    (hname : f.1 = g.1) : f = g := List.inj_on_of_nodup_map h hf hg hname

/-- One order only is sorted. -/
theorem sorted_unique (hp : fields.Perm fields') (hn : (fields.map (·.1)).Nodup)
    (h : fields.Pairwise byUnits)
    (h' : fields'.Pairwise byUnits) : fields = fields' := by
  refine List.Perm.eq_of_pairwise ?_ h h' hp
  intro f g hf hg hfg hgf
  exact field_eq_of_name hn hf (hp.mem_iff.mpr hg) (utf16_inj (le_antisymm hfg hgf))

theorem insertionSort_congr (hp : fields.Perm fields') (hn : (fields.map (·.1)).Nodup) :
    fields.insertionSort byUnits = fields'.insertionSort byUnits := by
  have hsorted := List.perm_insertionSort byUnits
  refine sorted_unique ((hsorted fields).trans (hp.trans (hsorted fields').symm)) ?_
    (List.pairwise_insertionSort ..) (List.pairwise_insertionSort ..)
  exact ((hsorted fields).map _).nodup_iff.mpr hn

theorem sortFields_congr (hp : fields.Perm fields') (hn : (fields.map (·.1)).Nodup) :
    sortFields fields = sortFields fields' := by
  rw [sortFields_eq, sortFields_eq, insertionSort_congr hp hn]

/-- Setting a field goes along with a map of the values. -/
theorem setField_map (φ : Json → Json) (fields : List (String × Json)) (key : String)
    (value : Json) :
    setField (onValues φ fields) key (φ value) = onValues φ (setField fields key value) := by
  have hany : (onValues φ fields).any (fun field => decide (field.1 = key)) =
      fields.any fun field =>
    decide (field.1 = key) := by
    simp [onValues, Function.comp_def]
  rw [setField, setField, hany]
  split
  · rfl
  split
  · simp only [onValues, List.map_map]
    refine List.map_congr_left fun field _ => ?_
    by_cases hkey : field.1 = key <;> simp [hkey]
  split
  · simp [onValues]
  · simp [onValues, List.takeWhile_map, List.dropWhile_map, Function.comp_def]

/-- Sorting the fields goes along with a map of the values. -/
theorem sortFields_map (φ : Json → Json) (fields : List (String × Json)) :
    sortFields (onValues φ fields) = onValues φ (sortFields fields) := by
  have hsort : (onValues φ fields).insertionSort byUnits =
      onValues φ (fields.insertionSort byUnits) :=
    (List.map_insertionSort byUnits byUnits (fun field => (field.1, φ field.2)) fields fun _ _ _ _ => Iff.rfl).symm
  have hset : ∀ l acc, (onValues φ l).foldl (fun sorted field => setField sorted field.1 field.2) (onValues φ acc) =
      onValues φ (l.foldl (fun sorted field => setField sorted field.1 field.2) acc) := by
    intro l
    induction l with
    | nil => exact fun _ => rfl
    | cons field l ih =>
      intro acc
      rw [onValues_cons, List.foldl_cons, List.foldl_cons, setField_map, ih]
  rw [sortFields_eq, sortFields_eq, hsort]
  exact hset _ []

theorem setField_proto (fields : List (String × Json)) (value : Json) :
    setField fields "__proto__" value = fields := by
  rw [setField, if_pos rfl]

theorem sortFields_own (hn : (fields.map (·.1)).Nodup) :
    sortFields (own fields) = sortFields fields := by
  have hsort : (own fields).insertionSort byUnits = own (fields.insertionSort byUnits) := by
    have hp := (List.perm_insertionSort byUnits (own fields)).trans ((List.perm_insertionSort byUnits fields).filter _).symm
    refine sorted_unique hp ?_ (List.pairwise_insertionSort ..) ((List.pairwise_insertionSort ..).filter _)
    exact ((List.perm_insertionSort byUnits (own fields)).map _).nodup_iff.mpr ((List.filter_sublist.map _).nodup hn)
  rw [sortFields_eq, sortFields_eq, hsort, own, List.foldl_filter]
  congr 1
  funext sorted field
  split
  · rfl
  next hproto => rw [show field.1 = "__proto__" by simpa using hproto, setField_proto]

theorem setField_perm (value : Json) (hkey : key ≠ "__proto__") (hnew : key ∉ fields.map (·.1)) :
    (setField fields key value).Perm ((key, value) :: fields) := by
  have hany : ¬ fields.any (fun field => decide (field.1 = key)) = true := by
    simpa using hnew
  rw [setField, if_neg hkey, if_neg hany]
  split
  · exact List.perm_append_singleton _ _
  · exact List.perm_middle.trans (by rw [List.takeWhile_append_dropWhile])

/-- No field is lost when the fields are set one by one. -/
theorem foldl_setField_perm (l : List (String × Json)) (hn : ((acc ++ l).map (·.1)).Nodup) :
    (l.foldl (fun sorted field => setField sorted field.1 field.2) acc).Perm (acc ++ own l) := by
  induction l generalizing acc with
  | nil => simp [own]
  | cons field l ih =>
    rw [List.foldl_cons]
    by_cases hkey : field.1 = "__proto__"
    · rw [hkey, setField_proto, show own (field :: l) = own l from List.filter_cons_of_neg (by simp [hkey])]
      refine ih ((List.Sublist.map _ ?_).nodup hn)
      exact (List.sublist_cons_self field l).append_left acc
    · have hnew : field.1 ∉ acc.map (·.1) := by
        rw [List.map_append, List.nodup_append] at hn
        intro hmem
        exact hn.2.2 _ hmem _ (List.mem_map_of_mem List.mem_cons_self) rfl
      have hset := setField_perm field.2 hkey hnew
      have hmove : ((setField acc field.1 field.2) ++ l).Perm (acc ++ field :: l) :=
        (hset.append_right l).trans List.perm_middle.symm
      rw [show own (field :: l) = field :: own l from List.filter_cons_of_pos (by simp [hkey])]
      refine (ih ((hmove.map _).nodup_iff.mpr hn)).trans ?_
      exact (hset.append_right (own l)).trans List.perm_middle.symm

/-- What is sorted is what is set. -/
theorem sortFields_perm (hn : (fields.map (·.1)).Nodup) :
    (sortFields fields).Perm (own fields) := by
  have hsort := List.perm_insertionSort byUnits fields
  rw [sortFields_eq]
  refine (foldl_setField_perm _ ((hsort.map _).nodup_iff.mpr hn)).trans ?_
  exact hsort.filter _

/-- What an array index stands before, and what stands after that. -/
theorem before_trans {a b c : String} {n : Nat} (ha : arrayIndex a = some n)
    (hab : before a b = true)
    (hbc : before b c = true) :
    before a c = true := by
  rw [before, ha] at hab ⊢
  cases hb : arrayIndex b with
  | none =>
    rw [before, hb] at hbc
    cases hc : arrayIndex c with
    | none => rfl
    | some k => rw [hc] at hbc; cases hbc
  | some m =>
    rw [hb] at hab
    rw [before, hb] at hbc
    cases hc : arrayIndex c with
    | none => rfl
    | some k =>
      rw [hc] at hbc
      exact decide_eq_true (Nat.lt_trans (of_decide_eq_true hab) (of_decide_eq_true hbc))

/-- The fields of an object stay in the order in which they are enumerated. -/
theorem setField_enumerated (h : Enumerated (fields.map (·.1))) (key : String) (value : Json) :
    Enumerated ((setField fields key value).map (·.1)) := by
  rw [setField]
  split
  · exact h
  split
  · have hsame : (fields.map fun field => if field.1 = key then (key, value) else field).map (·.1) =
        fields.map (·.1) := by
      rw [List.map_map]
      refine List.map_congr_left fun field _ => ?_
      by_cases hk : field.1 = key <;> simp [hk]
    rw [hsame]
    exact h
  next hany =>
  have hnew : ∀ field ∈ fields, field.1 ≠ key := fun field hf hkey =>
    hany (List.any_eq_true.mpr ⟨field, hf, decide_eq_true hkey⟩)
  split
  next hindex =>
    rw [List.map_append, List.map_singleton, Enumerated, List.pairwise_append]
    refine ⟨h, List.pairwise_singleton _ _, ?_⟩
    intro a ha b hb
    rw [List.mem_singleton.mp hb]
    obtain ⟨field, hf, rfl⟩ := List.mem_map.mp ha
    rw [before, hindex]
    cases arrayIndex field.1 with
    | none => exact decide_eq_true (hnew field hf)
    | some m => rfl
  next n hindex =>
    have hbelow : ∀ field ∈ fields.takeWhile fun field => (arrayIndex field.1).any (· < n),
        before field.1 key = true := by
      intro field hf
      have hlt := List.mem_takeWhile_imp hf
      rw [before, hindex]
      cases hm : arrayIndex field.1 with
      | none => rw [hm] at hlt; cases hlt
      | some m => rwa [hm] at hlt
    have habove : ∀ field ∈ (fields.dropWhile fun field => (arrayIndex field.1).any (· < n)).head?,
      before key field.1 = true := by
      intro field hf
      have hnot := List.head?_dropWhile_not (fun field : String × Json => (arrayIndex field.1).any (· < n)) fields
      rw [hf] at hnot
      rw [before, hindex]
      cases hm : arrayIndex field.1 with
      | none => rfl
      | some m =>
        have hle : ¬ m < n := by simpa [hm] using hnot
        have hne : m ≠ n := by
          rintro rfl
          have hmem := (List.dropWhile_sublist _).subset (List.mem_of_mem_head? hf)
          exact hnew field hmem ((arrayIndex_eq_some hm).symm.trans (arrayIndex_eq_some hindex))
        exact decide_eq_true (by omega)
    have hsplit := List.takeWhile_append_dropWhile (p := fun field : String × Json =>
      (arrayIndex field.1).any (· < n)) (l := fields)
    rw [Enumerated, ← hsplit, List.map_append, List.pairwise_append] at h
    rw [List.map_append, List.map_cons, Enumerated, List.pairwise_append, List.pairwise_cons]
    refine ⟨h.1, ⟨?_, h.2.1⟩, ?_⟩
    · intro b hb
      have hrest := h.2.1
      cases hdrop : fields.dropWhile fun field => (arrayIndex field.1).any (· < n) with
      | nil => rw [hdrop] at hb; cases hb
      | cons field rest =>
        rw [hdrop] at hb hrest
        have hfirst := habove field (by rw [hdrop]; rfl)
        rw [List.map_cons] at hb hrest
        rcases List.mem_cons.mp hb with rfl | hb
        · exact hfirst
        · exact before_trans hindex hfirst ((List.pairwise_cons.mp hrest).1 b hb)
    · intro a ha b hb
      rcases List.mem_cons.mp hb with rfl | hb
      · obtain ⟨field, hf, rfl⟩ := List.mem_map.mp ha
        exact hbelow field hf
      · exact h.2.2 a ha b hb

theorem sortFields_enumerated (fields : List (String × Json)) :
    Enumerated ((sortFields fields).map (·.1)) := by
  have hset : ∀ l acc : List (String × Json), Enumerated (acc.map (·.1)) →
      Enumerated ((l.foldl (fun sorted field => setField sorted field.1 field.2) acc).map (·.1)) := by
    intro l
    induction l with
    | nil => exact fun _ h => h
    | cons field l ih => exact fun acc h => ih _ (setField_enumerated h field.1 field.2)
  exact hset _ [] List.Pairwise.nil

/-! ## The canonical value -/

theorem Json.All.of_onValues {φ : Json → Json} (hn : (fields.map (·.1)).Nodup)
    (h : ∀ field ∈ fields, (φ field.2).All num names) :
    ((onValues φ fields).map (·.1)).Nodup ∧ ∀ field ∈ onValues φ fields, field.2.All num names := by
  refine ⟨(names_onValues φ fields).symm ▸ hn, fun field hf => ?_⟩
  obtain ⟨v, hv, hφ⟩ := mem_onValues hf
  exact hφ ▸ h _ hv

/-- The names of a canonical value stand in the order in which they are enumerated, whatever their
order was. -/
theorem stableJson_all (h : v.All num List.Nodup) : (stableJson v).All num Enumerated := by
  induction h with
  | null => exact .null
  | bool b => exact .bool b
  | num h => exact .num h
  | str s => exact .str s
  | arr _ ih =>
    rw [stableJson_arr]
    exact .arr fun v hv => (List.mem_map.mp hv).elim fun w hw => hw.2 ▸ ih w hw.1
  | @obj fields hn _ ih =>
    have hvalues := Json.All.of_onValues hn ih
    rw [stableJson_obj]
    refine .obj (sortFields_enumerated _) fun field hf => hvalues.2 field ?_
    exact (List.mem_filter.mp ((sortFields_perm hvalues.1).mem_iff.mp hf)).1

/-- The names of an object after those that are not set are dropped. -/
def OwnNames (names : List String) : Prop := names.Nodup ∧ "__proto__" ∉ names

/-- Every value is kept in its plain form. -/
theorem kept_all (h : v.All num List.Nodup) : (kept v).All PlainNumber OwnNames := by
  induction h with
  | null => exact .null
  | bool b => exact .bool b
  | @num bits _ =>
    show (plainNumber bits).All _ _
    rw [plainNumber]
    split
    · exact .num ⟨by decide, by decide⟩
    next hzero =>
    split
    next hfinite => exact .num ⟨hfinite, hzero⟩
    · exact .null
  | str s => exact .str s
  | arr _ ih =>
    rw [kept, rebuild_arr]
    exact .arr fun v hv => (List.mem_map.mp hv).elim fun w hw => hw.2 ▸ ih w hw.1
  | @obj fields hn _ ih =>
    have hvalues := Json.All.of_onValues hn ih
    rw [kept, rebuild_obj]
    refine .obj ⟨(List.filter_sublist.map _).nodup hvalues.1, fun hmem => ?_⟩ fun field hf =>
      hvalues.2 field (List.mem_filter.mp hf).1
    obtain ⟨field, hf, hproto⟩ := List.mem_map.mp hmem
    exact of_decide_eq_true (List.mem_filter.mp hf).2 hproto

/-- What is lost can be dropped before the members are sorted. -/
theorem stableJson_kept (h : v.All num List.Nodup) :
    stableJson (kept v) = plain (stableJson v) := by
  induction h with
  | null | bool | str => rfl
  | @num bits _ =>
    show stableJson (plainNumber bits) = plainNumber bits
    rw [plainNumber]
    split_ifs <;> rfl
  | arr _ ih =>
    rw [kept, rebuild_arr, stableJson_arr, stableJson_arr, plain, rebuild_arr, List.map_map,
      List.map_map]
    exact congrArg Json.arr (List.map_congr_left ih)
  | @obj fields hn _ ih =>
    have hvalues : onValues stableJson (onValues kept fields) =
        onValues plain (onValues stableJson fields) := by
      rw [onValues_onValues, onValues_onValues]
      exact onValues_congr ih
    rw [kept, rebuild_obj, stableJson_obj, stableJson_obj, plain, rebuild_obj, id, ← kept, ← plain,
      ← own_onValues, sortFields_own, hvalues, sortFields_map]
    rw [names_onValues, names_onValues]
    exact hn

/-- A stable value is its own stable value. -/
theorem stableJson_idem (h : v.All num List.Nodup) : stableJson (stableJson v) = stableJson v := by
  induction h with
  | null | bool | str | num => rfl
  | arr _ ih =>
    rw [stableJson_arr, stableJson_arr, List.map_map]
    exact congrArg Json.arr (List.map_congr_left ih)
  | @obj fields hn _ ih =>
    have hvalues : onValues stableJson (onValues stableJson fields) =
        onValues stableJson fields := by
      rw [onValues_onValues]
      exact onValues_congr ih
    have hnames : ((onValues stableJson fields).map (·.1)).Nodup := (names_onValues _ _).symm ▸ hn
    have hown := (List.filter_sublist (p := fun field : String × Json =>
      decide (field.1 ≠ "__proto__"))).map (·.1) |>.nodup hnames
    rw [stableJson_obj, stableJson_obj, ← sortFields_map, hvalues,
      sortFields_congr (sortFields_perm hnames) (((sortFields_perm hnames).map _).nodup_iff.mpr hown),
      sortFields_own hnames]

/-- The plain form has the same text. -/
theorem write_plain (v : Json) (hnumber : Numbers number) :
    write number (plain v) = write number v := by
  induction v using Json.induct with
  | null | bool | str => rfl
  | num bits =>
    show write number (plainNumber bits) = number bits
    rw [plainNumber]
    split
    next hzero => rw [hzero]; exact hnumber.negZero.symm
    split
    · rfl
    next hfinite => exact (hnumber.infinite bits (by simpa using hfinite)).symm
  | arr elems ih =>
    rw [plain, rebuild_arr, write, write, writeElems_eq, writeElems_eq, List.map_map]
    exact congrArg _ (congrArg _ (List.map_congr_left ih))
  | obj fields ih =>
    rw [plain, rebuild_obj, write, write, writeFields_eq, writeFields_eq, id, onValues,
      List.map_map]
    refine congrArg _ (congrArg _ (List.map_congr_left fun field hf => ?_))
    exact congrArg (fun text => Quote.quote field.1 ++ ':' :: text) (ih field hf)

/-! ## A text is of one value -/

/-- What may follow a value. -/
def Stop (c : Char) : Prop := c = ',' ∨ c = ']' ∨ c = '}'

/-- The kind of a value that starts with a character. -/
def kindOf (c : Char) : Nat :=
  if c ∈ numberChars then 2
  else if c = 'n' then 0
  else if c = 't' ∨ c = 'f' then 1
  else if c = '"' then 3
  else if c = '[' then 4
  else if c = '{' then 5
  else 6

/-- What `typeof` and `Array.isArray` tell apart. -/
def kind : Json → Nat
  | .null => 0
  | .bool _ => 1
  | .num _ => 2
  | .str _ => 3
  | .arr _ => 4
  | .obj _ => 5

theorem kind_lt (v : Json) : kind v < 6 := by
  cases v <;> simp [kind]

theorem write_head (hnumber : Numbers number) (h : v.Plain) :
    ∃ c cs, write number v = c :: cs ∧ kindOf c = kind v := by
  cases h with
  | null => exact ⟨'n', _, rfl, by decide⟩
  | bool b => cases b <;> exact ⟨_, _, rfl, by decide⟩
  | @num bits h =>
    cases htext : number bits with
    | nil => exact absurd htext (hnumber.ne_nil bits h.1)
    | cons c cs => exact ⟨c, cs, htext, if_pos (hnumber.chars bits h.1 c (htext ▸ List.mem_cons_self))⟩
  | str s => exact ⟨'"', _, rfl, show kindOf '"' = 3 by decide⟩
  | arr => exact ⟨'[', _, rfl, show kindOf '[' = 4 by decide⟩
  | obj => exact ⟨'{', _, rfl, show kindOf '{' = 5 by decide⟩

theorem kind_eq (hnumber : Numbers number) (hv : v.Plain) (hw : w.Plain) {xs ys : List Char}
    (h : write number v ++ xs = write number w ++ ys) : kind v = kind w := by
  obtain ⟨c, cs, hc, hkind⟩ := write_head hnumber hv
  obtain ⟨c', cs', hc', hkind'⟩ := write_head hnumber hw
  rw [hc, hc', List.cons_append, List.cons_append, List.cons.injEq] at h
  rw [← hkind, ← hkind', h.1]

theorem writeField_told {field : String × Json}
    (h : Prefix.Told Stop (write number) Json.Plain field.2) :
    Prefix.Told Stop (writeField number) (fun field => field.2.Plain) field := by
  intro field' xs ys hplain hxs hys heq
  rw [writeField, writeField, List.append_assoc, List.append_assoc] at heq
  obtain ⟨hname, hrest⟩ := Quote.quote_append_inj heq
  obtain ⟨hvalue, hend⟩ := h hplain hxs hys (List.cons.inj hrest).2
  exact ⟨Prod.ext hname hvalue, hend⟩

/-- The text of a plain value tells the value. -/
theorem write_told (hnumber : Numbers number) (hv : v.Plain) :
    Prefix.Told Stop (write number) Json.Plain v := by
  induction v using Json.induct with
  | null =>
    intro w xs ys hw hxs hys heq
    have hkind := kind_eq hnumber hv hw heq
    cases w <;> simp [kind] at hkind
    exact ⟨rfl, List.append_cancel_left heq⟩
  | bool b =>
    intro w xs ys hw hxs hys heq
    have hkind := kind_eq hnumber hv hw heq
    cases w <;> simp [kind] at hkind
    next c => cases b <;> cases c <;> simp_all [write]
  | num bits =>
    intro w xs ys hw hxs hys heq
    have hkind := kind_eq hnumber hv hw heq
    cases w <;> simp [kind] at hkind
    next bits' =>
    cases hv with | num hv =>
    cases hw with | num hw =>
    have hstop : ∀ n, PlainNumber n → ∀ c ∈ number n, ¬ Stop c := by
      rintro n hn c hc (rfl | rfl | rfl)
      all_goals exact absurd (hnumber.chars n hn.1 _ hc) (by decide)
    obtain ⟨htext, hend⟩ := Prefix.append_inj_of_stops (hstop bits hv) (hstop bits' hw) hxs hys heq
    exact ⟨congrArg Json.num (hnumber.inj bits bits' hv hw htext), hend⟩
  | str s =>
    intro w xs ys hw hxs hys heq
    have hkind := kind_eq hnumber hv hw heq
    cases w <;> simp [kind] at hkind
    obtain ⟨rfl, hend⟩ := Quote.quote_append_inj heq
    exact ⟨rfl, hend⟩
  | arr elems ih =>
    intro w xs ys hw hxs hys heq
    have hkind := kind_eq hnumber hv hw heq
    cases w <;> simp [kind] at hkind
    next elems' =>
    cases hv with | arr hv =>
    cases hw with | arr hw =>
    have hhead : ∀ v : Json, v.Plain → ∃ c cs, write number v = c :: cs ∧ c ≠ ']' := by
      intro v h
      obtain ⟨c, cs, htext, hc⟩ := write_head hnumber h
      refine ⟨c, cs, htext, ?_⟩
      rintro rfl
      exact absurd (hc ▸ kind_lt v) (by decide)
    rw [write, write, writeElems_eq, writeElems_eq] at heq
    obtain ⟨rfl, hend⟩ := Prefix.joined_inj (.inl rfl) (.inr (.inl rfl)) (by decide) (fun v hmem =>
      ih v hmem (hv v hmem)) hv hw hhead
      (List.cons.inj heq).2
    exact ⟨rfl, hend⟩
  | obj fields ih =>
    intro w xs ys hw hxs hys heq
    have hkind := kind_eq hnumber hv hw heq
    cases w <;> simp [kind] at hkind
    next fields' =>
    cases hv with | obj _ hv =>
    cases hw with | obj _ hw =>
    rw [write, write, writeFields_eq, writeFields_eq] at heq
    obtain ⟨rfl, hend⟩ := Prefix.joined_inj (.inl rfl) (.inr (.inr rfl)) (by decide)
      (fun field hmem => writeField_told (ih field hmem (hv field hmem))) hv hw (fun _ _ =>
        ⟨'"', _, rfl, by decide⟩) (List.cons.inj heq).2
    exact ⟨rfl, hend⟩

theorem write_inj (hnumber : Numbers number) (hv : v.Plain) (hw : w.Plain)
    (h : write number v = write number w) : v = w :=
  (write_told hnumber hv hw Prefix.stops_nil Prefix.stops_nil (congrArg (· ++ []) h)).1

/-! ## Equal canonical values -/

theorem sameElems_iff {elems elems' : List Json}
    (ih : ∀ v ∈ elems, ∀ w ∈ elems', same v w = true ↔ stableJson v = stableJson w) :
    sameElems elems elems' = true ↔ elems.map stableJson = elems'.map stableJson := by
  induction elems generalizing elems' with
  | nil => cases elems' <;> simp [sameElems]
  | cons v vs hvs =>
    cases elems' with
    | nil => simp [sameElems]
    | cons w ws =>
      rw [sameElems, Bool.and_eq_true, ih v List.mem_cons_self w List.mem_cons_self,
        hvs fun v' hv' w' hw' => ih v' (List.mem_cons_of_mem _ hv') w' (List.mem_cons_of_mem _ hw'),
        List.map_cons, List.map_cons, List.cons.injEq]

theorem sameFields_iff : sameFields fields fields' = true ↔
    ∀ field ∈ fields, ∃ field' ∈ fields', field'.1 = field.1 ∧ same field.2 field'.2 = true := by
  induction fields with
  | nil => simp [sameFields]
  | cons field rest ih => rw [sameFields, Bool.and_eq_true, ih, List.forall_mem_cons]; simp

theorem own_eq (h : "__proto__" ∉ fields.map (·.1)) : own fields = fields :=
  List.filter_eq_self.mpr fun field hf => decide_eq_true fun hproto => h (List.mem_map.mpr ⟨field, hf, hproto⟩)

/-- Sorted, objects are equal if they have the same members. -/
theorem sortFields_eq_iff (h : OwnNames (fields.map (·.1))) (h' : OwnNames (fields'.map (·.1))) :
    sortFields fields = sortFields fields' ↔ fields.Perm fields' := by
  refine ⟨fun heq => ?_, fun hp => sortFields_congr hp h.1⟩
  have hp := sortFields_perm h.1
  have hp' := sortFields_perm h'.1
  rw [own_eq h.2] at hp
  rw [own_eq h'.2] at hp'
  exact hp.symm.trans (heq ▸ hp')

/-- Two values are the same, up to the order of fields, if their stable values are equal. -/
theorem same_iff (hv : v.All num OwnNames) (hw : w.All num OwnNames) :
    same v w = true ↔ stableJson v = stableJson w := by
  induction v using Json.induct generalizing w with
  | null => cases w <;> simp [same, stableJson]
  | bool b => cases w <;> simp [same, stableJson]
  | num bits => cases w <;> simp [same, stableJson]
  | str s => cases w <;> simp [same, stableJson]
  | arr elems ih =>
    cases w with
    | arr elems' =>
      cases hv with | arr hv =>
      cases hw with | arr hw =>
      rw [same, sameElems_iff fun v hmem w hmem' => ih v hmem (hv v hmem) (hw w hmem'),
        stableJson_arr, stableJson_arr, Json.arr.injEq]
    | _ => simp [same, stableJson]
  | obj fields ih =>
    cases w with
    | obj fields' =>
      cases hv with | obj hn hv =>
      cases hw with | obj hn' hw =>
      rw [same, Bool.and_eq_true, decide_eq_true_iff, sameFields_iff, stableJson_obj,
        stableJson_obj, Json.obj.injEq,
        sortFields_eq_iff (by rwa [names_onValues]) (by rwa [names_onValues])]
      constructor
      · rintro ⟨hlen, hall⟩
        have hnodup : (onValues stableJson fields).Nodup :=
          List.Nodup.of_map (·.1) ((names_onValues _ _).symm ▸ hn.1)
        refine (hnodup.subperm fun field hf => ?_).perm_of_length_le (by simp [onValues, hlen])
        obtain ⟨g, hg, rfl⟩ := List.mem_map.mp hf
        obtain ⟨g', hg', hname, hsame⟩ := hall g hg
        refine List.mem_map.mpr ⟨g', hg', ?_⟩
        rw [hname, (ih g hg (hv g hg) (hw g' hg')).mp hsame]
      · intro hp
        refine ⟨by simpa [onValues] using hp.length_eq, fun g hg => ?_⟩
        have hmem :=
          hp.subset (List.mem_map_of_mem (f := fun field => (field.1, stableJson field.2)) hg)
        obtain ⟨g', hg', heq⟩ := List.mem_map.mp hmem
        rw [Prod.mk.injEq] at heq
        exact ⟨g', hg', heq.1, (ih g hg (hv g hg) (hw g' hg')).mpr heq.2.symm⟩
    | _ => simp [same, stableJson]

/-! ## Canonical inputs -/

theorem Json.WellFormed.all (h : v.WellFormed) : v.All (fun _ => True) List.Nodup :=
  Json.All.mono h (fun _ h => h) fun _ => Enumerated.nodup

theorem stableJson_kept_plain (h : v.WellFormed) : (stableJson (kept v)).Plain :=
  stableJson_all ((kept_all h.all).mono (fun _ h => h) fun _ h => h.1)

/-- Only a text that is JSON, and not too long, has a canonical text. -/
theorem canonicalToolInput_eq_some {detail : Option String} {canonical : String}
    (h : canonicalToolInput js detail = some canonical) :
    ∃ text v, detail = some text ∧ js.parse text = some v ∧
      canonical = js.stringify (stableJson v) ∧
      length canonical ≤ maxExactRuleInput := by
  rw [canonicalToolInput.eq_def] at h
  split at h
  · cases h
  next text =>
  split at h
  · cases h
  split at h
  · cases h
  next v hparse =>
  dsimp only at h
  split at h
  next hle =>
    cases h
    exact ⟨text, v, rfl, hparse, rfl, hle⟩
  · cases h

section

variable (hjs : js.Standard number)

include hjs

theorem stringify_stableJson (h : v.WellFormed) :
    js.stringify (stableJson v) = js.stringify (stableJson (kept v)) := by
  rw [hjs.stringify_eq, hjs.stringify_eq, stableJson_kept h.all, write_plain _ hjs.numbers]

/-- Two values are written alike in the canonical form exactly if what it keeps of them is the same.
-/
theorem stringify_eq_iff (hv : v.WellFormed) (hw : w.WellFormed) :
    js.stringify (stableJson v) = js.stringify (stableJson w) ↔ same (kept v) (kept w) = true := by
  rw [same_iff (kept_all hv.all) (kept_all hw.all), stringify_stableJson hjs hv,
    stringify_stableJson hjs hw]
  refine ⟨fun h => ?_, fun h => by rw [h]⟩
  rw [hjs.stringify_eq, hjs.stringify_eq, String.ofList_inj] at h
  exact write_inj hjs.numbers (stableJson_kept_plain hv) (stableJson_kept_plain hw) h

theorem canonicalToolInput_of_parse {text canonical : String} (htext : js.parse text = some v)
    (h : canonicalToolInput js (some text) = some canonical) :
    canonical = js.stringify (stableJson v) ∧ v.WellFormed := by
  obtain ⟨_, _, hdetail, hparse, hcanonical, -⟩ := canonicalToolInput_eq_some h
  obtain rfl := Option.some.inj hdetail
  obtain rfl := Option.some.inj (htext.symm.trans hparse)
  exact ⟨hcanonical, hjs.parse_wellFormed text v htext⟩

theorem canonicalToolInput_stringify (h : v.Plain)
    (htext : length (js.stringify v) ≤ maxExactRuleInput)
    (hcanonical : length (js.stringify (stableJson v)) ≤ maxExactRuleInput) :
    canonicalToolInput js (some (js.stringify v)) = some (js.stringify (stableJson v)) := by
  have hne : js.stringify v ≠ "" := by
    obtain ⟨c, cs, hwrite, -⟩ := write_head hjs.numbers h
    rw [hjs.stringify_eq, hwrite]
    exact fun hnil => by simpa using congrArg String.toList hnil
  rw [canonicalToolInput, if_neg (not_or.mpr ⟨hne, Nat.not_lt.mpr htext⟩), hjs.parse_stringify v h]
  dsimp only
  rw [if_pos hcanonical]

end

/-! ## A `JSON` for values without numbers but zero -/

/-- Zero is written as `0`. -/
def zeros (bits : UInt64) : List Char :=
  if bits = negZero then ['0'] else if isFinite bits then List.replicate (bits.toNat + 1) '0' else "null".toList

/-- These numbers are told by their texts. -/
theorem numbers_zeros : Numbers zeros where
  negZero := rfl
  infinite bits h := by
    rw [zeros, if_neg, if_neg (by rw [h]; decide)]
    rintro rfl
    cases h
  ne_nil bits h := by
    rw [zeros, if_pos h]
    split
    · exact List.cons_ne_nil _ _
    · exact List.cons_ne_nil _ _
  chars bits h c hc := by
    have hzero : c = '0' := by
      rw [zeros, if_pos h] at hc
      split at hc
      · exact List.mem_singleton.mp hc
      · exact List.eq_of_mem_replicate hc
    rw [hzero]
    decide
  inj m n hm hn h := by
    rw [zeros, zeros, if_neg hm.2, if_neg hn.2, if_pos hm.1, if_pos hn.1] at h
    have hlen := congrArg List.length h
    rw [List.length_replicate, List.length_replicate] at hlen
    exact UInt64.toNat_inj.mp (Nat.succ.inj hlen)

open Classical in
/-- What is written is read back, and nothing else is read. -/
noncomputable def zerosJs : Js where
  parse text := if h : ∃ v : Json, v.Plain ∧ String.ofList (write zeros v) = text then some h.choose else none
  stringify v := String.ofList (write zeros v)
  toLowerCase := id

/-- `zerosJs` is a `JSON` as the standard has it. -/
theorem zerosJs_standard : zerosJs.Standard zeros where
  numbers := numbers_zeros
  stringify_eq _ := rfl
  parse_wellFormed text v h := by
    rw [zerosJs] at h
    dsimp only at h
    split at h
    next hex => exact Option.some.inj h ▸ hex.choose_spec.1.mono (fun _ _ => trivial) fun _ h => h
    · cases h
  parse_stringify v h := by
    have hex : ∃ w : Json, w.Plain ∧ String.ofList (write zeros w) = zerosJs.stringify v :=
      ⟨v, h, rfl⟩
    rw [show zerosJs.parse (zerosJs.stringify v) = some hex.choose from dif_pos hex]
    exact congrArg some (write_inj numbers_zeros hex.choose_spec.1 h (String.ofList_inj.mp hex.choose_spec.2))

/-- `{"b":true,"a":[0]}` -/
def inputBA : Json := .obj [("b", .bool true), ("a", .arr [.num 0])]

/-- `{"a":[0],"b":true,"__proto__":null}` -/
def inputProto : Json := .obj [("a", .arr [.num 0]), ("b", .bool true), ("__proto__", .null)]

theorem plain_zero : (Json.arr [.num 0]).Plain :=
  .arr fun v hv => List.mem_singleton.mp hv ▸ .num ⟨by decide, by decide⟩

theorem arrayIndex_a : arrayIndex "a" = none :=
  arrayIndex_eq_none (c := 'a') (by decide) (by decide)

theorem arrayIndex_b : arrayIndex "b" = none :=
  arrayIndex_eq_none (c := 'b') (by decide) (by decide)

theorem arrayIndex_proto : arrayIndex "__proto__" = none :=
  arrayIndex_eq_none (c := '_') (by decide) (by decide)

theorem plain_inputBA : inputBA.Plain := by
  refine .obj (by simp [Enumerated, before, arrayIndex_a, arrayIndex_b]) fun field hf => ?_
  rcases List.mem_pair.mp hf with rfl | rfl
  · exact .bool true
  · exact plain_zero

theorem plain_inputProto : inputProto.Plain := by
  refine .obj (by simp [Enumerated, before, arrayIndex_a, arrayIndex_b, arrayIndex_proto]) fun field hf => ?_
  simp only [List.mem_cons, List.not_mem_nil, or_false] at hf
  rcases hf with rfl | rfl | rfl
  · exact plain_zero
  · exact .bool true
  · exact .null

theorem stableJson_inputBA :
    stableJson inputBA = .obj [("a", .arr [.num 0]), ("b", .bool true)] := by
  have hsort : (onValues stableJson [("b", .bool true), ("a", .arr [.num 0])]).insertionSort byUnits =
      [("a", .arr [.num 0]), ("b", .bool true)] := by rfl
  rw [inputBA, stableJson_obj, sortFields_eq, hsort]
  simp [setField, arrayIndex_a, arrayIndex_b]

theorem stableJson_inputProto :
    stableJson inputProto = .obj [("a", .arr [.num 0]), ("b", .bool true)] := by
  have hsort : (onValues stableJson [("a", .arr [.num 0]), ("b", .bool true), ("__proto__", .null)]).insertionSort byUnits =
      [("__proto__", .null), ("a", .arr [.num 0]), ("b", .bool true)] := by rfl
  rw [inputProto, stableJson_obj, sortFields_eq, hsort]
  simp [setField, arrayIndex_a, arrayIndex_b]

theorem canonical_inputBA : canonicalToolInput zerosJs (some (zerosJs.stringify inputBA)) = some
    (zerosJs.stringify (stableJson inputBA)) :=
  canonicalToolInput_stringify zerosJs_standard plain_inputBA (show length (String.ofList (write zeros inputBA)) ≤ _ by decide +kernel)
    (show length (String.ofList (write zeros (stableJson inputBA))) ≤ _ by rw [stableJson_inputBA]; decide +kernel)

theorem canonical_inputProto :
    canonicalToolInput zerosJs (some (zerosJs.stringify inputProto)) =
      some (zerosJs.stringify (stableJson inputProto)) :=
  canonicalToolInput_stringify zerosJs_standard plain_inputProto
    (show length (String.ofList (write zeros inputProto)) ≤ _ by decide +kernel)
    (show length (String.ofList (write zeros (stableJson inputProto))) ≤ _ by rw [stableJson_inputProto]; decide +kernel)

/-! ## The canonical form -/

theorem canonicalToolInput_eq_iff (hjs : js.Standard number) {a b ca cb : String}
    (ha : js.parse a = some v)
    (hb : js.parse b = some w) (hca : canonicalToolInput js (some a) = some ca)
    (hcb : canonicalToolInput js (some b) = some cb) :
    ca = cb ↔ same (kept v) (kept w) = true := by
  obtain ⟨rfl, hv⟩ := canonicalToolInput_of_parse hjs ha hca
  obtain ⟨rfl, hw⟩ := canonicalToolInput_of_parse hjs hb hcb
  exact stringify_eq_iff hjs hv hw

theorem canonicalToolInput_eq_iff_proto :
    zerosJs.stringify (stableJson inputBA) = zerosJs.stringify (stableJson inputProto) ↔
    same (kept inputBA) (kept inputProto) = true :=
  canonicalToolInput_eq_iff zerosJs_standard (zerosJs_standard.parse_stringify _ plain_inputBA)
    (zerosJs_standard.parse_stringify _ plain_inputProto) canonical_inputBA canonical_inputProto

theorem canonicalToolInput_idem (hjs : js.Standard number) {detail : Option String}
    {canonical : String}
    (h : canonicalToolInput js detail = some canonical) :
    canonicalToolInput js (some canonical) = some canonical := by
  obtain ⟨text, v, -, hparse, rfl, hle⟩ := canonicalToolInput_eq_some h
  have hv := hjs.parse_wellFormed text v hparse
  have hidem := stableJson_idem ((kept_all hv.all).mono (fun _ h => h) fun _ h => h.1)
  rw [stringify_stableJson hjs hv] at hle ⊢
  have hagain := canonicalToolInput_stringify hjs (stableJson_kept_plain hv) hle (hidem.symm ▸ hle)
  rwa [hidem] at hagain

theorem canonicalToolInput_idem_proto :
    canonicalToolInput zerosJs (some (zerosJs.stringify (stableJson inputProto))) =
      some (zerosJs.stringify (stableJson inputProto)) :=
  canonicalToolInput_idem zerosJs_standard canonical_inputProto

/-! ## Rules over a run -/

theorem write_strings (texts : List String) :
    write number (.arr (texts.map .str)) = Quote.array texts := by
  have hmore : ∀ texts : List String,
      Prefix.more ',' ']' ((texts.map Json.str).map (write number)) = Quote.more texts := by
    intro texts
    induction texts with
    | nil => rfl
    | cons s texts ih => rw [List.map_cons, List.map_cons, Prefix.more, ih, write, Quote.more]
  rw [write, writeElems_eq]
  cases texts with
  | nil => rfl
  | cons s texts => rw [List.map_cons, List.map_cons, Prefix.joined, hmore, write, Quote.array]

theorem Js.Standard.quotesStrings (hjs : js.Standard number) : js.QuotesStrings := fun texts => by
  rw [hjs.stringify_eq, write_strings]

namespace Raw

/-- What changes the rules: a request is to be allowed from now on, or the policy is stored and
loaded. -/
inductive RuleEvent where
  | learn (category title : String) (detail : Option String)
  | reload

/-- A rule is learned, or the policy is stored and loaded. -/
def stepRules (js : Js) (policy : ApprovalPolicy) : RuleEvent → ApprovalPolicy
  | .learn category title detail => (learnExactAllowRule js policy category title (canonicalToolInput js detail)).getD policy
  | .reload => persistentPolicy js policy

variable {p q : ApprovalPolicy} {category title : String} {input detail : Option String}
  {rule : ExactAllowRule}
  {events : List RuleEvent}

/-- A rule that was learned is still one when it is loaded. -/
theorem accepted_of_eq_some (h : exactAllowRule js category title input = some rule) :
    accepted js rule = true := by
  obtain ⟨hc, ht, hi, -⟩ := exactAllowRule_eq_some h
  rw [accepted, ← hc, ← ht, ← hi, h, Option.isSome_some]

/-- The rules after learning. -/
theorem mem_learn (hjs : js.QuotesStrings) :
    rule ∈ ((learnExactAllowRule js p category title input).getD p).exactAllowRules ↔
      rule ∈ p.exactAllowRules ∨ exactAllowRule js category title input = some rule := by
  rw [learnExactAllowRule]
  cases hr : exactAllowRule js category title input with
  | none => simp
  | some candidate =>
    dsimp only
    split
    next hhas =>
      obtain ⟨stored, hmem, heq⟩ := (hasExactAllowRule_iff hjs).mp hhas
      rw [hr] at heq
      obtain rfl := Option.some.inj heq
      rw [Option.getD_some, Option.some.injEq]
      exact ⟨.inl, fun h => h.elim id fun h => h ▸ hmem⟩
    · rw [Option.getD_some, List.mem_append, List.mem_singleton, Option.some.injEq,
        eq_comm (a := rule)]

theorem mem_reload (hjs : js.QuotesStrings) :
    rule ∈ (persistentPolicy js p).exactAllowRules ↔ rule ∈ p.exactAllowRules ∧
      accepted js rule = true := by
  simp only [persistentPolicy, keepRule_eq]
  rw [← Keep.keepAll, Keep.mem_keepAll fun _ _ => ruleKey_inj hjs]

/-- The rules after a run are those of the requests that were to be allowed. -/
theorem mem_rules (hjs : js.QuotesStrings) (hp : p.exactAllowRules = []) (events : List RuleEvent) :
    rule ∈ (Run.run (stepRules js) p events).exactAllowRules ↔
      ∃ category title detail, .learn category title detail ∈ events ∧
        exactAllowRule js category title (canonicalToolInput js detail) = some rule := by
  induction events using List.reverseRecOn with
  | nil => simp [hp]
  | append_singleton events event ih =>
    rw [Run.run_append, Run.run_cons, Run.run_nil]
    simp only [List.mem_append, List.mem_singleton, or_and_right, exists_or]
    cases event with
    | learn category title detail =>
      rw [stepRules, mem_learn hjs, ih]
      refine or_congr_right ⟨fun h => ⟨category, title, detail, rfl, h⟩, ?_⟩
      rintro ⟨_, _, _, heq, h⟩
      cases heq
      exact h
    | reload =>
      rw [stepRules, mem_reload hjs, ih]
      constructor
      · exact fun h => .inl h.1
      · rintro (h | ⟨_, _, _, heq, -⟩)
        · obtain ⟨_, _, _, -, hrule⟩ := id h
          exact ⟨h, accepted_of_eq_some hrule⟩
        · cases heq

/-- After any run that starts without rules, a request has a rule if and only if it can have one and
one of the requests that were to be allowed is of its category and title, with an input equal to its
own. -/
theorem rules_of_run (hjs : js.Standard number) (hp : p.exactAllowRules = [])
    (events : List RuleEvent)
    (category title : String)
    {text : String} (htext : js.parse text = some w) :
    hasExactAllowRule js (Run.run (stepRules js) p events) category title (canonicalToolInput js (some text)) = true ↔
      exactAllowRule js category title (canonicalToolInput js (some text)) ≠ none ∧
        ∃ learned v, .learn category title (some learned) ∈ events ∧
          canonicalToolInput js (some learned) ≠ none ∧
          js.parse learned = some v ∧ same (kept v) (kept w) = true := by
  rw [hasExactAllowRule_iff hjs.quotesStrings]
  constructor
  · rintro ⟨rule, hmem, hrule⟩
    obtain ⟨category', title', detail, hevent, hlearned⟩ :=
      (mem_rules hjs.quotesStrings hp events).mp hmem
    obtain ⟨hc, ht, hi, -⟩ := exactAllowRule_eq_some hrule
    obtain ⟨hc', ht', hi', -⟩ := exactAllowRule_eq_some hlearned
    obtain ⟨learned, v, rfl, hparse, -⟩ := canonicalToolInput_eq_some hi'
    refine ⟨by rw [hrule]; exact nofun, learned, v, ?_, by rw [hi']; exact nofun, hparse, ?_⟩
    · rwa [hc, ht, ← hc', ← ht']
    · obtain ⟨hv, hwf⟩ := canonicalToolInput_of_parse hjs hparse hi'
      obtain ⟨hw, hwf'⟩ := canonicalToolInput_of_parse hjs htext hi
      exact (stringify_eq_iff hjs hwf hwf').mp (hv.symm.trans hw)
  · rintro ⟨hsome, learned, v, hevent, haccepted, hparse, hsame⟩
    obtain ⟨rule, hrule⟩ := Option.ne_none_iff_exists'.mp hsome
    obtain ⟨canonical, hlearned⟩ := Option.ne_none_iff_exists'.mp haccepted
    obtain ⟨-, -, hi, -⟩ := exactAllowRule_eq_some hrule
    refine ⟨rule, (mem_rules hjs.quotesStrings hp events).mpr ⟨category, title, some learned, hevent, ?_⟩, hrule⟩
    obtain ⟨hv, hwf⟩ := canonicalToolInput_of_parse hjs hparse hlearned
    obtain ⟨hw, hwf'⟩ := canonicalToolInput_of_parse hjs htext hi
    rw [hlearned, hv, (stringify_eq_iff hjs hwf hwf').mpr hsame, ← hw, ← hi, hrule]

/-- A policy without rules. -/
def noRules : ApprovalPolicy :=
  { tier := "readonly", sessionOverrides := fun _ => none, promptExceptions := [], exactAllowRules := [] }

theorem rules_of_run_proto :
    hasExactAllowRule zerosJs
        (Run.run (stepRules zerosJs) noRules [.learn "read" "Read a file" (some (zerosJs.stringify inputBA)), .reload])
        "read" "Read a file" (canonicalToolInput zerosJs (some (zerosJs.stringify inputProto))) =
          true ↔
      exactAllowRule zerosJs "read" "Read a file" (canonicalToolInput zerosJs (some (zerosJs.stringify inputProto))) ≠ none ∧
        ∃ learned v, .learn "read" "Read a file" (some learned) ∈
            ([.learn "read" "Read a file" (some (zerosJs.stringify inputBA)), .reload] : List RuleEvent) ∧
          canonicalToolInput zerosJs (some learned) ≠ none ∧ zerosJs.parse learned = some v ∧
            same (kept v) (kept inputProto) = true :=
  rules_of_run zerosJs_standard rfl _ _ _ (zerosJs_standard.parse_stringify _ plain_inputProto)

end Raw

end Policy

end Portty
