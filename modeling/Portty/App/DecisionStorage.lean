import Mathlib.Data.List.Forall2
import Mathlib.Logic.Function.Basic
import Portty.App.Policy

/-!
# The stored decision log (`decisionLog.ts`)

Entries are redacted when they are written, when they are loaded and when they are moved out of the
WebView. What is stored is any JSON: `redactForStorage` throws for `null`, and for an object that
cannot be made a string.

* `redact_idempotent`, `redactAll_clean`: what is redacted is no secret.
* `loadDecisionLog_quiet`, `migrate_kept`: when a load does not throw, and when a migration does not
  lose entries.
* `decision_log_storage`: over every run, the log is safe when these conditions hold at its steps
  (`Calm`).
-/

namespace Portty.DecisionStorage

open Policy (Json Js setField touchesSensitivePath looksLikeSecretValue)

/-! ## Redaction -/

/-- With the text of a number. -/
structure Runtime extends Js where
  numberText : UInt64 → String

/-- A text of ASCII characters is lowered one by one, and an array that `JSON.stringify` has written
is read as an array of the same length. -/
structure Runtime.Lawful (rt : Runtime) : Prop where
  lower : ∀ text : String, text.toList.all (fun c => c.toNat < 128) = true → rt.toLowerCase text = text.toLower
  array : ∀ entries, ∃ read, rt.parse (rt.stringify (.arr entries)) = some (.arr read) ∧ read.length = entries.length

/-- What is stored in place of a text. -/
def redactedForStorage : String := "[redacted - not stored on this device]"

/-- Either check is enough. -/
def looksLikeSecretToStore (js : Js) (title : String) (input : Option String) : Bool :=
  touchesSensitivePath js title input || looksLikeSecretValue title input

variable (rt : Runtime)

mutual

/-- `${value}`: `none` when it throws. A property named `toString` hides the inherited one and is no
function. -/
def textOf : Json → Option String
  | .null => some "null"
  | .bool b => some (if b then "true" else "false")
  | .num bits => some (rt.numberText bits)
  | .str s => some s
  | .arr elems => (textsOf elems).map (",".intercalate ·)
  | .obj fields => if fields.any (·.1 = "toString") then none else some "[object Object]"

/-- The elements as `join` writes them. -/
def textsOf : List Json → Option (List String)
  | [] => some []
  | .null :: rest => (textsOf rest).map ("" :: ·)
  | value :: rest => (textOf value).bind fun text => (textsOf rest).map (text :: ·)

end

/-- The own properties that an object spread copies. A string has none here: it is never spread, for
it has no title. -/
def ownFields : Json → List (String × Json)
  | .obj fields => fields
  | .arr elems => elems.mapIdx fun i value => (toString i, value)
  | _ => []

/-- `entry[key]`: `none` is `undefined`. -/
def property (entry : Json) (key : String) : Option Json :=
  match entry with
  | .obj fields => (fields.find? (·.1 = key)).map (·.2)
  | _ => none

/-- `value === null` -/
def isNull : Json → Bool
  | .null => true
  | _ => false

/-- `entry.input ?? null` -/
def inputOf (entry : Json) : Option Json := (property entry "input").filter (!isNull ·)

/-- The title as a template string gives it; none where that throws. -/
def titleText (entry : Json) : Option String :=
  match property entry "title" with
  | none => some "undefined"
  | some value => textOf rt value

/-- The input as a text, if there is one. -/
def inputText (entry : Json) : Option (Option String) :=
  match inputOf entry with
  | none => some none
  | some value => (textOf rt value).map some

/-- The title and the input of the entry look like a secret: `none` when this throws. -/
def isSecret (entry : Json) : Option Bool :=
  match entry with
  | .null => none
  | entry => (titleText rt entry).bind fun title => (inputText rt entry).map (looksLikeSecretToStore rt.toJs title)

/-- The entry without its texts. -/
def redacted (entry : Json) : Json :=
  let input := if (inputOf entry).isNone then .null else .str redactedForStorage
  .obj (setField (setField (ownFields entry) "title" (.str redactedForStorage)) "input" input)

/-- The entry, and whether it is another object than before. -/
def redactForStorage (entry : Json) : Option (Json × Bool) :=
  (isSecret rt entry).map fun secret => if secret then (redacted entry, true) else (entry, false)

/-! ## The stores -/

/-- A write to a store. The last one is done, and reported as a failure. -/
inductive WriteOutcome where
  | stored
  | lost
  | storedAndFailed
  deriving DecidableEq

/-- How the calls to the stores go: a flag is set where one throws. -/
structure Faults where
  webViewGet : Bool
  coreGet : Bool
  coreSet : WriteOutcome
  webViewRemove : Bool

/-- The texts of both stores by their keys. -/
structure World where
  webView : String → Option String
  core : String → Option String

/-- What a call has left, whether it threw, and what it wrote. -/
structure Ran where
  world : World
  threw : Bool
  /-- The entries that were given to `setItem`. -/
  written : Option (List Json)

/-- One log for each host. -/
def decisionKey (host : String) : String := "portty:decision-log:" ++ host

/-- The entries are written; it can fail before or after they are stored. -/
def setItem (f : Faults) (w : World) (key : String) (entries : List Json) : Ran :=
  let stored : World :=
    { w with core := Function.update w.core key (some (rt.stringify (.arr entries))) }
  match f.coreSet with
  | .stored => ⟨stored, false, some entries⟩
  | .lost => ⟨w, true, some entries⟩
  | .storedAndFailed => ⟨stored, true, some entries⟩

/-- All entries are cleaned, then the log is written. -/
def persistDecisionLog (f : Faults) (w : World) (host : String) (entries : List Json) : Ran :=
  match entries.mapM (redactForStorage rt) with
  | none => ⟨w, true, none⟩
  | some cleaned => setItem rt f w (decisionKey host) (cleaned.map (·.1))

/-- What the core store has: an absent text is read as `[]`. -/
def coreContent (w : World) (host : String) : Option Json :=
  rt.parse ((w.core (decisionKey host)).getD "[]")

/-- The entries are returned when it does not throw. -/
def loadDecisionLog (f : Faults) (w : World) (host : String) : Ran × List Json :=
  if f.coreGet then (⟨w, false, none⟩, [])
  else
    match coreContent rt w host with
    | some (.arr stored) =>
      match stored.mapM (redactForStorage rt) with
      | none => (⟨w, true, none⟩, [])
      | some cleaned =>
        if cleaned.any (·.2) then (setItem rt f w (decisionKey host) (cleaned.map (·.1)), cleaned.map (·.1))
        else (⟨w, false, none⟩, cleaned.map (·.1))
    | _ => (⟨w, false, none⟩, [])

/-- The `try` block of the migration. -/
def importEntries (f : Faults) (w : World) (host raw : String) : Ran :=
  match rt.parse raw with
  | none => ⟨w, true, none⟩
  | some (.arr (entry :: rest)) =>
    if f.coreGet then ⟨w, true, none⟩
    else
      match coreContent rt w host with
      | none => ⟨w, true, none⟩
      | some (.arr (_ :: _)) => ⟨w, false, none⟩
      | some _ => persistDecisionLog rt f w host (entry :: rest)
  | some _ => ⟨w, false, none⟩

/-- Whatever the import throws is caught, and the copy is removed. -/
def migrateDecisionLogFromLocalStorage (f : Faults) (w : World) (host : String) : Ran :=
  if f.webViewGet then ⟨w, true, none⟩
  else
    match w.webView (decisionKey host) with
    | none => ⟨w, false, none⟩
    | some raw =>
      let imported := importEntries rt f w host raw
      if f.webViewRemove then { imported with threw := true }
      else
        { imported with
          world := { imported.world with webView := Function.update imported.world.webView (decisionKey host) none }
          threw := false }

/-! ## Runs -/

/-- The calls that touch the storage. -/
inductive Call where
  | persist (host : String) (entries : List Json) (f : Faults)
  | load (host : String) (f : Faults)
  | migrate (host : String) (f : Faults)

/-- One call. -/
def step (w : World) : Call → Ran
  | .persist host entries f => persistDecisionLog rt f w host entries
  | .load host f => (loadDecisionLog rt f w host).1
  | .migrate host f => migrateDecisionLogFromLocalStorage rt f w host

/-- Every call of a run, with the world that it starts from. -/
def steps (w : World) : List Call → List (World × Call)
  | [] => []
  | call :: calls => (w, call) :: steps (step rt w call).world calls

/-- The entries of a text, none where it is not an array. -/
def entriesOf (content : Option Json) : List Json :=
  match content with
  | some (.arr entries) => entries
  | _ => []

/-- The copy of the WebView is there and is removed. -/
def Removes (w : World) (host : String) (ran : Ran) : Prop :=
  (w.webView (decisionKey host)).isSome = true ∧ ran.world.webView (decisionKey host) = none

/-- What the web view has for a host. -/
def copied (w : World) (host : String) : List Json :=
  entriesOf ((w.webView (decisionKey host)).bind rt.parse)

/-- The entries of the copy, redacted, are in the core store. -/
def Imported (w : World) (host : String) (ran : Ran) : Prop :=
  ∃ cleaned, (copied rt w host).mapM (redactForStorage rt) = some cleaned ∧
    ran.world.core (decisionKey host) = some (rt.stringify (.arr (cleaned.map (·.1))))

/-- What one call keeps to. -/
def CallOk (w : World) : Call → Prop
  | .persist .. => True
  | .load host f => (loadDecisionLog rt f w host).1.threw = false
  | .migrate host f =>
    let ran := migrateDecisionLogFromLocalStorage rt f w host
    Removes w host ran → Imported rt w host ran ∨ entriesOf (coreContent rt w host) ≠ [] ∨ copied rt w host = []

/-- Nothing that is written looks like a secret, and cleaning changes nothing else. -/
structure LogSafe (w : World) (calls : List Call) : Prop where
  idempotent : ∀ entry other changed,
    redactForStorage rt entry = some (other, changed) → redactForStorage rt other = some (other, false)
  unchanged : ∀ entry, isSecret rt entry = some false → redactForStorage rt entry = some (entry, false)
  clean : ∀ p ∈ steps rt w calls, ∀ entries ∈ (step rt p.1 p.2).written, ∀ entry ∈ entries, isSecret rt entry = some false
  calls : ∀ p ∈ steps rt w calls, CallOk rt p.1 p.2

/-! ## When a call keeps to it -/

/-- It is not `null`, and its title and its input have a text. -/
def Readable (entry : Json) : Prop :=
  entry ≠ .null ∧ (∀ title ∈ property entry "title", (textOf rt title).isSome = true) ∧
    ∀ input ∈ property entry "input", (textOf rt input).isSome = true

/-- The conditions on the stored texts and on the calls to the stores.

* A load that gets the text of the core store finds readable entries in it, and its write is not
  lost or reported as a failure when one of them is a secret.
* A migration that gets and removes a copy with entries finds entries in the core store too; or it
  gets an array without entries or another value from there, the entries of the copy are readable,
  and its write is not lost. -/
def Calm (w : World) : Call → Prop
  | .persist .. => True
  | .load host f => f.coreGet = false → ∀ entry ∈ entriesOf (coreContent rt w host),
      Readable rt entry ∧ (isSecret rt entry = some true → f.coreSet = .stored)
  | .migrate host f => f.webViewGet = false → f.webViewRemove = false → copied rt w host ≠ [] →
      entriesOf (coreContent rt w host) ≠ [] ∨
        (f.coreGet = false ∧ (coreContent rt w host).isSome = true ∧ (∀ entry ∈ copied rt w host, Readable rt entry) ∧
          f.coreSet ≠ .lost)

/-! ## Facts about properties -/

section Properties

variable {fields : List (String × Json)} {key other : String} {value : Json}

/-- Where the property is there, only its value changes. -/
theorem find_map_value (fields : List (String × Json)) (key : String) (value : Json)
    (name : String) :
    (fields.map fun field => if field.1 = key then (key, value) else field).find? (·.1 = name) =
      (fields.find? (·.1 = name)).map fun field => if field.1 =
        key then (key, value) else field := by
  rw [List.find?_map]
  congr 2
  funext field
  simp only [Function.comp_apply]
  split_ifs with h
  · rw [h]
  · rfl

/-- A field that is set is found. -/
theorem find_setField (hkey : key ≠ "__proto__") :
    (setField fields key value).find? (·.1 = key) = some (key, value) := by
  rw [setField, if_neg hkey]
  split_ifs with hany
  · obtain ⟨field, hfind⟩ := Option.isSome_iff_exists.mp (List.find?_isSome.mpr (List.any_eq_true.mp hany))
    have hfield : field.1 = key := by simpa using List.find?_some hfind
    rw [find_map_value, hfind, Option.map_some, if_pos hfield]
  · have hnone : ∀ part : List (String × Json), (∀ field ∈ part, field ∈ fields) →
        part.find? (·.1 = key) = none := by
      refine fun part hsub => List.find?_eq_none.mpr fun field hfield hk => hany ?_
      exact List.any_eq_true.mpr ⟨field, hsub field hfield, hk⟩
    cases Policy.arrayIndex key with
    | none =>
      rw [List.find?_append, hnone fields fun _ h => h]
      simp
    | some n =>
      simp only
      rw [List.find?_append, hnone _ fun _ h => (List.takeWhile_sublist _).mem h]
      simp

/-- The other fields are found as before. -/
theorem find_setField_of_ne (hother : other ≠ key) :
    (setField fields key value).find? (·.1 = other) = fields.find? (·.1 = other) := by
  have hskip : ∀ part : List (String × Json),
      ((key, value) :: part).find? (·.1 = other) = part.find? (·.1 = other) :=
    fun part => List.find?_cons_of_neg (by simp [hother.symm])
  rw [setField]
  split_ifs with hproto hany
  · rfl
  · rw [find_map_value]
    cases hfind : fields.find? (·.1 = other) with
    | none => rfl
    | some field =>
      have hfield : field.1 = other := by simpa using List.find?_some hfind
      rw [Option.map_some, if_neg (by rw [hfield]; exact hother)]
  · cases Policy.arrayIndex key with
    | none =>
      simp only
      rw [List.find?_append, hskip, List.find?_nil, Option.or_none]
    | some n =>
      simp only
      rw [List.find?_append, hskip, ← List.find?_append, List.takeWhile_append_dropWhile]

end Properties

/-! ## Redaction is done once -/

section Redaction

variable {rt} {entry other : Json} {changed : Bool}

/-- The marker does not look like a secret itself. -/
theorem marker_plain (hrt : rt.Lawful) (input : Option String)
    (hinput : ∀ text ∈ input, text = redactedForStorage) :
    looksLikeSecretToStore rt.toJs redactedForStorage input = false := by
  cases input with
  | none =>
    have hlower : rt.toLowerCase (redactedForStorage ++ "\n" ++ "") =
        redactedForStorage ++ "\n" ++ "" :=
      (hrt.lower _ (by decide +kernel)).trans (by decide +kernel)
    rw [looksLikeSecretToStore, touchesSensitivePath, looksLikeSecretValue, Option.getD_none,
      hlower]
    decide +kernel
  | some text =>
    rw [hinput text rfl]
    have hlower : rt.toLowerCase (redactedForStorage ++ "\n" ++ redactedForStorage) =
        redactedForStorage ++ "\n" ++ redactedForStorage := (hrt.lower _ (by decide +kernel)).trans (by decide +kernel)
    rw [looksLikeSecretToStore, touchesSensitivePath, looksLikeSecretValue, Option.getD_some,
      hlower]
    decide +kernel

theorem isSecret_eq (hnull : entry ≠ .null) : isSecret rt entry =
    (titleText rt entry).bind fun title => (inputText rt entry).map (looksLikeSecretToStore rt.toJs title) := by
  cases entry with
  | null => exact absurd rfl hnull
  | _ => rfl

/-- An entry that was redacted has no secrets. -/
theorem isSecret_redacted (hrt : rt.Lawful) (entry : Json) :
    isSecret rt (redacted entry) = some false := by
  have htitle : property (redacted entry) "title" = some (.str redactedForStorage) := by
    rw [redacted, property, find_setField_of_ne (by decide), find_setField (by decide)]
    rfl
  have hinput : property (redacted entry) "input" =
      some (if (inputOf entry).isNone then .null else .str redactedForStorage) := by
    rw [redacted, property, find_setField (by decide)]
    rfl
  have hnull : redacted entry ≠ .null := fun h => by cases h
  rw [isSecret_eq hnull, titleText, htitle, inputText, inputOf, hinput]
  by_cases h : (inputOf entry).isNone = true
  · rw [if_pos h]
    exact congrArg some (marker_plain hrt none fun _ ht => absurd ht (by simp))
  · rw [if_neg h]
    exact congrArg some (marker_plain hrt (some redactedForStorage) fun _ ht => (Option.some.inj ht).symm)

theorem redactForStorage_clean (hrt : rt.Lawful)
    (h : redactForStorage rt entry = some (other, changed)) :
    isSecret rt other = some false := by
  obtain ⟨secret, hsecret, hother⟩ := Option.map_eq_some_iff.mp h
  cases secret with
  | false =>
    obtain ⟨rfl, -⟩ := Prod.mk.inj hother
    exact hsecret
  | true =>
    obtain ⟨rfl, -⟩ := Prod.mk.inj hother
    exact isSecret_redacted hrt entry

theorem redactForStorage_self (h : isSecret rt entry = some false) :
    redactForStorage rt entry = some (entry, false) := by
  rw [redactForStorage, h]
  rfl

theorem redact_idempotent (hrt : rt.Lawful)
    (h : redactForStorage rt entry = some (other, changed)) :
    redactForStorage rt other = some (other, false) :=
  redactForStorage_self (redactForStorage_clean hrt h)

end Redaction

/-! ## A list of entries -/

section Entries

/-- All of the list succeed. -/
theorem mapM_eq_some {α β : Type} {f : α → Option β} {as : List α} {bs : List β} :
    as.mapM f = some bs ↔ List.Forall₂ (fun a b => f a = some b) as bs := by
  induction as generalizing bs with
  | nil =>
    rw [List.mapM_nil, List.forall₂_nil_left_iff]
    exact ⟨fun h => (Option.some.inj h).symm, fun h => congrArg some h.symm⟩
  | cons a as ih =>
    rw [List.mapM_cons, List.forall₂_cons_left_iff]
    constructor
    · intro h
      obtain ⟨b, hb, h⟩ := Option.bind_eq_some_iff.mp h
      obtain ⟨rest, hrest, h⟩ := Option.bind_eq_some_iff.mp h
      exact ⟨b, rest, hb, ih.mp hrest, (Option.some.inj h).symm⟩
    · rintro ⟨b, rest, hb, hrest, rfl⟩
      rw [hb, ih.mpr hrest]
      rfl

theorem exists_of_mem {α β : Type} {R : α → β → Prop} {as : List α} {bs : List β}
    (h : List.Forall₂ R as bs) {a : α}
    (ha : a ∈ as) : ∃ b ∈ bs, R a b := by
  induction h with
  | nil => exact absurd ha List.not_mem_nil
  | @cons first b as bs hfirst _ ih =>
    rcases List.mem_cons.mp ha with rfl | ha
    · exact ⟨b, List.mem_cons_self, hfirst⟩
    · obtain ⟨b', hb', hr⟩ := ih ha
      exact ⟨b', List.mem_cons_of_mem b hb', hr⟩

theorem mapM_isSome {α β : Type} (f : α → Option β) (as : List α) :
    (as.mapM f).isSome = true ↔ ∀ a ∈ as, (f a).isSome = true := by
  induction as with
  | nil => exact ⟨fun _ _ h => absurd h List.not_mem_nil, fun _ => rfl⟩
  | cons a as ih =>
    rw [List.mapM_cons, List.forall_mem_cons, ← ih]
    cases f a with
    | none => simp
    | some b => cases as.mapM f <;> simp

variable {rt} {entry : Json} {entries : List Json} {cleaned : List (Json × Bool)}

/-- An entry can be read if the check for secrets comes to an end. -/
theorem readable_iff (entry : Json) : Readable rt entry ↔ (isSecret rt entry).isSome = true := by
  by_cases hnull : entry = .null
  · rw [hnull]
    exact ⟨fun h => absurd rfl h.1, fun h => absurd h (by simp [isSecret])⟩
  · have htitle : (titleText rt entry).isSome = true ↔ ∀ title ∈ property entry "title",
        (textOf rt title).isSome = true := by
      rw [titleText]
      cases property entry "title" <;> simp
    have hinput : (inputText rt entry).isSome = true ↔ ∀ input ∈ property entry "input",
        (textOf rt input).isSome = true := by
      rw [inputText, inputOf]
      cases property entry "input" with
      | none => simp
      | some value =>
        cases value <;> simp [textOf, isNull, Option.filter]
    rw [Readable, ← htitle, ← hinput, isSecret_eq hnull]
    cases titleText rt entry <;> cases inputText rt entry <;> simp [hnull]

theorem redactForStorage_isSome (entry : Json) :
    (redactForStorage rt entry).isSome = true ↔ Readable rt entry := by
  rw [redactForStorage, Option.isSome_map, readable_iff]

theorem redactAll_clean (hrt : rt.Lawful) (h : entries.mapM (redactForStorage rt) = some cleaned) :
    ∀ entry ∈ cleaned.map (·.1), isSecret rt entry = some false := by
  intro entry hentry
  obtain ⟨pair, hpair, rfl⟩ := List.mem_map.mp hentry
  obtain ⟨before, -, hbefore⟩ := exists_of_mem (mapM_eq_some.mp h).flip hpair
  exact redactForStorage_clean hrt hbefore

/-- An entry is another object than before when it is a secret. -/
theorem redactAll_changed (h : entries.mapM (redactForStorage rt) = some cleaned) :
    cleaned.any (·.2) = true ↔ ∃ entry ∈ entries, isSecret rt entry = some true := by
  have hall := mapM_eq_some.mp h
  constructor
  · intro hany
    obtain ⟨⟨other, changed⟩, hpair, hchanged⟩ := List.any_eq_true.mp hany
    obtain ⟨entry, hentry, hredact⟩ := exists_of_mem hall.flip hpair
    obtain ⟨secret, hsecret, hother⟩ := Option.map_eq_some_iff.mp hredact
    cases secret with
    | false =>
      obtain ⟨-, rfl⟩ := Prod.mk.inj hother
      cases hchanged
    | true => exact ⟨entry, hentry, hsecret⟩
  · rintro ⟨entry, hentry, hsecret⟩
    obtain ⟨pair, hpair, hredact⟩ := exists_of_mem hall hentry
    rw [redactForStorage, hsecret] at hredact
    exact List.any_eq_true.mpr ⟨pair, hpair, by rw [← Option.some.inj hredact]; rfl⟩

end Entries

/-! ## One call -/

section Calls

variable {rt} {f : Faults} {w : World} {host raw : String} {entries : List Json}

theorem setItem_written (key : String) : (setItem rt f w key entries).written = some entries := by
  rw [setItem]
  cases f.coreSet <;> rfl

theorem setItem_threw (key : String) :
    (setItem rt f w key entries).threw = false ↔ f.coreSet = .stored := by
  rw [setItem]
  cases f.coreSet <;> simp

theorem setItem_webView (key : String) :
    (setItem rt f w key entries).world.webView = w.webView := by
  rw [setItem]
  cases f.coreSet <;> rfl

theorem setItem_core (key : String) (h : f.coreSet ≠ .lost) :
    (setItem rt f w key entries).world.core key = some (rt.stringify (.arr entries)) := by
  rw [setItem]
  cases hset : f.coreSet with
  | lost => exact absurd hset h
  | _ => exact Function.update_self key _ w.core

theorem persist_webView : (persistDecisionLog rt f w host entries).world.webView = w.webView := by
  rw [persistDecisionLog]
  cases entries.mapM (redactForStorage rt) with
  | none => rfl
  | some cleaned => exact setItem_webView _

/-- Nothing is stored that looks like a secret. -/
theorem persist_clean (hrt : rt.Lawful) :
    ∀ written ∈ (persistDecisionLog rt f w host entries).written,
    ∀ entry ∈ written, isSecret rt entry = some false := by
  intro written hwritten
  rw [persistDecisionLog] at hwritten
  cases h : entries.mapM (redactForStorage rt) with
  | none =>
    rw [h] at hwritten
    cases hwritten
  | some cleaned =>
    rw [h] at hwritten
    have : (some (cleaned.map (·.1)) : Option (List Json)) = some written :=
      (setItem_written _).symm.trans hwritten
    rw [← Option.some.inj this]
    exact redactAll_clean hrt h

/-- What is written back after loading has no secrets either. -/
theorem load_clean (hrt : rt.Lawful) : ∀ written ∈ (loadDecisionLog rt f w host).1.written,
    ∀ entry ∈ written, isSecret rt entry = some false := by
  intro written hwritten
  rw [loadDecisionLog] at hwritten
  split_ifs at hwritten
  · cases hwritten
  · split at hwritten
    next stored hcontent =>
      split at hwritten
      next => cases hwritten
      next cleaned h =>
        split_ifs at hwritten
        · have : (some (cleaned.map (·.1)) : Option (List Json)) = some written := (setItem_written _).symm.trans hwritten
          rw [← Option.some.inj this]
          exact redactAll_clean hrt h
        · cases hwritten
    next => cases hwritten

/-- A load that gets the text throws at an entry that is not readable, or when it cannot write. -/
theorem loadDecisionLog_quiet :
    (loadDecisionLog rt f w host).1.threw = false ↔ Calm rt w (.load host f) := by
  rw [loadDecisionLog, Calm]
  split_ifs with hget
  · exact ⟨fun _ h => absurd hget (by rw [h]; decide), fun _ => rfl⟩
  · refine Iff.trans ?_ ⟨fun h _ => h, fun h => h (Bool.eq_false_iff.mpr hget)⟩
    split
    next stored hcontent =>
      rw [hcontent, entriesOf]
      have hread := mapM_isSome (redactForStorage rt) stored
      cases h : stored.mapM (redactForStorage rt) with
      | none =>
        rw [h] at hread
        refine ⟨fun hthrew => by simp at hthrew, fun hall => ?_⟩
        have :=
          hread.mpr fun entry hentry => (redactForStorage_isSome entry).mpr (hall entry hentry).1
        cases this
      | some cleaned =>
        rw [h] at hread
        have hreadable : ∀ entry ∈ stored, Readable rt entry := fun entry hentry =>
          (redactForStorage_isSome entry).mp (hread.mp rfl entry hentry)
        simp only
        split_ifs with hany
        · obtain ⟨entry, hentry, hsecret⟩ := (redactAll_changed h).mp hany
          rw [setItem_threw]
          exact ⟨fun hset e he => ⟨hreadable e he, fun _ => hset⟩, fun hall => (hall entry hentry).2 hsecret⟩
        · refine ⟨fun _ e he => ⟨hreadable e he, fun hsecret => ?_⟩, fun _ => rfl⟩
          exact absurd ((redactAll_changed h).mpr ⟨e, he, hsecret⟩) hany
    next hcontent =>
      have hnone : entriesOf (coreContent rt w host) = [] := by
        rw [entriesOf]
        exact hcontent
      rw [hnone]
      exact ⟨fun _ entry hentry => absurd hentry List.not_mem_nil, fun _ => rfl⟩

theorem import_webView : (importEntries rt f w host raw).world.webView = w.webView := by
  rw [importEntries]
  split
  · rfl
  · split_ifs
    · rfl
    · split
      · rfl
      · rfl
      · exact persist_webView
  · rfl

theorem import_clean (hrt : rt.Lawful) : ∀ written ∈ (importEntries rt f w host raw).written,
    ∀ entry ∈ written, isSecret rt entry = some false := by
  intro written hwritten
  rw [importEntries] at hwritten
  split at hwritten
  · cases hwritten
  · split_ifs at hwritten
    · cases hwritten
    · split at hwritten
      · cases hwritten
      · cases hwritten
      · exact persist_clean hrt written hwritten
  · cases hwritten

/-- There is no copy to read. -/
theorem migrate_absent (rt : Runtime) (h : f.webViewGet = true ∨ w.webView (decisionKey host) = none) :
    (migrateDecisionLogFromLocalStorage rt f w host).world = w ∧
      (migrateDecisionLogFromLocalStorage rt f w host).written = none := by
  rw [migrateDecisionLogFromLocalStorage]
  by_cases hget : f.webViewGet = true
  · rw [if_pos hget]
    exact ⟨rfl, rfl⟩
  · rw [if_neg hget, h.resolve_left hget]
    exact ⟨rfl, rfl⟩

/-- The copy is read, imported and removed. -/
theorem migrate_present (rt : Runtime) (hget : f.webViewGet = false)
    (hraw : w.webView (decisionKey host) = some raw) :
    let ran := migrateDecisionLogFromLocalStorage rt f w host
    ran.world.core = (importEntries rt f w host raw).world.core ∧ ran.written = (importEntries rt f w host raw).written ∧
      ran.world.webView (decisionKey host) = if f.webViewRemove then some raw else none := by
  have hkept : (importEntries rt f w host raw).world.webView (decisionKey host) = some raw := by
    rw [import_webView, hraw]
  have hgone : Function.update (importEntries rt f w host raw).world.webView (decisionKey host) none (decisionKey host) =
      none := Function.update_self ..
  rw [migrateDecisionLogFromLocalStorage, if_neg (Bool.eq_false_iff.mp hget), hraw]
  cases f.webViewRemove with
  | true => exact ⟨rfl, rfl, hkept⟩
  | false => exact ⟨rfl, rfl, hgone⟩

theorem migrate_clean (hrt : rt.Lawful) :
    ∀ written ∈ (migrateDecisionLogFromLocalStorage rt f w host).written,
    ∀ entry ∈ written, isSecret rt entry = some false := by
  intro written hwritten
  by_cases habsent : f.webViewGet = true ∨ w.webView (decisionKey host) = none
  · rw [(migrate_absent rt habsent).2] at hwritten
    cases hwritten
  · obtain ⟨hget, hcopy⟩ := not_or.mp habsent
    obtain ⟨raw, hraw⟩ := Option.ne_none_iff_exists'.mp hcopy
    rw [(migrate_present rt (Bool.eq_false_iff.mpr hget) hraw).2.1] at hwritten
    exact import_clean hrt written hwritten

theorem step_clean (hrt : rt.Lawful) (call : Call) : ∀ written ∈ (step rt w call).written,
    ∀ entry ∈ written, isSecret rt entry = some false := by
  cases call with
  | persist host entries f => exact persist_clean hrt
  | load host f => exact load_clean hrt
  | migrate host f => exact migrate_clean hrt

/-! ## Migrations -/

/-- What was written is there when the text is read. -/
theorem core_of_stringified (hrt : rt.Lawful)
    (hcore : w.core (decisionKey host) = some (rt.stringify (.arr entries)))
    (hne : entries ≠ []) : entriesOf (coreContent rt w host) ≠ [] := by
  obtain ⟨read, hread, hlen⟩ := hrt.array entries
  rw [coreContent, hcore, Option.getD_some, hread, entriesOf]
  exact List.ne_nil_of_length_pos (hlen ▸ List.length_pos_of_ne_nil hne)

theorem copied_eq (hraw : w.webView (decisionKey host) = some raw) :
    copied rt w host = entriesOf (rt.parse raw) := by
  rw [copied, hraw, Option.bind_some]

theorem eq_arr_of_entriesOf {content : Option Json} {entry : Json} {rest : List Json}
    (h : entriesOf content = entry :: rest) : content = some (.arr (entry :: rest)) := by
  unfold entriesOf at h
  split at h
  next => rw [h]
  next => cases h

/-- As long as the core store is as before, nothing was put into it. -/
theorem not_imported (hrt : rt.Lawful) (hcopied : copied rt w host ≠ [])
    (hempty : entriesOf (coreContent rt w host) = [])
    {ran : Ran} (hsame : ran.world = w) : ¬ Imported rt w host ran := by
  rintro ⟨cleaned, hcleaned, hcore⟩
  rw [hsame] at hcore
  refine core_of_stringified hrt hcore (fun hnil => hcopied ?_) hempty
  have hlen := (mapM_eq_some.mp hcleaned).length_eq
  rw [List.map_eq_nil_iff.mp hnil] at hlen
  exact List.length_eq_zero_iff.mp hlen

theorem imported_persist (hrt : rt.Lawful) (hcopied : copied rt w host ≠ [])
    (hempty : entriesOf (coreContent rt w host) = []) :
    Imported rt w host (persistDecisionLog rt f w host (copied rt w host)) ↔
      (∀ entry ∈ copied rt w host, Readable rt entry) ∧ f.coreSet ≠ .lost := by
  have hread := mapM_isSome (redactForStorage rt) (copied rt w host)
  simp only [redactForStorage_isSome] at hread
  rw [← hread, persistDecisionLog]
  cases h : (copied rt w host).mapM (redactForStorage rt) with
  | none => exact ⟨fun himported => absurd himported (not_imported hrt hcopied hempty rfl), fun hall => by cases hall.1⟩
  | some cleaned =>
    constructor
    · refine fun himported => ⟨rfl, fun hlost => not_imported hrt hcopied hempty ?_ himported⟩
      simp only [setItem, hlost]
    · exact fun hall => ⟨cleaned, h, setItem_core _ hall.2⟩

/-- The import puts the entries into a core store that has none exactly when it can read and write.
-/
theorem imported_iff (hrt : rt.Lawful) (hraw : w.webView (decisionKey host) = some raw)
    (hcopied : copied rt w host ≠ [])
    (hempty : entriesOf (coreContent rt w host) = []) :
    Imported rt w host (importEntries rt f w host raw) ↔
      f.coreGet = false ∧ (coreContent rt w host).isSome = true ∧
        (∀ entry ∈ copied rt w host, Readable rt entry) ∧
        f.coreSet ≠ .lost := by
  have hnot : ∀ ran : Ran, ran.world = w → ¬ Imported rt w host ran :=
    fun _ => not_imported hrt hcopied hempty
  have hpersist := imported_persist (f := f) hrt hcopied hempty
  obtain ⟨entry, rest, hcopy⟩ := List.exists_cons_of_ne_nil hcopied
  have hparse : rt.parse raw = some (.arr (entry :: rest)) :=
    eq_arr_of_entriesOf (by rw [← copied_eq hraw, hcopy])
  rw [importEntries, hparse]
  cases hget : f.coreGet with
  | true => exact ⟨fun himported => absurd himported (hnot _ rfl), fun h => by cases h.1⟩
  | false =>
    simp only [Bool.false_eq_true, if_false, true_and]
    cases hcontent : coreContent rt w host with
    | none => exact ⟨fun himported => absurd himported (hnot _ rfl), fun h => by cases h.1⟩
    | some value =>
      rw [Option.isSome_some, ← hpersist, hcopy]
      simp only [true_and]
      split
      next => contradiction
      next first more heq =>
        rw [hcontent, heq] at hempty
        cases hempty
      next => rfl

/-- A migration that removes a copy with entries. -/
theorem migrate_kept (hrt : rt.Lawful) :
    CallOk rt w (.migrate host f) ↔ Calm rt w (.migrate host f) := by
  rw [CallOk, Calm]
  by_cases habsent : f.webViewGet = true ∨ w.webView (decisionKey host) = none
  · have hworld := (migrate_absent rt habsent).1
    constructor
    · intro _ hget _ hcopied
      rw [copied, habsent.resolve_left (Bool.eq_false_iff.mp hget)] at hcopied
      exact absurd rfl hcopied
    · rintro - ⟨hthere, hgone⟩
      rw [hworld] at hgone
      rw [hgone] at hthere
      cases hthere
  · obtain ⟨hget, hcopy⟩ := not_or.mp habsent
    obtain ⟨raw, hraw⟩ := Option.ne_none_iff_exists'.mp hcopy
    have hget := Bool.eq_false_iff.mpr hget
    obtain ⟨hcore, -, hremoved⟩ := migrate_present rt hget hraw
    have himported : Imported rt w host (migrateDecisionLogFromLocalStorage rt f w host) ↔
        Imported rt w host (importEntries rt f w host raw) := by
      rw [Imported, Imported, hcore]
    have hremoves : Removes w host (migrateDecisionLogFromLocalStorage rt f w host) ↔
        f.webViewRemove = false := by
      rw [Removes, hremoved, hraw]
      cases f.webViewRemove <;> simp
    simp only [hremoves, himported, hget, true_implies]
    refine imp_congr_right fun _ => ?_
    by_cases hcopied : copied rt w host = []
    · exact ⟨fun _ h => absurd hcopied h, fun _ => .inr (.inr hcopied)⟩
    · by_cases hempty : entriesOf (coreContent rt w host) = []
      · rw [imported_iff hrt hraw hcopied hempty]
        simp only [hempty, hcopied, ne_eq, not_true_eq_false, not_false_eq_true, false_or, or_false,
          true_implies]
      · exact ⟨fun _ _ => .inl hempty, fun _ => .inr (.inl hempty)⟩

theorem callOk_iff (hrt : rt.Lawful) (call : Call) : CallOk rt w call ↔ Calm rt w call := by
  cases call with
  | persist host entries f => exact Iff.rfl
  | load host f => exact loadDecisionLog_quiet
  | migrate host f => exact migrate_kept hrt

end Calls

/-! ## Runs -/

/-- The log is safe over a run exactly when the stores and the stored texts are calm at each of its
calls. -/
theorem decision_log_storage (hrt : rt.Lawful) (w : World) (calls : List Call) :
    LogSafe rt w calls ↔ ∀ p ∈ steps rt w calls, Calm rt p.1 p.2 := by
  refine ⟨fun h p hp => (callOk_iff hrt p.2).mp (h.calls p hp), fun h => ?_⟩
  exact
    { idempotent := fun _ _ _ => redact_idempotent hrt
      unchanged := fun _ => redactForStorage_self
      clean := fun p _ => step_clean hrt p.2
      calls := fun p hp => (callOk_iff hrt p.2).mpr (h p hp) }

/-! ## A runtime for arrays of zeros -/

/-- A number as so many zeros, so that it can be read back. -/
def zeros : Nat → List Char
  | 0 => []
  | n + 1 => ',' :: '0' :: zeros n

/-- An array of `n` zeros, as `JSON.stringify` writes it. -/
def zerosText : Nat → String
  | 0 => "[]"
  | n + 1 => String.ofList ('[' :: '0' :: zeros n ++ [']'])

/-- The runtime of programs whose arrays have zeros only. It reads `[null]` too. -/
def zerosRuntime : Runtime where
  parse text :=
    if text = "[null]" then some (.arr [.null])
    else some (.arr (List.replicate ((text.length - 1) / 2) (.num 0)))
  stringify
    | .arr entries => zerosText entries.length
    | _ => "0"
  toLowerCase text := text.toLower
  numberText _ := "0"

theorem length_zeros (n : Nat) : (zeros n).length = 2 * n := by
  induction n with
  | zero => rfl
  | succ n ih =>
    rw [zeros, List.length_cons, List.length_cons, ih]
    omega

theorem length_zerosText : ∀ n, (zerosText n).length = if n = 0 then 2 else 2 * n + 1
  | 0 => rfl
  | n + 1 => by
    rw [zerosText, String.length_ofList, List.length_append, List.length_cons, List.length_cons,
      length_zeros]
    simp
    omega

theorem zerosRuntime_lawful : zerosRuntime.Lawful where
  lower _ _ := rfl
  array entries := by
    have hlen := length_zerosText entries.length
    have hne : zerosText entries.length ≠ "[null]" := by
      intro h
      rw [h] at hlen
      have : "[null]".length = 6 := rfl
      split_ifs at hlen <;> omega
    refine ⟨List.replicate (((zerosText entries.length).length - 1) / 2) (.num 0), if_neg hne, ?_⟩
    rw [List.length_replicate, hlen]
    split_ifs <;> omega

/-- Nothing fails. -/
def calmFaults : Faults := ⟨false, false, .stored, false⟩

/-- A copy with an entry is moved, and the log is loaded. -/
theorem decision_log_storage_moved :
    LogSafe zerosRuntime ⟨fun _ => some "[0]", fun _ => none⟩ [.migrate "h" calmFaults, .load "h" calmFaults] := by
  refine (decision_log_storage zerosRuntime zerosRuntime_lawful _ _).mpr ?_
  have hcopied : copied zerosRuntime ⟨fun _ => some "[0]", fun _ => none⟩ "h" = [.num 0] := rfl
  have hread : Readable zerosRuntime (.num 0) := (readable_iff _).mpr rfl
  refine List.forall_mem_cons.mpr ⟨fun _ _ _ => .inr ⟨rfl, rfl, ?_, by decide⟩, List.forall_mem_cons.mpr ⟨fun _ => ?_, ?_⟩⟩
  · rw [hcopied]
    exact List.forall_mem_singleton.mpr hread
  · have hmoved : coreContent zerosRuntime (step zerosRuntime ⟨fun _ => some "[0]", fun _ => none⟩ (.migrate "h" calmFaults)).world
        "h" = some (.arr [.num 0]) := rfl
    rw [hmoved]
    exact List.forall_mem_singleton.mpr ⟨hread, fun _ => rfl⟩
  · exact fun _ h => absurd h List.not_mem_nil

/-- `null` is stored as an entry. -/
theorem decision_log_storage_null :
    ¬ ∀ (rt : Runtime) (w : World) (calls : List Call), rt.Lawful → LogSafe rt w calls := by
  intro h
  have hcall := (h zerosRuntime ⟨fun _ => none, fun _ => some "[null]"⟩ [.load "h" calmFaults] zerosRuntime_lawful).calls _
    List.mem_cons_self
  have hthrew : (loadDecisionLog zerosRuntime calmFaults ⟨fun _ => none, fun _ => some "[null]"⟩ "h").1.threw = true := by
    decide
  rw [CallOk, hthrew] at hcall
  cases hcall

end Portty.DecisionStorage
