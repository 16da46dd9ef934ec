import Mathlib
import Portty.Host.Permission
import Portty.Lib.Keep
import Portty.Lib.Regex

/-!
# The approval policy (`policy.ts`)

What the phone may allow without asking. The decision reads the policy, the category and the title
of the request, the canonical form of the tool's input and how broad the workspace is.

`Js` is what the file uses of JavaScript and is not modelled here. Strings are sequences of
characters; where JavaScript looks at UTF-16 code units (lengths, the order of keys), so does the
model. No expression of the file tells a character outside the BMP from its surrogates.

* `persistentPolicy_idem`: loading a stored policy and storing it changes nothing.
* `policyAllows_input`: nothing is allowed without an input.
* `permissionToolInput_append`, `permissionCategory_append`: earlier events do not change what later
  ones say.
-/

namespace Portty

namespace Policy

open Permission (PermissionCategory PermissionOption WorkspaceScope)

/-! ## JSON -/

/-- A JSON value, with the members of an object in the order in which they are enumerated. -/
inductive Json where
  | null
  | bool (b : Bool)
  /-- A double, by its bits. -/
  | num (bits : UInt64)
  | str (s : String)
  | arr (elems : List Json)
  /-- The own properties in the order in which they are enumerated. -/
  | obj (fields : List (String × Json))

/-- `JSON.parse` (`none` if it throws), `JSON.stringify` and `toLowerCase`. -/
structure Js where
  parse : String → Option Json
  stringify : Json → String
  toLowerCase : String → String

/-- The code units of a text, as JavaScript counts them. -/
def utf16 (text : String) : List Nat :=
  text.toList.flatMap fun c =>
    if c.toNat < 0x10000 then [c.toNat]
    else [0xD800 + (c.toNat - 0x10000) / 0x400, 0xDC00 + (c.toNat - 0x10000) % 0x400]

/-- `text.length` -/
def length (text : String) : Nat := (utf16 text).length

/-- The name of a property that is an array index. -/
def arrayIndex (key : String) : Option Nat :=
  key.toNat?.filter fun n => toString n = key ∧ n < 2 ^ 32 - 1

/-- `sorted[key] = value`. Array indices are enumerated first, by number, then the other names in
the order in which they were added. `__proto__` is the prototype and not a property. -/
def setField (fields : List (String × Json)) (key : String) (value : Json) :
    List (String × Json) :=
  if key = "__proto__" then fields
  else if fields.any (·.1 = key) then
    fields.map fun field => if field.1 = key then (key, value) else field
  else
    match arrayIndex key with
    | none => fields ++ [(key, value)]
    | some n =>
      let below := fun field : String × Json => (arrayIndex field.1).any (· < n)
      fields.takeWhile below ++ (key, value) :: fields.dropWhile below

/-- The values are set in the order of their keys. -/
def sortFields (fields : List (String × Json)) : List (String × Json) :=
  (fields.insertionSort fun a b => utf16 a.1 ≤ utf16 b.1).foldl
    (fun sorted field => setField sorted field.1 field.2) []

mutual

/-- The members of every object are sorted. -/
def stableJson : Json → Json
  | .arr elems => .arr (stableElems elems)
  | .obj fields => .obj (sortFields (stableFields fields))
  | value => value

/-- The elements keep their order. -/
def stableElems : List Json → List Json
  | [] => []
  | value :: rest => stableJson value :: stableElems rest

/-- The values are made stable before the members are sorted. -/
def stableFields : List (String × Json) → List (String × Json)
  | [] => []
  | (key, value) :: rest => (key, stableJson value) :: stableFields rest

end

/-! ## The input of a tool call -/

/-- The longest title of a rule, in code units. -/
def maxExactRuleTitle : Nat := 512

/-- The longest input of a rule, in code units. -/
def maxExactRuleInput : Nat := 4096

/-- The kinds of tool calls are those of the host. -/
abbrev AgentToolKind := Permission.AcpToolKind

/-- The events whose last one the host and the phone keep however long the timeline gets. -/
inductive ReducerType where
  | availableCommands
  | modeState
  | configOptions
  | sessionInfo
  | replaying
  | authRequired
  | usage
  deriving DecidableEq

/-- What the policy reads of an event. -/
inductive AgentEvent where
  | toolCall (toolCallId : String) (kind : AgentToolKind) (detail : Option String)
  | toolCallUpdate (toolCallId : String) (kind : Option AgentToolKind) (detail : Option String)
  | reducer (type : ReducerType)
  /-- Messages, turns, plans, errors. -/
  | other
  deriving DecidableEq

/-- An event of the timeline with its number. -/
structure AgentTimelineEvent where
  seq : Nat
  event : AgentEvent
  deriving DecidableEq

/-- A request for approval as the phone gets it. -/
structure AgentPermission where
  id : Nat
  toolCallId : String
  title : String
  options : List PermissionOption
  category : Option PermissionCategory
  workspaceScope : Option WorkspaceScope
  deriving DecidableEq

/-- What the timeline says of a tool call. -/
structure ToolFields where
  detail : Option String := none
  kind : Option AgentToolKind := none
  deriving DecidableEq

/-- One round of the loop of `latestToolFields`. -/
def toolStep (toolCallId : String) (latest : Option ToolFields) (event : AgentEvent) :
    Option ToolFields :=
  match event with
  | .toolCall id kind detail => if id = toolCallId then some { detail, kind := some kind } else latest
  | .toolCallUpdate id kind detail =>
    if id = toolCallId then
      let before := latest.getD {}
      some { detail := detail <|> before.detail, kind := kind <|> before.kind }
    else latest
  | .reducer _ | .other => latest

/-- What the events say of a tool call, each adding to those before. -/
def latestToolFields (events : List AgentTimelineEvent) (toolCallId : String) :
    Option ToolFields :=
  events.foldl (fun latest event => toolStep toolCallId latest event.event) none

/-- The category of a request. Older hosts do not say it. -/
def permissionCategory (request : AgentPermission) (events : List AgentTimelineEvent) :
    PermissionCategory :=
  match request.category with
  | some category => category
  | none =>
    match latestToolFields events request.toolCallId with
    | none => .unknown
    | some latest =>
      match latest.kind with
      | some .read | some .search => .read
      | some .edit | some .move => .write
      | some .execute => .execute
      | some .fetch => .network
      | some .delete => .destructive
      | some .think | some .other | none => .unknown

section

variable (js : Js)

/-- The input of a tool call, parsed and written again with sorted members; none if it is empty, too
long or no JSON. -/
def canonicalToolInput (detail : Option String) : Option String :=
  match detail with
  | none => none
  | some text =>
    if text = "" ∨ maxExactRuleInput < length text then none
    else
      match js.parse text with
      | none => none
      | some value =>
        let canonical := js.stringify (stableJson value)
        if length canonical ≤ maxExactRuleInput then some canonical else none

/-- The input of the tool call that a request is about. -/
def permissionToolInput (request : AgentPermission) (events : List AgentTimelineEvent) :
    Option String :=
  match latestToolFields events request.toolCallId with
  | none => none
  | some latest => canonicalToolInput js latest.detail

/-! ## Sensitive paths and values -/

section Patterns

open Regex

/-- `[^a-z0-9_-]` -/
def outsideName : Regex :=
  set fun c => !(c.isLower || c.isDigit || c = '_' || c = '-')

/-- A name or a fragment of a path, with what is not part of a name around it. -/
def sensitive (body : Regex) : Regex := seqs [alt start outsideName, body, alt stop outsideName]

/-- A file name extension. -/
def sensitiveExtension (body : Regex) : Regex := seqs [body, alt stop outsideName]

/-- `[\\/]` -/
def slash : Regex := set fun c => c = '\\' || c = '/'

/-- `SENSITIVE_PATH_PATTERNS`, tested against lower case. -/
def sensitivePathPatterns : List Regex :=
  [ sensitive (lit ".env"),
    sensitive (seq (lit ".") (oneOf (lit "ssh")
      [lit "gnupg", lit "aws", lit "azure", lit "kube", lit "docker", lit "netrc", lit "npmrc",
        lit "pypirc"])),
    sensitive (seq (lit ".") (oneOf (lit "pgpass") [lit "my.cnf", lit "dbpass"])),
    sensitive (seq (lit "id_") (oneOf (lit "rsa") [lit "dsa", lit "ecdsa", lit "ed25519"])),
    sensitive (seq (optional (lit ".")) (oneOf (lit "git-credentials")
      [lit "credentials", seq (lit "secret") (optional (lit "s")), lit "htpasswd"])),
    sensitiveExtension (seq (lit ".") (oneOf (lit "pem")
      [lit "key", lit "p12", lit "pfx", lit "jks", lit "keystore", lit "kdbx", lit "ppk",
        lit "asc"])),
    sensitive (alt
      (seqs [lit "service", optional (set fun c => c = '-' || c = '_'), lit "account"])
      (lit "application_default_credentials")),
    sensitive (seqs [lit ".config", slash, alt (lit "gh") (lit "gcloud")]),
    sensitive (seqs [lit ".local", slash, lit "share", slash, lit "keyrings"]),
    sensitive (alt (lit "shadow") (lit "sudoers")),
    sensitive (alt (lit "portty-peers.dat") (lit "identity.bin")),
    sensitiveExtension (seq (lit ".") (alt (lit "tfstate") (lit "tfvars"))),
    sensitiveExtension (seq (lit ".") (oneOf (seq (lit "sqlite") (optional (lit "3")))
      [lit "db", lit "dump"])),
    seqs [lit "dump", star (set fun c => c.isLower || c.isDigit || c = '_' || c = '-'), lit ".",
      oneOf (lit "sql") [lit "gz", lit "zip", lit "tar", lit "bz2"]] ]

/-- `\s`, and what `trim` removes. -/
def isSpace (c : Char) : Bool :=
  c.toNat ∈ [0x09, 0x0A, 0x0B, 0x0C, 0x0D, 0x20, 0xA0, 0x1680, 0x2028, 0x2029, 0x202F, 0x205F, 0x3000,
    0xFEFF] || (0x2000 ≤ c.toNat && c.toNat ≤ 0x200A)

/-- `SECRET_VALUE_PATTERNS`, tested against the text as it is. -/
def secretValuePatterns : List Regex :=
  let spaces := star (set isSpace)
  let visible := set fun c => !isSpace c
  let nameChar := set fun c => c.isAlphanum || c = '_' || c = '-'
  [ seqs [boundary, alt (litIgnoreCase "bearer") (litIgnoreCase "authorization"), boundary, spaces,
      optional (set fun c => c = ':' || c = '='), spaces, visible],
    seqs [boundary, oneOf (lit "sk") [lit "pk", lit "rk"], set fun c => c = '-' || c = '_',
      atLeast 16 (set Char.isAlphanum)],
    seqs [boundary, lit "gh", set fun c => c ∈ ['p', 'o', 'u', 's', 'r'], lit "_",
      atLeast 20 (set Char.isAlphanum)],
    seqs [boundary, lit "xox", set fun c => c ∈ ['a', 'b', 'p', 'o', 's', 'r'], lit "-",
      atLeast 10 (set fun c => c.isAlphanum || c = '-')],
    seqs [boundary, lit "AKIA", exactly 16 (set fun c => c.isDigit || c.isUpper), boundary],
    seqs [boundary, lit "AIza", atLeast 20 nameChar],
    seqs [boundary, lit "eyJ", atLeast 10 nameChar, lit ".", atLeast 10 nameChar, lit "."],
    seqs [lit "-----BEGIN ", star (set fun c => c.isUpper || c = ' '), lit "PRIVATE KEY-----"],
    seqs [boundary,
      oneOf (litIgnoreCase "password")
        [litIgnoreCase "passwd", litIgnoreCase "secret", litIgnoreCase "token",
          seqs [litIgnoreCase "api", optional (set fun c => c = '-' || c = '_'),
            litIgnoreCase "key"]],
      boundary, spaces, set fun c => c = ':' || c = '=', spaces, visible],
    seqs [lit "//", atLeast 1 (set fun c => !(isSpace c || c ∈ ['/', ':', '@'])), lit ":",
      atLeast 1 (set fun c => !(isSpace c || c ∈ ['/', '@'])), lit "@"] ]

end Patterns

/-- Title and input are tested as two lines of one text. -/
def touchesSensitivePath (title : String) (input : Option String) : Bool :=
  let haystack := js.toLowerCase (title ++ "\n" ++ input.getD "")
  sensitivePathPatterns.any (·.test haystack)

/-- The title or the input has the shape of a secret. -/
def looksLikeSecretValue (title : String) (input : Option String) : Bool :=
  let raw := title ++ "\n" ++ input.getD ""
  secretValuePatterns.any (·.test raw)

/-! ## Policies -/

/-- What is allowed without asking, from the least to the most. -/
inductive PolicyTier where
  | readonly
  | edits
  | yolo
  deriving DecidableEq

/-- One operation that the user allows for good. -/
structure ExactAllowRule where
  category : PermissionCategory
  title : String
  input : String
  deriving DecidableEq

/-- What the user has decided. -/
structure ApprovalPolicy where
  tier : PolicyTier
  /-- By session, and only in memory. -/
  sessionOverrides : AList fun _ : Nat => PolicyTier
  promptExceptions : List String
  exactAllowRules : List ExactAllowRule

/-- Only reads of a project are allowed. -/
def defaultPolicy : ApprovalPolicy :=
  { tier := .readonly, sessionOverrides := ∅, promptExceptions := [], exactAllowRules := [] }

/-- `/[\u0000-\u001f\u007f-\u009f]/u` -/
def isControl (c : Char) : Bool :=
  c.toNat ≤ 0x1F || (0x7F ≤ c.toNat && c.toNat ≤ 0x9F)

/-- `title === title.trim()` -/
def isTrimmed (title : String) : Bool :=
  !title.toList.head?.any isSpace && !title.toList.getLast?.any isSpace

/-- The rule for an operation, if it can have one: it must be shown whole, and hold no secret. -/
def exactAllowRule (category : PermissionCategory) (title : String) (input : Option String) :
    Option ExactAllowRule :=
  match canonicalToolInput js input with
  | none => none
  | some canonicalInput =>
    if category = .unknown ∨ title = "" ∨ maxExactRuleTitle < length title ∨ !isTrimmed title ∨
        title.toList.any isControl ∨ some canonicalInput ≠ input ∨
        looksLikeSecretValue title (some canonicalInput) then none
    else some { category, title, input := canonicalInput }

/-- The name of a category on the wire. -/
def categoryName : PermissionCategory → String
  | .read => "read"
  | .write => "write"
  | .execute => "execute"
  | .network => "network"
  | .destructive => "destructive"
  | .unknown => "unknown"

/-- Rules are the same if they are written alike. -/
def ruleKey (rule : ExactAllowRule) : String :=
  js.stringify (.arr [.str (categoryName rule.category), .str rule.title, .str rule.input])

/-- A rule for the operation is stored. -/
def hasExactAllowRule (policy : ApprovalPolicy) (category : PermissionCategory) (title : String)
    (input : Option String) : Bool :=
  match exactAllowRule js category title input with
  | none => false
  | some candidate => policy.exactAllowRules.any fun rule => ruleKey js rule = ruleKey js candidate

/-- A rule is added once; none if the operation cannot have one. -/
def learnExactAllowRule (policy : ApprovalPolicy) (category : PermissionCategory) (title : String)
    (input : Option String) : Option ApprovalPolicy :=
  match exactAllowRule js category title input with
  | none => none
  | some candidate =>
    if hasExactAllowRule js policy category title input then some policy
    else some { policy with exactAllowRules := policy.exactAllowRules ++ [candidate] }

/-- A stored rule is kept if it is still one and not there yet. -/
def keepRule (kept : List ExactAllowRule) (stored : ExactAllowRule) : List ExactAllowRule :=
  match exactAllowRule js stored.category stored.title (some stored.input) with
  | none => kept
  | some rule => if kept.any fun r => ruleKey js r = ruleKey js rule then kept else kept ++ [rule]

/-- What is stored of a policy. -/
def persistentPolicy (policy : ApprovalPolicy) : ApprovalPolicy :=
  { policy with
    sessionOverrides := ∅
    exactAllowRules := policy.exactAllowRules.foldl (keepRule js) [] }

/-- A tier is only for a directory that somebody has chosen as a project. -/
def workspaceScopeAllowsTier (scope : Option WorkspaceScope) : Bool := scope = some .project

/-- The phone answers on its own: exceptions and unknown categories first, then exact rules, then
the gates of the tier. -/
def policyAllows (policy : ApprovalPolicy) (sessionId : Nat) (category : PermissionCategory)
    (title : String) (input : Option String) (scope : Option WorkspaceScope) : Bool :=
  if category = .unknown ∨ title ∈ policy.promptExceptions then false
  else if hasExactAllowRule js policy category title input then true
  else if input = none then false
  else if touchesSensitivePath js title input then false
  else if !workspaceScopeAllowsTier scope then false
  else
    let tier := (policy.sessionOverrides.lookup sessionId).getD policy.tier
    tier = .yolo || category = .read || (tier = .edits && category = .write)

/-! ## Stored rules -/

variable {js}

theorem exactAllowRule_eq_some {category : PermissionCategory} {title : String}
    {input : Option String} {rule : ExactAllowRule}
    (h : exactAllowRule js category title input = some rule) :
    category = rule.category ∧ title = rule.title ∧ input = some rule.input := by
  unfold exactAllowRule at h
  split at h
  · cases h
  · split at h
    · cases h
    · next hc =>
      cases h
      simp only [not_or, ne_eq, Decidable.not_not] at hc
      exact ⟨rfl, rfl, hc.2.2.2.2.2.1.symm⟩

/-- A stored rule is still one. -/
def accepted (js : Js) (rule : ExactAllowRule) : Bool :=
  (exactAllowRule js rule.category rule.title (some rule.input)).isSome

theorem keepRule_eq : keepRule js = Keep.keep (accepted js) (ruleKey js) := by
  funext kept stored
  unfold keepRule Keep.keep accepted
  cases hr : exactAllowRule js stored.category stored.title (some stored.input) with
  | none => rfl
  | some rule =>
    obtain ⟨hc, ht, hi⟩ := exactAllowRule_eq_some hr
    obtain rfl : stored = rule := by
      obtain ⟨c, t, i⟩ := stored
      obtain ⟨c', t', i'⟩ := rule
      simp_all
    rfl

/-- What is stored is stored again. -/
@[simp] theorem persistentPolicy_idem (policy : ApprovalPolicy) :
    persistentPolicy js (persistentPolicy js policy) = persistentPolicy js policy := by
  simp only [persistentPolicy, keepRule_eq]
  congr 1
  exact Keep.keepAll_keepAll _

/-! ## What is allowed -/

theorem policyAllows_category {policy : ApprovalPolicy} {sessionId : Nat}
    {category : PermissionCategory} {title : String} {input : Option String}
    {scope : Option WorkspaceScope}
    (h : policyAllows js policy sessionId category title input scope = true) :
    category ≠ .unknown := by
  rintro rfl
  simp [policyAllows] at h

/-- Nothing is allowed without an input. -/
theorem policyAllows_input {policy : ApprovalPolicy} {sessionId : Nat}
    {category : PermissionCategory} {title : String} {input : Option String}
    {scope : Option WorkspaceScope}
    (h : policyAllows js policy sessionId category title input scope = true) :
    input.isSome := by
  cases input with
  | none => simp [policyAllows, hasExactAllowRule, exactAllowRule, canonicalToolInput] at h
  | some input => rfl

end

/-! ## What later events say -/

/-- What the first says, the second says too. -/
def ToolFields.Within (a b : Option ToolFields) : Prop :=
  (∀ detail, a.bind (·.detail) = some detail → b.bind (·.detail) = some detail) ∧
    ∀ kind, a.bind (·.kind) = some kind → b.bind (·.kind) = some kind

theorem toolStep_within {a b : Option ToolFields} (h : ToolFields.Within a b) (toolCallId : String)
    (event : AgentEvent) :
    ToolFields.Within (toolStep toolCallId a event) (toolStep toolCallId b event) := by
  have hd : ∀ x, (a.getD {}).detail = some x → (b.getD {}).detail = some x := by
    intro x hx
    have := h.1 x
    cases a <;> cases b <;> simp_all
  have hk : ∀ x, (a.getD {}).kind = some x → (b.getD {}).kind = some x := by
    intro x hx
    have := h.2 x
    cases a <;> cases b <;> simp_all
  cases event with
  | toolCall id kind detail =>
    simp only [toolStep]
    split
    · exact ⟨fun _ h => h, fun _ h => h⟩
    · exact h
  | toolCallUpdate id kind detail =>
    simp only [toolStep]
    split
    · refine ⟨fun x hx => ?_, fun x hx => ?_⟩
      · cases detail with
        | none => exact hd x (by simpa using hx)
        | some d => simpa using hx
      · cases kind with
        | none => exact hk x (by simpa using hx)
        | some k => simpa using hx
    · exact h
  | reducer type => exact h
  | other => exact h

theorem latestToolFields_append (before events : List AgentTimelineEvent) (toolCallId : String) :
    ToolFields.Within (latestToolFields events toolCallId)
      (latestToolFields (before ++ events) toolCallId) := by
  rw [latestToolFields, latestToolFields, List.foldl_append]
  have hstart : ToolFields.Within none
      (before.foldl (fun latest event => toolStep toolCallId latest event.event) none) :=
    ⟨by simp, by simp⟩
  revert hstart
  generalize before.foldl (fun latest event => toolStep toolCallId latest event.event) none = b
  generalize (none : Option ToolFields) = a
  intro hab
  induction events generalizing a b with
  | nil => exact hab
  | cons event events ih => exact ih _ _ (toolStep_within hab toolCallId event.event)

theorem permissionToolInput_eq (js : Js) (request : AgentPermission)
    (events : List AgentTimelineEvent) : permissionToolInput js request events =
      canonicalToolInput js ((latestToolFields events request.toolCallId).bind (·.detail)) := by
  unfold permissionToolInput
  split
  · next h => simp [h, canonicalToolInput]
  · next h => simp [h]

/-- An input that the later events give is the input. -/
theorem permissionToolInput_append {js : Js} {request : AgentPermission}
    {events : List AgentTimelineEvent} {input : String} (before : List AgentTimelineEvent)
    (h : permissionToolInput js request events = some input) :
    permissionToolInput js request (before ++ events) = some input := by
  have hw := (latestToolFields_append before events request.toolCallId).1
  rw [permissionToolInput_eq] at h ⊢
  cases hd : (latestToolFields events request.toolCallId).bind (·.detail) with
  | none => simp [hd, canonicalToolInput] at h
  | some detail => rwa [hw detail hd, ← hd]

/-- A category that the later events give is the category. -/
theorem permissionCategory_append {request : AgentPermission} {events : List AgentTimelineEvent}
    (before : List AgentTimelineEvent) (h : permissionCategory request events ≠ .unknown) :
    permissionCategory request (before ++ events) = permissionCategory request events := by
  have hw := (latestToolFields_append before events request.toolCallId).2
  unfold permissionCategory at h ⊢
  split
  · rfl
  · next hc =>
    simp only [hc] at h ⊢
    cases hl : latestToolFields events request.toolCallId with
    | none => simp [hl] at h
    | some latest =>
      cases hk : latest.kind with
      | none => simp [hl, hk] at h
      | some kind =>
        have hb := hw kind (by simp [hl, hk])
        obtain ⟨latest', hl', hk'⟩ := Option.bind_eq_some_iff.mp hb
        simp [hl', hk', hk]

/-- A call of a tool, or an update of one. -/
def AgentTimelineEvent.isTool (event : AgentTimelineEvent) : Bool :=
  match event.event with
  | .toolCall .. | .toolCallUpdate .. => true
  | .reducer _ | .other => false

/-- Only the tool events count. -/
theorem latestToolFields_filter (events : List AgentTimelineEvent) (toolCallId : String) :
    latestToolFields (events.filter (·.isTool)) toolCallId =
      latestToolFields events toolCallId := by
  unfold latestToolFields
  generalize (none : Option ToolFields) = a
  induction events generalizing a with
  | nil => rfl
  | cons event events ih =>
    obtain ⟨seq, event⟩ := event
    cases event with
    | toolCall id kind detail => exact ih _
    | toolCallUpdate id kind detail => exact ih _
    | reducer type => exact ih _
    | other => exact ih _

theorem permissionToolInput_filter (js : Js) (request : AgentPermission)
    (events : List AgentTimelineEvent) :
    permissionToolInput js request (events.filter (·.isTool)) =
      permissionToolInput js request events := by
  rw [permissionToolInput, permissionToolInput, latestToolFields_filter]

theorem permissionCategory_filter (request : AgentPermission) (events : List AgentTimelineEvent) :
    permissionCategory request (events.filter (·.isTool)) = permissionCategory request events := by
  rw [permissionCategory, permissionCategory, latestToolFields_filter]

end Policy

end Portty
