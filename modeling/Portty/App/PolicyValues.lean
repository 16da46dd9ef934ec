import Portty.App.Policy
import Portty.Lib.Quote

/-!
# The policy over every value (`policy.ts`)

A policy is loaded with `JSON.parse` and a category comes from another program, so that a tier and a
category can be any text. `Raw` is `policy.ts` over texts; the policy over the expected values is a
part of it (`policyAllows_raw`).

* `failClosed_iff`: what is allowed passed every gate, but for a tier or a category that is none of
  the expected ones: `yolo` allows every category except `unknown`, and every tier allows `read`.
* `policyAllows_mono`: a wider tier allows more.
* `learnExactAllowRule_frame`: a learned rule changes the decision on one operation.
* `persistentPolicy_allows`: storing a policy changes no decision.

Rules are compared by `JSON.stringify`; `Js.QuotesStrings` says how it writes an array of strings.
-/

namespace Portty

namespace Policy

/-- `JSON.stringify` writes an array of strings between brackets, each of them quoted. -/
def Js.QuotesStrings (js : Js) : Prop :=
  ∀ texts : List String, js.stringify (.arr (texts.map .str)) = String.ofList (Quote.array texts)

namespace Raw

/-- A rule as it can be stored: any text as a category. -/
structure ExactAllowRule where
  category : String
  title : String
  input : String
  deriving DecidableEq

/-- A policy as it can be stored: any text as a tier. -/
structure ApprovalPolicy where
  tier : String
  sessionOverrides : Nat → Option String
  promptExceptions : List String
  exactAllowRules : List ExactAllowRule

/-- The categories that can have a rule. -/
def recognizedCategories : List String := ["read", "write", "execute", "network", "destructive"]

section

variable (js : Js)

/-- The rule for an operation, over any texts. -/
def exactAllowRule (category title : String) (input : Option String) : Option ExactAllowRule :=
  match canonicalToolInput js input with
  | none => none
  | some canonicalInput =>
    if category ∉ recognizedCategories ∨ title = "" ∨ maxExactRuleTitle < length title ∨
        !isTrimmed title ∨ title.toList.any isControl ∨ some canonicalInput ≠ input ∨
        looksLikeSecretValue title (some canonicalInput) then none
    else some { category, title, input := canonicalInput }

/-- Rules are the same if they are written alike. -/
def ruleKey (rule : ExactAllowRule) : String :=
  js.stringify (.arr [.str rule.category, .str rule.title, .str rule.input])

/-- A rule for the operation is stored. -/
def hasExactAllowRule (policy : ApprovalPolicy) (category title : String) (input : Option String) :
    Bool :=
  match exactAllowRule js category title input with
  | none => false
  | some candidate => policy.exactAllowRules.any fun rule => ruleKey js rule = ruleKey js candidate

/-- A rule is added once. -/
def learnExactAllowRule (policy : ApprovalPolicy) (category title : String)
    (input : Option String) : Option ApprovalPolicy :=
  match exactAllowRule js category title input with
  | none => none
  | some candidate =>
    if hasExactAllowRule js policy category title input then some policy
    else some { policy with exactAllowRules := policy.exactAllowRules ++ [candidate] }

/-- A stored rule is kept if it is still one and not there yet. -/
def keepRule (kept : List ExactAllowRule) (stored : ExactAllowRule) : List ExactAllowRule :=
  match exactAllowRule js stored.category stored.title (some stored.input) with
  | none => kept
  | some rule => if kept.any fun r => ruleKey js r = ruleKey js rule then kept else kept ++ [rule]

/-- What is stored: no overrides, and each rule once. -/
def persistentPolicy (policy : ApprovalPolicy) : ApprovalPolicy :=
  { policy with
    sessionOverrides := fun _ => none
    exactAllowRules := policy.exactAllowRules.foldl (keepRule js) [] }

/-- The tier of a session, whatever text it is. -/
def ApprovalPolicy.effectiveTier (policy : ApprovalPolicy) (sessionId : Nat) : String :=
  (policy.sessionOverrides sessionId).getD policy.tier

/-- The gates, over any texts. -/
def policyAllows (policy : ApprovalPolicy) (sessionId : Nat) (category title : String)
    (input scope : Option String) : Bool :=
  if category = "unknown" ∨ title ∈ policy.promptExceptions then false
  else if hasExactAllowRule js policy category title input then true
  else if input = none then false
  else if touchesSensitivePath js title input then false
  else if scope ≠ some "project" then false
  else
    let tier := policy.effectiveTier sessionId
    tier = "yolo" || category = "read" || (tier = "edits" && category = "write")

end

/-! ## The expected values -/

/-- The tiers as they are stored. -/
def tierName : PolicyTier → String
  | .readonly => "readonly"
  | .edits => "edits"
  | .yolo => "yolo"

end Raw

/-- A rule as it is stored. -/
def ExactAllowRule.raw (rule : ExactAllowRule) : Raw.ExactAllowRule :=
  { category := categoryName rule.category, title := rule.title, input := rule.input }

/-- A policy as it is stored. -/
def ApprovalPolicy.raw (policy : ApprovalPolicy) : Raw.ApprovalPolicy where
  tier := Raw.tierName policy.tier
  sessionOverrides id := (policy.sessionOverrides.lookup id).map Raw.tierName
  promptExceptions := policy.promptExceptions
  exactAllowRules := policy.exactAllowRules.map (·.raw)

namespace Raw

open Permission (PermissionCategory WorkspaceScope)

variable {js : Js}

theorem exactAllowRule_raw (category : PermissionCategory) (title : String)
    (input : Option String) : exactAllowRule js (categoryName category) title input =
      (Policy.exactAllowRule js category title input).map (·.raw) := by
  have hcat : categoryName category ∉ recognizedCategories ↔ category = .unknown := by
    cases category <;> decide
  unfold exactAllowRule Policy.exactAllowRule
  cases canonicalToolInput js input with
  | none => rfl
  | some canonicalInput =>
    simp only [hcat]
    split <;> rfl

theorem hasExactAllowRule_raw (policy : Policy.ApprovalPolicy) (category : PermissionCategory)
    (title : String) (input : Option String) :
    hasExactAllowRule js policy.raw (categoryName category) title input =
      Policy.hasExactAllowRule js policy category title input := by
  unfold hasExactAllowRule Policy.hasExactAllowRule
  rw [exactAllowRule_raw]
  cases Policy.exactAllowRule js category title input with
  | none => rfl
  | some candidate =>
    simp only [Option.map_some, Policy.ApprovalPolicy.raw, List.any_map]
    rfl

variable {p q : ApprovalPolicy} {category title : String} {input scope : Option String}
  {sessionId : Nat} {rule rule' : ExactAllowRule}

theorem ruleKey_inj (hjs : js.QuotesStrings) (h : ruleKey js rule = ruleKey js rule') :
    rule = rule' := by
  have hkey : ∀ r, ruleKey js r = String.ofList (Quote.array [r.category, r.title, r.input]) :=
    fun r => hjs [r.category, r.title, r.input]
  rw [hkey, hkey, String.ofList_inj] at h
  have hfields := Quote.array_injective h
  obtain ⟨c, t, i⟩ := rule
  obtain ⟨c', t', i'⟩ := rule'
  simpa using hfields

theorem exactAllowRule_eq_some (h : exactAllowRule js category title input = some rule) :
    category = rule.category ∧ title = rule.title ∧ input = some rule.input ∧
      category ∈ recognizedCategories ∧ canonicalToolInput js input = input := by
  unfold exactAllowRule at h
  split at h
  · cases h
  next canonicalInput hcanonical =>
  split at h
  · cases h
  next hc =>
  cases h
  simp only [not_or, ne_eq, Decidable.not_not] at hc
  have hinput := hc.2.2.2.2.2.1
  exact ⟨rfl, rfl, hinput.symm, hc.1, hcanonical.trans hinput⟩

theorem hasExactAllowRule_iff (hjs : js.QuotesStrings) :
    hasExactAllowRule js p category title input = true ↔
      ∃ rule ∈ p.exactAllowRules, exactAllowRule js category title input = some rule := by
  unfold hasExactAllowRule
  cases hr : exactAllowRule js category title input with
  | none => simp
  | some candidate =>
    simp only [List.any_eq_true, decide_eq_true_eq, Option.some.injEq]
    constructor
    · rintro ⟨rule, hmem, hkey⟩
      exact ⟨rule, hmem, (ruleKey_inj hjs hkey).symm⟩
    · rintro ⟨rule, hmem, rfl⟩
      exact ⟨candidate, hmem, rfl⟩

/-! ## The gates -/

/-- An exact rule for the operation is stored. -/
def Stored (js : Js) (p : ApprovalPolicy) (category title : String) (input : Option String) :
    Prop :=
  ∃ rule ∈ p.exactAllowRules, rule.category = category ∧ rule.title = title ∧
    some rule.input = input ∧ canonicalToolInput js input = input

/-- The tiers that the app writes. -/
def tiers : List String := ["readonly", "edits", "yolo"]

/-- What a tier stands for. -/
def Covers (tier category : String) : Prop :=
  (tier = "readonly" ∧ category = "read") ∨ (tier = "edits" ∧ category ∈ ["read", "write"]) ∨
    (tier = "yolo" ∧ category ∈ recognizedCategories)

/-- Every gate before the tier is passed, and no rule was found. -/
structure TierDecides (js : Js) (p : ApprovalPolicy) (category title : String)
    (input scope : Option String) : Prop where
  known : category ≠ "unknown"
  noException : title ∉ p.promptExceptions
  noRule : hasExactAllowRule js p category title input = false
  given : input ≠ none
  plain : touchesSensitivePath js title input = false
  project : scope = some "project"

/-- What is allowed is a recognized category that has a rule or is covered by a tier. -/
def FailClosed (js : Js) (p : ApprovalPolicy) (sessionId : Nat) (category title : String)
    (input scope : Option String) : Prop :=
  policyAllows js p sessionId category title input scope = true →
    category ∈ recognizedCategories ∧ title ∉ p.promptExceptions ∧
    (Stored js p category title input ∨
      (input ≠ none ∧ touchesSensitivePath js title input = false ∧ scope = some "project" ∧
        Covers (p.effectiveTier sessionId) category))

/-- Where the tier decides, neither the category under `yolo` nor the tier for `read` is another
text than the expected ones. -/
def Expected (js : Js) (p : ApprovalPolicy) (sessionId : Nat) (category title : String)
    (input scope : Option String) : Prop :=
  TierDecides js p category title input scope →
    (p.effectiveTier sessionId = "yolo" → category ∈ recognizedCategories) ∧
    (category = "read" → p.effectiveTier sessionId ∈ tiers ∨ Stored js p category title input)

/-- What the policy lets through: an exact rule, or the tier. -/
theorem policyAllows_iff : policyAllows js p sessionId category title input scope = true ↔
    (category ≠ "unknown" ∧ title ∉ p.promptExceptions ∧
      hasExactAllowRule js p category title input = true) ∨
    (TierDecides js p category title input scope ∧
      (p.effectiveTier sessionId = "yolo" ∨ category = "read" ∨
        (p.effectiveTier sessionId = "edits" ∧ category = "write"))) := by
  unfold policyAllows
  by_cases hgate : category = "unknown" ∨ title ∈ p.promptExceptions
  · rw [if_pos hgate]
    constructor
    · intro h
      cases h
    · rintro (⟨hc, ht, -⟩ | ⟨hd, -⟩)
      · exact absurd hgate (not_or.mpr ⟨hc, ht⟩)
      · exact absurd hgate (not_or.mpr ⟨hd.known, hd.noException⟩)
  rw [if_neg hgate]
  obtain ⟨hc, ht⟩ := not_or.mp hgate
  by_cases hrule : hasExactAllowRule js p category title input = true
  · rw [if_pos hrule]
    exact ⟨fun _ => .inl ⟨hc, ht, hrule⟩, fun _ => rfl⟩
  rw [if_neg hrule]
  have hrule' : hasExactAllowRule js p category title input = false := by simpa using hrule
  -- No rule: the rest is the gates of the tier, one after the other.
  constructor
  · intro h
    split at h
    · cases h
    next hinput =>
    split at h
    · cases h
    next hsens =>
    split at h
    · cases h
    next hscope =>
    refine .inr ⟨⟨hc, ht, hrule', hinput, by simpa using hsens, by simpa using hscope⟩, ?_⟩
    simpa [or_assoc] using h
  · rintro (⟨-, -, hfound⟩ | ⟨hd, htier⟩)
    · exact absurd hfound hrule
    · rw [if_neg hd.given, if_neg (by simp [hd.plain]), if_neg (by simp [hd.project])]
      simpa [or_assoc] using htier

theorem stored_of_hasExactAllowRule (hjs : js.QuotesStrings)
    (h : hasExactAllowRule js p category title input = true) :
    Stored js p category title input ∧ category ∈ recognizedCategories := by
  obtain ⟨rule, hmem, hr⟩ := (hasExactAllowRule_iff hjs).mp h
  obtain ⟨hc, ht, hi, hrec, hcan⟩ := exactAllowRule_eq_some hr
  exact ⟨⟨rule, hmem, hc.symm, ht.symm, hi.symm, hcan⟩, hrec⟩

theorem failClosed_iff (hjs : js.QuotesStrings) (p : ApprovalPolicy) (sessionId : Nat)
    (category title : String) (input scope : Option String) :
    FailClosed js p sessionId category title input scope ↔
      Expected js p sessionId category title input scope := by
  constructor
  · intro hclosed hd
    refine ⟨fun hyolo => ?_, fun hread => ?_⟩
    · exact (hclosed (policyAllows_iff.mpr (.inr ⟨hd, .inl hyolo⟩))).1
    · obtain ⟨-, -, hstored | ⟨-, -, -, hcov⟩⟩ :=
        hclosed (policyAllows_iff.mpr (.inr ⟨hd, .inr (.inl hread)⟩))
      · exact .inr hstored
      · left
        obtain ⟨ht, -⟩ | ⟨ht, -⟩ | ⟨ht, -⟩ := hcov <;> rw [ht] <;> decide
  · intro hexpected hallow
    obtain ⟨-, ht, hrule⟩ | ⟨hd, htier⟩ := policyAllows_iff.mp hallow
    · obtain ⟨hstored, hrec⟩ := stored_of_hasExactAllowRule hjs hrule
      exact ⟨hrec, ht, .inl hstored⟩
    · obtain ⟨hyolo, hread⟩ := hexpected hd
      obtain htier | hc | ⟨htier, hc⟩ := htier
      · have hrec := hyolo htier
        exact ⟨hrec, hd.noException, .inr ⟨hd.given, hd.plain, hd.project, .inr (.inr ⟨htier, hrec⟩)⟩⟩
      · refine ⟨by rw [hc]; decide, hd.noException, ?_⟩
        obtain htier | hstored := hread hc
        · refine .inr ⟨hd.given, hd.plain, hd.project, ?_⟩
          simp only [tiers, List.mem_cons, List.not_mem_nil, or_false] at htier
          obtain htier | htier | htier := htier
          · exact .inl ⟨htier, hc⟩
          · exact .inr (.inl ⟨htier, by rw [hc]; decide⟩)
          · exact .inr (.inr ⟨htier, by rw [hc]; decide⟩)
        · exact .inl hstored
      · refine ⟨by rw [hc]; decide, hd.noException, .inr ⟨hd.given, hd.plain, hd.project, ?_⟩⟩
        exact .inr (.inl ⟨htier, by rw [hc]; decide⟩)

/-! ## Wider tiers -/

/-- The policies differ in their tiers only. -/
def SameRules (p q : ApprovalPolicy) : Prop :=
  p.promptExceptions = q.promptExceptions ∧ p.exactAllowRules = q.exactAllowRules

theorem hasExactAllowRule_congr (h : p.exactAllowRules = q.exactAllowRules)
    (category title : String)
    (input : Option String) : hasExactAllowRule js p category title input =
      hasExactAllowRule js q category title input := by
  unfold hasExactAllowRule
  rw [h]

theorem TierDecides.congr (h : TierDecides js p category title input scope) (hs : SameRules p q) :
    TierDecides js q category title input scope where
  known := h.known
  noException := hs.1 ▸ h.noException
  noRule := (hasExactAllowRule_congr hs.2 category title input).symm.trans h.noRule
  given := h.given
  plain := h.plain
  project := h.project

theorem policyAllows_mono (hs : SameRules p q)
    (ht : (p.effectiveTier sessionId = "readonly" ∧ q.effectiveTier sessionId = "edits") ∨
      (p.effectiveTier sessionId = "edits" ∧ q.effectiveTier sessionId = "yolo"))
    (h : policyAllows js p sessionId category title input scope = true) :
    policyAllows js q sessionId category title input scope = true := by
  obtain ⟨hc, hexc, hrule⟩ | ⟨hd, htier⟩ := policyAllows_iff.mp h
  · rw [hasExactAllowRule_congr hs.2] at hrule
    exact policyAllows_iff.mpr (.inl ⟨hc, hs.1 ▸ hexc, hrule⟩)
  · refine policyAllows_iff.mpr (.inr ⟨hd.congr hs, ?_⟩)
    obtain ⟨hp, hq⟩ | ⟨hp, hq⟩ := ht
    · obtain hy | hr | ⟨he, -⟩ := htier
      · simp [hp] at hy
      · exact .inr (.inl hr)
      · simp [hp] at he
    · exact .inl hq

/-! ## Learning and storing -/

/-- Decisions depend on the rules only through whether the operation has one. -/
theorem policyAllows_congr (he : p.promptExceptions = q.promptExceptions)
    (ht : p.effectiveTier sessionId = q.effectiveTier sessionId)
    (hr : hasExactAllowRule js p category title input = hasExactAllowRule js q category title input) :
    policyAllows js p sessionId category title input scope =
      policyAllows js q sessionId category title input scope := by
  unfold policyAllows
  rw [he, ht, hr]

theorem learnExactAllowRule_cases (h : learnExactAllowRule js p category title input = some q) :
    q = p ∨ ∃ rule, exactAllowRule js category title input = some rule ∧
      q = { p with exactAllowRules := p.exactAllowRules ++ [rule] } := by
  unfold learnExactAllowRule at h
  split at h
  · cases h
  next rule hrule =>
  split at h
  · cases h
    exact .inl rfl
  · cases h
    exact .inr ⟨rule, hrule, rfl⟩

/-- A rule that is learned concerns its own request only. -/
theorem learnExactAllowRule_frame (hjs : js.QuotesStrings)
    (h : learnExactAllowRule js p category title input = some q) (sessionId : Nat)
    {category' title' : String} {input' : Option String} (scope : Option String)
    (hne : (category', title', input') ≠ (category, title, input)) :
    policyAllows js q sessionId category' title' input' scope =
      policyAllows js p sessionId category' title' input' scope := by
  obtain rfl | ⟨rule, hrule, rfl⟩ := learnExactAllowRule_cases h
  · rfl
  refine policyAllows_congr rfl rfl (Bool.eq_iff_iff.mpr ?_)
  rw [hasExactAllowRule_iff hjs, hasExactAllowRule_iff hjs]
  constructor
  · rintro ⟨rule', hmem, hrule'⟩
    obtain hmem | hmem := List.mem_append.mp hmem
    · exact ⟨rule', hmem, hrule'⟩
    · -- The rule found is the learned one, which is for the operation learned.
      obtain rfl := List.mem_singleton.mp hmem
      obtain ⟨hc, ht, hi, -⟩ := exactAllowRule_eq_some hrule
      obtain ⟨hc', ht', hi', -⟩ := exactAllowRule_eq_some hrule'
      refine absurd ?_ hne
      rw [hc, ht, hi, hc', ht', hi']
  · rintro ⟨rule', hmem, hrule'⟩
    exact ⟨rule', List.mem_append_left _ hmem, hrule'⟩

/-- A stored rule is still one. -/
def accepted (js : Js) (rule : ExactAllowRule) : Bool :=
  (exactAllowRule js rule.category rule.title (some rule.input)).isSome

theorem keepRule_eq : keepRule js = Keep.keep (accepted js) (ruleKey js) := by
  funext kept stored
  unfold keepRule Keep.keep accepted
  cases hr : exactAllowRule js stored.category stored.title (some stored.input) with
  | none => rfl
  | some rule =>
    obtain ⟨hc, ht, hi, -⟩ := exactAllowRule_eq_some hr
    obtain rfl : stored = rule := by
      obtain ⟨c, t, i⟩ := stored
      obtain ⟨c', t', i'⟩ := rule
      simp_all
    rfl

theorem persistentPolicy_twice (p : ApprovalPolicy) :
    persistentPolicy js (persistentPolicy js p) = persistentPolicy js p := by
  simp only [persistentPolicy, keepRule_eq]
  congr 1
  exact Keep.keepAll_keepAll _

/-- Storing and loading keep what is allowed. -/
theorem persistentPolicy_allows (hjs : js.QuotesStrings) (hs : p.sessionOverrides sessionId = none)
    (hr : ∀ rule ∈ p.exactAllowRules, accepted js rule = true) :
    policyAllows js (persistentPolicy js p) sessionId category title input scope =
      policyAllows js p sessionId category title input scope := by
  have htier : (persistentPolicy js p).effectiveTier sessionId = p.effectiveTier sessionId := by
    unfold ApprovalPolicy.effectiveTier
    rw [hs]
    rfl
  refine policyAllows_congr rfl htier (Bool.eq_iff_iff.mpr ?_)
  rw [hasExactAllowRule_iff hjs, hasExactAllowRule_iff hjs]
  have hmem : ∀ rule, rule ∈ (persistentPolicy js p).exactAllowRules ↔
      rule ∈ p.exactAllowRules := by
    intro rule
    simp only [persistentPolicy, keepRule_eq]
    rw [← Keep.keepAll, Keep.mem_keepAll fun _ _ => ruleKey_inj hjs]
    exact and_iff_left_of_imp (hr rule)
  simp only [hmem]

/-! ## The whole policy -/

/-- The policy is fail-closed exactly where the tier and the category are expected ones, and it is
monotone, framed and stored without loss. -/
theorem policy_gates (js : Js) (hjs : js.QuotesStrings) :
    (∀ p sessionId category title input scope,
      FailClosed js p sessionId category title input scope ↔
        Expected js p sessionId category title input scope) ∧
    (∀ p q sessionId category title input scope, SameRules p q →
      ((p.effectiveTier sessionId = "readonly" ∧ q.effectiveTier sessionId = "edits") ∨
        (p.effectiveTier sessionId = "edits" ∧ q.effectiveTier sessionId = "yolo")) →
      policyAllows js p sessionId category title input scope = true →
      policyAllows js q sessionId category title input scope = true) ∧
    (∀ p q category title input, learnExactAllowRule js p category title input = some q →
      ∀ sessionId category' title' input' scope,
        (category', title', input') ≠ (category, title, input) →
        policyAllows js q sessionId category' title' input' scope =
          policyAllows js p sessionId category' title' input' scope) ∧
    (∀ p, persistentPolicy js (persistentPolicy js p) = persistentPolicy js p) ∧
    (∀ p sessionId category title input scope, p.sessionOverrides sessionId = none →
      (∀ rule ∈ p.exactAllowRules,
        (exactAllowRule js rule.category rule.title (some rule.input)).isSome = true) →
      policyAllows js (persistentPolicy js p) sessionId category title input scope =
        policyAllows js p sessionId category title input scope) := by
  refine ⟨failClosed_iff hjs, ?_, ?_, persistentPolicy_twice, ?_⟩
  · intro p q sessionId category title input scope hs ht h
    exact policyAllows_mono hs ht h
  · intro p q category title input h sessionId category' title' input' scope hne
    exact learnExactAllowRule_frame hjs h sessionId scope hne
  · intro p sessionId category title input scope hs hr
    exact persistentPolicy_allows hjs hs hr

/-- The text of a JSON string. -/
def textOf : Json → Option String
  | .str text => some text
  | _ => none

/-- JSON for the path of one file. -/
def pathJs : Js where
  parse text := if text = "[\"foo.rs\"]" then some (.arr [.str "foo.rs"]) else none
  stringify
    | .arr elems => String.ofList (Quote.array (elems.filterMap textOf))
    | _ => ""
  toLowerCase text := String.ofList (text.toList.map Char.toLower)

theorem pathJs_quotesStrings : pathJs.QuotesStrings := by
  intro texts
  have hall : (texts.map Json.str).filterMap textOf = texts := by
    rw [List.filterMap_map]
    exact List.filterMap_some
  simp only [pathJs, hall]

/-- A policy with one of the expected tiers, and one whose tier is another text. -/
def tierPolicy (tier : String) : ApprovalPolicy where
  tier
  sessionOverrides _ := none
  promptExceptions := []
  exactAllowRules := []

theorem policy_gates_readonly :
    pathJs.QuotesStrings ∧
    FailClosed pathJs (tierPolicy "readonly") 1 "read" "Read foo.rs" (some "[\"foo.rs\"]")
      (some "project") := by
  refine ⟨pathJs_quotesStrings, ?_⟩
  rw [(policy_gates pathJs pathJs_quotesStrings).1]
  intro _
  exact ⟨fun h => absurd h (by decide), fun _ => .inl (by decide)⟩

/-- A stored tier that is none of the three allows to read, and `yolo` allows a category that is
none of the five. -/
theorem policy_not_failClosed :
    ¬ FailClosed pathJs (tierPolicy "custom") 1 "read" "Read foo.rs" (some "[\"foo.rs\"]")
      (some "project") ∧
    ¬ FailClosed pathJs (tierPolicy "yolo") 1 "browser" "Open foo.rs" (some "[\"foo.rs\"]")
      (some "project") := by
  constructor
  · intro h
    have hallow : policyAllows pathJs (tierPolicy "custom") 1 "read" "Read foo.rs"
        (some "[\"foo.rs\"]") (some "project") = true := by decide +kernel
    obtain ⟨-, -, ⟨rule, hmem, -⟩ | ⟨-, -, -, hcov⟩⟩ := h hallow
    · cases hmem
    · obtain ⟨ht, -⟩ | ⟨ht, -⟩ | ⟨ht, -⟩ := hcov <;> exact absurd ht (by decide)
  · intro h
    have hallow : policyAllows pathJs (tierPolicy "yolo") 1 "browser" "Open foo.rs"
        (some "[\"foo.rs\"]") (some "project") = true := by decide +kernel
    exact absurd (h hallow).1 (by decide)

end Raw

end Policy

end Portty
