import Dae.Lib.Clauses
import Dae.Lib.Result

/-!
# Logical rules of Surge modules

`plugins/surge/module_rule.go`: a rule of nested `AND`, `OR` and `NOT` over domains is parsed
directly into clauses, and negations are pushed down to the domains on the way.  A text is the
list of its bytes, each of them given as the character of that code.
-/

namespace Dae.Surge

open Clauses (holds product size holds_append holds_product length_product size_append size_product)

def maxModuleRuleDepth : Nat := 10

def maxModuleRuleClauses : Nat := 128

def maxModuleRulePredicates : Nat := 512

/-- What is taken from the packages `strings` and `fmt`. -/
structure GoText where
  toUpper : List Char → List Char
  toLower : List Char → List Char
  trimSpace : List Char → List Char
  equalFold : List Char → List Char → Bool
  quote : List Char → String

/-- An error of the parser, and whether it wraps `errUnsupportedModuleRule`. -/
structure RuleError where
  unsupported : Bool
  text : String

def invalid (text : String) : RuleError := ⟨false, text⟩

def unsupported (text : String) : RuleError := ⟨true, "unsupported module rule: " ++ text⟩

/-! ### Fields -/

abbrev Fields := List (List Char)

/-- The loop of `splitModuleRuleFields`, with the bytes since the last comma; inside of quotes it
has the quote, and whether the next byte is escaped. -/
def scanFields : List Char → Nat → Option (Char × Bool) → List Char →
    Except RuleError Fields
  | [], depth, quote, field =>
    if depth ≠ 0 ∨ quote.isSome then .error (invalid "unbalanced Rule parentheses or quotes")
    else .ok [field]
  | c :: rest, depth, some (q, true), field => scanFields rest depth (some (q, false)) (field ++ [c])
  | c :: rest, depth, some (q, false), field =>
    let quote := if c = '\\' then some (q, true) else if c = q then none else some (q, false)
    scanFields rest depth quote (field ++ [c])
  | c :: rest, depth, none, field =>
    if c = '\'' ∨ c = '"' then scanFields rest depth (some (c, false)) (field ++ [c])
    else if c = '(' then
      if depth + 1 > 64 then .error (invalid "Rule parentheses exceed nesting limit")
      else scanFields rest (depth + 1) none (field ++ [c])
    else if c = ')' then
      if depth = 0 then .error (invalid "unbalanced Rule parentheses")
      else scanFields rest (depth - 1) none (field ++ [c])
    else if c = ',' ∧ depth = 0 then (scanFields rest depth none []).map (field :: ·)
    else scanFields rest depth none (field ++ [c])

def unquoteField (field : List Char) : List Char :=
  if 2 ≤ field.length ∧ (field.head? = some '"' ∨ field.head? = some '\'') ∧
      field.getLast? = field.head? then field.tail.dropLast
  else field

def splitModuleRuleFields (g : GoText) (source : List Char) : Except RuleError Fields :=
  if source.length > 65536 then .error (invalid "Rule exceeds 64 KiB")
  else do
    let fields ← scanFields source 0 none []
    let fields := fields.map fun field => unquoteField (g.trimSpace field)
    if fields.contains [] then .error (invalid "empty Rule field") else .ok fields

/-- The fields between the parentheses of a text. -/
def parenthesized (g : GoText) (message : String) (text : List Char) :
    Except RuleError Fields :=
  if text.length < 2 ∨ text.head? ≠ some '(' ∨ text.getLast? ≠ some ')' then
    .error (invalid message)
  else splitModuleRuleFields g text.tail.dropLast

/-- The sub-rules of a logical rule. -/
def children (g : GoText) (value : List Char) : Except RuleError Fields :=
  parenthesized g "logical Rule requires a parenthesized sub-rule list" (g.trimSpace value)

/-- The fields of a sub-rule. -/
def childParts (g : GoText) (child : List Char) : Except RuleError Fields :=
  parenthesized g "each logical sub-rule must be parenthesized" child

/-! ### Domains -/

inductive DomainType where
  | domain
  | suffix
  | keyword
  | wildcard
  deriving DecidableEq, Repr

structure RuleDomain where
  type : DomainType
  value : List Char
  not : Bool
  deriving DecidableEq, Repr

inductive RuleKind where
  | domain (type : DomainType)
  | and
  | or
  | not
  deriving DecidableEq, Repr

def ruleKinds : List (String × RuleKind) :=
  [("DOMAIN", .domain .domain), ("DOMAIN-SUFFIX", .domain .suffix),
    ("DOMAIN-KEYWORD", .domain .keyword), ("DOMAIN-WILDCARD", .domain .wildcard),
    ("AND", .and), ("OR", .or), ("NOT", .not)]

def ruleKind? (g : GoText) (field : List Char) : Option RuleKind :=
  (ruleKinds.find? fun kind => kind.1.toList = g.toUpper field).map (·.2)

def containsAny (s : List Char) (chars : String) : Bool := s.any (chars.toList.contains ·)

/-- The value of a domain. -/
def domainValue (g : GoText) (type : DomainType) (field : List Char) :
    Except RuleError (List Char) :=
  let value := g.toLower field
  let value := if type ≠ .keyword ∧ value.getLast? = some '.' then value.dropLast else value
  let value := if type = .suffix ∧ value.head? = some '.' then value.tail else value
  if value = [] ∨ containsAny value " /\\\t\r\n,:()" then
    .error (invalid ("invalid Rule hostname or keyword " ++ g.quote field))
  else if type = .wildcard ∧ containsAny value "[]" then
    .error (unsupported "DOMAIN-WILDCARD character classes")
  else if type ≠ .wildcard ∧ type ≠ .keyword ∧ containsAny value "*?[]" then
    .error (invalid ("invalid literal Rule hostname " ++ g.quote value))
  else .ok value

/-- The options of a sub-rule: whether it has `extended-matching`. -/
def subRuleOptions (g : GoText) (flags : Fields) : Except RuleError Bool :=
  match flags.find? fun flag => !g.equalFold flag "extended-matching".toList with
  | some flag => .error (unsupported ("sub-rule option " ++ g.quote flag))
  | none => .ok !flags.isEmpty

/-! ### Expressions -/

abbrev RuleClauses := List (List RuleDomain)

/-- The clauses that a child adds to those before it. -/
def joined (and : Bool) (clauses part : RuleClauses) : RuleClauses :=
  if and then product clauses part else clauses ++ part

/-- The end of the loop over the children. -/
def combine (and : Bool) (clauses part : RuleClauses) : Except RuleError RuleClauses :=
  if and ∧ clauses.length * part.length > maxModuleRuleClauses then
    .error (invalid ("Rule expansion exceeds " ++ toString maxModuleRuleClauses ++ " clauses"))
  else
    let clauses := joined and clauses part
    if clauses.length > maxModuleRuleClauses ∨ size clauses > maxModuleRulePredicates then
      .error (invalid ("Rule expansion exceeds " ++ toString maxModuleRuleClauses ++
        " clauses or " ++ toString maxModuleRulePredicates ++ " predicates"))
    else .ok clauses

/-- The loop over the children of an `AND` or `OR`, where `parse` is the recursive call. -/
def combineLoop (g : GoText) (and : Bool)
    (parse : Fields → Except RuleError (RuleClauses × Bool)) :
    Fields → RuleClauses → Bool → Except RuleError (RuleClauses × Bool)
  | [], clauses, extended => .ok (clauses, extended)
  | child :: rest, clauses, extended => do
    let parts ← childParts g child
    let part ← parse parts
    let clauses ← combine and clauses part.1
    combineLoop g and parse rest clauses (extended || part.2)

/-- The clauses before the first child. -/
def neutral (and : Bool) : RuleClauses := if and then [[]] else []

/-- `parseModuleRuleExpression` with some levels of nesting left. -/
def parseLevels (g : GoText) :
    Nat → Fields → Bool → Except RuleError (RuleClauses × Bool)
  | 0, _, _ =>
    .error (invalid ("Rule logical nesting exceeds " ++ toString maxModuleRuleDepth ++ " levels"))
  | levels + 1, kind :: value :: flags, negated => do
    let extended ← subRuleOptions g flags
    match ruleKind? g kind with
    | none => .error (unsupported ("type " ++ g.quote kind))
    | some (.domain type) =>
      let value ← domainValue g type value
      .ok ([[⟨type, value, negated⟩]], extended)
    | some .not =>
      match ← children g value with
      | [child] =>
        let parts ← childParts g child
        let part ← parseLevels g levels parts !negated
        .ok (part.1, extended || part.2)
      | _ => .error (invalid "NOT requires exactly one sub-rule")
    | some kind =>
      let and := (kind == .and) != negated
      let children ← children g value
      combineLoop g and (parseLevels g levels · negated) children (neutral and) extended
  | _ + 1, _, _ => .error (invalid "Rule subexpression requires type and value")

def parseModuleRuleExpression (g : GoText) (fields : Fields) (depth : Nat)
    (negated : Bool) : Except RuleError (RuleClauses × Bool) :=
  parseLevels g (maxModuleRuleDepth + 1 - depth) fields negated

/-! ### The meaning of a rule -/

/-- The fields of a sub-rule that can be read. -/
def partsOf (g : GoText) (child : List Char) : Fields := (childParts g child).toOption.getD []

/-- The sub-rules of a rule that can be read. -/
def subRules (g : GoText) (value : List Char) : List Fields :=
  ((children g value).toOption.getD []).map (partsOf g)

/-- What a rule says of some domains, with `AND`, `OR` and `NOT` as usual. -/
def ruleValue (g : GoText) (v : DomainType → List Char → Bool) : Nat → Fields → Bool
  | levels + 1, kind :: value :: _ =>
    match ruleKind? g kind with
    | none => false
    | some (.domain type) => ((domainValue g type value).toOption.map (v type)).getD false
    | some .and => (subRules g value).all (ruleValue g v levels)
    | some .or => (subRules g value).any (ruleValue g v levels)
    | some .not => !(subRules g value).any (ruleValue g v levels)
  | _, _ => false

/-- A predicate of a clause. -/
def predicate (v : DomainType → List Char → Bool) (p : RuleDomain) : Bool := v p.type p.value != p.not

/-- The limits of a result. -/
def WithinLimits (clauses : RuleClauses) : Prop :=
  clauses.length ≤ maxModuleRuleClauses ∧ size clauses ≤ maxModuleRulePredicates

/-- The clauses are within the limits, and mean what is said under every assignment. -/
def Means (clauses : RuleClauses) (value : (DomainType → List Char → Bool) → Bool) : Prop :=
  WithinLimits clauses ∧ ∀ v, holds (predicate v) clauses = value v

variable {g : GoText} {and negated extended : Bool} {clauses clauses' part : RuleClauses}
  {result : RuleClauses × Bool} {levels : Nat}

/-- What is built before the limits are checked. -/
theorem joined_within (hclauses : WithinLimits clauses) (hpart : WithinLimits part)
    (hproduct : and = true → clauses.length * part.length ≤ maxModuleRuleClauses) :
    (joined and clauses part).length ≤ 2 * maxModuleRuleClauses ∧
      size (joined and clauses part) ≤ 2 * (maxModuleRuleClauses * maxModuleRulePredicates) := by
  obtain ⟨hlength, hsize⟩ := hclauses
  obtain ⟨hlength', hsize'⟩ := hpart
  cases and with
  | true =>
    have hleft := Nat.mul_le_mul hlength' hsize
    have hright := Nat.mul_le_mul hlength hsize'
    simp only [joined, if_true, length_product, size_product]
    exact ⟨(hproduct rfl).trans (by decide), by omega⟩
  | false =>
    simp only [joined, Bool.false_eq_true, if_false, List.length_append, size_append]
    unfold maxModuleRuleClauses maxModuleRulePredicates at *
    omega

theorem combine_spec (h : combine and clauses part = .ok clauses') :
    WithinLimits clauses' ∧ clauses' = joined and clauses part := by
  obtain ⟨-, h⟩ := Except.ite_error_eq_ok h
  obtain ⟨hlimits, h⟩ := Except.ite_error_eq_ok h
  rw [not_or, not_lt, not_lt] at hlimits
  cases h
  exact ⟨hlimits, rfl⟩

theorem within_neutral : WithinLimits (neutral and) := by
  cases and <;> exact ⟨by decide, by decide⟩

section Loop

variable (hparse : ∀ {parts part}, parseLevels g levels parts negated = .ok part →
  Means part.1 fun v => ruleValue g v levels parts != negated)

include hparse

/-- The loop joins the children to what it has. -/
theorem combineLoop_spec {texts : Fields} (hclauses : WithinLimits clauses)
    (h : combineLoop g and (parseLevels g levels · negated) texts clauses extended = .ok result) :
    Means result.1 fun v =>
      let values := (texts.map (partsOf g)).map (ruleValue g v levels · != negated)
      if and then holds (predicate v) clauses && values.all id
      else holds (predicate v) clauses || values.any id := by
  induction texts generalizing clauses extended with
  | nil =>
    cases h
    exact ⟨hclauses, fun v => by cases and <;> simp⟩
  | cons text texts ih =>
    obtain ⟨parts, hparts, h⟩ := Except.bind_eq_ok h
    obtain ⟨part, hpart, h⟩ := Except.bind_eq_ok h
    obtain ⟨next, hnext, h⟩ := Except.bind_eq_ok h
    obtain ⟨hwithin, rfl⟩ := combine_spec hnext
    obtain ⟨hlimits, hvalues⟩ := ih hwithin h
    refine ⟨hlimits, fun v => ?_⟩
    rw [hvalues v]
    have hvalue := (hparse hpart).2 v
    have hpartsOf : partsOf g text = parts := by rw [partsOf, hparts]; rfl
    cases and with
    | true => simp [joined, holds_product, hvalue, hpartsOf, Bool.and_assoc]
    | false => simp [joined, holds_append, hvalue, hpartsOf, Bool.or_assoc]

/-- An `AND` or `OR` as a whole. -/
theorem junction_spec {value : List Char}
    (h : (children g value >>= fun texts =>
      combineLoop g and (parseLevels g levels · negated) texts (neutral and) extended) =
        .ok result) :
    Means result.1 fun v =>
      let values := (subRules g value).map (ruleValue g v levels · != negated)
      if and then values.all id else values.any id := by
  obtain ⟨texts, htexts, h⟩ := Except.bind_eq_ok h
  obtain ⟨hlimits, hvalues⟩ := combineLoop_spec hparse within_neutral h
  refine ⟨hlimits, fun v => ?_⟩
  rw [hvalues v, subRules, htexts]
  cases and <;> simp [neutral, holds, Except.toOption]

end Loop

/-- **Every level.**  A negated rule has the opposite value. -/
theorem parseLevels_spec {fields : Fields} (h : parseLevels g levels fields negated = .ok result) :
    Means result.1 fun v => ruleValue g v levels fields != negated := by
  induction levels generalizing fields negated result with
  | zero => cases h
  | succ levels ih =>
    obtain _ | ⟨kind, _ | ⟨value, flags⟩⟩ := fields
    · cases h
    · cases h
    obtain ⟨option, -, h⟩ := Except.bind_eq_ok h
    unfold ruleValue
    cases hkind : ruleKind? g kind with
    | none =>
      rw [hkind] at h
      cases h
    | some kind =>
      rw [hkind] at h
      cases kind with
      | domain type =>
        obtain ⟨domain, hdomain, h⟩ := Except.bind_eq_ok h
        cases h
        refine ⟨⟨by simp [maxModuleRuleClauses], by simp [size, maxModuleRulePredicates]⟩,
          fun v => ?_⟩
        simp [holds, predicate, hdomain, Except.toOption]
      | not =>
        obtain ⟨_ | ⟨text, _ | _⟩, htexts, h⟩ := Except.bind_eq_ok h
        · cases h
        · obtain ⟨parts, hparts, h⟩ := Except.bind_eq_ok h
          obtain ⟨part, hpart, h⟩ := Except.bind_eq_ok h
          cases h
          obtain ⟨hlimits, hvalue⟩ := ih hpart
          refine ⟨hlimits, fun v => ?_⟩
          simp [hvalue v, subRules, htexts, partsOf, hparts, Except.toOption]
        · cases h
      | and | or =>
        obtain ⟨hlimits, hvalues⟩ := junction_spec ih h
        refine ⟨hlimits, fun v => ?_⟩
        rw [hvalues v]
        cases negated <;> simp [List.not_all_eq_any_not, List.not_any_eq_all_not]

/-- Functions that leave the text as it is. -/
def sampleText : GoText := ⟨id, id, id, (· == ·), String.ofList⟩

end Dae.Surge
