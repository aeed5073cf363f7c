import Dae.Routing.Config

/-!
# Inlined rules

What a list of statements means before any compilation: every `use` is replaced by
the rules of the set it names, recursively, and each rule remembers the conditions
of the uses around it, outermost first.
-/

namespace Dae

/-- A rule under the conditions of the uses around it. -/
structure GuardedRule where
  guards : List (List Function)
  rule : RoutingRule
  deriving DecidableEq, Repr

/-- The rule inside one more use; an unconditional use adds nothing. -/
def GuardedRule.under (condition : List Function) (g : GuardedRule) : GuardedRule :=
  if condition = [] then g else { g with guards := condition :: g.guards }

/-- The rules of statements, where `resolve` gives those of a rule set. -/
def inlineStatements (resolve : String → Option (List GuardedRule)) :
    List RoutingStatement → Option (List GuardedRule)
  | [] => some []
  | .rule rule :: rest => do
      let more ← inlineStatements resolve rest
      some (⟨[], rule⟩ :: more)
  | .use name condition :: rest => do
      let called ← resolve name
      let more ← inlineStatements resolve rest
      some (called.map (GuardedRule.under condition) ++ more)

/-- The rules of a rule set, through references of at most this depth. -/
def inlineSet (sets : String → Option RoutingRuleSet) : Nat → String → Option (List GuardedRule)
  | 0, _ => none
  | depth + 1, name =>
    match sets name with
    | none => none
    | some set => inlineStatements (inlineSet sets depth) set.statements

theorem inlineStatements_mono {resolve resolve' : String → Option (List GuardedRule)}
    (h : ∀ name rules, resolve name = some rules → resolve' name = some rules)
    {statements : List RoutingStatement} {rules : List GuardedRule}
    (hs : inlineStatements resolve statements = some rules) :
    inlineStatements resolve' statements = some rules := by
  induction statements generalizing rules with
  | nil => exact hs
  | cons statement rest ih =>
    cases statement with
    | rule rule =>
      obtain ⟨more, hmore, hs⟩ := Option.bind_eq_some_iff.mp hs
      exact Option.bind_eq_some_iff.mpr ⟨more, ih hmore, hs⟩
    | use name condition =>
      obtain ⟨called, hcalled, hs⟩ := Option.bind_eq_some_iff.mp hs
      obtain ⟨more, hmore, hs⟩ := Option.bind_eq_some_iff.mp hs
      exact Option.bind_eq_some_iff.mpr ⟨called, h name called hcalled,
        Option.bind_eq_some_iff.mpr ⟨more, ih hmore, hs⟩⟩

theorem inlineSet_mono {sets : String → Option RoutingRuleSet} {depth depth' : Nat}
    (hd : depth ≤ depth') {name : String} {rules : List GuardedRule}
    (h : inlineSet sets depth name = some rules) : inlineSet sets depth' name = some rules := by
  induction depth generalizing depth' name rules with
  | zero => cases h
  | succ depth ih =>
    obtain ⟨depth', rfl⟩ : ∃ k, depth' = k + 1 := ⟨depth' - 1, by omega⟩
    unfold inlineSet at h ⊢
    cases hset : sets name with
    | none =>
      rw [hset] at h
      cases h
    | some set =>
      simp only [hset] at h ⊢
      exact inlineStatements_mono (fun name rules => ih (by omega)) h

end Dae
