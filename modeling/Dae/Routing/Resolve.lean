import Dae.Routing.Batches
import Dae.Routing.Signature

/-!
# Rule set resolution

Resolving a rule set gives a block for its inlined rules, whatever was cached
before: a cached block stands for the rules of its own name and condition, and the
printed key determines both.
-/

namespace Dae

open RuleMachine

section Sound

variable {B : Type}

/-- What the blocks of a program stand for, and what its operations do to it. -/
structure Sound (env : CompileEnv) (ifindexOf : String → BitVec 32) (program : RuleSetCompiler B)
    (Den : RoutingMatcherBuilder → B → List GuardedRule → Prop) : Prop where
  mono : ∀ {b b' block rs}, Den b block rs → WellFormed env.lim ifindexOf b →
    Extends ifindexOf b b' → Den b' block rs
  empty : ∀ {b}, Den b program.empty []
  append : ∀ {b block other block' rs rs'}, Den b block rs → Den b other rs' →
    program.append block other = .ok block' → Den b block' (rs ++ rs')
  compile : ∀ {b b' rules block}, WellFormed env.lim ifindexOf b →
    program.compile rules b = .ok (block, b') →
    Grows env.lim ifindexOf b b' ∧ Den b' block (rules.map (GuardedRule.mk []))
  condition : ∀ {b b' block block' rs condition}, WellFormed env.lim ifindexOf b →
    Den b block rs → program.condition block condition b = .ok (block', b') →
    Grows env.lim ifindexOf b b' ∧ Den b' block' (rs.map (GuardedRule.under condition))
  same : ∀ {b block c c'} {rs : List GuardedRule}, List.Forall₂ Function.Same c c' →
    Den b block (rs.map (GuardedRule.under c)) → Den b block (rs.map (GuardedRule.under c'))

variable {env : CompileEnv} {ifindexOf : String → BitVec 32} {program : RuleSetCompiler B}
  {Den : RoutingMatcherBuilder → B → List GuardedRule → Prop}
  {sets : String → Option RoutingRuleSet}

/-- The block stands for the rules of the set, under the condition. -/
def Stands (Den : RoutingMatcherBuilder → B → List GuardedRule → Prop)
    (sets : String → Option RoutingRuleSet) (b : RoutingMatcherBuilder) (name : String)
    (condition : List Function) (block : B) : Prop :=
  ∃ depth rs, inlineSet sets depth name = some rs ∧
    Den b block (rs.map (GuardedRule.under condition))

/-- A state between two resolutions: every cached block stands for its key. -/
structure CacheOK (env : CompileEnv) (ifindexOf : String → BitVec 32)
    (Den : RoutingMatcherBuilder → B → List GuardedRule → Prop)
    (sets : String → Option RoutingRuleSet) (st : RuleSetState B) : Prop where
  wellFormed : WellFormed env.lim ifindexOf st.builder
  cached : ∀ key block, (key, block) ∈ st.cache → ∃ name condition,
    key = routingSetKey name condition ∧ Stands Den sets st.builder name condition block

variable {name : String} {block : B}

theorem Stands.mono (hs : Sound env ifindexOf program Den) {b b' : RoutingMatcherBuilder}
    {condition : List Function}
    (h : Stands Den sets b name condition block) (hwf : WellFormed env.lim ifindexOf b)
    (he : Extends ifindexOf b b') : Stands Den sets b' name condition block := by
  obtain ⟨depth, rs, hrs, hden⟩ := h
  exact ⟨depth, rs, hrs, hs.mono hden hwf he⟩

variable {st : RuleSetState B}

theorem CacheOK.mono (hs : Sound env ifindexOf program Den)
    (h : CacheOK env ifindexOf Den sets st) {b' : RoutingMatcherBuilder}
    (hg : Grows env.lim ifindexOf st.builder b') :
    CacheOK env ifindexOf Den sets { st with builder := b' } := by
  refine ⟨hg.wellFormed, fun key block hmem => ?_⟩
  obtain ⟨name, condition, hkey, hstands⟩ := h.cached key block hmem
  exact ⟨name, condition, hkey, hstands.mono hs h.wellFormed hg.extends⟩

/-- One resolution step keeps the state good and only grows the pool. -/
structure ResolveStep (env : CompileEnv) (ifindexOf : String → BitVec 32)
    (Den : RoutingMatcherBuilder → B → List GuardedRule → Prop)
    (sets : String → Option RoutingRuleSet) (st st' : RuleSetState B) : Prop where
  grows : Grows env.lim ifindexOf st.builder st'.builder
  cache : CacheOK env ifindexOf Den sets st'

theorem ResolveStep.refl (h : CacheOK env ifindexOf Den sets st) :
    ResolveStep env ifindexOf Den sets st st :=
  ⟨Grows.refl h.wellFormed, h⟩

variable {st' : RuleSetState B}

theorem ResolveStep.trans {st'' : RuleSetState B} (h : ResolveStep env ifindexOf Den sets st st')
    (h' : ResolveStep env ifindexOf Den sets st' st'') :
    ResolveStep env ifindexOf Den sets st st'' :=
  ⟨h.grows.trans h'.grows, h'.cache⟩

theorem flushRules_spec (hs : Sound env ifindexOf program Den)
    {rules : List RoutingRule} {block' : B} {rs : List GuardedRule}
    (hst : CacheOK env ifindexOf Den sets st) (hblock : Den st.builder block rs)
    (h : flushRules env program name rules block st = .ok (block', st')) :
    ResolveStep env ifindexOf Den sets st st' ∧
      Den st'.builder block' (rs ++ rules.map (GuardedRule.mk [])) := by
  unfold flushRules at h
  by_cases hrules : rules = []
  · rw [if_pos hrules] at h
    cases h
    rw [hrules, List.map_nil, List.append_nil]
    exact ⟨ResolveStep.refl hst, hblock⟩
  rw [if_neg hrules] at h
  obtain ⟨⟨batch, b'⟩, hbatch, h⟩ := Except.bind_eq_ok h
  obtain ⟨whole, hwhole, h⟩ := Except.bind_eq_ok h
  cases h
  obtain ⟨hg, hden⟩ := hs.compile hst.wellFormed (Except.mapError_eq_ok hbatch)
  refine ⟨⟨hg, hst.mono hs hg⟩, ?_⟩
  exact hs.append (hs.mono hblock hst.wellFormed hg.extends) hden (Except.mapError_eq_ok hwhole)

/-- What a resolver of references has to do. -/
def Resolves (env : CompileEnv) (ifindexOf : String → BitVec 32)
    (Den : RoutingMatcherBuilder → B → List GuardedRule → Prop)
    (sets : String → Option RoutingRuleSet)
    (resolve : String → List Function → RuleSetState B → Except String (B × RuleSetState B)) :
    Prop :=
  ∀ {name condition st block st'}, CacheOK env ifindexOf Den sets st →
    resolve name condition st = .ok (block, st') →
    ResolveStep env ifindexOf Den sets st st' ∧ Stands Den sets st'.builder name condition block

/-- **A list of statements** becomes a block for its inlined rules. -/
theorem resolveBlockStatements_spec (hs : Sound env ifindexOf program Den)
    {resolve : String → List Function → RuleSetState B → Except String (B × RuleSetState B)}
    (hresolve : Resolves env ifindexOf Den sets resolve)
    {statements : List RoutingStatement} {rules : List RoutingRule} {block' : B}
    {rs : List GuardedRule} (hst : CacheOK env ifindexOf Den sets st)
    (hblock : Den st.builder block rs)
    (h : resolveBlockStatements env program resolve name statements rules block st =
      .ok (block', st')) :
    ResolveStep env ifindexOf Den sets st st' ∧ ∃ depth more,
      inlineStatements (inlineSet sets depth) statements = some more ∧
      Den st'.builder block' (rs ++ rules.map (GuardedRule.mk []) ++ more) := by
  induction statements generalizing rules block st rs with
  | nil =>
    obtain ⟨hstep, hden⟩ := flushRules_spec hs hst hblock h
    refine ⟨hstep, 0, [], rfl, ?_⟩
    rw [List.append_nil]
    exact hden
  | cons statement rest ih =>
    cases statement with
    | rule rule =>
      obtain ⟨hstep, depth, more, hmore, hden⟩ := ih hst hblock h
      refine ⟨hstep, depth, ⟨[], rule⟩ :: more, ?_, ?_⟩
      · rw [inlineStatements, hmore]
        rfl
      · rw [List.map_append, ← List.append_assoc, List.append_assoc] at hden
        exact hden
    | use used condition =>
      obtain ⟨⟨flushed, st₁⟩, hflush, h⟩ := Except.bind_eq_ok h
      obtain ⟨⟨called, st₂⟩, hcalled, h⟩ := Except.bind_eq_ok h
      obtain ⟨joined, hjoined, h⟩ := Except.bind_eq_ok h
      obtain ⟨hstep₁, hden₁⟩ := flushRules_spec hs hst hblock hflush
      obtain ⟨hstep₂, d, callees, hd, hden₂⟩ := hresolve hstep₁.cache
        (Except.mapError_eq_ok hcalled)
      have hden₁' := hs.mono hden₁ hstep₁.cache.wellFormed hstep₂.grows.extends
      have hjoin := hs.append hden₁' hden₂ (Except.mapError_eq_ok hjoined)
      obtain ⟨hstep₃, depth, more, hmore, hden⟩ := ih hstep₂.cache hjoin h
      refine ⟨(hstep₁.trans hstep₂).trans hstep₃, max d depth,
        callees.map (GuardedRule.under condition) ++ more, ?_, ?_⟩
      · have hcallees := inlineSet_mono (le_max_left d depth) hd
        have hmore' := inlineStatements_mono
          (fun name rules => inlineSet_mono (le_max_right d depth)) hmore
        rw [inlineStatements, hcallees, hmore']
        rfl
      · rw [List.map_nil, List.append_nil, List.append_assoc] at hden
        exact hden

/-- **Resolution** returns a block that stands for the rule set, cached or not. -/
theorem resolveRuleSet_spec (hs : Sound env ifindexOf program Den) {others : Nat} (fuel : Nat) :
    Resolves env ifindexOf Den sets (resolveRuleSet env program sets others fuel) := by
  induction fuel with
  | zero =>
    intro name condition st block st' _ h
    cases h
  | succ fuel ih =>
    intro name condition st block st' hst h
    unfold resolveRuleSet at h
    cases hcached : st.cache.lookup (routingSetKey name condition) with
    | some found =>
      simp only [hcached] at h
      cases h
      obtain ⟨name', condition', hkey, depth, rs, hrs, hden⟩ :=
        hst.cached _ _ (List.mem_of_lookup hcached)
      obtain ⟨rfl, hsame⟩ := routingSetKey_inj hkey.symm
      exact ⟨ResolveStep.refl hst, depth, rs, hrs, hs.same hsame hden⟩
    | none =>
      simp only [hcached] at h
      cases hset : sets name with
      | none =>
        simp only [hset] at h
        cases h
      | some set =>
        simp only [hset] at h
        -- Whichever way the block was made, it is then put in the cache.
        have hstore : ∀ {compiled : B} {st₁ : RuleSetState B},
            ResolveStep env ifindexOf Den sets st st₁ →
            Stands Den sets st₁.builder name condition compiled →
            (if env.lim.maxMatchSetLen ≤ st₁.cache.length + others then
              Except.error ("too many routing rule_set condition variants: limit " ++
                toString env.lim.maxMatchSetLen)
            else .ok (compiled, { st₁ with
              cache := (routingSetKey name condition, compiled) :: st₁.cache })) =
              .ok (block, st') →
            ResolveStep env ifindexOf Den sets st st' ∧
              Stands Den sets st'.builder name condition block := by
          intro compiled st₁ hstep hstands hif
          obtain ⟨-, hif⟩ := Except.ite_error_eq_ok hif
          cases hif
          refine ⟨⟨hstep.grows, hstep.cache.wellFormed, ?_⟩, hstands⟩
          intro key other hmem
          rcases List.mem_cons.mp hmem with heq | hmem
          · cases heq
            exact ⟨name, condition, rfl, hstands⟩
          · exact hstep.cache.cached key other hmem
        have hid : GuardedRule.under [] = id := funext fun g => if_pos rfl
        by_cases hcond : condition = []
        · rw [if_pos hcond] at h
          obtain ⟨⟨compiled, st₁⟩, hcompiled, h⟩ := Except.bind_eq_ok h
          obtain ⟨hstep, depth, more, hmore, hden⟩ :=
            resolveBlockStatements_spec hs ih hst hs.empty hcompiled
          refine hstore hstep ⟨depth + 1, more, ?_, ?_⟩ h
          · rw [inlineSet, hset]
            exact hmore
          · rw [hcond, hid, List.map_id]
            exact hden
        · rw [if_neg hcond] at h
          obtain ⟨⟨body, st₂⟩, hbody, h⟩ := Except.bind_eq_ok h
          obtain ⟨⟨guarded, b₃⟩, hguarded, h⟩ := Except.bind_eq_ok h
          obtain ⟨hstep, depth, rs, hrs, hden⟩ := ih hst hbody
          rw [hid, List.map_id] at hden
          obtain ⟨hg, hden'⟩ := hs.condition hstep.cache.wellFormed hden hguarded
          exact hstore ⟨hstep.grows.trans hg, hstep.cache.mono hs hg⟩
            ⟨depth, rs, hrs, hden'⟩ h

end Sound

/-! ### The two programs -/

section Programs

variable {env : CompileEnv} {ifindexOf : String → BitVec 32} {b : RoutingMatcherBuilder}

theorem CondMeans.of_same {text : GoText} {c c' : List Function} {p : Cond Atom}
    (hsame : List.Forall₂ Function.Same c c') (h : CondMeans text ifindexOf b c p) :
    CondMeans text ifindexOf b c' p := by
  unfold CondMeans at h ⊢
  generalize p.init ++ [p.last] = clauses at h ⊢
  induction hsame generalizing clauses with
  | nil => exact h
  | cons hf _ ih =>
    cases h with
    | cons hg htail =>
      obtain ⟨hname, hnot, hparams⟩ := hf
      refine .cons ⟨hg.1.trans hnot, ?_⟩ (ih _ htail)
      rw [← hname, ← hparams]
      exact hg.2

theorem RuleMeans.of_same {text : GoText} {c c' : List Function} {g : GuardedRule}
    {r : List (Cond Atom) × Terminal} (hsame : List.Forall₂ Function.Same c c')
    (h : RuleMeans text ifindexOf b (g.under c) r) : RuleMeans text ifindexOf b (g.under c') r := by
  have hnil : c = [] ↔ c' = [] := by
    rw [← List.length_eq_zero_iff, ← List.length_eq_zero_iff, hsame.length_eq]
  by_cases hc : c = []
  · have hsame' : g.under c' = g.under c := by
      rw [GuardedRule.under, GuardedRule.under, if_pos hc, if_pos (hnil.mp hc)]
    rw [hsame']
    exact h
  · rw [GuardedRule.under, if_neg hc] at h
    rw [GuardedRule.under, if_neg (fun hc' => hc (hnil.mpr hc'))]
    obtain ⟨rc, rt⟩ := r
    obtain ⟨conds, target⟩ := h
    refine ⟨?_, target⟩
    cases conds with
    | cons hfirst hrest => exact .cons (hfirst.of_same hsame) hrest

theorem routingProgram_sound (env : CompileEnv) (ifindexOf : String → BitVec 32) :
    Sound env ifindexOf (routingProgram env) (RoutesLay env.text ifindexOf) where
  mono := RoutesLay.of_extends
  empty := RoutesLay.nil
  append := RoutesLay.append
  compile := by
    intro b b' rules block hwf h
    obtain ⟨⟨span, b₁⟩, hspan, h⟩ := Except.bind_eq_ok h
    obtain ⟨whole, hwhole, h⟩ := Except.bind_eq_ok h
    cases h
    obtain ⟨hg, hphase, hord, q, hlays, hrules⟩ := compileRuleBatch_spec hwf hspan
    exact ⟨hg, PhasesIn.nil.span hwhole hphase, q,
      appendSpan_lays blockLays_nil hord hlays hwhole, hrules⟩
  condition := by
    intro b b' block block' rs condition hwf hden h
    obtain ⟨hphases, q, hq, hrs⟩ := hden
    obtain ⟨hg, hphases', q', hq', hcond⟩ := conditionalBlock_spec hwf hq hphases h
    exact ⟨hg, hphases', q', hq', hcond.rules (hrs.imp fun _ _ hr => hr.of_extends hwf hg.extends)⟩
  same := by
    intro b block c c' rs hsame h
    obtain ⟨hphases, q, hq, hrs⟩ := h
    refine ⟨hphases, q, hq, ?_⟩
    rw [List.forall₂_map_left_iff] at hrs ⊢
    exact hrs.imp fun _ _ hr => hr.of_same hsame

/-- A flow block is described without its rules. -/
def FlowsLay (ifindexOf : String → BitVec 32) (b : RoutingMatcherBuilder)
    (block : ResolvedFlowBlock) (_ : List GuardedRule) : Prop :=
  FlowLays ifindexOf b block

theorem flowProgram_sound (env : CompileEnv) (ifindexOf : String → BitVec 32) :
    Sound env ifindexOf (flowProgram env) (FlowsLay ifindexOf) where
  mono h _ he := FlowLays.mono h he
  empty := FlowLays.empty
  append h h' happend := FlowLays.append h h' happend
  compile hwf h := compileFlowBatch_spec hwf h
  condition hwf hden h := conditionalFlowBlock_spec hwf hden h
  same _ h := h

end Programs

end Dae
