import Dae.Routing.Blocks

/-!
# The routing compiler

`routing_rule_set_compiler.go`, `routing_profile_compiler.go` and the shared half of
`routing_flow_compiler.go`.  Rule sets are compiled once per condition and cached;
profiles splice the cached blocks together with the shared programs.

References between rule sets are followed with fuel.  `Routing.Validate` bounds
their depth, and no statement below depends on how much fuel there was.
-/

namespace Dae

/-! ### Rule sets -/

/-- `ruleSetCompiler`: what the routing and the flow program do differently. -/
structure RuleSetCompiler (B : Type) where
  kind : String
  empty : B
  compile : List RoutingRule → RoutingMatcherBuilder → Except String (B × RoutingMatcherBuilder)
  condition : B → List Function → RoutingMatcherBuilder →
    Except String (B × RoutingMatcherBuilder)
  append : B → B → Except String B

/-- The compiled variants, newest first. -/
abbrev RuleSetCache (B : Type) := List (RoutingRuleSetKey × B)

/-- What rule set resolution reads and writes. -/
structure RuleSetState (B : Type) where
  builder : RoutingMatcherBuilder
  cache : RuleSetCache B

section Resolve

variable {B : Type} (env : CompileEnv) (program : RuleSetCompiler B)

/-- `appendBlock` of `resolveBlockStatements`. -/
def appendBatch (name : String) (block batch : B) : Except String B :=
  (program.append block batch).mapError fun err =>
    program.kind ++ " block " ++ env.text.quote name ++ " " ++ err

/-- `flush` of `resolveBlockStatements`. -/
def flushRules (name : String) (rules : List RoutingRule) (block : B)
    (st : RuleSetState B) : Except String (B × RuleSetState B) :=
  if rules = [] then .ok (block, st)
  else do
    let (batch, builder) ← (program.compile rules st.builder).mapError fun err =>
      "compile " ++ program.kind ++ " block " ++ env.text.quote name ++ ": " ++ err
    let block ← appendBatch env program name block batch
    .ok (block, { st with builder })

/-- The loop of `resolveBlockStatements`; `rules` are the rules not yet flushed, and
`resolve` resolves a reference. -/
def resolveBlockStatements
    (resolve : String → List Function → RuleSetState B → Except String (B × RuleSetState B))
    (name : String) : List RoutingStatement → List RoutingRule → B → RuleSetState B →
      Except String (B × RuleSetState B)
  | [], rules, block, st => flushRules env program name rules block st
  | .rule rule :: rest, rules, block, st =>
    resolveBlockStatements resolve name rest (rules ++ [rule]) block st
  | .use used condition :: rest, rules, block, st => do
      let (block, st) ← flushRules env program name rules block st
      let (called, st) ← (resolve used condition st).mapError fun err =>
        program.kind ++ " block " ++ env.text.quote name ++ ": " ++ err
      let block ← appendBatch env program name block called
      resolveBlockStatements resolve name rest [] block st

/-- `resolveRuleSet`; `others` counts the variants of the other program. -/
def resolveRuleSet (sets : String → Option RoutingRuleSet) (others : Nat) :
    Nat → String → List Function → RuleSetState B → Except String (B × RuleSetState B)
  | 0, _, _, _ => .error "out of fuel"
  | fuel + 1, name, condition, st =>
    match st.cache.lookup (routingSetKey name condition) with
    | some block => .ok (block, st)
    | none =>
      match sets name with
      | none => .error ("undefined routing rule_set " ++ env.text.quote name)
      | some set => do
          let (block, st) ←
            if condition = [] then
              resolveBlockStatements env program (resolveRuleSet sets others fuel) set.name
                set.statements [] program.empty st
            else do
              let (block, st) ← resolveRuleSet sets others fuel name [] st
              let (block, builder) ← program.condition block condition st.builder
              .ok (block, { st with builder })
          if env.lim.maxMatchSetLen ≤ st.cache.length + others then
            .error ("too many routing rule_set condition variants: limit " ++
              toString env.lim.maxMatchSetLen)
          else
            .ok (block, { st with
              cache := (routingSetKey name condition, block) :: st.cache })

end Resolve

/-- `routingProgram`. -/
def routingProgram (env : CompileEnv) : RuleSetCompiler ResolvedRoutingBlock where
  kind := "routing"
  empty := []
  compile rules b := do
    let (span, b) ← compileRuleBatch env rules b
    let block ← ResolvedRoutingBlock.appendSpan env.lim [] span
    .ok (block, b)
  condition := conditionalBlock env
  append := ResolvedRoutingBlock.appendBlock env.lim

/-- `flowProgram`. -/
def flowProgram (env : CompileEnv) : RuleSetCompiler ResolvedFlowBlock where
  kind := "flow"
  empty := {}
  compile := compileFlowBatch env
  condition := conditionalFlowBlock env
  append := ResolvedFlowBlock.append env.lim

/-! ### The compiler -/

def emptySpan : RoutingSpan := { first := 0, last := 0 }

/-- `sharedRoutingPrograms`. -/
structure SharedRoutingPrograms where
  bypass : RoutingSpan := emptySpan
  request : RoutingSpan := emptySpan
  http : RoutingSpan := emptySpan
  early : RoutingSpan := emptySpan
  late : RoutingSpan := emptySpan
  destinations : ResolvedFlowBlock := {}
  deriving DecidableEq, Repr

/-- `routingCompiler`. -/
structure RoutingCompiler where
  validationOutbounds : Option (String → Option (BitVec 8)) := none
  builder : RoutingMatcherBuilder
  sets : String → Option RoutingRuleSet
  setKinds : RuleSetKindMap
  resolved : RuleSetCache ResolvedRoutingBlock := []
  flows : RuleSetCache ResolvedFlowBlock := []
  shared : SharedRoutingPrograms := {}
  profileDestinations : List (BitVec 32 × List DestinationFragment) := []
  flowEnd : RoutingSpan := emptySpan

/-- `preparedRules`. -/
structure PreparedRules where
  routing : Routing
  bypass : List RoutingRule := []
  destinations : List DestinationRewrite := []
  earlyRoutes : List RoutingRule := []
  lateRoutes : List RoutingRule := []
  capture : Option RoutingCapture := none
  validationOutbounds : Option (String → Option (BitVec 8)) := none

section Compiler

variable (env : CompileEnv) (fuel : Nat)

/-- Rule set resolution over the caches of a compiler. -/
def RoutingCompiler.resolveRouting (c : RoutingCompiler)
    (run : RuleSetState ResolvedRoutingBlock →
      Except String (ResolvedRoutingBlock × RuleSetState ResolvedRoutingBlock)) :
    Except String (ResolvedRoutingBlock × RoutingCompiler) := do
  let (block, st) ← run ⟨c.builder, c.resolved⟩
  .ok (block, { c with builder := st.builder, resolved := st.cache })

/-- The same over the flow cache. -/
def RoutingCompiler.resolveFlow (c : RoutingCompiler)
    (run : RuleSetState ResolvedFlowBlock →
      Except String (ResolvedFlowBlock × RuleSetState ResolvedFlowBlock)) :
    Except String (ResolvedFlowBlock × RoutingCompiler) := do
  let (block, st) ← run ⟨c.builder, c.flows⟩
  .ok (block, { c with builder := st.builder, flows := st.cache })

/-- `resolveSet`. -/
def RoutingCompiler.resolveSet (c : RoutingCompiler) (name : String)
    (condition : List Function) :=
  c.resolveRouting
    (resolveRuleSet env (routingProgram env) c.sets c.flows.length fuel name condition)

/-- `resolveStatements`. -/
def RoutingCompiler.resolveStatements (c : RoutingCompiler) (name : String)
    (statements : List RoutingStatement) :=
  c.resolveRouting
    (resolveBlockStatements env (routingProgram env)
      (resolveRuleSet env (routingProgram env) c.sets c.flows.length fuel) name statements []
      (routingProgram env).empty)

/-- `resolveFlowSet`. -/
def RoutingCompiler.resolveFlowSet (c : RoutingCompiler) (name : String)
    (condition : List Function) :=
  c.resolveFlow
    (resolveRuleSet env (flowProgram env) c.sets c.resolved.length fuel name condition)

/-- `resolveFlowStatements`. -/
def RoutingCompiler.resolveFlowStatements (c : RoutingCompiler) (name : String)
    (statements : List RoutingStatement) :=
  c.resolveFlow
    (resolveBlockStatements env (flowProgram env)
      (resolveRuleSet env (flowProgram env) c.sets c.resolved.length fuel) name statements []
      (flowProgram env).empty)

/-- The bypass flag of the routes from index `start` on. -/
def flagBypass (start : Nat) (rules : List MatchSet) : List MatchSet :=
  rules.take start ++ (rules.drop start).map fun m =>
    if m.action = .route then { m with flags := m.flags ||| matchFlagBypass } else m

/-- The two capture programs of `compileShared`. -/
def compileCaptures (capture : Option RoutingCapture) (b : RoutingMatcherBuilder) :
    Except String ((RoutingSpan × RoutingSpan) × RoutingMatcherBuilder) :=
  match capture with
  | none => .ok ((emptySpan, emptySpan), b)
  | some capture => do
      let (request, b) ← compileHTTPCapture env capture.requestRouting
        (captureHTTP ||| captureHTTPRequest) .ingress b
      let (http, b) ← compileHTTPCapture env capture.http captureHTTP .flow b
      .ok ((request, http), b)

/-- `compileShared`. -/
def RoutingCompiler.compileShared (c : RoutingCompiler) (p : PreparedRules) :
    Except String RoutingCompiler := do
  let start := c.builder.rules.length
  let b ← applyRules env p.bypass c.builder
  let b := { b with rules := flagBypass start b.rules }
  let bypass : RoutingSpan :=
    { first := start, last := b.rules.length, phase := .ingress, isGlobal := true }
  let (destinations, b) ← compileDestinations env p.destinations true b
  let ((request, http), b) ← compileCaptures env p.capture b
  let (early, b) ← compileRuleBatch env p.earlyRoutes b
  let (late, b) ← compileRuleBatch env p.lateRoutes b
  .ok { c with
    builder := b
    shared :=
      { bypass, request, http, destinations
        early := { early with isGlobal := true }
        late := { late with isGlobal := true } } }

/-- The blocks appended in turn by `addProfile`. -/
def appendBlocks (wrap : String → String) : List ResolvedRoutingBlock → ResolvedRoutingBlock →
    Except String ResolvedRoutingBlock
  | [], block => .ok block
  | next :: rest, block => do
      let block ← (ResolvedRoutingBlock.appendBlock env.lim block next).mapError wrap
      appendBlocks wrap rest block

/-- The instruction that ends the flow phase. -/
def flowEndSet : MatchSet := { type := .fallback, action := .flowEnd }

/-- The flow end of `addProfile`: one instruction that all profiles share. -/
def RoutingCompiler.useFlowEnd (c : RoutingCompiler) : RoutingSpan × RoutingCompiler :=
  if c.flowEnd.len = 0 then
    let start := c.builder.rules.length
    let span : RoutingSpan := { first := start, last := start + 1, phase := .flow }
    (span, { c with
      builder := { c.builder with rules := c.builder.rules ++ [flowEndSet] }
      flowEnd := span })
  else (c.flowEnd, c)

/-- The flow end is appended to a profile that has controls or captures HTTP. -/
def RoutingCompiler.appendFlowEnd (c : RoutingCompiler) (flow : ResolvedFlowBlock)
    (block : ResolvedRoutingBlock) : Except String (ResolvedRoutingBlock × RoutingCompiler) :=
  if flow.controls ≠ [] ∨ c.shared.http.len ≠ 0 then
    let (span, c) := c.useFlowEnd
    do
      let block ← ResolvedRoutingBlock.appendSpan env.lim block span
      .ok (block, c)
  else .ok (block, c)

/-- `addProfile`. -/
def RoutingCompiler.addProfile (c : RoutingCompiler) (id : BitVec 32)
    (interfaceNames : List String) (policy : RoutingPolicy) : Except String RoutingCompiler := do
  let policyName := "routing policy " ++ env.text.quote policy.name
  let (flow, c) ← (c.resolveFlowStatements env fuel policy.name policy.rules).mapError
    (policyName ++ " rules: " ++ ·)
  let (body, c) ← c.resolveStatements env fuel policy.name policy.statements
  let block ← appendBlocks env (policyName ++ ": " ++ ·)
    [[c.shared.bypass], flow.capture, c.shared.destinations.capture, [c.shared.request],
      flow.controls, [c.shared.http]] []
  let (block, c) ← c.appendFlowEnd env flow block
  let block ← appendBlocks env (policyName ++ ": " ++ ·)
    [[c.shared.early], body, [c.shared.late]] block
  let fallback ← (c.builder.parseFallback env policy.fallback).mapError
    (policyName ++ " fallback: " ++ ·)
  let (span, b) ← (c.builder.addFallback env fallback).mapError (policyName ++ " fallback: " ++ ·)
  let spans ← (ResolvedRoutingBlock.appendSpan env.lim block span).mapError (policyName ++ ": " ++ ·)
  .ok { c with
    builder := { b with
      profiles := b.profiles ++ [{ id, name := policy.name, interfaceNames, spans }] }
    profileDestinations :=
      (id, flow.destinations ++ c.shared.destinations.destinations) :: c.profileDestinations }

/-- The fragments of one profile in `finish`; `compiled` holds those done before. -/
def finishFragments : List DestinationFragment → List (Nat × List DestinationPredicate) →
    RoutingMatcherBuilder →
    Except String (List DestinationPredicate × List (Nat × List DestinationPredicate) ×
      RoutingMatcherBuilder)
  | [], compiled, b => .ok ([], compiled, b)
  | fragment :: rest, compiled, b => do
      let (predicates, compiled, b) ← match compiled.lookup fragment.number with
        | some predicates => .ok (predicates, compiled, b)
        | none => do
            let (predicates, b) ← addDestinationPredicates env fragment.rules b
            .ok (predicates, (fragment.number, predicates) :: compiled, b)
      let (more, compiled, b) ← finishFragments rest compiled b
      .ok (predicates ++ more, compiled, b)

/-- The loop of `finish` over the profiles. -/
def finishProfiles (destinations : List (BitVec 32 × List DestinationFragment)) :
    List RoutingProfile → List (Nat × List DestinationPredicate) → RoutingMatcherBuilder →
    Except String (List RoutingProfile × RoutingMatcherBuilder)
  | [], _, b => .ok ([], b)
  | profile :: rest, compiled, b => do
      let (predicates, compiled, b) ←
        finishFragments env ((destinations.lookup profile.id).getD []) compiled b
      let (more, b) ← finishProfiles destinations rest compiled b
      .ok ({ profile with destination := profile.destination ++ predicates } :: more, b)

/-- `finish`. -/
def RoutingCompiler.finish (c : RoutingCompiler) : Except String RoutingMatcherBuilder := do
  let b := { c.builder with
    programEnd := c.builder.rules.length
    kernelLpmLen := c.builder.simulatedLpmTries.length }
  let (profiles, b) ← finishProfiles env c.profileDestinations b.profiles [] b
  { b with profiles }.validate env

/-- `newValidator`. -/
def RoutingCompiler.newValidator (c : RoutingCompiler) : RoutingCompiler where
  builder := { outboundName2Id := c.validationOutbounds.getD c.builder.outboundName2Id }
  sets := c.sets
  setKinds := c.setKinds

/-- The end of a validation: the result is checked and dropped. -/
def RoutingCompiler.finishValidation (c : RoutingCompiler) : Except String Unit := do
  let b ← c.finish env
  validatePredicates env b.simulatedDomainSet

/-- The policies of `compile` that no binding selects are validated only. -/
def RoutingCompiler.validatePolicies (c : RoutingCompiler) (selected : List String) :
    List RoutingPolicy → Except String Unit
  | [] => .ok ()
  | policy :: rest =>
    if policy.name ∈ selected then validatePolicies c selected rest
    else do
      let validator ← c.newValidator.addProfile env fuel 0 [] policy
      validator.finishValidation env
      validatePolicies c selected rest

/-- `validateUnusedRuleSets`. -/
def RoutingCompiler.validateUnusedRuleSets (c : RoutingCompiler) :
    List RoutingRuleSet → Except String Unit
  | [] => .ok ()
  | set :: rest =>
    if set.name ∈ c.resolved.map (·.1.name) ∨ set.name ∈ c.flows.map (·.1.name) then
      validateUnusedRuleSets c rest
    else do
      let validator ←
        if c.setKinds.lookup set.name = some .flow then do
          let (_, validator) ← c.newValidator.resolveFlowSet env fuel set.name []
          .ok validator
        else do
          let (_, validator) ← c.newValidator.resolveSet env fuel set.name []
          .ok validator
      validator.finishValidation env
      validateUnusedRuleSets c rest

/-- The policies that `default` and the interfaces select, in order. -/
def selectedPolicies (defaultPolicy : String) : List RoutingInterface → List String
  | interfaces => interfaces.foldl
      (fun names binding => if binding.policy ∈ names then names else names ++ [binding.policy])
      [defaultPolicy]

/-- The loop of `compile` over the selected policies, from profile `i` on.  A name
without a policy would be a nil dereference; `Validate` refuses it. -/
def RoutingCompiler.addProfiles (routing : Routing) :
    Nat → List String → RoutingCompiler → Except String RoutingCompiler
  | _, [], c => .ok c
  | i, name :: rest, c =>
    match lastNamed RoutingPolicy.name routing.policies name with
    | none => .error "nil pointer dereference"
    | some policy => do
        let interfaceNames :=
          (routing.interfaces.filter (·.policy = name)).map RoutingInterface.name
        let c ← c.addProfile env fuel (BitVec.ofNat 32 (i + 1)) interfaceNames policy
        RoutingCompiler.addProfiles routing (i + 1) rest c

/-- `compile`. -/
def RoutingCompiler.compile (c : RoutingCompiler) (routing : Routing) :
    Except String RoutingCompiler := do
  let selected := selectedPolicies routing.defaultPolicy routing.interfaces
  let c := { c with builder := { c.builder with defaultProfileID := 1 } }
  let c ← RoutingCompiler.addProfiles env fuel routing 0 selected c
  c.validatePolicies env fuel selected routing.policies
  c.validateUnusedRuleSets env fuel routing.ruleSets
  .ok c

/-- `compileRouting`. -/
def compileRouting (outbounds : String → Option (BitVec 8)) (p : PreparedRules) :
    Except String RoutingMatcherBuilder := do
  let kinds ← p.routing.ruleSetKinds env.text fuel
  let c : RoutingCompiler :=
    { builder := { outboundName2Id := outbounds }
      sets := lastNamed RoutingRuleSet.name p.routing.ruleSets
      setKinds := kinds
      validationOutbounds := p.validationOutbounds }
  let c ← c.compileShared env p
  let c ← c.compile env fuel p.routing
  c.finish env

end Compiler

end Dae
