import Dae.Routing.Builder

/-!
# Blocks, jumps and flow programs

`routing_conditional.go`, `encodeRoutingJumps` of `routing_instruction.go`,
`routing_capture.go` and the block half of `routing_flow_compiler.go`.  A block is
a list of spans over the pool; a conditional use puts an entry in front of a block
that jumps past it.  The distances inside the rules are filled in at the end, over
the whole pool and from right to left.
-/

namespace Dae

/-! ### Spans -/

/-- `resolvedRoutingBlock`, which is its spans. -/
abbrev ResolvedRoutingBlock := List RoutingSpan

def tooManyExecuted (lim : Limits) : String :=
  "executes too many match sets: more than " ++ toString lim.maxMatchSetLen

/-- `resolvedRoutingBlock.appendSpan`. -/
def ResolvedRoutingBlock.appendSpan (lim : Limits) (block : ResolvedRoutingBlock)
    (span : RoutingSpan) : Except String ResolvedRoutingBlock :=
  if span.len = 0 then .ok block
  else if lim.maxMatchSetLen < spanExecutionLen block + span.len then
    .error (tooManyExecuted lim)
  else .ok (Dae.appendSpan block span)

/-- `resolvedRoutingBlock.appendBlock`. -/
def ResolvedRoutingBlock.appendBlock (lim : Limits) (block other : ResolvedRoutingBlock) :
    Except String ResolvedRoutingBlock :=
  if lim.maxMatchSetLen < spanExecutionLen block + spanExecutionLen other then
    .error (tooManyExecuted lim)
  else .ok (other.foldl Dae.appendSpan block)

/-! ### Jumps -/

/-- What `encodeRoutingJumps` carries from right to left: the rules done, and
`ruleEnd` and `clauseTail`, which are `-1` before the first tail. -/
structure JumpScan where
  rules : List MatchSet := []
  ruleEnd : Int := -1
  clauseTail : Int := -1
  deriving DecidableEq, Repr

/-- One round of `encodeRoutingJumps`, at index `i`. -/
def encodeJump (lim : Limits) (i : Nat) (rule : MatchSet) (scan : JumpScan) :
    Except String JumpScan :=
  match rule.action with
  | .and =>
    if scan.ruleEnd ≤ i then .error ("missing routing rule tail at match set " ++ toString i)
    else
      let mark := BitVec.ofInt 32 (scan.ruleEnd - i)
      .ok { scan with rules := { rule with mark } :: scan.rules, clauseTail := i }
  | .or =>
    if scan.clauseTail ≤ i then
      .error ("missing routing clause tail at match set " ++ toString i)
    else
      let mark := BitVec.ofInt 32 (scan.clauseTail - i)
      .ok { scan with rules := { rule with mark } :: scan.rules }
  | .conditionalJump =>
    if rule.mark.toNat ≤ 1 ∨ lim.maxMatchSetLen < rule.mark.toNat then
      .error ("invalid conditional routing jump at match set " ++ toString i ++ ": " ++
        toString rule.mark.toNat)
    else .ok { rules := rule :: scan.rules, ruleEnd := i + rule.mark.toNat, clauseTail := i }
  | _ => .ok { rules := rule :: scan.rules, ruleEnd := i + 1, clauseTail := i }

/-- The loop of `encodeRoutingJumps` over the pool from index `i` on. -/
def encodeJumpsFrom (lim : Limits) : Nat → List MatchSet → JumpScan → Except String JumpScan
  | _, [], scan => .ok scan
  | i, rule :: rest, scan => do
      let scan ← encodeJumpsFrom lim (i + 1) rest scan
      encodeJump lim i rule scan

/-- `encodeRoutingJumps`. -/
def encodeRoutingJumps (lim : Limits) (rules : List MatchSet) : Except String (List MatchSet) :=
  (encodeJumpsFrom lim 0 rules {}).map (·.rules)

/-- A conditional block that is open at the cursor. -/
structure BlockScope where
  last : Nat
  phase : RoutingPhase
  deriving DecidableEq, Repr

/-- Close the scopes that end at the position. -/
def closeScopes (position : Nat) (previous : MatchAction) :
    List BlockScope → Except String (List BlockScope)
  | [] => .ok []
  | scope :: outer =>
    if position < scope.last then .ok (scope :: outer)
    else if previous.isLogical then
      .error ("conditional routing block ends inside a rule at " ++ toString position)
    else closeScopes position previous outer

/-- One round of `validateRoutingBlocks`: the scopes that stay open after the
instruction. -/
def validateBlockStep (spans : List RoutingSpan) (position : Nat) (phase : RoutingPhase)
    (m : MatchSet) (scopes : List BlockScope) : Except String (List BlockScope) :=
  if (scopes.head?.map fun scope => decide (phase ≠ scope.phase)) = some true then
    .error ("conditional routing block crosses phases at " ++ toString position)
  else if m.isJump ∧ (m.mark = 0 ∨ spanExecutionLen spans - position < m.mark.toNat) then
    .error ("invalid routing jump at position " ++ toString position ++ ": " ++
      toString m.mark.toNat)
  else if m.action = .conditionalJump then
    if (scopes.head?.map fun scope => decide (scope.last < position + m.mark.toNat)) = some true
    then .error ("overlapping conditional routing blocks at " ++ toString position)
    else .ok (⟨position + m.mark.toNat, phase⟩ :: scopes)
  else .ok scopes

/-- The loop of `validateRoutingBlocks`; an index past the pool would panic. -/
def validateBlocksFrom (rules : List MatchSet) (spans : List RoutingSpan) :
    Nat → RoutingCursor → List BlockScope → MatchAction → Except String Unit
  | 0, _, _, _ => .ok ()
  | fuel + 1, cursor, scopes, previous =>
    match spans[cursor.span]? with
    | none => .ok ()
    | some span => do
        let scopes ← closeScopes cursor.position previous scopes
        match rules[cursor.instruction]? with
        | none => .error "index out of range"
        | some m =>
          let scopes ← validateBlockStep spans cursor.position span.phase m scopes
          validateBlocksFrom rules spans fuel
            ((RoutingCursor.advance spans cursor 1).getD cursor) scopes m.action

/-- `validateRoutingBlocks`. -/
def validateRoutingBlocks (rules : List MatchSet) (spans : List RoutingSpan) :
    Except String Unit :=
  validateBlocksFrom rules spans (spanExecutionLen spans + 1) (newRoutingCursor spans) [] .route

def maxRoutingInterfaces : Nat := 256

/-- The loop of `validate` over the profiles. -/
def validateProfiles (text : GoText) (rules : List MatchSet) :
    List RoutingProfile → Except String Unit
  | [] => .ok ()
  | profile :: rest => do
      (validateRoutingBlocks rules profile.spans).mapError fun err =>
        "routing policy " ++ text.quote profile.name ++ ": " ++ err
      validateProfiles text rules rest

/-- `validate`, which also fills in the jumps. -/
def RoutingMatcherBuilder.validate (env : CompileEnv) (b : RoutingMatcherBuilder) :
    Except String RoutingMatcherBuilder :=
  let interfaceCount := (b.profiles.map (·.interfaceNames.length)).sum
  if env.lim.maxMatchSetLen < b.programEnd then
    .error ("too many routing match sets: " ++ toString b.programEnd ++ " > " ++
      toString env.lim.maxMatchSetLen ++ " (MaxMatchSetLen); please reduce routing rules " ++
      "(e.g. merge domains into a routing.dls file)")
  else if env.lim.maxMatchSetLen * 2 < b.rules.length - b.programEnd then
    .error ("too many destination match sets: " ++ toString (b.rules.length - b.programEnd))
  else if maxRoutingInterfaces < interfaceCount then
    .error ("too many routing interface bindings: " ++ toString interfaceCount ++ " > " ++
      toString maxRoutingInterfaces)
  else do
    let rules ← encodeRoutingJumps env.lim b.rules
    validateProfiles env.text rules b.profiles
    .ok { b with rules }

/-- `validatePredicates`. -/
def validatePredicates (env : CompileEnv) : List DomainSet → Except String Unit
  | [] => .ok ()
  | set :: rest => do
      env.validateSet set.domains set.key
      validatePredicates env rest

/-! ### Conditional blocks -/

def directOutbound : Outbound := { name := "direct" }

/-- `setConditionalJump`. -/
def RoutingMatcherBuilder.setConditionalJump (b : RoutingMatcherBuilder) (tail bodyLength : Nat) :
    RoutingMatcherBuilder :=
  { b with
    rules := b.rules.modify tail fun m =>
      { m with action := .conditionalJump, mark := BitVec.ofNat 32 bodyLength + 1 } }

/-- `validateEmptyRoutingUse`. -/
def validateEmptyRoutingUse (env : CompileEnv) (condition : List Function) :
    Except String Unit := do
  let outbounds := fun name => if name = "direct" then some outboundDirect else none
  let b ← applyPredicate env condition directOutbound { outboundName2Id := outbounds }
  let b ← { b with programEnd := b.rules.length }.validate env
  validatePredicates env b.simulatedDomainSet

/-- `conditionalBlock`. -/
def conditionalBlock (env : CompileEnv) (body : ResolvedRoutingBlock)
    (condition : List Function) (b : RoutingMatcherBuilder) :
    Except String (ResolvedRoutingBlock × RoutingMatcherBuilder) :=
  if condition = [] then .ok (body, b)
  else
    match body with
    | [] => do
        validateEmptyRoutingUse env condition
        .ok ([], b)
    | entry :: _ => do
        let start := b.rules.length
        let b ← applyPredicate env condition directOutbound b
        let b := b.setConditionalJump (b.rules.length - 1) (spanExecutionLen body)
        let span : RoutingSpan :=
          { first := start, last := b.rules.length, phase := entry.phase }
        let block ← ResolvedRoutingBlock.appendSpan env.lim [] span
        let block ← ResolvedRoutingBlock.appendBlock env.lim block body
        .ok (block, b)

/-- `compileRuleBatch`. -/
def compileRuleBatch (env : CompileEnv) (rules : List RoutingRule) (b : RoutingMatcherBuilder) :
    Except String (RoutingSpan × RoutingMatcherBuilder) := do
  let start := b.rules.length
  let b ← applyRules env rules b
  if env.lim.maxMatchSetLen < b.rules.length then
    .error ("too many physical routing match sets: " ++ toString b.rules.length ++ " > " ++
      toString env.lim.maxMatchSetLen)
  else .ok ({ first := start, last := b.rules.length }, b)

/-! ### Capture predicates -/

/-- `plugin.HostRule`; a scope is a list of them. -/
structure HostRule where
  host : String
  ports : List (BitVec 16) := []
  exclude : Bool := false
  deriving DecidableEq, Repr

abbrev Scope := List HostRule

/-- `routingCapture`. -/
structure RoutingCapture where
  http : List Scope := []
  requestRouting : List Scope := []
  deriving DecidableEq, Repr

/-- `hostGroup`: the hosts that share a port set. -/
structure HostGroup where
  ports : List (BitVec 16)
  domains : List Param := []
  ips : List Param := []
  seen : List String := []
  deriving DecidableEq, Repr

/-- `strings.TrimSuffix(host, ".")`. -/
def trimDot (host : List Char) : List Char :=
  if host.getLast? = some '.' then host.dropLast else host

/-- `strings.ReplaceAll(pattern, "\\c", replacement)`. -/
def replaceEscaped (c : Char) (replacement : List Char) : List Char → List Char
  | [] => []
  | [a] => [a]
  | a :: b :: rest =>
    if a = '\\' ∧ b = c then replacement ++ replaceEscaped c replacement rest
    else a :: replaceEscaped c replacement (b :: rest)

/-- The domain parameter of a host name or glob. -/
def hostParam (text : GoText) (host : String) : Param :=
  if host.toList.any "*?".toList.contains then
    let pattern := (text.quoteMeta host).toList
    let pattern := replaceEscaped '?' ['.'] (replaceEscaped '*' ['.', '*'] pattern)
    { key := "regex", val := String.ofList ('^' :: pattern ++ ['$']) }
  else { key := "full", val := host }

/-- A host enters its group once. -/
def HostGroup.add (text : GoText) (group : HostGroup) (host : String) : HostGroup :=
  match text.parseAddr host with
  | .ok (ip, zone) =>
    let host := text.addrString ip.unmap zone
    { group with
      ips := if host ∈ group.seen then group.ips else group.ips ++ [{ val := host }]
      seen := host :: group.seen }
  | .error _ =>
    { group with
      domains := if host ∈ group.seen then group.domains
        else group.domains ++ [hostParam text host]
      seen := host :: group.seen }

/-- The group with these ports takes the host; a new group is put last. -/
def addHost (text : GoText) (ports : List (BitVec 16)) (host : String) :
    List HostGroup → List HostGroup
  | [] => [({ ports } : HostGroup).add text host]
  | group :: rest =>
    if group.ports = ports then group.add text host :: rest
    else group :: addHost text ports host rest

/-- One round of the grouping loop of `mitmCapturePredicates`. -/
def groupHost (text : GoText) (groups : List HostGroup) (rule : HostRule) : List HostGroup :=
  let host := String.ofList (trimDot (text.toLower rule.host).toList)
  let ports := compact ((rule.ports.filter (· ≠ 0)).insertionSort (·.toNat ≤ ·.toNat))
  if rule.exclude ∨ host = "" then groups
  else if rule.ports ≠ [] ∧ ports = [] then groups
  else addHost text ports host groups

/-- The predicates of one group. -/
def groupPredicates (group : HostGroup) : List (List Function) :=
  let hosts : List Function :=
    [{ name := "domain", params := group.domains }, { name := "dip", params := group.ips }]
  let transport : Function :=
    { name := "l4proto", params := [{ val := "tcp" }, { val := "udp" }] }
  let ports : List Function :=
    if group.ports = [] then []
    else
      [{ name := "dport", params := group.ports.map fun port => { val := toString port.toNat } }]
  (hosts.filter (·.params ≠ [])).map fun hosts => [transport, hosts] ++ ports

/-- `mitmCapturePredicates`. -/
def mitmCapturePredicates (text : GoText) (scopes : List Scope) : List (List Function) :=
  (scopes.flatten.foldl (groupHost text) []).flatMap groupPredicates

/-! ### Flow programs -/

/-- `applyFlowEffect`. -/
def applyFlowEffect (env : CompileEnv) (filter : List Function) (action : MatchAction)
    (flags : BitVec 8) (b : RoutingMatcherBuilder) : Except String RoutingMatcherBuilder := do
  let b ← applyPredicate env filter directOutbound b
  .ok { b with
    rules := b.rules.modify (b.rules.length - 1) fun m =>
      { m with action, flags := m.flags ||| flags <<< matchCaptureShift } }

/-- `applyFlowEffect` for each filter in turn. -/
def applyFlowEffects (env : CompileEnv) (flags : BitVec 8) (wrap : String → String) :
    List (List Function × MatchAction) → RoutingMatcherBuilder →
      Except String RoutingMatcherBuilder
  | [], b => .ok b
  | (filter, action) :: rest, b => do
      let b ← (applyFlowEffect env filter action flags b).mapError wrap
      applyFlowEffects env flags wrap rest b

/-- `compileHTTPCapture`. -/
def compileHTTPCapture (env : CompileEnv) (scopes : List Scope) (flags : BitVec 8)
    (phase : RoutingPhase) (b : RoutingMatcherBuilder) :
    Except String (RoutingSpan × RoutingMatcherBuilder) :=
  let start := b.rules.length
  match mitmCapturePredicates env.text scopes with
  | [] => .ok ({ first := 0, last := 0 }, b)
  | predicates => do
      let b := { b with rules := b.rules ++ [{ type := .httpClient }] }
      let b ← applyFlowEffects env flags ("HTTP capture: " ++ ·)
        (predicates.map (·, .capture)) b
      let b := b.setConditionalJump start (b.rules.length - start - 1)
      .ok ({ first := start, last := b.rules.length, phase, isGlobal := true }, b)

/-- `destinationFragment`; its number stands for its address. -/
structure DestinationFragment where
  number : Nat
  rules : List DestinationRewrite
  deriving DecidableEq, Repr

/-- `resolvedFlowBlock`. -/
structure ResolvedFlowBlock where
  capture : ResolvedRoutingBlock := []
  controls : ResolvedRoutingBlock := []
  destinations : List DestinationFragment := []
  deriving DecidableEq, Repr

/-- `resolvedFlowBlock.append`. -/
def ResolvedFlowBlock.append (lim : Limits) (block other : ResolvedFlowBlock) :
    Except String ResolvedFlowBlock := do
  let capture ← ResolvedRoutingBlock.appendBlock lim block.capture other.capture
  let controls ← ResolvedRoutingBlock.appendBlock lim block.controls other.controls
  .ok { capture, controls, destinations := block.destinations ++ other.destinations }

/-- `compileDestinations`. -/
def compileDestinations (env : CompileEnv) (rules : List DestinationRewrite) (isGlobal : Bool)
    (b : RoutingMatcherBuilder) : Except String (ResolvedFlowBlock × RoutingMatcherBuilder) :=
  if rules = [] then .ok ({}, b)
  else do
    let start := b.rules.length
    let b ← applyFlowEffects env captureDestination ("destination capture: " ++ ·)
      (rules.map fun rule => (rule.filter, .capture)) b
    let capture ← ResolvedRoutingBlock.appendSpan env.lim []
      { first := start, last := b.rules.length, phase := .ingress, isGlobal }
    .ok ({ capture, destinations := [⟨b.fragments, rules⟩] },
      { b with fragments := b.fragments + 1 })

/-- `compileFlowBatch`. -/
def compileFlowBatch (env : CompileEnv) (rules : List RoutingRule) (b : RoutingMatcherBuilder) :
    Except String (ResolvedFlowBlock × RoutingMatcherBuilder) := do
  let plan ← planRules env.text 0 rules {}
  let (block, b) ← compileDestinations env plan.destinations false b
  let start := b.rules.length
  let b ← applyFlowEffects env 0 id (plan.controls.map fun rule => (rule.filter, rule.action)) b
  if env.lim.maxMatchSetLen < b.rules.length then
    .error ("too many physical routing match sets: " ++ toString b.rules.length ++ " > " ++
      toString env.lim.maxMatchSetLen)
  else do
    let controls ← ResolvedRoutingBlock.appendSpan env.lim block.controls
      { first := start, last := b.rules.length, phase := .flow }
    .ok ({ block with controls }, b)

/-- The conditioned copies of fragments, numbered from `next` on. -/
def conditionFragments (condition : List Function) (next : Nat) :
    List DestinationFragment → List DestinationFragment
  | [] => []
  | fragment :: rest =>
    ⟨next, fragment.rules.map fun rule => { rule with filter := condition ++ rule.filter }⟩ ::
      conditionFragments condition (next + 1) rest

/-- `conditionalFlowBlock`. -/
def conditionalFlowBlock (env : CompileEnv) (body : ResolvedFlowBlock)
    (condition : List Function) (b : RoutingMatcherBuilder) :
    Except String (ResolvedFlowBlock × RoutingMatcherBuilder) := do
  let (capture, b) ← conditionalBlock env body.capture condition b
  let (controls, b) ← conditionalBlock env body.controls condition b
  .ok ({ capture, controls,
         destinations := conditionFragments condition b.fragments body.destinations },
    { b with fragments := b.fragments + body.destinations.length })

/-- One rewrite of `addDestinationPredicates`. -/
def addDestinationPredicate (env : CompileEnv) (rule : DestinationRewrite)
    (b : RoutingMatcherBuilder) :
    Except String (DestinationPredicate × RoutingMatcherBuilder) := do
  let start := b.rules.length
  let b ← (applyPredicate env rule.filter directOutbound b).mapError
    ("destination predicate: " ++ ·)
  let rules := (b.rules.modify (b.rules.length - 1) fun m => { m with action := .matchHit }) ++
    [{ type := .fallback, action := .miss }]
  .ok ({ span := { first := start, last := rules.length }
         domain := rule.filter.any (·.name == "domain")
         targets := rule.targets
         port := rule.port }, { b with rules })

/-- `addDestinationPredicates`. -/
def addDestinationPredicates (env : CompileEnv) : List DestinationRewrite →
    RoutingMatcherBuilder → Except String (List DestinationPredicate × RoutingMatcherBuilder)
  | [], b => .ok ([], b)
  | rule :: rest, b => do
      let (predicate, b) ← addDestinationPredicate env rule b
      let (more, b) ← addDestinationPredicates env rest b
      .ok (predicate :: more, b)

end Dae
