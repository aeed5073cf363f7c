import Dae.Routing.Instruction

/-!
# The routing configuration

The configuration tree of `pkg/config_parser` and `config/routing*.go` after
preparation, as the compiler reads it: functions and their parameters, rules,
`use` statements, rule sets and policies.  `routingSetKey` prints a condition into
the key of a compiled variant, and `RuleSetKinds` and `Rules.Plan` are the two
passes of `config` that compilation repeats.

Parsing text into addresses and numbers is Go's standard library; it enters as a
record of functions (`GoText`).  Source positions, which never affect execution,
are left out.
-/

namespace Dae

/-- The functions of Go's standard library (`netip`, `strconv`, `strings`, `unicode`,
`regexp`, `encoding/hex`) that the compiler calls on configured text.  A parsed
address comes with its zone. -/
structure GoText where
  quote : String → String
  parsePrefix : String → Except String Prefix
  parseAddr : String → Except String (Addr × String)
  parseAddrPort : String → Except String ((Addr × String) × BitVec 16)
  addrString : Addr → String → String
  atoi : String → Except String Int
  parseUint : String → Nat → Except String Nat
  parseBool : String → Except String Bool
  decodeHex : String → Except String (List (BitVec 8))
  toLower : String → String
  isSpace : Char → Bool
  isControl : Char → Bool
  quoteMeta : String → String
  comparePrefix : Prefix → Prefix → Ordering

/-! ### Functions and rules -/

/-- The characters that start a bare literal, and those that may follow. -/
def bareHead : List Char :=
  "abcdefghijklmnopqrstuvwxyzABCDEFGHIJKLMNOPQRSTUVWXYZ_/\\^*.+0123456789-".toList

def bareRest : List Char := bareHead ++ "=@$!#%".toList

/-- `IsBareLiteral`. -/
def isBareLiteral : List Char → Bool
  | [] => false
  | c :: cs => bareHead.contains c && cs.all bareRest.contains

/-- A parameter key is empty or one `ID` token of the grammar. -/
def isParamKey (key : String) : Bool := key.toList.isEmpty || isBareLiteral key.toList

theorem isParamKey_empty : isParamKey "" = true := by decide

theorem isParamKey_full : isParamKey "full" = true := by decide

/-- `config_parser.Param` inside a validated routing function: `Validate` refuses
nested functions and annotations there. -/
structure Param where
  key : String := ""
  val : String
  grammar : isParamKey key = true := by decide
  deriving DecidableEq, Repr

/-- `config_parser.Function`. -/
structure Function where
  name : String
  not : Bool := false
  params : List Param := []
  quoted : Bool := false
  deriving DecidableEq, Repr

/-- `config_parser.RoutingRule`. -/
structure RoutingRule where
  andFunctions : List Function
  outbound : Function
  deriving DecidableEq, Repr

/-- `config.RoutingStatement`: a rule, or a rule set to use, perhaps under a
condition. -/
inductive RoutingStatement where
  | rule (rule : RoutingRule)
  | use (name : String) (condition : List Function)
  deriving DecidableEq, Repr

structure RoutingRuleSet where
  name : String
  statements : List RoutingStatement
  deriving DecidableEq, Repr

/-- `config.RoutingPolicy`; `rules` are its flow controls. -/
structure RoutingPolicy where
  name : String := ""
  rules : List RoutingStatement := []
  statements : List RoutingStatement
  fallback : Function
  deriving DecidableEq, Repr

structure RoutingInterface where
  name : String
  policy : String
  deriving DecidableEq, Repr

/-- `config.Routing`. -/
structure Routing where
  ruleSets : List RoutingRuleSet := []
  policies : List RoutingPolicy
  interfaces : List RoutingInterface := []
  defaultPolicy : String := ""
  deriving DecidableEq, Repr

/-- Go's `map[string]V` filled from a list, where a later entry replaces an earlier
one of the same name. -/
def lastNamed {V : Type} (nameOf : V → String) (entries : List V) (name : String) : Option V :=
  entries.reverse.find? (nameOf · = name)

/-! ### Printing conditions -/

/-- `QuoteLiteral`. -/
def quoteLiteral (value : List Char) : List Char :=
  '"' :: (value.flatMap fun c => if c = '"' ∨ c = '\\' then ['\\', c] else [c]) ++ ['"']

/-- `formatFunctionName`. -/
def formatFunctionName (name : List Char) (quoted : Bool) : List Char :=
  if quoted || !isBareLiteral name then quoteLiteral name else name

/-- `Param.String`, for a parameter without nested functions and annotations. -/
def Param.string (compact quoteVal : Bool) (p : Param) : List Char :=
  let value := if quoteVal then quoteLiteral p.val.toList else p.val.toList
  if p.key ≠ "" then p.key.toList ++ (if compact then [':'] else [':', ' ']) ++ value else value

/-- `Function.String`. -/
def Function.string (compact quoteVal omitEmpty : Bool) (f : Function) : List Char :=
  (if f.not then ['!'] else []) ++ formatFunctionName f.name.toList f.quoted ++
    (if omitEmpty && f.params.isEmpty then []
      else '(' :: List.intercalate (if compact then [','] else [',', ' '])
        (f.params.map (Param.string compact quoteVal)) ++ [')'])

/-- `routingRuleSetKey`. -/
structure RoutingRuleSetKey where
  name : String
  condition : List Char
  deriving DecidableEq, Repr

/-- `routingSetKey`. -/
def routingSetKey (name : String) (condition : List Function) : RoutingRuleSetKey where
  name
  condition := condition.flatMap fun f => f.string true true false ++ ['&', '&']

/-! ### Flow rules -/

/-- `routing.DestinationRewrite`. -/
structure DestinationRewrite where
  filter : List Function
  targets : List Addr
  port : BitVec 16 := 0
  deriving DecidableEq, Repr

/-- `routing.FlowRule`; the action is `must` or `bump`. -/
structure FlowRule where
  filter : List Function
  action : MatchAction
  deriving DecidableEq, Repr

/-- `config.RulePlan`. -/
structure RulePlan where
  destinations : List DestinationRewrite := []
  controls : List FlowRule := []
  deriving DecidableEq, Repr

/-- The target of `dnat(ip)` or `dnat(ip:port)`. -/
def planTarget (text : GoText) (i : Nat) (val : String) : Except String (Addr × BitVec 16) :=
  let invalid : Except String (Addr × BitVec 16) := .error
    ("rules rule " ++ toString (i + 1) ++ ": dnat target must be an IP or IP:port without a zone")
  match text.parseAddr val with
  | .ok (ip, zone) => if zone ≠ "" then invalid else .ok (ip.unmap, 0)
  | .error _ =>
    match text.parseAddrPort val with
    | .ok ((ip, zone), port) =>
      if port = 0 ∨ zone ≠ "" then invalid else .ok (ip.unmap, port)
    | .error _ => invalid

/-- One round of the loop of `Rules.Plan`. -/
def planRule (text : GoText) (i : Nat) (rule : RoutingRule) (plan : RulePlan) :
    Except String RulePlan :=
  let a := rule.outbound
  let fail (message : String) : Except String RulePlan :=
    .error ("rules rule " ++ toString (i + 1) ++ ": " ++ message)
  if rule.andFunctions = [] then fail "empty filter"
  else if a.not || a.quoted then fail "actions cannot be quoted or negated"
  else if a.name = "must" ∨ a.name = "bump" then
    if a.params ≠ [] then fail (a.name ++ " takes no arguments")
    else
      let action := if a.name = "must" then MatchAction.must else MatchAction.bump
      .ok { plan with controls := plan.controls ++ [⟨rule.andFunctions, action⟩] }
  else if a.name = "dnat" then
    match a.params with
    | [p] =>
      if p.key ≠ "" then fail "expected dnat(ip) with exactly one IP argument"
      else do
        let (ip, port) ← planTarget text i p.val
        .ok { plan with
          destinations := plan.destinations ++ [⟨rule.andFunctions, [ip], port⟩] }
    | _ => fail "expected dnat(ip) with exactly one IP argument"
  else fail "expected dnat(ip), must or bump"

/-- `Rules.Plan`, from rule `i` on. -/
def planRules (text : GoText) : Nat → List RoutingRule → RulePlan → Except String RulePlan
  | _, [], plan => .ok plan
  | i, rule :: rest, plan => do
      let plan ← planRule text i rule plan
      planRules text (i + 1) rest plan

/-! ### Action families -/

/-- `RoutingRuleSetKind`. -/
inductive RoutingRuleSetKind where
  | empty | routes | flow
  deriving DecidableEq, Repr

/-- `validateRoutingAction`. -/
def validateRoutingAction (text : GoText) (f : Function) : Except String Unit :=
  if !f.quoted && (f.name == "must" || "must_".toList.isPrefixOf f.name.toList) then
    .error ("routing target " ++ text.quote f.name ++
      " is reserved for must control; flow controls belong in rules \x7b\x7d")
  else if f.name == "bump" || !f.quoted && f.name == "dnat" then
    .error ("routing target " ++ text.quote f.name ++
      " is a flow control; flow controls belong in rules \x7b\x7d")
  else if f.params.any (fun p => p.key == "" && p.val == "must") then
    .error "must is not a routing outbound parameter; flow controls belong in rules \x7b\x7d"
  else .ok ()

/-- The family of one rule in `classify`. -/
def classifyRule (text : GoText) (name : String) (rule : RoutingRule) :
    Except String RoutingRuleSetKind :=
  let action := rule.outbound
  let wrap {α : Type} (result : Except String α) : Except String α :=
    result.mapError fun err => "routing block " ++ text.quote name ++ ": " ++ err
  if !action.quoted && (action.name == "must" || action.name == "bump" || action.name == "dnat")
  then do
    let _ ← wrap (planRules text 0 [rule] {})
    .ok .flow
  else do
    wrap (validateRoutingAction text action)
    .ok .routes

/-- The families known so far, newest first. -/
abbrev RuleSetKindMap := List (String × RoutingRuleSetKind)

/-- `classify` of `RuleSetKinds`, from a statement on; `kind` is the family of the
statements before it.  An undefined rule set has no statements. -/
def classify (text : GoText) (sets : String → Option RoutingRuleSet) :
    Nat → String → List RoutingStatement → RoutingRuleSetKind → RuleSetKindMap →
      Except String (RoutingRuleSetKind × RuleSetKindMap)
  | 0, _, _, _, _ => .error "out of fuel"
  | _ + 1, _, [], kind, kinds => .ok (kind, kinds)
  | fuel + 1, name, statement :: rest, kind, kinds => do
      let (current, kinds) ← match statement with
        | .use used _ =>
          match kinds.lookup used with
          | some current => .ok (current, kinds)
          | none => do
              let body := ((sets used).map (·.statements)).getD []
              let (current, kinds) ← classify text sets fuel used body .empty kinds
              .ok (current, (used, current) :: kinds)
        | .rule rule => do
            let current ← classifyRule text name rule
            .ok (current, kinds)
      if current = .empty then classify text sets fuel name rest kind kinds
      else if kind ≠ .empty ∧ kind ≠ current then
        .error ("routing block " ++ text.quote name ++
          " mixes flow controls and outbounds; flow controls belong in rules \x7b\x7d")
      else classify text sets fuel name rest current kinds

/-- The loop of `RuleSetKinds` over the rule sets. -/
def classifySets (text : GoText) (sets : String → Option RoutingRuleSet) (fuel : Nat) :
    List RoutingRuleSet → RuleSetKindMap → Except String RuleSetKindMap
  | [], kinds => .ok kinds
  | set :: rest, kinds =>
    match kinds.lookup set.name with
    | some _ => classifySets text sets fuel rest kinds
    | none => do
        let (kind, kinds) ← classify text sets fuel set.name set.statements .empty kinds
        classifySets text sets fuel rest ((set.name, kind) :: kinds)

/-- The loop of `RuleSetKinds` over the policies. -/
def classifyPolicies (text : GoText) (sets : String → Option RoutingRuleSet) (fuel : Nat) :
    List RoutingPolicy → RuleSetKindMap → Except String RuleSetKindMap
  | [], kinds => .ok kinds
  | policy :: rest, kinds => do
      let (kind, kinds) ← classify text sets fuel policy.name policy.statements .empty kinds
      if kind = .flow then
        .error ("policy " ++ text.quote policy.name ++
          ": flow controls belong in rules \x7b\x7d")
      else do
        let (kind, kinds) ←
          classify text sets fuel (policy.name ++ ".rules") policy.rules .empty kinds
        if kind = .routes then
          .error ("policy " ++ text.quote policy.name ++ " rules: expected dnat(ip), must or " ++
            "bump; outbounds belong in the policy body")
        else do
          (validateRoutingAction text policy.fallback).mapError fun err =>
            "policy " ++ text.quote policy.name ++ " fallback: " ++ err
          classifyPolicies text sets fuel rest kinds

/-- `Routing.RuleSetKinds`.  `Validate` bounds the reference graph, so fuel for its
depth and its statements is enough. -/
def Routing.ruleSetKinds (text : GoText) (fuel : Nat) (routing : Routing) :
    Except String RuleSetKindMap := do
  let sets := lastNamed RoutingRuleSet.name routing.ruleSets
  let kinds ← classifySets text sets fuel routing.ruleSets []
  classifyPolicies text sets fuel routing.policies kinds

end Dae
