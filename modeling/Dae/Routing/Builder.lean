import Dae.Lib.Sorted
import Dae.Routing.Config
import Dae.Routing.Userspace

/-!
# Emitting instructions

`routing_matcher_builder.go`, `routing_instruction.go` and the predicate half of
`component/routing`: how the functions of a rule become instructions of the one
physical pool, with the tables that the instructions index.

The two content-addressed tables (domain sets and static LPM sets) compare whole
values after the hash lookup, so they are modelled without the hash.  Rule and
match metadata, which only diagnostics read, are left out.
-/

namespace Dae

/-- What a compilation is given besides the configuration.  `validateSet` is
`domain_matcher.ValidateSet`. -/
structure CompileEnv where
  lim : Limits
  text : GoText
  validateSet : List String → String → Except String Unit

/-! ### The builder -/

/-- `routing.DomainSet`; its `RuleIndex` is its position. -/
structure DomainSet where
  key : String
  domains : List String
  deriving DecidableEq, Repr

/-- `routingInterfaceRulePatch`. -/
structure RoutingInterfaceRulePatch where
  ifname : String
  matchIndex : Nat
  deriving DecidableEq, Repr

/-- `destinationPredicate`. -/
structure DestinationPredicate where
  span : RoutingSpan
  domain : Bool
  targets : List Addr
  port : BitVec 16
  deriving DecidableEq, Repr

/-- `routingProfile`. -/
structure RoutingProfile where
  id : BitVec 32
  name : String
  interfaceNames : List String
  spans : List RoutingSpan
  destination : List DestinationPredicate := []
  deriving DecidableEq, Repr

/-- `RoutingMatcherBuilder`.  `staticLpmIDs` lists the slots of static sets in the
order of their creation; `programEnd` is `routing.end`; `fragments` counts the
destination fragments allocated so far. -/
structure RoutingMatcherBuilder where
  outboundName2Id : String → Option (BitVec 8)
  rules : List MatchSet := []
  simulatedLpmTries : List (List Prefix) := []
  staticLpmIDs : List Nat := []
  clientSetSlots : List (String × Nat) := []
  kernelLpmLen : Nat := 0
  programEnd : Nat := 0
  simulatedDomainSet : List DomainSet := []
  defaultProfileID : BitVec 32 := 0
  profiles : List RoutingProfile := []
  fallbackSpans : List (MatchSet × RoutingSpan) := []
  interfaceRulePatches : List RoutingInterfaceRulePatch := []
  fragments : Nat := 0

/-- `routing.Outbound`. -/
structure Outbound where
  name : String
  mark : BitVec 32 := 0
  must : Bool := false
  skipWhileNoalive : Bool := false
  deriving DecidableEq, Repr

def logicalOr : String := "<OR>"
def logicalAnd : String := "<AND>"

/-! ### Single matches -/

/-- `matchSet`. -/
def RoutingMatcherBuilder.matchSet (env : CompileEnv) (b : RoutingMatcherBuilder)
    (kind : MatchType) (not : Bool) (outbound : Outbound) : Except String MatchSet :=
  let set : MatchSet := { type := kind, flags := routingMatchFlags not false false }
  if outbound.name = logicalOr then .ok { set with action := .or }
  else if outbound.name = logicalAnd then .ok { set with action := .and }
  else
    match b.outboundName2Id outbound.name with
    | none =>
      .error ("outbound (group) " ++ env.text.quote outbound.name ++
        " not found; please define it in section \"group\"")
    | some id =>
      if outbound.skipWhileNoalive && kind == .fallback then
        .error ("skip_while_noalive cannot be used on fallback: " ++
          "skipping fallback leaves traffic unroutable")
      else if outbound.skipWhileNoalive && (id == outboundDirect || id == outboundBlock) then
        .error ("skip_while_noalive cannot be used on outbound " ++ outbound.name ++
          ": built-in outbounds do not participate in connectivity checks")
      else
        .ok { set with
          outbound := id
          mark := outbound.mark
          flags := routingMatchFlags not outbound.must outbound.skipWhileNoalive }

/-- `addMatch`. -/
def RoutingMatcherBuilder.addMatch (env : CompileEnv) (b : RoutingMatcherBuilder)
    (f : Function) (kind : MatchType) (value : BitVec 128) (outbound : Outbound) :
    Except String RoutingMatcherBuilder := do
  let set ← b.matchSet env kind f.not outbound
  .ok { b with rules := b.rules ++ [{ set with value }] }

/-- The instructions of `addMatches`: alternatives, and the tail last. -/
def matchSets (not : Bool) (kind : MatchType) (tail : MatchSet) :
    List (BitVec 128) → List MatchSet
  | [] => []
  | [value] => [{ tail with value }]
  | value :: next :: rest =>
    { type := kind, action := .or, flags := routingMatchFlags not false false, value } ::
      matchSets not kind tail (next :: rest)

/-- `addMatches`, on values that are encoded already. -/
def RoutingMatcherBuilder.addMatches (env : CompileEnv) (b : RoutingMatcherBuilder)
    (f : Function) (kind : MatchType) (values : List (BitVec 128)) (outbound : Outbound) :
    Except String RoutingMatcherBuilder := do
  let tail ← b.matchSet env kind f.not outbound
  .ok { b with rules := b.rules ++ matchSets f.not kind tail values }

/-! ### Tables -/

/-- A 32-bit index in the value bytes. -/
def indexValue (i : Nat) : BitVec 128 := (BitVec.ofNat 32 i).setWidth 128

/-- The keys of `consts.RoutingDomainKey`. -/
def domainKeys : List String := ["regex", "full", "keyword", "suffix"]

/-- `addDomain`. -/
def RoutingMatcherBuilder.addDomain (env : CompileEnv) (f : Function) (key : String)
    (values : List String) (outbound : Outbound) (b : RoutingMatcherBuilder) :
    Except String RoutingMatcherBuilder :=
  if key ∉ domainKeys then .error ("addDomain: unsupported key: " ++ key)
  else
    let set : DomainSet := ⟨key, compact (values.insertionSort (· ≤ ·))⟩
    if set ∈ b.simulatedDomainSet then
      b.addMatch env f .domainSet (indexValue (b.simulatedDomainSet.idxOf set)) outbound
    else if env.lim.maxMatchSetLen ≤ b.simulatedDomainSet.length then
      .error ("too many distinct domain predicates: limit " ++ toString env.lim.maxMatchSetLen)
    else
      { b with simulatedDomainSet := b.simulatedDomainSet ++ [set] }.addMatch env f .domainSet
        (indexValue b.simulatedDomainSet.length) outbound

/-- The set that `internLPM` stores. -/
def canonicalPrefixes (text : GoText) (values : List Prefix) : List Prefix :=
  compact ((values.map Prefix.masked).insertionSort (text.comparePrefix · · ≠ .gt))

/-- `internLPM`. -/
def RoutingMatcherBuilder.internLPM (env : CompileEnv) (values : List Prefix)
    (b : RoutingMatcherBuilder) : Nat × RoutingMatcherBuilder :=
  let values := canonicalPrefixes env.text values
  match b.staticLpmIDs.find? (fun id => b.simulatedLpmTries[id]? = some values) with
  | some id => (id, b)
  | none =>
    let id := b.simulatedLpmTries.length
    (id, { b with
      staticLpmIDs := b.staticLpmIDs ++ [id]
      simulatedLpmTries := b.simulatedLpmTries ++ [values] })

/-- `addIp`, `addSourceIp` and `addSourceMac`: a match against a static LPM set. -/
def RoutingMatcherBuilder.addLPM (env : CompileEnv) (kind : MatchType) (f : Function)
    (values : List Prefix) (outbound : Outbound) (b : RoutingMatcherBuilder) :
    Except String RoutingMatcherBuilder :=
  let (id, b) := b.internLPM env values
  b.addMatch env f kind (indexValue id) outbound

def RoutingMatcherBuilder.addIp (env : CompileEnv) := RoutingMatcherBuilder.addLPM env .ipSet

def RoutingMatcherBuilder.addSourceIp (env : CompileEnv) :=
  RoutingMatcherBuilder.addLPM env .sourceIpSet

/-- One prefix of `sourceMacPrefixes`: the MAC in the last six bytes. -/
def sourceMacPrefix (mac : Mac) : Prefix := Prefix.single (.v6 (mac.setWidth 128))

def RoutingMatcherBuilder.addSourceMac (env : CompileEnv) (f : Function) (macAddrs : List Mac) :=
  RoutingMatcherBuilder.addLPM env .mac f (macAddrs.map sourceMacPrefix)

/-- `ValidateClientName`. -/
def validateClientName (text : GoText) (name : String) : Except String Unit :=
  if name.toList.all text.isSpace || decide (128 < name.utf8ByteSize) ||
      name.toList.contains '/' || name.toList.any text.isControl then
    .error ("client set names must be non-empty, at most 128 bytes, and cannot contain '/' " ++
      "or control characters")
  else .ok ()

/-- `addClient`: a client set has a slot of its own, empty until members are set. -/
def RoutingMatcherBuilder.addClient (env : CompileEnv) (f : Function) (names : List String)
    (outbound : Outbound) (b : RoutingMatcherBuilder) : Except String RoutingMatcherBuilder := do
  let name := names.headD ""
  validateClientName env.text name
  match b.clientSetSlots.lookup name with
  | some slot => b.addMatch env f .mac (indexValue slot) outbound
  | none =>
    let slot := b.simulatedLpmTries.length
    { b with
      clientSetSlots := b.clientSetSlots ++ [(name, slot)]
      simulatedLpmTries := b.simulatedLpmTries ++ [[]] }.addMatch env f .mac
        (indexValue slot) outbound

/-- `ValidateRoutingInterfaceName`. -/
def validateRoutingInterfaceName (text : GoText) (name : String) : Except String Unit :=
  if name = "" ∨ 15 < name.utf8ByteSize ∨ name = "." ∨ name = ".." ∨
      (name.toList.any "/:\x00 \t\n\r\x0b\x0c".toList.contains) = true then
    .error ("invalid exact routing interface name " ++ text.quote name)
  else .ok ()

/-- The check of every name, in order. -/
def validateRoutingInterfaceNames (text : GoText) : List String → Except String Unit
  | [] => .ok ()
  | name :: rest => do
      validateRoutingInterfaceName text name
      validateRoutingInterfaceNames text rest

/-- The patches of the names from match `start` on. -/
def interfacePatches : Nat → List String → List RoutingInterfaceRulePatch
  | _, [] => []
  | start, name :: rest => ⟨name, start⟩ :: interfacePatches (start + 1) rest

/-- `addInterface`. -/
def RoutingMatcherBuilder.addInterface (env : CompileEnv) (f : Function) (values : List String)
    (outbound : Outbound) (b : RoutingMatcherBuilder) : Except String RoutingMatcherBuilder := do
  validateRoutingInterfaceNames env.text values
  let added ← b.addMatches env f .ifIndex (values.map fun _ => 0) outbound
  .ok { added with
    interfaceRulePatches :=
      added.interfaceRulePatches ++ interfacePatches b.rules.length values }

/-! ### Function parsers -/

/-- The loop of a parser factory over its values. -/
def parseValues {α : Type} (parse : String → Except String α) : List String →
    Except String (List α)
  | [] => .ok []
  | value :: rest => do
      let parsed ← parse value
      let more ← parseValues parse rest
      .ok (parsed :: more)

/-- One value of `parsePrefixes`. -/
def parsePrefixOrAddr (text : GoText) (value : String) : Except String Prefix :=
  match text.parsePrefix value with
  | .ok parsed => .ok parsed
  | .error err =>
    match text.parseAddr value with
    | .ok (addr, _) => .ok (Prefix.single addr)
    | .error _ => .error ("cannot parse " ++ value ++ ": " ++ err)

/-- `strings.SplitN(value, sep, n)`, for `0 < n`. -/
def splitN (sep : Char) : Nat → List Char → List Char → List (List Char)
  | 0, field, rest => [field.reverse ++ rest]
  | _ + 1, field, [] => [field.reverse]
  | n + 1, field, c :: rest =>
    if c = sep then field.reverse :: splitN sep n [] rest
    else splitN sep (n + 1) (c :: field) rest

/-- The fields of `parseMac`. -/
def parseMacFields (text : GoText) (mac : String) : List (List Char) → Mac → Except String Mac
  | [], addr => .ok addr
  | field :: rest, addr =>
    match text.decodeHex (String.ofList field) with
    | .error err => .error ("parse mac " ++ mac ++ ": " ++ err)
    | .ok [v] => parseMacFields text mac rest (addr <<< 8 ||| v.setWidth 48)
    | .ok _ => .error ("invalid mac: " ++ mac)

/-- `parseMac`. -/
def parseMac (text : GoText) (mac : String) : Except String Mac :=
  let fields := splitN ':' 5 [] mac.toList
  if fields.length ≠ 6 then .error ("invalid mac: " ++ mac)
  else parseMacFields text mac fields 0

/-- One bound of `parsePortRange`. -/
def parsePort (text : GoText) (pr : String) (field : List Char) : Except String (BitVec 16) :=
  if field = [] then .error ("bad port range: " ++ pr)
  else do
    let port ← text.atoi (String.ofList field)
    if port < 0 ∨ 0xffff < port then
      .error ("port " ++ toString port ++ " exceeds uint16 range")
    else .ok (BitVec.ofInt 16 port)

/-- `parsePortRange`. -/
def parsePortRange (text : GoText) (pr : String) : Except String (BitVec 16 × BitVec 16) :=
  match splitN '-' 1 [] pr.toList with
  | [single] => do
      let port ← parsePort text pr single
      .ok (port, port)
  | fields => do
      let portStart ← parsePort text pr (fields.headD [])
      let portEnd ← parsePort text pr (fields.getD 1 [])
      .ok (portStart, portEnd)

/-- `encodePortRange`. -/
def encodePortRange (range : BitVec 16 × BitVec 16) : BitVec 128 :=
  range.1.setWidth 128 ||| range.2.setWidth 128 <<< 16

/-- The loop of `L4ProtoParserFactory`. -/
def parseL4Proto (text : GoText) : List String → BitVec 8 → Except String (BitVec 8)
  | [], bits => .ok bits
  | v :: rest, bits =>
    if v = "tcp" then parseL4Proto text rest (bits ||| l4ProtoTCP)
    else if v = "udp" then parseL4Proto text rest (bits ||| l4ProtoUDP)
    else if v = "utp" then parseL4Proto text rest (bits ||| l4ProtoUTP)
    else .error ("unsupported l4proto " ++ text.quote v)

/-- The loop of `IpVersionParserFactory`. -/
def parseIpVersion (text : GoText) : List String → BitVec 8 → Except String (BitVec 8)
  | [], bits => .ok bits
  | v :: rest, bits =>
    if v = "4" then parseIpVersion text rest (bits ||| ipVersion4)
    else if v = "6" then parseIpVersion text rest (bits ||| ipVersion6)
    else .error ("unsupported ipversion " ++ text.quote v)

/-- `toProcessName`: the first sixteen bytes, zero filled. -/
def toProcessName (name : String) : BitVec 128 :=
  (name.toUTF8.toList.take 16).foldr (fun byte acc => acc <<< 8 ||| byte.toBitVec.setWidth 128) 0

/-- One value of `UintParserFactory[uint8]`. -/
def parseUint8 (text : GoText) (v : String) : Except String (BitVec 8) :=
  match text.parseUint v 8 with
  | .ok val => .ok (BitVec.ofNat 8 val)
  | .error err => .error ("cannot parse " ++ v ++ ": " ++ err)

/-- `FunctionParser`, which appends to a builder. -/
abbrev FunctionParser :=
  Function → String → List String → Outbound → RoutingMatcherBuilder →
    Except String RoutingMatcherBuilder

/-- `EmptyKeyPlainParserFactory`. -/
def emptyKeyParser
    (callback : Function → List String → Outbound → RoutingMatcherBuilder →
      Except String RoutingMatcherBuilder) : FunctionParser :=
  fun f key values outbound b =>
    if key ≠ "" then .error "this function cannot accept a key" else callback f values outbound b

/-- The parser factories that parse each value and hand the list on. -/
def valuesParser {α : Type} (parse : String → Except String α)
    (callback : Function → List α → Outbound → RoutingMatcherBuilder →
      Except String RoutingMatcherBuilder) : FunctionParser :=
  emptyKeyParser fun f values outbound b => do
    let parsed ← parseValues parse values
    callback f parsed outbound b

/-- `L4ProtoParserFactory` and `IpVersionParserFactory`: one byte of alternatives. -/
def byteParser (parse : List String → BitVec 8 → Except String (BitVec 8)) (env : CompileEnv)
    (kind : MatchType) : FunctionParser :=
  emptyKeyParser fun f values outbound b => do
    let bits ← parse values 0
    b.addMatch env f kind (bits.setWidth 128) outbound

/-- `addPort`, `addSourcePort`, `addProcessName` and `addDscp`. -/
def RoutingMatcherBuilder.addEncoded {α : Type} (env : CompileEnv) (kind : MatchType)
    (encode : α → BitVec 128) (f : Function) (values : List α) (outbound : Outbound)
    (b : RoutingMatcherBuilder) : Except String RoutingMatcherBuilder :=
  b.addMatches env f kind (values.map encode) outbound

/-- The parsers that `newRoutingMatcherBuilder` registers. -/
def registeredParsers (env : CompileEnv) : List (String × FunctionParser) :=
  [("domain", RoutingMatcherBuilder.addDomain env),
    ("dip", valuesParser (parsePrefixOrAddr env.text) (RoutingMatcherBuilder.addIp env)),
    ("sip", valuesParser (parsePrefixOrAddr env.text) (RoutingMatcherBuilder.addSourceIp env)),
    ("dport", valuesParser (parsePortRange env.text)
      (RoutingMatcherBuilder.addEncoded env .port encodePortRange)),
    ("sport", valuesParser (parsePortRange env.text)
      (RoutingMatcherBuilder.addEncoded env .sourcePort encodePortRange)),
    ("l4proto", byteParser (parseL4Proto env.text) env .l4Proto),
    ("mac", valuesParser (parseMac env.text) (RoutingMatcherBuilder.addSourceMac env)),
    ("client", emptyKeyParser (RoutingMatcherBuilder.addClient env)),
    ("pname", valuesParser .ok
      (RoutingMatcherBuilder.addEncoded env .processName toProcessName)),
    ("interface", emptyKeyParser (RoutingMatcherBuilder.addInterface env)),
    ("dscp", valuesParser (parseUint8 env.text)
      (RoutingMatcherBuilder.addEncoded env .dscp (BitVec.setWidth 128))),
    ("ipversion", byteParser (parseIpVersion env.text) env .ipVersion)]

def functionParser (env : CompileEnv) (name : String) : Option FunctionParser :=
  (registeredParsers env).lookup name

/-! ### Rules -/

/-- The key order of `groupParamValuesByKey`: keys at their first occurrence. -/
def keyOrder : List Param → List String → List String
  | [], seen => seen
  | p :: rest, seen => keyOrder rest (if p.key ∈ seen then seen else seen ++ [p.key])

/-- One group of `groupParamValuesByKey`. -/
def paramValueGroup (params : List Param) (key : String) : List String :=
  (params.filter (·.key = key)).map (·.val)

/-- The loop of `ApplyPredicate` over the keys of one function.  All groups but the
last are alternatives; the last does `tailName`. -/
def applyGroups (parser : FunctionParser) (f : Function) (outbound : Outbound)
    (tailName : String) : List String → RoutingMatcherBuilder →
      Except String RoutingMatcherBuilder
  | [], b => .ok b
  | key :: rest, b => do
      let name := if rest = [] then tailName else logicalOr
      let b ← (parser f key (paramValueGroup f.params key) { outbound with name } b).mapError
        fun err => "failed to parse '" ++ String.ofList (f.string false false false) ++ "': " ++ err
      applyGroups parser f outbound tailName rest b

/-- One round of `ApplyPredicate`. -/
def applyFunction (env : CompileEnv) (f : Function) (outbound : Outbound) (tailName : String)
    (b : RoutingMatcherBuilder) : Except String RoutingMatcherBuilder :=
  if f.params = [] then .error "predicate functions require arguments"
  else
    match functionParser env f.name with
    | none => .error ("unknown function: " ++ f.name)
    | some parser =>
      if f.name = "client" ∧ f.params.length ≠ 1 then
        .error "client requires exactly one set name"
      else applyGroups parser f outbound tailName (keyOrder f.params []) b

/-- The loop of `ApplyPredicate` over the functions. -/
def applyFunctions (env : CompileEnv) (outbound : Outbound) : List Function →
    RoutingMatcherBuilder → Except String RoutingMatcherBuilder
  | [], b => .ok b
  | f :: rest, b => do
      let b ← applyFunction env f outbound (if rest = [] then outbound.name else logicalAnd) b
      applyFunctions env outbound rest b

/-- `ApplyPredicate`. -/
def applyPredicate (env : CompileEnv) (functions : List Function) (outbound : Outbound)
    (b : RoutingMatcherBuilder) : Except String RoutingMatcherBuilder :=
  if functions = [] then .error "empty predicate" else applyFunctions env outbound functions b

/-- The loop of `ParseOutbound`. -/
def parseOutboundParams (text : GoText) : List Param → Outbound → Except String Outbound
  | [], outbound => .ok outbound
  | p :: rest, outbound =>
    if p.key = "mark" then
      match text.parseUint p.val 32 with
      | .ok mark => parseOutboundParams text rest { outbound with mark := BitVec.ofNat 32 mark }
      | .error err => .error ("failed to parse mark: " ++ err)
    else if p.key = "skip_while_noalive" then
      match text.parseBool p.val with
      | .ok skip => parseOutboundParams text rest { outbound with skipWhileNoalive := skip }
      | .error err => .error ("failed to parse skip_while_noalive: " ++ err)
    else if p.key = "" then
      if p.val = "must" then parseOutboundParams text rest { outbound with must := true }
      else if p.val = "skip_while_noalive" then
        parseOutboundParams text rest { outbound with skipWhileNoalive := true }
      else .error ("unknown outbound param: " ++ p.val)
    else .error ("unknown outbound param key: " ++ p.key)

/-- `ParseOutbound`. -/
def parseOutbound (text : GoText) (raw : Function) : Except String Outbound :=
  parseOutboundParams text raw.params { name := raw.name }

/-- `applyRules`. -/
def applyRules (env : CompileEnv) : List RoutingRule → RoutingMatcherBuilder →
    Except String RoutingMatcherBuilder
  | [], b => .ok b
  | rule :: rest, b => do
      let outbound ← parseOutbound env.text rule.outbound
      let b ← applyPredicate env rule.andFunctions outbound b
      applyRules env rest b

/-- `parseFallback`. -/
def RoutingMatcherBuilder.parseFallback (env : CompileEnv) (b : RoutingMatcherBuilder)
    (fallback : Function) : Except String MatchSet := do
  let outbound ← parseOutbound env.text fallback
  b.matchSet env .fallback false outbound

/-- `addFallback`. -/
def RoutingMatcherBuilder.addFallback (env : CompileEnv) (b : RoutingMatcherBuilder)
    (fallback : MatchSet) : Except String (RoutingSpan × RoutingMatcherBuilder) :=
  match b.fallbackSpans.lookup fallback with
  | some existing => .ok (existing, b)
  | none =>
    if env.lim.maxMatchSetLen ≤ b.rules.length then
      .error ("too many physical routing match sets: fallback exceeds " ++
        toString env.lim.maxMatchSetLen)
    else
      let span : RoutingSpan := { first := b.rules.length, last := b.rules.length + 1 }
      .ok (span, { b with
        rules := b.rules ++ [fallback]
        fallbackSpans := b.fallbackSpans ++ [(fallback, span)] })

end Dae
