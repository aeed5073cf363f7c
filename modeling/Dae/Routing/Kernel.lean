import Dae.Lib.Kleene
import Dae.Routing.Instruction

/-!
# The kernel's routing walk

`kern/routing.h` and `kern/http_clients.h`: the predicates, the terminal actions
and the instruction loop of the eBPF classifier.

A packet sees one snapshot of every map, so the maps are a parameter of the
walk, and the two caches of `struct route_ctx` (the domain value and the client
admission) are not state: they only avoid a second lookup.  Positions and jump
distances are natural numbers; the code compares a distance with
`length - position` before it adds it, so no 32-bit sum wraps.
-/

namespace Dae

open Kleene

/-! ### Maps and packets -/

/-- `struct domain_routing`: for one destination, the AND (`routing`) and the OR
(`bump`) of the bitmaps of its names. -/
structure DomainRouting (lim : Limits) where
  bump : BitVec lim.maxMatchSetLen
  routing : BitVec lim.maxMatchSetLen
  deriving DecidableEq

/-- `struct http_client_key` and `struct http_client_decision`, one trie entry. -/
structure HTTPClientEntry where
  prefixlen : Nat
  kind : BitVec 32
  address : BitVec 128
  order : BitVec 32
  allow : Bool
  deriving DecidableEq, Repr

/-- `struct outbound_connectivity_query`; the version is 4 or 6 and the protocol
TCP or not. -/
structure ConnectivityQuery where
  outbound : BitVec 8
  ipv4 : Bool
  tcp : Bool
  deriving DecidableEq, Repr

/-- `struct routing_profile`.  Steps past the listed ones are zero. -/
structure ProfileValue where
  length : Nat
  steps : List (BitVec 16)
  deriving DecidableEq, Repr

/-- The maps that routing reads.  `routing_map` is an array, so every index in
range has a value; an inner LPM trie is the list of its prefixes. -/
structure RoutingMaps (lim : Limits) where
  routingMap : Nat → MatchSet
  routingInterfaceMap : BitVec 32 → Option (BitVec 32)
  defaultRoutingProfile : BitVec 32
  routingProfileMap : BitVec 32 → Option ProfileValue
  lpmArrayMap : BitVec 32 → Option (List Prefix)
  domainRoutingMap : BitVec 128 → Option (DomainRouting lim)
  httpClientsMap : Option (List HTTPClientEntry)
  outboundConnectivityMap : ConnectivityQuery → Option (BitVec 32)

/-- `struct route_params`, without the selected profile.  Ports are in host
order. -/
structure RouteParams where
  saddr : BitVec 128
  daddr : BitVec 128
  pname : BitVec 128
  ifindex : BitVec 32
  physinif : BitVec 32
  sport : BitVec 16
  dport : BitVec 16
  mac : Mac
  l4protoType : BitVec 8
  ipversionType : BitVec 8
  dscp : BitVec 8
  isdns : Bool
  hasPname : Bool
  deriving DecidableEq, Repr

/-! ### Client admission -/

def httpClientAll : BitVec 32 := 0
def httpClientMacOverride : BitVec 32 := 1
def httpClientMac : BitVec 32 := 2
def httpClientIPv4 : BitVec 32 := 4
def httpClientIPv6 : BitVec 32 := 6
def httpClientKindBits : Nat := 32

/-- The trie entry covers a full key of this kind and address. -/
def HTTPClientEntry.covers (e : HTTPClientEntry) (kind : BitVec 32) (address : BitVec 128) :
    Bool :=
  httpClientKindBits ≤ e.prefixlen && e.kind == kind &&
    (e.address ^^^ address) >>> (128 + httpClientKindBits - e.prefixlen) == 0

/-- The longest entry that covers the key. -/
def httpClientLookup (table : List HTTPClientEntry) (kind : BitVec 32)
    (address : BitVec 128) : Option HTTPClientEntry :=
  (table.filter (·.covers kind address)).foldl
    (fun best e =>
      match best with
      | none => some e
      | some b => if b.prefixlen < e.prefixlen then some e else some b) none

/-- The MAC in the first six bytes of a client key. -/
def httpClientMacAddress (mac : Mac) : BitVec 128 := mac.setWidth 128 <<< 80

/-- `http_client_allowed`. -/
def httpClientAllowed (clients : Option (List HTTPClientEntry)) (params : RouteParams) :
    Bool :=
  match clients with
  | none => false
  | some table =>
    let knownMac := params.mac != 0
    let macKey := httpClientMacAddress params.mac
    match if knownMac then httpClientLookup table httpClientMacOverride macKey else none with
    | some found => found.allow
    | none =>
      -- `best` starts as `{ .order = 0xffffffff }`, which denies.
      let best : BitVec 32 × Bool := (0xffffffff, false)
      let best :=
        match if knownMac then httpClientLookup table httpClientMac macKey else none with
        | some found => (found.order, found.allow)
        | none => best
      let kind := if params.ipversionType &&& ipVersion4 != 0 then httpClientIPv4
        else httpClientIPv6
      let best :=
        match httpClientLookup table kind params.saddr with
        | some found => if found.order < best.1 then (found.order, found.allow) else best
        | none => best
      let best :=
        match httpClientLookup table httpClientAll 0 with
        | some found => if found.order < best.1 then (found.order, found.allow) else best
        | none => best
      best.2

/-! ### Predicates -/

variable {lim : Limits}

/-- `route_match_lpm`: the key of the trie is the address, or the MAC in the last
six bytes. -/
def routeMatchLpm (maps : RoutingMaps lim) (key : BitVec 128) (m : MatchSet) : Option Truth :=
  (maps.lpmArrayMap m.index).map fun lpm => Truth.ofBool (lpmContains lpm key)

/-- `route_predicate`; `none` is a negative error code. -/
def routePredicate (maps : RoutingMaps lim) (params : RouteParams) (m : MatchSet) :
    Option Truth :=
  match m.type with
  | .httpClient => some (Truth.ofBool (httpClientAllowed maps.httpClientsMap params))
  | .mac => routeMatchLpm maps (params.mac.setWidth 128) m
  | .ipSet => routeMatchLpm maps params.daddr m
  | .sourceIpSet => routeMatchLpm maps params.saddr m
  | .port => some (Truth.ofBool (m.portStart ≤ params.dport && params.dport ≤ m.portEnd))
  | .sourcePort => some (Truth.ofBool (m.portStart ≤ params.sport && params.sport ≤ m.portEnd))
  | .l4Proto => some (Truth.ofBool (params.l4protoType &&& m.byte != 0))
  | .ipVersion => some (Truth.ofBool (params.ipversionType &&& m.byte != 0))
  | .domainSet =>
    if lim.maxMatchSetLen ≤ m.index.toNat then none
    else
      match maps.domainRoutingMap params.daddr with
      | none => some .miss
      | some domain =>
        some (Truth.ofBounds (domain.routing.getLsbD m.index.toNat)
          (domain.bump.getLsbD m.index.toNat))
  | .processName => some (Truth.ofBool (params.hasPname && m.value == params.pname))
  | .ifIndex =>
    some (Truth.ofBool (m.index != 0 &&
      (params.ifindex == m.index || params.physinif == m.index)))
  | .dscp => some (Truth.ofBool (params.dscp == m.byte))
  | .fallback => some .hit
  | .mustRules => none
  | .upstream => none
  | .qType => none

/-- `route_outbound_alive`. -/
def routeOutboundAlive (maps : RoutingMaps lim) (params : RouteParams) (outbound : BitVec 8) :
    Bool :=
  maps.outboundConnectivityMap
    { outbound
      ipv4 := params.ipversionType &&& ipVersion4 != 0
      tcp := params.l4protoType &&& l4ProtoTCP != 0 } == some 0

/-! ### The packed result -/

def eperm : Nat := 1
def efault : Nat := 14

def routeResultMarkShift : Nat := 8
def routeResultMustShift : Nat := 40
def routeResultCaptureShift : Nat := 42
def routeResultSkippedNoalive : BitVec 64 := 1 <<< 41

/-- `route_result_encode`. -/
def routeResultEncode (outbound : BitVec 8) (mark : BitVec 32) (must : Bool) : BitVec 64 :=
  outbound.setWidth 64 ||| mark.setWidth 64 <<< routeResultMarkShift |||
    (BitVec.ofBool must).setWidth 64 <<< routeResultMustShift

/-- The four fields that `decode_route_result` of `tproxy.c` reads. -/
structure RouteDecision where
  outbound : BitVec 8
  mark : BitVec 32
  must : Bool
  captureFlags : BitVec 8
  deriving DecidableEq, Repr

/-- `decode_route_result`. -/
def decodeRouteResult (encoded : BitVec 64) : RouteDecision where
  outbound := encoded.setWidth 8
  mark := (encoded >>> routeResultMarkShift).setWidth 32
  must := encoded.getLsbD routeResultMustShift
  captureFlags := (encoded >>> routeResultCaptureShift).setWidth 8

/-! ### The walk -/

/-- `struct route_state`. -/
structure RouteState where
  result : BitVec 64
  position : Nat := 0
  uncertainUntil : Nat := 0
  clauseResult : Truth := .miss
  must : Truth := .miss
  captureFlags : BitVec 8 := 0
  ruleUncertain : Bool := false
  flowBump : Bool := false
  skippedNoalive : Bool := false
  deriving DecidableEq, Repr

/-- `enum route_step_result`. -/
inductive RouteStepResult where
  | continue
  | stop
  deriving DecidableEq, Repr

/-- The exit of `route_apply` that hands the flow to userspace. -/
def toUserspace (state : RouteState) : RouteState × RouteStepResult :=
  ({ state with
      result := routeResultEncode outboundControlPlaneRouting 0 (decide (state.must = .hit)) },
    .stop)

/-- `route_apply`. -/
def routeApply (maps : RoutingMaps lim) (params : RouteParams) (state : RouteState)
    (m : MatchSet) : RouteState × RouteStepResult :=
  match m.action with
  | .must =>
    if !state.ruleUncertain then ({ state with must := .hit }, .continue)
    else if state.must = .miss then ({ state with must := .maybe }, .continue)
    else (state, .continue)
  | .bump => ({ state with flowBump := true }, .continue)
  | .capture =>
    let state := { state with captureFlags := state.captureFlags ||| m.captureFlags }
    if state.captureFlags &&& captureExit != 0 then toUserspace state else (state, .continue)
  | .flowEnd =>
    if state.flowBump || decide (state.must = .maybe) then toUserspace state
    else (state, .continue)
  | .route =>
    if m.has matchFlagSkipNoalive && !routeOutboundAlive maps params m.outbound then
      ({ state with skippedNoalive := true }, .continue)
    else if state.ruleUncertain then toUserspace state
    else
      let must := decide (state.must = .hit) || m.has matchFlagMust
      let state :=
        if !must && params.isdns && !m.has matchFlagBypass then
          { state with captureFlags := state.captureFlags ||| captureDNS }
        else state
      ({ state with result := routeResultEncode m.outbound m.mark must }, .stop)
  | _ => (state, .stop)

/-- The `advance` exit of `route_step`. -/
def routeAdvance (length : Nat) (state : RouteState) (distance : Nat) :
    RouteState × RouteStepResult :=
  if distance = 0 ∨ length - state.position < distance then (state, .stop)
  else ({ state with position := state.position + distance }, .continue)

/-- A matched terminal in `route_step`, up to `finish_rule`. -/
def routeTerminal (maps : RoutingMaps lim) (params : RouteParams) (length : Nat)
    (state : RouteState) (m : MatchSet) : RouteState × RouteStepResult :=
  let state := { state with
    ruleUncertain := state.ruleUncertain || decide (state.position < state.uncertainUntil) }
  match routeApply maps params state m with
  | (state, .stop) => (state, .stop)
  | (state, .continue) => routeAdvance length { state with ruleUncertain := false } 1

/-- `route_step` after the clause is complete and its negation applied. -/
def routeConclude (maps : RoutingMaps lim) (params : RouteParams) (length : Nat)
    (state : RouteState) (m : MatchSet) (clause : Truth) : RouteState × RouteStepResult :=
  let position := state.position
  if clause = .miss then
    routeAdvance length { state with ruleUncertain := false }
      (if m.action = .and ∨ m.action = .conditionalJump then m.mark.toNat else 1)
  else
    let state := { state with ruleUncertain := state.ruleUncertain || decide (clause = .maybe) }
    if m.action = .and then routeAdvance length state 1
    else if m.action = .conditionalJump then
      if m.mark.toNat = 0 ∨ length - position < m.mark.toNat then (state, .stop)
      else
        let state :=
          if state.ruleUncertain && decide (state.uncertainUntil < position + m.mark.toNat) then
            { state with uncertainUntil := position + m.mark.toNat }
          else state
        routeAdvance length { state with ruleUncertain := false } 1
    else routeTerminal maps params length state m

/-- `route_step` after the instruction is fetched. -/
def routeExecute (maps : RoutingMaps lim) (params : RouteParams) (length : Nat)
    (state : RouteState) (m : MatchSet) : RouteState × RouteStepResult :=
  match if state.clauseResult = .hit then some .hit else routePredicate maps params m with
  | none => (state, .stop)
  | some predicate =>
    let clause := state.clauseResult.or predicate
    if m.action = .or then
      routeAdvance length { state with clauseResult := clause }
        (if clause = .hit then m.mark.toNat else 1)
    else
      routeConclude maps params length { state with clauseResult := .miss } m
        (clause.xor (m.has matchFlagNot))

/-- `route_step`. -/
def routeStep (maps : RoutingMaps lim) (params : RouteParams) (profile : ProfileValue)
    (state : RouteState) : RouteState × RouteStepResult :=
  if lim.maxMatchSetLen ≤ state.position ∨ profile.length ≤ state.position then (state, .stop)
  else
    let k := (profile.steps.getD state.position 0).toNat
    if lim.maxMatchSetLen ≤ k then (state, .stop)
    else routeExecute maps params profile.length state (maps.routingMap k)

/-- The bounded loop of `route`. -/
def routeLoop (maps : RoutingMaps lim) (params : RouteParams) (profile : ProfileValue) :
    Nat → RouteState → RouteState
  | 0, state => state
  | n + 1, state =>
    match routeStep maps params profile state with
    | (state, .stop) => state
    | (state, .continue) => routeLoop maps params profile n state

/-- The end of `route`: the evidence is added to a decision that was made. -/
def routeFinish (state : RouteState) : BitVec 64 :=
  if state.result.msb then -(BitVec.ofNat 64 eperm)
  else
    state.result ||| state.captureFlags.setWidth 64 <<< routeResultCaptureShift |||
      (if state.skippedNoalive then routeResultSkippedNoalive else 0)

/-- `route`, on the profile that the ingress interface selects. -/
def route (maps : RoutingMaps lim) (params : RouteParams) : BitVec 64 :=
  let id := (maps.routingInterfaceMap params.ifindex).getD maps.defaultRoutingProfile
  match maps.routingProfileMap id with
  | none => -(BitVec.ofNat 64 efault)
  | some profile =>
    if profile.length = 0 ∨ lim.maxMatchSetLen < profile.length then -(BitVec.ofNat 64 efault)
    else
      routeFinish (routeLoop maps params profile lim.maxMatchSetLen
        { result := -(BitVec.ofNat 64 efault) })

end Dae
