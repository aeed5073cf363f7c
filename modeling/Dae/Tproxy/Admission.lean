import Dae.Routing.Kernel

/-!
# Admission of packets

`do_tproxy_unfragmented` and `do_tproxy_first_fragment` of `control/kern/tproxy.c`, with the
functions they call: what the classifier does with a TCP or UDP packet whose headers have been
parsed.  Packets are processed one at a time, so a function takes the maps and returns them.

Map updates may fail: the `Faults` of a state say which.  Times are nanoseconds since boot.  The
observation of API clients, the tracking of redirects and the timers are left out.
-/

namespace Dae

/-- The transport protocols that are routed. -/
inductive L4 where
  | tcp
  | udp
  deriving DecidableEq, Repr

/-- `struct tuples_key`; ports in host order. -/
structure TuplesKey where
  sip : BitVec 128
  dip : BitVec 128
  sport : BitVec 16
  dport : BitVec 16
  l4proto : L4
  deriving DecidableEq, Repr

/-- `struct udp_routing_cache_key`. -/
structure UdpSource where
  sip : BitVec 128
  sport : BitVec 16
  deriving DecidableEq, Repr

/-- `struct routing_result`. -/
structure RoutingResult where
  routeEpoch : BitVec 64 := 0
  mark : BitVec 32 := 0
  ifindex : BitVec 32 := 0
  profileId : BitVec 32 := 0
  mac : Mac := 0
  outbound : BitVec 8 := outboundDirect
  must : Bool := false
  captureFlags : BitVec 8 := 0
  protocol : BitVec 8 := 0
  noSniff : Bool := false
  dscp : BitVec 8 := 0
  physinif : BitVec 32 := 0
  generation : BitVec 32 := 0
  deriving DecidableEq, Repr

/-- `struct tcp_flow_state`. -/
structure TcpFlowState where
  routeEpoch : BitVec 64
  mark : BitVec 32
  proxy : Bool
  deriving DecidableEq, Repr

/-- `struct routing_handoff`; the time is in seconds. -/
structure RoutingHandoff where
  result : RoutingResult
  expires : BitVec 32
  synSeq : BitVec 32
  deriving DecidableEq, Repr

/-- `struct udp_routing_cache_value`. -/
structure UdpRoutingCacheValue where
  result : RoutingResult
  cachedUntil : Nat
  closing : Bool := false
  deriving DecidableEq, Repr

/-- `struct device_route_state`. -/
structure DeviceRouteState where
  epoch : BitVec 64
  updating : Bool := false
  deriving DecidableEq, Repr

/-- The updates of maps that fail, and the redirect. -/
structure Faults where
  tcpFlow : Bool := false
  routingTuples : Bool := false
  udpRoutingCache : Bool := false
  udpTimer : Bool := false
  udpConnState : Bool := false
  redirect : Bool := false
  deriving DecidableEq, Repr

/-- What the classifier reads and writes; the state of a UDP connection is whether it came in
from the WAN. -/
structure KernelState (lim : Limits) where
  routing : RoutingMaps lim
  routingGeneration : BitVec 32
  now : Nat
  deviceRoutes : Mac → Option DeviceRouteState
  routeExempt : BitVec 128 → BitVec 16 → Bool
  tcpFlowMap : TuplesKey → Option TcpFlowState
  routingTuplesMap : TuplesKey → Option RoutingHandoff
  udpBindingsMap : UdpSource → Option (BitVec 64)
  udpRoutingCacheMap : UdpSource → Option UdpRoutingCacheValue
  udpConnStateMap : TuplesKey → Option Bool
  faults : Faults := {}

/-- A packet with its parsed headers.  `controlPlane` is set for those that the control plane
has sent itself, and `utp` for those that start a uTP connection. -/
structure Packet where
  five : TuplesKey
  mac : Mac
  ipv4 : Bool
  utp : Bool := false
  dscp : BitVec 8 := 0
  ifindex : BitVec 32 := 0
  physinif : BitVec 32 := 0
  pname : Option (BitVec 128) := none
  mark : BitVec 32 := 0
  syn : Bool := false
  ack : Bool := false
  rst : Bool := false
  seq : BitVec 32 := 0
  controlPlane : Bool := false
  deriving DecidableEq, Repr

/-- What becomes of a packet: it goes on with a mark, is dropped, or is handed to the control
plane. -/
inductive Verdict where
  | next (mark : BitVec 32)
  | drop
  | redirect
  deriving DecidableEq, Repr

def handoffLifetimeSeconds : Nat := 30
def udpRoutingCacheTtlNs : Nat := 60 * 1000 * 1000 * 1000
def connectivityNoaliveDirect : BitVec 32 := 1
def connectivityNoaliveBlock : BitVec 32 := 2

namespace Packet

/-- A packet that opens a TCP connection. -/
def opens (p : Packet) : Bool := p.syn && !p.ack

def isDns (p : Packet) : Bool := p.five.dport = 53

def source (p : Packet) : UdpSource := ⟨p.five.sip, p.five.sport⟩

/-- `fill_route_params`. -/
def params (p : Packet) : RouteParams where
  saddr := p.five.sip
  daddr := p.five.dip
  pname := p.pname.getD 0
  ifindex := p.ifindex
  physinif := p.physinif
  sport := p.five.sport
  dport := p.five.dport
  mac := p.mac
  l4protoType :=
    match p.five.l4proto with
    | .tcp => l4ProtoTCP
    | .udp => if p.utp then l4ProtoUDP ||| l4ProtoUTP else l4ProtoUDP
  ipversionType := if p.ipv4 then ipVersion4 else ipVersion6
  dscp := p.dscp
  isdns := p.isDns
  hasPname := p.pname.isSome

end Packet

/-- The packet is not routed by the kernel alone. -/
def RoutingResult.proxied (result : RoutingResult) : Bool :=
  result.outbound ≠ outboundDirect || result.captureFlags ≠ 0

namespace KernelState

variable {lim : Limits}

def isUpdating (device : Option DeviceRouteState) : Bool := device.any (·.updating)

def epochOf (device : Option DeviceRouteState) : BitVec 64 := (device.map (·.epoch)).getD 0

/-! ### TCP -/

/-- `save_tcp_flow`; nothing is stored for a direct flow without mark and epoch. -/
def saveTcpFlow (s : KernelState lim) (key : TuplesKey) (result : RoutingResult) :
    Option (KernelState lim) :=
  if !result.proxied && result.mark = 0 && result.routeEpoch = 0 then
    some { s with tcpFlowMap := Function.update s.tcpFlowMap key none }
  else if s.faults.tcpFlow then none
  else
    some { s with
      tcpFlowMap := Function.update s.tcpFlowMap key
        (some ⟨result.routeEpoch, result.mark, result.proxied⟩) }

def seconds (s : KernelState lim) : BitVec 32 := BitVec.ofNat 32 (s.now / 1000000000)

/-- `publish_handoff`. -/
def publishHandoff (s : KernelState lim) (key : TuplesKey) (result : RoutingResult)
    (synSeq : BitVec 32) : Option (KernelState lim) :=
  if s.faults.routingTuples then none
  else
    some { s with
      routingTuplesMap := Function.update s.routingTuplesMap key
        (some ⟨result, s.seconds + BitVec.ofNat 32 handoffLifetimeSeconds, synSeq⟩) }

/-- The label `control_plane`. -/
def toControlPlane (s : KernelState lim) : Verdict × KernelState lim :=
  (if s.faults.redirect then .drop else .redirect, s)

/-- A packet of an established TCP connection. -/
def established (s : KernelState lim) (p : Packet) (routeEpoch : BitVec 64) :
    Verdict × KernelState lim :=
  let saved := s.tcpFlowMap p.five
  if routeEpoch ≠ 0 && !saved.any (·.routeEpoch = routeEpoch) then
    if p.rst then (.drop, s) else s.toControlPlane
  else
    match saved with
    | some flow => if !flow.proxy then (.next flow.mark, s) else s.toControlPlane
    | none => (.next p.mark, s)

/-- The handoff of an earlier packet with the same SYN, as long as it has not expired. -/
def pendingHandoff (s : KernelState lim) (p : Packet) (routeEpoch : BitVec 64) :
    Option RoutingHandoff :=
  (s.routingTuplesMap p.five).filter fun pending =>
    pending.synSeq = p.seq && (0#32).slt (pending.expires - s.seconds) &&
      pending.result.routeEpoch = routeEpoch

/-! ### UDP -/

/-- The results of `read_udp_route`: a hit, a new lifetime, or another packet is ending it. -/
inductive UdpRead where
  | hit (result : RoutingResult)
  | fresh
  | ending
  deriving DecidableEq, Repr

/-- `read_udp_route`. -/
def readUdpRoute (s : KernelState lim) (key : UdpSource) (checkGeneration : Bool) :
    UdpRead × KernelState lim :=
  match s.udpRoutingCacheMap key with
  | none => (.fresh, s)
  | some value =>
    let device := s.deviceRoutes value.result.mac
    if isUpdating device then (.ending, s)
    else
      let stale := device.any (·.epoch ≠ value.result.routeEpoch) ||
        (checkGeneration && value.result.generation ≠ s.routingGeneration)
      if value.closing then (.ending, s)
      else if stale || value.cachedUntil ≤ s.now then
        (.fresh, { s with udpRoutingCacheMap := Function.update s.udpRoutingCacheMap key none })
      else
        (.hit value.result,
          { s with
            udpRoutingCacheMap := Function.update s.udpRoutingCacheMap key
              (some { value with cachedUntil := s.now + udpRoutingCacheTtlNs }) })

/-- The end of `save_udp_route`: the stored decision is adopted. -/
def adoptUdpRoute (s : KernelState lim) (key : UdpSource) : Option RoutingResult × KernelState lim :=
  match s.readUdpRoute key true with
  | (.hit result, s) => (some result, s)
  | (_, s) => (none, s)

/-- `save_udp_route`. -/
def saveUdpRoute (s : KernelState lim) (key : UdpSource) (result : RoutingResult) :
    Option RoutingResult × KernelState lim :=
  match s.udpRoutingCacheMap key with
  | some _ => s.adoptUdpRoute key
  | none =>
    if s.faults.udpRoutingCache || s.faults.udpTimer then (none, s)
    else
      { s with
        udpRoutingCacheMap := Function.update s.udpRoutingCacheMap key
          (some { result, cachedUntil := s.now + udpRoutingCacheTtlNs }) }.adoptUdpRoute key

/-- `refresh_udp_conn_state_timer`. -/
def refreshUdpConnState (s : KernelState lim) (key : TuplesKey) (isWanIngress : Bool) :
    Option Bool × KernelState lim :=
  match s.udpConnStateMap key with
  | some state => (some state, s)
  | none =>
    if s.faults.udpConnState then (none, s)
    else
      (some isWanIngress,
        { s with udpConnStateMap := Function.update s.udpConnStateMap key (some isWanIngress) })

/-! ### Unfragmented packets -/

def exempt (s : KernelState lim) (p : Packet) : Bool :=
  p.five.l4proto = .tcp && s.routeExempt p.five.dip p.five.dport

/-- The routing decision with what `fill_route_metadata` adds. -/
def fillRouteMetadata (s : KernelState lim) (p : Packet) (routeEpoch : BitVec 64)
    (decision : RouteDecision) : RoutingResult where
  mark := decision.mark
  outbound := decision.outbound
  must := decision.must
  captureFlags := decision.captureFlags
  generation := s.routingGeneration
  routeEpoch
  profileId := (s.routing.routingInterfaceMap p.ifindex).getD s.routing.defaultRoutingProfile
  protocol := p.params.l4protoType
  dscp := p.dscp
  ifindex := p.ifindex
  physinif := p.physinif
  mac := p.mac

/-- The label `selected` and what follows. -/
def selected (s : KernelState lim) (p : Packet) (routeEpoch : BitVec 64) (result : RoutingResult) :
    Verdict × KernelState lim :=
  let device := s.deviceRoutes p.mac
  if device.any (fun device => device.updating || device.epoch ≠ routeEpoch) && !s.exempt p then
    (.drop, s)
  else if !result.proxied then
    match p.five.l4proto with
    | .udp => (.next result.mark, s)
    | .tcp =>
      match s.saveTcpFlow p.five result with
      | none => (.drop, s)
      | some s =>
        (.next result.mark,
          { s with routingTuplesMap := Function.update s.routingTuplesMap p.five none })
  else
    match s.publishHandoff p.five result (if p.five.l4proto = .tcp then p.seq else 0) with
    | none => (.drop, s)
    | some s =>
      match p.five.l4proto with
      | .udp => s.toControlPlane
      | .tcp =>
        match s.saveTcpFlow p.five result with
        | none => (.drop, s)
        | some s => s.toControlPlane

/-- The liveness of the outbound, as far as it decides. -/
def checkLiveness (s : KernelState lim) (p : Packet) (result : RoutingResult) : Option RoutingResult :=
  if !p.isDns && result.captureFlags = 0 && result.outbound ≠ outboundDirect &&
      result.outbound.ult outboundMustRules then
    match s.routing.outboundConnectivityMap ⟨result.outbound, p.ipv4, p.five.l4proto = .tcp⟩ with
    | none => none
    | some state =>
      if state = connectivityNoaliveBlock then none
      else some { result with noSniff := state = connectivityNoaliveDirect }
  else some result

/-- The evaluation of the routing program; none drops the packet. -/
def evaluate (s : KernelState lim) (p : Packet) (routeEpoch : BitVec 64) : Option RoutingResult :=
  let encoded := route s.routing p.params
  if encoded.msb then none
  else
    let result := s.fillRouteMetadata p routeEpoch (decodeRouteResult encoded)
    if result.outbound = outboundBlock then none else s.checkLiveness p result

/-- A packet without an earlier decision. -/
def routeNew (s : KernelState lim) (p : Packet) (routeEpoch : BitVec 64) : Verdict × KernelState lim :=
  match s.evaluate p routeEpoch with
  | none => (.drop, s)
  | some result =>
    if p.five.l4proto = .udp && (!p.isDns || result.must) then
      match s.saveUdpRoute p.source result with
      | (none, s) => (.drop, s)
      | (some adopted, s) =>
        s.selected p routeEpoch
          (if p.isDns && result.must then { adopted with must := true } else adopted)
    else s.selected p routeEpoch result

/-- A UDP packet: bindings and cached decisions count for other than DNS only. -/
def udpUnfragmented (s : KernelState lim) (p : Packet) (routeEpoch : BitVec 64) :
    Verdict × KernelState lim :=
  match s.refreshUdpConnState p.five false with
  | (none, s) => (.drop, s)
  | (some true, s) => (.next p.mark, s)
  | (some false, s) =>
    if p.isDns then s.routeNew p routeEpoch
    else
      match s.udpBindingsMap p.source with
      | some binding => if binding ≠ routeEpoch then (.drop, s) else s.toControlPlane
      | none =>
        match s.readUdpRoute p.source true with
        | (.ending, s) => (.drop, s)
        | (.hit result, s) => s.selected p routeEpoch result
        | (.fresh, s) => s.routeNew p routeEpoch

/-- `do_tproxy_unfragmented`, on a TCP or UDP packet. -/
def doTproxyUnfragmented (s : KernelState lim) (p : Packet) : Verdict × KernelState lim :=
  if p.controlPlane then (.next p.mark, s)
  else
    let device := if s.exempt p then none else s.deviceRoutes p.mac
    if isUpdating device then (.drop, s)
    else
      let routeEpoch := epochOf device
      match p.five.l4proto with
      | .udp => s.udpUnfragmented p routeEpoch
      | .tcp =>
        if !p.opens then s.established p routeEpoch
        else
          match s.pendingHandoff p routeEpoch with
          | none => s.routeNew p routeEpoch
          | some pending =>
            match s.saveTcpFlow p.five pending.result with
            | none => (.drop, s)
            | some s => s.toControlPlane

/-! ### First fragments -/

/-- The label `direct` of `do_tproxy_first_fragment`. -/
def fragmentDirect (s : KernelState lim) (p : Packet) (routeEpoch : BitVec 64) :
    Verdict × KernelState lim :=
  if (s.deviceRoutes p.mac).any fun device => device.updating || device.epoch ≠ routeEpoch then
    (.drop, s)
  else
    match p.five.l4proto with
    | .tcp => (.next 0, s)
    | .udp =>
      match s.refreshUdpConnState p.five false with
      | (none, s) => (.drop, s)
      | (some _, s) => (.next 0, s)

/-- A fragment without an earlier decision: only a direct decision without mark passes. -/
def fragmentRoute (s : KernelState lim) (p : Packet) (routeEpoch : BitVec 64) :
    Verdict × KernelState lim :=
  let encoded := route s.routing p.params
  if encoded.msb || encoded >>> routeResultCaptureShift ≠ 0 then (.drop, s)
  else
    let decoded := decodeRouteResult encoded
    if decoded.outbound ≠ outboundDirect then (.drop, s)
    else if decoded.mark ≠ 0 || p.mark ≠ 0 then (.drop, s)
    else
      let result := s.fillRouteMetadata p routeEpoch
        { outbound := outboundDirect, mark := 0, must := false, captureFlags := 0 }
      match p.five.l4proto with
      | .udp =>
        match s.saveUdpRoute p.source result with
        | (none, s) => (.drop, s)
        | (some adopted, s) =>
          if adopted.outbound ≠ outboundDirect then (.drop, s) else s.fragmentDirect p routeEpoch
      | .tcp =>
        match s.saveTcpFlow p.five result with
        | none => (.drop, s)
        | some s => s.fragmentDirect p routeEpoch

/-- The first fragment of a UDP packet. -/
def udpFragment (s : KernelState lim) (p : Packet) (routeEpoch : BitVec 64) :
    Verdict × KernelState lim :=
  if s.udpConnStateMap p.five = some true then
    if p.mark ≠ 0 then (.drop, s) else s.fragmentDirect p routeEpoch
  else if (s.udpBindingsMap p.source).isSome then (.drop, s)
  else
    match s.readUdpRoute p.source true with
    | (.ending, s) => (.drop, s)
    | (.hit saved, s) =>
      if saved.proxied || saved.mark ≠ 0 then (.drop, s) else s.fragmentDirect p routeEpoch
    | (.fresh, s) => s.fragmentRoute p routeEpoch

/-- The first fragment of an established TCP connection. -/
def establishedFragment (s : KernelState lim) (p : Packet) (routeEpoch : BitVec 64) :
    Verdict × KernelState lim :=
  let saved := s.tcpFlowMap p.five
  if routeEpoch ≠ 0 && !saved.any (·.routeEpoch = routeEpoch) then (.drop, s)
  else if saved.any fun flow => flow.proxy || flow.mark ≠ 0 then (.drop, s)
  else s.fragmentDirect p routeEpoch

/-- `do_tproxy_first_fragment`, on a TCP or UDP packet. -/
def doTproxyFirstFragment (s : KernelState lim) (p : Packet) : Verdict × KernelState lim :=
  if p.controlPlane then (.next p.mark, s)
  else
    let device := s.deviceRoutes p.mac
    let routeEpoch := epochOf device
    if isUpdating device then (.drop, s)
    else
      match p.five.l4proto with
      | .udp => s.udpFragment p routeEpoch
      | .tcp => if !p.opens then s.establishedFragment p routeEpoch else s.fragmentRoute p routeEpoch

end KernelState

end Dae
