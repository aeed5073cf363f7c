import Dae.Routing.Machine
import Dae.Routing.Builder

/-!
# What the functions of a rule ask

The meaning of a configured predicate, stated on the packet and on the contents of
the tables, and the meaning of the instruction that stands for it.  `World` fixes
one packet and one state of the tables; `World.Fits` says that the tables hold what
the builder recorded for them.
-/

namespace Dae

/-- A packet, and what the tables that routing reads hold for it. -/
structure World where
  src : Addr
  dst : Addr
  sport : BitVec 16
  dport : BitVec 16
  l4proto : BitVec 8
  processName : BitVec 128
  ifindex : BitVec 32
  physinif : BitVec 32
  dscp : BitVec 8
  mac : Mac
  /-- The domain of the packet is matched by the pattern of a key. -/
  domainMatches : String → String → Bool
  /-- The MAC of the packet is a member of the client set. -/
  clientHas : String → Bool
  /-- The current index of an interface; zero without a link of that name. -/
  ifindexOf : String → BitVec 32
  domainBit : Nat → Bool
  lpm : Nat → List Prefix
  /-- The client of the packet may be served by the HTTP proxy. -/
  httpClient : Bool

namespace World

/-- The packet entered on the interface. -/
def onInterface (w : World) (ifindex : BitVec 32) : Bool :=
  ifindex != 0 && (w.ifindex == ifindex || w.physinif == ifindex)

/-! ### Configured values -/

def prefixHolds (text : GoText) (val : String) (addr : BitVec 128) : Bool :=
  match parsePrefixOrAddr text val with
  | .ok p => p.contains16 addr
  | .error _ => false

def portHolds (text : GoText) (val : String) (port : BitVec 16) : Bool :=
  match parsePortRange text val with
  | .ok (portStart, portEnd) => decide (portStart ≤ port) && decide (port ≤ portEnd)
  | .error _ => false

def l4ProtoBits (val : String) : BitVec 8 :=
  if val = "tcp" then l4ProtoTCP
  else if val = "udp" then l4ProtoUDP
  else if val = "utp" then l4ProtoUTP
  else 0

def ipVersionBits (val : String) : BitVec 8 :=
  if val = "4" then ipVersion4 else if val = "6" then ipVersion6 else 0

/-- One value of a function holds of the packet. -/
def valueHolds (text : GoText) (w : World) (name key val : String) : Bool :=
  if name = "domain" then w.domainMatches key val
  else if name = "dip" then prefixHolds text val w.dst.as16
  else if name = "sip" then prefixHolds text val w.src.as16
  else if name = "dport" then portHolds text val w.dport
  else if name = "sport" then portHolds text val w.sport
  else if name = "l4proto" then w.l4proto &&& l4ProtoBits val != 0
  else if name = "mac" then
    match parseMac text val with
    | .ok mac => mac == w.mac
    | .error _ => false
  else if name = "client" then w.clientHas val
  else if name = "pname" then
    w.processName.setWidth 8 != 0 && toProcessName val == w.processName
  else if name = "interface" then w.onInterface (w.ifindexOf val)
  else if name = "dscp" then
    match parseUint8 text val with
    | .ok dscp => dscp == w.dscp
    | .error _ => false
  else if name = "ipversion" then ipVersionFromAddr w.dst &&& ipVersionBits val != 0
  else false

/-- A function holds when one of its parameters does, or none if it is negated. -/
def functionHolds (text : GoText) (w : World) (f : Function) : Bool :=
  (f.params.any fun p => w.valueHolds text f.name p.key p.val) ^^ f.not

/-- A predicate holds when all of its functions do. -/
def predicateHolds (text : GoText) (w : World) (functions : List Function) : Bool :=
  functions.all (w.functionHolds text)

/-! ### Instructions -/

/-- The question of an instruction, answered exactly. -/
def atomHolds (w : World) (a : Atom) : Bool :=
  let m := a.matchSet
  match a.type with
  | .domainSet => w.domainBit m.index.toNat
  | .ipSet => lpmContains (w.lpm m.index.toNat) w.dst.as16
  | .sourceIpSet => lpmContains (w.lpm m.index.toNat) w.src.as16
  | .mac => lpmContains (w.lpm m.index.toNat) (w.mac.setWidth 128)
  | .port => decide (m.portStart ≤ w.dport) && decide (w.dport ≤ m.portEnd)
  | .sourcePort => decide (m.portStart ≤ w.sport) && decide (w.sport ≤ m.portEnd)
  | .l4Proto => w.l4proto &&& m.byte != 0
  | .ipVersion => ipVersionFromAddr w.dst &&& m.byte != 0
  | .processName => w.processName.setWidth 8 != 0 && m.value == w.processName
  | .ifIndex => w.onInterface m.index
  | .dscp => w.dscp == m.byte
  | .fallback => true
  | .httpClient => w.httpClient
  | _ => false

/-- The tables hold what the builder recorded: static sets as they were compiled,
client sets as their members are now, and one bit for each domain set.  Slots are
32-bit numbers. -/
structure Fits (w : World) (b : RoutingMatcherBuilder) : Prop where
  addressable : b.simulatedLpmTries.length ≤ 2 ^ 32
  static : ∀ id ∈ b.staticLpmIDs, b.simulatedLpmTries[id]? = some (w.lpm id)
  client : ∀ name slot, (name, slot) ∈ b.clientSetSlots →
    lpmContains (w.lpm slot) (w.mac.setWidth 128) = w.clientHas name
  domain : ∀ i set, b.simulatedDomainSet[i]? = some set →
    w.domainBit i = set.domains.any (w.domainMatches set.key)

end World

end Dae
