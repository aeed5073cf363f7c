import Dae.Net.Addr

/-!
# Routing instructions

The numeric routing ABI of `kern/routing_abi.h` and the instruction of
`kern/routing_maps.h` (`struct match_set`, `bpfMatchSet` in Go).  The compiler
writes these instructions and both interpreters, the eBPF one and the
userspace one, read them.

The sixteen value bytes are one 128-bit number, byte `i` in bits `8i .. 8i+7`:
both sides read the union little-endian.
-/

namespace Dae

/-- The build-time instruction capacity, `MAX_MATCH_SET_LEN` in C and
`consts.MaxMatchSetLen` in Go.  Both sides refuse to build outside this range. -/
structure Limits where
  maxMatchSetLen : Nat
  ge : 32 ≤ maxMatchSetLen
  le : maxMatchSetLen ≤ 65536
  words : maxMatchSetLen % 32 = 0

/-- The default capacity, `32 * 32`. -/
def Limits.standard : Limits := ⟨32 * 32, by decide, by decide, by decide⟩

/-- `enum MatchType`, with the three Go-only kinds that no routing program may
contain. -/
inductive MatchType where
  | domainSet | ipSet | sourceIpSet | port | sourcePort | l4Proto | ipVersion
  | mac | processName | ifIndex | dscp | fallback | httpClient
  | mustRules | upstream | qType
  deriving DecidableEq, Repr

/-- `enum MatchAction`.  `matchHit` and `miss` (`MatchActionMatch`,
`MatchActionMiss`) end userspace destination predicates only. -/
inductive MatchAction where
  | route | or | and | must | bump | capture | flowEnd | conditionalJump
  | matchHit | miss
  deriving DecidableEq, Repr

/-- The actions that only combine predicates: `Or` and `And`. -/
def MatchAction.isLogical : MatchAction → Bool
  | .or => true
  | .and => true
  | _ => false

/-! ### Constants -/

def outboundDirect : BitVec 8 := 0
def outboundBlock : BitVec 8 := 1
def outboundUserDefinedMin : BitVec 8 := 2
def outboundMustRules : BitVec 8 := 0xFC
def outboundControlPlaneRouting : BitVec 8 := 0xFD

def matchFlagNot : BitVec 8 := 1
def matchFlagMust : BitVec 8 := 2
def matchFlagSkipNoalive : BitVec 8 := 4
def matchCaptureShift : Nat := 3
def matchFlagBypass : BitVec 8 := 64

def captureHTTP : BitVec 8 := 1
def captureDestination : BitVec 8 := 2
def captureHTTPRequest : BitVec 8 := 4
def captureDNS : BitVec 8 := 8

def l4ProtoTCP : BitVec 8 := 1
def l4ProtoUDP : BitVec 8 := 2
def l4ProtoUTP : BitVec 8 := 4

def ipVersion4 : BitVec 8 := 1
def ipVersion6 : BitVec 8 := 2
def ipVersionX : BitVec 8 := 3

/-- `struct match_set`; the field defaults are Go's zero values. -/
structure MatchSet where
  value : BitVec 128 := 0
  mark : BitVec 32 := 0
  type : MatchType := .domainSet
  outbound : BitVec 8 := 0
  flags : BitVec 8 := 0
  action : MatchAction := .route
  deriving DecidableEq, Repr

namespace MatchSet

def has (m : MatchSet) (flag : BitVec 8) : Bool := m.flags &&& flag != 0

/-- `match_set.index`, a domain set, an LPM slot or an interface. -/
def index (m : MatchSet) : BitVec 32 := m.value.setWidth 32

def portStart (m : MatchSet) : BitVec 16 := m.value.setWidth 16

def portEnd (m : MatchSet) : BitVec 16 := (m.value >>> 16).setWidth 16

/-- The first value byte: protocols, IP versions and DSCP. -/
def byte (m : MatchSet) : BitVec 8 := m.value.setWidth 8

/-- `MATCH_CAPTURE_FLAGS`. -/
def captureFlags (m : MatchSet) : BitVec 8 := (m.flags >>> matchCaptureShift) &&& 7

/-- The actions whose mark is a jump distance. -/
def isJump (m : MatchSet) : Bool := m.action.isLogical || m.action == .conditionalJump

end MatchSet

/-- `routingMatchFlags`. -/
def routingMatchFlags (not must skipNoalive : Bool) : BitVec 8 :=
  (if not then matchFlagNot else 0) ||| (if must then matchFlagMust else 0) |||
    (if skipNoalive then matchFlagSkipNoalive else 0)

/-- The flags of a capture that must leave the kernel at once. -/
def captureExit : BitVec 8 := captureDestination ||| captureHTTPRequest

end Dae
