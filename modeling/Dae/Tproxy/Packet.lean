import Dae.Routing.Instruction

/-!
# Packets and their headers

The parsing half of `control/kern/tproxy.c`: `parse_transport` with its walk over the IPv6
extension headers, `is_utp`, and the protocol bits that `fill_route_params` derives.

Offsets are `__u32`: sums that C computes in 32 bits are reduced by `u32`, sums with a
`sizeof` are computed in 64 bits and do not wrap.  Header fields are read from the loaded
bytes in network order.  Log lines are left out.
-/

namespace Dae

/-- The value of a `__u32` expression. -/
def u32 (n : Nat) : Nat := n % 2 ^ 32

/-- `bpf_skb_load_bytes`: the bytes from an offset on, or a failure. -/
abbrev Loader := Nat → Nat → Option (List UInt8)

/-- What the program sees of a `struct __sk_buff`; `protocol` in host order. -/
structure Skb where
  data : List UInt8
  protocol : Nat
  gsoSize : Nat
  small : data.length < 2 ^ 32

def Skb.len (skb : Skb) : Nat := skb.data.length

/-- `bpf_skb_load_bytes` refuses offsets beyond `INT_MAX` and reads past the end. -/
def Skb.load (skb : Skb) : Loader := fun offset size =>
  if offset ≤ 0x7fffffff ∧ offset + size ≤ skb.len then some ((skb.data.drop offset).take size)
  else none

/-- A byte of a header. -/
def byteAt (h : List UInt8) (i : Nat) : Nat := (h.getD i 0).toNat

def be16 (h : List UInt8) (i : Nat) : Nat := byteAt h i * 2 ^ 8 + byteAt h (i + 1)

def be32 (h : List UInt8) (i : Nat) : Nat := be16 h i * 2 ^ 16 + be16 h (i + 2)

def ethHlen : Nat := 14
def ethPIp : Nat := 0x0800
def ethPIpv6 : Nat := 0x86dd

def ipprotoHopopts : Nat := 0
def ipprotoTcp : Nat := 6
def ipprotoUdp : Nat := 17
def ipprotoRouting : Nat := 43
def ipprotoFragment : Nat := 44
def ipprotoAh : Nat := 51
def ipprotoIcmpv6 : Nat := 58
def ipprotoNone : Nat := 59
def ipprotoDstopts : Nat := 60

def Errno.e2big : Int := 7
def Errno.efault : Int := 14
def Errno.einval : Int := 22

def ipv6MaxExtensions : Nat := 8
def utpMaxExtensions : Nat := 4

def isExtensionHeader (nexthdr : Nat) : Bool :=
  nexthdr = ipprotoHopopts || nexthdr = ipprotoRouting || nexthdr = ipprotoFragment ||
    nexthdr = ipprotoDstopts || nexthdr = ipprotoAh

inductive FragmentState where
  | none
  | first
  | nonfirst
  deriving DecidableEq, Repr

/-! ### The IPv6 extension headers -/

structure Ipv6ExtCtx where
  offset : Nat
  nexthdr : Nat
  result : Int := 0
  seenAh : Bool := false
  seenFragment : Bool := false
  fragmentState : FragmentState := .none
  deriving DecidableEq, Repr

/-- The part of `ipv6_ext_step` for a fragment header; `nexthdr` is loaded already. -/
def ipv6FragmentStep (load : Loader) (packetEnd : Nat) (ctx : Ipv6ExtCtx) : Bool × Ipv6ExtCtx :=
  if ctx.seenFragment then (true, { ctx with result := -Errno.einval })
  else
    let ctx := { ctx with seenFragment := true }
    if packetEnd < ctx.offset + 8 then (true, { ctx with result := -Errno.einval })
    else
      match load (u32 (ctx.offset + 2)) 2 with
      | none => (true, { ctx with result := -Errno.efault })
      | some h =>
        let fragOff := be16 h 0
        let ctx :=
          if fragOff &&& 0xfff8 ≠ 0 then { ctx with fragmentState := .nonfirst }
          else if fragOff &&& 1 ≠ 0 then { ctx with fragmentState := .first }
          else ctx
        if fragOff &&& 6 ≠ 0 then (true, { ctx with result := -Errno.einval })
        else if fragOff &&& 1 ≠ 0 ∧ (packetEnd - ctx.offset - 8) &&& 7 ≠ 0 then
          (true, { ctx with result := -Errno.einval })
        else if fragOff &&& 0xfff8 ≠ 0 then (true, { ctx with result := 1 })
        else (false, { ctx with offset := u32 (ctx.offset + 8) })

/-- The part of `ipv6_ext_step` for the other headers; `current` is their kind. -/
def ipv6OptionStep (load : Loader) (packetEnd current : Nat) (ctx : Ipv6ExtCtx) : Bool × Ipv6ExtCtx :=
  if packetEnd < u32 (ctx.offset + 2) then (true, { ctx with result := -Errno.efault })
  else
    match load (u32 (ctx.offset + 1)) 1 with
    | none => (true, { ctx with result := -Errno.efault })
    | some h =>
      let hdrExtLen := byteAt h 0
      let extensionLen := if current = ipprotoAh then (hdrExtLen + 2) * 4 else (hdrExtLen + 1) * 8
      if current = ipprotoAh ∧ hdrExtLen < 1 then (true, { ctx with result := -Errno.einval })
      else
        let ctx := if current = ipprotoAh then { ctx with seenAh := true } else ctx
        if packetEnd < u32 (ctx.offset + extensionLen) then (true, { ctx with result := -Errno.efault })
        else (false, { ctx with offset := u32 (ctx.offset + extensionLen) })

/-- `ipv6_ext_step`: whether to stop, and the context. -/
def ipv6ExtStep (load : Loader) (packetEnd : Nat) (ctx : Ipv6ExtCtx) : Bool × Ipv6ExtCtx :=
  if ctx.nexthdr = ipprotoNone then (true, ctx)
  else if !isExtensionHeader ctx.nexthdr then (true, ctx)
  else if packetEnd ≤ ctx.offset then (true, { ctx with result := -Errno.efault })
  else
    match load ctx.offset 1 with
    | none => (true, { ctx with nexthdr := 0, result := -Errno.efault })
    | some h =>
      let next := { ctx with nexthdr := byteAt h 0 }
      if ctx.nexthdr = ipprotoFragment then ipv6FragmentStep load packetEnd next
      else ipv6OptionStep load packetEnd ctx.nexthdr next

/-- `bpf_repeat`: so many steps, or up to the one that stops. -/
def ipv6ExtLoop (load : Loader) (packetEnd : Nat) : Nat → Ipv6ExtCtx → Ipv6ExtCtx
  | 0, ctx => ctx
  | n + 1, ctx =>
    match ipv6ExtStep load packetEnd ctx with
    | (true, ctx) => ctx
    | (false, ctx) => ipv6ExtLoop load packetEnd n ctx

/-! ### `parse_transport` -/

/-- What `parse_transport` writes through its pointers. -/
structure Transport where
  ethh : List UInt8 := List.replicate 14 0
  l3h : List UInt8 := List.replicate 40 0
  l4h : List UInt8 := List.replicate 20 0
  l4proto : Nat := 0
  offset : Nat := 0
  packetEnd : Nat := 0
  fragmentState : FragmentState := .none
  deriving DecidableEq, Repr

/-- The branch for IPv4; zero to go on with the transport header. -/
def parseIpv4 (skb : Skb) (t : Transport) : Int × Transport :=
  let l3Offset := t.offset
  match skb.load t.offset 20 with
  | none => (-Errno.efault, t)
  | some h =>
    let t := { t with l3h := h }
    let ihl := byteAt h 0 % 16
    let ipHeaderLen := ihl * 4
    let totLen := be16 h 2
    let fragOff := be16 h 6
    let protocol := byteAt h 9
    let packetLen :=
      if totLen = 0 ∧ skb.gsoSize ≠ 0 ∧ u32 (l3Offset + 0xffff) < skb.len ∧ protocol = ipprotoTcp ∧
          fragOff &&& 0x3fff = 0 then skb.len - l3Offset
      else totLen
    if byteAt h 0 / 16 ≠ 4 ∨ ihl < 5 ∨ packetLen < ipHeaderLen ∨
        skb.len < u32 (l3Offset + packetLen) then (-Errno.einval, t)
    else
      let t := { t with
        packetEnd := u32 (l3Offset + packetLen)
        l4proto := protocol
        fragmentState :=
          if fragOff &&& 0x1fff ≠ 0 then .nonfirst
          else if fragOff &&& 0x2000 ≠ 0 then .first
          else t.fragmentState }
      if fragOff &&& 0x8000 ≠ 0 ∨ (fragOff &&& 0x4000 ≠ 0 ∧ fragOff &&& 0x3fff ≠ 0) then (-Errno.einval, t)
      else if fragOff &&& 0x2000 ≠ 0 ∧ (packetLen - ipHeaderLen) &&& 7 ≠ 0 then (-Errno.einval, t)
      else if fragOff &&& 0x1fff ≠ 0 then (1, t)
      else (0, { t with offset := u32 (t.offset + ipHeaderLen) })

/-- The eight-byte hop-by-hop header with a Jumbo Payload option that the kernel writes. -/
def isJumboHeader (skb : Skb) (payloadOffset : Nat) : Bool :=
  match skb.load payloadOffset 8 with
  | none => false
  | some j =>
    byteAt j 0 = ipprotoTcp && byteAt j 1 = 0 && byteAt j 2 = 0xc2 && byteAt j 3 = 4 &&
      be32 j 4 = skb.len - payloadOffset

/-- The branch for IPv6; zero to go on with the transport header. -/
def parseIpv6 (skb : Skb) (t : Transport) : Int × Transport :=
  let l3Offset := t.offset
  match skb.load t.offset 40 with
  | none => (-Errno.efault, t)
  | some h =>
    let t := { t with l3h := h }
    let payloadOffset := u32 (l3Offset + 40)
    let payloadLen := be16 h 4
    let bigTcp : Bool :=
      payloadLen = 0 ∧ skb.gsoSize ≠ 0 ∧ u32 (payloadOffset + 0xffff) < skb.len
    let ipPacketEnd := if bigTcp then skb.len else u32 (payloadOffset + payloadLen)
    if bigTcp ∧ byteAt h 6 = ipprotoHopopts ∧ isJumboHeader skb payloadOffset = false then (-Errno.einval, t)
    else if byteAt h 0 / 16 ≠ 6 ∨ skb.len < ipPacketEnd then (-Errno.einval, t)
    else
      let ctx := ipv6ExtLoop skb.load ipPacketEnd ipv6MaxExtensions
        { offset := payloadOffset, nexthdr := byteAt h 6 }
      let t := { t with
        packetEnd := ipPacketEnd, offset := ctx.offset, fragmentState := ctx.fragmentState }
      if bigTcp ∧ (ctx.nexthdr ≠ ipprotoTcp ∨ ctx.seenFragment ∨ ctx.seenAh) then (-Errno.einval, t)
      else if ctx.result ≠ 0 then (ctx.result, t)
      else if ctx.seenAh ∧ ctx.fragmentState = .none then (1, t)
      else if isExtensionHeader ctx.nexthdr then (-Errno.e2big, t)
      else (0, { t with l4proto := ctx.nexthdr })

/-- The transport header; `hProto` is the Ethernet protocol. -/
def parseL4 (skb : Skb) (hProto : Nat) (t : Transport) : Int × Transport :=
  if t.l4proto = ipprotoTcp then
    if t.packetEnd < t.offset + 20 then (-Errno.efault, t)
    else
      match skb.load t.offset 20 with
      | none => (-Errno.efault, t)
      | some h =>
        let t := { t with l4h := h }
        let doff := byteAt h 12 / 16
        if doff < 5 ∨ t.packetEnd < u32 (t.offset + doff * 4) then (-Errno.einval, t)
        else (0, { t with offset := u32 (t.offset + doff * 4) })
  else if t.l4proto = ipprotoUdp then
    if t.packetEnd < t.offset + 8 then (-Errno.efault, t)
    else
      match skb.load t.offset 8 with
      | none => (-Errno.efault, t)
      | some h =>
        let t := { t with l4h := h }
        if be16 h 4 < 8 then (-Errno.einval, t)
        else (0, { t with offset := u32 (t.offset + 8) })
  else if t.l4proto = ipprotoIcmpv6 then
    if hProto ≠ ethPIpv6 then (1, t)
    else if t.packetEnd < t.offset + 8 then (-Errno.efault, t)
    else
      match skb.load t.offset 8 with
      | none => (-Errno.efault, t)
      | some h => (0, { t with l4h := h })
  else (1, t)

/-- The transport header is looked at behind a network header without failure. -/
def behindNetwork (skb : Skb) (hProto : Nat) (network : Int × Transport) : Int × Transport :=
  if network.1 = 0 then parseL4 skb hProto network.2 else network

/-- The result and what was written.  Every caller starts at offset zero. -/
def parseTransport (skb : Skb) (linkHLen : Nat) : Int × Transport :=
  let t : Transport := { packetEnd := skb.len }
  let link : Option (Nat × Transport) :=
    if linkHLen = ethHlen then
      (skb.load 0 14).map fun h => (be16 h 12, { t with ethh := h, offset := 14 })
    else
      some (skb.protocol, { t with
        ethh := List.replicate 12 0 ++
          [UInt8.ofNat (skb.protocol / 2 ^ 8), UInt8.ofNat (skb.protocol % 2 ^ 8)] })
  match link with
  | none => (1, t)
  | some (hProto, t) =>
    if hProto = ethPIp then behindNetwork skb hProto (parseIpv4 skb t)
    else if hProto = ethPIpv6 then behindNetwork skb hProto (parseIpv6 skb t)
    else (1, t)

/-! ### `is_utp` -/

/-- The loop of `is_utp` over the extensions. -/
def isUtpLoop (load : Loader) (packetEnd : Nat) : Nat → Nat → Nat → Bool
  | 0, _, _ => false
  | n + 1, extension, offset =>
    if extension = 0 then true
    else if 4 < extension then false
    else if packetEnd < offset ∨ packetEnd - offset < 2 then false
    else
      match load offset 2 with
      | none => false
      | some header =>
        let extensionLen := byteAt header 1 + 2
        if packetEnd - offset < extensionLen then false
        else isUtpLoop load packetEnd n (byteAt header 0) (u32 (offset + extensionLen))

def isUtp (load : Loader) (l4proto offset packetEnd : Nat) : Bool :=
  if l4proto ≠ ipprotoUdp ∨ packetEnd < offset ∨ packetEnd - offset < 160 then false
  else
    match load offset 2 with
    | none => false
    | some header =>
      let typ := byteAt header 0 / 16
      let version := byteAt header 0 % 16
      if version ≠ 1 ∨ 4 < typ then false
      else
        match load (u32 (offset + 64)) 4 with
        | none => false
        | some difference =>
          if be32 difference 0 ≠ 0 then false
          else isUtpLoop load packetEnd utpMaxExtensions (byteAt header 1) (u32 (offset + 160))

/-- `params->l4proto_type` of `fill_route_params`. -/
def l4protoTypeOf (load : Loader) (l4proto payloadOffset packetEnd : Nat) : BitVec 8 :=
  (if l4proto = ipprotoTcp then l4ProtoTCP else l4ProtoUDP) |||
    (if l4proto = ipprotoUdp ∧ isUtp load l4proto payloadOffset packetEnd then l4ProtoUTP else 0)

end Dae
