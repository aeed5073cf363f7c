import Dae.Tproxy.Extensions

/-!
# Network and transport headers

The walk over a packet by RFC 791 and RFC 8200, and what the branches of `parse_transport`
for IPv4, IPv6 and the transport header do in its terms.  The walk takes the length of a
packet from its header; a length of zero stands for the whole buffer where the metadata say
that segmentation is still to come (BIG TCP).  Extension headers are walked over in any
order.
-/

namespace Dae

open Chained

/-! ### The reference walk -/

/-- The protocol of the network header and where it starts. -/
def linkPayload (skb : Skb) (linkHLen : Nat) : Option (Nat × Nat) :=
  if linkHLen = ethHlen then if 14 ≤ skb.len then some (skb.be16At 12, 14) else none
  else some (skb.protocol, 0)

section Reference

variable (skb : Skb) (l3 : Nat)

/-- The length of an IPv4 packet. -/
def ipv4Length : Nat :=
  if skb.be16At (l3 + 2) = 0 ∧ skb.gsoSize ≠ 0 ∧ l3 + 0xffff < skb.len ∧
      skb.byte (l3 + 9) = ipprotoTcp ∧ skb.be16At (l3 + 6) % 2 ^ 14 = 0 then skb.len - l3
  else skb.be16At (l3 + 2)

def ipv4HeaderLen : Nat := skb.byte l3 % 16 * 4

/-- A complete IPv4 header of a packet that lies inside the buffer. -/
structure Ipv4Header : Prop where
  complete : l3 + 20 ≤ skb.len
  version : skb.byte l3 / 16 = 4
  size : 20 ≤ ipv4HeaderLen skb l3
  length : ipv4HeaderLen skb l3 ≤ ipv4Length skb l3
  inside : l3 + ipv4Length skb l3 ≤ skb.len

/-- What the flags and the fragment offset of IPv4 say. -/
def ipv4FragmentState : FragmentState :=
  fragmentStateOf (skb.be16At (l3 + 6) % 2 ^ 13) (skb.be16At (l3 + 6) / 2 ^ 13 % 2)

/-- The reserved flag is clear, a packet that must not be fragmented is none, and but for
the last fragment the payload has whole units. -/
structure Ipv4Flags : Prop where
  reserved : skb.be16At (l3 + 6) / 2 ^ 15 % 2 = 0
  whole : skb.be16At (l3 + 6) / 2 ^ 14 % 2 ≠ 0 → skb.be16At (l3 + 6) % 2 ^ 14 = 0
  aligned : skb.be16At (l3 + 6) / 2 ^ 13 % 2 ≠ 0 → (ipv4Length skb l3 - ipv4HeaderLen skb l3) % 8 = 0

/-- An IPv6 packet before segmentation, with a payload length of zero. -/
def ipv6BigTcp : Prop :=
  skb.be16At (l3 + 4) = 0 ∧ skb.gsoSize ≠ 0 ∧ l3 + 40 + 0xffff < skb.len

instance : Decidable (ipv6BigTcp skb l3) := inferInstanceAs (Decidable (_ ∧ _ ∧ _))

def ipv6End : Nat := if ipv6BigTcp skb l3 then skb.len else l3 + 40 + skb.be16At (l3 + 4)

/-- The Jumbo Payload option of RFC 2675, alone in a hop-by-hop header before TCP. -/
structure JumboOption (pos : Nat) : Prop where
  complete : pos + 8 ≤ skb.len
  nexthdr : skb.byte pos = ipprotoTcp
  hdrlen : skb.byte (pos + 1) = 0
  kind : skb.byte (pos + 2) = 0xc2
  len : skb.byte (pos + 3) = 4
  payload : skb.be32At (pos + 4) = skb.len - pos

/-- A complete IPv6 header of a packet that lies inside the buffer. -/
structure Ipv6Header : Prop where
  complete : l3 + 40 ≤ skb.len
  version : skb.byte l3 / 16 = 6
  inside : ipv6End skb l3 ≤ skb.len
  jumbo : ipv6BigTcp skb l3 → skb.byte (l3 + 6) = ipprotoHopopts → JumboOption skb (l3 + 40)

/-- Where the walk over the extension headers starts. -/
def ipv6Start : Nat × Nat := (skb.byte (l3 + 6), l3 + 40)

end Reference

/-- **The reference walk** reaches a header of protocol `proto` at `place`, behind so many
extension headers, in a packet that ends at `packetEnd`. -/
inductive Reaches (skb : Skb) (linkHLen : Nat) : (extensions proto place packetEnd : Nat) → Prop
  | v4 {l3 : Nat} (hlink : linkPayload skb linkHLen = some (ethPIp, l3)) (hheader : Ipv4Header skb l3)
      (hfirst : skb.be16At (l3 + 6) % 2 ^ 13 = 0) :
      Reaches skb linkHLen 0 (skb.byte (l3 + 9)) (l3 + ipv4HeaderLen skb l3) (l3 + ipv4Length skb l3)
  | v6 {l3 m proto place : Nat} (hlink : linkPayload skb linkHLen = some (ethPIpv6, l3))
      (hheader : Ipv6Header skb l3)
      (hwalk : walk (nextHeader skb (ipv6End skb l3)) m (ipv6Start skb l3) = some (proto, place))
      (hproto : proto ∉ extensionKinds) : Reaches skb linkHLen m proto place (ipv6End skb l3)

/-- The length of the transport header, options included. -/
def transportLen (skb : Skb) (proto place : Nat) : Nat :=
  if proto = ipprotoTcp then skb.byte (place + 12) / 16 * 4 else 8

/-- A complete TCP or UDP header inside the packet. -/
def TransportHeader (skb : Skb) (proto place packetEnd : Nat) : Prop :=
  (proto = ipprotoTcp ∧ place + 20 ≤ packetEnd ∧ 20 ≤ transportLen skb proto place ∧
    place + transportLen skb proto place ≤ packetEnd) ∨
  (proto = ipprotoUdp ∧ place + 8 ≤ packetEnd)

/-- **A well-formed TCP or UDP packet** that is not a later fragment, with no more extension
headers than the limit and without an authentication header. -/
structure WellFormedPacket (skb : Skb) (linkHLen extensions proto place packetEnd : Nat) : Prop where
  reaches : Reaches skb linkHLen extensions proto place packetEnd
  few : extensions ≤ ipv6MaxExtensions
  header : TransportHeader skb proto place packetEnd
  udpLen : proto = ipprotoUdp → 8 ≤ skb.be16At (place + 4)
  flags : ∀ l3, linkPayload skb linkHLen = some (ethPIp, l3) → Ipv4Flags skb l3
  tidy : ∀ l3, linkPayload skb linkHLen = some (ethPIpv6, l3) →
    Tidy skb packetEnd (ipv6Start skb l3) extensions
  big : ∀ l3, linkPayload skb linkHLen = some (ethPIpv6, l3) → ipv6BigTcp skb l3 →
    proto = ipprotoTcp ∧ ∀ j < extensions, ∀ p,
      walk (nextHeader skb packetEnd) j (ipv6Start skb l3) ≠ some (ipprotoFragment, p)

/-! ### IPv4 -/

theorem ipv4Length_lt (skb : Skb) {l3 : Nat} (hl3 : l3 ≤ 14) : l3 + ipv4Length skb l3 < 2 ^ 32 := by
  have hlen : skb.len < 2 ^ 32 := skb.small
  have htot := skb.be16At_lt (l3 + 2)
  rw [ipv4Length]
  split <;> omega

/-- The branch for IPv4, on the fields of the packet. -/
theorem parseIpv4_eq {skb : Skb} {t : Transport} {h : List UInt8} (hload : skb.load t.offset 20 = some h)
    (hsmall : t.offset ≤ 14) (hstate : t.fragmentState = .none) :
    parseIpv4 skb t =
      let read := { t with l3h := h }
      let parsed := { read with
        packetEnd := t.offset + ipv4Length skb t.offset
        l4proto := skb.byte (t.offset + 9)
        fragmentState := ipv4FragmentState skb t.offset }
      if skb.byte t.offset / 16 ≠ 4 ∨ skb.byte t.offset % 16 < 5 ∨
          ipv4Length skb t.offset < ipv4HeaderLen skb t.offset ∨
          skb.len < t.offset + ipv4Length skb t.offset then (-Errno.einval, read)
      else if skb.be16At (t.offset + 6) / 2 ^ 15 % 2 ≠ 0 ∨ (skb.be16At (t.offset + 6) / 2 ^ 14 % 2 ≠ 0 ∧
          skb.be16At (t.offset + 6) % 2 ^ 14 ≠ 0) then (-Errno.einval, parsed)
      else if skb.be16At (t.offset + 6) / 2 ^ 13 % 2 ≠ 0 ∧
          (ipv4Length skb t.offset - ipv4HeaderLen skb t.offset) % 8 ≠ 0 then (-Errno.einval, parsed)
      else if skb.be16At (t.offset + 6) % 2 ^ 13 ≠ 0 then (1, parsed)
      else (0, { parsed with offset := t.offset + ipv4HeaderLen skb t.offset }) := by
  have hbyte : ∀ i < 20, byteAt h i = skb.byte (t.offset + i) := (Skb.load_spec hload).2.2
  have htot : be16 h 2 = skb.be16At (t.offset + 2) := Skb.be16_load hload (by omega)
  have hfrag : be16 h 6 = skb.be16At (t.offset + 6) := Skb.be16_load hload (by omega)
  have hlow : ∀ x : Nat, (x &&& 0x3fff = 0 ↔ x % 2 ^ 14 = 0) ∧ (x &&& 0x1fff = 0 ↔ x % 2 ^ 13 = 0) ∧
      (x &&& 7 = 0 ↔ x % 8 = 0) :=
    fun x => ⟨and_low_eq_zero 14 rfl, and_low_eq_zero 13 rfl, and_low_eq_zero 3 rfl⟩
  have hbit : ∀ x : Nat, (x &&& 0x8000 = 0 ↔ x / 2 ^ 15 % 2 = 0) ∧ (x &&& 0x4000 = 0 ↔ x / 2 ^ 14 % 2 = 0) ∧
      (x &&& 0x2000 = 0 ↔ x / 2 ^ 13 % 2 = 0) :=
    fun x => ⟨and_mask_eq_zero 1 15 rfl, and_mask_eq_zero 1 14 rfl, and_mask_eq_zero 1 13 rfl⟩
  have hwrap : u32 (t.offset + 0xffff) = t.offset + 0xffff := u32_of_lt (by omega)
  have hlength : u32 (t.offset + ipv4Length skb t.offset) = t.offset + ipv4Length skb t.offset :=
    u32_of_lt (ipv4Length_lt skb hsmall)
  have hheader : u32 (t.offset + ipv4HeaderLen skb t.offset) = t.offset + ipv4HeaderLen skb t.offset := by
    refine u32_of_lt ?_
    have := Nat.mod_lt (skb.byte t.offset) (by decide : 0 < 16)
    rw [ipv4HeaderLen]
    omega
  rw [parseIpv4, hload]
  simp only [hbyte 0 (by omega), hbyte 9 (by omega), htot, hfrag, Nat.add_zero, hwrap, ne_eq, hlow,
    hbit, hstate]
  have hdef : (if skb.be16At (t.offset + 2) = 0 ∧ ¬ skb.gsoSize = 0 ∧ t.offset + 0xffff < skb.len ∧
      skb.byte (t.offset + 9) = ipprotoTcp ∧ skb.be16At (t.offset + 6) % 2 ^ 14 = 0 then
        skb.len - t.offset else skb.be16At (t.offset + 2)) = ipv4Length skb t.offset := rfl
  have hheader : u32 (t.offset + skb.byte t.offset % 16 * 4) =
      t.offset + ipv4HeaderLen skb t.offset := hheader
  rw [hdef, hlength, hheader]
  rfl

/-- **What the branch for IPv4 does**, with and without a header. -/
theorem parseIpv4_spec {skb : Skb} {t : Transport} (hsmall : t.offset ≤ 14)
    (hstate : t.fragmentState = .none) :
    (¬ Ipv4Header skb t.offset → (parseIpv4 skb t).1 ≠ 0 ∧ (parseIpv4 skb t).2.offset = t.offset ∧
      (parseIpv4 skb t).2.packetEnd = t.packetEnd) ∧
    (Ipv4Header skb t.offset →
      (parseIpv4 skb t).2.packetEnd = t.offset + ipv4Length skb t.offset ∧
      (parseIpv4 skb t).2.fragmentState = ipv4FragmentState skb t.offset ∧
      ((parseIpv4 skb t).1 ≠ 0 → (parseIpv4 skb t).2.offset = t.offset) ∧
      ((parseIpv4 skb t).1 = 0 → (parseIpv4 skb t).2.offset = t.offset + ipv4HeaderLen skb t.offset ∧
        (parseIpv4 skb t).2.l4proto = skb.byte (t.offset + 9) ∧
        skb.be16At (t.offset + 6) % 2 ^ 13 = 0) ∧
      (Ipv4Flags skb t.offset → skb.be16At (t.offset + 6) % 2 ^ 13 = 0 → (parseIpv4 skb t).1 = 0)) := by
  have hinval : -Errno.einval ≠ 0 := by decide
  have hfault : -Errno.efault ≠ 0 := by decide
  have hone : (1 : Int) ≠ 0 := by decide
  cases hload : skb.load t.offset 20 with
  | none =>
    have hparse : parseIpv4 skb t = (-Errno.efault, t) := by
      rw [parseIpv4, hload]
    rw [hparse]
    refine ⟨fun _ => ⟨hfault, rfl, rfl⟩, fun hheader => ?_⟩
    obtain ⟨h, hsome⟩ : ∃ h, skb.load t.offset 20 = some h :=
      Skb.load_of_le (by omega) hheader.complete
    rw [hload] at hsome
    cases hsome
  | some h =>
    rw [parseIpv4_eq hload hsmall hstate]
    dsimp only
    split
    · rename_i hbad
      refine ⟨fun _ => ⟨hinval, rfl, rfl⟩, fun hheader => ?_⟩
      have hsize := hheader.size
      rw [ipv4HeaderLen] at hsize
      rcases hbad with hbad | hbad | hbad | hbad
      · exact absurd hheader.version hbad
      · omega
      · exact absurd hheader.length (not_le.mpr hbad)
      · exact absurd hheader.inside (not_le.mpr hbad)
    · rename_i hgood
      obtain ⟨hversion, hihl, hlength, hinside⟩ := by simpa only [not_or, not_not, not_lt] using hgood
      have hheader : Ipv4Header skb t.offset :=
        ⟨(Skb.load_spec hload).2.1, hversion, by rw [ipv4HeaderLen]; omega, hlength, hinside⟩
      refine ⟨fun hnot => absurd hheader hnot, fun _ => ?_⟩
      split
      · rename_i hflags
        refine ⟨rfl, rfl, fun _ => rfl, fun h => absurd h hinval, fun hok _ => ?_⟩
        rcases hflags with hflags | ⟨hdf, hflags⟩
        · exact absurd hok.reserved hflags
        · exact absurd (hok.whole hdf) hflags
      split
      · rename_i haligned
        exact ⟨rfl, rfl, fun _ => rfl, fun h => absurd h hinval, fun hok _ =>
          absurd (hok.aligned haligned.1) haligned.2⟩
      split
      · rename_i hlater
        exact ⟨rfl, rfl, fun _ => rfl, fun h => absurd h hone, fun _ hfirst =>
          absurd hfirst hlater⟩
      · rename_i hfirst
        exact ⟨rfl, rfl, fun h => absurd rfl h, fun _ => ⟨rfl, rfl, not_not.mp hfirst⟩, fun _ _ => rfl⟩

/-! ### IPv6 -/

theorem isJumboHeader_iff (skb : Skb) {pos : Nat} (hsmall : pos ≤ 54) :
    isJumboHeader skb pos = true ↔ JumboOption skb pos := by
  cases hload : skb.load pos 8 with
  | none =>
    rw [isJumboHeader, hload]
    refine ⟨fun h => absurd h Bool.false_ne_true, fun hjumbo => ?_⟩
    obtain ⟨h, hsome⟩ : ∃ h, skb.load pos 8 = some h := Skb.load_of_le (by omega) hjumbo.complete
    rw [hload] at hsome
    cases hsome
  | some j =>
    obtain ⟨-, hcomplete, hbyte⟩ := Skb.load_spec hload
    have hpayload : be32 j 4 = skb.be32At (pos + 4) := by
      rw [be32, Skb.be16_load hload (by omega), Skb.be16_load hload (by omega)]
      rfl
    rw [isJumboHeader, hload]
    simp only [Bool.and_eq_true, decide_eq_true_eq, hpayload, hbyte 0 (by omega), hbyte 1 (by omega),
      hbyte 2 (by omega), hbyte 3 (by omega), Nat.add_zero]
    constructor
    · rintro ⟨⟨⟨⟨h₀, h₁⟩, h₂⟩, h₃⟩, h₄⟩
      exact ⟨hcomplete, h₀, h₁, h₂, h₃, h₄⟩
    · intro h
      exact ⟨⟨⟨⟨h.nexthdr, h.hdrlen⟩, h.kind⟩, h.len⟩, h.payload⟩

/-- The context the loop starts with. -/
def ipv6ExtStart (skb : Skb) (l3 : Nat) : Ipv6ExtCtx := { offset := l3 + 40, nexthdr := skb.byte (l3 + 6) }

/-- The branch for IPv6, on the fields of the packet. -/
theorem parseIpv6_eq {skb : Skb} {t : Transport} {h : List UInt8} (hload : skb.load t.offset 40 = some h)
    (hsmall : t.offset ≤ 14) :
    parseIpv6 skb t =
      let read := { t with l3h := h }
      let ctx := ipv6ExtLoop skb.load (ipv6End skb t.offset) ipv6MaxExtensions (ipv6ExtStart skb t.offset)
      let walked := { read with
        packetEnd := ipv6End skb t.offset, offset := ctx.offset, fragmentState := ctx.fragmentState }
      if ipv6BigTcp skb t.offset ∧ skb.byte (t.offset + 6) = ipprotoHopopts ∧
          isJumboHeader skb (t.offset + 40) = false then (-Errno.einval, read)
      else if skb.byte t.offset / 16 ≠ 6 ∨ skb.len < ipv6End skb t.offset then (-Errno.einval, read)
      else if ipv6BigTcp skb t.offset ∧ (ctx.nexthdr ≠ ipprotoTcp ∨ ctx.seenFragment ∨ ctx.seenAh) then
        (-Errno.einval, walked)
      else if ctx.result ≠ 0 then (ctx.result, walked)
      else if ctx.seenAh ∧ ctx.fragmentState = .none then (1, walked)
      else if isExtensionHeader ctx.nexthdr then (-Errno.e2big, walked)
      else (0, { walked with l4proto := ctx.nexthdr }) := by
  have hbyte : ∀ i < 40, byteAt h i = skb.byte (t.offset + i) := (Skb.load_spec hload).2.2
  have hpayload : be16 h 4 = skb.be16At (t.offset + 4) := Skb.be16_load hload (by omega)
  have hlt := skb.be16At_lt (t.offset + 4)
  have hstart : u32 (t.offset + 40) = t.offset + 40 := u32_of_lt (by omega)
  have hroom : u32 (t.offset + 40 + 0xffff) = t.offset + 40 + 0xffff := u32_of_lt (by omega)
  have hend : u32 (t.offset + 40 + skb.be16At (t.offset + 4)) =
      t.offset + 40 + skb.be16At (t.offset + 4) := u32_of_lt (by omega)
  rw [parseIpv6, hload]
  simp only [hbyte 0 (by omega), hbyte 6 (by omega), hpayload, Nat.add_zero, hstart, hroom, hend,
    decide_eq_true_eq]
  rfl

theorem le_ipv6End (skb : Skb) (l3 : Nat) : l3 + 40 ≤ ipv6End skb l3 := by
  rw [ipv6End]
  split
  · rename_i h
    have := h.2.2
    omega
  · omega

/-- **What the branch for IPv6 does**, with and without a header. -/
theorem parseIpv6_spec {skb : Skb} {t : Transport} (hsmall : t.offset ≤ 14) :
    (¬ Ipv6Header skb t.offset → (parseIpv6 skb t).1 ≠ 0 ∧ (parseIpv6 skb t).2.offset = t.offset ∧
      (parseIpv6 skb t).2.packetEnd = t.packetEnd) ∧
    (Ipv6Header skb t.offset →
      (parseIpv6 skb t).2.packetEnd = ipv6End skb t.offset ∧
      (parseIpv6 skb t).2.offset ≤ ipv6End skb t.offset ∧ (parseIpv6 skb t).2.offset ≤ 2 ^ 15 ∧
      (parseIpv6 skb t).2.fragmentState = (ipv6ExtLoop skb.load (ipv6End skb t.offset) ipv6MaxExtensions
        (ipv6ExtStart skb t.offset)).fragmentState ∧
      ((parseIpv6 skb t).1 = 0 → (parseIpv6 skb t).2.l4proto ∉ extensionKinds ∧
        ∃ m ≤ ipv6MaxExtensions, walk (nextHeader skb (ipv6End skb t.offset)) m (ipv6Start skb t.offset) =
          some ((parseIpv6 skb t).2.l4proto, (parseIpv6 skb t).2.offset)) ∧
      ∀ m ≤ ipv6MaxExtensions, ∀ proto place,
        walk (nextHeader skb (ipv6End skb t.offset)) m (ipv6Start skb t.offset) = some (proto, place) →
        proto ∉ extensionKinds → Tidy skb (ipv6End skb t.offset) (ipv6Start skb t.offset) m →
        (ipv6BigTcp skb t.offset → proto = ipprotoTcp ∧ ∀ j < m, ∀ p,
          walk (nextHeader skb (ipv6End skb t.offset)) j (ipv6Start skb t.offset) ≠
            some (ipprotoFragment, p)) →
        (parseIpv6 skb t).1 = 0 ∧ (parseIpv6 skb t).2.l4proto = proto ∧ (parseIpv6 skb t).2.offset = place) := by
  have hinval : -Errno.einval ≠ 0 := by decide
  have hfault : -Errno.efault ≠ 0 := by decide
  have hone : (1 : Int) ≠ 0 := by decide
  have hbig : -Errno.e2big ≠ 0 := by decide
  cases hload : skb.load t.offset 40 with
  | none =>
    have hparse : parseIpv6 skb t = (-Errno.efault, t) := by
      rw [parseIpv6, hload]
    rw [hparse]
    refine ⟨fun _ => ⟨hfault, rfl, rfl⟩, fun hheader => ?_⟩
    obtain ⟨h, hsome⟩ : ∃ h, skb.load t.offset 40 = some h :=
      Skb.load_of_le (by omega) hheader.complete
    rw [hload] at hsome
    cases hsome
  | some h =>
    have hjumbo := isJumboHeader_iff skb (by omega : t.offset + 40 ≤ 54)
    rw [parseIpv6_eq hload hsmall]
    dsimp only
    split
    · rename_i hbad
      refine ⟨fun _ => ⟨hinval, rfl, rfl⟩, fun hheader => ?_⟩
      rw [hjumbo.mpr (hheader.jumbo hbad.1 hbad.2.1)] at hbad
      cases hbad.2.2
    rename_i hoption
    split
    · rename_i hbad
      refine ⟨fun _ => ⟨hinval, rfl, rfl⟩, fun hheader => ?_⟩
      rcases hbad with hbad | hbad
      · exact absurd hheader.version hbad
      · exact absurd hheader.inside (not_le.mpr hbad)
    rename_i hgood
    obtain ⟨hversion, hinside⟩ := by simpa only [not_or, not_not, not_lt] using hgood
    have hheader : Ipv6Header skb t.offset := by
      refine ⟨(Skb.load_spec hload).2.1, hversion, hinside, fun hb hhop => hjumbo.mp ?_⟩
      by_contra hnot
      exact hoption ⟨hb, hhop, Bool.eq_false_iff.mpr hnot⟩
    refine ⟨fun hnot => absurd hheader hnot, fun _ => ?_⟩
    have hfresh : (ipv6ExtStart skb t.offset).Fresh := fun _ => rfl
    have hroom : (ipv6ExtStart skb t.offset).offset + 2048 * ipv6MaxExtensions ≤ 2 ^ 30 := by
      show t.offset + 40 + 2048 * 8 ≤ 2 ^ 30
      omega
    obtain ⟨m, hm, kind, hwalk, hin, hsize, hresult⟩ := ipv6ExtLoop_spec hinside hroom hfresh
      (le_ipv6End skb t.offset)
    have hsize' : (ipv6ExtLoop skb.load (ipv6End skb t.offset) ipv6MaxExtensions
        (ipv6ExtStart skb t.offset)).offset ≤ 2 ^ 15 := by
      refine hsize.trans ?_
      show t.offset + 40 + 2048 * 8 ≤ 2 ^ 15
      omega
    have hcomplete := fun m (hm : m ≤ ipv6MaxExtensions) proto place hw hp ht =>
      @ipv6ExtLoop_of_walk skb (ipv6End skb t.offset) hinside m ipv6MaxExtensions
        (ipv6ExtStart skb t.offset) proto place hroom hfresh hm hw hp ht
        (fun hseen => absurd hseen Bool.false_ne_true)
    generalize hctx : ipv6ExtLoop skb.load (ipv6End skb t.offset) ipv6MaxExtensions
      (ipv6ExtStart skb t.offset) = ctx at *
    split
    · rename_i hbad
      refine ⟨rfl, hin, hsize', rfl, fun h => absurd h hinval, ?_⟩
      intro m hm proto place hw hp ht htcp
      obtain ⟨h₁, -, -, h₄, h₅⟩ := hcomplete m hm proto place hw hp ht
      obtain ⟨hproto, hnofragment⟩ := htcp hbad.1
      rcases hbad.2 with hbad | hbad | hbad
      · exact absurd (h₁.trans hproto) hbad
      · rcases h₅ hbad with h | ⟨j, hj, p, h⟩
        · exact absurd h Bool.false_ne_true
        · exact absurd h (hnofragment j hj p)
      · exact absurd (h₄.symm.trans hbad) Bool.false_ne_true
    split
    · rename_i hbad
      refine ⟨rfl, hin, hsize', rfl, fun h => absurd h hbad, ?_⟩
      intro m hm proto place hw hp ht _
      exact absurd (hcomplete m hm proto place hw hp ht).2.2.1 hbad
    rename_i hok
    split
    · rename_i hah
      refine ⟨rfl, hin, hsize', rfl, fun h => absurd h hone, ?_⟩
      intro m hm proto place hw hp ht _
      obtain ⟨-, -, -, h₄, -⟩ := hcomplete m hm proto place hw hp ht
      exact absurd (h₄.symm.trans hah.1) Bool.false_ne_true
    split
    · rename_i hext
      refine ⟨rfl, hin, hsize', rfl, fun h => absurd h hbig, ?_⟩
      intro m hm proto place hw hp ht _
      obtain ⟨h₁, -⟩ := hcomplete m hm proto place hw hp ht
      exact absurd ((isExtensionHeader_iff _).mp hext) (h₁ ▸ hp)
    · rename_i hext
      have hkind := hresult (not_not.mp hok)
      refine ⟨rfl, hin, hsize', rfl, fun _ => ⟨fun h => hext ((isExtensionHeader_iff _).mpr h), m, hm, ?_⟩, ?_⟩
      · rw [hkind]
        exact hwalk
      · intro m hm proto place hw hp ht _
        obtain ⟨h₁, h₂, -⟩ := hcomplete m hm proto place hw hp ht
        exact ⟨rfl, h₁, h₂⟩

/-! ### The transport header -/

/-- **What is made of the transport header.** -/
theorem parseL4_spec {skb : Skb} {hProto : Nat} {t : Transport} (hsmall : t.offset ≤ 2 ^ 15)
    (hinside : t.offset ≤ t.packetEnd) (hend : t.packetEnd ≤ skb.len) :
    (parseL4 skb hProto t).2.packetEnd = t.packetEnd ∧
    (parseL4 skb hProto t).2.fragmentState = t.fragmentState ∧
    (parseL4 skb hProto t).2.l4proto = t.l4proto ∧
    (parseL4 skb hProto t).2.offset ≤ t.packetEnd ∧
    ((parseL4 skb hProto t).1 = 0 → t.l4proto = ipprotoTcp ∨ t.l4proto = ipprotoUdp →
      TransportHeader skb t.l4proto t.offset t.packetEnd ∧
      (parseL4 skb hProto t).2.offset = t.offset + transportLen skb t.l4proto t.offset) ∧
    ((parseL4 skb hProto t).1 = 0 → t.l4proto = ipprotoIcmpv6 →
      (parseL4 skb hProto t).2.offset + 8 ≤ t.packetEnd) ∧
    (TransportHeader skb t.l4proto t.offset t.packetEnd →
      (t.l4proto = ipprotoUdp → 8 ≤ skb.be16At (t.offset + 4)) → (parseL4 skb hProto t).1 = 0) := by
  have hinval : -Errno.einval ≠ 0 := by decide
  have hfault : -Errno.efault ≠ 0 := by decide
  have hone : (1 : Int) ≠ 0 := by decide
  rw [parseL4]
  split
  · rename_i htcp
    have hudp : t.l4proto ≠ ipprotoUdp := by
      rw [htcp]
      decide
    have hicmp : t.l4proto ≠ ipprotoIcmpv6 := by
      rw [htcp]
      decide
    split
    · rename_i hshort
      refine ⟨rfl, rfl, rfl, hinside, fun h => absurd h hfault, fun h => absurd h hfault, fun h => ?_⟩
      rcases h with h | h
      · omega
      · exact absurd h.1 hudp
    · rename_i hfits
      obtain ⟨h, hload⟩ : ∃ h, skb.load t.offset 20 = some h := Skb.load_of_le (by omega) (by omega)
      have hbyte : byteAt h 12 = skb.byte (t.offset + 12) := (Skb.load_spec hload).2.2 12 (by omega)
      have hlt := skb.byte_lt (t.offset + 12)
      have hlen : transportLen skb t.l4proto t.offset = skb.byte (t.offset + 12) / 16 * 4 := if_pos htcp
      rw [hload]
      dsimp only
      rw [hbyte, u32_of_lt (by omega), ← hlen]
      split
      · rename_i hbad
        refine ⟨rfl, rfl, rfl, hinside, fun h => absurd h hinval, fun h => absurd h hinval, fun h => ?_⟩
        rcases h with h | h
        · omega
        · exact absurd h.1 hudp
      · rename_i hgood
        obtain ⟨hdoff, hinside'⟩ := not_or.mp hgood
        exact ⟨rfl, rfl, rfl, not_lt.mp hinside', fun _ _ => ⟨.inl ⟨htcp, not_lt.mp hfits, by omega,
          not_lt.mp hinside'⟩, rfl⟩, fun _ h => absurd h hicmp, fun _ _ => rfl⟩
  rename_i htcp
  split
  · rename_i hudp
    have hicmp : t.l4proto ≠ ipprotoIcmpv6 := by
      rw [hudp]
      decide
    have hlen : transportLen skb t.l4proto t.offset = 8 := if_neg htcp
    split
    · rename_i hshort
      refine ⟨rfl, rfl, rfl, hinside, fun h => absurd h hfault, fun h => absurd h hfault, fun h => ?_⟩
      rcases h with h | h
      · exact absurd h.1 htcp
      · omega
    · rename_i hfits
      obtain ⟨h, hload⟩ : ∃ h, skb.load t.offset 8 = some h := Skb.load_of_le (by omega) (by omega)
      have hfield : be16 h 4 = skb.be16At (t.offset + 4) := Skb.be16_load hload (by omega)
      rw [hload]
      dsimp only
      rw [hfield, u32_of_lt (by omega)]
      split
      · rename_i hbad
        exact ⟨rfl, rfl, rfl, hinside, fun h => absurd h hinval, fun h => absurd h hinval, fun _ hok =>
          absurd (hok hudp) (not_le.mpr hbad)⟩
      · rw [hlen]
        exact ⟨rfl, rfl, rfl, not_lt.mp hfits, fun _ _ => ⟨.inr ⟨hudp, not_lt.mp hfits⟩, rfl⟩,
          fun _ h => absurd h hicmp, fun _ _ => rfl⟩
  rename_i hudp
  have hnone : ¬ TransportHeader skb t.l4proto t.offset t.packetEnd := by
    rintro (h | h)
    · exact htcp h.1
    · exact hudp h.1
  split
  · rename_i hicmp
    split
    · exact ⟨rfl, rfl, rfl, hinside, fun h => absurd h hone, fun h => absurd h hone, fun h => absurd h hnone⟩
    split
    · exact ⟨rfl, rfl, rfl, hinside, fun h => absurd h hfault, fun h => absurd h hfault, fun h => absurd h hnone⟩
    · rename_i hfits
      obtain ⟨h, hload⟩ : ∃ h, skb.load t.offset 8 = some h := Skb.load_of_le (by omega) (by omega)
      rw [hload]
      refine ⟨rfl, rfl, rfl, hinside, fun _ h => ?_, fun _ _ => not_lt.mp hfits, fun h => absurd h hnone⟩
      rcases h with h | h
      · exact absurd h htcp
      · exact absurd h hudp
  · exact ⟨rfl, rfl, rfl, hinside, fun h => absurd h hone, fun h => absurd h hone, fun h => absurd h hnone⟩

end Dae
