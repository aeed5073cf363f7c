import Dae.Tproxy.Headers

/-!
# Parsing finds the transport header

`parse_transport` against the reference walk.
-/

namespace Dae

open Chained

theorem parseTransport_none {skb : Skb} {linkHLen : Nat} (h : linkPayload skb linkHLen = none) :
    parseTransport skb linkHLen = (1, { packetEnd := skb.len }) := by
  rw [linkPayload] at h
  split at h
  · rename_i hlink
    split at h
    · cases h
    · rename_i hshort
      have hload : skb.load 0 14 = none := if_neg (fun hfits => hshort (by omega))
      rw [parseTransport]
      simp only [if_pos hlink, hload]
      rfl
  · cases h

theorem parseTransport_some {skb : Skb} {linkHLen hProto l3 : Nat}
    (h : linkPayload skb linkHLen = some (hProto, l3)) : l3 ≤ 14 ∧ l3 ≤ skb.len ∧ ∃ t : Transport,
      t.offset = l3 ∧ t.packetEnd = skb.len ∧ t.fragmentState = .none ∧
      parseTransport skb linkHLen =
        if hProto = ethPIp then behindNetwork skb hProto (parseIpv4 skb t)
        else if hProto = ethPIpv6 then behindNetwork skb hProto (parseIpv6 skb t)
        else (1, t) := by
  rw [linkPayload] at h
  split at h
  · rename_i hlink
    split at h
    · rename_i hfits
      obtain ⟨rfl, rfl⟩ := Prod.mk.inj (Option.some.inj h)
      obtain ⟨header, hload⟩ : ∃ header, skb.load 0 14 = some header :=
        Skb.load_of_le (by omega) (by omega)
      have hfield : be16 header 12 = skb.be16At 12 := Skb.be16_load hload (by omega)
      refine ⟨le_rfl, hfits, { packetEnd := skb.len, ethh := header, offset := 14 }, rfl, rfl, rfl, ?_⟩
      rw [parseTransport]
      simp only [if_pos hlink, hload, Option.map_some, hfield]
    · cases h
  · rename_i hlink
    obtain ⟨rfl, rfl⟩ := Prod.mk.inj (Option.some.inj h)
    refine ⟨Nat.zero_le _, Nat.zero_le _, { packetEnd := skb.len, ethh := List.replicate 12 0 ++
      [UInt8.ofNat (skb.protocol / 2 ^ 8), UInt8.ofNat (skb.protocol % 2 ^ 8)] }, rfl, rfl, rfl, ?_⟩
    rw [parseTransport]
    simp only [if_neg hlink]

/-- What the branches for IPv4 and IPv6 hand to the transport header, or return. -/
theorem behindNetwork_spec {skb : Skb} {hProto : Nat} {network : Int × Transport}
    (hsmall : network.2.offset ≤ 2 ^ 15) (hinside : network.2.offset ≤ network.2.packetEnd)
    (hend : network.2.packetEnd ≤ skb.len) :
    (behindNetwork skb hProto network).2.packetEnd = network.2.packetEnd ∧
    (behindNetwork skb hProto network).2.fragmentState = network.2.fragmentState ∧
    (behindNetwork skb hProto network).2.offset ≤ network.2.packetEnd ∧
    ((behindNetwork skb hProto network).1 = 0 → network.1 = 0 ∧
      (behindNetwork skb hProto network).2.l4proto = network.2.l4proto ∧
      (network.2.l4proto = ipprotoTcp ∨ network.2.l4proto = ipprotoUdp →
        TransportHeader skb network.2.l4proto network.2.offset network.2.packetEnd ∧
        (behindNetwork skb hProto network).2.offset =
          network.2.offset + transportLen skb network.2.l4proto network.2.offset) ∧
      (network.2.l4proto = ipprotoIcmpv6 →
        (behindNetwork skb hProto network).2.offset + 8 ≤ network.2.packetEnd)) ∧
    (network.1 = 0 → TransportHeader skb network.2.l4proto network.2.offset network.2.packetEnd →
      (network.2.l4proto = ipprotoUdp → 8 ≤ skb.be16At (network.2.offset + 4)) →
      (behindNetwork skb hProto network).1 = 0) := by
  rw [behindNetwork]
  split
  · rename_i hzero
    obtain ⟨h₁, h₂, h₃, h₄, h₅, h₆, h₇⟩ := @parseL4_spec skb hProto _ hsmall hinside hend
    exact ⟨h₁, h₂, h₄, fun h => ⟨hzero, h₃, h₅ h, h₆ h⟩, fun _ => h₇⟩
  · rename_i hne
    exact ⟨rfl, rfl, hinside, fun h => absurd h hne, fun h => absurd h hne⟩

/-- The fragment state, as the flags of IPv4 or the first fragment header of IPv6 within
the limit say. -/
structure StateFound (skb : Skb) (linkHLen : Nat) (state : FragmentState) : Prop where
  v4 : ∀ l3, linkPayload skb linkHLen = some (ethPIp, l3) → Ipv4Header skb l3 →
    state = ipv4FragmentState skb l3
  v6 : ∀ l3, linkPayload skb linkHLen = some (ethPIpv6, l3) → Ipv6Header skb l3 →
    (∀ m < ipv6MaxExtensions, ∀ pos,
      FirstFragment skb (ipv6End skb l3) (ipv6Start skb l3) m pos → state = skb.fragmentStateAt pos) ∧
    ((∀ m < ipv6MaxExtensions, ∀ pos,
      ¬ FirstFragment skb (ipv6End skb l3) (ipv6Start skb l3) m pos) → state = .none)

/-- What `parse_transport` finds. -/
structure Finds (skb : Skb) (linkHLen : Nat) (ret : Int) (t : Transport) : Prop where
  offset : t.offset ≤ t.packetEnd
  packetEnd : t.packetEnd ≤ skb.len
  icmp : ret = 0 → t.l4proto = ipprotoIcmpv6 → t.offset + 8 ≤ t.packetEnd
  sound : ret = 0 → t.l4proto = ipprotoTcp ∨ t.l4proto = ipprotoUdp →
    ∃ extensions ≤ ipv6MaxExtensions, ∃ place,
      Reaches skb linkHLen extensions t.l4proto place t.packetEnd ∧
      TransportHeader skb t.l4proto place t.packetEnd ∧
      t.offset = place + transportLen skb t.l4proto place
  state : StateFound skb linkHLen t.fragmentState
  limit : ∀ extensions proto place packetEnd, Reaches skb linkHLen extensions proto place packetEnd →
    ipv6MaxExtensions < extensions → ret ≠ 0
  complete : ∀ extensions proto place packetEnd,
    WellFormedPacket skb linkHLen extensions proto place packetEnd →
    ret = 0 ∧ t.l4proto = proto ∧ t.packetEnd = packetEnd ∧ t.offset = place + transportLen skb proto place

/-- A packet without the header of its network is refused. -/
theorem finds_refused {skb : Skb} {linkHLen : Nat} {ret : Int} {t : Transport} (hret : ret ≠ 0)
    (hoffset : t.offset ≤ t.packetEnd) (hend : t.packetEnd ≤ skb.len)
    (hv4 : ∀ l3, linkPayload skb linkHLen = some (ethPIp, l3) → ¬Ipv4Header skb l3)
    (hv6 : ∀ l3, linkPayload skb linkHLen = some (ethPIpv6, l3) → ¬Ipv6Header skb l3) :
    Finds skb linkHLen ret t where
  offset := hoffset
  packetEnd := hend
  icmp h := absurd h hret
  sound h := absurd h hret
  state := ⟨fun l3 h hh => absurd hh (hv4 l3 h), fun l3 h hh => absurd hh (hv6 l3 h)⟩
  limit _ _ _ _ _ _ := hret
  complete _ _ _ _ hwell := by
    cases hwell.reaches with
    | v4 h hh => exact absurd hh (hv4 _ h)
    | v6 h hh => exact absurd hh (hv6 _ h)

/-- What the branch for a network finds is handed on to the transport header. -/
theorem finds_behind {skb : Skb} {linkHLen hProto : Nat} {network : Int × Transport}
    (hsmall : network.2.offset ≤ 2 ^ 15) (hinside : network.2.offset ≤ network.2.packetEnd)
    (hend : network.2.packetEnd ≤ skb.len)
    (hreaches : network.1 = 0 → ∃ extensions ≤ ipv6MaxExtensions,
      Reaches skb linkHLen extensions network.2.l4proto network.2.offset network.2.packetEnd)
    (hstate : StateFound skb linkHLen network.2.fragmentState)
    (hlimit : ∀ extensions proto place packetEnd,
      Reaches skb linkHLen extensions proto place packetEnd →
      ipv6MaxExtensions < extensions → network.1 ≠ 0)
    (hcomplete : ∀ extensions proto place packetEnd,
      WellFormedPacket skb linkHLen extensions proto place packetEnd → network.1 = 0 ∧
        network.2.l4proto = proto ∧ network.2.offset = place ∧ network.2.packetEnd = packetEnd) :
    Finds skb linkHLen (behindNetwork skb hProto network).1 (behindNetwork skb hProto network).2 := by
  obtain ⟨g₁, g₂, g₃, g₄, g₅⟩ := @behindNetwork_spec skb hProto network hsmall hinside hend
  refine ⟨g₁ ▸ g₃, g₁ ▸ hend, fun hret hproto => ?_, fun hret hproto => ?_, g₂ ▸ hstate, ?_, ?_⟩
  · obtain ⟨-, hl4, -, hicmp⟩ := g₄ hret
    rw [g₁]
    exact hicmp (hl4 ▸ hproto)
  · obtain ⟨hzero, hl4, htransport, -⟩ := g₄ hret
    obtain ⟨extensions, hfew, hreach⟩ := hreaches hzero
    obtain ⟨htransport, hmoved⟩ := htransport (hl4 ▸ hproto)
    rw [hl4, g₁, hmoved]
    exact ⟨extensions, hfew, _, hreach, htransport, rfl⟩
  · intro extensions proto place packetEnd hreach hmany hret
    exact hlimit _ _ _ _ hreach hmany (g₄ hret).1
  · intro extensions proto place packetEnd hwell
    obtain ⟨hzero, rfl, rfl, rfl⟩ := hcomplete _ _ _ _ hwell
    have hret := g₅ hzero hwell.header hwell.udpLen
    obtain ⟨-, hl4, hmoved, -⟩ := g₄ hret
    exact ⟨hret, hl4, g₁, (hmoved (hwell.header.imp And.left And.left)).2⟩

theorem finds_ipv4 {skb : Skb} {linkHLen : Nat} {t : Transport}
    (hlink : linkPayload skb linkHLen = some (ethPIp, t.offset)) (hl3 : t.offset ≤ 14)
    (hlen : t.offset ≤ skb.len) (hend : t.packetEnd = skb.len) (hstate : t.fragmentState = .none) :
    Finds skb linkHLen (behindNetwork skb ethPIp (parseIpv4 skb t)).1
      (behindNetwork skb ethPIp (parseIpv4 skb t)).2 := by
  obtain ⟨hno, hyes⟩ := @parseIpv4_spec skb t hl3 hstate
  have hsame : ∀ l3, linkPayload skb linkHLen = some (ethPIp, l3) → l3 = t.offset := by
    intro l3 h
    rw [hlink] at h
    exact (Prod.mk.inj (Option.some.inj h)).2.symm
  have hnov6 : ∀ l3, linkPayload skb linkHLen ≠ some (ethPIpv6, l3) := by
    intro l3 h
    rw [hlink] at h
    cases h
  by_cases hheader : Ipv4Header skb t.offset
  · obtain ⟨h₁, h₂, h₃, h₄, h₅⟩ := hyes hheader
    have hplace : (parseIpv4 skb t).2.offset ≤ 2 ^ 15 ∧
        (parseIpv4 skb t).2.offset ≤ t.offset + ipv4Length skb t.offset := by
      have hsize : ipv4HeaderLen skb t.offset ≤ 60 := by
        rw [ipv4HeaderLen]
        omega
      have hlength := hheader.length
      by_cases hzero : (parseIpv4 skb t).1 = 0
      · rw [(h₄ hzero).1]
        omega
      · rw [h₃ hzero]
        omega
    refine finds_behind hplace.1 (h₁ ▸ hplace.2) (h₁ ▸ hheader.inside) (fun hzero => ?_)
      ⟨fun l3 h _ => ?_, fun l3 h => absurd h (hnov6 l3)⟩ ?_ ?_
    · obtain ⟨hoff, hprotocol, hfirst⟩ := h₄ hzero
      rw [hoff, hprotocol, h₁]
      exact ⟨0, Nat.zero_le _, .v4 hlink hheader hfirst⟩
    · rw [hsame l3 h, h₂]
    · intro extensions proto place packetEnd hreaches hlimit
      cases hreaches with
      | v4 => exact absurd hlimit (Nat.not_lt_zero _)
      | v6 h => exact absurd h (hnov6 _)
    · rintro extensions proto place packetEnd ⟨hreaches, -, -, -, hflags, -, -⟩
      cases hreaches with
      | v4 h _ hfirst =>
        obtain rfl := hsame _ h
        have hzero := h₅ (hflags _ hlink) hfirst
        obtain ⟨hoff, hprotocol, -⟩ := h₄ hzero
        exact ⟨hzero, hprotocol, hoff, h₁⟩
      | v6 h => exact absurd h (hnov6 _)
  · obtain ⟨h₁, h₂, h₃⟩ := hno hheader
    have hbehind : behindNetwork skb ethPIp (parseIpv4 skb t) = parseIpv4 skb t := if_neg h₁
    rw [hbehind]
    exact finds_refused h₁ (by rw [h₂, h₃, hend]; exact hlen) (by rw [h₃, hend])
      (fun l3 h => hsame l3 h ▸ hheader) fun l3 h => absurd h (hnov6 l3)

theorem finds_ipv6 {skb : Skb} {linkHLen : Nat} {t : Transport}
    (hlink : linkPayload skb linkHLen = some (ethPIpv6, t.offset)) (hl3 : t.offset ≤ 14)
    (hlen : t.offset ≤ skb.len) (hend : t.packetEnd = skb.len) :
    Finds skb linkHLen (behindNetwork skb ethPIpv6 (parseIpv6 skb t)).1
      (behindNetwork skb ethPIpv6 (parseIpv6 skb t)).2 := by
  obtain ⟨hno, hyes⟩ := @parseIpv6_spec skb t hl3
  have hsame : ∀ l3, linkPayload skb linkHLen = some (ethPIpv6, l3) → l3 = t.offset := by
    intro l3 h
    rw [hlink] at h
    exact (Prod.mk.inj (Option.some.inj h)).2.symm
  have hnov4 : ∀ l3, linkPayload skb linkHLen ≠ some (ethPIp, l3) := by
    intro l3 h
    rw [hlink] at h
    cases h
  by_cases hheader : Ipv6Header skb t.offset
  · obtain ⟨h₁, h₂, h₃, h₄, h₅, h₆⟩ := hyes hheader
    have hloop := @ipv6ExtLoop_state skb (ipv6End skb t.offset) hheader.inside ipv6MaxExtensions
      (ipv6ExtStart skb t.offset) (by show t.offset + 40 + 2048 * 8 ≤ 2 ^ 30; omega) rfl rfl
    have hunique : ∀ extensions proto place, (parseIpv6 skb t).1 = 0 →
        walk (nextHeader skb (ipv6End skb t.offset)) extensions (ipv6Start skb t.offset) =
          some (proto, place) → proto ∉ extensionKinds → extensions ≤ ipv6MaxExtensions := by
      intro extensions proto place hzero hwalk hproto
      obtain ⟨hl4, m, hm, hwalk'⟩ := h₅ hzero
      have hstop : ∀ kind pos, kind ∉ extensionKinds →
          nextHeader skb (ipv6End skb t.offset) (kind, pos) = none :=
        fun kind pos hkind => if_neg fun h => hkind h.1
      rw [(walk_unique hwalk (hstop _ _ hproto) hwalk' (hstop _ _ hl4)).1]
      exact hm
    refine finds_behind h₃ (h₁ ▸ h₂) (h₁ ▸ hheader.inside) (fun hzero => ?_)
      ⟨fun l3 h => absurd h (hnov4 l3), fun l3 h _ => ?_⟩ ?_ ?_
    · obtain ⟨hnot, m, hm, hwalk⟩ := h₅ hzero
      rw [h₁]
      exact ⟨m, hm, .v6 hlink hheader hwalk hnot⟩
    · rw [hsame l3 h, h₄]
      rcases hloop with ⟨m, hm, pos, hfirst, hstate⟩ | ⟨hnone, hstate⟩
      · refine ⟨fun m' _ pos' hfirst' => ?_, fun hnone => absurd hfirst (hnone m hm pos)⟩
        rw [hstate, (hfirst.unique hfirst').2]
      · exact ⟨fun m hm pos hfirst => absurd hfirst (hnone m hm pos), fun _ => hstate⟩
    · intro extensions proto place packetEnd hreaches hlimit hzero
      cases hreaches with
      | v4 h => exact absurd h (hnov4 _)
      | v6 h _ hwalk hproto =>
        obtain rfl := hsame _ h
        exact absurd (hunique _ _ _ hzero hwalk hproto) (not_le.mpr hlimit)
    · rintro extensions proto place packetEnd ⟨hreaches, hfew, -, -, -, htidy, hbig⟩
      cases hreaches with
      | v4 h => exact absurd h (hnov4 _)
      | v6 h _ hwalk hproto =>
        obtain rfl := hsame _ h
        obtain ⟨hzero, hprotocol, hoff⟩ := h₆ extensions hfew proto place hwalk hproto
          (htidy _ hlink) (hbig _ hlink)
        exact ⟨hzero, hprotocol, hoff, h₁⟩
  · obtain ⟨h₁, h₂, h₃⟩ := hno hheader
    have hbehind : behindNetwork skb ethPIpv6 (parseIpv6 skb t) = parseIpv6 skb t := if_neg h₁
    rw [hbehind]
    exact finds_refused h₁ (by rw [h₂, h₃, hend]; exact hlen) (by rw [h₃, hend])
      (fun l3 h => absurd h (hnov4 l3)) fun l3 h => hsame l3 h ▸ hheader

/-- **Packet parsing finds the real transport header.**  For every packet, with or without
an Ethernet header: the offset never passes the end of the packet, which lies inside the
buffer; TCP and UDP are accepted only where the reference walk reaches them with a complete
header; the fragment state is what the flags or the first fragment header within the limit
say; no packet with more extension headers than the limit is accepted, and every well-formed
packet is. -/
theorem parseTransport_finds (skb : Skb) (linkHLen : Nat) :
    Finds skb linkHLen (parseTransport skb linkHLen).1 (parseTransport skb linkHLen).2 := by
  cases hlink : linkPayload skb linkHLen with
  | none =>
    rw [parseTransport_none hlink]
    refine finds_refused Int.one_ne_zero (Nat.zero_le _) le_rfl ?_ ?_
    · intro l3 h
      rw [hlink] at h
      cases h
    · intro l3 h
      rw [hlink] at h
      cases h
  | some payload =>
    obtain ⟨hProto, l3⟩ := payload
    obtain ⟨hl3, hlen, t, rfl, hend, hstate, hparse⟩ := parseTransport_some hlink
    rw [hparse]
    by_cases hip : hProto = ethPIp
    · rw [if_pos hip]
      subst hip
      exact finds_ipv4 hlink hl3 hlen hend hstate
    by_cases hip6 : hProto = ethPIpv6
    · rw [if_neg hip, if_pos hip6]
      subst hip6
      exact finds_ipv6 hlink hl3 hlen hend
    · rw [if_neg hip, if_neg hip6]
      have hother : ∀ proto l3, proto = ethPIp ∨ proto = ethPIpv6 →
          linkPayload skb linkHLen ≠ some (proto, l3) := by
        intro proto l3 hproto h
        rw [hlink] at h
        obtain ⟨rfl, -⟩ := Prod.mk.inj (Option.some.inj h)
        rcases hproto with h | h
        · exact hip h
        · exact hip6 h
      exact finds_refused Int.one_ne_zero (by rw [hend]; exact hlen) hend.le
        (fun l3 h => absurd h (hother _ _ (.inl rfl))) fun l3 h => absurd h (hother _ _ (.inr rfl))

/-- An IPv6 packet with eight destination-options headers before a fragment header. -/
def manyHeaders : Skb where
  data := [0x60, 0, 0, 0, 0, 72, 60, 64] ++ List.replicate 32 0 ++
    (List.replicate 7 [60, 0, 1, 4, 0, 0, 0, 0]).flatten ++ [44, 0, 1, 4, 0, 0, 0, 0] ++
    [17, 0, 0, 8, 0, 0, 0, 1]
  protocol := ethPIpv6
  gsoSize := 0
  small := by decide

/-- The walk reaches the header of a later fragment that `parse_transport` does not look at. -/
theorem fragment_beyond_limit :
    FirstFragment manyHeaders (ipv6End manyHeaders 0) (ipv6Start manyHeaders 0) 8 104 ∧
      manyHeaders.fragmentStateAt 104 = .nonfirst ∧
      (parseTransport manyHeaders 0).2.fragmentState = .none := by
  refine ⟨⟨by decide, by decide, ?_⟩, by decide, by decide⟩
  intro j hj p hfragment
  have hkind : ∀ j < 8, (walk (nextHeader manyHeaders (ipv6End manyHeaders 0)) j
      (ipv6Start manyHeaders 0)).map Prod.fst = some 60 := by decide
  have := hkind j hj
  rw [hfragment] at this
  cases this

end Dae
