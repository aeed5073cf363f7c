import Dae.Tproxy.Parse

/-!
# Recognising uTP

`is_utp` against the wire format of BEP 29: a header of 20 bytes with the timestamp
difference at bytes 8 to 11, followed by a chain of extensions.  The kernel's offsets are
those of the header in bits: it asks for 160 bytes, reads the difference at byte 64 and
looks for the extensions at byte 160.
-/

namespace Dae

open Chained

/-- The payload of a packet. -/
def payloadOf (skb : Skb) (offset packetEnd : Nat) : List UInt8 := (skb.data.take packetEnd).drop offset

/-- The extension behind one of kind 1 to 4 that lies inside the payload: the kind of the
next one comes first, then the length. -/
def utpNext (payload : List UInt8) : Nat × Nat → Option (Nat × Nat)
  | (kind, pos) =>
    if 1 ≤ kind ∧ kind ≤ 4 ∧ pos + 2 ≤ payload.length ∧
        pos + 2 + byteAt payload (pos + 1) ≤ payload.length then
      some (byteAt payload pos, pos + 2 + byteAt payload (pos + 1))
    else none

/-- A chain of `n` extensions, the first of kind `kind`, from byte `pos` on. -/
def UtpChain (payload : List UInt8) (n kind pos : Nat) : Prop :=
  ∃ finish, walk (utpNext payload) n (kind, pos) = some (0, finish)

/-- **A connection start of BEP 29** with fewer extensions than the limit. -/
structure UtpStart (payload : List UInt8) : Prop where
  complete : 20 ≤ payload.length
  kind : byteAt payload 0 / 16 ≤ 4
  version : byteAt payload 0 % 16 = 1
  difference : be32 payload 8 = 0
  chain : ∃ n < utpMaxExtensions, UtpChain payload n (byteAt payload 1) 20

section Payload

variable {skb : Skb} {offset packetEnd : Nat}

theorem length_payloadOf (offset : Nat) (hend : packetEnd ≤ skb.len) :
    (payloadOf skb offset packetEnd).length = packetEnd - offset := by
  have hend : packetEnd ≤ skb.data.length := hend
  rw [payloadOf, List.length_drop, List.length_take, Nat.min_eq_left hend]

theorem byteAt_payloadOf {i : Nat} (hi : offset + i < packetEnd) :
    byteAt (payloadOf skb offset packetEnd) i = skb.byte (offset + i) := by
  rw [payloadOf, Skb.byte, byteAt, byteAt, List.getD_eq_getElem?_getD, List.getElem?_drop,
    List.getElem?_take_of_lt hi, ← List.getD_eq_getElem?_getD]

/-- Bytes of the payload can be loaded. -/
theorem load_payload (hend : packetEnd ≤ skb.len) (pos size : Nat) (hsmall : offset + pos ≤ 2 ^ 30)
    (hfits : offset + pos + size ≤ packetEnd) : ∃ h, skb.load (offset + pos) size = some h ∧
      ∀ i < size, byteAt h i = byteAt (payloadOf skb offset packetEnd) (pos + i) := by
  obtain ⟨h, hload⟩ : ∃ h, skb.load (offset + pos) size = some h :=
    Skb.load_of_le (by omega) (by omega)
  refine ⟨h, hload, fun i hi => ?_⟩
  rw [(Skb.load_spec hload).2.2 i hi, byteAt_payloadOf (by omega), Nat.add_assoc]

variable {kind pos : Nat}

theorem utpChain_zero {payload : List UInt8} : UtpChain payload 0 kind pos ↔ kind = 0 := by
  constructor
  · rintro ⟨finish, h⟩
    exact (Prod.mk.inj (Option.some.inj h)).1
  · rintro rfl
    exact ⟨pos, rfl⟩

theorem utpChain_succ {payload : List UInt8} {n : Nat} :
    UtpChain payload (n + 1) kind pos ↔ 1 ≤ kind ∧ kind ≤ 4 ∧ pos + 2 ≤ payload.length ∧
      pos + 2 + byteAt payload (pos + 1) ≤ payload.length ∧
      UtpChain payload n (byteAt payload pos) (pos + 2 + byteAt payload (pos + 1)) := by
  rw [UtpChain, walk, utpNext]
  split
  · rename_i h
    exact ⟨fun hchain => ⟨h.1, h.2.1, h.2.2.1, h.2.2.2, hchain⟩, fun hchain => hchain.2.2.2.2⟩
  · rename_i h
    constructor
    · rintro ⟨_, hnone⟩
      cases hnone
    · intro hchain
      exact absurd ⟨hchain.1, hchain.2.1, hchain.2.2.1, hchain.2.2.2.1⟩ h

/-- **The loop over the extensions** accepts the chains that are short enough. -/
theorem isUtpLoop_iff (hend : packetEnd ≤ skb.len) {k : Nat}
    (hsmall : offset + pos + 257 * k ≤ 2 ^ 30) (hinside : offset + pos ≤ packetEnd) :
    isUtpLoop skb.load packetEnd k kind (offset + pos) = true ↔
      ∃ n < k, UtpChain (payloadOf skb offset packetEnd) n kind pos := by
  have hlength := length_payloadOf offset hend
  induction k generalizing kind pos with
  | zero =>
    rw [isUtpLoop]
    exact ⟨fun h => absurd h Bool.false_ne_true, fun ⟨n, hn, _⟩ => absurd hn (Nat.not_lt_zero n)⟩
  | succ k ih =>
    rw [isUtpLoop]
    by_cases hzero : kind = 0
    · rw [if_pos hzero]
      exact ⟨fun _ => ⟨0, Nat.succ_pos k, utpChain_zero.mpr hzero⟩, fun _ => rfl⟩
    rw [if_neg hzero]
    -- a longer chain starts with an extension of kind 1 to 4
    have hstart : (∃ n < k + 1, UtpChain (payloadOf skb offset packetEnd) n kind pos) ↔
        ∃ n < k, UtpChain (payloadOf skb offset packetEnd) (n + 1) kind pos := by
      constructor
      · rintro ⟨n, hn, hchain⟩
        cases n with
        | zero => exact absurd (utpChain_zero.mp hchain) hzero
        | succ n => exact ⟨n, by omega, hchain⟩
      · rintro ⟨n, hn, hchain⟩
        exact ⟨n + 1, by omega, hchain⟩
    rw [hstart]
    clear hstart
    simp only [utpChain_succ]
    by_cases hkind : 4 < kind
    · rw [if_pos hkind]
      refine ⟨fun h => absurd h Bool.false_ne_true, fun ⟨n, _, hchain⟩ => ?_⟩
      exact absurd hchain.2.1 (not_le.mpr hkind)
    rw [if_neg hkind]
    by_cases hfits : offset + pos + 2 ≤ packetEnd
    · obtain ⟨h, hload, hbyte⟩ := load_payload hend pos 2 (by omega) hfits
      have hlt : byteAt (payloadOf skb offset packetEnd) (pos + 1) < 2 ^ 8 := UInt8.toNat_lt _
      rw [if_neg (by omega), hload]
      dsimp only
      rw [hbyte 0 (by omega), hbyte 1 (by omega), Nat.add_zero]
      by_cases hlen : packetEnd - (offset + pos) < byteAt (payloadOf skb offset packetEnd) (pos + 1) + 2
      · rw [if_pos hlen]
        refine ⟨fun h => absurd h Bool.false_ne_true, fun ⟨n, _, hchain⟩ => ?_⟩
        have := hchain.2.2.2.1
        omega
      · have hmove : u32 (offset + pos + (byteAt (payloadOf skb offset packetEnd) (pos + 1) + 2)) =
            offset + (pos + 2 + byteAt (payloadOf skb offset packetEnd) (pos + 1)) := by
          rw [u32_of_lt (by omega)]
          omega
        have hrest := @ih (byteAt (payloadOf skb offset packetEnd) pos)
          (pos + 2 + byteAt (payloadOf skb offset packetEnd) (pos + 1)) (by omega) (by omega)
        rw [if_neg hlen, hmove]
        refine hrest.trans ?_
        constructor
        · rintro ⟨n, hn, hchain⟩
          exact ⟨n, hn, by omega, by omega, by omega, by omega, hchain⟩
        · rintro ⟨n, hn, -, -, -, -, hchain⟩
          exact ⟨n, hn, hchain⟩
    · rw [if_pos (by omega)]
      refine ⟨fun h => absurd h Bool.false_ne_true, fun ⟨n, _, hchain⟩ => ?_⟩
      have := hchain.2.2.1
      omega

/-- What `is_utp` asks of a UDP payload. -/
theorem isUtp_iff (hend : packetEnd ≤ skb.len) (hsmall : offset ≤ 2 ^ 16) (hinside : offset ≤ packetEnd) :
    isUtp skb.load ipprotoUdp offset packetEnd = true ↔
      160 ≤ (payloadOf skb offset packetEnd).length ∧
      byteAt (payloadOf skb offset packetEnd) 0 % 16 = 1 ∧
      byteAt (payloadOf skb offset packetEnd) 0 / 16 ≤ 4 ∧
      be32 (payloadOf skb offset packetEnd) 64 = 0 ∧
      ∃ n < utpMaxExtensions, UtpChain (payloadOf skb offset packetEnd) n
        (byteAt (payloadOf skb offset packetEnd) 1) 160 := by
  have hlength := length_payloadOf offset hend
  rw [isUtp]
  by_cases hshort : packetEnd - offset < 160
  · rw [if_pos (.inr (.inr hshort))]
    refine ⟨fun h => absurd h Bool.false_ne_true, fun h => ?_⟩
    omega
  rw [if_neg (by rintro (h | h | h); exacts [h rfl, by omega, hshort h])]
  obtain ⟨h, hload, hbyte⟩ := @load_payload skb offset packetEnd hend 0 2 (by omega) (by omega)
  obtain ⟨d, hload', hbyte'⟩ := @load_payload skb offset packetEnd hend 64 4 (by omega) (by omega)
  have hdifference : be32 d 0 = be32 (payloadOf skb offset packetEnd) 64 := by
    rw [be32, be32, be16, be16, be16, be16, hbyte' 0 (by omega), hbyte' 1 (by omega), hbyte' 2 (by omega),
      hbyte' 3 (by omega)]
  have hloop : isUtpLoop skb.load packetEnd utpMaxExtensions (byteAt (payloadOf skb offset packetEnd) 1)
      (offset + 160) = true ↔ _ :=
    isUtpLoop_iff hend (by show offset + 160 + 257 * 4 ≤ _; omega) (by omega)
  rw [Nat.add_zero] at hload
  rw [hload]
  dsimp only
  rw [hbyte 0 (by omega), hbyte 1 (by omega), u32_of_lt (by omega : offset + 64 < 2 ^ 32), hload']
  dsimp only
  rw [hdifference, u32_of_lt (by omega : offset + 160 < 2 ^ 32), Nat.zero_add, Nat.zero_add]
  split
  · rename_i hbad
    refine ⟨fun h => absurd h Bool.false_ne_true, fun h => ?_⟩
    omega
  split
  · rename_i hbad
    exact ⟨fun h => absurd h Bool.false_ne_true, fun h => absurd h.2.2.2.1 hbad⟩
  · rename_i hgood hzero
    rw [hloop]
    constructor
    · intro hchain
      exact ⟨by omega, by omega, by omega, not_not.mp hzero, hchain⟩
    · rintro ⟨-, -, -, -, hchain⟩
      exact hchain

end Payload

/-! ### Connection starts -/

theorem linkPayload_le {skb : Skb} {linkHLen hProto l3 : Nat}
    (h : linkPayload skb linkHLen = some (hProto, l3)) : l3 ≤ 14 := (parseTransport_some h).1

/-- The transport header stands near the start of the packet. -/
theorem Reaches.place_le {skb : Skb} {linkHLen n proto place packetEnd : Nat}
    (h : Reaches skb linkHLen n proto place packetEnd) : place ≤ 74 + 2048 * n := by
  cases h with
  | v4 hlink =>
    have := linkPayload_le hlink
    rw [ipv4HeaderLen]
    omega
  | @v6 l3 m _ _ hlink _ hwalk =>
    have hl3 := linkPayload_le hlink
    have hwalked : ∀ {m : Nat} {start : Nat × Nat} {kind pos : Nat},
        walk (nextHeader skb (ipv6End skb l3)) m start = some (kind, pos) → pos ≤ start.2 + 2048 * m := by
      intro m
      induction m with
      | zero =>
        intro start kind pos h
        cases h
        exact le_rfl
      | succ m ih =>
        intro start kind pos h
        obtain ⟨next, hnext, h⟩ := Option.bind_eq_some_iff.mp h
        have := (nextHeader_le hnext).2
        have := ih h
        omega
    have := hwalked hwalk
    rw [ipv6Start] at this
    omega

/-- The loop reads only the bytes from an offset to the end of the packet. -/
theorem isUtpLoop_congr {load load' : Loader} {offset packetEnd : Nat} (hend : packetEnd < 2 ^ 32)
    (hagree : ∀ pos size, offset ≤ pos → pos + size ≤ packetEnd → load pos size = load' pos size)
    {k kind pos : Nat} (hpos : offset ≤ pos) :
    isUtpLoop load packetEnd k kind pos = isUtpLoop load' packetEnd k kind pos := by
  induction k generalizing kind pos with
  | zero => rfl
  | succ k ih =>
    rw [isUtpLoop, isUtpLoop]
    split
    · rfl
    split
    · rfl
    split
    · rfl
    rename_i hguard
    rw [hagree pos 2 hpos (by omega)]
    cases load' pos 2 with
    | none => rfl
    | some header =>
      dsimp only
      split
      · rfl
      · rw [u32_of_lt (by omega)]
        exact ih (by omega)

/-- **Which connection starts are recognised.**  A UDP packet whose payload is a connection
start sets the uTP bit exactly when the payload has 160 bytes, is zero at bytes 64 to 67 and
continues with its extensions at byte 160.  And whatever the packet, only bytes from the
payload offset to the end of the packet are read. -/
theorem isUtp_start (skb : Skb) (linkHLen : Nat) (t : Transport) :
    (parseTransport skb linkHLen = (0, t) →
      t.l4proto = ipprotoUdp → UtpStart (payloadOf skb t.offset t.packetEnd) →
      (l4protoTypeOf skb.load t.l4proto t.offset t.packetEnd &&& l4ProtoUTP ≠ 0 ↔
        isUtp skb.load t.l4proto t.offset t.packetEnd = true) ∧
      (isUtp skb.load t.l4proto t.offset t.packetEnd = true ↔
        160 ≤ (payloadOf skb t.offset t.packetEnd).length ∧
        be32 (payloadOf skb t.offset t.packetEnd) 64 = 0 ∧
        ∃ n < utpMaxExtensions, UtpChain (payloadOf skb t.offset t.packetEnd) n
          (byteAt (payloadOf skb t.offset t.packetEnd) 1) 160)) ∧
    ∀ (load load' : Loader) (l4proto offset packetEnd : Nat), packetEnd < 2 ^ 32 →
      (∀ pos size, offset ≤ pos → pos + size ≤ packetEnd → load pos size = load' pos size) →
      isUtp load l4proto offset packetEnd = isUtp load' l4proto offset packetEnd := by
  constructor
  · intro hparse hudp hstart
    have hfinds := parseTransport_finds skb linkHLen
    rw [hparse] at hfinds
    obtain ⟨n, hn, place, hreaches, -, hoffset⟩ := hfinds.sound rfl (.inr hudp)
    have hplace := hreaches.place_le
    have hlen : transportLen skb t.l4proto place = 8 := by
      rw [transportLen, hudp]
      rfl
    have hsmall : t.offset ≤ 2 ^ 16 := by
      have hn : n ≤ 8 := hn
      have hoffset : t.offset = place + 8 := hlen ▸ hoffset
      omega
    rw [hudp]
    constructor
    · rw [l4protoTypeOf, if_neg (by decide)]
      by_cases hutp : isUtp skb.load ipprotoUdp t.offset t.packetEnd = true
      · rw [if_pos ⟨rfl, hutp⟩]
        exact ⟨fun _ => hutp, fun _ => by decide⟩
      · rw [if_neg (fun h => hutp h.2)]
        exact ⟨fun h => absurd (by decide) h, fun h => absurd h hutp⟩
    · rw [isUtp_iff hfinds.packetEnd hsmall hfinds.offset]
      exact ⟨fun h => ⟨h.1, h.2.2.2⟩, fun h => ⟨h.1, hstart.version, hstart.kind, h.2⟩⟩
  · intro load load' l4proto offset packetEnd hend hagree
    rw [isUtp, isUtp]
    split
    · rfl
    rename_i hguard
    obtain ⟨-, hinside, hlong⟩ := by simpa only [not_or, not_not, not_lt] using hguard
    rw [hagree offset 2 le_rfl (by omega), u32_of_lt (by omega : offset + 64 < 2 ^ 32),
      hagree (offset + 64) 4 (by omega) (by omega), u32_of_lt (by omega : offset + 160 < 2 ^ 32)]
    simp only [isUtpLoop_congr hend hagree (by omega : offset ≤ offset + 160)]

/-- A UDP packet over IPv4, without an Ethernet header, whose payload is a uTP header
(`ST_SYN`, version 1, no extension) and so many zeros. -/
def synPacket (zeros : Fin 200) : Skb where
  data := [0x45, 0, 0, UInt8.ofNat (48 + zeros), 0, 0, 0, 0, 64, 17, 0, 0, 10, 0, 0, 1, 10, 0, 0, 2,
    0x1a, 0xe1, 0x1a, 0xe1, 0, UInt8.ofNat (28 + zeros), 0, 0] ++
    [0x41, 0] ++ List.replicate 18 0 ++ List.replicate zeros 0
  protocol := ethPIp
  gsoSize := 0
  small := by
    simp only [List.length_append, List.length_cons, List.length_nil, List.length_replicate]
    omega

theorem eq_of_fst_eq_zero {parsed : Int × Transport} (h : parsed.1 = 0) : parsed = (0, parsed.2) :=
  Prod.ext h rfl

theorem isUtp_start_padded : ∃ t, parseTransport (synPacket 140) 0 = (0, t) ∧
    l4protoTypeOf (synPacket 140).load t.l4proto t.offset t.packetEnd &&& l4ProtoUTP ≠ 0 := by
  have hparse : parseTransport (synPacket 140) 0 = (0, (parseTransport (synPacket 140) 0).2) :=
    eq_of_fst_eq_zero (by decide +kernel)
  have hoffset : (parseTransport (synPacket 140) 0).2.offset = 28 := by decide +kernel
  have hend : (parseTransport (synPacket 140) 0).2.packetEnd = 188 := by decide +kernel
  obtain ⟨hbit, hutp⟩ := (isUtp_start (synPacket 140) 0 _).1 hparse (by decide +kernel) (by
    rw [hoffset, hend]
    exact ⟨by decide +kernel, by decide +kernel, by decide +kernel, by decide +kernel, 0, by decide, 20,
      by decide +kernel⟩)
  refine ⟨_, hparse, hbit.mpr (hutp.mpr ?_)⟩
  rw [hoffset, hend]
  exact ⟨by decide +kernel, by decide +kernel, 0, by decide, 160, by decide +kernel⟩

/-- **A header alone is missed**: the shortest connection start is valid and not recognised. -/
theorem bare_start_missed : ∃ t, parseTransport (synPacket 0) 0 = (0, t) ∧
    t.l4proto = ipprotoUdp ∧ UtpStart (payloadOf (synPacket 0) t.offset t.packetEnd) ∧
    isUtp (synPacket 0).load t.l4proto t.offset t.packetEnd = false ∧
    l4protoTypeOf (synPacket 0).load t.l4proto t.offset t.packetEnd = l4ProtoUDP := by
  have hparse : parseTransport (synPacket 0) 0 = (0, (parseTransport (synPacket 0) 0).2) :=
    eq_of_fst_eq_zero (by decide +kernel)
  have hoffset : (parseTransport (synPacket 0) 0).2.offset = 28 := by decide +kernel
  have hend : (parseTransport (synPacket 0) 0).2.packetEnd = 48 := by decide +kernel
  refine ⟨_, hparse, by decide +kernel, ?_, by decide +kernel, by decide +kernel⟩
  rw [hoffset, hend]
  exact ⟨by decide +kernel, by decide +kernel, by decide +kernel, by decide +kernel, 0, by decide, 20,
    by decide +kernel⟩

end Dae
