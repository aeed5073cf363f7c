import Dae.Lib.Chain
import Dae.Tproxy.Packet

/-!
# Walking over IPv6 extension headers

`nextHeader` is the walk of RFC 8200: from an extension header that lies inside the packet
to the header behind it.  The loop around `ipv6_ext_step` makes this walk, up to its limit
and with a stricter reading of fragment headers.
-/

namespace Dae

open Chained

/-! ### Bytes and masks -/

namespace Skb

def byte (skb : Skb) (i : Nat) : Nat := byteAt skb.data i

def be16At (skb : Skb) (i : Nat) : Nat := skb.byte i * 2 ^ 8 + skb.byte (i + 1)

def be32At (skb : Skb) (i : Nat) : Nat := skb.be16At i * 2 ^ 16 + skb.be16At (i + 2)

theorem byte_lt (skb : Skb) (i : Nat) : skb.byte i < 2 ^ 8 := UInt8.toNat_lt _

theorem be16At_lt (skb : Skb) (i : Nat) : skb.be16At i < 2 ^ 16 := by
  have h₁ := skb.byte_lt i
  have h₂ := skb.byte_lt (i + 1)
  rw [be16At]
  omega

/-- The loaded bytes are those of the packet. -/
theorem load_spec {skb : Skb} {offset size : Nat} {h : List UInt8}
    (hload : skb.load offset size = some h) :
    offset ≤ 0x7fffffff ∧ offset + size ≤ skb.len ∧ ∀ i < size, byteAt h i = skb.byte (offset + i) := by
  rw [load] at hload
  split at hload
  · rename_i hfits
    cases hload
    refine ⟨hfits.1, hfits.2, fun i hi => ?_⟩
    rw [byte, byteAt, byteAt, List.getD_eq_getElem?_getD, List.getElem?_take_of_lt hi,
      List.getElem?_drop, ← List.getD_eq_getElem?_getD]
  · cases hload

theorem load_of_le {skb : Skb} {offset size : Nat} (hoffset : offset ≤ 0x7fffffff)
    (hsize : offset + size ≤ skb.len) : ∃ h, skb.load offset size = some h :=
  ⟨_, if_pos ⟨hoffset, hsize⟩⟩

/-- Two bytes of a loaded header. -/
theorem be16_load {skb : Skb} {offset size i : Nat} {h : List UInt8}
    (hload : skb.load offset size = some h) (hi : i + 1 < size) :
    be16 h i = skb.be16At (offset + i) := by
  obtain ⟨-, -, hbytes⟩ := load_spec hload
  rw [be16, hbytes i (by omega), hbytes (i + 1) hi]
  rfl

end Skb

theorem u32_of_lt {n : Nat} (h : n < 2 ^ 32) : u32 n = n := Nat.mod_eq_of_lt h

/-- Masking with `n` ones that stand behind `k` zeros. -/
theorem and_mask (x n k : Nat) : x &&& (2 ^ n - 1) * 2 ^ k = x / 2 ^ k % 2 ^ n * 2 ^ k := by
  apply Nat.eq_of_testBit_eq
  intro i
  rw [Nat.testBit_and, Nat.testBit_mul_two_pow, Nat.testBit_mul_two_pow]
  by_cases hi : k ≤ i
  · rw [Nat.testBit_two_pow_sub_one, Nat.testBit_mod_two_pow, Nat.testBit_div_two_pow,
      Nat.sub_add_cancel hi]
    simp [hi, Bool.and_comm]
  · simp [hi]

theorem and_mask_eq_zero {x mask : Nat} (n k : Nat) (hmask : mask = (2 ^ n - 1) * 2 ^ k) :
    x &&& mask = 0 ↔ x / 2 ^ k % 2 ^ n = 0 := by
  have hpos := Nat.two_pow_pos k
  rw [hmask, and_mask, Nat.mul_eq_zero]
  exact or_iff_left (by omega)

theorem and_low_eq_zero {x mask : Nat} (n : Nat) (hmask : mask = 2 ^ n - 1) :
    x &&& mask = 0 ↔ x % 2 ^ n = 0 := by
  rw [hmask, Nat.and_two_pow_sub_one_eq_mod]

/-! ### The walk over IPv6 extension headers -/

/-- The extension headers of RFC 8200 that can be walked over: hop-by-hop options, routing,
fragment, destination options and authentication. -/
def extensionKinds : List Nat := [0, 43, 44, 60, 51]

theorem isExtensionHeader_iff (kind : Nat) : isExtensionHeader kind = true ↔ kind ∈ extensionKinds := by
  simp only [isExtensionHeader, Bool.or_eq_true, decide_eq_true_eq, or_assoc, extensionKinds,
    List.mem_cons, List.not_mem_nil, or_false]
  rfl

/-- The length of an extension header, from its kind and its second byte. -/
def extensionLen (kind len : Nat) : Nat :=
  if kind = ipprotoFragment then 8 else if kind = ipprotoAh then (len + 2) * 4 else (len + 1) * 8

/-- The header behind an extension header that lies inside the packet.  Nothing follows the
header of a fragment that is not the first, and an authentication header has more than its
two fixed words. -/
def nextHeader (skb : Skb) (packetEnd : Nat) : Nat × Nat → Option (Nat × Nat)
  | (kind, pos) =>
    let len := extensionLen kind (skb.byte (pos + 1))
    if kind ∈ extensionKinds ∧ pos + 2 ≤ packetEnd ∧ pos + len ≤ packetEnd ∧
        (kind = ipprotoFragment → skb.be16At (pos + 2) / 8 = 0) ∧
        (kind = ipprotoAh → 1 ≤ skb.byte (pos + 1)) then
      some (skb.byte pos, pos + len)
    else none

/-- What the offset and the more-fragments flag say. -/
def fragmentStateOf (offset more : Nat) : FragmentState :=
  if offset ≠ 0 then .nonfirst else if more ≠ 0 then .first else .none

/-- What a fragment header says. -/
def Skb.fragmentStateAt (skb : Skb) (pos : Nat) : FragmentState :=
  fragmentStateOf (skb.be16At (pos + 2) / 8) (skb.be16At (pos + 2) % 2)

theorem extensionLen_le {kind len : Nat} (h : len < 2 ^ 8) : extensionLen kind len ≤ 2048 := by
  unfold extensionLen
  split
  · omega
  · split <;> omega

section Step

variable {skb : Skb} {packetEnd : Nat} {ctx ctx' : Ipv6ExtCtx}

/-- The fragment header: its two halves, by the bits of the field. -/
theorem ipv6FragmentStep_spec (ctx : Ipv6ExtCtx) (hend : packetEnd ≤ skb.len) (hsmall : ctx.offset ≤ 2 ^ 30)
    (hseen : ctx.seenFragment = false) (hstate : ctx.fragmentState = .none)
    (hfits : ctx.offset + 8 ≤ packetEnd) :
    ipv6FragmentStep skb.load packetEnd ctx =
      let field := skb.be16At (ctx.offset + 2)
      let seen := { ctx with seenFragment := true, fragmentState := skb.fragmentStateAt ctx.offset }
      if field / 2 % 4 ≠ 0 then (true, { seen with result := -Errno.einval })
      else if field % 2 ≠ 0 ∧ (packetEnd - ctx.offset - 8) % 8 ≠ 0 then (true, { seen with result := -Errno.einval })
      else if field / 8 ≠ 0 then (true, { seen with result := 1 })
      else (false, { seen with offset := ctx.offset + 8 }) := by
  obtain ⟨h, hload⟩ : ∃ h, skb.load (ctx.offset + 2) 2 = some h :=
    Skb.load_of_le (by omega) (by omega)
  have hfield : be16 h 0 = skb.be16At (ctx.offset + 2) := Skb.be16_load hload (by omega)
  have hlt := skb.be16At_lt (ctx.offset + 2)
  have hoffset : skb.be16At (ctx.offset + 2) &&& 0xfff8 = 0 ↔ skb.be16At (ctx.offset + 2) / 8 = 0 := by
    refine (and_mask_eq_zero 13 3 rfl).trans ?_
    omega
  have hmore : skb.be16At (ctx.offset + 2) &&& 1 = 0 ↔ skb.be16At (ctx.offset + 2) % 2 = 0 :=
    and_low_eq_zero 1 rfl
  have hreserved : skb.be16At (ctx.offset + 2) &&& 6 = 0 ↔ skb.be16At (ctx.offset + 2) / 2 % 4 = 0 :=
    and_mask_eq_zero 2 1 rfl
  have haligned : (packetEnd - ctx.offset - 8) &&& 7 = 0 ↔ (packetEnd - ctx.offset - 8) % 8 = 0 :=
    and_low_eq_zero 3 rfl
  rw [ipv6FragmentStep, hseen, if_neg Bool.false_ne_true, if_neg (not_lt.mpr hfits),
    u32_of_lt (by omega : ctx.offset + 2 < 2 ^ 32), hload]
  simp only [hfield, ne_eq, hoffset, hmore, hreserved, Skb.fragmentStateAt, fragmentStateOf]
  by_cases h₁ : skb.be16At (ctx.offset + 2) / 8 = 0
  · by_cases h₂ : skb.be16At (ctx.offset + 2) % 2 = 0
    · simp [h₁, h₂, hstate, u32_of_lt (by omega : ctx.offset + 8 < 2 ^ 32)]
    · simp [h₁, h₂, haligned, u32_of_lt (by omega : ctx.offset + 8 < 2 ^ 32)]
  · simp [h₁, haligned]

/-- Any other header that lies inside the packet is passed over. -/
theorem ipv6OptionStep_spec (ctx : Ipv6ExtCtx) {kind : Nat} (hend : packetEnd ≤ skb.len) (hsmall : ctx.offset ≤ 2 ^ 30)
    (hkind : kind ≠ ipprotoFragment) (hfits : ctx.offset + 2 ≤ packetEnd) :
    ipv6OptionStep skb.load packetEnd kind ctx =
      let len := extensionLen kind (skb.byte (ctx.offset + 1))
      if kind = ipprotoAh ∧ skb.byte (ctx.offset + 1) < 1 then (true, { ctx with result := -Errno.einval })
      else
        let ctx := { ctx with seenAh := ctx.seenAh || decide (kind = ipprotoAh) }
        if packetEnd < ctx.offset + len then (true, { ctx with result := -Errno.efault })
        else (false, { ctx with offset := ctx.offset + len }) := by
  obtain ⟨h, hload⟩ : ∃ h, skb.load (ctx.offset + 1) 1 = some h :=
    Skb.load_of_le (by omega) (by omega)
  have hbyte : byteAt h 0 = skb.byte (ctx.offset + 1) := (Skb.load_spec hload).2.2 0 Nat.one_pos
  have hlen : (if kind = ipprotoAh then (byteAt h 0 + 2) * 4 else (byteAt h 0 + 1) * 8) =
      extensionLen kind (skb.byte (ctx.offset + 1)) := by
    rw [extensionLen, if_neg hkind, hbyte]
  have hle : extensionLen kind (skb.byte (ctx.offset + 1)) ≤ 2048 := extensionLen_le (skb.byte_lt _)
  have hwrap : u32 (ctx.offset + extensionLen kind (skb.byte (ctx.offset + 1))) =
      ctx.offset + extensionLen kind (skb.byte (ctx.offset + 1)) := u32_of_lt (by omega)
  rw [ipv6OptionStep, u32_of_lt (by omega : ctx.offset + 2 < 2 ^ 32), if_neg (not_lt.mpr hfits),
    u32_of_lt (by omega : ctx.offset + 1 < 2 ^ 32), hload]
  simp only [hlen]
  rw [hbyte]
  by_cases hah : kind = ipprotoAh
  · subst hah
    simp [hwrap]
  · simp [hah, hwrap]

/-- No state is recorded before a fragment header is. -/
def Ipv6ExtCtx.Fresh (ctx : Ipv6ExtCtx) : Prop := ctx.seenFragment = false → ctx.fragmentState = .none

/-- A fragment header is the only one, has no reserved bits set, and but for the last
fragment leaves a payload of whole units. -/
def Acceptable (skb : Skb) (packetEnd : Nat) (ctx : Ipv6ExtCtx) : Prop :=
  ctx.nexthdr = ipprotoFragment →
    ctx.seenFragment = false ∧ skb.be16At (ctx.offset + 2) / 2 % 4 = 0 ∧
      (skb.be16At (ctx.offset + 2) % 2 ≠ 0 → (packetEnd - ctx.offset - 8) % 8 = 0)

/-- The context behind a header. -/
def Ipv6ExtCtx.advance (skb : Skb) (ctx : Ipv6ExtCtx) (target : Nat × Nat) : Ipv6ExtCtx where
  offset := target.2
  nexthdr := target.1
  result := ctx.result
  seenAh := ctx.seenAh || decide (ctx.nexthdr = ipprotoAh)
  seenFragment := ctx.seenFragment || decide (ctx.nexthdr = ipprotoFragment)
  fragmentState :=
    if ctx.nexthdr = ipprotoFragment then skb.fragmentStateAt ctx.offset else ctx.fragmentState

theorem nextHeader_some {skb : Skb} {packetEnd kind pos : Nat} {target : Nat × Nat}
    (h : nextHeader skb packetEnd (kind, pos) = some target) :
    kind ∈ extensionKinds ∧ pos + 2 ≤ packetEnd ∧ target.2 ≤ packetEnd ∧
      (kind = ipprotoFragment → skb.be16At (pos + 2) / 8 = 0) ∧
      (kind = ipprotoAh → 1 ≤ skb.byte (pos + 1)) ∧
      target = (skb.byte pos, pos + extensionLen kind (skb.byte (pos + 1))) := by
  rw [nextHeader] at h
  split at h
  · rename_i hall
    cases h
    exact ⟨hall.1, hall.2.1, hall.2.2.1, hall.2.2.2.1, hall.2.2.2.2, rfl⟩
  · cases h

/-- The loading half of a step. -/
theorem ipv6ExtStep_load (hend : packetEnd ≤ skb.len) (hsmall : ctx.offset ≤ 2 ^ 30)
    (hkind : ctx.nexthdr ∈ extensionKinds) (hinside : ctx.offset < packetEnd) :
    ipv6ExtStep skb.load packetEnd ctx =
      let next := { ctx with nexthdr := skb.byte ctx.offset }
      if ctx.nexthdr = ipprotoFragment then ipv6FragmentStep skb.load packetEnd next
      else ipv6OptionStep skb.load packetEnd ctx.nexthdr next := by
  obtain ⟨h, hload⟩ : ∃ h, skb.load ctx.offset 1 = some h := Skb.load_of_le (by omega) (by omega)
  have hbyte : byteAt h 0 = skb.byte ctx.offset := (Skb.load_spec hload).2.2 0 Nat.one_pos
  have hnone : ctx.nexthdr ≠ ipprotoNone := by
    rintro hnone
    rw [hnone] at hkind
    exact absurd hkind (by decide)
  rw [ipv6ExtStep, if_neg hnone, (isExtensionHeader_iff _).mpr hkind, if_neg (by decide),
    if_neg (not_le.mpr hinside), hload]
  simp only [hbyte]

/-- **A step over a header.** -/
theorem ipv6ExtStep_advance (hend : packetEnd ≤ skb.len) (hsmall : ctx.offset ≤ 2 ^ 30)
    (hfresh : ctx.Fresh) {target : Nat × Nat}
    (hnext : nextHeader skb packetEnd (ctx.nexthdr, ctx.offset) = some target)
    (haccept : Acceptable skb packetEnd ctx) :
    ipv6ExtStep skb.load packetEnd ctx = (false, ctx.advance skb target) := by
  obtain ⟨hkind, hfits, hto, hfirst, hah, rfl⟩ := nextHeader_some hnext
  rw [ipv6ExtStep_load hend hsmall hkind (by omega)]
  by_cases hfragment : ctx.nexthdr = ipprotoFragment
  · obtain ⟨hseen, hreserved, haligned⟩ := haccept hfragment
    have hlen : extensionLen ctx.nexthdr (skb.byte (ctx.offset + 1)) = 8 := if_pos hfragment
    rw [hlen] at hto
    have hspec := ipv6FragmentStep_spec { ctx with nexthdr := skb.byte ctx.offset } hend hsmall hseen
      (hfresh hseen) hto
    rw [if_neg (not_not_intro hreserved), if_neg (fun h => h.2 (haligned h.1)),
      if_neg (not_not_intro (hfirst hfragment))] at hspec
    rw [if_pos hfragment, hspec, Ipv6ExtCtx.advance, hlen, if_pos hfragment]
    simp [hfragment, ipprotoFragment, ipprotoAh]
  · have hspec := ipv6OptionStep_spec { ctx with nexthdr := skb.byte ctx.offset } hend hsmall hfragment
      hfits
    rw [if_neg (fun h => absurd (hah h.1) (not_le.mpr h.2)), if_neg (not_lt.mpr hto)] at hspec
    rw [if_neg hfragment, hspec, Ipv6ExtCtx.advance, if_neg hfragment]
    simp [hfragment]

/-- **A step that stops** leaves the offset alone.  At an extension header it reports a
failure, and the state is that of the fragment header, if it is the first one. -/
theorem ipv6ExtStep_stop (hend : packetEnd ≤ skb.len) (hsmall : ctx.offset ≤ 2 ^ 30)
    (hfresh : ctx.Fresh)
    (hstop : nextHeader skb packetEnd (ctx.nexthdr, ctx.offset) = none ∨ ¬ Acceptable skb packetEnd ctx) :
    ∃ ctx', ipv6ExtStep skb.load packetEnd ctx = (true, ctx') ∧ ctx'.offset = ctx.offset ∧
      (ctx.nexthdr ∉ extensionKinds → ctx' = ctx) ∧
      (ctx.nexthdr ∈ extensionKinds → ctx'.result ≠ 0 ∧
        ctx'.fragmentState = if ctx.nexthdr = ipprotoFragment ∧ ctx.seenFragment = false ∧
          ctx.offset + 8 ≤ packetEnd then skb.fragmentStateAt ctx.offset else ctx.fragmentState) := by
  by_cases hkind : ctx.nexthdr ∈ extensionKinds
  · have hinval : -Errno.einval ≠ 0 := by decide
    have hfault : -Errno.efault ≠ 0 := by decide
    have hone : (1 : Int) ≠ 0 := by decide
    suffices hstep : ∃ ctx', ipv6ExtStep skb.load packetEnd ctx = (true, ctx') ∧
        ctx'.offset = ctx.offset ∧ ctx'.result ≠ 0 ∧
        ctx'.fragmentState = if ctx.nexthdr = ipprotoFragment ∧ ctx.seenFragment = false ∧
          ctx.offset + 8 ≤ packetEnd then skb.fragmentStateAt ctx.offset else ctx.fragmentState by
      obtain ⟨ctx', h, hoffset, hresult, hstate⟩ := hstep
      exact ⟨ctx', h, hoffset, fun hne => absurd hkind hne, fun _ => ⟨hresult, hstate⟩⟩
    by_cases hinside : ctx.offset < packetEnd
    · rw [ipv6ExtStep_load hend hsmall hkind hinside]
      by_cases hfragment : ctx.nexthdr = ipprotoFragment
      · rw [if_pos hfragment]
        by_cases hseen : ctx.seenFragment = false
        · by_cases hfits : ctx.offset + 8 ≤ packetEnd
          · rw [if_pos ⟨hfragment, hseen, hfits⟩, ipv6FragmentStep_spec
              { ctx with nexthdr := skb.byte ctx.offset } hend hsmall hseen (hfresh hseen) hfits]
            dsimp only
            split
            · exact ⟨_, rfl, rfl, hinval, rfl⟩
            split
            · exact ⟨_, rfl, rfl, hinval, rfl⟩
            split
            · exact ⟨_, rfl, rfl, hone, rfl⟩
            -- a header that can be passed over
            rename_i hreserved haligned hfirst
            rcases hstop with hstop | hstop
            · rw [nextHeader, extensionLen, if_pos hfragment, if_pos] at hstop
              · cases hstop
              · refine ⟨hkind, by omega, hfits, fun _ => not_not.mp hfirst, fun h => ?_⟩
                rw [hfragment] at h
                cases h
            · refine absurd (fun _ => ⟨hseen, not_not.mp hreserved, fun hmore => ?_⟩) hstop
              exact not_not.mp fun hne => haligned ⟨hmore, hne⟩
          · refine ⟨{ ctx with
              nexthdr := skb.byte ctx.offset, seenFragment := true, result := -Errno.einval }, ?_, rfl,
              hinval, ?_⟩
            · rw [ipv6FragmentStep, hseen, if_neg Bool.false_ne_true, if_pos (not_le.mp hfits)]
            · rw [if_neg (fun h => hfits h.2.2)]
        · refine ⟨{ ctx with nexthdr := skb.byte ctx.offset, result := -Errno.einval }, ?_, rfl, hinval, ?_⟩
          · rw [ipv6FragmentStep, if_pos (Bool.not_eq_false _ ▸ hseen)]
          · rw [if_neg (fun h => hseen h.2.1)]
      · rw [if_neg hfragment, if_neg (fun h => hfragment h.1)]
        by_cases hfits : ctx.offset + 2 ≤ packetEnd
        · rw [ipv6OptionStep_spec { ctx with nexthdr := skb.byte ctx.offset } hend hsmall hfragment hfits]
          dsimp only
          split
          · exact ⟨_, rfl, rfl, hinval, rfl⟩
          split
          · exact ⟨_, rfl, rfl, hfault, rfl⟩
          rename_i hah hlen
          rcases hstop with hstop | hstop
          · rw [nextHeader, if_pos] at hstop
            · cases hstop
            · exact ⟨hkind, hfits, not_lt.mp hlen, fun h => absurd h hfragment, fun h =>
                not_lt.mp fun hlt => hah ⟨h, hlt⟩⟩
          · exact absurd (fun h => absurd h hfragment) hstop
        · refine ⟨{ ctx with nexthdr := skb.byte ctx.offset, result := -Errno.efault }, ?_, rfl, hfault, rfl⟩
          rw [ipv6OptionStep, u32_of_lt (by omega : ctx.offset + 2 < 2 ^ 32), if_pos (not_le.mp hfits)]
    · refine ⟨{ ctx with result := -Errno.efault }, ?_, rfl, hfault, ?_⟩
      · rw [ipv6ExtStep, if_neg, (isExtensionHeader_iff _).mpr hkind, if_neg (by decide),
          if_pos (not_lt.mp hinside)]
        intro hnone
        rw [hnone] at hkind
        exact absurd hkind (by decide)
      · rw [if_neg (fun h => hinside (by omega))]
  · refine ⟨ctx, ?_, rfl, fun _ => rfl, fun h => absurd h hkind⟩
    rw [ipv6ExtStep]
    split
    · rfl
    · rw [if_pos]
      rw [Bool.not_eq_true']
      exact Bool.eq_false_iff.mpr fun h => hkind ((isExtensionHeader_iff _).mp h)

end Step

/-! ### The loop -/

section Loop

variable {skb : Skb} {packetEnd : Nat}

theorem Ipv6ExtCtx.Fresh.advance {ctx : Ipv6ExtCtx} (h : ctx.Fresh) (target : Nat × Nat) :
    (ctx.advance skb target).Fresh := by
  intro hseen
  obtain ⟨hseen, hkind⟩ := Bool.or_eq_false_iff.mp hseen
  rw [Ipv6ExtCtx.advance, if_neg (of_decide_eq_false hkind)]
  exact h hseen

theorem nextHeader_le {kind pos : Nat} {target : Nat × Nat}
    (h : nextHeader skb packetEnd (kind, pos) = some target) :
    target.2 ≤ packetEnd ∧ target.2 ≤ pos + 2048 := by
  obtain ⟨-, -, hle, -, -, rfl⟩ := nextHeader_some h
  have : extensionLen kind (skb.byte (pos + 1)) ≤ 2048 := extensionLen_le (skb.byte_lt _)
  exact ⟨hle, Nat.add_le_add_left this pos⟩

/-- A round of the loop: it goes on behind a header that can be passed over, and otherwise
returns the context of the step. -/
theorem ipv6ExtLoop_advance {ctx : Ipv6ExtCtx} {n : Nat} (hend : packetEnd ≤ skb.len)
    (hsmall : ctx.offset ≤ 2 ^ 30) (hfresh : ctx.Fresh) {target : Nat × Nat}
    (hnext : nextHeader skb packetEnd (ctx.nexthdr, ctx.offset) = some target)
    (haccept : Acceptable skb packetEnd ctx) :
    ipv6ExtLoop skb.load packetEnd (n + 1) ctx =
      ipv6ExtLoop skb.load packetEnd n (ctx.advance skb target) := by
  rw [ipv6ExtLoop, ipv6ExtStep_advance hend hsmall hfresh hnext haccept]

theorem ipv6ExtLoop_stop {ctx ctx' : Ipv6ExtCtx} {n : Nat}
    (h : ipv6ExtStep skb.load packetEnd ctx = (true, ctx')) :
    ipv6ExtLoop skb.load packetEnd (n + 1) ctx = ctx' := by
  rw [ipv6ExtLoop, h]

/-- **What the loop has walked over** when it ends, and where it ends. -/
theorem ipv6ExtLoop_spec (hend : packetEnd ≤ skb.len) {n : Nat} {ctx : Ipv6ExtCtx}
    (hsmall : ctx.offset + 2048 * n ≤ 2 ^ 30) (hfresh : ctx.Fresh) (hinside : ctx.offset ≤ packetEnd) :
    ∃ m ≤ n, ∃ kind, walk (nextHeader skb packetEnd) m (ctx.nexthdr, ctx.offset) =
        some (kind, (ipv6ExtLoop skb.load packetEnd n ctx).offset) ∧
      (ipv6ExtLoop skb.load packetEnd n ctx).offset ≤ packetEnd ∧
      (ipv6ExtLoop skb.load packetEnd n ctx).offset ≤ ctx.offset + 2048 * n ∧
      ((ipv6ExtLoop skb.load packetEnd n ctx).result = 0 →
        (ipv6ExtLoop skb.load packetEnd n ctx).nexthdr = kind) := by
  induction n generalizing ctx with
  | zero => exact ⟨0, le_rfl, ctx.nexthdr, rfl, hinside, le_rfl, fun _ => rfl⟩
  | succ n ih =>
    by_cases hstop : nextHeader skb packetEnd (ctx.nexthdr, ctx.offset) = none ∨
        ¬ Acceptable skb packetEnd ctx
    · obtain ⟨ctx', hstep, hoffset, hother, hkind⟩ := ipv6ExtStep_stop hend (by omega) hfresh hstop
      rw [ipv6ExtLoop_stop hstep, hoffset]
      refine ⟨0, Nat.zero_le _, ctx.nexthdr, rfl, hinside, by omega, fun hresult => ?_⟩
      by_cases hext : ctx.nexthdr ∈ extensionKinds
      · exact absurd hresult (hkind hext).1
      · rw [hother hext]
    · obtain ⟨hnext, haccept⟩ := not_or.mp hstop
      obtain ⟨target, hnext⟩ := Option.ne_none_iff_exists'.mp hnext
      obtain ⟨hinside', hle⟩ := nextHeader_le hnext
      rw [ipv6ExtLoop_advance hend (by omega) hfresh hnext (not_not.mp haccept)]
      obtain ⟨m, hm, kind, hwalk, hin, hsize, hresult⟩ := @ih (ctx.advance skb target)
        (by show target.2 + _ ≤ _; omega) (Ipv6ExtCtx.Fresh.advance hfresh target) hinside'
      exact ⟨m + 1, Nat.succ_le_succ hm, kind, walk_cons hnext hwalk, hin,
        hsize.trans (by show target.2 + _ ≤ _; omega), hresult⟩

/-- The fragment header that the walk reaches first, complete. -/
structure FirstFragment (skb : Skb) (packetEnd : Nat) (start : Nat × Nat) (m pos : Nat) : Prop where
  reached : walk (nextHeader skb packetEnd) m start = some (ipprotoFragment, pos)
  complete : pos + 8 ≤ packetEnd
  first : ∀ j < m, ∀ p, walk (nextHeader skb packetEnd) j start ≠ some (ipprotoFragment, p)

theorem FirstFragment.unique {start : Nat × Nat} {m m' pos pos' : Nat}
    (h : FirstFragment skb packetEnd start m pos) (h' : FirstFragment skb packetEnd start m' pos') :
    m = m' ∧ pos = pos' := by
  rcases lt_trichotomy m m' with hlt | rfl | hlt
  · exact absurd h.reached (h'.first m hlt pos)
  · have := h.reached.symm.trans h'.reached
    cases this
    exact ⟨rfl, rfl⟩
  · exact absurd h'.reached (h.first m' hlt pos')

/-- A header before the first fragment header is another one. -/
theorem FirstFragment.cons {start next : Nat × Nat} {m pos : Nat}
    (hnext : nextHeader skb packetEnd start = some next) (hkind : start.1 ≠ ipprotoFragment) :
    FirstFragment skb packetEnd start (m + 1) pos ↔ FirstFragment skb packetEnd next m pos := by
  have hwalk : ∀ j, walk (nextHeader skb packetEnd) (j + 1) start = walk (nextHeader skb packetEnd) j next := by
    intro j
    rw [walk, hnext]
    rfl
  constructor
  · rintro ⟨hreached, hcomplete, hfirst⟩
    refine ⟨(hwalk m).symm.trans hreached, hcomplete, fun j hj p => ?_⟩
    rw [← hwalk]
    exact hfirst (j + 1) (by omega) p
  · rintro ⟨hreached, hcomplete, hfirst⟩
    refine ⟨(hwalk m).trans hreached, hcomplete, fun j hj p => ?_⟩
    cases j with
    | zero =>
      intro h
      cases h
      exact hkind rfl
    | succ j =>
      rw [hwalk]
      exact hfirst j (by omega) p

/-- After the fragment header the state stays. -/
theorem ipv6ExtLoop_seen (hend : packetEnd ≤ skb.len) {n : Nat} {ctx : Ipv6ExtCtx}
    (hsmall : ctx.offset + 2048 * n ≤ 2 ^ 30) (hseen : ctx.seenFragment = true) :
    (ipv6ExtLoop skb.load packetEnd n ctx).fragmentState = ctx.fragmentState := by
  have hfresh : ctx.Fresh := fun h => absurd h (by rw [hseen]; decide)
  induction n generalizing ctx with
  | zero => rfl
  | succ n ih =>
    by_cases hstop : nextHeader skb packetEnd (ctx.nexthdr, ctx.offset) = none ∨
        ¬ Acceptable skb packetEnd ctx
    · obtain ⟨ctx', hstep, -, hother, hkind⟩ := ipv6ExtStep_stop hend (by omega) hfresh hstop
      rw [ipv6ExtLoop_stop hstep]
      by_cases hext : ctx.nexthdr ∈ extensionKinds
      · rw [(hkind hext).2, if_neg]
        rw [hseen]
        exact fun h => Bool.noConfusion h.2.1
      · rw [hother hext]
    · obtain ⟨hnext, haccept⟩ := not_or.mp hstop
      have haccept := not_not.mp haccept
      obtain ⟨target, hnext⟩ := Option.ne_none_iff_exists'.mp hnext
      obtain ⟨-, hle⟩ := nextHeader_le hnext
      have hkind : ctx.nexthdr ≠ ipprotoFragment := by
        intro h
        rw [(haccept h).1] at hseen
        cases hseen
      have hstate := @ih (ctx.advance skb target) (by show target.2 + _ ≤ _; omega)
        (by rw [Ipv6ExtCtx.advance, hseen]; rfl) (Ipv6ExtCtx.Fresh.advance hfresh target)
      rw [ipv6ExtLoop_advance hend (by omega) hfresh hnext haccept, hstate, Ipv6ExtCtx.advance,
        if_neg hkind]

/-- **The state the loop reports** is that of the first fragment header within reach. -/
theorem ipv6ExtLoop_state (hend : packetEnd ≤ skb.len) {n : Nat} {ctx : Ipv6ExtCtx}
    (hsmall : ctx.offset + 2048 * n ≤ 2 ^ 30) (hseen : ctx.seenFragment = false)
    (hstate : ctx.fragmentState = .none) :
    (∃ m < n, ∃ pos, FirstFragment skb packetEnd (ctx.nexthdr, ctx.offset) m pos ∧
      (ipv6ExtLoop skb.load packetEnd n ctx).fragmentState = skb.fragmentStateAt pos) ∨
    (∀ m < n, ∀ pos, ¬ FirstFragment skb packetEnd (ctx.nexthdr, ctx.offset) m pos) ∧
      (ipv6ExtLoop skb.load packetEnd n ctx).fragmentState = .none := by
  have hfresh : ctx.Fresh := fun _ => hstate
  induction n generalizing ctx with
  | zero => exact .inr ⟨fun m hm => absurd hm (Nat.not_lt_zero m), hstate⟩
  | succ n ih =>
    by_cases hstop : nextHeader skb packetEnd (ctx.nexthdr, ctx.offset) = none ∨
        ¬ Acceptable skb packetEnd ctx
    · obtain ⟨ctx', hstep, -, hother, hkind⟩ := ipv6ExtStep_stop hend (by omega) hfresh hstop
      rw [ipv6ExtLoop_stop hstep]
      by_cases hfragment : ctx.nexthdr = ipprotoFragment ∧ ctx.offset + 8 ≤ packetEnd
      · obtain ⟨hfragment, hfits⟩ := hfragment
        refine .inl ⟨0, Nat.succ_pos n, ctx.offset, ⟨by rw [walk, hfragment], hfits, fun j hj => ?_⟩, ?_⟩
        · exact absurd hj (Nat.not_lt_zero j)
        · rw [(hkind (by rw [hfragment]; decide)).2, if_pos ⟨hfragment, hseen, hfits⟩]
      · refine .inr ⟨fun m hm pos hfirst => ?_, ?_⟩
        · cases m with
          | zero =>
            obtain ⟨hk, hp⟩ := Prod.mk.inj (Option.some.inj hfirst.reached)
            exact hfragment ⟨hk, hp ▸ hfirst.complete⟩
          | succ m =>
            obtain ⟨target, hnext, -⟩ := Option.bind_eq_some_iff.mp hfirst.reached
            rcases hstop with hstop | hstop
            · rw [hstop] at hnext
              cases hnext
            · refine hstop fun h => ?_
              exact absurd (by rw [walk, h]) (hfirst.first 0 (Nat.succ_pos m) ctx.offset)
        · by_cases hext : ctx.nexthdr ∈ extensionKinds
          · rw [(hkind hext).2, if_neg (fun h => hfragment ⟨h.1, h.2.2⟩), hstate]
          · rw [hother hext, hstate]
    · obtain ⟨hnext, haccept⟩ := not_or.mp hstop
      have haccept := not_not.mp haccept
      obtain ⟨target, hnext⟩ := Option.ne_none_iff_exists'.mp hnext
      obtain ⟨-, hle⟩ := nextHeader_le hnext
      rw [ipv6ExtLoop_advance hend (by omega) hfresh hnext haccept]
      by_cases hkind : ctx.nexthdr = ipprotoFragment
      · obtain ⟨-, -, hto, -, -, rfl⟩ := nextHeader_some hnext
        have hseen' := @ipv6ExtLoop_seen skb packetEnd hend n (ctx.advance skb
          (skb.byte ctx.offset, ctx.offset + extensionLen ctx.nexthdr (skb.byte (ctx.offset + 1))))
          (by show ctx.offset + _ + _ ≤ _; dsimp only at hle; omega)
          (by rw [Ipv6ExtCtx.advance, hkind]; exact Bool.or_true _)
        refine .inl ⟨0, Nat.succ_pos n, ctx.offset, ⟨by rw [walk, hkind], ?_, fun j hj => ?_⟩, ?_⟩
        · rwa [extensionLen, if_pos hkind] at hto
        · exact absurd hj (Nat.not_lt_zero j)
        · rw [hseen', Ipv6ExtCtx.advance, if_pos hkind]
      · have hcons : ∀ m pos, FirstFragment skb packetEnd (ctx.nexthdr, ctx.offset) (m + 1) pos ↔
            FirstFragment skb packetEnd target m pos := fun m pos => FirstFragment.cons hnext hkind
        rcases @ih (ctx.advance skb target) (by show target.2 + _ ≤ _; omega)
          (by rw [Ipv6ExtCtx.advance, hseen]; exact decide_eq_false hkind)
          (by rw [Ipv6ExtCtx.advance, if_neg hkind]; exact hstate)
          (Ipv6ExtCtx.Fresh.advance hfresh target) with ⟨m, hm, pos, hfirst, h⟩ | ⟨hnone, h⟩
        · exact .inl ⟨m + 1, by omega, pos, (hcons m pos).mpr hfirst, h⟩
        · refine .inr ⟨fun m hm pos hfirst => ?_, h⟩
          cases m with
          | zero =>
            exact hkind (Prod.mk.inj (Option.some.inj hfirst.reached)).1
          | succ m => exact hnone m (by omega) pos ((hcons m pos).mp hfirst)

/-- Along the walk there is no authentication header, and at most one fragment header, which
has no reserved bits set and, but for the last fragment, a payload of whole units. -/
def Tidy (skb : Skb) (packetEnd : Nat) (start : Nat × Nat) (m : Nat) : Prop :=
  ∀ j < m, ∀ kind pos, walk (nextHeader skb packetEnd) j start = some (kind, pos) →
    kind ≠ ipprotoAh ∧ (kind = ipprotoFragment →
      (∀ i < j, ∀ p, walk (nextHeader skb packetEnd) i start ≠ some (ipprotoFragment, p)) ∧
      skb.be16At (pos + 2) / 2 % 4 = 0 ∧
      (skb.be16At (pos + 2) % 2 ≠ 0 → (packetEnd - pos - 8) % 8 = 0))

/-- **A tidy walk to a header that is no extension header** is one the loop makes. -/
theorem ipv6ExtLoop_of_walk (hend : packetEnd ≤ skb.len) {m n : Nat} {ctx : Ipv6ExtCtx} {kind pos : Nat}
    (hsmall : ctx.offset + 2048 * n ≤ 2 ^ 30) (hfresh : ctx.Fresh) (hmn : m ≤ n)
    (hwalk : walk (nextHeader skb packetEnd) m (ctx.nexthdr, ctx.offset) = some (kind, pos))
    (hkind : kind ∉ extensionKinds) (htidy : Tidy skb packetEnd (ctx.nexthdr, ctx.offset) m)
    (hseen : ctx.seenFragment = true →
      ∀ j < m, ∀ p, walk (nextHeader skb packetEnd) j (ctx.nexthdr, ctx.offset) ≠ some (ipprotoFragment, p)) :
    (ipv6ExtLoop skb.load packetEnd n ctx).nexthdr = kind ∧
      (ipv6ExtLoop skb.load packetEnd n ctx).offset = pos ∧
      (ipv6ExtLoop skb.load packetEnd n ctx).result = ctx.result ∧
      (ipv6ExtLoop skb.load packetEnd n ctx).seenAh = ctx.seenAh ∧
      ((ipv6ExtLoop skb.load packetEnd n ctx).seenFragment = true → ctx.seenFragment = true ∨
        ∃ j < m, ∃ p, walk (nextHeader skb packetEnd) j (ctx.nexthdr, ctx.offset) =
          some (ipprotoFragment, p)) := by
  induction m generalizing ctx n with
  | zero =>
    obtain ⟨hk, hp⟩ := Prod.mk.inj (Option.some.inj hwalk)
    have hloop : ipv6ExtLoop skb.load packetEnd n ctx = ctx := by
      cases n with
      | zero => rfl
      | succ n =>
        have hext : ctx.nexthdr ∉ extensionKinds := hk ▸ hkind
        obtain ⟨ctx', hstep, -, hother, -⟩ := ipv6ExtStep_stop hend (by omega) hfresh
          (.inl (if_neg fun h => hext h.1))
        rw [ipv6ExtLoop_stop hstep, hother hext]
    rw [hloop]
    exact ⟨hk, hp, rfl, rfl, fun h => .inl h⟩
  | succ m ih =>
    obtain ⟨n, rfl⟩ : ∃ k, n = k + 1 := ⟨n - 1, by omega⟩
    obtain ⟨target, hnext, hrest⟩ := Option.bind_eq_some_iff.mp hwalk
    have hstep : ∀ j, walk (nextHeader skb packetEnd) (j + 1) (ctx.nexthdr, ctx.offset) =
        walk (nextHeader skb packetEnd) j target := by
      intro j
      rw [walk, hnext]
      rfl
    obtain ⟨hah, hfragment⟩ := htidy 0 (Nat.succ_pos m) _ _ rfl
    have haccept : Acceptable skb packetEnd ctx := by
      intro h
      obtain ⟨-, hreserved, haligned⟩ := hfragment h
      refine ⟨Bool.eq_false_iff.mpr fun hs => ?_, hreserved, haligned⟩
      exact hseen hs 0 (Nat.succ_pos m) ctx.offset (by rw [walk, h])
    obtain ⟨-, hle⟩ := nextHeader_le hnext
    rw [ipv6ExtLoop_advance hend (by omega) hfresh hnext haccept]
    obtain ⟨h₁, h₂, h₃, h₄, h₅⟩ := @ih n (ctx.advance skb target) (by show target.2 + _ ≤ _; omega)
      (Ipv6ExtCtx.Fresh.advance hfresh target) (by omega) hrest (by
        intro j hj k p hkp
        obtain ⟨hnah, hfrag⟩ := htidy (j + 1) (by omega) k p ((hstep j).trans hkp)
        refine ⟨hnah, fun hk => ?_⟩
        obtain ⟨hearlier, hrest⟩ := hfrag hk
        exact ⟨fun i hi q => hstep i ▸ hearlier (i + 1) (by omega) q, hrest⟩) (by
        intro hs j hj p hkp
        rcases (Bool.or_eq_true _ _).mp hs with hs | hs
        · exact hseen hs (j + 1) (by omega) p ((hstep j).trans hkp)
        · -- the fragment header just passed is the only one
          obtain ⟨hearlier, -⟩ := (htidy (j + 1) (by omega) _ p ((hstep j).trans hkp)).2 rfl
          exact hearlier 0 (Nat.succ_pos j) ctx.offset (by rw [walk, of_decide_eq_true hs]))
    refine ⟨h₁, h₂, h₃, h₄.trans ?_, fun hs => ?_⟩
    · show (ctx.seenAh || decide (ctx.nexthdr = ipprotoAh)) = ctx.seenAh
      rw [decide_eq_false hah, Bool.or_false]
    · rcases h₅ hs with hs | ⟨j, hj, p, hp⟩
      · rcases (Bool.or_eq_true _ _).mp hs with hs | hs
        · exact .inl hs
        · exact .inr ⟨0, Nat.succ_pos m, ctx.offset, by rw [walk, of_decide_eq_true hs]⟩
      · exact .inr ⟨j + 1, by omega, p, (hstep j).trans hp⟩

end Loop

end Dae
