import Mathlib

/-!
# Addresses, prefixes and ports

The part of Go's `net/netip` that the control plane uses.  An address is an
IPv4 or an IPv6 one; zones never reach the code modelled here.  `Addr.as16` is
the IPv4-mapped 128-bit form, in which both the BPF tries and the userspace
tries are keyed.
-/

namespace Dae

/-- An IP address without a zone. -/
inductive Addr where
  | v4 (bits : BitVec 32)
  | v6 (bits : BitVec 128)
  deriving DecidableEq, Repr

namespace Addr

/-- The prefix of the IPv4-mapped addresses, `::ffff:0:0/96`. -/
def mappedPrefix : BitVec 128 := 0xffff00000000

def as16 : Addr → BitVec 128
  | v4 bits => mappedPrefix ||| bits.setWidth 128
  | v6 bits => bits

def bitLen : Addr → Nat
  | v4 _ => 32
  | v6 _ => 128

def is4 : Addr → Bool
  | v4 _ => true
  | v6 _ => false

def is4In6 : Addr → Bool
  | v4 _ => false
  | v6 bits => bits >>> 32 == mappedPrefix >>> 32

def is6 : Addr → Bool
  | v4 _ => false
  | v6 _ => true

/-- An IPv4-mapped IPv6 address becomes the IPv4 address it maps. -/
def unmap : Addr → Addr
  | v4 bits => v4 bits
  | v6 bits => if is4In6 (v6 bits) then v4 (bits.setWidth 32) else v6 bits

/-- The address with all but its first `n` bits cleared. -/
def mask (n : Nat) : Addr → Addr
  | v4 bits => v4 (bits >>> (32 - n) <<< (32 - n))
  | v6 bits => v6 (bits >>> (128 - n) <<< (128 - n))

@[simp] theorem bitLen_mask (n : Nat) (a : Addr) : (a.mask n).bitLen = a.bitLen := by
  cases a <;> rfl

@[simp] theorem is4_mask (n : Nat) (a : Addr) : (a.mask n).is4 = a.is4 := by
  cases a <;> rfl

end Addr

/-- A MAC address, as the 48-bit number of its six bytes. -/
abbrev Mac := BitVec 48

/-- A valid `netip.Prefix`. -/
structure Prefix where
  addr : Addr
  bits : Nat
  valid : bits ≤ addr.bitLen
  deriving DecidableEq, Repr

namespace Prefix

/-- The length in the 128-bit space, where IPv4 prefixes are shifted by 96. -/
def len128 (p : Prefix) : Nat := if p.addr.is4 then p.bits + 96 else p.bits

/-- The prefix, read as a 128-bit prefix, contains the address. -/
def contains16 (p : Prefix) (a : BitVec 128) : Bool :=
  (p.addr.as16 ^^^ a) >>> (128 - p.len128) == 0

/-- `netip.PrefixFrom(addr, addr.BitLen())`. -/
def single (a : Addr) : Prefix := ⟨a, a.bitLen, Nat.le_refl _⟩

/-- `netip.Prefix.Masked`. -/
def masked (p : Prefix) : Prefix :=
  ⟨p.addr.mask p.bits, p.bits, by rw [Addr.bitLen_mask]; exact p.valid⟩

/-- Clearing the host bits does not change what a prefix contains. -/
@[simp] theorem contains16_masked (p : Prefix) (a : BitVec 128) :
    p.masked.contains16 a = p.contains16 a := by
  obtain ⟨addr, bits, valid⟩ := p
  have hshift : ((addr.mask bits).as16 ^^^ a) >>> (128 - len128 ⟨addr, bits, valid⟩) =
      (addr.as16 ^^^ a) >>> (128 - len128 ⟨addr, bits, valid⟩) := by
    apply BitVec.eq_of_getLsbD_eq
    intro i hi
    cases addr with
    | v4 x =>
      have hlen : 128 - len128 ⟨.v4 x, bits, valid⟩ = 32 - bits := by
        simp [len128, Addr.is4]
      simp only [hlen, Addr.mask, Addr.as16, BitVec.getLsbD_ushiftRight, BitVec.getLsbD_xor,
        BitVec.getLsbD_or, BitVec.getLsbD_setWidth, BitVec.getLsbD_shiftLeft]
      by_cases hr : 32 - bits + i < 32
      · simp [hr]
      · simp [hr, x.getLsbD_of_ge (32 - bits + i) (by omega)]
    | v6 x =>
      have hlen : 128 - len128 ⟨.v6 x, bits, valid⟩ = 128 - bits := by
        simp [len128, Addr.is4]
      simp only [hlen, Addr.mask, Addr.as16, BitVec.getLsbD_ushiftRight, BitVec.getLsbD_xor,
        BitVec.getLsbD_shiftLeft]
      by_cases hr : 128 - bits + i < 128
      · simp [hr]
      · simp [hr, x.getLsbD_of_ge (128 - bits + i) (by omega)]
  have hlen : len128 (masked ⟨addr, bits, valid⟩) = len128 ⟨addr, bits, valid⟩ := by
    simp [len128, masked]
  unfold contains16
  rw [hlen, show (masked ⟨addr, bits, valid⟩).addr = addr.mask bits from rfl, hshift]

/-- A full-length prefix contains its own address only. -/
theorem contains16_single (addr : Addr) (a : BitVec 128) :
    (single addr).contains16 a = (addr.as16 == a) := by
  have hlen : 128 - (single addr).len128 = 0 := by
    cases addr with
    | v4 x => rfl
    | v6 x => rfl
  unfold contains16
  rw [hlen, BitVec.ushiftRight_zero, Bool.eq_iff_iff, beq_iff_eq, beq_iff_eq]
  exact BitVec.xor_eq_zero_iff

end Prefix

/-- The answer of a longest-prefix-match set: some stored prefix contains the
key.  The kernel's LPM trie and the userspace trie share it. -/
def lpmContains (prefixes : List Prefix) (key : BitVec 128) : Bool :=
  prefixes.any (·.contains16 key)

/-- A `netip.AddrPort`; `none` is the invalid address. -/
structure AddrPort where
  addr : Option Addr
  port : BitVec 16
  deriving DecidableEq, Repr

end Dae
