import Mathlib

/-!
# Numbers as bytes

A number in a given count of bytes, the most significant one first.
-/

namespace Bytes

/-- The lowest `k` bytes of a number, the most significant one first. -/
def bigEndian (n : Nat) : Nat → List UInt8
  | 0 => []
  | k + 1 => .ofNat (n / 256 ^ k) :: bigEndian n k

def ofBigEndian (bytes : List UInt8) : Nat := bytes.foldl (fun n b => 256 * n + b.toNat) 0

@[simp] theorem length_bigEndian (n k : Nat) : (bigEndian n k).length = k := by
  induction k with
  | zero => rfl
  | succ k ih => rw [bigEndian, List.length_cons, ih]

theorem foldl_bigEndian (n k a : Nat) :
    (bigEndian n k).foldl (fun n b => 256 * n + b.toNat) a = a * 256 ^ k + n % 256 ^ k := by
  induction k generalizing a with
  | zero => simp [bigEndian, Nat.mod_one]
  | succ k ih =>
    have hmod : n % 256 ^ (k + 1) = n % 256 ^ k + 256 ^ k * (n / 256 ^ k % 256) := by
      rw [Nat.pow_succ, Nat.mod_mul]
    have hbyte : (UInt8.ofNat (n / 256 ^ k)).toNat = n / 256 ^ k % 256 := UInt8.toNat_ofNat'
    rw [bigEndian, List.foldl_cons, ih, hbyte, hmod]
    ring

theorem ofBigEndian_bigEndian {n k : Nat} (h : n < 256 ^ k) : ofBigEndian (bigEndian n k) = n := by
  rw [ofBigEndian, foldl_bigEndian, Nat.mod_eq_of_lt h, Nat.zero_mul, Nat.zero_add]

end Bytes
