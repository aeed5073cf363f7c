import Mathlib

/-!
# Sums of signed machine words

Two's complement words of any width are added around a loop.  The result is the sum of
the numbers as long as no partial sum leaves the range, and a sum that lies between two
others, term by term, stays in range with them.
-/

namespace Signed

open BitVec hiding not_or

variable {w : Nat}

/-- The test of `sum + x` for overflow that does not itself overflow. -/
def overflows (sum x : BitVec w) : Bool :=
  ((0#w).slt x && (intMax w - x).slt sum) || (x.slt 0#w && sum.slt (intMin w - x))

def max (x y : BitVec w) : BitVec w := if x.slt y then y else x

def min (x y : BitVec w) : BitVec w := if y.slt x then y else x

theorem toInt_max (x y : BitVec w) : (max x y).toInt = Max.max x.toInt y.toInt := by
  unfold max
  split <;> rename_i h
  · exact (max_eq_right (slt_iff_toInt_lt.mp h).le).symm
  · exact (max_eq_left (not_lt.mp (slt_iff_toInt_lt.not.mp h))).symm

theorem toInt_min (x y : BitVec w) : (min x y).toInt = Min.min x.toInt y.toInt := by
  unfold min
  split <;> rename_i h
  · exact (min_eq_right (slt_iff_toInt_lt.mp h).le).symm
  · exact (min_eq_left (not_lt.mp (slt_iff_toInt_lt.not.mp h))).symm

/-- The number can be written in `w` bits. -/
def InRange (w : Nat) (n : Int) : Prop := -2 ^ (w - 1) ≤ n ∧ n < 2 ^ (w - 1)

theorem inRange_toInt (x : BitVec w) : InRange w x.toInt := ⟨x.le_toInt, toInt_lt⟩

variable {x : BitVec w}

theorem toInt_add_of_inRange {y : BitVec w} (h : InRange w (x.toInt + y.toInt)) :
    (x + y).toInt = x.toInt + y.toInt := by
  apply toInt_add_of_not_saddOverflow
  rw [saddOverflow]
  obtain ⟨hlow, hhigh⟩ := h
  simp only [Bool.or_eq_true, decide_eq_true_eq, not_or]
  omega

theorem inRange_of_not_overflows {sum : BitVec w} (h : overflows sum x = false) :
    InRange w (sum.toInt + x.toInt) := by
  obtain ⟨hsum, hsum'⟩ := inRange_toInt sum
  obtain ⟨hx, hx'⟩ := inRange_toInt x
  rcases Nat.eq_zero_or_pos w with rfl | hw
  · rw [eq_nil sum, eq_nil x]
    exact ⟨by decide, by decide⟩
  have hmin : (intMin w).toInt = -2 ^ (w - 1) := by
    rw [toInt_intMin, Nat.mod_eq_of_lt (Nat.pow_lt_pow_right (by omega) (by omega))]
    push_cast
    rfl
  have hzero : (0#w).toInt = 0 := toInt_zero
  rw [overflows, Bool.or_eq_false_iff] at h
  obtain ⟨hup, hdown⟩ := h
  constructor
  · by_cases hneg : x.toInt < 0
    · have hdiff : (intMin w - x).toInt = (intMin w).toInt - x.toInt := by
        apply toInt_sub_of_not_ssubOverflow
        rw [ssubOverflow]
        simp only [Bool.or_eq_true, decide_eq_true_eq, not_or]
        omega
      rw [slt_iff_toInt_lt.mpr (by omega), Bool.true_and] at hdown
      have := slt_iff_toInt_lt.not.mp (Bool.eq_false_iff.mp hdown)
      omega
    · omega
  · by_cases hpos : 0 < x.toInt
    · have hdiff : (intMax w - x).toInt = (intMax w).toInt - x.toInt := by
        apply toInt_sub_of_not_ssubOverflow
        rw [ssubOverflow, toInt_intMax]
        simp only [Bool.or_eq_true, decide_eq_true_eq, not_or]
        omega
      rw [slt_iff_toInt_lt.mpr (by omega), Bool.true_and] at hup
      have := slt_iff_toInt_lt.not.mp (Bool.eq_false_iff.mp hup)
      rw [hdiff, toInt_intMax] at this
      omega
    · omega

theorem toInt_add_of_not_overflows {sum : BitVec w} (h : overflows sum x = false) :
    (sum + x).toInt = sum.toInt + x.toInt :=
  toInt_add_of_inRange (inRange_of_not_overflows h)

/-! ### Sums along a list -/

/-- The partial sums of the list are in range. -/
def Exact (xs : List (BitVec w)) : Prop := ∀ k, InRange w ((xs.take k).map BitVec.toInt).sum

theorem exact_nil : Exact ([] : List (BitVec w)) := by
  intro k
  rw [List.take_nil]
  have hpos : (0 : Int) < 2 ^ (w - 1) := Int.pow_pos (by decide)
  exact ⟨(Int.neg_neg_of_pos hpos).le, hpos⟩

variable {xs : List (BitVec w)}

theorem Exact.append_singleton (h : Exact xs)
    (hx : InRange w ((xs.map BitVec.toInt).sum + x.toInt)) : Exact (xs ++ [x]) := by
  intro k
  by_cases hk : k ≤ xs.length
  · rw [List.take_append_of_le_length hk]
    exact h k
  · rw [List.take_of_length_le (by rw [List.length_append, List.length_singleton]; omega),
      List.map_append, List.sum_append, List.map_singleton, List.sum_singleton]
    exact hx

theorem Exact.take (h : Exact xs) (n : Nat) : Exact (xs.take n) := by
  intro k
  rw [List.take_take]
  exact h _

/-- **The loop computes the sum**, and so do its first rounds by `Exact.take`. -/
theorem Exact.toInt_foldl (h : Exact xs) :
    (xs.foldl (· + ·) 0).toInt = (xs.map BitVec.toInt).sum := by
  induction xs using List.reverseRecOn with
  | nil => exact toInt_zero
  | append_singleton xs x ih =>
    have hinit : Exact xs := by
      have := h.take xs.length
      rwa [List.take_left] at this
    have hall := h (xs ++ [x]).length
    rw [List.take_length, List.map_append, List.sum_append, List.map_singleton,
      List.sum_singleton, ← ih hinit] at hall
    rw [List.foldl_append, List.foldl_cons, List.foldl_nil, toInt_add_of_inRange hall, ih hinit,
      List.map_append, List.sum_append, List.map_singleton, List.sum_singleton]

/-- A sum that lies between two others, term by term, stays in range with them. -/
theorem Exact.between {α : Type*} {l : List α} {low mid high : α → BitVec w}
    (hlow : Exact (l.map low)) (hhigh : Exact (l.map high))
    (h : ∀ a ∈ l, (low a).toInt ≤ (mid a).toInt ∧ (mid a).toInt ≤ (high a).toInt) :
    Exact (l.map mid) := by
  intro k
  have hlk := hlow k
  have hhk := hhigh k
  rw [← List.map_take, List.map_map] at hlk hhk ⊢
  exact ⟨hlk.1.trans (List.sum_le_sum fun a ha => (h a (List.mem_of_mem_take ha)).1),
    (List.sum_le_sum fun a ha => (h a (List.mem_of_mem_take ha)).2).trans_lt hhk.2⟩

/-- The value of a result in a signed word of 64 bits. -/
def wrap64 (n : Int) : Int := n.bmod (2 ^ 64)

theorem wrap64_eq {n : Int} (hlow : -2 ^ 63 ≤ n) (hhigh : n < 2 ^ 63) : wrap64 n = n := by
  rw [wrap64, Int.bmod_def]
  split <;> omega

end Signed
