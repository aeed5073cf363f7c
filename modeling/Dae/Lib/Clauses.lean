import Mathlib

/-!
# Clauses

A list of clauses is a disjunction of conjunctions of literals.
-/

namespace Clauses

variable {α : Type*}

/-- Some clause has none but true literals. -/
def holds (v : α → Bool) (clauses : List (List α)) : Bool := clauses.any (·.all v)

/-- Every clause of the first list with every clause of the second. -/
def product (clauses part : List (List α)) : List (List α) :=
  clauses.flatMap fun a => part.map (a ++ ·)

/-- The number of literals. -/
def size (clauses : List (List α)) : Nat := (clauses.map List.length).sum

variable {v : α → Bool} {clauses part : List (List α)}

theorem holds_append : holds v (clauses ++ part) = (holds v clauses || holds v part) :=
  List.any_append

theorem size_append : size (clauses ++ part) = size clauses + size part := by
  rw [size, List.map_append, List.sum_append]
  rfl

theorem product_cons {a : List α} :
    product (a :: clauses) part = part.map (a ++ ·) ++ product clauses part :=
  List.flatMap_cons

theorem holds_map {a : List α} : holds v (part.map (a ++ ·)) = (a.all v && holds v part) := by
  induction part with
  | nil => exact (Bool.and_false _).symm
  | cons b part ih =>
    rw [holds] at ih
    simp only [holds, List.map_cons, List.any_cons, ih, List.all_append, Bool.and_or_distrib_left]

theorem holds_product : holds v (product clauses part) = (holds v clauses && holds v part) := by
  induction clauses with
  | nil => rfl
  | cons a clauses ih =>
    rw [product_cons, holds_append, holds_map, ih, ← Bool.and_or_distrib_right]
    rfl

theorem length_product : (product clauses part).length = clauses.length * part.length := by
  induction clauses with
  | nil => exact (Nat.zero_mul _).symm
  | cons a clauses ih =>
    rw [product_cons, List.length_append, List.length_map, ih, List.length_cons, Nat.succ_mul,
      Nat.add_comm]

theorem size_map {a : List α} :
    size (part.map (a ++ ·)) = part.length * a.length + size part := by
  induction part with
  | nil => exact (Nat.zero_mul _).symm
  | cons b part ih =>
    rw [size] at ih ⊢
    simp only [size, List.map_cons, List.sum_cons, List.length_append, List.length_cons, ih]
    ring

theorem size_product :
    size (product clauses part) = part.length * size clauses + clauses.length * size part := by
  induction clauses with
  | nil => simp [product, size]
  | cons a clauses ih =>
    rw [product_cons, size_append, size_map, ih]
    simp only [size, List.map_cons, List.sum_cons, List.length_cons]
    ring

end Clauses
