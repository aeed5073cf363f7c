import Mathlib

/-!
# First writes

Pieces of data, each at an offset, are written one after the other, and the first piece that has a
position decides on its value.

* `firstValue_append`: a later piece only adds where nothing was;
* `firstValue_eq_of_agree`: pieces that agree where they overlap leave no trace of how the data was
  cut or in which order it came.
-/

namespace Dae

variable {α : Type*}

/-- The value that a piece has for a position. -/
def valueAt (piece : Nat × List α) (i : Nat) : Option α :=
  if piece.1 ≤ i then piece.2[i - piece.1]? else none

/-- The value of the first piece that has one. -/
def firstValue (pieces : List (Nat × List α)) (i : Nat) : Option α :=
  pieces.findSome? (valueAt · i)

variable {i : Nat}

theorem valueAt_isSome {piece : Nat × List α} :
    (valueAt piece i).isSome = true ↔ piece.1 ≤ i ∧ i < piece.1 + piece.2.length := by
  unfold valueAt
  split
  next hle =>
    rw [Option.isSome_iff_ne_none, Ne, List.getElem?_eq_none_iff]
    omega
  next hgt => simp [hgt]

theorem valueAt_eq_none {piece : Nat × List α}
    (h : ¬ (piece.1 ≤ i ∧ i < piece.1 + piece.2.length)) : valueAt piece i = none :=
  Option.not_isSome_iff_eq_none.mp fun hsome => h (valueAt_isSome.mp hsome)

theorem valueAt_cons (offset : Nat) (a : α) (data : List α) (i : Nat) :
    valueAt (offset, a :: data) i = if i = offset then some a else valueAt (offset + 1, data) i := by
  unfold valueAt
  by_cases hi : i = offset
  · simp [hi]
  · rw [if_neg hi]
    by_cases hle : offset ≤ i
    · rw [if_pos hle, if_pos (by omega : offset + 1 ≤ i)]
      have hsub : i - offset = i - (offset + 1) + 1 := by omega
      rw [hsub, List.getElem?_cons_succ]
    · rw [if_neg hle, if_neg (by omega)]

theorem firstValue_append (pieces more : List (Nat × List α)) (i : Nat) :
    firstValue (pieces ++ more) i = (firstValue pieces i).or (firstValue more i) :=
  List.findSome?_append

theorem firstValue_snoc (pieces : List (Nat × List α)) (piece : Nat × List α) (i : Nat) :
    firstValue (pieces ++ [piece]) i = (firstValue pieces i).or (valueAt piece i) := by
  rw [firstValue_append]
  congr 1
  simp [firstValue]

variable {pieces : List (Nat × List α)}

theorem exists_of_firstValue {a : α}
    (h : firstValue pieces i = some a) : ∃ piece ∈ pieces, valueAt piece i = some a :=
  List.exists_of_findSome?_eq_some h

theorem firstValue_isSome :
    (firstValue pieces i).isSome = true ↔
      ∃ piece ∈ pieces, piece.1 ≤ i ∧ i < piece.1 + piece.2.length := by
  unfold firstValue
  rw [List.findSome?_isSome_iff]
  simp only [valueAt_isSome]

/-- The pieces have the same value wherever two of them overlap. -/
def AgreeOnOverlaps (pieces : List (Nat × List α)) : Prop :=
  ∀ p ∈ pieces, ∀ q ∈ pieces, ∀ i a b, valueAt p i = some a → valueAt q i = some b → a = b

theorem firstValue_eq_of_agree {more : List (Nat × List α)}
    (hagree : AgreeOnOverlaps (pieces ++ more))
    (hsame : ∀ i, (firstValue pieces i).isSome = (firstValue more i).isSome) :
    firstValue pieces = firstValue more := by
  funext i
  cases ha : firstValue pieces i with
  | none =>
    have hnone := hsame i
    rw [ha] at hnone
    exact (Option.not_isSome_iff_eq_none.mp (by simp [← hnone])).symm
  | some a =>
    have hsome := hsame i
    rw [ha] at hsome
    obtain ⟨b, hb⟩ := Option.isSome_iff_exists.mp hsome.symm
    obtain ⟨p, hp, hpa⟩ := exists_of_firstValue ha
    obtain ⟨q, hq, hqb⟩ := exists_of_firstValue hb
    rw [hb, hagree p (List.mem_append_left _ hp) q (List.mem_append_right _ hq) i a b hpa hqb]

end Dae
