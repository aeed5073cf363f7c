import Mathlib

/-!
# Sorted lists without repetitions

Sorting a list and dropping the repetitions next to each other leaves every member
once, in order.
-/

namespace Dae

variable {α : Type} [DecidableEq α]

/-- `slices.Compact`. -/
def compact : List α → List α
  | [] => []
  | [a] => [a]
  | a :: b :: rest => if a = b then compact (b :: rest) else a :: compact (b :: rest)

theorem mem_compact {a : α} (l : List α) : a ∈ compact l ↔ a ∈ l := by
  fun_induction compact l with
  | case1 => rfl
  | case2 => rfl
  | case3 b rest ih => simp_all
  | case4 b c rest h ih => simp [ih]

/-- In a sorted list equal members stand together. -/
theorem pairwise_compact {r : α → α → Prop} [Std.Antisymm r] {l : List α} (h : l.Pairwise r) :
    (compact l).Pairwise fun a b => r a b ∧ a ≠ b := by
  fun_induction compact l with
  | case1 => exact .nil
  | case2 a => exact List.pairwise_singleton _ _
  | case3 b rest ih => exact ih h.of_cons
  | case4 a b rest hne ih =>
    refine List.pairwise_cons.mpr ⟨?_, ih h.of_cons⟩
    intro c hc
    rw [mem_compact] at hc
    have hac := List.rel_of_pairwise_cons h hc
    refine ⟨hac, ?_⟩
    rintro rfl
    rcases List.mem_cons.mp hc with rfl | hc
    · exact hne rfl
    · exact hne (Std.Antisymm.antisymm _ _ (List.rel_of_pairwise_cons h List.mem_cons_self)
        (List.rel_of_pairwise_cons h.of_cons hc))

end Dae
