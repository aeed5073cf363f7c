import Mathlib

/-!
# Walks along a chain

A partial step function, followed so many times.  A chain of headers, each of which says
where the next one starts, is walked this way.

`walk_unique`: there is only one walk to an end.
-/

namespace Chained

variable {S : Type*} {next : S → Option S}

/-- The state after so many steps. -/
def walk (next : S → Option S) : Nat → S → Option S
  | 0, s => some s
  | n + 1, s => (next s).bind (walk next n)

theorem walk_cons {n : Nat} {s s' t : S} (hs : next s = some s') (h : walk next n s' = some t) :
    walk next (n + 1) s = some t := by
  rw [walk, hs]
  exact h

/-- Two walks that cannot go on are the same. -/
theorem walk_unique {m n : Nat} {s t u : S} (hm : walk next m s = some t) (ht : next t = none)
    (hn : walk next n s = some u) (hu : next u = none) : m = n ∧ t = u := by
  induction m generalizing s n with
  | zero =>
    cases hm
    cases n with
    | zero =>
      cases hn
      exact ⟨rfl, rfl⟩
    | succ n =>
      rw [walk, ht] at hn
      cases hn
  | succ m ih =>
    obtain ⟨s', hs, hm⟩ := Option.bind_eq_some_iff.mp hm
    cases n with
    | zero =>
      cases hn
      rw [hs] at hu
      cases hu
    | succ n =>
      rw [walk, hs] at hn
      obtain ⟨rfl, rfl⟩ := ih hm hn
      exact ⟨rfl, rfl⟩

end Chained
