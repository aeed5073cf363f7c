import Mathlib

/-!
# Parsers that may ask for more

A parser that sees the start of a stream either asks for more or settles.  It is stable if what it
settled on does not change with what follows.  Then every start that is long enough gives the result
of the shortest one.
-/

namespace Dae

namespace Incremental

variable {α β : Type*} {parse : List α → β} {more : β → Prop}

/-- What is settled stays. -/
def Stable (parse : List α → β) (more : β → Prop) : Prop :=
  ∀ read later, ¬ more (parse read) → parse (read ++ later) = parse read

/-- The length of the shortest start of the stream on which the parser settles. -/
def SettledAt (parse : List α → β) (more : β → Prop) (stream : List α) : Nat → Prop :=
  IsLeast {k | k ≤ stream.length ∧ ¬ more (parse (stream.take k))}

theorem Stable.take (h : Stable parse more) {stream : List α} {k l : Nat} (hkl : k ≤ l)
    (hk : ¬ more (parse (stream.take k))) :
    parse (stream.take l) = parse (stream.take k) := by
  have hsplit : stream.take l = stream.take k ++ (stream.take l).drop k := by
    conv_lhs => rw [← List.take_append_drop k (stream.take l)]
    rw [List.take_take, Nat.min_eq_left hkl]
  rw [hsplit]
  exact h _ _ hk

variable {stream : List α} {first k : Nat}

theorem SettledAt.le_length (h : SettledAt parse more stream first) : first ≤ stream.length :=
  h.1.1

theorem SettledAt.settled (h : SettledAt parse more stream first) :
    ¬ more (parse (stream.take first)) :=
  h.1.2

theorem SettledAt.more_of_lt (h : SettledAt parse more stream first) (hk : k < first) :
    more (parse (stream.take k)) := by
  by_contra hmore
  have hle := h.2 ⟨hk.le.trans h.le_length, hmore⟩
  omega

theorem Stable.eq_of_le (h : Stable parse more) (hfirst : SettledAt parse more stream first)
    (hk : first ≤ k) : parse (stream.take k) = parse (stream.take first) :=
  h.take hk hfirst.settled

/-- The last element of a start that is settled was needed. -/
theorem Stable.settledAt_succ (h : Stable parse more) (hk : k < stream.length)
    (hmore : more (parse (stream.take k))) (hsettled : ¬ more (parse (stream.take (k + 1)))) :
    SettledAt parse more stream (k + 1) := by
  refine ⟨⟨hk, hsettled⟩, ?_⟩
  rintro l ⟨-, hl⟩
  by_contra hlt
  have heq := h.take (show l ≤ k by omega) hl
  exact hl (heq ▸ hmore)

end Incremental

end Dae
