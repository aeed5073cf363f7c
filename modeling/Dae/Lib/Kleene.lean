import Mathlib

/-!
# Three-valued truth and exact worlds

A predicate over a set of possible worlds has three answers: it fails in every
world (`miss`), it holds in every world (`hit`), or the worlds disagree
(`maybe`).  `Truth.Covers t b` says that the answer `t` is right about a world
where the exact answer is `b`: a definite answer must be that answer.

The connectives are strong Kleene ones, written as the interpreters of this
kind write them: disjunction is the maximum of `miss < maybe < hit` and
negation is the reflection of that order.  Everything below is about one
world at a time; the quantification over worlds is left to the users.
-/

namespace Kleene

/-- The three answers of a predicate over a set of worlds. -/
inductive Truth where
  | miss
  | maybe
  | hit
  deriving DecidableEq, Repr

namespace Truth

/-- Disjunction: the larger of the two answers. -/
def or : Truth → Truth → Truth
  | hit, _ => hit
  | _, hit => hit
  | maybe, _ => maybe
  | _, maybe => maybe
  | miss, miss => miss

/-- Conjunction: the smaller of the two answers. -/
def and : Truth → Truth → Truth
  | miss, _ => miss
  | _, miss => miss
  | maybe, _ => maybe
  | _, maybe => maybe
  | hit, hit => hit

/-- Negation: the reflection of `miss < maybe < hit`. -/
def not : Truth → Truth
  | miss => hit
  | maybe => maybe
  | hit => miss

/-- Negation under a flag. -/
def xor (n : Bool) (t : Truth) : Truth := if n then t.not else t

/-- The answer of a predicate that does not depend on the world. -/
def ofBool (b : Bool) : Truth := if b then hit else miss

/-- The answer read from a lower and an upper bound of the exact bit. -/
def ofBounds (lower upper : Bool) : Truth :=
  if lower then hit else if upper then maybe else miss

/-- The answer `t` is right about a world whose exact answer is `b`. -/
def Covers (t : Truth) (b : Bool) : Prop :=
  (t = hit → b = true) ∧ (t = miss → b = false)

@[simp] theorem miss_or (t : Truth) : miss.or t = t := by cases t <;> rfl

@[simp] theorem hit_or (t : Truth) : hit.or t = hit := by cases t <;> rfl

@[simp] theorem or_hit (t : Truth) : t.or hit = hit := by cases t <;> rfl

@[simp] theorem miss_and (t : Truth) : miss.and t = miss := by cases t <;> rfl

/-- Disjunction is associative, so a clause may be read from either end. -/
theorem or_assoc (a b c : Truth) : (a.or b).or c = a.or (b.or c) := by
  cases a <;> cases b <;> cases c <;> rfl

/-- A conjunct that does not miss leaves the miss to the other one. -/
theorem and_eq_miss {a : Truth} (b : Truth) (ha : a ≠ miss) : a.and b = miss ↔ b = miss := by
  cases a <;> cases b <;> simp_all [Truth.and]

/-- A conjunction that does not miss is in doubt if one of its conjuncts is. -/
theorem and_eq_maybe {a b : Truth} (ha : a ≠ miss) (hb : b ≠ miss) :
    (decide (a = maybe) || decide (b = maybe)) = decide (a.and b = maybe) := by
  cases a <;> cases b <;> simp_all [Truth.and]

@[simp] theorem ofBool_true : ofBool true = hit := rfl

@[simp] theorem ofBool_false : ofBool false = miss := rfl

/-- On answers that are definite the connectives are the Boolean ones. -/
@[simp] theorem ofBool_or (a b : Bool) : (ofBool a).or (ofBool b) = ofBool (a || b) := by
  cases a <;> cases b <;> rfl

@[simp] theorem ofBool_and (a b : Bool) :
    (ofBool a).and (ofBool b) = ofBool (a && b) := by
  cases a <;> cases b <;> rfl

@[simp] theorem ofBool_xor (n b : Bool) : (ofBool b).xor n = ofBool (n ^^ b) := by
  cases n <;> cases b <;> rfl

/-- Two equal bounds leave nothing open. -/
@[simp] theorem ofBounds_self (b : Bool) : ofBounds b b = ofBool b := by
  cases b <;> rfl

/-- A predicate that does not depend on the world is covered by its value. -/
theorem covers_ofBool (b : Bool) : (ofBool b).Covers b := by
  cases b <;> simp [Covers, ofBool]

variable {b : Bool}

/-- Bounds cover every bit between them. -/
theorem covers_ofBounds {lower upper : Bool} (hl : lower = true → b = true)
    (hu : b = true → upper = true) : (ofBounds lower upper).Covers b := by
  cases lower <;> cases upper <;> cases b <;> simp_all [Covers, ofBounds]

variable {t : Truth}

/-- Disjunction preserves coverage. -/
theorem Covers.or {s : Truth} {a : Bool} (hs : s.Covers a) (ht : t.Covers b) :
    (s.or t).Covers (a || b) := by
  obtain ⟨hs₁, hs₂⟩ := hs
  obtain ⟨ht₁, ht₂⟩ := ht
  cases s <;> cases t <;> simp_all [Covers, Truth.or]

/-- Conjunction preserves coverage. -/
theorem Covers.and {s : Truth} {a : Bool} (hs : s.Covers a) (ht : t.Covers b) :
    (s.and t).Covers (a && b) := by
  obtain ⟨hs₁, hs₂⟩ := hs
  obtain ⟨ht₁, ht₂⟩ := ht
  cases s <;> cases t <;> simp_all [Covers, Truth.and]

/-- Negation preserves coverage. -/
theorem Covers.xor (n : Bool) (h : t.Covers b) :
    (t.xor n).Covers (n ^^ b) := by
  obtain ⟨h₁, h₂⟩ := h
  cases n <;> cases t <;> simp_all [Covers, Truth.xor, Truth.not]

end Truth

end Kleene
