import Mathlib

/-!
# Computations with checked accesses

A computation over byte sequences returns a value, returns an error, or stops at an access that is
out of range.  `Gives` says that the last does not happen, and what is known of the value; its rules
take a computation apart along its binds.
-/

namespace Dae

/-- A computation that may fail with an error of type `ε`, or access something out of range. -/
abbrev Checked (ε : Type) : Type → Type := ExceptT ε Option

namespace Checked

variable {ε α β : Type}

/-- An access out of range. -/
def outOfRange : Checked ε α := ExceptT.mk none

/-- `l[i]` -/
def index (l : List α) (i : Nat) : Checked ε α := ExceptT.mk (l[i]?.map .ok)

/-- `l[i:]` -/
def sliceFrom (l : List α) (i : Nat) : Checked ε (List α) :=
  if i ≤ l.length then pure (l.drop i) else outOfRange

/-- `l[i:j]` -/
def slice (l : List α) (i j : Nat) : Checked ε (List α) :=
  if i ≤ j ∧ j ≤ l.length then pure ((l.take j).drop i) else outOfRange

/-- Fails unless the condition holds. -/
def require (e : ε) (c : Prop) [Decidable c] : Checked ε Unit := if c then pure () else throw e

/-- The value, or the error if there is none. -/
def ofOption (e : ε) : Option α → Checked ε α
  | some a => pure a
  | none => throw e

/-- The error of a computation, wrapped. -/
def mapError {ε' : Type} (g : ε → ε') (x : Checked ε α) : Checked ε' α :=
  ExceptT.mk (x.run.map (·.mapError g))

variable {l : List α} {i : Nat}

theorem sliceFrom_eq (h : i ≤ l.length) :
    (sliceFrom l i : Checked ε (List α)) = pure (l.drop i) := if_pos h

variable {j : Nat}

theorem slice_eq (hij : i ≤ j) (hj : j ≤ l.length) :
    (slice l i j : Checked ε (List α)) = pure ((l.take j).drop i) := if_pos ⟨hij, hj⟩

variable {a : α}

theorem index_eq (h : l[i]? = some a) :
    (index l i : Checked ε α) = pure a := by
  rw [index, h]
  rfl

theorem mapError_pure {ε' : Type} (g : ε → ε') (a : α) :
    mapError g (pure a : Checked ε α) = pure a := rfl

theorem throw_ne_pure {e : ε} : (throw e : Checked ε α) ≠ pure a := by
  intro h
  cases h

variable {x : Checked ε α}

/-- The computation does not access anything out of range. -/
def Safe (x : Checked ε α) : Prop := x.run ≠ none

/-- The computation is safe, and what it returns has the property. -/
def Gives (x : Checked ε α) (P : α → Prop) : Prop := Safe x ∧ ∀ a, x = pure a → P a

variable {P : α → Prop}

theorem Gives.pure (h : P a) : Gives (pure a : Checked ε α) P := by
  refine ⟨fun hnone => ?_, fun b hb => ?_⟩
  · cases hnone
  · cases hb
    exact h

theorem Gives.throw (e : ε) : Gives (throw e : Checked ε α) P := by
  refine ⟨fun hnone => ?_, fun b hb => absurd hb throw_ne_pure⟩
  cases hnone

theorem Gives.bind {f : α → Checked ε β} {Q : β → Prop} (hx : Gives x P)
    (hf : ∀ a, P a → Gives (f a) Q) : Gives (x >>= f) Q := by
  match x with
  | none => exact absurd rfl hx.1
  | some (.error e) => exact .throw e
  | some (.ok a) => exact hf a (hx.2 a rfl)

theorem Gives.imp {Q : α → Prop} (hx : Gives x P) (h : ∀ a, P a → Q a) : Gives x Q :=
  ⟨hx.1, fun a ha => h a (hx.2 a ha)⟩

theorem Gives.mapError {ε' : Type} {g : ε → ε'} (h : Gives x P) : Gives (mapError g x) P := by
  match x with
  | none => exact absurd rfl h.1
  | some (.error e) => exact .throw (g e)
  | some (.ok a) => exact .pure (h.2 a rfl)

theorem Gives.ite {c : Prop} [Decidable c] {y : Checked ε α} (hx : c → Gives x P)
    (hy : ¬ c → Gives y P) : Gives (if c then x else y) P := by
  split
  next h => exact hx h
  next h => exact hy h

theorem Gives.require (e : ε) (c : Prop) [Decidable c] : Gives (require e c) fun _ => c :=
  .ite (fun h => .pure h) fun _ => .throw _

theorem Gives.ofOption (e : ε) (x : Option α) : Gives (ofOption e x) fun _ => True := by
  cases x with
  | some a => exact .pure trivial
  | none => exact .throw e

theorem Gives.slice (hij : i ≤ j) (hj : j ≤ l.length) :
    Gives (slice l i j : Checked ε (List α)) (· = (l.take j).drop i) := by
  rw [slice_eq hij hj]
  exact .pure rfl

theorem Gives.sliceFrom (h : i ≤ l.length) :
    Gives (sliceFrom l i : Checked ε (List α)) (· = l.drop i) := by
  rw [sliceFrom_eq h]
  exact .pure rfl

theorem Gives.index (h : i < l.length) : Gives (index l i : Checked ε α) fun _ => True := by
  rw [index_eq (List.getElem?_eq_getElem h)]
  exact .pure trivial

/-- A computation that is safe returns a value or fails. -/
theorem Gives.cases (h : Gives x P) :
    (∃ a, x = Pure.pure a ∧ P a) ∨ ∃ e, x = MonadExcept.throw e := by
  match x with
  | none => exact absurd rfl h.1
  | some (.error e) => exact .inr ⟨e, rfl⟩
  | some (.ok a) => exact .inl ⟨a, rfl, h.2 a rfl⟩

end Checked

end Dae
