import Mathlib

/-!
# Runs over a memo table

A computation over a state that may fail with an error, and that may also have no result
at all, because it panicked or ran out of fuel.  The state survives an error.

`Answers` says that a computation gives one and the same result from every sound state
and leaves a sound state behind: this is what a memo table needs.  The rules follow the
computation, so a function built from others that answer answers too.
-/

/-- A computation over a state; `none` is no result. -/
def Run (σ ε α : Type) : Type := σ → Option (Except ε α × σ)

namespace Run

variable {σ ε α β : Type}

protected def pure (a : α) : Run σ ε α := fun s => some (.ok a, s)

protected def bind (x : Run σ ε α) (f : α → Run σ ε β) : Run σ ε β := fun s =>
  match x s with
  | none => none
  | some (.error e, s) => some (.error e, s)
  | some (.ok a, s) => f a s

instance : Monad (Run σ ε) where
  pure := Run.pure
  bind := Run.bind

variable {x : Run σ ε α} {f : α → Run σ ε β} {s : σ}

theorem bind_ok {s' : σ} {a : α} (h : x s = some (.ok a, s')) : (x >>= f) s = f a s' := by
  change Run.bind x f s = _
  rw [Run.bind, h]

theorem bind_error {s' : σ} {e : ε}
    (h : x s = some (.error e, s')) : (x >>= f) s = some (.error e, s') := by
  change Run.bind x f s = _
  rw [Run.bind, h]

/-- The result of a pure computation, which may have none. -/
def lift (x : Option (Except ε α)) : Run σ ε α := fun s => x.map (·, s)

def mapError (f : ε → ε) (x : Run σ ε α) : Run σ ε α := fun s =>
  (x s).map fun (result, s) => (result.mapError f, s)

/-- From every sound state the result is this one, and the state stays sound. -/
def Answers (sound : σ → Prop) (x : Run σ ε α) (result : Except ε α) : Prop :=
  ∀ s, sound s → ∃ s', x s = some (result, s') ∧ sound s'

variable {sound : σ → Prop}

theorem Answers.lift (result : Except ε α) : Answers sound (Run.lift (some result)) result :=
  fun s hs => ⟨s, rfl, hs⟩

theorem Answers.pure (a : α) : Answers sound (Pure.pure a : Run σ ε α) (.ok a) :=
  fun s hs => ⟨s, rfl, hs⟩

theorem Answers.bind {a : α} {result : Except ε β}
    (hx : Answers sound x (.ok a)) (hf : Answers sound (f a) result) :
    Answers sound (x >>= f) result := by
  intro s hs
  obtain ⟨s₁, hrun, hs₁⟩ := hx s hs
  obtain ⟨s₂, hrun₂, hs₂⟩ := hf s₁ hs₁
  exact ⟨s₂, (bind_ok hrun).trans hrun₂, hs₂⟩

theorem Answers.bind_error {e : ε}
    (hx : Answers sound x (.error e)) : Answers sound (x >>= f) (.error e) := by
  intro s hs
  obtain ⟨s₁, hrun, hs₁⟩ := hx s hs
  exact ⟨s₁, Run.bind_error hrun, hs₁⟩

theorem Answers.mapError {result : Except ε α} {f : ε → ε}
    (hx : Answers sound x result) : Answers sound (x.mapError f) (result.mapError f) := by
  intro s hs
  obtain ⟨s₁, hrun, hs₁⟩ := hx s hs
  refine ⟨s₁, ?_, hs₁⟩
  rw [Run.mapError, hrun]
  rfl

end Run
