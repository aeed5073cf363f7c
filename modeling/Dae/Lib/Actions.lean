import Mathlib

/-!
# Machines of actions

A machine is given by what each of its actions makes of a state, if the action is possible there.

* `Reaches.invariant` carries what every action keeps over a whole run;
* `play_reaches` turns a list of actions that can be played into a run.
-/

namespace Dae

namespace Actions

variable {σ A : Type*} {act : σ → A → Option σ} {s s' : σ}

def Step (act : σ → A → Option σ) (s s' : σ) : Prop := ∃ action, act s action = some s'

abbrev Reaches (act : σ → A → Option σ) : σ → σ → Prop := Relation.ReflTransGen (Step act)

theorem Reaches.invariant {I : σ → Prop} (h : Reaches act s s') (hs : I s)
    (hact : ∀ {s s' : σ} {action : A}, I s → act s action = some s' → I s') : I s' := by
  induction h with
  | refl => exact hs
  | tail _ hstep ih =>
    obtain ⟨action, haction⟩ := hstep
    exact hact ih haction

/-- The actions one after the other. -/
def play (act : σ → A → Option σ) (s : σ) : List A → Option σ
  | [] => some s
  | action :: actions => (act s action).bind fun s' => play act s' actions

theorem play_reaches {actions : List A} (h : play act s actions = some s') :
    Reaches act s s' := by
  induction actions generalizing s with
  | nil =>
    cases h
    exact .refl
  | cons action actions ih =>
    obtain ⟨s₁, hact, hrest⟩ := Option.bind_eq_some_iff.mp h
    exact .head ⟨action, hact⟩ (ih hrest)

end Actions

end Dae
