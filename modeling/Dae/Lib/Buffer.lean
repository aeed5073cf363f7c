import Dae.Lib.Run

/-!
# Programs over a buffer

A program reads and writes a buffer of fixed length by position; an access out of range has no
result, and what was written survives an error.

`Within n S x Q` is the rule of such a program: on a buffer of length `n` it returns, changes at most
the positions in `S`, and what it returns without an error satisfies `Q`.
-/

namespace Dae

namespace Buffer

variable {β ε α γ : Type} {n : Nat} {S : Nat → Prop}

def readAt (i : Nat) : Run (List β) ε β := fun buf => buf[i]?.map (.ok ·, buf)

def writeAt (i : Nat) (b : β) : Run (List β) ε Unit := fun buf =>
  if i < buf.length then some (.ok (), buf.set i b) else none

/-- `buf[i:j]` -/
def readSlice (i j : Nat) : Run (List β) ε (List β) := fun buf =>
  if i ≤ j ∧ j ≤ buf.length then some (.ok ((buf.take j).drop i), buf) else none

/-- The value, or the error if there is none. -/
def ofOption (e : ε) : Option α → Run (List β) ε α
  | some a => pure a
  | none => fun buf => some (.error e, buf)

/-- Returns on every buffer of this length, and writes only to the given positions. -/
def Within (n : Nat) (S : Nat → Prop) (x : Run (List β) ε α) (Q : α → Prop) : Prop :=
  ∀ buf : List β, buf.length = n → ∃ result buf', x buf = some (result, buf') ∧ buf'.length = n ∧
    (∀ i, ¬ S i → buf'[i]? = buf[i]?) ∧ ∀ a, result = .ok a → Q a

theorem Within.pure {Q : α → Prop} {a : α} (h : Q a) :
    Within n S (Pure.pure a : Run (List β) ε α) Q := by
  intro buf hlen
  refine ⟨.ok a, buf, rfl, hlen, fun _ _ => rfl, fun b hb => ?_⟩
  cases hb
  exact h

theorem Within.bind {P : α → Prop} {Q : γ → Prop} {x : Run (List β) ε α}
    {f : α → Run (List β) ε γ} (hx : Within n S x P) (hf : ∀ a, P a → Within n S (f a) Q) :
    Within n S (x >>= f) Q := by
  intro buf hlen
  obtain ⟨result, buf₁, hrun, hlen₁, hkeep₁, hp⟩ := hx buf hlen
  change ∃ result buf', Run.bind x f buf = _ ∧ _
  rw [Run.bind, hrun]
  cases result with
  | error e => exact ⟨.error e, buf₁, rfl, hlen₁, hkeep₁, fun a ha => by cases ha⟩
  | ok a =>
    obtain ⟨result, buf₂, hrun₂, hlen₂, hkeep₂, hq⟩ := hf a (hp a rfl) buf₁ hlen₁
    exact ⟨result, buf₂, hrun₂, hlen₂, fun i hi => (hkeep₂ i hi).trans (hkeep₁ i hi), hq⟩

theorem Within.mono {T : Nat → Prop} {P Q : α → Prop} {x : Run (List β) ε α} (hx : Within n S x P)
    (hsub : ∀ i, S i → T i) (himp : ∀ a, P a → Q a) : Within n T x Q := by
  intro buf hlen
  obtain ⟨result, buf', hrun, hlen', hkeep, hp⟩ := hx buf hlen
  exact ⟨result, buf', hrun, hlen', fun i hi => hkeep i (mt (hsub i) hi),
    fun a ha => himp a (hp a ha)⟩

variable {i : Nat}

theorem Within.readAt (hi : i < n) :
    Within n S (readAt i : Run (List β) ε β) fun _ => True := by
  rintro buf rfl
  refine ⟨.ok buf[i], buf, ?_, rfl, fun _ _ => rfl, fun _ _ => trivial⟩
  rw [Buffer.readAt, List.getElem?_eq_getElem hi]
  rfl

theorem Within.writeAt {b : β} (hi : i < n) (hS : S i) :
    Within n S (writeAt i b : Run (List β) ε Unit) fun _ => True := by
  rintro buf rfl
  refine ⟨.ok (), buf.set i b, if_pos hi, List.length_set, fun j hj => ?_, fun _ _ => trivial⟩
  have hne : i ≠ j := fun heq => hj (heq ▸ hS)
  exact List.getElem?_set_ne hne

theorem Within.readSlice {j : Nat} (hij : i ≤ j) (hj : j ≤ n) :
    Within n S (readSlice i j : Run (List β) ε (List β)) fun l => l.length = j - i := by
  rintro buf rfl
  refine ⟨.ok ((buf.take j).drop i), buf, if_pos ⟨hij, hj⟩, rfl, fun _ _ => rfl, fun l hl => ?_⟩
  cases hl
  rw [List.length_drop, List.length_take]
  omega

theorem Within.lift {a : α} :
    Within n S (Run.lift (some (.ok a)) : Run (List β) ε α) fun b => b = a :=
  Within.pure rfl

theorem Within.ofOption {e : ε} (x : Option α) :
    Within n S (ofOption e x : Run (List β) ε α) fun a => x = some a := by
  cases x with
  | some a => exact Within.pure rfl
  | none =>
    intro buf hlen
    exact ⟨.error e, buf, rfl, hlen, fun _ _ => rfl, fun a ha => by cases ha⟩

end Buffer

end Dae
