import Mathlib

/-!
# Results and growing lists

A computation in `Except` that succeeded took its steps one after the other, and
each of them succeeded.  Proofs about such computations peel the steps off with
these rules instead of unfolding the monad.

The lists of such a computation are often tables that only grow, so an index that
was valid stays valid and keeps its entry.
-/

namespace Except

variable {ε ε' α β : Type}

variable {x : Except ε α}

theorem bind_eq_ok {f : α → Except ε β} {r : β} (h : (x >>= f) = .ok r) :
    ∃ a, x = .ok a ∧ f a = .ok r := by
  cases x with
  | error e => cases h
  | ok a => exact ⟨a, rfl, h⟩

theorem mapError_eq_ok {f : ε → ε'} {a : α} (h : x.mapError f = .ok a) :
    x = .ok a := by
  cases x with
  | error e => cases h
  | ok b =>
    cases h
    rfl

theorem map_eq_ok {f : α → β} {r : β} (h : x.map f = .ok r) :
    ∃ a, x = .ok a ∧ f a = r := by
  cases x with
  | error e => cases h
  | ok a =>
    cases h
    exact ⟨a, rfl, rfl⟩

/-- A guard that raises an error was not taken. -/
theorem ite_error_eq_ok {c : Prop} [Decidable c] {e : ε} {a : α}
    (h : (if c then .error e else x) = .ok a) : ¬c ∧ x = .ok a := by
  by_cases hc : c
  · rw [if_pos hc] at h
    cases h
  · rw [if_neg hc] at h
    exact ⟨hc, h⟩

end Except

namespace List

variable {α : Type*}

variable {l : List α} {i : Nat}

theorem modify_append_left (f : α → α) {more : List α} (h : i < l.length) :
    (l ++ more).modify i f = l.modify i f ++ more := by
  induction l generalizing i with
  | nil => exact absurd h (Nat.not_lt_zero i)
  | cons a l ih =>
    cases i with
    | zero => rfl
    | succ i =>
      have hi : i < l.length := Nat.lt_of_succ_lt_succ h
      rw [cons_append, modify_succ_cons, ih hi, modify_succ_cons, cons_append]

theorem modify_append_length (f : α → α) (l : List α) (a : α) (more : List α) :
    (l ++ a :: more).modify l.length f = l ++ f a :: more := by
  induction l with
  | nil => rfl
  | cons b l ih => rw [cons_append, length_cons, modify_succ_cons, ih, cons_append]

theorem modify_eq_mapIdx (f : α → α) (l : List α) (k : Nat) :
    l.modify k f = l.mapIdx fun i a => if i = k then f a else a := by
  apply ext_getElem?
  intro i
  rw [getElem?_modify, getElem?_mapIdx]
  by_cases hk : k = i
  · simp only [if_pos hk, if_pos hk.symm]
    rfl
  · simp only [if_neg hk, if_neg (Ne.symm hk)]
    cases l[i]? <;> rfl

/-- What holds of all entries still does after one was modified. -/
theorem forall_mem_modify {p : α → Prop} {f : α → α}
    (h : ∀ a ∈ l, p a) (hf : ∀ a ∈ l, p a → p (f a)) : ∀ a ∈ l.modify i f, p a := by
  intro a ha
  obtain ⟨j, hj⟩ := mem_iff_getElem?.mp ha
  rw [getElem?_modify] at hj
  obtain ⟨x, hx, rfl⟩ := Option.map_eq_some_iff.mp hj
  have hmem := mem_of_getElem? hx
  split
  · exact hf x hmem (h x hmem)
  · exact h x hmem

theorem forall_mem_set {p : α → Prop} {a : α} (h : ∀ x ∈ l, p x) (ha : p a) :
    ∀ x ∈ l.set i a, p x := by
  intro x hx
  rcases mem_or_eq_of_mem_set hx with hold | rfl
  · exact h x hold
  · exact ha

/-- An example stays one when another entry is replaced, or it itself by an example. -/
theorem exists_mem_set {p : α → Prop} {a b : α} (hb : l[i]? = some b) (h : ∃ x ∈ l, p x)
    (ha : p b → p a) : ∃ x ∈ l.set i a, p x := by
  obtain ⟨x, hx, hp⟩ := h
  obtain ⟨j, hj⟩ := mem_iff_getElem?.mp hx
  by_cases hne : j = i
  · subst hne
    obtain rfl := Option.some.inj (hj.symm.trans hb)
    exact ⟨a, mem_set (getElem?_eq_some_iff.mp hb).1 a, ha hp⟩
  · exact ⟨x, mem_of_getElem? ((getElem?_set_ne (Ne.symm hne)).trans hj), hp⟩

theorem forall_mem_of_set {p : α → Prop} {a b : α} (hb : l[i]? = some b)
    (h : ∀ x ∈ l.set i a, p x) (ha : p a → p b) : ∀ x ∈ l, p x := by
  intro x hx
  by_contra hp
  obtain ⟨y, hy, hnot⟩ := exists_mem_set (p := fun x => ¬p x) hb ⟨x, hx, hp⟩ (mt ha)
  exact hnot (h y hy)

/-- A prefix keeps its entries. -/
theorem IsPrefix.getElem?_eq_some {l' : List α} (h : l <+: l') {a : α}
    (hi : l[i]? = some a) : l'[i]? = some a := by
  obtain ⟨more, rfl⟩ := h
  have hlt : i < l.length := (getElem?_eq_some_iff.mp hi).1
  rw [getElem?_append_left hlt, hi]

variable {β : Type*}

/-- Related lists: every right entry has its left one. -/
theorem Forall₂.exists_left {R : α → β → Prop} {l' : List β}
    (h : Forall₂ R l l') {b : β} (hb : b ∈ l') : ∃ a ∈ l, R a b := by
  induction h with
  | nil => exact absurd hb not_mem_nil
  | cons hab _ ih =>
    rcases mem_cons.mp hb with rfl | hb
    · exact ⟨_, mem_cons_self, hab⟩
    · obtain ⟨a, ha, hR⟩ := ih hb
      exact ⟨a, mem_cons_of_mem _ ha, hR⟩

/-- Lookups that all succeed give a list. -/
theorem exists_map_some {f : α → Option β}
    (h : ∀ a ∈ l, ∃ b, f a = some b) : ∃ l' : List β, l.map f = l'.map some := by
  induction l with
  | nil => exact ⟨[], rfl⟩
  | cons a l ih =>
    obtain ⟨b, hb⟩ := h a mem_cons_self
    obtain ⟨l', hl'⟩ := ih fun x hx => h x (mem_cons_of_mem _ hx)
    exact ⟨b :: l', by rw [map_cons, map_cons, hb, hl']⟩

/-- A disjunction over a list depends on its members only. -/
theorem any_congr_mem {l' : List α} (h : ∀ a, a ∈ l ↔ a ∈ l') (p : α → Bool) :
    l.any p = l'.any p := by
  rw [Bool.eq_iff_iff, any_eq_true, any_eq_true]
  constructor
  · rintro ⟨a, ha, hp⟩
    exact ⟨a, (h a).mp ha, hp⟩
  · rintro ⟨a, ha, hp⟩
    exact ⟨a, (h a).mpr ha, hp⟩

/-- One element replaced, seen through a partial function: what it gave is exchanged. -/
theorem filterMap_set_perm (f : α → Option β) {y : α} (x : α)
    (h : l[i]? = some y) :
    ((f y).toList ++ (l.set i x).filterMap f).Perm ((f x).toList ++ l.filterMap f) := by
  induction l generalizing i with
  | nil => simp at h
  | cons a l ih =>
    cases i with
    | zero =>
      obtain rfl : a = y := by simpa using h
      cases hx : f x <;> cases ha : f a <;> simp [hx, ha]
      exact Perm.swap _ _ _
    | succ i =>
      have hperm := ih (i := i) (by simpa using h)
      cases ha : f a with
      | none => simpa [ha] using hperm
      | some b =>
        simp only [set_cons_succ, filterMap_cons, ha]
        exact perm_middle.trans ((hperm.cons b).trans perm_middle.symm)

/-- One element replaced in a sum. -/
theorem sum_map_set (f : α → Nat) {y : α} (x : α) (h : l[i]? = some y) :
    f y + ((l.set i x).map f).sum = f x + (l.map f).sum := by
  have hperm := (filterMap_set_perm some x h).map f
  simpa using hperm.sum_nat

theorem mem_of_lookup [BEq α] [LawfulBEq α] {a : α} {v : β} {l : List (α × β)}
    (h : l.lookup a = some v) : (a, v) ∈ l := by
  obtain ⟨before, after, rfl, -⟩ := lookup_eq_some_iff.mp h
  exact mem_append_right _ mem_cons_self

end List
