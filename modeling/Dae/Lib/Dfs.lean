import Mathlib

/-!
# Depth-first search for cycles

The search marks a vertex when it enters it and again when it leaves it, and fails when it
meets a vertex that it has entered and not left.

* `visit_order` — what a search that does not fail has left, in the order of leaving,
  has every dependency before its dependents;
* `visit_ends` — the number of vertices not yet entered is enough fuel, and a failed search
  reports a cycle.
-/

namespace Dfs

variable {α ε : Type}

inductive Mark where
  | fresh
  | entered
  | left
  deriving DecidableEq, Repr

structure Search (α : Type) where
  state : α → Mark := fun _ => .fresh
  stack : List α := []

/-- Visit the vertices one after the other. -/
def visitAll (visit : α → Search α → Option (Except ε (Search α))) :
    List α → Search α → Option (Except ε (Search α))
  | [], s => some (.ok s)
  | a :: rest, s =>
    match visit a s with
    | none => none
    | some (.error e) => some (.error e)
    | some (.ok s) => visitAll visit rest s

variable {dependencies : α → List α}

/-- Every dependency stands before its dependents. -/
def Topological (dependencies : α → List α) (order : List α) : Prop :=
  ∀ before a after, order = before ++ a :: after → ∀ d ∈ dependencies a, d ∈ before

/-- The vertices left so far, in the order of leaving. -/
structure Order (dependencies : α → List α) (s : Search α) (order : List α) : Prop where
  left : ∀ a, s.state a = .left ↔ a ∈ order
  nodup : order.Nodup
  topological : Topological dependencies order

theorem Topological.concat {order : List α} {a : α} (h : Topological dependencies order)
    (ha : ∀ d ∈ dependencies a, d ∈ order) : Topological dependencies (order ++ [a]) := by
  intro before b after heq d hd
  rcases List.eq_nil_or_concat after with rfl | ⟨after, c, rfl⟩
  · obtain ⟨rfl, hb⟩ := List.append_inj' heq rfl
    cases hb
    exact ha d hd
  · rw [List.concat_eq_append, ← List.cons_append, ← List.append_assoc] at heq
    obtain ⟨rfl, -⟩ := List.append_inj' heq rfl
    exact h before b after rfl d hd

/-- What a successful visit has done: the order has grown, and the vertices that were
entered and not left are the same. -/
def Extends (dependencies : α → List α) (s s' : Search α) (order : List α) (visited : List α) : Prop :=
  ∃ more, Order dependencies s' (order ++ more) ∧ (∀ a ∈ visited, a ∈ order ++ more) ∧
    ∀ a, s'.state a = .entered ↔ s.state a = .entered

theorem visitAll_order {visit : α → Search α → Option (Except ε (Search α))}
    (hvisit : ∀ a s s' order, visit a s = some (.ok s') → Order dependencies s order →
      Extends dependencies s s' order [a])
    {rest : List α} {s s' : Search α} {order : List α}
    (h : visitAll visit rest s = some (.ok s')) (horder : Order dependencies s order) :
    Extends dependencies s s' order rest := by
  induction rest generalizing s order with
  | nil =>
    cases h
    refine ⟨[], ?_, fun a ha => (nomatch ha), fun _ => Iff.rfl⟩
    rwa [List.append_nil]
  | cons a rest ih =>
    rw [visitAll] at h
    split at h
    · cases h
    · cases h
    next s₁ hfirst =>
      obtain ⟨more, horder₁, hmem, hentered⟩ := hvisit a s s₁ order hfirst horder
      obtain ⟨more', horder', hmem', hentered'⟩ := ih h horder₁
      refine ⟨more ++ more', ?_, ?_, fun b => (hentered' b).trans (hentered b)⟩
      · rwa [← List.append_assoc]
      · rw [← List.append_assoc]
        intro b hb
        rcases List.mem_cons.mp hb with rfl | hb
        · exact List.mem_append_left _ (hmem b List.mem_cons_self)
        · exact hmem' b hb

variable [DecidableEq α] {report : List α → ε}

def Search.enter (s : Search α) (a : α) : Search α :=
  ⟨Function.update s.state a .entered, s.stack ++ [a]⟩

def Search.leave (s : Search α) (a : α) : Search α :=
  ⟨Function.update s.state a .left, s.stack.dropLast⟩

theorem Search.state_enter (s : Search α) (a b : α) :
    (s.enter a).state b = if b = a then .entered else s.state b :=
  Function.update_apply s.state a .entered b

theorem Search.state_leave (s : Search α) (a b : α) :
    (s.leave a).state b = if b = a then .left else s.state b :=
  Function.update_apply s.state a .left b

/-- Visit a vertex and all that it depends on.  A cycle is reported as the part of the
stack from the vertex on, closed by the vertex. -/
def visit (dependencies : α → List α) (report : List α → ε) :
    Nat → α → Search α → Option (Except ε (Search α))
  | 0, _, _ => none
  | fuel + 1, a, s =>
    match s.state a with
    | .entered => some (.error (report (s.stack.dropWhile (· ≠ a) ++ [a])))
    | .left => some (.ok s)
    | .fresh =>
      match visitAll (visit dependencies report fuel) (dependencies a) (s.enter a) with
      | none => none
      | some (.error e) => some (.error e)
      | some (.ok s) => some (.ok (s.leave a))

/-- **A search that succeeds finds a topological order.** -/
theorem visit_order {fuel : Nat} {a : α} {s s' : Search α} {order : List α}
    (h : visit dependencies report fuel a s = some (.ok s')) (horder : Order dependencies s order) :
    Extends dependencies s s' order [a] := by
  induction fuel generalizing a s s' order with
  | zero => cases h
  | succ fuel ih =>
    rw [visit] at h
    split at h
    · cases h
    next hleft =>
      cases h
      refine ⟨[], ?_, ?_, fun _ => Iff.rfl⟩
      · rwa [List.append_nil]
      · intro b hb
        rw [List.mem_singleton.mp hb, List.append_nil]
        exact (horder.left a).mp hleft
    next hfresh =>
      split at h
      · cases h
      · cases h
      next s₁ hrest =>
        cases h
        have hentered : Order dependencies (s.enter a) order := by
          refine ⟨fun b => ?_, horder.nodup, horder.topological⟩
          rw [← horder.left b, Search.state_enter]
          by_cases hb : b = a
          · rw [if_pos hb, hb, hfresh]
            exact ⟨fun h => (nomatch h), fun h => (nomatch h)⟩
          · rw [if_neg hb]
        obtain ⟨more, horder₁, hmem, hsame⟩ :=
          visitAll_order (fun a s s' order h => ih h) hrest hentered
        have hactive : s₁.state a = .entered := by
          rw [hsame a, Search.state_enter, if_pos rfl]
        have hnew : a ∉ order ++ more := by
          rw [← horder₁.left a, hactive]
          exact fun h => nomatch h
        refine ⟨more ++ [a], ?_, ?_, fun b => ?_⟩
        · rw [← List.append_assoc]
          refine ⟨fun b => ?_, ?_, horder₁.topological.concat hmem⟩
          · rw [List.mem_append, List.mem_singleton, ← horder₁.left b, Search.state_leave]
            by_cases hb : b = a
            · rw [if_pos hb]
              exact ⟨fun _ => .inr hb, fun _ => rfl⟩
            · rw [if_neg hb]
              exact ⟨.inl, fun h => h.resolve_right hb⟩
          · exact List.nodup_append.mpr ⟨horder₁.nodup, List.nodup_singleton a, by
              rintro b hb c hc rfl
              exact hnew (List.mem_singleton.mp hc ▸ hb)⟩
        · intro b hb
          rw [List.mem_singleton.mp hb, ← List.append_assoc]
          exact List.mem_append_right _ List.mem_cons_self
        · rw [Search.state_leave]
          by_cases hb : b = a
          · rw [if_pos hb, hb, hfresh]
            exact ⟨fun h => (nomatch h), fun h => (nomatch h)⟩
          · rw [if_neg hb, hsame b, Search.state_enter, if_neg hb]

/-! ### Cycles -/

/-- A closed walk along the dependencies. -/
def Cycle (dependencies : α → List α) (cycle : List α) : Prop :=
  (∃ a path, cycle = a :: path ++ [a]) ∧ cycle.IsChain fun a b => b ∈ dependencies a

/-- What is entered and met again closes a cycle. -/
theorem cycle_of_mem {stack : List α} {a : α} (ha : a ∈ stack)
    (hchain : (stack ++ [a]).IsChain fun a b => b ∈ dependencies a) :
    Cycle dependencies (stack.dropWhile (· ≠ a) ++ [a]) := by
  obtain ⟨before, hbefore⟩ := List.dropWhile_suffix (l := stack) (· ≠ a)
  refine ⟨?_, hchain.suffix ⟨before, by rw [← List.append_assoc, hbefore]⟩⟩
  cases hdrop : stack.dropWhile (· ≠ a) with
  | nil =>
    have := List.dropWhile_eq_nil_iff.mp hdrop a ha
    simp at this
  | cons b path =>
    have hhead := List.head?_dropWhile_not (· ≠ a) stack
    rw [hdrop] at hhead
    exact ⟨a, path, by simpa using hhead⟩

/-- The places in a topological order go down along a walk. -/
theorem Topological.not_cycle {order : List α} (h : Topological dependencies order)
    (hall : ∀ a, a ∈ order) (cycle : List α) : ¬Cycle dependencies cycle := by
  rintro ⟨⟨a, path, rfl⟩, hchain⟩
  have hdown : ((a :: path ++ [a]).map order.idxOf).IsChain (· > ·) := by
    refine (List.isChain_map _).mpr (hchain.imp fun b d hd => ?_)
    obtain ⟨before, after, hsplit, hnot⟩ := List.eq_append_cons_of_mem (hall b)
    have hmem := h before b after hsplit d hd
    rw [hsplit, List.idxOf_append_of_mem hmem, List.idxOf_append_of_notMem hnot]
    exact (List.idxOf_lt_length_of_mem hmem).trans_le (Nat.le_add_right _ _)
  have hless := List.rel_of_pairwise_cons hdown.pairwise
    (List.mem_map_of_mem (List.mem_append_right path (List.mem_singleton_self a)))
  exact lt_irrefl _ hless

section Ends

variable [Fintype α] {s s' : Search α} {order : List α} {fuel : Nat}

/-- The number of vertices not yet entered. -/
def remaining (s : Search α) : Nat := (Finset.univ.filter fun a => s.state a = .fresh).card

theorem remaining_enter {a : α} (hfresh : s.state a = .fresh) :
    remaining (s.enter a) < remaining s := by
  refine Finset.card_lt_card ((Finset.ssubset_iff_of_subset fun b hb => ?_).mpr ⟨a, ?_, ?_⟩)
  · rw [Finset.mem_filter, Search.state_enter] at hb
    split at hb
    · cases hb.2
    · exact Finset.mem_filter.mpr hb
  · exact Finset.mem_filter.mpr ⟨Finset.mem_univ a, hfresh⟩
  · simp [Search.state_enter]

omit [DecidableEq α] in
theorem Extends.remaining_le {visited : List α} (h : Extends dependencies s s' order visited)
    (horder : Order dependencies s order) : remaining s' ≤ remaining s := by
  obtain ⟨more, horder', -, hsame⟩ := h
  refine Finset.card_le_card (Finset.monotone_filter_right _ fun a _ ha => ?_)
  cases hstate : s.state a with
  | fresh => rfl
  | entered => cases ha.symm.trans ((hsame a).mpr hstate)
  | left =>
    have hleft := (horder'.left a).mpr (List.mem_append_left _ ((horder.left a).mp hstate))
    cases ha.symm.trans hleft

/-- A search that ends: it is back where it was, or it reports a cycle. -/
def Ends (dependencies : α → List α) (report : List α → ε) (s : Search α)
    (result : Option (Except ε (Search α))) : Prop :=
  (∃ s', result = some (.ok s') ∧ s'.stack = s.stack) ∨
    ∃ cycle, Cycle dependencies cycle ∧ result = some (.error (report cycle))

/-- The stack leads to `a`, and there is fuel for what is not yet entered. -/
structure Ready (dependencies : α → List α) (fuel : Nat) (s : Search α) (order : List α) (a : α) :
    Prop where
  order : Order dependencies s order
  entered : ∀ b, s.state b = .entered → b ∈ s.stack
  chain : (s.stack ++ [a]).IsChain fun a b => b ∈ dependencies a
  fuel : remaining s < fuel

theorem visitAll_ends
    (hvisit : ∀ {a s order}, Ready dependencies fuel s order a →
      Ends dependencies report s (visit dependencies report fuel a s))
    {rest : List α} (h : ∀ a ∈ rest, Ready dependencies fuel s order a) :
    Ends dependencies report s (visitAll (visit dependencies report fuel) rest s) := by
  induction rest generalizing s order with
  | nil => exact .inl ⟨s, rfl, rfl⟩
  | cons a rest ih =>
    obtain ⟨ha, hrest⟩ := List.forall_mem_cons.mp h
    rw [visitAll]
    rcases hvisit ha with ⟨s₁, hrun, hsame⟩ | ⟨cycle, hcycle, hrun⟩
    · have hextends := visit_order hrun ha.order
      have hless := hextends.remaining_le ha.order
      obtain ⟨more, horder, -, hentered⟩ := hextends
      have hends := ih fun b hb => ⟨horder, fun c hc => hsame ▸ ha.entered c ((hentered c).mp hc),
        hsame ▸ (hrest b hb).chain, hless.trans_lt ha.fuel⟩
      rw [hrun]
      unfold Ends at hends ⊢
      rwa [hsame] at hends
    · rw [hrun]
      exact .inr ⟨cycle, hcycle, rfl⟩

/-- **A search ends**, and what it reports is a cycle. -/
theorem visit_ends {a : α} (h : Ready dependencies fuel s order a) :
    Ends dependencies report s (visit dependencies report fuel a s) := by
  induction fuel generalizing a s order with
  | zero => exact absurd h.fuel (Nat.not_lt_zero _)
  | succ fuel ih =>
    rw [visit]
    split
    next hentered => exact .inr ⟨_, cycle_of_mem (h.entered a hentered) h.chain, rfl⟩
    next => exact .inl ⟨s, rfl, rfl⟩
    next hfresh =>
      have hready : ∀ d ∈ dependencies a, Ready dependencies fuel (s.enter a) order d := by
        intro d hd
        refine ⟨⟨fun b => ?_, h.order.nodup, h.order.topological⟩, fun b hb => ?_, ?_,
          (remaining_enter hfresh).trans_le (Nat.le_of_lt_succ h.fuel)⟩
        · rw [← h.order.left b, Search.state_enter]
          by_cases hb : b = a
          · simp [hb, hfresh]
          · rw [if_neg hb]
        · rw [Search.state_enter] at hb
          split at hb
          next heq => simp [Search.enter, heq]
          next => exact List.mem_append_left _ (h.entered b hb)
        · rw [Search.enter, List.append_assoc, List.singleton_append]
          exact List.isChain_append_cons_cons.mpr ⟨h.chain, hd, .singleton d⟩
      rcases visitAll_ends ih hready with ⟨s₁, hrun, hsame⟩ | ⟨cycle, hcycle, hrun⟩
      · rw [hrun]
        exact .inl ⟨_, rfl, by rw [Search.leave, hsame, Search.enter, List.dropLast_concat]⟩
      · rw [hrun]
        exact .inr ⟨cycle, hcycle, rfl⟩

end Ends

end Dfs
