import Dae.Lib.RuleProgram

/-!
# Exact programs and the doubt that covers them

Two readings of one structured program.  In an **exact** world every atom is
true or false; then a program is its list of rules, each under the conditions
of the blocks around it, tried in order (`eval_exact`).  In a **doubtful** world
an atom may be `maybe`; then the program covers every exact world that its atoms
cover, as long as the terminals respect doubt (`Cautious`): a terminal reached
under doubt must either defer the decision or leave an accumulator that is right
both when the rule applies and when it does not.
-/

namespace RuleMachine

open Kleene

variable {A T S R : Type*}

/-! ### Exact worlds -/

/-- A clause in an exact world. -/
def Clause.holds (world : A → Bool) (c : Clause A) : Bool :=
  c.not ^^ (c.alternatives.any world || world c.last)

/-- A condition in an exact world. -/
def Cond.holds (world : A → Bool) (p : Cond A) : Bool :=
  p.init.all (·.holds world) && p.last.holds world

variable {pred : A → Truth} {world : A → Bool}

theorem orValue_covers (h : ∀ a, (pred a).Covers (world a)) (as : List A) (last : A) :
    (orValue pred as last).Covers (as.any world || world last) := by
  induction as with
  | nil => simpa [orValue] using h last
  | cons a as ih =>
    have := (h a).or ih
    simpa [orValue, Bool.or_assoc] using this

theorem Clause.covers (h : ∀ a, (pred a).Covers (world a)) (c : Clause A) :
    (c.value pred).Covers (c.holds world) :=
  (orValue_covers h c.alternatives c.last).xor c.not

theorem clausesValue_covers
    (h : ∀ a, (pred a).Covers (world a)) (cs : List (Clause A)) (last : Clause A) :
    (clausesValue pred cs last).Covers (cs.all (·.holds world) && last.holds world) := by
  induction cs with
  | nil => simpa [clausesValue] using last.covers h
  | cons c cs ih =>
    have := (c.covers h).and ih
    simpa [clausesValue, Bool.and_assoc] using this

/-- A condition covers the exact worlds that its atoms cover. -/
theorem Cond.covers (h : ∀ a, (pred a).Covers (world a)) (p : Cond A) :
    (p.value pred).Covers (p.holds world) :=
  clausesValue_covers h p.init p.last

theorem orValue_exact (world : A → Bool) (as : List A) (last : A) :
    orValue (fun a => Truth.ofBool (world a)) as last =
      Truth.ofBool (as.any world || world last) := by
  induction as with
  | nil => rfl
  | cons a as ih => simp [orValue, ih, Bool.or_assoc]

theorem clausesValue_exact (world : A → Bool) (cs : List (Clause A)) (last : Clause A) :
    clausesValue (fun a => Truth.ofBool (world a)) cs last =
      Truth.ofBool (cs.all (·.holds world) && last.holds world) := by
  have hclause : ∀ c : Clause A, c.value (fun a => Truth.ofBool (world a)) =
      Truth.ofBool (c.holds world) := by
    intro c
    simp [Clause.value, Clause.holds, orValue_exact]
  induction cs with
  | nil => simp [clausesValue, hclause]
  | cons c cs ih => simp [clausesValue, ih, hclause, Bool.and_assoc]

/-- In an exact world a condition is never in doubt. -/
@[simp] theorem Cond.value_exact (world : A → Bool) (p : Cond A) :
    p.value (fun a => Truth.ofBool (world a)) = Truth.ofBool (p.holds world) :=
  clausesValue_exact world p.init p.last

/-- The rules of a program, each under the conditions of the blocks around it. -/
def Prog.rules (outer : List (Cond A)) : Prog A T → List (List (Cond A) × T)
  | .nil => []
  | .rule p t rest => (outer ++ [p], t) :: rest.rules outer
  | .block p body rest => body.rules (outer ++ [p]) ++ rest.rules outer

theorem Prog.rules_append (q r : Prog A T) (outer : List (Cond A)) :
    (q.append r).rules outer = q.rules outer ++ r.rules outer := by
  induction q with
  | nil => rfl
  | rule p t rest ih => rw [Prog.append, Prog.rules, ih, Prog.rules, List.cons_append]
  | block p body rest _ ih => rw [Prog.append, Prog.rules, ih, Prog.rules, List.append_assoc]

theorem Prog.rules_outer (q : Prog A T) (outer more : List (Cond A)) :
    q.rules (outer ++ more) = (q.rules more).map fun r => (outer ++ r.1, r.2) := by
  induction q generalizing more with
  | nil => rfl
  | rule p t rest ih => rw [Prog.rules, Prog.rules, ih, List.map_cons, List.append_assoc]
  | block p body rest ihb ih =>
    rw [Prog.rules, Prog.rules, ih, List.append_assoc, ihb, List.map_append]

/-- Ordered rules in an exact world: the terminal of each rule that applies, in
turn, until one stops. -/
def runRules (world : A → Bool) (apply : S → T → Bool → S ⊕ R) :
    List (List (Cond A) × T) → S → S ⊕ R
  | [], s => .inl s
  | (conds, t) :: rest, s =>
    if conds.all (·.holds world) then andThen (apply s t false) (runRules world apply rest)
    else runRules world apply rest s

theorem runRules_append (world : A → Bool) (apply : S → T → Bool → S ⊕ R)
    (l₁ l₂ : List (List (Cond A) × T)) (s : S) :
    runRules world apply (l₁ ++ l₂) s =
      andThen (runRules world apply l₁ s) (runRules world apply l₂) := by
  induction l₁ generalizing s with
  | nil => rfl
  | cons r l₁ ih =>
    obtain ⟨conds, t⟩ := r
    simp only [List.cons_append, runRules]
    split
    · rw [andThen_assoc, funext ih]
    · exact ih s

/-- Rules that go on hand over to those behind them. -/
theorem runRules_append_inl {apply : S → T → Bool → S ⊕ R}
    {l₁ : List (List (Cond A) × T)} {s s' : S} (h : runRules world apply l₁ s = .inl s')
    (l₂ : List (List (Cond A) × T)) :
    runRules world apply (l₁ ++ l₂) s = runRules world apply l₂ s' := by
  rw [runRules_append, h]
  rfl

/-- Rules that stop hide those behind them. -/
theorem runRules_append_inr {apply : S → T → Bool → S ⊕ R}
    {l₁ : List (List (Cond A) × T)} {s : S} {r : R} (h : runRules world apply l₁ s = .inr r)
    (l₂ : List (List (Cond A) × T)) : runRules world apply (l₁ ++ l₂) s = .inr r := by
  rw [runRules_append, h]
  rfl

/-- Rules under a condition that fails do nothing. -/
theorem runRules_skip {outer : List (Cond A)}
    (hskip : outer.all (·.holds world) = false) (apply : S → T → Bool → S ⊕ R) :
    ∀ (q : Prog A T) (more : List (Cond A)) (s : S),
      runRules world apply (q.rules (outer ++ more)) s = .inl s := by
  intro q
  induction q with
  | nil => intro more s; rfl
  | rule p t rest ih =>
    intro more s
    simp [Prog.rules, runRules, hskip, ih]
  | block p body rest ihb ihr =>
    intro more s
    rw [Prog.rules, runRules_append, List.append_assoc, ihb, andThen_inl, ihr]

/-- **An exact program is its flattened list of rules, tried in order.** -/
theorem eval_exact (world : A → Bool) (apply : S → T → Bool → S ⊕ R) :
    ∀ (q : Prog A T) (outer : List (Cond A)) (s : S),
      outer.all (·.holds world) = true →
      q.eval ⟨fun a => Truth.ofBool (world a), apply⟩ false s =
        runRules world apply (q.rules outer) s := by
  intro q
  induction q with
  | nil => intro outer s _; rfl
  | rule p t rest ih =>
    intro outer s houter
    have hrest : rest.eval ⟨fun a => Truth.ofBool (world a), apply⟩ false =
        runRules world apply (rest.rules outer) := funext fun s => ih outer s houter
    simp only [Prog.eval, Prog.rules, runRules, Cond.value_exact, hrest]
    cases hp : p.holds world <;> simp [houter, hp]
  | block p body rest ihb ihr =>
    intro outer s houter
    have hrest : rest.eval ⟨fun a => Truth.ofBool (world a), apply⟩ false =
        runRules world apply (rest.rules outer) := funext fun s => ihr outer s houter
    simp only [Prog.eval, Prog.rules, runRules_append, Cond.value_exact, hrest]
    cases hp : p.holds world with
    | false =>
      have hskip : (outer ++ [p]).all (·.holds world) = false := by simp [hp]
      have := runRules_skip hskip apply body [] s
      rw [List.append_nil] at this
      simp [this]
    | true =>
      have hin := ihb (outer ++ [p]) s (by simp [houter, hp])
      simp [hin]

/-! ### Doubt -/

/-- Every terminal of the program satisfies `ok`. -/
def Prog.All (ok : T → Prop) : Prog A T → Prop
  | .nil => True
  | .rule _ t rest => ok t ∧ rest.All ok
  | .block _ body rest => body.All ok ∧ rest.All ok

variable {ok : T → Prop}

theorem Prog.all_of_forall (h : ∀ t, ok t) (q : Prog A T) : q.All ok := by
  induction q with
  | nil => trivial
  | rule p t rest ih => exact ⟨h t, ih⟩
  | block p body rest ihb ih => exact ⟨ihb, ih⟩

theorem Prog.All.append {q r : Prog A T} (hq : q.All ok) (hr : r.All ok) :
    (q.append r).All ok := by
  induction q with
  | nil => exact hr
  | rule p t rest ih => exact ⟨hq.1, ih hq.2⟩
  | block p body rest _ ih => exact ⟨hq.1, ih hq.2⟩

theorem Prog.all_iff_rules (q : Prog A T) (outer : List (Cond A)) :
    q.All ok ↔ ∀ r ∈ q.rules outer, ok r.2 := by
  induction q generalizing outer with
  | nil => exact ⟨fun _ r hr => absurd hr List.not_mem_nil, fun _ => trivial⟩
  | rule p t rest ih => rw [Prog.All, Prog.rules, ih outer, List.forall_mem_cons]
  | block p body rest ihb ih =>
    rw [Prog.All, Prog.rules, ihb (outer ++ [p]), ih outer, List.forall_mem_append]

theorem Prog.All.imp {ok' : T → Prop} (h : ∀ t, ok t → ok' t) {q : Prog A T} (hq : q.All ok) :
    q.All ok' := by
  rw [q.all_iff_rules []] at hq ⊢
  exact fun r hr => h r.2 (hq r hr)

/-- A result of the doubtful run against one of the exact run: the doubtful run
defers, or both go on, or both stop and agree. -/
inductive Covered (rel : S → S → Prop) (defers : R → Prop) (agree : R → R → Prop) :
    S ⊕ R → S ⊕ R → Prop
  | defer {r o} (h : defers r) : Covered rel defers agree (.inr r) o
  | next {s s'} (h : rel s s') : Covered rel defers agree (.inl s) (.inl s')
  | stop {r r'} (h : agree r r') : Covered rel defers agree (.inr r) (.inr r')

/-- A stretch run under doubt against the exact run `o'` of it from `s'`: it
defers, or its accumulator covers the exact one both before and after. -/
inductive Shadowed (rel : S → S → Prop) (defers : R → Prop) (s' : S) : S ⊕ R → S ⊕ R → Prop
  | defer {r o} (h : defers r) : Shadowed rel defers s' (.inr r) o
  | next {s₁ s₁'} (hskip : rel s₁ s') (hrun : rel s₁ s₁') :
      Shadowed rel defers s' (.inl s₁) (.inl s₁')

/-- The terminals in `ok` respect doubt.  Under doubt a terminal defers, or goes
on with an accumulator that covers both the exact run in which the rule applies
and the one in which it does not. -/
structure Cautious (apply : S → T → Bool → S ⊕ R) (ok : T → Prop) (rel : S → S → Prop)
    (defers : R → Prop) (agree : R → R → Prop) : Prop where
  certain : ∀ {s s' t}, ok t → rel s s' →
    Covered rel defers agree (apply s t false) (apply s' t false)
  doubtful : ∀ {s s' t}, ok t → rel s s' →
    Shadowed rel defers s' (apply s t true) (apply s' t false)

section

variable {apply : S → T → Bool → S ⊕ R} {ok : T → Prop} {rel : S → S → Prop}
  {defers : R → Prop} {agree : R → R → Prop}

variable {o o' : S ⊕ R}

theorem Covered.andThen {rel₂ : S → S → Prop} {f f' : S → S ⊕ R}
    (h : Covered rel defers agree o o')
    (hf : ∀ s s', rel s s' → Covered rel₂ defers agree (f s) (f' s')) :
    Covered rel₂ defers agree (andThen o f) (andThen o' f') := by
  cases h with
  | defer h => exact .defer h
  | next h => exact hf _ _ h
  | stop h => exact .stop h

variable {s' : S}

/-- Skipping a stretch that was run under doubt. -/
theorem Shadowed.skip (h : Shadowed rel defers s' o o') :
    Shadowed rel defers s' o (.inl s') := by
  cases h with
  | defer h => exact .defer h
  | next hskip _ => exact .next hskip hskip

theorem Shadowed.covered (h : Shadowed rel defers s' o o') :
    Covered rel defers agree o o' := by
  cases h with
  | defer h => exact .defer h
  | next _ hrun => exact .next hrun

theorem Shadowed.andThen {f f' : S → S ⊕ R} (h : Shadowed rel defers s' o o')
    (hf : ∀ s x, rel s x → Shadowed rel defers x (f s) (f' x)) :
    Shadowed rel defers s' (andThen o f) (andThen o' f') := by
  cases h with
  | defer h => exact .defer h
  | next hskip hrun =>
    -- The rest runs once under doubt; it covers the rest of both exact runs.
    rename_i s₁ s₁'
    have h₁ := hf s₁ s' hskip
    have h₂ := hf s₁ s₁' hrun
    simp only [andThen_inl]
    generalize f s₁ = x at h₁ h₂ ⊢
    generalize f' s₁' = y at h₂ ⊢
    generalize f' s' = z at h₁
    cases h₂ with
    | defer h => exact .defer h
    | next hskip₂ hrun₂ =>
      cases h₁ with
      | next hskip₁ _ => exact .next hskip₁ hrun₂

/-- A tainted program defers, or covers the exact program both run and skipped. -/
theorem eval_tainted (hc : Cautious apply ok rel defers agree) {pred : A → Truth}
    {world : A → Bool} (hcov : ∀ a, (pred a).Covers (world a)) :
    ∀ (q : Prog A T) (s s' : S), q.All ok → rel s s' →
      Shadowed rel defers s' (q.eval ⟨pred, apply⟩ true s)
        (q.eval ⟨fun a => Truth.ofBool (world a), apply⟩ false s') := by
  intro q
  induction q with
  | nil =>
    intro s s' _ hrel
    exact .next hrel hrel
  | rule p t rest ih =>
    intro s s' hall hrel
    have hp := p.covers hcov
    have hrun := hc.doubtful hall.1 hrel
    refine Shadowed.andThen ?_ (fun x x' hx => ih x x' hall.2 hx)
    simp only [Cond.value_exact, Bool.true_or]
    cases hv : p.value pred <;> cases hw : p.holds world <;>
      simp_all [Truth.Covers, hrun.skip]
    exact .next hrel hrel
  | block p body rest ihb ihr =>
    intro s s' hall hrel
    have hp := p.covers hcov
    have hrun := ihb s s' hall.1 hrel
    refine Shadowed.andThen ?_ (fun x x' hx => ihr x x' hall.2 hx)
    simp only [Cond.value_exact, Bool.true_or]
    cases hv : p.value pred <;> cases hw : p.holds world <;>
      simp_all [Truth.Covers, hrun.skip]
    exact .next hrel hrel

/-- **Doubt covers.**  A program that does not defer ends as every exact program
that its atoms cover. -/
theorem eval_covers (hc : Cautious apply ok rel defers agree) {pred : A → Truth}
    {world : A → Bool} (hcov : ∀ a, (pred a).Covers (world a)) :
    ∀ (q : Prog A T) (s s' : S), q.All ok → rel s s' →
      Covered rel defers agree (q.eval ⟨pred, apply⟩ false s)
        (q.eval ⟨fun a => Truth.ofBool (world a), apply⟩ false s') := by
  intro q
  induction q with
  | nil =>
    intro s s' _ hrel
    exact .next hrel
  | rule p t rest ih =>
    intro s s' hall hrel
    have hp := p.covers hcov
    have hsure := hc.certain hall.1 hrel
    have hrun := hc.doubtful hall.1 hrel
    refine Covered.andThen ?_ (fun x x' hx => ih x x' hall.2 hx)
    simp only [Cond.value_exact, Bool.false_or]
    cases hv : p.value pred <;> cases hw : p.holds world <;>
      simp_all [Truth.Covers, hrun.covered, hrun.skip.covered]
    exact .next hrel
  | block p body rest ihb ihr =>
    intro s s' hall hrel
    have hp := p.covers hcov
    have hsure := ihb s s' hall.1 hrel
    have hrun := eval_tainted hc hcov body s s' hall.1 hrel
    refine Covered.andThen ?_ (fun x x' hx => ihr x x' hall.2 hx)
    simp only [Cond.value_exact, Bool.false_or]
    cases hv : p.value pred <;> cases hw : p.holds world <;>
      simp_all [Truth.Covers, hrun.covered, hrun.skip.covered]
    exact .next hrel

end

end RuleMachine
