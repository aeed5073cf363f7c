import Dae.Lib.Kleene

/-!
# The rule machine

A flat machine for ordered rules over three-valued predicates.  A rule is a
conjunction of clauses, a clause a disjunction of atoms, perhaps negated as a
whole, and a rule either ends in a **terminal** or guards a **block** of
further rules.  Everything is laid out as one list of instructions with forward
jumps:

    or d      a hit jumps `d` forward, to the tail of its clause
    and d     a miss jumps `d` forward, past the rule (and past its block)
    block d   a miss jumps `d` forward, past the block; `maybe` taints it
    tail t    a rule that did not miss hands `t` to its owner

One position, `uncertainUntil`, remembers how far a tainted block reaches.  The
machine knows nothing of what atoms ask or what terminals do: a `Walker` gives
both, and is told whether the terminal was reached under doubt.

* `run`, `walk` — a run with fuel, and the run with the fuel a program needs;
* `run_eq_walk` — any larger fuel gives the same run;
* `walk_simulation` — two walks whose steps stay related end related;
* `walk_lockstep` — two walkers with the same answers and related terminals.
-/

namespace RuleMachine

open Kleene

/-- What an instruction does with the clause it ends or continues. -/
inductive Op (T : Type*) where
  | or (distance : Nat)
  | and (distance : Nat)
  | block (distance : Nat)
  | tail (t : T)
  deriving DecidableEq, Repr

/-- An instruction: the atom it asks, the negation of its clause, and its use.
Only the tail of a clause applies the negation. -/
structure Ins (A T : Type*) where
  atom : A
  not : Bool
  op : Op T
  deriving DecidableEq, Repr

/-- The jump taken when the clause misses. -/
def Op.missDistance {T : Type*} : Op T → Nat
  | .or _ => 1
  | .and d => d
  | .block d => d
  | .tail _ => 1

/-- The owner of a walk: the answers of the atoms and the effect of a terminal,
which goes on with a new accumulator or stops with a result.  The flag says
that the terminal was reached under doubt. -/
structure Walker (A T S R : Type*) where
  pred : A → Truth
  apply : S → T → Bool → S ⊕ R

/-- The state of a walk between two instructions. -/
structure State (S : Type*) where
  position : Nat
  uncertainUntil : Nat
  clause : Truth
  ruleUncertain : Bool
  acc : S
  deriving Repr

/-- A walk goes on, stops with a result, or cannot go on. -/
inductive Outcome (S R : Type*) where
  | next (s : State S)
  | stop (r : R)
  | stuck
  deriving Repr

/-- The state before the first instruction. -/
def State.start {S : Type*} (acc : S) : State S :=
  { position := 0, uncertainUntil := 0, clause := .miss, ruleUncertain := false, acc }

section

variable {A T S R : Type*}

/-- A forward jump of a program of `length` instructions. -/
def advance (length : Nat) (s : State S) (distance : Nat) : Outcome S R :=
  if distance = 0 ∨ length - s.position < distance then .stuck
  else .next { s with position := s.position + distance }

/-- The rule did not miss: continue it, enter its block, or apply its tail. -/
def enter (w : Walker A T S R) (length : Nat) (s : State S) : Op T → Outcome S R
  | .or _ => advance length s 1
  | .and _ => advance length s 1
  | .block d =>
    if d = 0 ∨ length - s.position < d then .stuck
    else
      let until' := if s.ruleUncertain then max s.uncertainUntil (s.position + d)
        else s.uncertainUntil
      advance length { s with uncertainUntil := until', ruleUncertain := false } 1
  | .tail t =>
    match w.apply s.acc t (s.ruleUncertain || decide (s.position < s.uncertainUntil)) with
    | .inl acc => advance length { s with acc, ruleUncertain := false } 1
    | .inr r => .stop r

/-- The clause is complete and its negation applied. -/
def conclude (w : Walker A T S R) (length : Nat) (s : State S) (op : Op T)
    (value : Truth) : Outcome S R :=
  let s := { s with clause := .miss }
  if value = .miss then
    advance length { s with ruleUncertain := false } op.missDistance
  else
    enter w length { s with ruleUncertain := s.ruleUncertain || decide (value = .maybe) } op

/-- One instruction. -/
def exec (w : Walker A T S R) (length : Nat) (s : State S) (i : Ins A T) : Outcome S R :=
  let clause := s.clause.or (w.pred i.atom)
  match i.op with
  | .or d => advance length { s with clause } (if clause = .hit then d else 1)
  | op => conclude w length s op (clause.xor i.not)

/-- One step of the walk over `code`. -/
def step (w : Walker A T S R) (code : List (Ins A T)) (s : State S) : Outcome S R :=
  match code[s.position]? with
  | none => .stuck
  | some i => exec w code.length s i

/-- A run of at most `fuel` steps. -/
def run (w : Walker A T S R) (code : List (Ins A T)) : Nat → State S → Option R
  | 0, _ => none
  | fuel + 1, s =>
    match step w code s with
    | .next s' => run w code fuel s'
    | .stop r => some r
    | .stuck => none

/-- The run with the fuel that the rest of the program needs. -/
def walk (w : Walker A T S R) (code : List (Ins A T)) (s : State S) : Option R :=
  run w code (code.length - s.position) s

section Steps

variable {w : Walker A T S R} {code : List (Ins A T)} {length : Nat} {s s' : State S}

/-- An advance moves forward and stays in the program. -/
theorem advance_eq_next {d : Nat} (h : (advance length s d : Outcome S R) = .next s') :
    s.position < s'.position ∧ s'.position ≤ length := by
  unfold advance at h
  split at h
  · exact absurd h (by simp)
  · cases h
    simp only
    omega

theorem enter_eq_next {op : Op T} (h : enter w length s op = .next s') :
    s.position < s'.position ∧ s'.position ≤ length := by
  cases op with
  | or d => exact advance_eq_next h
  | and d => exact advance_eq_next h
  | block d =>
    simp only [enter] at h
    split at h
    · exact absurd h (by simp)
    · have hmove := advance_eq_next h
      exact hmove
  | tail t =>
    simp only [enter] at h
    split at h
    · have hmove := advance_eq_next h
      exact hmove
    · exact absurd h (by simp)

theorem conclude_eq_next {op : Op T} {value : Truth} (h : conclude w length s op value = .next s') :
    s.position < s'.position ∧ s'.position ≤ length := by
  simp only [conclude] at h
  split at h
  · have hmove := advance_eq_next h
    exact hmove
  · have hmove := enter_eq_next h
    exact hmove

theorem exec_eq_next {i : Ins A T} (h : exec w length s i = .next s') :
    s.position < s'.position ∧ s'.position ≤ length := by
  simp only [exec] at h
  split at h
  · have hmove := advance_eq_next h
    exact hmove
  · exact conclude_eq_next h

/-- **Every step moves forward.** -/
theorem step_eq_next (h : step w code s = .next s') :
    s.position < s'.position ∧ s'.position ≤ code.length := by
  unfold step at h
  split at h
  · exact absurd h (by simp)
  · exact exec_eq_next h

/-- A walk that has left the program has no result. -/
theorem run_past_end (hend : code.length ≤ s.position) (fuel : Nat) : run w code fuel s = none := by
  cases fuel with
  | zero => rfl
  | succ n =>
    have hnone : code[s.position]? = none := List.getElem?_eq_none hend
    simp [run, step, hnone]

/-- More fuel than the rest of the program needs changes nothing. -/
theorem run_congr :
    ∀ (m n : Nat) (s : State S), code.length - s.position ≤ m →
      code.length - s.position ≤ n → run w code m s = run w code n s := by
  intro m
  induction m with
  | zero =>
    intro n s hm _
    rw [run_past_end (by omega) n]
    rfl
  | succ m ih =>
    intro n s hm hn
    cases n with
    | zero =>
      rw [run_past_end (by omega) (m + 1)]
      rfl
    | succ n =>
      rw [run, run]
      cases hs : step w code s with
      | stop r => rfl
      | stuck => rfl
      | next s' =>
        have hmove := step_eq_next hs
        exact ih n s' (by omega) (by omega)

theorem run_eq_walk {fuel : Nat} (hfuel : code.length - s.position ≤ fuel) :
    run w code fuel s = walk w code s :=
  run_congr _ _ s hfuel (Nat.le_refl _)

/-- **One step of a walk.** -/
theorem walk_eq (w : Walker A T S R) (code : List (Ins A T)) (s : State S) :
    walk w code s =
      match step w code s with
      | .next s' => walk w code s'
      | .stop r => some r
      | .stuck => none := by
  have hmore : walk w code s = run w code (code.length + 1) s :=
    (run_eq_walk (by omega)).symm
  rw [hmore, run]
  cases hs : step w code s with
  | stop r => rfl
  | stuck => rfl
  | next s' =>
    simp only
    exact run_eq_walk (by omega)

/-- The states of a walk, with the number of steps that lead to them. -/
inductive Reaches (w : Walker A T S R) (code : List (Ins A T)) (s₀ : State S) :
    Nat → State S → Prop
  | refl : Reaches w code s₀ 0 s₀
  | step {n : Nat} {s s' : State S} (h : Reaches w code s₀ n s) (hstep : step w code s = .next s') :
      Reaches w code s₀ (n + 1) s'

/-- The walk from `s` passes `s'`. -/
def Leads (w : Walker A T S R) (code : List (Ins A T)) : State S → State S → Prop :=
  Relation.ReflTransGen fun s s' => step w code s = .next s'

theorem Leads.walk_eq (h : Leads w code s s') : walk w code s = walk w code s' := by
  induction h with
  | refl => rfl
  | tail _ hstep ih => rw [ih, RuleMachine.walk_eq, hstep]

/-- The walk from `s` passes a state whose step has the outcome `o`. -/
def Yields (w : Walker A T S R) (code : List (Ins A T)) (s : State S) (o : Outcome S R) : Prop :=
  ∃ s', Leads w code s s' ∧ step w code s' = o

theorem Leads.yields {o : Outcome S R} (h : Leads w code s s') (ho : Yields w code s' o) :
    Yields w code s o := by
  obtain ⟨t, ht, hstep⟩ := ho
  exact ⟨t, Relation.ReflTransGen.trans h ht, hstep⟩

theorem Yields.leads (h : Yields w code s (.next s')) : Leads w code s s' := by
  obtain ⟨t, ht, hstep⟩ := h
  exact Relation.ReflTransGen.tail ht hstep

theorem Yields.walk_eq_some {r : R} (h : Yields w code s (.stop r)) : walk w code s = some r := by
  obtain ⟨t, ht, hstep⟩ := h
  rw [ht.walk_eq, RuleMachine.walk_eq, hstep]

/-- An advance that fits leads to its target. -/
theorem Yields.leads_advance {t : State S} {d : Nat} (h : Yields w code s (advance code.length t d))
    (hd : 0 < d) (hfit : t.position + d ≤ code.length) :
    Leads w code s { t with position := t.position + d } := by
  have hok : ¬(d = 0 ∨ code.length - t.position < d) := by omega
  rw [advance, if_neg hok] at h
  exact h.leads

/-- **A walk that has a result** never leaves the program, and every state it passes goes
on or stops. -/
theorem Reaches.of_walk {s₀ : State S} {n : Nat} {r : R} (h : Reaches w code s₀ n s)
    (hwalk : walk w code s₀ = some r) :
    walk w code s = some r ∧ s₀.position + n ≤ s.position ∧ s.position < code.length := by
  have hinside : ∀ s, walk w code s = some r → s.position < code.length := by
    intro s hs
    by_contra hend
    rw [walk, run_past_end (Nat.not_lt.mp hend)] at hs
    cases hs
  induction h with
  | refl => exact ⟨hwalk, Nat.le_refl _, hinside _ hwalk⟩
  | step _ hstep ih =>
    obtain ⟨hs, hle, -⟩ := ih
    rw [walk_eq, hstep] at hs
    have hmove := step_eq_next hstep
    exact ⟨hs, by omega, hinside _ hs⟩

end Steps

/-- Two outcomes that correspond. -/
inductive Outcome.Rel {S' R' : Type*} (rel : State S → State S' → Prop) (res : R → R' → Prop) :
    Outcome S R → Outcome S' R' → Prop
  | next {s s'} (h : rel s s') : Outcome.Rel rel res (.next s) (.next s')
  | stop {r r'} (h : res r r') : Outcome.Rel rel res (.stop r) (.stop r')
  | stuck : Outcome.Rel rel res .stuck .stuck

/-- **Lockstep.**  A relation between the states of two walkers that every step
keeps relates the ends of their walks. -/
theorem walk_simulation {S' R' : Type*} {w : Walker A T S R} {w' : Walker A T S' R'}
    {code : List (Ins A T)} (rel : State S → State S' → Prop) {res : R → R' → Prop}
    (hstep : ∀ s s', rel s s' → Outcome.Rel rel res (step w code s) (step w' code s')) :
    ∀ (n : Nat) (s : State S) (s' : State S'), code.length - s.position ≤ n → rel s s' →
      Option.Rel res (walk w code s) (walk w' code s') := by
  intro n
  induction n with
  | zero =>
    intro s s' hn hrel
    have hend : walk w code s = none := run_past_end (by omega) _
    have hout := hstep s s' hrel
    have hstuck : step w code s = .stuck := by
      unfold step
      rw [List.getElem?_eq_none (by omega)]
    rw [hstuck] at hout
    rw [hend, walk_eq w' code s']
    generalize step w' code s' = o at hout
    cases hout
    exact .none
  | succ n ih =>
    intro s s' hn hrel
    have hout := hstep s s' hrel
    rw [walk_eq w code s, walk_eq w' code s']
    cases hs : step w code s with
    | next t =>
      have hmove := step_eq_next hs
      rw [hs] at hout
      generalize step w' code s' = o at hout
      cases hout with
      | next h => exact ih _ _ (by omega) h
    | stop r =>
      rw [hs] at hout
      generalize step w' code s' = o at hout
      cases hout with
      | stop h => exact .some h
    | stuck =>
      rw [hs] at hout
      generalize step w' code s' = o at hout
      cases hout
      exact .none

/-- The two states differ at most in their accumulators. -/
structure SameControl {S' : Type*} (s : State S) (s' : State S') : Prop where
  position : s.position = s'.position
  uncertainUntil : s.uncertainUntil = s'.uncertainUntil
  clause : s.clause = s'.clause
  ruleUncertain : s.ruleUncertain = s'.ruleUncertain

/-- States in step, whose accumulators are related as their position asks. -/
structure InStep {S' : Type*} (inv : Nat → S → S' → Prop) (s : State S) (s' : State S') :
    Prop where
  control : SameControl s s'
  acc : inv s.position s.acc s'.acc

section Lockstep

variable {S' R' : Type*} {w : Walker A T S R} {w' : Walker A T S' R'}
  {inv : Nat → S → S' → Prop} {res : R → R' → Prop}

theorem advance_rel {length : Nat} {s : State S} {s' : State S'} (hs : SameControl s s')
    {d : Nat} (hacc : ∀ q, s.position < q → inv q s.acc s'.acc) :
    Outcome.Rel (InStep inv) res (advance length s d) (advance length s' d) := by
  unfold advance
  rw [← hs.position]
  by_cases h : d = 0 ∨ length - s.position < d
  · rw [if_pos h, if_pos h]
    exact .stuck
  · rw [if_neg h, if_neg h]
    refine .next ⟨⟨rfl, hs.uncertainUntil, hs.clause, hs.ruleUncertain⟩, ?_⟩
    exact hacc _ (by simp only; omega)

theorem enter_rel {length : Nat} {s : State S} {s' : State S'} (hs : SameControl s s') {op : Op T}
    (hacc : ∀ q, s.position < q → inv q s.acc s'.acc)
    (happly : ∀ t, op = .tail t → ∀ doubt,
      Sum.LiftRel (inv (s.position + 1)) res (w.apply s.acc t doubt) (w'.apply s'.acc t doubt))
    (hmono : ∀ {p q a a'}, inv p a a' → p ≤ q → inv q a a') :
    Outcome.Rel (InStep inv) res (enter w length s op) (enter w' length s' op) := by
  obtain ⟨hpos, hu, hc, hr⟩ := hs
  cases op with
  | or d | and d => exact advance_rel ⟨hpos, hu, hc, hr⟩ hacc
  | block d =>
    simp only [enter]
    rw [← hpos, ← hu, ← hr]
    by_cases h : d = 0 ∨ length - s.position < d
    · rw [if_pos h, if_pos h]
      exact .stuck
    · rw [if_neg h, if_neg h]
      apply advance_rel
      · exact ⟨rfl, rfl, hc, rfl⟩
      · exact hacc
  | tail t =>
    simp only [enter]
    rw [← hpos, ← hu, ← hr]
    have h := happly t rfl (s.ruleUncertain || decide (s.position < s.uncertainUntil))
    generalize w.apply s.acc t (s.ruleUncertain || decide (s.position < s.uncertainUntil)) = x at h
    generalize w'.apply s'.acc t (s.ruleUncertain || decide (s.position < s.uncertainUntil)) = y
      at h
    cases h with
    | inl h =>
      apply advance_rel
      · exact ⟨rfl, rfl, hc, rfl⟩
      · exact fun q hq => hmono h hq
    | inr h => exact .stop h

/-- **Two walkers with the same answers and related terminals** walk in step. -/
theorem walk_lockstep {code : List (Ins A T)} (inv : Nat → S → S' → Prop)
    (hmono : ∀ {p q a a'}, inv p a a' → p ≤ q → inv q a a')
    (hpred : ∀ i ∈ code, w.pred i.atom = w'.pred i.atom)
    (happly : ∀ k i t, code[k]? = some i → i.op = .tail t → ∀ a a' doubt, inv k a a' →
      Sum.LiftRel (inv (k + 1)) res (w.apply a t doubt) (w'.apply a' t doubt))
    {a : S} {a' : S'} (hstart : inv 0 a a') :
    Option.Rel res (walk w code (State.start a)) (walk w' code (State.start a')) := by
  refine walk_simulation (InStep inv) ?_ code.length _ _ (by omega)
    ⟨⟨rfl, rfl, rfl, rfl⟩, hstart⟩
  rintro s s' ⟨hs, hacc⟩
  have hlater : ∀ q, s.position < q → inv q s.acc s'.acc := fun q hq => hmono hacc (by omega)
  unfold step
  rw [← hs.position]
  cases hi : code[s.position]? with
  | none => exact .stuck
  | some i =>
    have hp := hpred i (List.mem_of_getElem? hi)
    have hat := happly s.position i
    simp only [exec]
    rw [← hs.clause, ← hp]
    have hconclude : ∀ value, Outcome.Rel (InStep inv) res
        (conclude w code.length s i.op value) (conclude w' code.length s' i.op value) := by
      intro value
      unfold conclude
      by_cases hv : value = .miss
      · rw [if_pos hv, if_pos hv]
        apply advance_rel
        · exact ⟨hs.position, hs.uncertainUntil, rfl, rfl⟩
        · exact hlater
      · rw [if_neg hv, if_neg hv]
        apply enter_rel
        · exact ⟨hs.position, hs.uncertainUntil, rfl, by simp only [hs.ruleUncertain]⟩
        · exact hlater
        · exact fun t ht doubt => hat t hi ht _ _ doubt hacc
        · exact hmono
    cases hop : i.op with
    | or d =>
      apply advance_rel
      · exact ⟨hs.position, hs.uncertainUntil, rfl, hs.ruleUncertain⟩
      · exact hlater
    | and d | block d | tail t => rw [hop] at hconclude; exact hconclude _

end Lockstep

end

end RuleMachine
