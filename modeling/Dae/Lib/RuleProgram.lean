import Dae.Lib.RuleMachine

/-!
# Structured rule programs

The programs that the rule machine is meant to run: clauses, conditions, and a
tree of rules and guarded blocks.  `Prog.code` lays a program out as
instructions with relative jumps, and `Prog.eval` says what it means without
any jump or position.
-/

namespace RuleMachine

open Kleene

/-- A disjunction of atoms, perhaps negated. -/
structure Clause (A : Type*) where
  alternatives : List A
  last : A
  not : Bool
  deriving DecidableEq, Repr

/-- A conjunction of clauses. -/
structure Cond (A : Type*) where
  init : List (Clause A)
  last : Clause A
  deriving DecidableEq, Repr

/-- An ordered list of rules and guarded blocks. -/
inductive Prog (A T : Type*) where
  | nil
  | rule (cond : Cond A) (t : T) (rest : Prog A T)
  | block (cond : Cond A) (body rest : Prog A T)
  deriving DecidableEq, Repr

variable {A T S R : Type*}

/-! ### Layout -/

/-- The number of instructions of a clause. -/
def Clause.size (c : Clause A) : Nat := c.alternatives.length + 1

/-- The number of instructions of clauses that are followed by `last`. -/
def clausesSize : List (Clause A) → Clause A → Nat
  | [], last => last.size
  | c :: cs, last => c.size + clausesSize cs last

def Cond.size (p : Cond A) : Nat := clausesSize p.init p.last

/-- The instructions of a clause whose tail does `op`. -/
def orCode (not : Bool) : List A → A → Op T → List (Ins A T)
  | [], last, op => [⟨last, not, op⟩]
  | a :: as, last, op => ⟨a, not, .or (as.length + 1)⟩ :: orCode not as last op

def Clause.code (c : Clause A) (op : Op T) : List (Ins A T) :=
  orCode c.not c.alternatives c.last op

/-- The instructions of a condition whose tail does `op`.  A miss anywhere
leaves the rule `op.missDistance` after its tail. -/
def clausesCode (op : Op T) : List (Clause A) → Clause A → List (Ins A T)
  | [], last => last.code op
  | c :: cs, last =>
    c.code (.and (clausesSize cs last + op.missDistance)) ++ clausesCode op cs last

def Cond.code (p : Cond A) (op : Op T) : List (Ins A T) := clausesCode op p.init p.last

/-- The number of instructions of a program. -/
def Prog.size : Prog A T → Nat
  | .nil => 0
  | .rule p _ rest => p.size + rest.size
  | .block p body rest => p.size + body.size + rest.size

/-- The instructions of a program. -/
def Prog.code : Prog A T → List (Ins A T)
  | .nil => []
  | .rule p t rest => p.code (.tail t) ++ rest.code
  | .block p body rest => p.code (.block (body.size + 1)) ++ body.code ++ rest.code

def Prog.append : Prog A T → Prog A T → Prog A T
  | .nil, q => q
  | .rule p t rest, q => .rule p t (rest.append q)
  | .block p body rest, q => .block p body (rest.append q)

/-! ### Meaning -/

/-- The disjunction of the atoms of a clause, before its negation. -/
def orValue (pred : A → Truth) : List A → A → Truth
  | [], last => pred last
  | a :: as, last => (pred a).or (orValue pred as last)

def Clause.value (pred : A → Truth) (c : Clause A) : Truth :=
  (orValue pred c.alternatives c.last).xor c.not

/-- The conjunction of the clauses of a condition. -/
def clausesValue (pred : A → Truth) : List (Clause A) → Clause A → Truth
  | [], last => last.value pred
  | c :: cs, last => (c.value pred).and (clausesValue pred cs last)

def Cond.value (pred : A → Truth) (p : Cond A) : Truth := clausesValue pred p.init p.last

/-- Go on with `f` unless the walk has stopped. -/
def andThen (o : S ⊕ R) (f : S → S ⊕ R) : S ⊕ R :=
  match o with
  | .inl acc => f acc
  | .inr r => .inr r

@[simp] theorem andThen_inl (acc : S) (f : S → S ⊕ R) : andThen (.inl acc) f = f acc := rfl

theorem andThen_assoc (o : S ⊕ R) (f g : S → S ⊕ R) :
    andThen (andThen o f) g = andThen o (fun acc => andThen (f acc) g) := by
  cases o <;> rfl

/-- The meaning of a program inside a block that is in doubt, or not. -/
def Prog.eval (w : Walker A T S R) : Bool → Prog A T → S → S ⊕ R
  | _, .nil, acc => .inl acc
  | doubt, .rule p t rest, acc =>
    andThen
      (if p.value w.pred = .miss then .inl acc
        else w.apply acc t (doubt || decide (p.value w.pred = .maybe)))
      (rest.eval w doubt)
  | doubt, .block p body rest, acc =>
    andThen
      (if p.value w.pred = .miss then .inl acc
        else body.eval w (doubt || decide (p.value w.pred = .maybe)) acc)
      (rest.eval w doubt)

/-! ### Sizes -/

@[simp] theorem orCode_length (not : Bool) (as : List A) (last : A) (op : Op T) :
    (orCode not as last op).length = as.length + 1 := by
  induction as with
  | nil => rfl
  | cons a as ih => simp [orCode, ih]

@[simp] theorem Clause.code_length (c : Clause A) (op : Op T) :
    (c.code op).length = c.size := by
  simp [Clause.code, Clause.size]

theorem Clause.size_pos (c : Clause A) : 0 < c.size := by simp [Clause.size]

@[simp] theorem clausesCode_length (op : Op T) (cs : List (Clause A)) (last : Clause A) :
    (clausesCode op cs last).length = clausesSize cs last := by
  induction cs with
  | nil => simp [clausesCode, clausesSize]
  | cons c cs ih => simp [clausesCode, clausesSize, ih]

@[simp] theorem Cond.code_length (p : Cond A) (op : Op T) :
    (p.code op).length = p.size := by
  simp [Cond.code, Cond.size]

theorem clausesSize_pos (cs : List (Clause A)) (last : Clause A) : 0 < clausesSize cs last := by
  cases cs with
  | nil => exact last.size_pos
  | cons c cs =>
    have := c.size_pos
    simp only [clausesSize]
    omega

theorem Cond.size_pos (p : Cond A) : 0 < p.size := clausesSize_pos _ _

@[simp] theorem Prog.code_length (q : Prog A T) : q.code.length = q.size := by
  induction q with
  | nil => rfl
  | rule p t rest ih => simp [Prog.code, Prog.size, ih]
  | block p body rest ihb ihr => simp [Prog.code, Prog.size, ihb, ihr, Nat.add_assoc]

/-! ### Append -/

theorem Prog.append_assoc (p q r : Prog A T) : (p.append q).append r = p.append (q.append r) := by
  induction p with
  | nil => rfl
  | rule c t rest ih | block c body rest _ ih => rw [Prog.append, Prog.append, Prog.append, ih]

@[simp] theorem Prog.append_nil (q : Prog A T) : q.append .nil = q := by
  induction q with
  | nil => rfl
  | rule p t rest ih => simp [Prog.append, ih]
  | block p body rest _ ih => simp [Prog.append, ih]

@[simp] theorem Prog.code_append (q r : Prog A T) : (q.append r).code = q.code ++ r.code := by
  induction q with
  | nil => rfl
  | rule p t rest ih => simp [Prog.append, Prog.code, ih]
  | block p body rest _ ih => simp [Prog.append, Prog.code, ih]

@[simp] theorem Prog.size_append (q r : Prog A T) :
    (q.append r).size = q.size + r.size := by
  rw [← Prog.code_length, Prog.code_append, List.length_append, Prog.code_length,
    Prog.code_length]

/-- Programs run one after the other. -/
theorem Prog.eval_append (w : Walker A T S R) (doubt : Bool) (q r : Prog A T) (acc : S) :
    (q.append r).eval w doubt acc = andThen (q.eval w doubt acc) (r.eval w doubt) := by
  induction q generalizing acc with
  | nil => rfl
  | rule p t rest ih | block p body rest _ ih =>
    simp only [Prog.append, Prog.eval, andThen_assoc, funext ih]

/-! ### The layout is right -/

variable {w : Walker A T S R} {code : List (Ins A T)} {s : State S}

theorem yields_of_getElem {i : Ins A T} (hi : code[s.position]? = some i) :
    Yields w code s (exec w code.length s i) := by
  refine ⟨s, .refl, ?_⟩
  rw [step, hi]

variable {op : Op T}

/-- The tail of a clause concludes it; no `or` is a tail. -/
theorem exec_tail {length : Nat} {a : A} {not : Bool} (hop : ∀ d, op ≠ .or d) :
    exec w length s ⟨a, not, op⟩ = conclude w length s op ((s.clause.or (w.pred a)).xor not) := by
  cases op with
  | or d => exact absurd rfl (hop d)
  | and d => rfl
  | block d => rfl
  | tail t => rfl

/-- The tail of a clause, wherever the walk comes from. -/
theorem yields_tail (pre post : List (Ins A T)) (last : A) (not : Bool) (hop : ∀ d, op ≠ .or d)
    (hcode : code = pre ++ ⟨last, not, op⟩ :: post)
    (hpos : s.position = pre.length) :
    Yields w code s (conclude w code.length s op ((s.clause.or (w.pred last)).xor not)) := by
  have hi : code[s.position]? = some ⟨last, not, op⟩ := by simp [hcode, hpos]
  rw [← exec_tail hop]
  exact yields_of_getElem hi

/-- All instructions of a clause but its tail. -/
theorem orCode_eq_append (not : Bool) (as : List A) (last : A) (op : Op T) :
    ∃ front : List (Ins A T), front.length = as.length ∧
      orCode not as last op = front ++ [⟨last, not, op⟩] := by
  induction as with
  | nil => exact ⟨[], rfl, rfl⟩
  | cons a as ih =>
    obtain ⟨front, hlen, heq⟩ := ih
    exact ⟨⟨a, not, .or (as.length + 1)⟩ :: front, by simp [hlen], by simp [orCode, heq]⟩

/-- **One clause.**  The walk reaches the tail of the clause and concludes it
with the value of the clause. -/
theorem yields_orCode {not : Bool} {last : A} (post : List (Ins A T)) (hop : ∀ d, op ≠ .or d) :
    ∀ (as : List A) (pre : List (Ins A T)) (s : State S),
      code = pre ++ orCode not as last op ++ post → s.position = pre.length →
      Yields w code s (conclude w code.length
        { s with position := pre.length + as.length } op
        ((s.clause.or (orValue w.pred as last)).xor not)) := by
  intro as
  induction as with
  | nil =>
    intro pre s hcode hpos
    have h := yields_tail (w := w) pre post last not hop (by simpa [orCode] using hcode) hpos
    simpa [← hpos, orValue] using h
  | cons a as ih =>
    intro pre s hcode hpos
    have hi : code[s.position]? = some ⟨a, not, .or (as.length + 1)⟩ := by
      simp [hcode, hpos, orCode]
    have hlen : pre.length + as.length + 2 ≤ code.length := by
      simp [hcode, orCode]
      omega
    have hfirst := yields_of_getElem (w := w) hi
    simp only [exec] at hfirst
    simp only [orValue, ← Truth.or_assoc]
    by_cases hhit : s.clause.or (w.pred a) = .hit
    · -- The clause is decided: the jump lands on its tail.
      obtain ⟨front, hfront, heq⟩ := orCode_eq_append not as last op
      rw [if_pos hhit] at hfirst
      have hjump := hfirst.leads_advance (by omega) (by simp only; omega)
      have hsplit : code = (pre ++ ⟨a, not, .or (as.length + 1)⟩ :: front) ++
          ⟨last, not, op⟩ :: post := by
        simp [hcode, orCode, heq]
      have htail := yields_tail (w := w) _ post last not hop hsplit (s := { s with
        clause := s.clause.or (w.pred a), position := s.position + (as.length + 1) })
        (by simp [hpos, hfront])
      have hall := hjump.yields htail
      simp only [hhit, Truth.hit_or, hpos] at hall
      rw [hhit, Truth.hit_or, List.length_cons]
      exact hall
    · -- Undecided: the next alternative carries the answer so far.
      rw [if_neg hhit] at hfirst
      have hnext := hfirst.leads_advance (by omega) (by simp only; omega)
      have hall := hnext.yields (ih (pre ++ [⟨a, not, .or (as.length + 1)⟩])
        { s with clause := s.clause.or (w.pred a), position := s.position + 1 }
        (by simp [hcode, orCode]) (by simp [hpos]))
      have hend : (pre ++ [(⟨a, not, .or (as.length + 1)⟩ : Ins A T)]).length + as.length =
          pre.length + (a :: as).length := by
        simp only [List.length_append, List.length_cons, List.length_nil]
        omega
      rw [hend] at hall
      exact hall

/-- **One condition.**  A condition that misses leaves the rule
`op.missDistance` after its tail; any other enters `op` at its tail, in doubt
if the condition is. -/
theorem yields_clauses (w : Walker A T S R)
    (last : Clause A) (post : List (Ins A T)) (hop : ∀ d, op ≠ .or d)
    (hmiss : 0 < op.missDistance) :
    ∀ (cs : List (Clause A)) (pre : List (Ins A T)) (s : State S),
      code = pre ++ clausesCode op cs last ++ post → s.position = pre.length →
      s.clause = .miss →
      pre.length + clausesSize cs last - 1 + op.missDistance ≤ code.length →
      if clausesValue w.pred cs last = .miss then
        Leads w code s { s with
          position := pre.length + clausesSize cs last - 1 + op.missDistance
          ruleUncertain := false }
      else
        Yields w code s (enter w code.length { s with
          position := pre.length + clausesSize cs last - 1
          ruleUncertain :=
            s.ruleUncertain || decide (clausesValue w.pred cs last = .maybe) } op) := by
  intro cs
  induction cs with
  | nil =>
    intro pre s hcode hpos hclause hfit
    have hend : pre.length + clausesSize [] last - 1 =
        pre.length + last.alternatives.length := by
      simp [clausesSize, Clause.size]
    rw [hend] at hfit ⊢
    have h := yields_orCode (w := w) post hop last.alternatives pre s
      (by simpa [clausesCode, Clause.code] using hcode) hpos
    have hvalue : (orValue w.pred last.alternatives last.last).xor last.not =
        clausesValue w.pred [] last := rfl
    rw [hclause, Truth.miss_or, hvalue, conclude] at h
    obtain ⟨position, u, clause, ru, acc⟩ := s
    obtain rfl : clause = .miss := hclause
    by_cases hm : clausesValue w.pred [] last = .miss
    · rw [if_pos hm] at h ⊢
      exact h.leads_advance hmiss hfit
    · rw [if_neg hm] at h ⊢
      exact h
  | cons c cs ih =>
    intro pre s hcode hpos hclause hfit
    have hsize := clausesSize_pos cs last
    have hcsize : c.size = c.alternatives.length + 1 := rfl
    simp only [clausesSize] at hfit
    have hcode' : code = (pre ++ c.code (.and (clausesSize cs last + op.missDistance))) ++
        clausesCode op cs last ++ post := by
      simpa [clausesCode] using hcode
    have hand : ∀ d, (Op.and (clausesSize cs last + op.missDistance) : Op T) ≠ .or d := by
      simp
    have hdist : (Op.and (clausesSize cs last + op.missDistance) : Op T).missDistance =
        clausesSize cs last + op.missDistance := rfl
    have hvalue : (orValue w.pred c.alternatives c.last).xor c.not = c.value w.pred := rfl
    have hvalues : clausesValue w.pred (c :: cs) last =
        (c.value w.pred).and (clausesValue w.pred cs last) := rfl
    have hend : pre.length + c.size + clausesSize cs last - 1 =
        pre.length + clausesSize (c :: cs) last - 1 := by
      simp only [clausesSize]
      omega
    have h := yields_orCode (w := w) (clausesCode op cs last ++ post) hand c.alternatives pre s
      (by simpa [Clause.code] using hcode') hpos
    rw [hclause, Truth.miss_or, hvalue, conclude, hdist] at h
    rw [hvalues]
    obtain ⟨position, u, clause, ru, acc⟩ := s
    obtain rfl : clause = .miss := hclause
    by_cases hm : c.value w.pred = .miss
    · -- This clause misses, and with it the condition.
      rw [if_pos hm] at h
      rw [if_pos (by simp [hm])]
      have hleads := h.leads_advance (by omega) (by simp only; omega)
      have htarget : pre.length + c.alternatives.length + (clausesSize cs last + op.missDistance) =
          pre.length + clausesSize (c :: cs) last - 1 + op.missDistance := by
        simp only [clausesSize]
        omega
      simp only [htarget] at hleads
      exact hleads
    · rw [if_neg hm, enter] at h
      have hleads := h.leads_advance (by omega) (by simp only; omega)
      have hrest := ih (pre ++ c.code (.and (clausesSize cs last + op.missDistance)))
        ⟨pre.length + c.alternatives.length + 1, u, .miss,
          ru || decide (c.value w.pred = .maybe), acc⟩ hcode' (by simp [hcsize]; omega) rfl
        (by simp; omega)
      simp only [List.length_append, Clause.code_length, hend] at hrest
      -- A clause that does not miss leaves the verdict to the others, up to doubt.
      have hsame := Truth.and_eq_miss (clausesValue w.pred cs last) hm
      by_cases hrm : clausesValue w.pred cs last = .miss
      · rw [if_pos hrm] at hrest
        rw [if_pos (hsame.mpr hrm)]
        exact Relation.ReflTransGen.trans hleads hrest
      · rw [if_neg hrm] at hrest
        rw [if_neg (hsame.not.mpr hrm)]
        simp only [Bool.or_assoc, Truth.and_eq_maybe hm hrm] at hrest
        exact hleads.yields hrest

theorem yields_cond (w : Walker A T S R) (p : Cond A) (op : Op T)
    (pre post : List (Ins A T)) (hop : ∀ d, op ≠ .or d)
    (hmiss : 0 < op.missDistance) (hcode : code = pre ++ p.code op ++ post)
    (hpos : s.position = pre.length) (hclause : s.clause = .miss)
    (hru : s.ruleUncertain = false)
    (hfit : pre.length + p.size - 1 + op.missDistance ≤ code.length) :
    if p.value w.pred = .miss then
      Leads w code s { s with position := pre.length + p.size - 1 + op.missDistance }
    else
      Yields w code s (enter w code.length { s with
        position := pre.length + p.size - 1
        ruleUncertain := decide (p.value w.pred = .maybe) } op) := by
  have h := yields_clauses w p.last post hop hmiss p.init pre s hcode hpos hclause hfit
  rw [hru, Bool.false_or] at h
  rw [← hru] at h
  exact h

/-- The state between two rules, at `position`, of a walk in a tainted block or
outside of one. -/
structure Between (doubt : Bool) (first last : Nat) (s : State S) : Prop where
  position : s.position = first
  clause : s.clause = .miss
  ruleUncertain : s.ruleUncertain = false
  tainted : doubt = true → last ≤ s.uncertainUntil
  clean : doubt = false → s.uncertainUntil ≤ first

/-- From `s` the walk stops as `outcome` says, or passes between two rules at
`last`, with a taint that reaches as far as before. -/
def Passes (w : Walker A T S R) (code : List (Ins A T)) (doubt : Bool) (last : Nat)
    (s : State S) : S ⊕ R → Prop
  | .inr r => Yields w code s (.stop r)
  | .inl acc => ∃ u, (doubt = true → u = s.uncertainUntil) ∧ (doubt = false → u ≤ last) ∧
      Leads w code s ⟨last, u, .miss, false, acc⟩

variable {last : Nat} {doubt : Bool} {outcome : S ⊕ R}

/-- The walk first reaches `s'`, with the same taint. -/
theorem Passes.of_leads {s' : State S} (h : Passes w code doubt last s' outcome)
    (hleads : Leads w code s s')
    (htaint : doubt = true → s'.uncertainUntil = s.uncertainUntil) :
    Passes w code doubt last s outcome := by
  cases outcome with
  | inr r => exact hleads.yields h
  | inl acc =>
    obtain ⟨u, hu, hu', hnext⟩ := h
    exact ⟨u, fun hd => (hu hd).trans (htaint hd), hu', Relation.ReflTransGen.trans hleads hnext⟩

/-- A tainted stretch that ends its own taint, seen from outside. -/
theorem Passes.of_tainted {s' : State S} (h : Passes w code true last s' outcome)
    (hleads : Leads w code s s') (hend : s'.uncertainUntil ≤ last) :
    Passes w code false last s outcome := by
  cases outcome with
  | inr r => exact hleads.yields h
  | inl acc =>
    obtain ⟨u, hu, _, hnext⟩ := h
    exact ⟨u, by simp, fun _ => (hu rfl).trans_le hend,
      Relation.ReflTransGen.trans hleads hnext⟩

/-- The state in which a stretch of code is left. -/
theorem Passes.between {mid : Nat} {acc : S} (h : Passes w code doubt mid s (.inl acc))
    (htaint : doubt = true → last ≤ s.uncertainUntil) :
    ∃ s', Leads w code s s' ∧ s'.acc = acc ∧ Between doubt mid last s' ∧
      (doubt = true → s'.uncertainUntil = s.uncertainUntil) := by
  obtain ⟨u, hu, hu', hnext⟩ := h
  exact ⟨_, hnext, rfl, ⟨rfl, rfl, rfl, fun hd => (htaint hd).trans_eq (hu hd).symm, hu'⟩, hu⟩

/-- Two stretches of code, one after the other. -/
theorem Passes.andThen {mid : Nat} {f : S → S ⊕ R}
    (h : Passes w code doubt mid s outcome)
    (htaint : doubt = true → last ≤ s.uncertainUntil)
    (hrest : ∀ s', Between doubt mid last s' → Passes w code doubt last s' (f s'.acc)) :
    Passes w code doubt last s (andThen outcome f) := by
  cases outcome with
  | inr r => exact h
  | inl acc =>
    obtain ⟨s', hleads, rfl, hb, hu⟩ := h.between htaint
    exact (hrest s' hb).of_leads hleads hu

/-- **One rule.** -/
theorem passes_rule (w : Walker A T S R) (p : Cond A) (t : T)
    (doubt : Bool) (pre post : List (Ins A T))
    (hcode : code = pre ++ p.code (.tail t) ++ post) (hb : Between doubt pre.length last s)
    (hlast : pre.length + p.size ≤ last) :
    Passes w code doubt (pre.length + p.size) s
      (if p.value w.pred = .miss then .inl s.acc
        else w.apply s.acc t (doubt || decide (p.value w.pred = .maybe))) := by
  have hp := p.size_pos
  have hlen : pre.length + p.size ≤ code.length := by
    simp [hcode]
  have hend : pre.length + p.size - 1 + 1 = pre.length + p.size := by omega
  have hclean : doubt = false → s.uncertainUntil ≤ pre.length + p.size := by
    intro hd
    have := hb.clean hd
    omega
  have hcond := yields_cond w p (.tail t) pre post (by simp) (by simp [Op.missDistance]) hcode
    hb.position hb.clause hb.ruleUncertain (by simp only [Op.missDistance]; omega)
  by_cases hm : p.value w.pred = .miss
  · rw [if_pos hm] at hcond ⊢
    refine ⟨s.uncertainUntil, fun _ => rfl, hclean, ?_⟩
    rw [hb.clause, hb.ruleUncertain] at hcond
    simp only [Op.missDistance, hend] at hcond
    exact hcond
  · rw [if_neg hm] at hcond ⊢
    -- The tail lies in the tainted stretch exactly when the block is in doubt.
    have hdoubt : decide (pre.length + p.size - 1 < s.uncertainUntil) = doubt := by
      cases doubt with
      | false =>
        have := hb.clean rfl
        simp
        omega
      | true =>
        have := hb.tainted rfl
        simp
        omega
    simp only [enter, hdoubt] at hcond
    rw [Bool.or_comm] at hcond
    cases happly : w.apply s.acc t (doubt || decide (p.value w.pred = .maybe)) with
    | inr r =>
      rw [happly] at hcond
      exact hcond
    | inl acc =>
      simp only [happly] at hcond
      have hleads := hcond.leads_advance (by omega) (by simp only; omega)
      rw [hb.clause] at hleads
      simp only [hend] at hleads
      exact ⟨s.uncertainUntil, fun _ => rfl, hclean, hleads⟩

/-- The state inside a block whose condition does not miss, at its first rule: in doubt if
the block is, or its condition. -/
theorem leads_body (w : Walker A T S R) (p : Cond A) (body : Prog A T)
    (doubt : Bool) (pre post : List (Ins A T))
    (hcode : code = pre ++ p.code (.block (body.size + 1)) ++ body.code ++ post)
    (hb : Between doubt pre.length last s) (hlast : pre.length + p.size + body.size ≤ last)
    (hm : p.value w.pred ≠ .miss) :
    ∃ s', Leads w code s s' ∧ s'.acc = s.acc ∧
      Between (doubt || decide (p.value w.pred = .maybe)) (pre.length + p.size)
        (pre.length + p.size + body.size) s' ∧
      (doubt = true → s'.uncertainUntil = s.uncertainUntil) ∧
      (doubt = false → s'.uncertainUntil ≤ pre.length + p.size + body.size) := by
  have hp := p.size_pos
  have hlen : pre.length + p.size + body.size ≤ code.length := by
    simp [hcode]
    omega
  have hcond := yields_cond w p (.block (body.size + 1)) pre (body.code ++ post) (by simp)
    (by simp [Op.missDistance]) (by simpa using hcode) hb.position hb.clause hb.ruleUncertain
    (by simp only [Op.missDistance]; omega)
  have hjump : ¬(body.size + 1 = 0 ∨
      code.length - (pre.length + p.size - 1) < body.size + 1) := by omega
  rw [if_neg hm] at hcond
  simp only [enter, if_neg hjump] at hcond
  have hleads := hcond.leads_advance (by omega) (by simp only; omega)
  have hfirst : pre.length + p.size - 1 + 1 = pre.length + p.size := by omega
  have hend : pre.length + p.size - 1 + (body.size + 1) = pre.length + p.size + body.size := by
    omega
  simp only [hfirst, hend, hb.clause] at hleads
  refine ⟨_, hleads, rfl, ?_⟩
  cases doubt with
  | true =>
    -- The taint from outside reaches past this block and is kept.
    have hout := hb.tainted rfl
    have hkeep : (if decide (p.value w.pred = .maybe) = true then
        max s.uncertainUntil (pre.length + p.size + body.size) else s.uncertainUntil) =
        s.uncertainUntil := by
      split
      · omega
      · rfl
    rw [hkeep, Bool.true_or]
    exact ⟨⟨rfl, rfl, rfl, fun _ => hlast.trans hout, fun h => by cases h⟩, fun _ => rfl,
      fun h => by cases h⟩
  | false =>
    have hout := hb.clean rfl
    by_cases hmaybe : p.value w.pred = .maybe
    · -- The taint opened here ends with the block.
      simp only [hmaybe, decide_true, if_true, Bool.or_true]
      exact ⟨⟨rfl, rfl, rfl, fun _ => le_max_right _ _, fun h => by cases h⟩,
        (fun h => by cases h), fun _ => by omega⟩
    · simp only [hmaybe, decide_false, Bool.false_eq_true, if_false, Bool.or_false]
      exact ⟨⟨rfl, rfl, rfl, (fun h => by cases h), fun _ => by simp only; omega⟩,
        (fun h => by cases h), fun _ => by omega⟩

/-- **One guarded block**, given its body. -/
theorem passes_block (w : Walker A T S R) (p : Cond A) (body : Prog A T)
    (doubt : Bool) (pre post : List (Ins A T))
    (hcode : code = pre ++ p.code (.block (body.size + 1)) ++ body.code ++ post)
    (hb : Between doubt pre.length last s) (hlast : pre.length + p.size + body.size ≤ last)
    (hbody : ∀ (doubt' : Bool) (s' : State S),
      Between doubt' (pre.length + p.size) (pre.length + p.size + body.size) s' →
      Passes w code doubt' (pre.length + p.size + body.size) s' (body.eval w doubt' s'.acc)) :
    Passes w code doubt (pre.length + p.size + body.size) s
      (if p.value w.pred = .miss then .inl s.acc
        else body.eval w (doubt || decide (p.value w.pred = .maybe)) s.acc) := by
  by_cases hm : p.value w.pred = .miss
  · have hp := p.size_pos
    have hlen : pre.length + p.size + body.size ≤ code.length := by
      simp [hcode]
      omega
    have hcond := yields_cond w p (.block (body.size + 1)) pre (body.code ++ post) (by simp)
      (by simp [Op.missDistance]) (by simpa using hcode) hb.position hb.clause hb.ruleUncertain
      (by simp only [Op.missDistance]; omega)
    have hend : pre.length + p.size - 1 + (body.size + 1) = pre.length + p.size + body.size := by
      omega
    rw [if_pos hm] at hcond ⊢
    refine ⟨s.uncertainUntil, fun _ => rfl, fun hd => ?_, ?_⟩
    · have := hb.clean hd
      omega
    · rw [hb.clause, hb.ruleUncertain] at hcond
      simp only [Op.missDistance, hend] at hcond
      exact hcond
  · rw [if_neg hm]
    obtain ⟨s', hleads, hacc, hb', hkeep, hclose⟩ :=
      leads_body w p body doubt pre post hcode hb hlast hm
    have hin := hbody _ s' hb'
    rw [hacc] at hin
    cases doubt with
    | true => exact hin.of_leads hleads hkeep
    | false =>
      by_cases hmaybe : p.value w.pred = .maybe
      · simp only [hmaybe, decide_true, Bool.or_true] at hin ⊢
        exact hin.of_tainted hleads (hclose rfl)
      · simp only [hmaybe, decide_false, Bool.or_false] at hin ⊢
        exact hin.of_leads hleads nofun

/-- **A program in its place.**  Walking the code of a program that lies between
`pre` and `post` is evaluating it. -/
theorem passes_prog :
    ∀ (q : Prog A T) (doubt : Bool) (pre post : List (Ins A T)) (s : State S),
      code = pre ++ q.code ++ post →
      Between doubt pre.length (pre.length + q.size) s →
      Passes w code doubt (pre.length + q.size) s (q.eval w doubt s.acc) := by
  intro q
  induction q with
  | nil =>
    intro doubt pre post s hcode hb
    obtain ⟨position, u, clause, ru, acc⟩ := s
    obtain ⟨hpos, hclause, hru, htaint, hclean⟩ := hb
    simp only at hpos hclause hru
    subst hpos hclause hru
    exact ⟨u, fun _ => rfl, hclean, .refl⟩
  | rule p t rest ih =>
    intro doubt pre post s hcode hb
    have hcode' : code = (pre ++ p.code (.tail t)) ++ rest.code ++ post := by
      simp [hcode, Prog.code]
    have hlast : (pre ++ p.code (.tail t)).length + rest.size =
        pre.length + (Prog.rule p t rest).size := by
      simp [Prog.size, Nat.add_assoc]
    refine (passes_rule w p t doubt pre (rest.code ++ post) (by simpa using hcode') hb
      (by simp [Prog.size])).andThen hb.tainted ?_
    intro s' hb'
    have := ih doubt (pre ++ p.code (.tail t)) post s' hcode'
    rw [hlast] at this
    exact this (by simpa using hb')
  | block p body rest ihb ihr =>
    intro doubt pre post s hcode hb
    have hcode' : code = (pre ++ p.code (.block (body.size + 1)) ++ body.code) ++ rest.code ++
        post := by
      simp [hcode, Prog.code]
    have hlast : (pre ++ p.code (.block (body.size + 1)) ++ body.code).length + rest.size =
        pre.length + (Prog.block p body rest).size := by
      simp [Prog.size, Nat.add_assoc]
    refine (passes_block w p body doubt pre (rest.code ++ post) (by simpa using hcode') hb
      (by simp [Prog.size, Nat.add_assoc]) ?_).andThen hb.tainted ?_
    · intro doubt' s' hb'
      have := ihb doubt' (pre ++ p.code (.block (body.size + 1))) (rest.code ++ post) s'
        (by simpa using hcode')
      simpa using this (by simpa using hb')
    · intro s' hb'
      have := ihr doubt (pre ++ p.code (.block (body.size + 1)) ++ body.code) post s' hcode'
      rw [hlast] at this
      exact this (by simpa [Nat.add_assoc] using hb')

/-- **The layout is right.**  Walking the code of a program, wherever it lies, is evaluating
it; a program that never stops leaves the walk without a result. -/
theorem walk_code_behind (w : Walker A T S R) (pre : List (Ins A T)) (q : Prog A T) (acc : S) :
    walk w (pre ++ q.code) { State.start acc with position := pre.length } =
      (q.eval w false acc).getRight? := by
  have hcode : pre ++ q.code = pre ++ q.code ++ [] := by simp
  have h : Passes w (pre ++ q.code) false _ { State.start acc with position := pre.length }
      (q.eval w false acc) :=
    passes_prog q false pre [] _ hcode ⟨rfl, rfl, rfl, nofun, fun _ => Nat.zero_le _⟩
  cases heval : q.eval w false acc with
  | inr r =>
    rw [heval] at h
    exact Yields.walk_eq_some h
  | inl acc' =>
    rw [heval] at h
    obtain ⟨u, _, _, hleads⟩ := h
    rw [hleads.walk_eq, walk, run_past_end (by simp)]
    rfl

theorem walk_code (w : Walker A T S R) (q : Prog A T) (acc : S) :
    walk w q.code (State.start acc) = (q.eval w false acc).getRight? :=
  walk_code_behind w [] q acc

/-- The same for the second of two programs, when the walk begins behind the first. -/
theorem walk_code_from (w : Walker A T S R) (q r : Prog A T) {acc : S} {result : R}
    (heval : r.eval w false acc = .inr result) :
    walk w (q.append r).code { State.start acc with position := q.size } = some result := by
  have h := walk_code_behind w q.code r acc
  rw [heval, Prog.code_length, ← Prog.code_append] at h
  exact h

end RuleMachine
