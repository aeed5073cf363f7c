import Dae.Lib.RuleCover

/-!
# Where jumps land

The jumps of a program that was laid out by `Prog.code` stay inside it and inside its
structure: a hit in a clause goes to the tail of the same clause, and a miss goes to
the place where a rule begins, or to the end of the program.
-/

namespace RuleMachine

variable {A T S R : Type*}

/-- The operation is the tail of a rule, or the tail of the condition of a block. -/
def Op.endsRule : Op T → Bool
  | .or _ => false
  | .and _ => false
  | .block _ => true
  | .tail _ => true

/-- A rule begins at the position: nothing is before it, or the tail of another. -/
def RuleStart (code : List (Ins A T)) (i : Nat) : Prop :=
  i = 0 ∨ ∃ ins, code[i - 1]? = some ins ∧ ins.op.endsRule = true

/-- The clause of the instruction at `i` has its tail at `j`. -/
def ClauseTail (code : List (Ins A T)) (i j : Nat) : Prop :=
  (∀ k, i ≤ k → k < j → ∃ ins d, code[k]? = some ins ∧ ins.op = .or d) ∧
    ∃ ins, code[j]? = some ins ∧ ∀ d, ins.op ≠ .or d

/-- **The jump of an instruction lands** on the tail of its clause or where a rule begins,
and at `last` at the latest. -/
structure Lands (code : List (Ins A T)) (last i : Nat) (ins : Ins A T) : Prop where
  hit : ∀ d, ins.op = .or d → 0 < d ∧ i + d < last ∧ ClauseTail code i (i + d)
  miss : (∀ d, ins.op ≠ .or d) → 0 < ins.op.missDistance ∧ i + ins.op.missDistance ≤ last ∧
    RuleStart code (i + ins.op.missDistance)

variable {code : List (Ins A T)} {last : Nat}

theorem Lands.mono {last' i : Nat} {ins : Ins A T}
    (h : Lands code last i ins) (hle : last ≤ last') : Lands code last' i ins where
  hit d hd := by
    obtain ⟨hpos, hlt, htail⟩ := h.hit d hd
    exact ⟨hpos, by omega, htail⟩
  miss hne := by
    obtain ⟨hpos, hend, hstart⟩ := h.miss hne
    exact ⟨hpos, by omega, hstart⟩

/-- Every instruction from `first` up to `last` lands. -/
def LandsIn (code : List (Ins A T)) (first last : Nat) : Prop :=
  ∀ i ins, first ≤ i → i < last → code[i]? = some ins → Lands code last i ins

theorem LandsIn.append {first mid : Nat}
    (h₁ : LandsIn code first mid) (h₂ : LandsIn code mid last) (hle : mid ≤ last) :
    LandsIn code first last := by
  intro i ins hfirst hlast hi
  rcases Nat.lt_or_ge i mid with hlt | hge
  · exact (h₁ i ins hfirst hlt hi).mono hle
  · exact h₂ i ins hge hlast hi

/-- The instructions of a clause, one by one. -/
theorem orCode_getElem (not : Bool) (last : A) (op : Op T) :
    ∀ (as : List A) (k : Nat), k ≤ as.length →
      ∃ a, (orCode not as last op)[k]? = some ⟨a, not,
        if k = as.length then op else .or (as.length - k)⟩ := by
  intro as
  induction as with
  | nil =>
    intro k hk
    obtain rfl : k = 0 := Nat.le_zero.mp hk
    exact ⟨last, rfl⟩
  | cons a as ih =>
    intro k hk
    cases k with
    | zero => exact ⟨a, rfl⟩
    | succ k =>
      obtain ⟨a', ha'⟩ := ih k (Nat.le_of_succ_le_succ hk)
      refine ⟨a', ?_⟩
      rw [orCode, List.getElem?_cons_succ, ha', List.length_cons]
      simp only [Nat.add_right_cancel_iff, Nat.add_sub_add_right]

/-- A clause in its place: its alternatives land on its tail. -/
theorem Clause.lands (op : Op T) (hop : ∀ d, op ≠ .or d) (c : Clause A)
    (pre post : List (Ins A T)) (hcode : code = pre ++ c.code op ++ post)
    (hmiss : 0 < op.missDistance) (hend : pre.length + c.size - 1 + op.missDistance ≤ last)
    (hstart : RuleStart code (pre.length + c.size - 1 + op.missDistance)) {i : Nat}
    {ins : Ins A T} (hge : pre.length ≤ i) (hlt : i < pre.length + c.size)
    (hi : code[i]? = some ins) : Lands code last i ins := by
  have hsize : c.size = c.alternatives.length + 1 := rfl
  have hget : ∀ k, k ≤ c.alternatives.length → ∃ a, code[pre.length + k]? = some ⟨a, c.not,
      if k = c.alternatives.length then op else .or (c.alternatives.length - k)⟩ := by
    intro k hk
    obtain ⟨a, ha⟩ := orCode_getElem c.not c.last op c.alternatives k hk
    refine ⟨a, ?_⟩
    rw [hcode, List.append_assoc, List.getElem?_append_right (Nat.le_add_right _ _),
      Nat.add_sub_cancel_left, List.getElem?_append_left (by rw [Clause.code_length]; omega)]
    exact ha
  have hlast : pre.length + c.size - 1 = pre.length + c.alternatives.length := by omega
  rw [hlast] at hend hstart
  obtain ⟨k, rfl⟩ := Nat.exists_eq_add_of_le hge
  obtain ⟨a, ha⟩ := hget k (by omega)
  rw [hi] at ha
  obtain rfl := Option.some.inj ha
  by_cases hk : k = c.alternatives.length
  · simp only [if_pos hk]
    refine ⟨fun d hd => absurd hd (hop d), fun _ => ?_⟩
    rw [hk]
    exact ⟨hmiss, hend, hstart⟩
  · simp only [if_neg hk]
    refine ⟨?_, fun hne => absurd rfl (hne _)⟩
    rintro d hd
    cases hd
    have hsum : pre.length + k + (c.alternatives.length - k) =
        pre.length + c.alternatives.length := by omega
    rw [hsum]
    refine ⟨by omega, by omega, ?_, ?_⟩
    · intro j hj hj'
      obtain ⟨a', ha'⟩ := hget (j - pre.length) (by omega)
      rw [show pre.length + (j - pre.length) = j by omega, if_neg (by omega)] at ha'
      exact ⟨_, _, ha', rfl⟩
    · obtain ⟨a', ha'⟩ := hget _ (Nat.le_refl _)
      rw [if_pos rfl] at ha'
      exact ⟨_, ha', hop⟩

/-- A condition in its place: a miss of any of its clauses leaves the rule. -/
theorem clausesCode_lands (op : Op T) (hop : ∀ d, op ≠ .or d)
    (hmiss : 0 < op.missDistance) (tail : Clause A) (post : List (Ins A T)) :
    ∀ (cs : List (Clause A)) (pre : List (Ins A T)),
      code = pre ++ clausesCode op cs tail ++ post →
      pre.length + clausesSize cs tail - 1 + op.missDistance ≤ last →
      RuleStart code (pre.length + clausesSize cs tail - 1 + op.missDistance) →
      ∀ i ins, pre.length ≤ i → i < pre.length + clausesSize cs tail → code[i]? = some ins →
        Lands code last i ins := by
  intro cs
  induction cs with
  | nil =>
    intro pre hcode hend hstart i ins hge hlt hi
    exact tail.lands op hop pre post hcode hmiss hend hstart hge hlt hi
  | cons c cs ih =>
    intro pre hcode hend hstart i ins hge hlt hi
    have hpos := clausesSize_pos cs tail
    have hc := c.size_pos
    have hsize : clausesSize (c :: cs) tail = c.size + clausesSize cs tail := rfl
    have hcode' : code = pre ++ c.code (.and (clausesSize cs tail + op.missDistance)) ++
        (clausesCode op cs tail ++ post) := by
      simpa [clausesCode] using hcode
    have hlen : (pre ++ c.code (.and (clausesSize cs tail + op.missDistance))).length =
        pre.length + c.size := by
      rw [List.length_append, Clause.code_length]
    rcases Nat.lt_or_ge i (pre.length + c.size) with h | h
    · have hand : pre.length + c.size - 1 + (clausesSize cs tail + op.missDistance) =
          pre.length + clausesSize (c :: cs) tail - 1 + op.missDistance := by omega
      exact c.lands (.and _) (fun _ h => by cases h) pre _ hcode'
        (show 0 < clausesSize cs tail + op.missDistance by omega) (hand.trans_le hend)
        (by rw [Op.missDistance, hand]; exact hstart) hge h hi
    · have htarget : pre.length + c.size + clausesSize cs tail - 1 + op.missDistance =
          pre.length + clausesSize (c :: cs) tail - 1 + op.missDistance := by omega
      refine ih (pre ++ c.code (.and (clausesSize cs tail + op.missDistance)))
        (by rw [List.append_assoc _ _ post]; exact hcode') ?_ ?_ i ins ?_ ?_ hi
      · rw [hlen, htarget]
        exact hend
      · rw [hlen, htarget]
        exact hstart
      · rw [hlen]
        exact h
      · rw [hlen]
        omega

/-- The last instruction of a condition does its operation. -/
theorem clausesCode_last (op : Op T) (tail : Clause A) :
    ∀ cs : List (Clause A), ∃ front ins, clausesCode op cs tail = front ++ [ins] ∧ ins.op = op := by
  intro cs
  induction cs with
  | nil =>
    obtain ⟨front, -, heq⟩ := orCode_eq_append tail.not tail.alternatives tail.last op
    exact ⟨front, _, heq, rfl⟩
  | cons c cs ih =>
    obtain ⟨front, ins, heq, hop⟩ := ih
    exact ⟨_, ins, by rw [clausesCode, heq, ← List.append_assoc], hop⟩

/-- A rule begins behind a condition whose operation ends a rule. -/
theorem ruleStart_cond (op : Op T) (hop : op.endsRule = true) (p : Cond A)
    (pre post : List (Ins A T)) (hcode : code = pre ++ p.code op ++ post) :
    RuleStart code (pre.length + p.size) := by
  obtain ⟨front, ins, heq, hins⟩ := clausesCode_last op p.last p.init
  have hlen : front.length + 1 = p.size := by
    rw [← p.code_length op, Cond.code, heq, List.length_append]
    rfl
  refine .inr ⟨ins, ?_, by rw [hins]; exact hop⟩
  rw [hcode, Cond.code, heq, show pre.length + p.size - 1 = (pre ++ front).length by
    rw [List.length_append]
    omega]
  simp

/-- **A program in its place**: all of its jumps land in it, and a rule begins behind it. -/
theorem Prog.lands :
    ∀ (q : Prog A T) (pre post : List (Ins A T)), code = pre ++ q.code ++ post →
      RuleStart code pre.length →
      LandsIn code pre.length (pre.length + q.size) ∧ RuleStart code (pre.length + q.size) := by
  intro q
  induction q with
  | nil =>
    intro pre post _ hstart
    exact ⟨fun i ins hge hlt => absurd hlt (Nat.not_lt.mpr hge), hstart⟩
  | rule p t rest ih =>
    intro pre post hcode _
    have hp := p.size_pos
    have hlen : (pre ++ p.code (.tail t)).length = pre.length + p.size := by
      rw [List.length_append, Cond.code_length]
    have hcode' : code = pre ++ p.code (.tail t) ++ (rest.code ++ post) := by
      simpa [Prog.code] using hcode
    have hstart := ruleStart_cond (.tail t) rfl p pre _ hcode'
    obtain ⟨hrest, hend⟩ := ih (pre ++ p.code (.tail t)) post
      (by rw [List.append_assoc _ _ post]; exact hcode') (hlen ▸ hstart)
    rw [hlen] at hrest hend
    have hfirst : LandsIn code pre.length (pre.length + p.size) := by
      have hnext : pre.length + p.size - 1 + 1 = pre.length + p.size := by omega
      exact clausesCode_lands (.tail t) (fun _ h => by cases h) Nat.one_pos p.last _ p.init pre hcode'
        hnext.le (hnext.symm ▸ hstart)
    have hsize : pre.length + (Prog.rule p t rest).size = pre.length + p.size + rest.size := by
      rw [Prog.size]
      omega
    rw [hsize]
    exact ⟨hfirst.append hrest (by omega), hend⟩
  | block p body rest ihb ihr =>
    intro pre post hcode _
    have hp := p.size_pos
    have hlen : (pre ++ p.code (.block (body.size + 1))).length = pre.length + p.size := by
      rw [List.length_append, Cond.code_length]
    have hcode' : code = pre ++ p.code (.block (body.size + 1)) ++
        (body.code ++ (rest.code ++ post)) := by
      simpa [Prog.code] using hcode
    have hstart := ruleStart_cond (.block (body.size + 1)) rfl p pre _ hcode'
    obtain ⟨hbody, hmid⟩ := ihb (pre ++ p.code (.block (body.size + 1))) (rest.code ++ post)
      (by rw [List.append_assoc _ body.code]; exact hcode') (hlen ▸ hstart)
    rw [hlen] at hbody hmid
    have hlen' : (pre ++ p.code (.block (body.size + 1)) ++ body.code).length =
        pre.length + p.size + body.size := by
      rw [List.length_append, hlen, Prog.code_length]
    obtain ⟨hrest, hend⟩ := ihr (pre ++ p.code (.block (body.size + 1)) ++ body.code) post
      (by rw [List.append_assoc _ _ post, List.append_assoc _ body.code]; exact hcode')
      (hlen' ▸ hmid)
    rw [hlen'] at hrest hend
    have hfirst : LandsIn code pre.length (pre.length + p.size + body.size) := by
      have hnext : pre.length + p.size - 1 + (body.size + 1) =
          pre.length + p.size + body.size := by omega
      have hcond := clausesCode_lands (.block (body.size + 1)) (fun _ h => by cases h)
        (Nat.succ_pos body.size) p.last _ p.init pre hcode' hnext.le (hnext.symm ▸ hmid)
      intro i ins hge hlt hi
      rcases Nat.lt_or_ge i (pre.length + p.size) with h | h
      · exact hcond i ins hge h hi
      · exact hbody i ins h hlt hi
    have hsize : pre.length + (Prog.block p body rest).size =
        pre.length + p.size + body.size + rest.size := by
      rw [Prog.size]
      omega
    rw [hsize]
    exact ⟨hfirst.append hrest (by omega), hend⟩

/-- **What a program returns** is what one of its terminals returns. -/
theorem Prog.eval_stops {w : Walker A T S R} {ok : R → Prop} {q : Prog A T}
    (h : q.All fun t => ∀ s doubt r, w.apply s t doubt = .inr r → ok r) {doubt : Bool} {s : S}
    {r : R} (heval : q.eval w doubt s = .inr r) : ok r := by
  induction q generalizing doubt s with
  | nil => cases heval
  | rule p t rest ih =>
    rw [Prog.eval] at heval
    by_cases hmiss : p.value w.pred = .miss
    · rw [if_pos hmiss] at heval
      exact ih h.2 heval
    · rw [if_neg hmiss] at heval
      cases happly : w.apply s t (doubt || decide (p.value w.pred = .maybe)) with
      | inl s' =>
        rw [happly] at heval
        exact ih h.2 heval
      | inr r' =>
        rw [happly] at heval
        cases heval
        exact h.1 _ _ _ happly
  | block p body rest ihb ihr =>
    rw [Prog.eval] at heval
    by_cases hmiss : p.value w.pred = .miss
    · rw [if_pos hmiss] at heval
      exact ihr h.2 heval
    · rw [if_neg hmiss] at heval
      cases hbody : body.eval w (doubt || decide (p.value w.pred = .maybe)) s with
      | inl s' =>
        rw [hbody] at heval
        exact ihr h.2 heval
      | inr r' =>
        rw [hbody] at heval
        cases heval
        exact ihb h.1 hbody

end RuleMachine
