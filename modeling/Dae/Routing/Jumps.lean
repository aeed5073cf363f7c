import Dae.Routing.Blocks
import Dae.Routing.Emit

/-!
# The jumps of compiled rules

`encodeRoutingJumps` fills in the distances from right to left over the whole pool.
A rule whose tail is not itself a logical instruction is a closed piece: its
distances depend on nothing after it, and they are those of the layout
`Cond.code`.  So shared fragments can be spliced anywhere, which is what the rest
of the development relies on.
-/

namespace Dae

open RuleMachine

/-! ### Scanning -/

theorem encodeJumpsFrom_append (lim : Limits) (i : Nat) (xs ys : List MatchSet) (scan : JumpScan) :
    encodeJumpsFrom lim i (xs ++ ys) scan =
      encodeJumpsFrom lim (i + xs.length) ys scan >>= encodeJumpsFrom lim i xs := by
  induction xs generalizing i with
  | nil =>
    rw [List.nil_append, List.length_nil, Nat.add_zero]
    cases encodeJumpsFrom lim i ys scan <;> rfl
  | cons x xs ih =>
    rw [List.cons_append, encodeJumpsFrom, ih (i + 1), List.length_cons,
      show i + 1 + xs.length = i + (xs.length + 1) by omega]
    cases encodeJumpsFrom lim (i + (xs.length + 1)) ys scan <;> rfl

variable {lim : Limits} {i : Nat} {scan scan' : JumpScan}

/-- One round puts one instruction in front, with its mark perhaps changed. -/
theorem encodeJump_rules {rule : MatchSet} (h : encodeJump lim i rule scan = .ok scan') :
    ∃ mark, scan'.rules = { rule with mark } :: scan.rules ∧
      (¬rule.action.isLogical → mark = rule.mark) := by
  unfold encodeJump at h
  cases ha : rule.action with
  | and | or =>
    simp only [ha] at h
    obtain ⟨-, h⟩ := Except.ite_error_eq_ok h
    cases h
    exact ⟨_, rfl, fun hlog => absurd rfl hlog⟩
  | conditionalJump =>
    simp only [ha] at h
    obtain ⟨-, h⟩ := Except.ite_error_eq_ok h
    cases h
    exact ⟨rule.mark, by rw [← ha], fun _ => rfl⟩
  | route | must | bump | capture | flowEnd | matchHit | miss =>
    simp only [ha] at h
    cases h
    exact ⟨rule.mark, by rw [← ha], fun _ => rfl⟩

/-- Encoding changes marks of logical instructions and nothing else. -/
def SameButMark (m m' : MatchSet) : Prop :=
  ∃ mark, m' = { m with mark } ∧ (¬m.action.isLogical → mark = m.mark)

variable {rules : List MatchSet}

theorem encodeJumpsFrom_rules (h : encodeJumpsFrom lim i rules scan = .ok scan') :
    ∃ out, scan'.rules = out ++ scan.rules ∧ List.Forall₂ SameButMark rules out := by
  induction rules generalizing i scan' with
  | nil =>
    cases h
    exact ⟨[], rfl, .nil⟩
  | cons rule rest ih =>
    obtain ⟨mid, hmid, h⟩ := Except.bind_eq_ok h
    obtain ⟨out, hout, hsame⟩ := ih hmid
    obtain ⟨mark, hrule, hmark⟩ := encodeJump_rules h
    refine ⟨{ rule with mark } :: out, ?_, .cons ⟨mark, rfl, hmark⟩ hsame⟩
    rw [hrule, hout, List.cons_append]

variable {rules' : List MatchSet}

theorem encodeRoutingJumps_same
    (h : encodeRoutingJumps lim rules = .ok rules') : List.Forall₂ SameButMark rules rules' := by
  obtain ⟨scan, hscan, rfl⟩ := Except.map_eq_ok h
  obtain ⟨out, hout, hsame⟩ := encodeJumpsFrom_rules hscan
  rw [hout, List.append_nil]
  exact hsame

/-! ### Closed rules -/

/-- The alternatives of a clause with their distances to its tail. -/
def orEncoded (not : Bool) : List Atom → MatchSet → List MatchSet
  | [], tail => [tail]
  | a :: as, tail =>
    { orSet not a with mark := BitVec.ofNat 32 (as.length + 1) } :: orEncoded not as tail

/-- How far a miss at the tail goes. -/
def Terminal.missDistance (t : Terminal) : Nat :=
  if t.action = .conditionalJump then t.mark.toNat else 1

/-- The instructions of a condition with all distances. -/
def clausesEncoded (t : Terminal) : List (Clause Atom) → Clause Atom → List MatchSet
  | [], last => orEncoded last.not last.alternatives (tailSet last.last t)
  | c :: cs, last =>
    orEncoded c.not c.alternatives
      { tailSet c.last (andTerminal c.not) with
        mark := BitVec.ofNat 32 (clausesSize cs last + t.missDistance) } ++
      clausesEncoded t cs last

def condEncoded (p : Cond Atom) (t : Terminal) : List MatchSet := clausesEncoded t p.init p.last

/-- A tail that ends its rule; an entry jump has to be in range. -/
def Closed (lim : Limits) (t : Terminal) : Prop :=
  ¬t.action.isLogical ∧
    (t.action = .conditionalJump → 1 < t.mark.toNat ∧ t.mark.toNat ≤ lim.maxMatchSetLen)

theorem encode_alternatives (lim : Limits) (not : Bool) (as : List Atom) (i : Nat)
    (tail : MatchSet) (rest : List MatchSet) (ruleEnd : Int) :
    encodeJumpsFrom lim i (as.map (orSet not)) ⟨tail :: rest, ruleEnd, ((i + as.length : Nat) : Int)⟩ =
      .ok ⟨orEncoded not as tail ++ rest, ruleEnd, ((i + as.length : Nat) : Int)⟩ := by
  induction as generalizing i with
  | nil => rfl
  | cons a as ih =>
    have hrest := ih (i + 1)
    rw [show i + 1 + as.length = i + (as.length + 1) by omega] at hrest
    rw [List.map_cons, encodeJumpsFrom, List.length_cons, hrest]
    have hgt : ¬((i + (as.length + 1) : Nat) : Int) ≤ (i : Int) := by omega
    have hdist : ((i + (as.length + 1) : Nat) : Int) - (i : Int) = ((as.length + 1 : Nat) : Int) := by
      omega
    show (if ((i + (as.length + 1) : Nat) : Int) ≤ (i : Int) then _ else _) = _
    rw [if_neg hgt, hdist, BitVec.ofInt_natCast]
    rfl

variable {t : Terminal}

/-- A clause whose tail is given, once the tail itself is encoded. -/
theorem encode_clause {c : Clause Atom} {tail : MatchSet} {ruleEnd : Int}
    (htail : encodeJump lim (i + c.alternatives.length) (tailSet c.last t) scan =
      .ok ⟨tail :: scan.rules, ruleEnd, ((i + c.alternatives.length : Nat) : Int)⟩) :
    encodeJumpsFrom lim i (clauseSets c t) scan =
      .ok ⟨orEncoded c.not c.alternatives tail ++ scan.rules, ruleEnd,
        ((i + c.alternatives.length : Nat) : Int)⟩ := by
  unfold clauseSets
  rw [encodeJumpsFrom_append, List.length_map]
  have hsingle : encodeJumpsFrom lim (i + c.alternatives.length) [tailSet c.last t] scan =
      encodeJump lim (i + c.alternatives.length) (tailSet c.last t) scan := rfl
  rw [hsingle, htail]
  exact encode_alternatives lim c.not c.alternatives i tail scan.rules ruleEnd

theorem encode_tail (ht : Closed lim t) (a : Atom) (i : Nat)
    (scan : JumpScan) :
    encodeJump lim i (tailSet a t) scan =
      .ok ⟨tailSet a t :: scan.rules, ((i + t.missDistance : Nat) : Int), (i : Int)⟩ := by
  obtain ⟨hlog, hjump⟩ := ht
  unfold encodeJump Terminal.missDistance
  have haction : (tailSet a t).action = t.action := rfl
  cases ha : t.action with
  | and | or =>
    rw [ha] at hlog
    exact absurd rfl hlog
  | conditionalJump =>
    obtain ⟨hlow, hhigh⟩ := hjump ha
    have hbounds : ¬((tailSet a t).mark.toNat ≤ 1 ∨
        lim.maxMatchSetLen < (tailSet a t).mark.toNat) := by
      show ¬(t.mark.toNat ≤ 1 ∨ lim.maxMatchSetLen < t.mark.toNat)
      omega
    simp only [haction, ha]
    rw [if_neg hbounds]
    rfl
  | route | must | bump | capture | flowEnd | matchHit | miss =>
    simp only [haction, ha]
    rfl

/-- **A closed rule** is encoded the same wherever it stands. -/
theorem encode_clauses (ht : Closed lim t)
    (cs : List (Clause Atom)) (last : Clause Atom) (i : Nat) (scan : JumpScan) :
    ∃ clauseTail, encodeJumpsFrom lim i (condSets ⟨cs, last⟩ t) scan =
      .ok ⟨clausesEncoded t cs last ++ scan.rules,
        ((i + clausesSize cs last - 1 + t.missDistance : Nat) : Int), clauseTail⟩ := by
  induction cs generalizing i with
  | nil =>
    have htail := encode_tail ht last.last (i + last.alternatives.length) scan
    have hsize : i + clausesSize [] last - 1 = i + last.alternatives.length := by
      simp only [clausesSize, Clause.size]
      omega
    rw [hsize]
    exact ⟨_, encode_clause htail⟩
  | cons c cs ih =>
    obtain ⟨ct, hrest⟩ := ih (i + c.size)
    have hpos := clausesSize_pos cs last
    have hsets : condSets ⟨c :: cs, last⟩ t =
        clauseSets c (andTerminal c.not) ++ condSets ⟨cs, last⟩ t := by
      simp [condSets]
    -- The AND jumps to the end of the rule, which the rest has fixed.
    have hand : encodeJump lim (i + c.alternatives.length) (tailSet c.last (andTerminal c.not))
        ⟨clausesEncoded t cs last ++ scan.rules,
          ((i + c.size + clausesSize cs last - 1 + t.missDistance : Nat) : Int), ct⟩ =
        .ok ⟨{ tailSet c.last (andTerminal c.not) with
              mark := BitVec.ofNat 32 (clausesSize cs last + t.missDistance) } ::
              (clausesEncoded t cs last ++ scan.rules),
          ((i + c.size + clausesSize cs last - 1 + t.missDistance : Nat) : Int),
          ((i + c.alternatives.length : Nat) : Int)⟩ := by
      have hgt : ¬((i + c.size + clausesSize cs last - 1 + t.missDistance : Nat) : Int) ≤
          ((i + c.alternatives.length : Nat) : Int) := by
        simp only [Clause.size]
        omega
      have hdist : ((i + c.size + clausesSize cs last - 1 + t.missDistance : Nat) : Int) -
          ((i + c.alternatives.length : Nat) : Int) =
          ((clausesSize cs last + t.missDistance : Nat) : Int) := by
        simp only [Clause.size]
        omega
      show (if ((i + c.size + clausesSize cs last - 1 + t.missDistance : Nat) : Int) ≤
          ((i + c.alternatives.length : Nat) : Int) then _ else _) = _
      rw [if_neg hgt, hdist, BitVec.ofInt_natCast]
    have hsize : i + clausesSize (c :: cs) last - 1 = i + c.size + clausesSize cs last - 1 := by
      rw [clausesSize]
      omega
    rw [hsets, encodeJumpsFrom_append, clauseSets_length, hrest, hsize, clausesEncoded,
      List.append_assoc]
    exact ⟨_, encode_clause hand⟩

/-! ### The encoded instructions -/

theorem routingMatchFlags_not (not must skip : Bool) :
    (routingMatchFlags not must skip &&& matchFlagNot != 0) = not := by
  cases not <;> cases must <;> cases skip <;> rfl

theorem ins_orEncoded {not : Bool} {as : List Atom} {tail : MatchSet} {last : Atom}
    {op : Op Terminal} (htail : tail.ins = ⟨last, not, op⟩) (hlen : as.length < 2 ^ 32) :
    (orEncoded not as tail).map MatchSet.ins = orCode not as last op := by
  induction as with
  | nil => simp only [orEncoded, orCode, List.map_cons, List.map_nil, htail]
  | cons a as ih =>
    rw [List.length_cons] at hlen
    have hmark : (BitVec.ofNat 32 (as.length + 1)).toNat = as.length + 1 := by
      rw [BitVec.toNat_ofNat, Nat.mod_eq_of_lt hlen]
    have hins : ({ orSet not a with mark := BitVec.ofNat 32 (as.length + 1) } : MatchSet).ins =
        ⟨a, not, .or (as.length + 1)⟩ := by
      unfold MatchSet.ins
      rw [op_or rfl, hmark]
      congr 1
      exact routingMatchFlags_not not false false
    rw [orEncoded, orCode, List.map_cons, hins, ih (by omega)]

/-- How the machine uses a closed tail. -/
def Terminal.op (t : Terminal) : Op Terminal :=
  if t.action = .conditionalJump then .block t.mark.toNat else .tail t

theorem Terminal.missDistance_op (t : Terminal) : t.op.missDistance = t.missDistance := by
  unfold Terminal.op Terminal.missDistance
  by_cases hj : t.action = .conditionalJump
  · rw [if_pos hj, if_pos hj]
    rfl
  · rw [if_neg hj, if_neg hj]
    rfl

theorem op_tailSet (ht : Closed lim t) (a : Atom) :
    (tailSet a t).op = t.op := by
  obtain ⟨hlog, -⟩ := ht
  unfold Terminal.op
  by_cases hj : t.action = .conditionalJump
  · rw [if_pos hj]
    exact op_conditionalJump hj
  · rw [if_neg hj]
    refine op_tail ?_ ?_ hj
    · intro hor
      have hor' : t.action = .or := hor
      rw [hor'] at hlog
      exact hlog rfl
    · intro hand
      have hand' : t.action = .and := hand
      rw [hand'] at hlog
      exact hlog rfl

/-- **The encoded rule is the laid out one.** -/
theorem ins_clausesEncoded (ht : Closed lim t)
    {cs : List (Clause Atom)} {last : Clause Atom} (hnot : t.has matchFlagNot = last.not)
    (hsize : clausesSize cs last + t.missDistance < 2 ^ 32) :
    (clausesEncoded t cs last).map MatchSet.ins = clausesCode t.op cs last := by
  induction cs with
  | nil =>
    have htail : (tailSet last.last t).ins = ⟨last.last, last.not, t.op⟩ := by
      unfold MatchSet.ins
      rw [op_tailSet ht, tailSet_atom]
      congr 1
    simp only [clausesSize, Clause.size] at hsize
    exact ins_orEncoded htail (by omega)
  | cons c cs ih =>
    simp only [clausesSize, Clause.size] at hsize
    have hmark : (BitVec.ofNat 32 (clausesSize cs last + t.missDistance)).toNat =
        clausesSize cs last + t.missDistance := by
      rw [BitVec.toNat_ofNat, Nat.mod_eq_of_lt (by omega)]
    have htail : ({ tailSet c.last (andTerminal c.not) with
        mark := BitVec.ofNat 32 (clausesSize cs last + t.missDistance) } : MatchSet).ins =
        ⟨c.last, c.not, .and (clausesSize cs last + t.missDistance)⟩ := by
      unfold MatchSet.ins
      rw [op_and rfl, hmark]
      congr 1
      exact routingMatchFlags_not c.not false false
    rw [clausesEncoded, clausesCode, List.map_append, ih (by omega),
      ins_orEncoded htail (by omega), Terminal.missDistance_op]
    rfl

theorem ins_condEncoded (ht : Closed lim t) {p : Cond Atom}
    (hnot : t.has matchFlagNot = p.last.not) (hsize : p.size + t.missDistance < 2 ^ 32) :
    (condEncoded p t).map MatchSet.ins = p.code t.op :=
  ins_clausesEncoded ht hnot hsize

/-- An entry jump that is encoded is in range. -/
theorem encodeJumpsFrom_jump (h : encodeJumpsFrom lim i rules scan = .ok scan') :
    ∀ m ∈ rules, m.action = .conditionalJump →
      1 < m.mark.toNat ∧ m.mark.toNat ≤ lim.maxMatchSetLen := by
  induction rules generalizing i scan' with
  | nil => exact fun m hm => absurd hm List.not_mem_nil
  | cons rule rest ih =>
    obtain ⟨mid, hmid, h⟩ := Except.bind_eq_ok h
    intro m hm hjump
    rcases List.mem_cons.mp hm with rfl | hm
    · unfold encodeJump at h
      simp only [hjump] at h
      obtain ⟨hrange, -⟩ := Except.ite_error_eq_ok h
      omega
    · exact ih hmid m hm hjump

theorem encodeRoutingJumps_jump
    (h : encodeRoutingJumps lim rules = .ok rules') {m : MatchSet} (hm : m ∈ rules)
    (hjump : m.action = .conditionalJump) :
    1 < m.mark.toNat ∧ m.mark.toNat ≤ lim.maxMatchSetLen := by
  obtain ⟨scan, hscan, -⟩ := Except.map_eq_ok h
  exact encodeJumpsFrom_jump hscan m hm hjump

/-! ### Rules in a pool -/

/-- The instructions stand in the pool from index `i` on. -/
def ChunkAt (pool : List MatchSet) (i : Nat) (chunk : List MatchSet) : Prop :=
  ∃ pre post, pool = pre ++ chunk ++ post ∧ pre.length = i

variable {pool chunk : List MatchSet}

theorem ChunkAt.mono {pool' : List MatchSet}
    (h : ChunkAt pool i chunk) (hp : pool <+: pool') : ChunkAt pool' i chunk := by
  obtain ⟨pre, post, rfl, hi⟩ := h
  obtain ⟨more, rfl⟩ := hp
  exact ⟨pre, post ++ more, by rw [List.append_assoc], hi⟩

theorem ChunkAt.last :
    ChunkAt (pool ++ chunk) pool.length chunk :=
  ⟨pool, [], by rw [List.append_nil], rfl⟩

theorem ChunkAt.split {chunk' : List MatchSet} (h : ChunkAt pool i (chunk ++ chunk')) :
    ChunkAt pool i chunk ∧ ChunkAt pool (i + chunk.length) chunk' := by
  obtain ⟨pre, post, rfl, rfl⟩ := h
  refine ⟨⟨pre, chunk' ++ post, by simp only [List.append_assoc], rfl⟩,
    ⟨pre ++ chunk, post, by simp only [List.append_assoc], List.length_append⟩⟩

theorem ChunkAt.subset (h : ChunkAt pool i chunk) {m : MatchSet} (hm : m ∈ chunk) : m ∈ pool := by
  obtain ⟨pre, post, rfl, -⟩ := h
  exact List.mem_append_left _ (List.mem_append_right _ hm)

/-- Reading the chunk back by index. -/
theorem ChunkAt.map_range (h : ChunkAt pool i chunk) :
    (List.range' i chunk.length).map (pool[·]?) = chunk.map some := by
  obtain ⟨pre, post, rfl, rfl⟩ := h
  apply List.ext_getElem?
  intro k
  rw [List.getElem?_map, List.getElem?_map]
  by_cases hk : k < chunk.length
  · rw [List.getElem?_range' hk, Option.map_some, Nat.one_mul, List.append_assoc,
      List.getElem?_append_right (Nat.le_add_right _ _), Nat.add_sub_cancel_left,
      List.getElem?_append_left hk, List.getElem?_eq_getElem hk, Option.map_some]
  · rw [List.getElem?_eq_none (by rw [List.length_range']; omega),
      List.getElem?_eq_none (by omega)]
    rfl

/-- **A closed rule is encoded in place**, whatever surrounds it. -/
theorem chunkAt_encode {pool' : List MatchSet}
    (h : encodeRoutingJumps lim pool = .ok pool') {p : Cond Atom}
    (ht : Closed lim t) (hat : ChunkAt pool i (condSets p t)) :
    ChunkAt pool' i (condEncoded p t) := by
  obtain ⟨scan, hscan, rfl⟩ := Except.map_eq_ok h
  obtain ⟨pre, post, rfl, rfl⟩ := hat
  rw [List.append_assoc, encodeJumpsFrom_append] at hscan
  obtain ⟨mid, hmid, hpre⟩ := Except.bind_eq_ok hscan
  rw [encodeJumpsFrom_append] at hmid
  obtain ⟨right, hright, hmid⟩ := Except.bind_eq_ok hmid
  obtain ⟨ct, hrule⟩ := encode_clauses ht p.init p.last (0 + pre.length) right
  have hmid' : mid.rules = condEncoded p t ++ right.rules := by
    rw [hrule] at hmid
    cases hmid
    rfl
  obtain ⟨out, hout, hsame⟩ := encodeJumpsFrom_rules hpre
  refine ⟨out, right.rules, ?_, hsame.length_eq.symm⟩
  rw [hout, hmid', List.append_assoc]

/-! ### Loading and encoding -/

/-- A scan with one instruction patched. -/
def JumpScan.patch (k : Nat) (ifindex : BitVec 32) (scan : JumpScan) : JumpScan :=
  { scan with rules := scan.rules.modify k (MatchSet.setIfindex ifindex) }

/-- The scan does not look at values. -/
theorem encodeJump_setIfindex (lim : Limits) (i : Nat) (rule : MatchSet) (ifindex : BitVec 32)
    (scan : JumpScan) :
    encodeJump lim i (rule.setIfindex ifindex) scan =
      (encodeJump lim i rule scan).map (JumpScan.patch 0 ifindex) := by
  have haction : (rule.setIfindex ifindex).action = rule.action := rfl
  have hmark : (rule.setIfindex ifindex).mark = rule.mark := rfl
  unfold encodeJump
  rw [haction, hmark]
  cases rule.action <;> simp only [] <;> first | rfl | (split <;> rfl)

theorem encodeJump_patch (lim : Limits) (i k : Nat) (rule : MatchSet) (ifindex : BitVec 32)
    (scan : JumpScan) :
    encodeJump lim i rule (scan.patch k ifindex) =
      (encodeJump lim i rule scan).map (JumpScan.patch (k + 1) ifindex) := by
  have hend : (scan.patch k ifindex).ruleEnd = scan.ruleEnd := rfl
  have htail : (scan.patch k ifindex).clauseTail = scan.clauseTail := rfl
  unfold encodeJump
  rw [hend, htail]
  cases rule.action <;> simp only [] <;> first | rfl | (split <;> rfl)

theorem encodeJumpsFrom_patch (lim : Limits) (ifindex : BitVec 32) (scan : JumpScan)
    {k : Nat} (hk : k < rules.length) (i : Nat) :
    encodeJumpsFrom lim i (rules.modify k (MatchSet.setIfindex ifindex)) scan =
      (encodeJumpsFrom lim i rules scan).map (JumpScan.patch k ifindex) := by
  induction rules generalizing i k with
  | nil => exact absurd hk (Nat.not_lt_zero k)
  | cons rule rest ih =>
    cases k with
    | zero =>
      rw [List.modify_zero_cons, encodeJumpsFrom, encodeJumpsFrom]
      cases encodeJumpsFrom lim (i + 1) rest scan with
      | error err => rfl
      | ok mid => exact encodeJump_setIfindex lim i rule ifindex mid
    | succ k =>
      rw [List.modify_succ_cons, encodeJumpsFrom, encodeJumpsFrom,
        ih (Nat.lt_of_succ_lt_succ hk)]
      cases encodeJumpsFrom lim (i + 1) rest scan with
      | error err => rfl
      | ok mid => exact encodeJump_patch lim i k rule ifindex mid

/-- **Filling in jumps commutes with loading.** -/
theorem encodeRoutingJumps_loaded (ifindexOf : String → BitVec 32)
    {patches : List RoutingInterfaceRulePatch}
    (hpatches : ∀ patch ∈ patches, patch.matchIndex < rules.length)
    (h : encodeRoutingJumps lim rules = .ok rules') :
    encodeRoutingJumps lim (loadRules ifindexOf patches rules) =
      .ok (loadRules ifindexOf patches rules') := by
  unfold loadRules
  induction patches generalizing rules rules' with
  | nil => exact h
  | cons patch patches ih =>
    have hk := hpatches patch List.mem_cons_self
    rw [List.foldl_cons, List.foldl_cons]
    refine ih ?_ ?_
    · intro p hp
      rw [List.length_modify]
      exact hpatches p (List.mem_cons_of_mem _ hp)
    · obtain ⟨scan, hscan, rfl⟩ := Except.map_eq_ok h
      unfold encodeRoutingJumps
      rw [encodeJumpsFrom_patch lim _ _ hk, hscan]
      rfl

end Dae
