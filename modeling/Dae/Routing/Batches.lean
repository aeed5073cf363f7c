import Dae.Routing.Layout
import Dae.Routing.Inline
import Dae.Routing.Compiler

/-!
# What batches of rules emit

Every batch of the compiler appends a program of rules to the pool.  Some batches
then change tails they have just emitted: a conditional use makes its entry a jump,
a flow effect replaces the action, the bypass gets its flag.  All of these are edits
of terminals (`Emits.edit`).
-/

namespace Dae

open RuleMachine

/-! ### Edits of terminals -/

/-- The instruction with another terminal. -/
def MatchSet.retail (g : Terminal → Terminal) (m : MatchSet) : MatchSet :=
  tailSet m.atom (g m.terminal)

@[simp] theorem MatchSet.retail_id (m : MatchSet) : m.retail id = m := rfl

theorem loadRules_mapIdx (ifindexOf : String → BitVec 32)
    (patches : List RoutingInterfaceRulePatch) (edit : Nat → Terminal → Terminal)
    (rules : List MatchSet) :
    loadRules ifindexOf patches (rules.mapIdx fun i => MatchSet.retail (edit i)) =
      (loadRules ifindexOf patches rules).mapIdx fun i => MatchSet.retail (edit i) := by
  unfold loadRules
  induction patches generalizing rules with
  | nil => rfl
  | cons patch patches ih =>
    rw [List.foldl_cons, List.foldl_cons, ← ih]
    congr 1
    apply List.ext_getElem?
    intro k
    rw [List.getElem?_modify, List.getElem?_mapIdx, List.getElem?_mapIdx, List.getElem?_modify]
    by_cases hk : patch.matchIndex = k
    · simp only [if_pos hk]
      cases rules[k]? <;> rfl
    · simp only [if_neg hk]
      cases rules[k]? <;> rfl

section Specs

variable {env : CompileEnv} {lim : Limits} {text : GoText} {ifindexOf : String → BitVec 32}
  {b b' : RoutingMatcherBuilder} {condition : List Function}

/-- **Editing the terminals** of what a step has appended. -/
theorem Emits.edit {added : List MatchSet} (h : Emits lim ifindexOf b b' added)
    (edit : Nat → Terminal → Terminal) (hold : ∀ i < b.rules.length, edit i = id) :
    Emits lim ifindexOf b
      { b' with rules := b'.rules.mapIdx fun i => MatchSet.retail (edit i) }
      (added.mapIdx fun k => MatchSet.retail (edit (b.rules.length + k))) := by
  have hloaded : loadRules ifindexOf b'.interfaceRulePatches
      (b'.rules.mapIdx fun i => MatchSet.retail (edit i)) =
      b.loaded ifindexOf ++ added.mapIdx fun k => MatchSet.retail (edit (b.rules.length + k)) := by
    have hpool : loadRules ifindexOf b'.interfaceRulePatches b'.rules =
      b.loaded ifindexOf ++ added := h.loaded
    have hlen : (b.loaded ifindexOf).length = b.rules.length := b.loaded_length ifindexOf
    rw [loadRules_mapIdx, hpool, List.mapIdx_append, hlen]
    congr 1
    · apply List.ext_getElem?
      intro i
      rw [List.getElem?_mapIdx]
      by_cases hi : i < b.rules.length
      · rw [hold i hi]
        cases (b.loaded ifindexOf)[i]? <;> rfl
      · rw [List.getElem?_eq_none (by omega)]
        rfl
    · congr 1
      funext i
      rw [Nat.add_comm]
  refine ⟨⟨h.grows.outbounds, h.grows.tries, h.grows.statics, h.grows.clients, h.grows.domains,
    ⟨_, hloaded.symm⟩⟩, hloaded, ?_, ⟨h.same.profiles, h.same.fallbackSpans, h.same.kernelLpmLen,
    h.same.programEnd, h.same.defaultProfileID⟩⟩
  have hwf := h.wellFormed
  refine ⟨?_, hwf.domains, hwf.clients, hwf.statics, ?_, ?_⟩
  · intro patch hpatch
    simp only [List.length_mapIdx]
    exact hwf.patches patch hpatch
  · intro m hm
    have hm' : m ∈ b.loaded ifindexOf ++
        added.mapIdx fun k => MatchSet.retail (edit (b.rules.length + k)) := hloaded ▸ hm
    rcases List.mem_append.mp hm' with hm' | hm'
    · exact hwf.atoms m (h.loaded ▸ List.mem_append_left _ hm')
    · obtain ⟨k, hk, rfl⟩ := List.mem_mapIdx.mp hm'
      exact hwf.atoms added[k] (h.loaded ▸ List.mem_append_right _ (List.getElem_mem hk))
  · simp only [List.length_mapIdx]
    exact hwf.slots

/-- Editing the terminal of the instruction at one of the new indices. -/
theorem Emits.retail (pre post : List MatchSet) {a : Atom} {t : Terminal}
    (h : Emits lim ifindexOf b b' (pre ++ tailSet a t :: post)) (g : Terminal → Terminal) :
    Emits lim ifindexOf b
      { b' with rules := b'.rules.modify (b.rules.length + pre.length) (MatchSet.retail g) }
      (pre ++ tailSet a (g t) :: post) := by
  have hedit := h.edit (fun i => if i = b.rules.length + pre.length then g else id) ?_
  · have hrules : (b'.rules.mapIdx fun i =>
        MatchSet.retail (if i = b.rules.length + pre.length then g else id)) =
        b'.rules.modify (b.rules.length + pre.length) (MatchSet.retail g) := by
      rw [List.modify_eq_mapIdx]
      congr 1
      funext i m
      by_cases hi : i = b.rules.length + pre.length
      · rw [if_pos hi, if_pos hi]
      · rw [if_neg hi, if_neg hi, MatchSet.retail_id]
    have hadded : ((pre ++ tailSet a t :: post).mapIdx fun k => MatchSet.retail
        (if b.rules.length + k = b.rules.length + pre.length then g else id)) =
        pre ++ tailSet a (g t) :: post := by
      have hmodify : (pre ++ tailSet a t :: post).modify pre.length (MatchSet.retail g) =
          pre ++ tailSet a (g t) :: post :=
        List.modify_append_length _ _ _ _
      rw [← hmodify, List.modify_eq_mapIdx]
      congr 1
      funext k m
      by_cases hk : k = pre.length
      · rw [if_pos (by omega), if_pos hk]
      · rw [if_neg (by omega), if_neg hk, MatchSet.retail_id]
    rw [hrules, hadded] at hedit
    exact hedit
  · intro i hi
    exact if_neg (by omega)

/-- The pool grows by what is emitted. -/
theorem Emits.rules_length {added : List MatchSet} (h : Emits lim ifindexOf b b' added) :
    b'.rules.length = b.rules.length + added.length := by
  rw [← b'.loaded_length ifindexOf, h.loaded, List.length_append, b.loaded_length]

theorem Emits.chunk {added : List MatchSet} (h : Emits lim ifindexOf b b' added) :
    ChunkAt (b'.loaded ifindexOf) b.rules.length added := by
  rw [h.loaded, ← b.loaded_length ifindexOf]
  exact ChunkAt.last

theorem condSets_split (p : Cond Atom) (t : Terminal) :
    ∃ pre, (∀ t', condSets p t' = pre ++ [tailSet p.last.last t']) ∧ pre.length + 1 = p.size := by
  refine ⟨(p.init.flatMap fun c => clauseSets c (andTerminal c.not)) ++
    p.last.alternatives.map (orSet p.last.not), fun t' => ?_, ?_⟩
  · rw [condSets, clauseSets, List.append_assoc]
  · rw [← condSets_length p t, condSets, clauseSets, List.length_append, List.length_append,
      List.length_append, List.length_singleton, Nat.add_assoc]

/-- Editing the tail of a predicate that was just emitted. -/
theorem Emits.retail_last {p : Cond Atom} {t : Terminal}
    (h : Emits lim ifindexOf b b' (condSets p t)) (g : Terminal → Terminal) :
    Emits lim ifindexOf b
      { b' with rules := b'.rules.modify (b'.rules.length - 1) (MatchSet.retail g) }
      (condSets p (g t)) := by
  obtain ⟨pre, hsplit, hpre⟩ := condSets_split p t
  have hlen := h.rules_length
  rw [condSets_length] at hlen
  rw [hsplit] at h
  have hedit := h.retail pre [] g
  rw [show b.rules.length + pre.length = b'.rules.length - 1 by omega] at hedit
  rw [hsplit]
  exact hedit

/-! ### Growth -/

/-- A step that appends to the pool and leaves the profiles alone. -/
def Grows (lim : Limits) (ifindexOf : String → BitVec 32) (b b' : RoutingMatcherBuilder) : Prop :=
  ∃ added, Emits lim ifindexOf b b' added

theorem Grows.refl (h : WellFormed lim ifindexOf b) : Grows lim ifindexOf b b :=
  ⟨[], Emits.refl h⟩

theorem Grows.trans {b'' : RoutingMatcherBuilder} (h : Grows lim ifindexOf b b')
    (h' : Grows lim ifindexOf b' b'') : Grows lim ifindexOf b b'' := by
  obtain ⟨added, h⟩ := h
  obtain ⟨added', h'⟩ := h'
  exact ⟨_, h.trans h'⟩

theorem Grows.extends (h : Grows lim ifindexOf b b') : Extends ifindexOf b b' :=
  h.elim fun _ h => h.grows

theorem Grows.wellFormed (h : Grows lim ifindexOf b b') :
    WellFormed lim ifindexOf b' :=
  h.elim fun _ h => h.wellFormed

theorem Grows.same (h : Grows lim ifindexOf b b') : SameProfiles b b' :=
  h.elim fun _ h => h.same

/-- The number of fragments is not part of the pool. -/
theorem Grows.fragments (h : Grows lim ifindexOf b b') (n : Nat) :
    Grows lim ifindexOf b { b' with fragments := n } := by
  obtain ⟨added, ⟨ho, ht, hs, hc, hd, hp⟩, hloaded, hwf, hsame⟩ := h
  exact ⟨added, ⟨ho, ht, hs, hc, hd, hp⟩, hloaded,
    ⟨hwf.patches, hwf.domains, hwf.clients, hwf.statics, hwf.atoms, hwf.slots⟩,
    ⟨hsame.profiles, hsame.fallbackSpans, hsame.kernelLpmLen, hsame.programEnd,
      hsame.defaultProfileID⟩⟩

theorem Emits.grows_rules {rules : List (Cond Atom × Terminal)}
    (h : Emits lim ifindexOf b b' (ruleSets rules)) (hrules : ∀ r ∈ rules, RuleTail r)
    {phase : RoutingPhase} {isGlobal : Bool} :
    let span : RoutingSpan := { first := b.rules.length, last := b'.rules.length, phase, isGlobal }
    span.Ordered ∧ Lays (b'.loaded ifindexOf) span.indices (progOf rules) := by
  have hlen := h.rules_length
  have hlays := lays_progOf hrules h.chunk
  rw [show (ruleSets rules).length = b'.rules.length - b.rules.length by omega] at hlays
  refine ⟨?_, hlays⟩
  show b.rules.length ≤ b'.rules.length
  omega

/-! ### Routing rules -/

/-- The terminal of a rule with this target. -/
def TargetMeans (text : GoText) (outbounds : String → Option (BitVec 8)) (target : Function)
    (not : Bool) (t : Terminal) : Prop :=
  ∃ out, parseOutbound text target = .ok out ∧ out.Known outbounds ∧
    t = tailTerminal outbounds not out

/-- The conditions around a rule mean its guards, and its terminal is its target's. -/
structure RuleMeans (text : GoText) (ifindexOf : String → BitVec 32) (b : RoutingMatcherBuilder)
    (g : GuardedRule) (r : List (Cond Atom) × Terminal) : Prop where
  conds : List.Forall₂ (CondMeans text ifindexOf b) (g.guards ++ [g.rule.andFunctions]) r.1
  target : ∃ not, TargetMeans text b.outboundName2Id g.rule.outbound not r.2

theorem RuleMeans.of_extends {g : GuardedRule} {r : List (Cond Atom) × Terminal}
    (h : RuleMeans text ifindexOf b g r) (hwf : WellFormed env.lim ifindexOf b)
    (he : Extends ifindexOf b b') :
    RuleMeans text ifindexOf b' g r := by
  refine ⟨h.conds.imp fun _ _ hc => hc.of_extends hwf he, ?_⟩
  rw [he.outbounds]
  exact h.target

/-- What the tail of a routing rule can do. -/
def Terminal.Routes (t : Terminal) : Prop :=
  t.action = .route ∨ t.action = .or ∨ t.action = .and

theorem tailTerminal_spec (outbounds : String → Option (BitVec 8)) (not : Bool) (out : Outbound) :
    (tailTerminal outbounds not out).has matchFlagNot = not ∧
      (tailTerminal outbounds not out).Routes := by
  unfold tailTerminal
  by_cases hor : out.name = logicalOr
  · rw [if_pos hor]
    exact ⟨routingMatchFlags_not not false false, .inr (.inl rfl)⟩
  by_cases hand : out.name = logicalAnd
  · rw [if_neg hor, if_pos hand]
    exact ⟨routingMatchFlags_not not false false, .inr (.inr rfl)⟩
  rw [if_neg hor, if_neg hand]
  exact ⟨routingMatchFlags_not not out.must out.skipWhileNoalive, .inl rfl⟩

theorem Terminal.Routes.plain {t : Terminal} (h : t.Routes) : t.action ≠ .conditionalJump := by
  rcases h with h | h | h <;> rw [h] <;> decide

theorem RuleMeans.routes {g : GuardedRule} {r : List (Cond Atom) × Terminal}
    (h : RuleMeans text ifindexOf b g r) : r.2.Routes := by
  obtain ⟨not, out, -, -, ht⟩ := h.target
  rw [ht]
  exact (tailTerminal_spec _ _ _).2

/-- **A batch of routing rules.** -/
theorem applyRules_spec {rules : List RoutingRule} (hwf : WellFormed env.lim ifindexOf b)
    (h : applyRules env rules b = .ok b') :
    ∃ ps, (∀ r ∈ ps, RuleTail r) ∧
      List.Forall₂ (fun rule r => RuleMeans env.text ifindexOf b' ⟨[], rule⟩ ([r.1], r.2))
        rules ps ∧
      Emits env.lim ifindexOf b b' (ruleSets ps) := by
  induction rules generalizing b with
  | nil =>
    cases h
    exact ⟨[], fun r hr => absurd hr List.not_mem_nil, .nil, Emits.refl hwf⟩
  | cons rule rest ih =>
    obtain ⟨out, hout, h⟩ := Except.bind_eq_ok h
    obtain ⟨b₁, hb₁, h⟩ := Except.bind_eq_ok h
    obtain ⟨hknown, p, hmeans, hemits⟩ := applyPredicate_spec hwf hb₁
    obtain ⟨ps, htails, hps, hemits'⟩ := ih hemits.wellFormed h
    have hout₁ := hemits.grows.outbounds
    have hfirst : RuleMeans env.text ifindexOf b₁ ⟨[], rule⟩
        ([p], tailTerminal b.outboundName2Id p.last.not out) :=
      ⟨.cons hmeans .nil, p.last.not, out, hout, by rw [hout₁]; exact hknown, by rw [hout₁]⟩
    refine ⟨(p, tailTerminal b.outboundName2Id p.last.not out) :: ps, ?_,
      .cons (hfirst.of_extends hemits.wellFormed hemits'.grows) hps, hemits.trans hemits'⟩
    rintro r hr
    rcases List.mem_cons.mp hr with rfl | hr
    · exact ⟨(tailTerminal_spec _ _ _).1, (tailTerminal_spec _ _ _).2.plain⟩
    · exact htails r hr

/-- A routing block that spells these rules. -/
def RoutesLay (text : GoText) (ifindexOf : String → BitVec 32) (b : RoutingMatcherBuilder)
    (block : ResolvedRoutingBlock) (rs : List GuardedRule) : Prop :=
  PhasesIn (· = .route) block ∧ ∃ q, BlockLays ifindexOf b block q ∧
    List.Forall₂ (RuleMeans text ifindexOf b) rs (q.rules [])

theorem RoutesLay.of_extends {block : ResolvedRoutingBlock} {rs : List GuardedRule}
    (h : RoutesLay env.text ifindexOf b block rs) (hwf : WellFormed env.lim ifindexOf b)
    (he : Extends ifindexOf b b') : RoutesLay env.text ifindexOf b' block rs := by
  obtain ⟨hphases, q, hq, hrules⟩ := h
  exact ⟨hphases, q, hq.mono he, hrules.imp fun _ _ hr => hr.of_extends hwf he⟩

theorem RoutesLay.nil : RoutesLay text ifindexOf b [] [] :=
  ⟨PhasesIn.nil, .nil, blockLays_nil, .nil⟩

theorem RoutesLay.append {block other block' : ResolvedRoutingBlock} {rs rs' : List GuardedRule}
    (h : RoutesLay text ifindexOf b block rs) (h' : RoutesLay text ifindexOf b other rs')
    (happend : ResolvedRoutingBlock.appendBlock lim block other = .ok block') :
    RoutesLay text ifindexOf b block' (rs ++ rs') := by
  obtain ⟨hphases, q, hq, hrules⟩ := h
  obtain ⟨hphases', q', hq', hrules'⟩ := h'
  refine ⟨hphases.append (fun s hs _ => hphases' s hs) happend, q.append q',
    appendBlock_lays hq hq' happend, ?_⟩
  rw [Prog.rules_append]
  exact List.rel_append hrules hrules'

theorem compileRuleBatch_spec {rules : List RoutingRule} {span : RoutingSpan}
    (hwf : WellFormed env.lim ifindexOf b)
    (h : compileRuleBatch env rules b = .ok (span, b')) :
    Grows env.lim ifindexOf b b' ∧ span.phase = .route ∧ span.Ordered ∧ ∃ q,
      Lays (b'.loaded ifindexOf) span.indices q ∧
      List.Forall₂ (RuleMeans env.text ifindexOf b') (rules.map (GuardedRule.mk [])) (q.rules []) := by
  obtain ⟨b₁, hb₁, h⟩ := Except.bind_eq_ok h
  obtain ⟨-, h⟩ := Except.ite_error_eq_ok h
  cases h
  obtain ⟨ps, htails, hps, hemits⟩ := applyRules_spec hwf hb₁
  obtain ⟨hord, hlays⟩ := hemits.grows_rules htails
  refine ⟨⟨_, hemits⟩, rfl, hord, progOf ps, hlays, ?_⟩
  rw [progOf_rules, List.forall₂_map_left_iff, List.forall₂_map_right_iff]
  exact hps

/-! ### Conditional blocks -/

/-- The program behind a conditional entry; an empty body or condition adds none. -/
inductive Conditioned (text : GoText) (ifindexOf : String → BitVec 32)
    (b : RoutingMatcherBuilder) (condition : List Function) (q : Prog Atom Terminal) :
    Prog Atom Terminal → Prop
  | same (h : condition = [] ∨ q = .nil) : Conditioned text ifindexOf b condition q q
  | entry {p : Cond Atom} (hne : condition ≠ []) (h : CondMeans text ifindexOf b condition p) :
      Conditioned text ifindexOf b condition q (.block p q .nil)

theorem Conditioned.all {q q' : Prog Atom Terminal}
    (h : Conditioned text ifindexOf b condition q q') {ok : Terminal → Prop} (hq : q.All ok) :
    q'.All ok := by
  cases h with
  | same _ => exact hq
  | entry _ _ => exact ⟨hq, trivial⟩

/-- A conditional entry adds one guard. -/
theorem Conditioned.rules {q q' : Prog Atom Terminal}
    (h : Conditioned text ifindexOf b condition q q') {rs : List GuardedRule}
    (hrs : List.Forall₂ (RuleMeans text ifindexOf b) rs (q.rules [])) :
    List.Forall₂ (RuleMeans text ifindexOf b) (rs.map (GuardedRule.under condition))
      (q'.rules []) := by
  cases h with
  | same h =>
    rcases h with rfl | rfl
    · have hid : GuardedRule.under [] = id := funext fun g => if_pos rfl
      rw [hid, List.map_id]
      exact hrs
    · cases hrs
      exact .nil
  | @entry p hne hp =>
    have hrules : (Prog.block p q .nil).rules [] = (q.rules []).map fun r => (p :: r.1, r.2) := by
      rw [Prog.rules, Prog.rules, List.append_nil, List.nil_append]
      exact q.rules_outer [p] []
    rw [hrules, List.forall₂_map_left_iff, List.forall₂_map_right_iff]
    refine hrs.imp fun g r hr => ?_
    rw [GuardedRule.under, if_neg hne]
    exact ⟨.cons hp hr.conds, hr.target⟩

/-- What a condition means does not depend on the pool. -/
theorem CondMeans.with_rules {functions : List Function} {p : Cond Atom}
    (h : CondMeans text ifindexOf b functions p) (rules : List MatchSet) :
    CondMeans text ifindexOf { b with rules } functions p := by
  refine List.Forall₂.imp (fun f c hf => ⟨hf.1, fun w hw hfits => hf.2 w hw ?_⟩) h
  exact ⟨hfits.addressable, hfits.static, hfits.client, hfits.domain⟩

/-- The tail of an entry that jumps over a body of this length. -/
def entryTerminal (bodyLength : Nat) (t : Terminal) : Terminal :=
  { t with action := .conditionalJump, mark := BitVec.ofNat 32 bodyLength + 1 }

/-- **A conditional use** puts an entry in front of the block, in its phase. -/
theorem conditionalBlock_spec {body block : ResolvedRoutingBlock} {q : Prog Atom Terminal}
    {ok : RoutingPhase → Prop} (hwf : WellFormed env.lim ifindexOf b)
    (hq : BlockLays ifindexOf b body q) (hok : PhasesIn ok body)
    (h : conditionalBlock env body condition b = .ok (block, b')) :
    Grows env.lim ifindexOf b b' ∧ PhasesIn ok block ∧ ∃ q', BlockLays ifindexOf b' block q' ∧
      Conditioned env.text ifindexOf b' condition q q' := by
  unfold conditionalBlock at h
  by_cases hne : condition = []
  · rw [if_pos hne] at h
    cases h
    exact ⟨Grows.refl hwf, hok, q, hq, .same (.inl hne)⟩
  rw [if_neg hne] at h
  cases body with
  | nil =>
    obtain ⟨_, -, h⟩ := Except.bind_eq_ok h
    cases h
    exact ⟨Grows.refl hwf, hok, q, hq, .same (.inr hq.lays.eq_nil_of_size)⟩
  | cons entry spans =>
    obtain ⟨b₁, hb₁, h⟩ := Except.bind_eq_ok h
    obtain ⟨-, p, hp, hemits⟩ := applyPredicate_spec hwf hb₁
    -- The entry keeps its condition and becomes a jump over the body.
    have hentry : Emits env.lim ifindexOf b
        (b₁.setConditionalJump (b₁.rules.length - 1) (spanExecutionLen (entry :: spans))) _ :=
      hemits.retail_last (entryTerminal (spanExecutionLen (entry :: spans)))
    have hp' : CondMeans env.text ifindexOf
        (b₁.setConditionalJump (b₁.rules.length - 1) (spanExecutionLen (entry :: spans)))
        condition p := hp.with_rules _
    dsimp only at h
    generalize b₁.setConditionalJump (b₁.rules.length - 1)
      (spanExecutionLen (entry :: spans)) = b₂ at h hentry hp'
    obtain ⟨first, hfirst, h⟩ := Except.bind_eq_ok h
    obtain ⟨whole, hwhole, h⟩ := Except.bind_eq_ok h
    cases h
    have hlen := hentry.rules_length
    rw [condSets_length] at hlen
    have hord : RoutingSpan.Ordered
        { first := b.rules.length, last := b'.rules.length, phase := entry.phase } := by
      show b.rules.length ≤ b'.rules.length
      omega
    obtain ⟨hord₁, hexp₁⟩ := appendSpan_expand (fun _ hs => absurd hs List.not_mem_nil) hord hfirst
    obtain ⟨hord₂, hexp₂⟩ := appendBlock_expand hord₁ hq.ordered hwhole
    have hphase : PhasesIn ok first := PhasesIn.nil.span hfirst (hok entry List.mem_cons_self)
    refine ⟨⟨_, hentry⟩, hphase.append (fun s hs _ => hok s hs) hwhole, .block p q .nil,
      ⟨hord₂, ?_⟩, .entry hne hp'⟩
    have hjump : BitVec.ofNat 32 (spanExecutionLen (entry :: spans)) + 1 =
        BitVec.ofNat 32 (q.size + 1) := by
      rw [hq.size_eq, BitVec.ofNat_add]
      rfl
    have hlays := Lays.block hentry.chunk (tailTerminal_spec _ _ _).1 rfl hjump
      (hq.lays.mono hentry.grows.pool) .nil
    rw [hexp₂, hexp₁, expand_nil, List.nil_append]
    rw [List.append_nil] at hlays
    rw [RoutingSpan.indices, RoutingSpan.len, show b'.rules.length - b.rules.length = p.size by omega]
    exact hlays

/-! ### Flow programs -/

/-- The tail of a flow effect. -/
def effectTerminal (action : MatchAction) (flags : BitVec 8) (t : Terminal) : Terminal :=
  { t with action, flags := t.flags ||| flags <<< matchCaptureShift }

theorem effectTerminal_flags (outbounds : String → Option (BitVec 8)) (not : Bool)
    (action : MatchAction) (flags : BitVec 8) :
    let t := effectTerminal action flags (tailTerminal outbounds not directOutbound)
    t.has matchFlagNot = not ∧ t.captureFlags = flags &&& 7 ∧
      t.has matchFlagSkipNoalive = false := by
  have hall : ∀ (not : Bool) (flags : BitVec 8),
      ((routingMatchFlags not false false ||| flags <<< 3) &&& 1 != 0) = not ∧
        ((routingMatchFlags not false false ||| flags <<< 3) >>> 3) &&& 7 = flags &&& 7 ∧
        ((routingMatchFlags not false false ||| flags <<< 3) &&& 4 != 0) = false := by
    decide +kernel
  exact hall not flags

/-- A rule of a flow program: its tail has the action of one of the effects. -/
def FlowRuleTail (effects : List (List Function × MatchAction)) (flags : BitVec 8)
    (r : Cond Atom × Terminal) : Prop :=
  r.2.has matchFlagNot = r.1.last.not ∧
    (r.2.captureFlags = flags &&& 7 ∧ r.2.has matchFlagSkipNoalive = false) ∧
    ∃ effect ∈ effects, r.2.action = effect.2

/-- **A batch of flow effects.** -/
theorem applyFlowEffects_spec {flags : BitVec 8} {wrap : String → String}
    {effects : List (List Function × MatchAction)} (hwf : WellFormed env.lim ifindexOf b)
    (h : applyFlowEffects env flags wrap effects b = .ok b') :
    ∃ ps, (∀ r ∈ ps, FlowRuleTail effects flags r) ∧
      Emits env.lim ifindexOf b b' (ruleSets ps) := by
  induction effects generalizing b with
  | nil =>
    cases h
    exact ⟨[], fun r hr => absurd hr List.not_mem_nil, Emits.refl hwf⟩
  | cons effect rest ih =>
    obtain ⟨filter, action⟩ := effect
    obtain ⟨b₁, hb₁, h⟩ := Except.bind_eq_ok h
    obtain ⟨b₀, hb₀, hb₁⟩ := Except.bind_eq_ok (Except.mapError_eq_ok hb₁)
    obtain ⟨-, p, -, hemits⟩ := applyPredicate_spec hwf hb₀
    let t := effectTerminal action flags
      (tailTerminal b.outboundName2Id p.last.not directOutbound)
    have hedit : Emits env.lim ifindexOf b b₁ (condSets p t) := by
      cases hb₁
      exact hemits.retail_last (effectTerminal action flags)
    obtain ⟨ps, hps, hemits'⟩ := ih hedit.wellFormed h
    refine ⟨(p, t) :: ps, ?_, hedit.trans hemits'⟩
    intro r hr
    rcases List.mem_cons.mp hr with rfl | hr
    · obtain ⟨hnot, hflags⟩ := effectTerminal_flags b.outboundName2Id p.last.not action flags
      exact ⟨hnot, hflags, _, List.mem_cons_self, rfl⟩
    · obtain ⟨hnot, hflags, e, he, haction⟩ := hps r hr
      exact ⟨hnot, hflags, e, List.mem_cons_of_mem _ he, haction⟩

/-- A capture with these flags. -/
def Terminal.Captures (flags : BitVec 8) (t : Terminal) : Prop :=
  t.action = .capture ∧ t.captureFlags = flags &&& 7 ∧ t.has matchFlagSkipNoalive = false

/-- A capture that ends the walk at once. -/
def Terminal.CapturesExit (t : Terminal) : Prop :=
  t.action = .capture ∧ t.captureFlags &&& captureExit ≠ 0 ∧ t.has matchFlagSkipNoalive = false

/-- A flow control. -/
def Terminal.Controls (t : Terminal) : Prop :=
  (t.action = .must ∨ t.action = .bump) ∧ t.has matchFlagSkipNoalive = false

theorem capturesExit_of_captures {flags : BitVec 8} (hflags : flags &&& 7 &&& captureExit ≠ 0)
    {t : Terminal} (h : t.Captures flags) : t.CapturesExit :=
  ⟨h.1, by rw [h.2.1]; exact hflags, h.2.2⟩

/-- The effects of captures. -/
theorem FlowRuleTail.captures {effects : List (List Function × MatchAction)} {flags : BitVec 8}
    (heffects : ∀ effect ∈ effects, effect.2 = .capture) {r : Cond Atom × Terminal}
    (h : FlowRuleTail effects flags r) : RuleTail r ∧ r.2.Captures flags := by
  obtain ⟨hnot, hflags, effect, he, haction⟩ := h
  rw [heffects effect he] at haction
  exact ⟨⟨hnot, haction ▸ (by decide : MatchAction.capture ≠ .conditionalJump)⟩, haction, hflags⟩

/-- The condition of the entry of an HTTP capture. -/
def httpClientCond : Cond Atom := ⟨[], ⟨[], ⟨.httpClient, 0⟩, false⟩⟩

/-- One instruction pushed as it is. -/
theorem emits_push (hwf : WellFormed lim ifindexOf b) {m : MatchSet}
    (hok : AtomOK lim b.simulatedLpmTries.length m.atom) :
    Emits lim ifindexOf b { b with rules := b.rules ++ [m] } [m] := by
  refine emits_append hwf (Grown.refl hwf) [m] [] (List.cons_ne_nil _ _) ?_ ?_ ?_ ?_
  · rw [List.append_nil]
  · exact fun patch hpatch => absurd hpatch List.not_mem_nil
  · exact fun pre _ => rfl
  · exact fun m' hm' => List.mem_singleton.mp hm' ▸ hok

/-- **An HTTP capture** is one block for the admitted clients. -/
theorem compileHTTPCapture_spec {scopes : List Scope} {flags : BitVec 8} {phase : RoutingPhase}
    {span : RoutingSpan} (hwf : WellFormed env.lim ifindexOf b)
    (h : compileHTTPCapture env scopes flags phase b = .ok (span, b')) :
    Grows env.lim ifindexOf b b' ∧ (span.first ≠ span.last → span.phase = phase) ∧
      span.Ordered ∧ ∃ q,
      Lays (b'.loaded ifindexOf) span.indices q ∧ q.All (Terminal.Captures flags) := by
  unfold compileHTTPCapture at h
  cases hpred : mitmCapturePredicates env.text scopes with
  | nil =>
    simp only [hpred] at h
    cases h
    exact ⟨Grows.refl hwf, fun hne => absurd rfl hne, Nat.le_refl 0, .nil, .nil, trivial⟩
  | cons predicate predicates =>
    simp only [hpred] at h
    obtain ⟨b₁, hb₁, h⟩ := Except.bind_eq_ok h
    have hpush : Emits env.lim ifindexOf b
        { b with rules := b.rules ++ [{ type := .httpClient }] }
        (condSets httpClientCond { action := .route }) := emits_push hwf trivial
    obtain ⟨ps, hps, hemits⟩ := applyFlowEffects_spec hpush.wellFormed hb₁
    have hlen := (hpush.trans hemits).rules_length
    rw [List.length_append, condSets_length] at hlen
    -- The entry is the first new instruction.
    have hentry : Emits env.lim ifindexOf b
        (b₁.setConditionalJump b.rules.length (b₁.rules.length - b.rules.length - 1))
        (condSets httpClientCond (entryTerminal (ruleSets ps).length { action := .route }) ++
          ruleSets ps) := by
      have hretail := (hpush.trans hemits).retail [] (ruleSets ps)
        (entryTerminal (ruleSets ps).length)
      rw [show b₁.rules.length - b.rules.length - 1 = (ruleSets ps).length by
        have : httpClientCond.size = 1 := rfl
        omega]
      exact hretail
    generalize b₁.setConditionalJump b.rules.length (b₁.rules.length - b.rules.length - 1) = b₂
      at h hentry
    cases h
    obtain ⟨hchunk, hbody⟩ := hentry.chunk.split
    have htails := fun r hr => (hps r hr).captures (by
      intro effect he
      obtain ⟨filter, -, rfl⟩ := List.mem_map.mp he
      rfl)
    have hinner := lays_progOf (fun r hr => (htails r hr).1) hbody
    have hjump : BitVec.ofNat 32 (ruleSets ps).length + 1 =
        BitVec.ofNat 32 ((progOf ps).size + 1) := by
      rw [← hinner.length_eq, List.length_range', BitVec.ofNat_add]
      rfl
    have hnot : ((0 : BitVec 8) &&& matchFlagNot != 0) = false := by decide
    have hlays := Lays.block hchunk hnot rfl hjump hinner .nil
    have hlen' := hentry.rules_length
    rw [List.length_append, condSets_length] at hlen'
    refine ⟨⟨_, hentry⟩, fun _ => rfl, ?_, .block httpClientCond (progOf ps) .nil, ?_,
      progOf_all fun r hr => (htails r hr).2, trivial⟩
    · show b.rules.length ≤ b'.rules.length
      omega
    · rw [List.append_nil, condSets_length] at hlays
      rw [RoutingSpan.indices, RoutingSpan.len,
        show b'.rules.length - b.rules.length = httpClientCond.size + (ruleSets ps).length by omega,
        ← List.range'_append, Nat.one_mul]
      exact hlays

/-- A flow block: exit captures, and controls. -/
structure FlowLays (ifindexOf : String → BitVec 32) (b : RoutingMatcherBuilder)
    (block : ResolvedFlowBlock) : Prop where
  capture : ∃ q, BlockLays ifindexOf b block.capture q ∧ q.All Terminal.CapturesExit
  controls : ∃ q, BlockLays ifindexOf b block.controls q ∧ q.All Terminal.Controls
  capturePhases : PhasesIn (· = .ingress) block.capture
  controlPhases : PhasesIn (· = .flow) block.controls

theorem FlowLays.mono {block : ResolvedFlowBlock} (h : FlowLays ifindexOf b block)
    (he : Extends ifindexOf b b') : FlowLays ifindexOf b' block :=
  ⟨h.capture.imp fun _ hq => ⟨hq.1.mono he, hq.2⟩, h.controls.imp fun _ hq => ⟨hq.1.mono he, hq.2⟩,
    h.capturePhases, h.controlPhases⟩

theorem FlowLays.empty : FlowLays ifindexOf b {} :=
  ⟨⟨.nil, blockLays_nil, trivial⟩, ⟨.nil, blockLays_nil, trivial⟩, PhasesIn.nil, PhasesIn.nil⟩

theorem FlowLays.append {block other block' : ResolvedFlowBlock} (h : FlowLays ifindexOf b block)
    (h' : FlowLays ifindexOf b other)
    (happend : ResolvedFlowBlock.append lim block other = .ok block') :
    FlowLays ifindexOf b block' := by
  obtain ⟨capture, hcapture, happend⟩ := Except.bind_eq_ok happend
  obtain ⟨controls, hcontrols, happend⟩ := Except.bind_eq_ok happend
  cases happend
  obtain ⟨⟨q, hq, hok⟩, ⟨r, hr, hrok⟩, hp, hpc⟩ := h
  obtain ⟨⟨q', hq', hok'⟩, ⟨r', hr', hrok'⟩, hp', hpc'⟩ := h'
  exact ⟨⟨_, appendBlock_lays hq hq' hcapture, hok.append hok'⟩,
    ⟨_, appendBlock_lays hr hr' hcontrols, hrok.append hrok'⟩,
    hp.append (fun s hs _ => hp' s hs) hcapture, hpc.append (fun s hs _ => hpc' s hs) hcontrols⟩

theorem compileDestinations_spec {rules : List DestinationRewrite} {isGlobal : Bool}
    {block : ResolvedFlowBlock} (hwf : WellFormed env.lim ifindexOf b)
    (h : compileDestinations env rules isGlobal b = .ok (block, b')) :
    Grows env.lim ifindexOf b b' ∧ FlowLays ifindexOf b' block := by
  unfold compileDestinations at h
  by_cases hrules : rules = []
  · rw [if_pos hrules] at h
    cases h
    exact ⟨Grows.refl hwf, FlowLays.empty⟩
  rw [if_neg hrules] at h
  obtain ⟨b₁, hb₁, h⟩ := Except.bind_eq_ok h
  obtain ⟨capture, hcapture, h⟩ := Except.bind_eq_ok h
  cases h
  obtain ⟨ps, hps, hemits⟩ := applyFlowEffects_spec hwf hb₁
  have htails := fun r hr => (hps r hr).captures (by
    intro effect he
    obtain ⟨rule, -, rfl⟩ := List.mem_map.mp he
    rfl)
  obtain ⟨hord, hlays⟩ := hemits.grows_rules fun r hr => (htails r hr).1
  refine ⟨Grows.fragments ⟨_, hemits⟩ _, ⟨?_, ⟨.nil, blockLays_nil, trivial⟩,
    PhasesIn.nil.span hcapture rfl, PhasesIn.nil⟩⟩
  refine ⟨progOf ps, appendSpan_lays blockLays_nil hord hlays hcapture, progOf_all fun r hr => ?_⟩
  exact capturesExit_of_captures (by decide) (htails r hr).2

/-- **The controls** that `Rules.Plan` collects. -/
theorem planRules_controls {rules : List RoutingRule} {i : Nat} {plan plan' : RulePlan}
    (h : planRules text i rules plan = .ok plan')
    (hplan : ∀ rule ∈ plan.controls, rule.action = .must ∨ rule.action = .bump) :
    ∀ rule ∈ plan'.controls, rule.action = .must ∨ rule.action = .bump := by
  induction rules generalizing i plan with
  | nil =>
    cases h
    exact hplan
  | cons rule rest ih =>
    obtain ⟨mid, hmid, h⟩ := Except.bind_eq_ok h
    refine ih h ?_
    unfold planRule at hmid
    obtain ⟨-, hmid⟩ := Except.ite_error_eq_ok hmid
    obtain ⟨-, hmid⟩ := Except.ite_error_eq_ok hmid
    by_cases hcontrol : rule.outbound.name = "must" ∨ rule.outbound.name = "bump"
    · rw [if_pos hcontrol] at hmid
      obtain ⟨-, hmid⟩ := Except.ite_error_eq_ok hmid
      cases hmid
      intro r hr
      rcases List.mem_append.mp hr with hr | hr
      · exact hplan r hr
      · rw [List.mem_singleton.mp hr]
        by_cases hmust : rule.outbound.name = "must"
        · exact .inl (if_pos hmust)
        · exact .inr (if_neg hmust)
    · rw [if_neg hcontrol] at hmid
      have hsame : mid.controls = plan.controls := by
        by_cases hdnat : rule.outbound.name = "dnat"
        · rw [if_pos hdnat] at hmid
          split at hmid
          · obtain ⟨-, hmid⟩ := Except.ite_error_eq_ok hmid
            obtain ⟨target, -, hmid⟩ := Except.bind_eq_ok hmid
            cases hmid
            rfl
          · cases hmid
        · rw [if_neg hdnat] at hmid
          cases hmid
      rw [hsame]
      exact hplan

theorem compileFlowBatch_spec {rules : List RoutingRule} {block : ResolvedFlowBlock}
    (hwf : WellFormed env.lim ifindexOf b) (h : compileFlowBatch env rules b = .ok (block, b')) :
    Grows env.lim ifindexOf b b' ∧ FlowLays ifindexOf b' block := by
  obtain ⟨plan, hplan, h⟩ := Except.bind_eq_ok h
  obtain ⟨⟨first, b₁⟩, hfirst, h⟩ := Except.bind_eq_ok h
  obtain ⟨b₂, hb₂, h⟩ := Except.bind_eq_ok h
  obtain ⟨-, h⟩ := Except.ite_error_eq_ok h
  obtain ⟨controls, hcontrols, h⟩ := Except.bind_eq_ok h
  cases h
  obtain ⟨hgrows, hflow⟩ := compileDestinations_spec hwf hfirst
  obtain ⟨ps, hps, hemits⟩ := applyFlowEffects_spec hgrows.wellFormed hb₂
  have hactions := planRules_controls hplan fun rule hrule => absurd hrule List.not_mem_nil
  have hcontrol : ∀ r ∈ ps, r.2.Controls := by
    intro r hr
    obtain ⟨-, ⟨-, hskip⟩, effect, he, haction⟩ := hps r hr
    obtain ⟨rule, hrule, rfl⟩ := List.mem_map.mp he
    rw [Terminal.Controls, haction]
    exact ⟨hactions rule hrule, hskip⟩
  have htails : ∀ r ∈ ps, RuleTail r := by
    intro r hr
    refine ⟨(hps r hr).1, ?_⟩
    rcases (hcontrol r hr).1 with haction | haction <;> rw [haction] <;> decide
  obtain ⟨hord, hlays⟩ := hemits.grows_rules htails
  have hflow := hflow.mono hemits.grows
  obtain ⟨q, hq, hok⟩ := hflow.controls
  exact ⟨hgrows.trans ⟨_, hemits⟩, hflow.capture,
    ⟨_, appendSpan_lays hq hord hlays hcontrols, hok.append (progOf_all hcontrol)⟩,
    hflow.capturePhases, hflow.controlPhases.span hcontrols rfl⟩

theorem conditionalFlowBlock_spec {body block : ResolvedFlowBlock}
    (hwf : WellFormed env.lim ifindexOf b) (hbody : FlowLays ifindexOf b body)
    (h : conditionalFlowBlock env body condition b = .ok (block, b')) :
    Grows env.lim ifindexOf b b' ∧ FlowLays ifindexOf b' block := by
  obtain ⟨⟨capture, b₁⟩, hcapture, h⟩ := Except.bind_eq_ok h
  obtain ⟨⟨controls, b₂⟩, hcontrols, h⟩ := Except.bind_eq_ok h
  cases h
  obtain ⟨⟨q, hq, hok⟩, ⟨r, hr, hrok⟩, hp, hpc⟩ := hbody
  obtain ⟨hg₁, hp', q', hq', hcond⟩ := conditionalBlock_spec hwf hq hp hcapture
  obtain ⟨hg₂, hpc', r', hr', hcond'⟩ :=
    conditionalBlock_spec hg₁.wellFormed (hr.mono hg₁.extends) hpc hcontrols
  have hg₃ := (Grows.refl hg₂.wellFormed).fragments (b₂.fragments + body.destinations.length)
  exact ⟨(hg₁.trans hg₂).trans hg₃,
    ⟨q', hq'.mono (hg₂.extends.trans hg₃.extends), hcond.all hok⟩,
    ⟨r', hr'.mono hg₃.extends, hcond'.all hrok⟩, hp', hpc'⟩

end Specs

end Dae
