import Dae.Routing.Jumps
import Dae.Routing.Parse

/-!
# Programs spelled by spans

`Lays pool is q` says that reading the pool at the indices `is`, in this order,
spells the program `q`: one closed piece of the pool for each rule, and for each
conditional block an entry that jumps over the instructions of its body.  Spans are
just a compact way to write the indices, so appending spans appends programs, and
growth of the pool changes nothing.
-/

namespace Dae

open RuleMachine

/-- The pool, read at these indices, spells the program. -/
inductive Lays (pool : List MatchSet) : List Nat → Prog Atom Terminal → Prop
  | nil : Lays pool [] .nil
  | rule {i : Nat} {is : List Nat} {p : Cond Atom} {t : Terminal} {rest : Prog Atom Terminal}
      (chunk : ChunkAt pool i (condSets p t)) (hnot : t.has matchFlagNot = p.last.not)
      (plain : t.action ≠ .conditionalJump) (tail : Lays pool is rest) :
      Lays pool (List.range' i p.size ++ is) (.rule p t rest)
  | block {i : Nat} {inside is : List Nat} {p : Cond Atom} {t : Terminal}
      {body rest : Prog Atom Terminal} (chunk : ChunkAt pool i (condSets p t))
      (hnot : t.has matchFlagNot = p.last.not) (entry : t.action = .conditionalJump)
      (jump : t.mark = BitVec.ofNat 32 (body.size + 1)) (inner : Lays pool inside body)
      (tail : Lays pool is rest) :
      Lays pool (List.range' i p.size ++ inside ++ is) (.block p body rest)

theorem tailSet_mem_condSets {p : Cond Atom} {t : Terminal} :
    tailSet p.last.last t ∈ condSets p t :=
  List.mem_append_right _ (List.mem_append_right _ (List.mem_singleton.mpr rfl))

namespace Lays

variable {pool pool' : List MatchSet} {is is' : List Nat}
  {q q' : Prog Atom Terminal}

theorem append (h : Lays pool is q) (h' : Lays pool is' q') :
    Lays pool (is ++ is') (q.append q') := by
  induction h with
  | nil => exact h'
  | rule chunk hnot plain tail ih =>
    rw [List.append_assoc]
    exact .rule chunk hnot plain ih
  | block chunk hnot entry jump inner tail _ ih =>
    rw [List.append_assoc]
    exact .block chunk hnot entry jump inner ih

theorem mono (h : Lays pool is q) (hp : pool <+: pool') : Lays pool' is q := by
  induction h with
  | nil => exact .nil
  | rule chunk hnot plain tail ih => exact .rule (chunk.mono hp) hnot plain ih
  | block chunk hnot entry jump inner tail ihb ih =>
    exact .block (chunk.mono hp) hnot entry jump ihb ih

theorem length_eq (h : Lays pool is q) : is.length = q.size := by
  induction h with
  | nil => rfl
  | rule chunk hnot plain tail ih => rw [List.length_append, List.length_range', ih, Prog.size]
  | block chunk hnot entry jump inner tail ihb ih =>
    rw [List.length_append, List.length_append, List.length_range', ihb, ih, Prog.size]

theorem eq_nil_of_size (h : Lays pool [] q) : q = .nil := by
  have hsize : 0 = q.size := h.length_eq
  cases q with
  | nil => rfl
  | rule p t rest | block p body rest =>
    have := p.size_pos
    rw [Prog.size] at hsize
    omega

/-- Every instruction of a program is logical, an entry, or the tail of a rule. -/
theorem action (h : Lays pool is q) {ok : Terminal → Prop} (hok : q.All ok) :
    ∀ i ∈ is, ∃ m, pool[i]? = some m ∧
      (m.action = .or ∨ m.action = .and ∨ m.action = .conditionalJump ∨ ok m.terminal) := by
  have hchunk : ∀ {i : Nat} {p : Cond Atom} {t : Terminal}, ChunkAt pool i (condSets p t) →
      (t.action = .conditionalJump ∨ ok t) → ∀ k ∈ List.range' i p.size,
      ∃ m, pool[k]? = some m ∧
        (m.action = .or ∨ m.action = .and ∨ m.action = .conditionalJump ∨ ok m.terminal) := by
    intro i p t chunk ht k hk
    have hmap := chunk.map_range
    rw [condSets_length] at hmap
    have hmem : pool[k]? ∈ (condSets p t).map some := by
      rw [← hmap]
      exact List.mem_map.mpr ⟨k, hk, rfl⟩
    obtain ⟨m, hm, heq⟩ := List.mem_map.mp hmem
    refine ⟨m, heq.symm, ?_⟩
    rcases mem_condSets hm with hor | hand | rfl
    · exact .inl hor
    · exact .inr (.inl hand)
    · rcases ht with hjump | hok'
      · exact .inr (.inr (.inl hjump))
      · exact .inr (.inr (.inr hok'))
  induction h with
  | nil => exact fun i hi => absurd hi List.not_mem_nil
  | rule chunk hnot plain tail ih =>
    intro k hk
    rcases List.mem_append.mp hk with hk | hk
    · exact hchunk chunk (.inr hok.1) k hk
    · exact ih hok.2 k hk
  | block chunk hnot entry jump inner tail ihb ih =>
    intro k hk
    rcases List.mem_append.mp hk with hk | hk
    · rcases List.mem_append.mp hk with hk | hk
      · exact hchunk chunk (.inl entry) k hk
      · exact ihb hok.1 k hk
    · exact ih hok.2 k hk

theorem index_lt (h : Lays pool is q) : ∀ i ∈ is, i < pool.length := by
  intro i hi
  obtain ⟨m, hm, -⟩ := h.action (Prog.all_of_forall (fun _ => trivial) q) i hi
  exact (List.getElem?_eq_some_iff.mp hm).1

/-- **Filled in, the pool spells the laid out program.** -/
theorem code {lim : Limits} (h : Lays pool is q) (hencode : encodeRoutingJumps lim pool = .ok pool')
    (hclosed : q.All fun t => ¬t.action.isLogical) (hshort : q.size ≤ lim.maxMatchSetLen) :
    ∃ ms : List MatchSet, is.map (pool'[·]?) = ms.map some ∧ ms.map MatchSet.ins = q.code := by
  have hle := lim.le
  have hpiece : ∀ {i : Nat} {p : Cond Atom} {t : Terminal}, ChunkAt pool i (condSets p t) →
      Closed lim t → t.has matchFlagNot = p.last.not → p.size + t.missDistance < 2 ^ 32 →
      (List.range' i p.size).map (pool'[·]?) = (condEncoded p t).map some ∧
        (condEncoded p t).map MatchSet.ins = p.code t.op := by
    intro i p t chunk ht hnot hsize
    have hins := ins_condEncoded ht hnot hsize
    have hlen : (condEncoded p t).length = p.size := by
      have := congrArg List.length hins
      rwa [List.length_map, Cond.code_length] at this
    have hmap := (chunkAt_encode hencode ht chunk).map_range
    rw [hlen] at hmap
    exact ⟨hmap, hins⟩
  induction h with
  | nil => exact ⟨[], rfl, rfl⟩
  | @rule i is p t rest chunk hnot plain tail ih =>
    rw [Prog.size] at hshort
    have hmiss : t.missDistance = 1 := if_neg plain
    obtain ⟨hmap, hins⟩ := hpiece chunk ⟨hclosed.1, fun hj => absurd hj plain⟩ hnot (by omega)
    obtain ⟨ms, hms, hcode⟩ := ih hclosed.2 (by omega)
    have hop : t.op = .tail t := if_neg plain
    refine ⟨condEncoded p t ++ ms, ?_, ?_⟩
    · rw [List.map_append, hmap, hms, List.map_append]
    · rw [List.map_append, hins, hcode, hop, Prog.code]
  | @block i inside is p t body rest chunk hnot entry jump inner tail ihb ih =>
    rw [Prog.size] at hshort
    have hmark : t.mark.toNat = body.size + 1 := by
      rw [jump, BitVec.toNat_ofNat]
      omega
    have hmiss : t.missDistance = body.size + 1 := (if_pos entry).trans hmark
    have hlog : ¬t.action.isLogical := by
      rw [entry]
      decide
    have hrange := encodeRoutingJumps_jump hencode (chunk.subset tailSet_mem_condSets) entry
    obtain ⟨hmap, hins⟩ := hpiece chunk ⟨hlog, fun _ => hrange⟩ hnot (by omega)
    obtain ⟨ms, hms, hcode⟩ := ihb hclosed.1 (by omega)
    obtain ⟨ms', hms', hcode'⟩ := ih hclosed.2 (by omega)
    have hop : t.op = .block (body.size + 1) := by
      rw [← hmark]
      exact if_pos entry
    refine ⟨condEncoded p t ++ ms ++ ms', ?_, ?_⟩
    · rw [List.map_append, List.map_append, hmap, hms, hms', List.map_append, List.map_append]
    · rw [List.map_append, List.map_append, hins, hcode, hcode', hop, Prog.code]

end Lays

/-! ### Flat programs -/

/-- A program of rules only. -/
def progOf : List (Cond Atom × Terminal) → Prog Atom Terminal
  | [] => .nil
  | (p, t) :: rest => .rule p t (progOf rest)

/-- The instructions of a program of rules only. -/
def ruleSets (rules : List (Cond Atom × Terminal)) : List MatchSet :=
  rules.flatMap fun r => condSets r.1 r.2

/-- The tail of a rule carries its last clause's negation and ends the rule. -/
def RuleTail (r : Cond Atom × Terminal) : Prop :=
  r.2.has matchFlagNot = r.1.last.not ∧ r.2.action ≠ .conditionalJump

theorem lays_progOf {pool : List MatchSet} {rules : List (Cond Atom × Terminal)}
    (hrules : ∀ r ∈ rules, RuleTail r) {i : Nat} (hat : ChunkAt pool i (ruleSets rules)) :
    Lays pool (List.range' i (ruleSets rules).length) (progOf rules) := by
  induction rules generalizing i with
  | nil => exact .nil
  | cons r rest ih =>
    obtain ⟨p, t⟩ := r
    have hsets : ruleSets ((p, t) :: rest) = condSets p t ++ ruleSets rest := rfl
    rw [hsets] at hat ⊢
    obtain ⟨hfirst, hrest⟩ := hat.split
    obtain ⟨hnot, hplain⟩ := hrules (p, t) List.mem_cons_self
    rw [condSets_length] at hrest
    have hrange : List.range' i (condSets p t ++ ruleSets rest).length =
        List.range' i p.size ++ List.range' (i + p.size) (ruleSets rest).length := by
      rw [List.length_append, condSets_length, ← List.range'_append, Nat.one_mul]
    rw [hrange]
    exact .rule hfirst hnot hplain (ih (fun r hr => hrules r (List.mem_cons_of_mem _ hr)) hrest)

theorem progOf_all {ok : Terminal → Prop} {rules : List (Cond Atom × Terminal)}
    (h : ∀ r ∈ rules, ok r.2) : (progOf rules).All ok := by
  induction rules with
  | nil => trivial
  | cons r rest ih =>
    exact ⟨h r List.mem_cons_self, ih fun s hs => h s (List.mem_cons_of_mem _ hs)⟩

theorem progOf_rules (rules : List (Cond Atom × Terminal)) (outer : List (Cond Atom)) :
    (progOf rules).rules outer = rules.map fun r => (outer ++ [r.1], r.2) := by
  induction rules with
  | nil => rfl
  | cons r rest ih => rw [progOf, Prog.rules, ih, List.map_cons]

/-! ### Blocks -/

section Blocks

variable {lim : Limits} {ifindexOf : String → BitVec 32} {b b' : RoutingMatcherBuilder}

/-- A block spells a program. -/
structure BlockLays (ifindexOf : String → BitVec 32) (b : RoutingMatcherBuilder)
    (block : ResolvedRoutingBlock) (q : Prog Atom Terminal) : Prop where
  ordered : ∀ s ∈ block, s.Ordered
  lays : Lays (b.loaded ifindexOf) (expand block) q

variable {block block' other : ResolvedRoutingBlock} {q q' : Prog Atom Terminal}

theorem BlockLays.mono (h : BlockLays ifindexOf b block q) (he : Extends ifindexOf b b') :
    BlockLays ifindexOf b' block q :=
  ⟨h.ordered, h.lays.mono he.pool⟩

theorem BlockLays.size_eq (h : BlockLays ifindexOf b block q) :
    q.size = spanExecutionLen block := by
  rw [← h.lays.length_eq, expand_length]

theorem blockLays_nil : BlockLays ifindexOf b [] .nil :=
  ⟨fun _ hs => absurd hs List.not_mem_nil, .nil⟩

theorem appendSpan_cases {span : RoutingSpan}
    (happend : ResolvedRoutingBlock.appendSpan lim block span = .ok block') :
    span.len = 0 ∧ block' = block ∨ block' = appendSpan block span := by
  unfold ResolvedRoutingBlock.appendSpan at happend
  split at happend
  next hlen =>
    cases happend
    exact .inl ⟨hlen, rfl⟩
  next =>
    obtain ⟨-, happend⟩ := Except.ite_error_eq_ok happend
    cases happend
    exact .inr rfl

/-- What every span keeps is kept by all of them. -/
theorem appendBlock_induct {P : ResolvedRoutingBlock → Prop} (h : P block)
    (happend : ResolvedRoutingBlock.appendBlock lim block other = .ok block')
    (hstep : ∀ block, P block → ∀ s ∈ other, P (appendSpan block s)) : P block' := by
  obtain ⟨-, happend⟩ := Except.ite_error_eq_ok happend
  cases happend
  exact List.foldlRecOn other appendSpan h hstep

theorem appendSpan_expand {span : RoutingSpan} (hblock : ∀ s ∈ block, s.Ordered)
    (hspan : span.Ordered) (happend : ResolvedRoutingBlock.appendSpan lim block span = .ok block') :
    (∀ s ∈ block', s.Ordered) ∧ expand block' = expand block ++ span.indices := by
  rcases appendSpan_cases happend with ⟨hlen, rfl⟩ | rfl
  · have hnil : span.indices = [] := by
      rw [RoutingSpan.indices, hlen]
      rfl
    rw [hnil, List.append_nil]
    exact ⟨hblock, rfl⟩
  · exact ⟨ordered_appendSpan hblock hspan, expand_appendSpan hblock hspan⟩

theorem appendSpan_lays {span : RoutingSpan} (h : BlockLays ifindexOf b block q)
    (hspan : span.Ordered) (hlays : Lays (b.loaded ifindexOf) span.indices q')
    (happend : ResolvedRoutingBlock.appendSpan lim block span = .ok block') :
    BlockLays ifindexOf b block' (q.append q') := by
  obtain ⟨hord, hexp⟩ := appendSpan_expand h.ordered hspan happend
  refine ⟨hord, ?_⟩
  rw [hexp]
  exact h.lays.append hlays

/-- A block that a nonempty span was appended to can be executed. -/
theorem appendSpan_fits {span : RoutingSpan} (hlen : span.len ≠ 0)
    (h : BlockLays ifindexOf b block' q) (hblock : ∀ s ∈ block, s.Ordered) (hspan : span.Ordered)
    (happend : ResolvedRoutingBlock.appendSpan lim block span = .ok block') :
    q.size ≤ lim.maxMatchSetLen := by
  unfold ResolvedRoutingBlock.appendSpan at happend
  rw [if_neg hlen] at happend
  obtain ⟨hfit, happend⟩ := Except.ite_error_eq_ok happend
  cases happend
  rw [← h.lays.length_eq, expand_appendSpan hblock hspan, List.length_append, expand_length,
    RoutingSpan.indices_length]
  omega

theorem appendBlock_expand (hblock : ∀ s ∈ block, s.Ordered) (hother : ∀ s ∈ other, s.Ordered)
    (happend : ResolvedRoutingBlock.appendBlock lim block other = .ok block') :
    (∀ s ∈ block', s.Ordered) ∧ expand block' = expand block ++ expand other := by
  obtain ⟨-, happend⟩ := Except.ite_error_eq_ok happend
  cases happend
  clear happend
  induction other generalizing block with
  | nil => exact ⟨hblock, (List.append_nil _).symm⟩
  | cons span other ih =>
    have hspan := hother span List.mem_cons_self
    obtain ⟨hord, hexp⟩ := ih (ordered_appendSpan hblock hspan)
      (fun s hs => hother s (List.mem_cons_of_mem _ hs))
    refine ⟨hord, ?_⟩
    rw [List.foldl_cons, hexp, expand_appendSpan hblock hspan, expand_cons, List.append_assoc]

theorem appendBlock_lays (h : BlockLays ifindexOf b block q)
    (hother : BlockLays ifindexOf b other q')
    (happend : ResolvedRoutingBlock.appendBlock lim block other = .ok block') :
    BlockLays ifindexOf b block' (q.append q') := by
  obtain ⟨hord, hexp⟩ := appendBlock_expand h.ordered hother.ordered happend
  refine ⟨hord, ?_⟩
  rw [hexp]
  exact h.lays.append hother.lays

theorem BlockLays.span {span : RoutingSpan} (hspan : span.Ordered)
    (h : Lays (b.loaded ifindexOf) span.indices q) : BlockLays ifindexOf b [span] q := by
  refine ⟨fun s hs => List.mem_singleton.mp hs ▸ hspan, ?_⟩
  rw [expand_cons, expand_nil, List.append_nil]
  exact h

/-! ### Phases -/

/-- Every span of the block is in a phase that is `ok`. -/
def PhasesIn (ok : RoutingPhase → Prop) (block : ResolvedRoutingBlock) : Prop :=
  ∀ s ∈ block, ok s.phase

theorem PhasesIn.nil {ok : RoutingPhase → Prop} : PhasesIn ok [] :=
  fun _ hs => absurd hs List.not_mem_nil

/-- Empty spans are dropped, and spans are merged within one phase only. -/
theorem PhasesIn.append {ok : RoutingPhase → Prop} (h : PhasesIn ok block)
    (hother : ∀ s ∈ other, s.first ≠ s.last → ok s.phase)
    (happend : ResolvedRoutingBlock.appendBlock lim block other = .ok block') :
    PhasesIn ok block' :=
  appendBlock_induct h happend fun _ h s hs =>
    forall_appendSpan h (hother s hs) fun s hs _ _ => h s hs

theorem PhasesIn.span {ok : RoutingPhase → Prop} {span : RoutingSpan} (h : PhasesIn ok block)
    (happend : ResolvedRoutingBlock.appendSpan lim block span = .ok block') (hspan : ok span.phase) :
    PhasesIn ok block' := by
  rcases appendSpan_cases happend with ⟨-, rfl⟩ | rfl
  · exact h
  · exact forall_appendSpan h (fun _ => hspan) fun s hs _ _ => h s hs

/-- The block begins with these ingress spans, and none comes after them. -/
def Staged (first : ResolvedRoutingBlock) (block : ResolvedRoutingBlock) : Prop :=
  PhasesIn (· = .ingress) first ∧ ∃ rest, block = first ++ rest ∧ PhasesIn (· ≠ .ingress) rest

theorem staged_appendSpan {first rest : ResolvedRoutingBlock} {span : RoutingSpan}
    (hfirst : PhasesIn (· = .ingress) first) (hrest : PhasesIn (· ≠ .ingress) rest)
    (hspan : span.first ≠ span.last → span.phase ≠ .ingress) :
    ∃ rest', appendSpan (first ++ rest) span = first ++ rest' ∧ PhasesIn (· ≠ .ingress) rest' := by
  induction first with
  | nil => exact ⟨_, rfl, forall_appendSpan hrest hspan fun s hs _ _ => hrest s hs⟩
  | cons x first ih =>
    obtain ⟨rest', happend, hphases⟩ := ih fun s hs => hfirst s (List.mem_cons_of_mem _ hs)
    have hx : x.phase = .ingress := hfirst x List.mem_cons_self
    cases hmore : first ++ rest with
    | nil =>
      -- The last ingress span is not extended by one of another phase.
      obtain ⟨rfl, rfl⟩ := List.append_eq_nil_iff.mp hmore
      by_cases hempty : span.first = span.last
      · exact ⟨[], by rw [List.append_nil, appendSpan, if_pos hempty], PhasesIn.nil⟩
      · refine ⟨[span], ?_, fun s hs => ?_⟩
        · rw [List.append_nil, appendSpan, if_neg hempty, if_neg]
          · rfl
          · rintro ⟨-, hphase, -⟩
            exact hspan hempty (hphase.symm.trans hx)
        · rw [List.mem_singleton.mp hs]
          exact hspan hempty
    | cons y more =>
      refine ⟨rest', ?_, hphases⟩
      rw [List.cons_append, hmore, appendSpan, ← hmore, happend, List.cons_append]

theorem Staged.append {first : ResolvedRoutingBlock} (h : Staged first block)
    (hother : ∀ s ∈ other, s.first ≠ s.last → s.phase ≠ .ingress)
    (happend : ResolvedRoutingBlock.appendBlock lim block other = .ok block') :
    Staged first block' := by
  refine appendBlock_induct h happend fun block h s hs => ?_
  obtain ⟨hfirst, rest, rfl, hrest⟩ := h
  exact ⟨hfirst, staged_appendSpan hfirst hrest (hother s hs)⟩

theorem Staged.span {first : ResolvedRoutingBlock} {span : RoutingSpan} (h : Staged first block)
    (happend : ResolvedRoutingBlock.appendSpan lim block span = .ok block')
    (hspan : span.phase ≠ .ingress) : Staged first block' := by
  rcases appendSpan_cases happend with ⟨-, rfl⟩ | rfl
  · exact h
  · obtain ⟨hfirst, rest, rfl, hrest⟩ := h
    exact ⟨hfirst, staged_appendSpan hfirst hrest fun _ => hspan⟩

/-- Behind the ingress spans, no cursor is at one. -/
theorem Staged.phase_ne {first : ResolvedRoutingBlock} (h : Staged first block) {c : RoutingCursor}
    (hc : CursorAt block c) (hle : spanExecutionLen first ≤ c.position) {s : RoutingSpan}
    (hs : block[c.span]? = some s) : s.phase ≠ .ingress := by
  obtain ⟨-, rest, rfl, hrest⟩ := h
  rcases hc.split hs with ⟨hlt, -⟩ | ⟨-, hmem⟩
  · omega
  · exact hrest s hmem

end Blocks

end Dae
