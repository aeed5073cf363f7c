import Dae.Routing.Resolve

/-!
# Compiled profiles

Every profile is spliced from the same eleven pieces, in a fixed order: bypass
routes, captures that leave for the control plane at once, flow controls, HTTP
captures, the flow end, and the routes with the fallback last (`Segments`).
-/

namespace Dae

open RuleMachine

section Profiles

variable {env : CompileEnv} {ifindexOf : String → BitVec 32} {b b' : RoutingMatcherBuilder}

/-! ### Spans and programs -/

/-- A span spells a program. -/
structure SpanLays (ifindexOf : String → BitVec 32) (b : RoutingMatcherBuilder)
    (span : RoutingSpan) (q : Prog Atom Terminal) : Prop where
  ordered : span.Ordered
  lays : Lays (b.loaded ifindexOf) span.indices q

variable {span : RoutingSpan} {q : Prog Atom Terminal}

theorem SpanLays.mono
    (h : SpanLays ifindexOf b span q) (he : Extends ifindexOf b b') : SpanLays ifindexOf b' span q :=
  ⟨h.ordered, h.lays.mono he.pool⟩

theorem SpanLays.block (h : SpanLays ifindexOf b span q) : BlockLays ifindexOf b [span] q :=
  BlockLays.span h.ordered h.lays

theorem SpanLays.empty : SpanLays ifindexOf b emptySpan .nil := ⟨Nat.le_refl 0, .nil⟩

variable {wrap : String → String} {blocks : List ResolvedRoutingBlock}
    {block block' : ResolvedRoutingBlock}

/-- Blocks appended in turn. -/
theorem appendBlocks_lays {qs : List (Prog Atom Terminal)}
    (hblocks : List.Forall₂ (BlockLays ifindexOf b) blocks qs)
    (hblock : BlockLays ifindexOf b block q)
    (h : appendBlocks env wrap blocks block = .ok block') :
    BlockLays ifindexOf b block' (qs.foldl Prog.append q) := by
  induction hblocks generalizing block q with
  | nil =>
    cases h
    exact hblock
  | cons hnext _ ih =>
    obtain ⟨joined, hjoined, h⟩ := Except.bind_eq_ok h
    exact ih (appendBlock_lays hblock hnext (Except.mapError_eq_ok hjoined)) h

/-- Blocks appended in two goes. -/
theorem appendBlocks_append (blocks more : List ResolvedRoutingBlock)
    (h : appendBlocks env wrap (blocks ++ more) block = .ok block') :
    ∃ mid, appendBlocks env wrap blocks block = .ok mid ∧
      appendBlocks env wrap more mid = .ok block' := by
  induction blocks generalizing block with
  | nil => exact ⟨block, rfl, h⟩
  | cons next rest ih =>
    obtain ⟨joined, hjoined, h⟩ := Except.bind_eq_ok h
    obtain ⟨mid, hmid, h⟩ := ih h
    refine ⟨mid, ?_, h⟩
    rw [appendBlocks, hjoined]
    exact hmid

/-- What every block keeps when it is appended. -/
theorem appendBlocks_keeps {P : ResolvedRoutingBlock → Prop} (hblock : P block)
    (hnext : ∀ next ∈ blocks, ∀ before after, P before →
      ResolvedRoutingBlock.appendBlock env.lim before next = .ok after → P after)
    (h : appendBlocks env wrap blocks block = .ok block') : P block' := by
  induction blocks generalizing block with
  | nil =>
    cases h
    exact hblock
  | cons next rest ih =>
    obtain ⟨joined, hjoined, h⟩ := Except.bind_eq_ok h
    exact ih (hnext next List.mem_cons_self _ _ hblock (Except.mapError_eq_ok hjoined))
      (fun other hother => hnext other (List.mem_cons_of_mem _ hother)) h

/-! ### Shared programs -/

/-- The tail of a bypass route. -/
def bypassTerminal (t : Terminal) : Terminal :=
  if t.action = .route then { t with flags := t.flags ||| matchFlagBypass } else t

theorem bypassTerminal_action (t : Terminal) : (bypassTerminal t).action = t.action := by
  unfold bypassTerminal
  split <;> rfl

theorem bypassTerminal_not (t : Terminal) :
    (bypassTerminal t).has matchFlagNot = t.has matchFlagNot := by
  have hall : ∀ flags : BitVec 8, ((flags ||| 64) &&& 1 != 0) = (flags &&& 1 != 0) := by
    decide +kernel
  unfold bypassTerminal
  split
  · exact hall t.flags
  · rfl

theorem retail_bypass (m : MatchSet) :
    (if m.action = .route then { m with flags := m.flags ||| matchFlagBypass } else m) =
      m.retail bypassTerminal := by
  unfold MatchSet.retail bypassTerminal
  by_cases h : m.action = .route
  · rw [if_pos h]
    have : m.terminal.action = .route := h
    rw [if_pos this]
    rfl
  · rw [if_neg h]
    have : ¬m.terminal.action = .route := h
    rw [if_neg this]
    rfl

theorem map_retail_bypass_condSets (p : Cond Atom) (t : Terminal) :
    (condSets p t).map (MatchSet.retail bypassTerminal) = condSets p (bypassTerminal t) := by
  have hclause : ∀ (c : Clause Atom) (u : Terminal),
      (clauseSets c u).map (MatchSet.retail bypassTerminal) = clauseSets c (bypassTerminal u) := by
    intro c u
    rw [clauseSets, List.map_append, List.map_map, List.map_singleton]
    rfl
  rw [condSets, List.map_append, hclause, List.map_flatMap]
  congr 2
  funext c
  exact hclause c (andTerminal c.not)

theorem map_retail_bypass (ps : List (Cond Atom × Terminal)) :
    (ruleSets ps).map (MatchSet.retail bypassTerminal) =
      ruleSets (ps.map fun r => (r.1, bypassTerminal r.2)) := by
  rw [ruleSets, ruleSets, List.map_flatMap, List.flatMap_map]
  congr 1
  funext r
  exact map_retail_bypass_condSets r.1 r.2

theorem flagBypass_eq (start : Nat) (rules : List MatchSet) :
    flagBypass start rules = rules.mapIdx fun i =>
      MatchSet.retail (if start ≤ i then bypassTerminal else id) := by
  have hflag : (fun m : MatchSet => if m.action = .route then
      { m with flags := m.flags ||| matchFlagBypass } else m) = MatchSet.retail bypassTerminal :=
    funext retail_bypass
  unfold flagBypass
  rw [hflag]
  apply List.ext_getElem?
  intro i
  rw [List.getElem?_mapIdx, List.getElem?_append, List.length_take, List.getElem?_map,
    List.getElem?_drop, List.getElem?_take]
  by_cases hi : start ≤ i
  · rw [if_pos hi]
    by_cases hlen : i < rules.length
    · rw [if_neg (by omega), show start + (i - min start rules.length) = i by omega]
    · rw [if_neg (by omega), List.getElem?_eq_none (by omega), List.getElem?_eq_none (by omega)]
  · rw [if_neg hi]
    by_cases hlen : i < rules.length
    · rw [if_pos (by omega), if_pos (by omega), List.getElem?_eq_getElem hlen]
      rfl
    · rw [if_neg (by omega), List.getElem?_eq_none (by omega), List.getElem?_eq_none (by omega)]
      rfl

/-- A bypass rule: a routing rule whose route carries the flag. -/
def BypassMeans (text : GoText) (ifindexOf : String → BitVec 32) (b : RoutingMatcherBuilder)
    (rule : RoutingRule) (r : List (Cond Atom) × Terminal) : Prop :=
  ∃ t, RuleMeans text ifindexOf b ⟨[], rule⟩ (r.1, t) ∧ r.2 = bypassTerminal t

theorem compileBypass_spec {rules : List RoutingRule} (hwf : WellFormed env.lim ifindexOf b)
    (h : applyRules env rules b = .ok b') :
    let flagged := { b' with rules := flagBypass b.rules.length b'.rules }
    Grows env.lim ifindexOf b flagged ∧ ∃ q,
      SpanLays ifindexOf flagged { first := b.rules.length, last := flagged.rules.length } q ∧
      List.Forall₂ (BypassMeans env.text ifindexOf flagged) rules (q.rules []) ∧
      (rules = [] → q = .nil) := by
  intro flagged
  obtain ⟨ps, htails, hps, hemits⟩ := applyRules_spec hwf h
  let qs := ps.map fun r => (r.1, bypassTerminal r.2)
  have hedit : Emits env.lim ifindexOf b flagged (ruleSets qs) := by
    have hedit := hemits.edit (fun i => if b.rules.length ≤ i then bypassTerminal else id)
      (fun i hi => if_neg (by omega))
    have hadded : ((ruleSets ps).mapIdx fun k => MatchSet.retail
        (if b.rules.length ≤ b.rules.length + k then bypassTerminal else id)) = ruleSets qs := by
      rw [← map_retail_bypass]
      apply List.ext_getElem?
      intro k
      rw [List.getElem?_mapIdx, List.getElem?_map, if_pos (Nat.le_add_right _ _)]
    rw [hadded, ← flagBypass_eq] at hedit
    exact hedit
  have htails' : ∀ r ∈ qs, RuleTail r := by
    intro r hr
    obtain ⟨r₀, hr₀, rfl⟩ := List.mem_map.mp hr
    obtain ⟨hnot, hplain⟩ := htails r₀ hr₀
    exact ⟨(bypassTerminal_not _).trans hnot, (bypassTerminal_action _).symm ▸ hplain⟩
  obtain ⟨hord, hlays⟩ := hedit.grows_rules htails'
  refine ⟨⟨_, hedit⟩, progOf qs, ⟨hord, hlays⟩, ?_, ?_⟩
  · rw [progOf_rules, List.map_map, List.forall₂_map_right_iff]
    refine hps.imp fun rule r hr => ⟨r.2, ?_, rfl⟩
    exact ⟨hr.conds.imp fun _ _ hc => hc.with_rules _, hr.target⟩
  · rintro rfl
    cases hps
    rfl

/-- The phases of the shared programs. -/
structure SharedPhases (shared : SharedRoutingPrograms) : Prop where
  bypass : shared.bypass.phase = .ingress
  destinations : PhasesIn (· = .ingress) shared.destinations.capture
  request : shared.request.first ≠ shared.request.last → shared.request.phase = .ingress
  http : shared.http.first ≠ shared.http.last → shared.http.phase = .flow
  early : shared.early.phase = .route
  late : shared.late.phase = .route

/-- The shared programs of a compiler. -/
structure SharedLays (env : CompileEnv) (ifindexOf : String → BitVec 32) (p : PreparedRules)
    (b : RoutingMatcherBuilder) (shared : SharedRoutingPrograms) : Prop where
  bypass : ∃ q, SpanLays ifindexOf b shared.bypass q ∧
    List.Forall₂ (BypassMeans env.text ifindexOf b) p.bypass (q.rules []) ∧
    (p.bypass = [] → q = .nil)
  destinations : ∃ q, BlockLays ifindexOf b shared.destinations.capture q ∧
    q.All Terminal.CapturesExit ∧ (p.destinations = [] → q = .nil)
  request : ∃ q, SpanLays ifindexOf b shared.request q ∧ q.All Terminal.CapturesExit ∧
    (p.capture = none → q = .nil)
  http : ∃ q, SpanLays ifindexOf b shared.http q ∧ q.All (Terminal.Captures captureHTTP) ∧
    (p.capture = none → q = .nil)
  early : ∃ q, SpanLays ifindexOf b shared.early q ∧
    List.Forall₂ (RuleMeans env.text ifindexOf b) (p.earlyRoutes.map (GuardedRule.mk [])) (q.rules [])
  late : ∃ q, SpanLays ifindexOf b shared.late q ∧
    List.Forall₂ (RuleMeans env.text ifindexOf b) (p.lateRoutes.map (GuardedRule.mk [])) (q.rules [])
  phases : SharedPhases shared

theorem BypassMeans.of_extends {rule : RoutingRule} {r : List (Cond Atom) × Terminal}
    (h : BypassMeans env.text ifindexOf b rule r) (hwf : WellFormed env.lim ifindexOf b)
    (he : Extends ifindexOf b b') : BypassMeans env.text ifindexOf b' rule r :=
  h.imp fun _ ht => ⟨ht.1.of_extends hwf he, ht.2⟩

variable {shared : SharedRoutingPrograms}

theorem SharedLays.mono {p : PreparedRules}
    (h : SharedLays env ifindexOf p b shared) (hwf : WellFormed env.lim ifindexOf b)
    (he : Extends ifindexOf b b') : SharedLays env ifindexOf p b' shared where
  bypass := h.bypass.imp fun _ hq =>
    ⟨hq.1.mono he, hq.2.1.imp fun _ _ hr => hr.of_extends hwf he, hq.2.2⟩
  destinations := h.destinations.imp fun _ hq => ⟨hq.1.mono he, hq.2⟩
  request := h.request.imp fun _ hq => ⟨hq.1.mono he, hq.2⟩
  http := h.http.imp fun _ hq => ⟨hq.1.mono he, hq.2⟩
  early := h.early.imp fun _ hq => ⟨hq.1.mono he, hq.2.imp fun _ _ hr => hr.of_extends hwf he⟩
  late := h.late.imp fun _ hq => ⟨hq.1.mono he, hq.2.imp fun _ _ hr => hr.of_extends hwf he⟩
  phases := h.phases

theorem compileCaptures_spec {capture : Option RoutingCapture} {request http : RoutingSpan}
    (hwf : WellFormed env.lim ifindexOf b)
    (h : compileCaptures env capture b = .ok ((request, http), b')) :
    Grows env.lim ifindexOf b b' ∧ (request.first ≠ request.last → request.phase = .ingress) ∧
      (http.first ≠ http.last → http.phase = .flow) ∧
      (∃ q, SpanLays ifindexOf b' request q ∧ q.All Terminal.CapturesExit ∧
        (capture = none → q = .nil)) ∧
      ∃ q, SpanLays ifindexOf b' http q ∧ q.All (Terminal.Captures captureHTTP) ∧
        (capture = none → q = .nil) := by
  cases capture with
  | none =>
    cases h
    exact ⟨Grows.refl hwf, fun hne => absurd rfl hne, fun hne => absurd rfl hne,
      ⟨.nil, SpanLays.empty, trivial, fun _ => rfl⟩, ⟨.nil, SpanLays.empty, trivial, fun _ => rfl⟩⟩
  | some capture =>
    obtain ⟨⟨first, b₁⟩, hfirst, h⟩ := Except.bind_eq_ok h
    obtain ⟨⟨second, b₂⟩, hsecond, h⟩ := Except.bind_eq_ok h
    cases h
    obtain ⟨hg₁, hphase₁, hord₁, q₁, hq₁, hok₁⟩ := compileHTTPCapture_spec hwf hfirst
    obtain ⟨hg₂, hphase₂, hord₂, q₂, hq₂, hok₂⟩ :=
      compileHTTPCapture_spec hg₁.wellFormed hsecond
    have hexit : q₁.All Terminal.CapturesExit :=
      hok₁.imp fun t ht => capturesExit_of_captures (by decide) ht
    exact ⟨hg₁.trans hg₂, hphase₁, hphase₂,
      ⟨q₁, ⟨hord₁, hq₁.mono hg₂.extends.pool⟩, hexit, nofun⟩,
      ⟨q₂, ⟨hord₂, hq₂⟩, hok₂, nofun⟩⟩

theorem compileShared_spec {c c' : RoutingCompiler} {p : PreparedRules}
    (hwf : WellFormed env.lim ifindexOf c.builder) (h : c.compileShared env p = .ok c') :
    Grows env.lim ifindexOf c.builder c'.builder ∧
      SharedLays env ifindexOf p c'.builder c'.shared ∧
      c' = { c with builder := c'.builder, shared := c'.shared } := by
  obtain ⟨b₀, hb₀, h⟩ := Except.bind_eq_ok h
  obtain ⟨hg₀, q₀, hq₀, hbypass, hnil₀⟩ := compileBypass_spec hwf hb₀
  dsimp only at h hq₀
  generalize { b₀ with rules := flagBypass c.builder.rules.length b₀.rules } = b₁
    at h hg₀ hq₀ hbypass
  obtain ⟨⟨destinations, b₂⟩, hdest, h⟩ := Except.bind_eq_ok h
  obtain ⟨⟨⟨request, http⟩, b₃⟩, hcaptures, h⟩ := Except.bind_eq_ok h
  obtain ⟨⟨early, b₄⟩, hearly, h⟩ := Except.bind_eq_ok h
  obtain ⟨⟨late, b₅⟩, hlate, h⟩ := Except.bind_eq_ok h
  cases h
  obtain ⟨hg₂, hflow⟩ := compileDestinations_spec hg₀.wellFormed hdest
  obtain ⟨hg₃, hrequest, hhttp, ⟨q₃, hq₃, hok₃, hnil₃⟩, ⟨q₄, hq₄, hok₄, hnil₄⟩⟩ :=
    compileCaptures_spec hg₂.wellFormed hcaptures
  obtain ⟨hg₄, hphase₄, hord₄, qe, hqe, hrulese⟩ := compileRuleBatch_spec hg₃.wellFormed hearly
  obtain ⟨hg₅, hphase₅, hord₅, ql, hql, hrulesl⟩ := compileRuleBatch_spec hg₄.wellFormed hlate
  have he₄₅ := hg₅.extends
  have he₃₅ := hg₄.extends.trans he₄₅
  have he₂₅ := hg₃.extends.trans he₃₅
  have he₁₅ := hg₂.extends.trans he₂₅
  refine ⟨(((hg₀.trans hg₂).trans hg₃).trans hg₄).trans hg₅, ?_, rfl⟩
  refine ⟨⟨q₀, ?_, hbypass.imp fun _ _ hr => hr.of_extends hg₀.wellFormed he₁₅, hnil₀⟩, ?_,
    ⟨q₃, hq₃.mono he₃₅, hok₃, hnil₃⟩, ⟨q₄, hq₄.mono he₃₅, hok₄, hnil₄⟩,
    ⟨qe, ⟨hord₄, hqe.mono he₄₅.pool⟩, hrulese.imp fun _ _ hr => hr.of_extends hg₄.wellFormed he₄₅⟩,
    ⟨ql, ⟨hord₅, hql⟩, hrulesl⟩, ⟨rfl, hflow.capturePhases, hrequest, hhttp, hphase₄, hphase₅⟩⟩
  · exact ⟨hq₀.ordered, hq₀.lays.mono he₁₅.pool⟩
  · obtain ⟨q, hq, hok⟩ := (hflow.mono he₂₅).capture
    refine ⟨q, hq, hok, ?_⟩
    intro hnone
    rw [compileDestinations, if_pos hnone] at hdest
    cases hdest
    exact hq.lays.eq_nil_of_size

/-! ### Profile programs -/

/-- The pieces of a profile, in order. -/
structure Segments where
  bypass : Prog Atom Terminal
  capture : Prog Atom Terminal
  destinations : Prog Atom Terminal
  request : Prog Atom Terminal
  controls : Prog Atom Terminal
  http : Prog Atom Terminal
  flowEnd : Prog Atom Terminal
  early : Prog Atom Terminal
  body : Prog Atom Terminal
  late : Prog Atom Terminal
  fallback : Prog Atom Terminal

/-- The pieces spliced together. -/
def Segments.program (s : Segments) : Prog Atom Terminal :=
  [s.bypass, s.capture, s.destinations, s.request, s.controls, s.http, s.flowEnd, s.early, s.body,
    s.late, s.fallback].foldl Prog.append .nil

/-- The pieces that see the packet as it came in. -/
def Segments.ingress (s : Segments) : Prog Atom Terminal :=
  [s.bypass, s.capture, s.destinations, s.request].foldl Prog.append .nil

/-- The pieces behind them. -/
def Segments.rest (s : Segments) : Prog Atom Terminal :=
  [s.controls, s.http, s.flowEnd, s.early, s.body, s.late, s.fallback].foldl Prog.append .nil

theorem foldl_append (qs : List (Prog Atom Terminal)) (q : Prog Atom Terminal) :
    qs.foldl Prog.append q = q.append (qs.foldl Prog.append .nil) := by
  induction qs generalizing q with
  | nil => exact (Prog.append_nil q).symm
  | cons r qs ih => rw [List.foldl_cons, List.foldl_cons, ih, ih (Prog.append .nil r), Prog.append,
      Prog.append_assoc]

theorem Segments.program_eq (s : Segments) : s.program = s.ingress.append s.rest :=
  foldl_append [s.controls, s.http, s.flowEnd, s.early, s.body, s.late, s.fallback] s.ingress

/-- The condition of the flow end and of a fallback: it always holds. -/
def fallbackCond : Cond Atom := ⟨[], ⟨[], ⟨.fallback, 0⟩, false⟩⟩

/-- A rule that always holds only applies its terminal. -/
theorem eval_fallback {S R : Type} {w : Walker Atom Terminal S R}
    (hpred : w.pred ⟨.fallback, 0⟩ = .hit) (t : Terminal) (s : S) :
    (Prog.rule fallbackCond t .nil).eval w false s = w.apply s t false := by
  have hvalue : fallbackCond.value w.pred = .hit := by
    show (w.pred ⟨.fallback, 0⟩).xor false = .hit
    rw [hpred]
    rfl
  rw [Prog.eval, hvalue, if_neg (by decide)]
  show andThen (w.apply s t false) _ = _
  cases w.apply s t false <;> rfl

def flowEndProg : Prog Atom Terminal := .rule fallbackCond { action := .flowEnd } .nil

/-- The spans of a profile spell these pieces. -/
structure ProfileProgram (env : CompileEnv) (ifindexOf : String → BitVec 32)
    (sets : String → Option RoutingRuleSet) (p : PreparedRules) (b : RoutingMatcherBuilder)
    (policy : RoutingPolicy) (spans : List RoutingSpan) (s : Segments) : Prop where
  lays : BlockLays ifindexOf b spans s.program
  short : s.program.size ≤ env.lim.maxMatchSetLen
  bypass : List.Forall₂ (BypassMeans env.text ifindexOf b) p.bypass (s.bypass.rules [])
  capture : s.capture.All Terminal.CapturesExit
  destinations : s.destinations.All Terminal.CapturesExit
  request : s.request.All Terminal.CapturesExit
  controls : s.controls.All Terminal.Controls
  http : s.http.All (Terminal.Captures captureHTTP)
  flowEnd : s.flowEnd = flowEndProg ∨ s.flowEnd = .nil ∧ s.controls = .nil ∧ s.http = .nil
  early : List.Forall₂ (RuleMeans env.text ifindexOf b) (p.earlyRoutes.map (GuardedRule.mk []))
    (s.early.rules [])
  body : ∃ depth rs, inlineStatements (inlineSet sets depth) policy.statements = some rs ∧
    List.Forall₂ (RuleMeans env.text ifindexOf b) rs (s.body.rules [])
  late : List.Forall₂ (RuleMeans env.text ifindexOf b) (p.lateRoutes.map (GuardedRule.mk []))
    (s.late.rules [])
  fallback : ∃ t, TargetMeans env.text b.outboundName2Id policy.fallback false t ∧
    t.has matchFlagSkipNoalive = false ∧ s.fallback = .rule fallbackCond t .nil
  noRules : policy.rules = [] → s.capture = .nil ∧ s.controls = .nil
  noDestinations : p.destinations = [] → s.destinations = .nil
  noCapture : p.capture = none → s.request = .nil ∧ s.http = .nil
  noBypass : p.bypass = [] → s.bypass = .nil
  stages : ∃ first, Staged first spans ∧ spanExecutionLen first = s.ingress.size

theorem ProfileProgram.mono {sets : String → Option RoutingRuleSet} {p : PreparedRules}
    {policy : RoutingPolicy} {spans : List RoutingSpan} {s : Segments}
    (h : ProfileProgram env ifindexOf sets p b policy spans s)
    (hwf : WellFormed env.lim ifindexOf b) (he : Extends ifindexOf b b') :
    ProfileProgram env ifindexOf sets p b' policy spans s :=
  { h with
    lays := h.lays.mono he
    bypass := h.bypass.imp fun _ _ hr => hr.of_extends hwf he
    early := h.early.imp fun _ _ hr => hr.of_extends hwf he
    body := by
      obtain ⟨depth, rs, hrs, hbody⟩ := h.body
      exact ⟨depth, rs, hrs, hbody.imp fun _ _ hr => hr.of_extends hwf he⟩
    late := h.late.imp fun _ _ hr => hr.of_extends hwf he
    fallback := by
      rw [he.outbounds]
      exact h.fallback }

/-- The profile belongs to a policy of the configuration. -/
def ProfileOK (env : CompileEnv) (ifindexOf : String → BitVec 32)
    (sets : String → Option RoutingRuleSet) (p : PreparedRules) (b : RoutingMatcherBuilder)
    (profile : RoutingProfile) : Prop :=
  ∃ policy s, lastNamed RoutingPolicy.name p.routing.policies profile.name = some policy ∧
    ProfileProgram env ifindexOf sets p b policy profile.spans s

theorem ProfileOK.mono {sets : String → Option RoutingRuleSet} {p : PreparedRules}
    {profile : RoutingProfile} (h : ProfileOK env ifindexOf sets p b profile)
    (hwf : WellFormed env.lim ifindexOf b) (he : Extends ifindexOf b b') :
    ProfileOK env ifindexOf sets p b' profile := by
  obtain ⟨policy, s, hpolicy, hs⟩ := h
  exact ⟨policy, s, hpolicy, hs.mono hwf he⟩

/-- A stored fallback is one instruction of the pool. -/
def FallbackAt (ifindexOf : String → BitVec 32) (b : RoutingMatcherBuilder) (m : MatchSet)
    (span : RoutingSpan) : Prop :=
  span.Ordered ∧ span.len = 1 ∧ ChunkAt (b.loaded ifindexOf) span.first [m]

/-- The invariant of the builder between profiles. -/
structure BuilderOK (env : CompileEnv) (ifindexOf : String → BitVec 32)
    (sets : String → Option RoutingRuleSet) (p : PreparedRules) (b : RoutingMatcherBuilder) :
    Prop where
  wellFormed : WellFormed env.lim ifindexOf b
  fallbacks : ∀ m span, (m, span) ∈ b.fallbackSpans →
    FallbackAt ifindexOf b m span ∧ span.phase = .route
  profiles : ∀ profile ∈ b.profiles, ProfileOK env ifindexOf sets p b profile

theorem BuilderOK.grow {sets : String → Option RoutingRuleSet} {p : PreparedRules}
    (h : BuilderOK env ifindexOf sets p b) (hg : Grows env.lim ifindexOf b b') :
    BuilderOK env ifindexOf sets p b' where
  wellFormed := hg.wellFormed
  fallbacks m span hmem := by
    rw [hg.same.fallbackSpans] at hmem
    obtain ⟨⟨hord, hlen, hat⟩, hphase⟩ := h.fallbacks m span hmem
    exact ⟨⟨hord, hlen, hat.mono hg.extends.pool⟩, hphase⟩
  profiles profile hmem := by
    rw [hg.same.profiles] at hmem
    exact (h.profiles profile hmem).mono h.wellFormed hg.extends

variable {m : MatchSet}

theorem FallbackAt.lays {t : Terminal}
    (h : FallbackAt ifindexOf b m span) (hm : m = tailSet ⟨.fallback, 0⟩ t)
    (hnot : t.has matchFlagNot = false) (hplain : t.action ≠ .conditionalJump) :
    SpanLays ifindexOf b span (.rule fallbackCond t .nil) := by
  obtain ⟨hord, hlen, hat⟩ := h
  refine ⟨hord, ?_⟩
  rw [hm] at hat
  rw [RoutingSpan.indices, hlen]
  have hlays : Lays (b.loaded ifindexOf) (List.range' span.first fallbackCond.size ++ [])
      (.rule fallbackCond t .nil) := .rule hat hnot hplain .nil
  exact hlays

/-- The builders differ in what the pool does not depend on. -/
structure SamePool (b b' : RoutingMatcherBuilder) : Prop where
  rules : b'.rules = b.rules
  patches : b'.interfaceRulePatches = b.interfaceRulePatches
  outbounds : b'.outboundName2Id = b.outboundName2Id
  tries : b'.simulatedLpmTries = b.simulatedLpmTries
  statics : b'.staticLpmIDs = b.staticLpmIDs
  clients : b'.clientSetSlots = b.clientSetSlots
  domains : b'.simulatedDomainSet = b.simulatedDomainSet

theorem SamePool.loaded (h : SamePool b b') : b'.loaded ifindexOf = b.loaded ifindexOf := by
  rw [RoutingMatcherBuilder.loaded, RoutingMatcherBuilder.loaded, h.rules, h.patches]

theorem SamePool.extends (h : SamePool b b') : Extends ifindexOf b b' := by
  refine ⟨h.outbounds, ?_, ?_, ?_, ?_, ?_⟩
  · rw [h.tries]
  · rw [h.statics]
  · rw [h.clients]
  · rw [h.domains]
  · rw [h.loaded]

theorem SamePool.wellFormed {lim : Limits} (h : SamePool b b') (hwf : WellFormed lim ifindexOf b) :
    WellFormed lim ifindexOf b' := by
  refine ⟨?_, ?_, ?_, ?_, ?_, ?_⟩
  · rw [h.patches, h.rules]
    exact hwf.patches
  · rw [h.domains]
    exact hwf.domains
  · rw [h.clients, h.tries]
    exact hwf.clients
  · rw [h.statics, h.tries]
    exact hwf.statics
  · rw [h.loaded, h.tries]
    exact hwf.atoms
  · rw [h.tries, h.rules]
    exact hwf.slots

/-- New fallbacks and profiles, over the same pool. -/
theorem BuilderOK.set {sets : String → Option RoutingRuleSet} {p : PreparedRules}
    (h : BuilderOK env ifindexOf sets p b) (hsame : SamePool b b')
    (hfallbacks : ∀ m span, (m, span) ∈ b'.fallbackSpans →
      FallbackAt ifindexOf b m span ∧ span.phase = .route)
    (hprofiles : ∀ profile ∈ b'.profiles, ProfileOK env ifindexOf sets p b profile) :
    BuilderOK env ifindexOf sets p b' where
  wellFormed := hsame.wellFormed h.wellFormed
  fallbacks m span hmem := by
    obtain ⟨⟨hord, hlen, hat⟩, hphase⟩ := hfallbacks m span hmem
    exact ⟨⟨hord, hlen, hsame.loaded ▸ hat⟩, hphase⟩
  profiles profile hmem := (hprofiles profile hmem).mono h.wellFormed hsame.extends

theorem addFallback_spec {sets : String → Option RoutingRuleSet} {p : PreparedRules}
    (hok : BuilderOK env ifindexOf sets p b)
    (hatom : m.type = .fallback) (h : b.addFallback env m = .ok (span, b')) :
    BuilderOK env ifindexOf sets p b' ∧ Extends ifindexOf b b' ∧ b'.profiles = b.profiles ∧
      FallbackAt ifindexOf b' m span ∧ span.phase = .route := by
  unfold RoutingMatcherBuilder.addFallback at h
  cases hfound : b.fallbackSpans.lookup m with
  | some existing =>
    simp only [hfound] at h
    cases h
    exact ⟨hok, Extends.refl _, rfl, hok.fallbacks m span (List.mem_of_lookup hfound)⟩
  | none =>
    simp only [hfound] at h
    obtain ⟨-, h⟩ := Except.ite_error_eq_ok h
    cases h
    have hpush : Emits env.lim ifindexOf b { b with rules := b.rules ++ [m] } [m] := by
      refine emits_push hok.wellFormed ?_
      unfold AtomOK
      have : m.atom.type = .fallback := hatom
      rw [this]
      exact trivial
    have hgrow := hok.grow ⟨_, hpush⟩
    have hat : ChunkAt (RoutingMatcherBuilder.loaded ifindexOf
        { b with rules := b.rules ++ [m] }) b.rules.length [m] := hpush.chunk
    have hnew : FallbackAt ifindexOf { b with rules := b.rules ++ [m] } m
        { first := b.rules.length, last := b.rules.length + 1 } :=
      ⟨Nat.le_succ _, Nat.add_sub_cancel_left _ _, hat⟩
    have hpool : SamePool { b with rules := b.rules ++ [m] }
        { b with
          rules := b.rules ++ [m]
          fallbackSpans := b.fallbackSpans ++
            [(m, { first := b.rules.length, last := b.rules.length + 1 })] } :=
      ⟨rfl, rfl, rfl, rfl, rfl, rfl, rfl⟩
    refine ⟨hgrow.set hpool ?_ hgrow.profiles, hpush.grows.trans hpool.extends, rfl, hnew, rfl⟩
    intro m' span' hmem
    rcases List.mem_append.mp hmem with hmem | hmem
    · exact hgrow.fallbacks m' span' hmem
    · cases List.mem_singleton.mp hmem
      exact ⟨hnew, rfl⟩

/-! ### The compiler -/

/-- The invariant of the compiler between profiles. -/
structure CompilerOK (env : CompileEnv) (ifindexOf : String → BitVec 32)
    (sets : String → Option RoutingRuleSet) (p : PreparedRules) (c : RoutingCompiler) : Prop where
  sets_eq : c.sets = sets
  builder : BuilderOK env ifindexOf sets p c.builder
  resolved : CacheOK env ifindexOf (RoutesLay env.text ifindexOf) sets ⟨c.builder, c.resolved⟩
  flows : CacheOK env ifindexOf (FlowsLay ifindexOf) sets ⟨c.builder, c.flows⟩
  shared : SharedLays env ifindexOf p c.builder c.shared
  flowEnd : c.flowEnd.len = 0 ∨
    SpanLays ifindexOf c.builder c.flowEnd flowEndProg ∧ c.flowEnd.phase = .flow

variable {sets : String → Option RoutingRuleSet} {p : PreparedRules} {c c' : RoutingCompiler}

/-- The caches survive any growth. -/
theorem CacheOK.extend {B : Type} {program : RuleSetCompiler B}
    {Den : RoutingMatcherBuilder → B → List GuardedRule → Prop}
    (hs : Sound env ifindexOf program Den) {cache : RuleSetCache B}
    (h : CacheOK env ifindexOf Den sets ⟨b, cache⟩) (hwf : WellFormed env.lim ifindexOf b')
    (he : Extends ifindexOf b b') : CacheOK env ifindexOf Den sets ⟨b', cache⟩ := by
  refine ⟨hwf, fun key block hmem => ?_⟩
  obtain ⟨name, condition, hkey, hstands⟩ := h.cached key block hmem
  exact ⟨name, condition, hkey, hstands.mono hs h.wellFormed he⟩

theorem CompilerOK.extend (h : CompilerOK env ifindexOf sets p c)
    (hok : BuilderOK env ifindexOf sets p b') (he : Extends ifindexOf c.builder b') :
    CompilerOK env ifindexOf sets p { c with builder := b' } where
  sets_eq := h.sets_eq
  builder := hok
  resolved := h.resolved.extend (routingProgram_sound env ifindexOf) hok.wellFormed he
  flows := h.flows.extend (flowProgram_sound env ifindexOf) hok.wellFormed he
  shared := h.shared.mono h.builder.wellFormed he
  flowEnd := h.flowEnd.imp id fun hlays => ⟨hlays.1.mono he, hlays.2⟩

variable {fuel : Nat} {name : String}

theorem resolveStatements_spec {statements : List RoutingStatement}
    (hok : CompilerOK env ifindexOf sets p c)
    (h : c.resolveStatements env fuel name statements = .ok (block, c')) :
    CompilerOK env ifindexOf sets p c' ∧ Grows env.lim ifindexOf c.builder c'.builder ∧
      ∃ depth rs, inlineStatements (inlineSet sets depth) statements = some rs ∧
        RoutesLay env.text ifindexOf c'.builder block rs := by
  obtain ⟨⟨found, st⟩, hst, h⟩ := Except.bind_eq_ok h
  cases h
  have hs := routingProgram_sound env ifindexOf
  rw [hok.sets_eq] at hst
  obtain ⟨hstep, depth, rs, hrs, hden⟩ := resolveBlockStatements_spec hs
    (resolveRuleSet_spec hs fuel) hok.resolved hs.empty hst
  have hext := hok.extend (hok.builder.grow hstep.grows) hstep.grows.extends
  exact ⟨{ hext with resolved := hstep.cache }, hstep.grows, depth, rs, hrs, hden⟩

theorem resolveFlowStatements_spec {statements : List RoutingStatement} {flow : ResolvedFlowBlock}
    (hok : CompilerOK env ifindexOf sets p c)
    (h : c.resolveFlowStatements env fuel name statements = .ok (flow, c')) :
    CompilerOK env ifindexOf sets p c' ∧ Grows env.lim ifindexOf c.builder c'.builder ∧
      FlowLays ifindexOf c'.builder flow ∧ (statements = [] → flow = {}) := by
  obtain ⟨⟨found, st⟩, hst, h⟩ := Except.bind_eq_ok h
  cases h
  have hs := flowProgram_sound env ifindexOf
  rw [hok.sets_eq] at hst
  obtain ⟨hstep, depth, rs, -, hden⟩ := resolveBlockStatements_spec hs
    (resolveRuleSet_spec hs fuel) hok.flows hs.empty hst
  have hext := hok.extend (hok.builder.grow hstep.grows) hstep.grows.extends
  refine ⟨{ hext with flows := hstep.cache }, hstep.grows, hden, ?_⟩
  rintro rfl
  cases hst
  rfl

theorem useFlowEnd_spec (hok : CompilerOK env ifindexOf sets p c) :
    CompilerOK env ifindexOf sets p c.useFlowEnd.2 ∧
      Grows env.lim ifindexOf c.builder c.useFlowEnd.2.builder ∧
      c.useFlowEnd.2.shared = c.shared ∧
      SpanLays ifindexOf c.useFlowEnd.2.builder c.useFlowEnd.1 flowEndProg ∧
      c.useFlowEnd.1.phase = .flow := by
  unfold RoutingCompiler.useFlowEnd
  by_cases hlen : c.flowEnd.len = 0
  · rw [if_pos hlen]
    have hpush : Emits env.lim ifindexOf c.builder
        { c.builder with rules := c.builder.rules ++ [flowEndSet] } [flowEndSet] :=
      emits_push hok.builder.wellFormed trivial
    have hat : FallbackAt ifindexOf { c.builder with rules := c.builder.rules ++ [flowEndSet] }
        flowEndSet
        { first := c.builder.rules.length, last := c.builder.rules.length + 1, phase := .flow } :=
      ⟨Nat.le_succ _, Nat.add_sub_cancel_left _ _, hpush.chunk⟩
    have hlays := hat.lays (t := { action := .flowEnd }) rfl (by decide) (by decide)
    have hext := hok.extend (hok.builder.grow ⟨_, hpush⟩) hpush.grows
    exact ⟨{ hext with flowEnd := .inr ⟨hlays, rfl⟩ }, ⟨_, hpush⟩, rfl, hlays, rfl⟩
  · rw [if_neg hlen]
    exact ⟨hok, Grows.refl hok.builder.wellFormed, rfl, hok.flowEnd.resolve_left hlen⟩

theorem appendFlowEnd_spec {flow : ResolvedFlowBlock}
    {qc qh : Prog Atom Terminal} (hok : CompilerOK env ifindexOf sets p c)
    (hq : BlockLays ifindexOf c.builder block q)
    (hqc : BlockLays ifindexOf c.builder flow.controls qc)
    (hqh : SpanLays ifindexOf c.builder c.shared.http qh)
    (h : c.appendFlowEnd env flow block = .ok (block', c')) :
    CompilerOK env ifindexOf sets p c' ∧ Grows env.lim ifindexOf c.builder c'.builder ∧
      c'.shared = c.shared ∧ (∀ first, Staged first block → Staged first block') ∧
      ∃ qe, BlockLays ifindexOf c'.builder block' (q.append qe) ∧
        (qe = flowEndProg ∨ qe = .nil ∧ qc = .nil ∧ qh = .nil) := by
  unfold RoutingCompiler.appendFlowEnd at h
  by_cases hend : flow.controls ≠ [] ∨ c.shared.http.len ≠ 0
  · rw [if_pos hend] at h
    obtain ⟨hok', hg, hshared, hlays, hphase⟩ := useFlowEnd_spec hok
    obtain ⟨joined, hjoined, h⟩ := Except.bind_eq_ok h
    cases h
    have hne : c.useFlowEnd.1.phase ≠ .ingress := by
      rw [hphase]
      decide
    exact ⟨hok', hg, hshared, fun first h => h.span hjoined hne, flowEndProg,
      appendSpan_lays (hq.mono hg.extends) hlays.ordered hlays.lays hjoined, .inl rfl⟩
  · rw [if_neg hend] at h
    cases h
    rw [not_or, not_not, not_not] at hend
    have hcontrols : qc = .nil := by
      have hlays := hqc.lays
      rw [hend.1] at hlays
      exact hlays.eq_nil_of_size
    have hhttp : qh = .nil := by
      have hlays := hqh.lays
      rw [RoutingSpan.indices, hend.2] at hlays
      exact hlays.eq_nil_of_size
    refine ⟨hok, Grows.refl hok.builder.wellFormed, rfl, fun _ h => h, .nil, ?_,
      .inr ⟨rfl, hcontrols, hhttp⟩⟩
    rw [Prog.append_nil]
    exact hq

theorem parseFallback_spec {fallback : Function} (h : b.parseFallback env fallback = .ok m) :
    ∃ t, m = tailSet ⟨.fallback, 0⟩ t ∧
      TargetMeans env.text b.outboundName2Id fallback false t ∧
      t.has matchFlagSkipNoalive = false := by
  obtain ⟨out, hout, h⟩ := Except.bind_eq_ok h
  refine ⟨_, matchSet_spec h, ⟨out, hout, matchSet_known h, rfl⟩, ?_⟩
  have hplain : ∀ must, (routingMatchFlags false must false &&& matchFlagSkipNoalive != 0) = false := by
    decide
  unfold RoutingMatcherBuilder.matchSet at h
  unfold tailTerminal
  by_cases hor : out.name = logicalOr
  · rw [if_pos hor]
    exact hplain false
  by_cases hand : out.name = logicalAnd
  · rw [if_neg hor, if_pos hand]
    exact hplain false
  rw [if_neg hor, if_neg hand] at h
  rw [if_neg hor, if_neg hand]
  cases hid : b.outboundName2Id out.name with
  | none =>
    simp only [hid] at h
    cases h
  | some id =>
    simp only [hid] at h
    obtain ⟨hskip, -⟩ := Except.ite_error_eq_ok h
    have hskip' : out.skipWhileNoalive = false := by
      simpa using hskip
    show (routingMatchFlags false out.must out.skipWhileNoalive &&& matchFlagSkipNoalive != 0) = _
    rw [hskip']
    exact hplain out.must

/-- The first pieces of a profile are in the ingress phase. -/
theorem sharedIngress {capture : ResolvedRoutingBlock}
    (h : SharedPhases shared) (hcapture : PhasesIn (· = .ingress) capture) :
    ∀ next ∈ [[shared.bypass], capture, shared.destinations.capture, [shared.request]],
      ∀ s ∈ next, s.first ≠ s.last → s.phase = .ingress := by
  intro next hnext s hs hne
  fin_cases hnext
  · exact List.mem_singleton.mp hs ▸ h.bypass
  · exact hcapture s hs
  · exact h.destinations s hs
  · rw [List.mem_singleton.mp hs] at hne ⊢
    exact h.request hne

theorem sharedFlow {controls : ResolvedRoutingBlock}
    (h : SharedPhases shared) (hcontrols : PhasesIn (· = .flow) controls) :
    ∀ next ∈ [controls, [shared.http]], ∀ s ∈ next, s.first ≠ s.last → s.phase ≠ .ingress := by
  intro next hnext s hs hne
  have hflow : s.phase = .flow := by
    fin_cases hnext
    · exact hcontrols s hs
    · rw [List.mem_singleton.mp hs] at hne ⊢
      exact h.http hne
  rw [hflow]
  decide

theorem sharedRoute {body : ResolvedRoutingBlock}
    (h : SharedPhases shared) (hbody : PhasesIn (· = .route) body) :
    ∀ next ∈ [[shared.early], body, [shared.late]], ∀ s ∈ next, s.first ≠ s.last →
      s.phase ≠ .ingress := by
  intro next hnext s hs _
  have hroute : s.phase = .route := by
    fin_cases hnext
    · exact List.mem_singleton.mp hs ▸ h.early
    · exact hbody s hs
    · exact List.mem_singleton.mp hs ▸ h.late
  rw [hroute]
  decide

/-- **A profile** is spliced from its pieces. -/
theorem addProfile_spec {id : BitVec 32} {interfaceNames : List String}
    {policy : RoutingPolicy} (hok : CompilerOK env ifindexOf sets p c)
    (hpolicy : lastNamed RoutingPolicy.name p.routing.policies policy.name = some policy)
    (h : c.addProfile env fuel id interfaceNames policy = .ok c') :
    CompilerOK env ifindexOf sets p c' ∧ Extends ifindexOf c.builder c'.builder ∧
      c'.builder.profiles.map (·.name) = c.builder.profiles.map (·.name) ++ [policy.name] := by
  obtain ⟨⟨flow, c₁⟩, hflow, h⟩ := Except.bind_eq_ok h
  obtain ⟨⟨body, c₂⟩, hbody, h⟩ := Except.bind_eq_ok h
  obtain ⟨block₁, hblock₁, h⟩ := Except.bind_eq_ok h
  obtain ⟨⟨block₂, c₃⟩, hblock₂, h⟩ := Except.bind_eq_ok h
  obtain ⟨block₃, hblock₃, h⟩ := Except.bind_eq_ok h
  obtain ⟨fallback, hfallback, h⟩ := Except.bind_eq_ok h
  obtain ⟨⟨span, b₄⟩, hspan, h⟩ := Except.bind_eq_ok h
  obtain ⟨spans, hspans, h⟩ := Except.bind_eq_ok h
  cases h
  obtain ⟨hok₁, hg₁, hlays, hempty⟩ := resolveFlowStatements_spec hok (Except.mapError_eq_ok hflow)
  obtain ⟨hok₂, hg₂, depth, rs, hrs, hphases, qb, hqb, hrulesb⟩ := resolveStatements_spec hok₁ hbody
  obtain ⟨⟨qcap, hqcap, hcap⟩, ⟨qcon, hqcon, hcon⟩, hcapPhases, hconPhases⟩ :=
    hlays.mono hg₂.extends
  obtain ⟨⟨qby, hqby, hby, hbynil⟩, ⟨qd, hqd, hd, hdnil⟩, ⟨qr, hqr, hr, hrnil⟩,
    ⟨qh, hqh, hh, hhnil⟩, -, -, hsharedPhases⟩ := hok₂.shared
  have hfirst := appendBlocks_lays (.cons hqby.block (.cons hqcap (.cons hqd (.cons hqr.block
    (.cons hqcon (.cons hqh.block .nil)))))) blockLays_nil hblock₁
  obtain ⟨hok₃, hg₃, hshared, hendStaged, qe, hsecond, hend⟩ :=
    appendFlowEnd_spec hok₂ hfirst hqcon hqh hblock₂
  obtain ⟨-, -, -, -, ⟨qea, hqea, hea⟩, ⟨qla, hqla, hla⟩, hlatePhases⟩ := hok₃.shared
  have hthird := appendBlocks_lays (.cons hqea.block (.cons (hqb.mono hg₃.extends)
    (.cons hqla.block .nil))) hsecond hblock₃
  obtain ⟨t, hm, htarget, hskip⟩ := parseFallback_spec (Except.mapError_eq_ok hfallback)
  obtain ⟨hbok, he₄, hsame, hat, hphase⟩ := addFallback_spec hok₃.builder (by rw [hm]; rfl)
    (Except.mapError_eq_ok hspan)
  have htail : t.has matchFlagNot = false ∧ t.action ≠ .conditionalJump := by
    obtain ⟨out, -, -, rfl⟩ := htarget
    exact ⟨(tailTerminal_spec _ _ _).1, (tailTerminal_spec _ _ _).2.plain⟩
  have hfb := hat.lays hm htail.1 htail.2
  have hfinal := appendSpan_lays (hthird.mono he₄) hfb.ordered hfb.lays (Except.mapError_eq_ok hspans)
  have hshort := appendSpan_fits (by rw [hat.2.1]; decide) hfinal hthird.ordered hfb.ordered
    (Except.mapError_eq_ok hspans)
  -- The ingress spans come first.
  have hstages : ∃ first, Staged first spans ∧
      spanExecutionLen first = ([qby, qcap, qd, qr].foldl Prog.append .nil).size := by
    obtain ⟨ingress, hingress, hflow⟩ := appendBlocks_append
      [[c₂.shared.bypass], flow.capture, c₂.shared.destinations.capture, [c₂.shared.request]]
      [flow.controls, [c₂.shared.http]] hblock₁
    have hphases₁ : PhasesIn (· = .ingress) ingress := appendBlocks_keeps PhasesIn.nil
      (fun next hnext _ _ h => h.append (sharedIngress hsharedPhases hcapPhases next hnext)) hingress
    have hstaged₁ : Staged ingress ingress :=
      ⟨hphases₁, [], (List.append_nil _).symm, PhasesIn.nil⟩
    have hstaged₂ := hendStaged _ (appendBlocks_keeps hstaged₁
      (fun next hnext _ _ h => h.append (sharedFlow hsharedPhases hconPhases next hnext)) hflow)
    have hstaged₃ := appendBlocks_keeps hstaged₂
      (fun next hnext _ _ h => h.append (sharedRoute hlatePhases hphases next hnext)) hblock₃
    refine ⟨ingress, hstaged₃.span (Except.mapError_eq_ok hspans) (by rw [hphase]; decide), ?_⟩
    exact (appendBlocks_lays (.cons hqby.block (.cons hqcap (.cons hqd (.cons hqr.block .nil))))
      blockLays_nil hingress).size_eq.symm
  have hwf₂ := hok₂.builder.wellFormed
  have hwf₃ := hok₃.builder.wellFormed
  have he₂₄ := hg₃.extends.trans he₄
  have hprogram : ProfileProgram env ifindexOf sets p b₄ policy spans
      { bypass := qby, capture := qcap, destinations := qd, request := qr, controls := qcon
        http := qh, flowEnd := qe, early := qea, body := qb, late := qla
        fallback := .rule fallbackCond t .nil } :=
    { lays := hfinal
      short := hshort
      bypass := hby.imp fun _ _ hr => hr.of_extends hwf₂ he₂₄
      capture := hcap
      destinations := hd
      request := hr
      controls := hcon
      http := hh
      flowEnd := hend
      early := hea.imp fun _ _ hr => hr.of_extends hwf₃ he₄
      body := ⟨depth, rs, hrs, hrulesb.imp fun _ _ hr => hr.of_extends hwf₂ he₂₄⟩
      late := hla.imp fun _ _ hr => hr.of_extends hwf₃ he₄
      fallback := ⟨t, by rw [he₄.outbounds]; exact htarget, hskip, rfl⟩
      noRules := by
        intro hrules
        rw [hempty hrules] at hqcap hqcon
        exact ⟨hqcap.lays.eq_nil_of_size, hqcon.lays.eq_nil_of_size⟩
      noDestinations := hdnil
      noCapture := fun hcapture => ⟨hrnil hcapture, hhnil hcapture⟩
      noBypass := hbynil
      stages := hstages }
  have hprofiles : b₄.profiles = c.builder.profiles := by
    rw [hsame, hg₃.same.profiles, hg₂.same.profiles, hg₁.same.profiles]
  have hpool : SamePool b₄ { b₄ with
      profiles := b₄.profiles ++ [{ id, name := policy.name, interfaceNames, spans }] } :=
    ⟨rfl, rfl, rfl, rfl, rfl, rfl, rfl⟩
  have hset := hbok.set hpool hbok.fallbacks ?_
  · have hext := hok₃.extend hset (he₄.trans hpool.extends)
    refine ⟨{ hext with }, (hg₁.extends.trans hg₂.extends).trans (he₂₄.trans hpool.extends), ?_⟩
    show (b₄.profiles ++ [_]).map _ = _
    rw [List.map_append, hprofiles]
    rfl
  · intro profile hmem
    rcases List.mem_append.mp hmem with hmem | hmem
    · exact hbok.profiles profile hmem
    · rw [List.mem_singleton.mp hmem]
      exact ⟨policy, _, hpolicy, hprogram⟩

theorem lastNamed_name {V : Type} {nameOf : V → String} {entries : List V} {v : V}
    (h : lastNamed nameOf entries name = some v) : nameOf v = name := by
  have hfound := List.find?_some h
  exact of_decide_eq_true hfound

/-- **The selected policies** become profiles, in order. -/
theorem addProfiles_spec {i : Nat} {names : List String} (hok : CompilerOK env ifindexOf sets p c)
    (h : RoutingCompiler.addProfiles env fuel p.routing i names c = .ok c') :
    CompilerOK env ifindexOf sets p c' ∧ Extends ifindexOf c.builder c'.builder ∧
      c'.builder.profiles.map (·.name) = c.builder.profiles.map (·.name) ++ names := by
  induction names generalizing i c with
  | nil =>
    cases h
    exact ⟨hok, Extends.refl _, (List.append_nil _).symm⟩
  | cons name rest ih =>
    unfold RoutingCompiler.addProfiles at h
    cases hpolicy : lastNamed RoutingPolicy.name p.routing.policies name with
    | none =>
      simp only [hpolicy] at h
      cases h
    | some policy =>
      simp only [hpolicy] at h
      have hname := lastNamed_name hpolicy
      subst hname
      obtain ⟨c₁, hc₁, h⟩ := Except.bind_eq_ok h
      obtain ⟨hok₁, he₁, hnames₁⟩ := addProfile_spec hok hpolicy hc₁
      obtain ⟨hok', he', hnames⟩ := ih hok₁ h
      refine ⟨hok', he₁.trans he', ?_⟩
      rw [hnames, hnames₁, List.append_assoc, List.singleton_append]

/-! ### The end of compilation -/

theorem addDestinationPredicate_spec {rule : DestinationRewrite} {predicate : DestinationPredicate}
    (hwf : WellFormed env.lim ifindexOf b)
    (h : addDestinationPredicate env rule b = .ok (predicate, b')) :
    Grows env.lim ifindexOf b b' := by
  obtain ⟨b₁, hb₁, h⟩ := Except.bind_eq_ok h
  obtain ⟨-, q, -, hemits⟩ := applyPredicate_spec hwf (Except.mapError_eq_ok hb₁)
  have hedit := hemits.retail_last fun t => { t with action := .matchHit }
  have hpush := emits_push (m := { type := .fallback, action := .miss }) hedit.wellFormed trivial
  cases h
  exact ⟨_, hedit.trans hpush⟩

theorem addDestinationPredicates_spec {rules : List DestinationRewrite}
    {predicates : List DestinationPredicate} (hwf : WellFormed env.lim ifindexOf b)
    (h : addDestinationPredicates env rules b = .ok (predicates, b')) :
    Grows env.lim ifindexOf b b' := by
  induction rules generalizing b predicates with
  | nil =>
    cases h
    exact Grows.refl hwf
  | cons rule rest ih =>
    obtain ⟨⟨predicate, b₁⟩, hb₁, h⟩ := Except.bind_eq_ok h
    obtain ⟨⟨more, b₂⟩, hb₂, h⟩ := Except.bind_eq_ok h
    cases h
    have hg := addDestinationPredicate_spec hwf hb₁
    exact hg.trans (ih hg.wellFormed hb₂)

theorem finishFragments_spec {fragments : List DestinationFragment}
    {compiled compiled' : List (Nat × List DestinationPredicate)}
    {predicates : List DestinationPredicate} (hwf : WellFormed env.lim ifindexOf b)
    (h : finishFragments env fragments compiled b = .ok (predicates, compiled', b')) :
    Grows env.lim ifindexOf b b' := by
  induction fragments generalizing b compiled predicates with
  | nil =>
    cases h
    exact Grows.refl hwf
  | cons fragment rest ih =>
    unfold finishFragments at h
    cases hfound : compiled.lookup fragment.number with
    | some found =>
      simp only [hfound] at h
      obtain ⟨_, hfirst, h⟩ := Except.bind_eq_ok h
      cases hfirst
      obtain ⟨⟨more, done, b₂⟩, hb₂, h⟩ := Except.bind_eq_ok h
      cases h
      exact ih hwf hb₂
    | none =>
      simp only [hfound] at h
      obtain ⟨⟨found, b₁⟩, hb₁, h⟩ := Except.bind_eq_ok h
      obtain ⟨_, hfirst, h⟩ := Except.bind_eq_ok h
      cases hfirst
      obtain ⟨⟨more, done, b₂⟩, hb₂, h⟩ := Except.bind_eq_ok h
      cases h
      have hg := addDestinationPredicates_spec hwf hb₁
      exact hg.trans (ih hg.wellFormed hb₂)

/-- Finishing adds destinations to the profiles and leaves the rest of them alone. -/
theorem finishProfiles_spec {destinations : List (BitVec 32 × List DestinationFragment)}
    {profiles profiles' : List RoutingProfile}
    {compiled : List (Nat × List DestinationPredicate)} (hwf : WellFormed env.lim ifindexOf b)
    (h : finishProfiles env destinations profiles compiled b = .ok (profiles', b')) :
    Grows env.lim ifindexOf b b' ∧ List.Forall₂
      (fun profile profile' => profile' = { profile with destination := profile'.destination })
      profiles profiles' := by
  induction profiles generalizing b compiled profiles' with
  | nil =>
    cases h
    exact ⟨Grows.refl hwf, .nil⟩
  | cons profile rest ih =>
    obtain ⟨⟨predicates, done, b₁⟩, hb₁, h⟩ := Except.bind_eq_ok h
    obtain ⟨⟨more, b₂⟩, hb₂, h⟩ := Except.bind_eq_ok h
    cases h
    have hg := finishFragments_spec hwf hb₁
    obtain ⟨hg', hmore⟩ := ih hg.wellFormed hb₂
    exact ⟨hg.trans hg', .cons rfl hmore⟩

/-- What a successful compilation leaves.  `b₀` is the builder after the last profile, and
`b₁` the finished one before the jumps are filled in. -/
structure Compiled (env : CompileEnv) (ifindexOf : String → BitVec 32)
    (outbounds : String → Option (BitVec 8)) (p : PreparedRules)
    (b₀ b₁ b : RoutingMatcherBuilder) : Prop where
  ok : BuilderOK env ifindexOf (lastNamed RoutingRuleSet.name p.routing.ruleSets) p b₀
  outbounds_eq : b₀.outboundName2Id = outbounds
  names : b₀.profiles.map (·.name) =
    selectedPolicies p.routing.defaultPolicy p.routing.interfaces
  grows : Extends ifindexOf b₀ b₁
  wellFormed : WellFormed env.lim ifindexOf b₁
  encoded : encodeRoutingJumps env.lim b₁.rules = .ok b.rules
  final : b = { b₁ with rules := b.rules }
  profiles : List.Forall₂
    (fun profile profile' => profile' = { profile with destination := profile'.destination })
    b₀.profiles b.profiles
  programEnd : b.programEnd = b₀.rules.length
  kernelLpmLen : b.kernelLpmLen = b₀.simulatedLpmTries.length
  fits : b.programEnd ≤ env.lim.maxMatchSetLen
  validated : ∀ profile ∈ b.profiles, validateRoutingBlocks b.rules profile.spans = .ok ()

theorem validateProfiles_spec {text : GoText} {rules : List MatchSet}
    {profiles : List RoutingProfile} (h : validateProfiles text rules profiles = .ok ()) :
    ∀ profile ∈ profiles, validateRoutingBlocks rules profile.spans = .ok () := by
  induction profiles with
  | nil => exact fun _ hx => absurd hx List.not_mem_nil
  | cons profile rest ih =>
    obtain ⟨_, hfirst, h⟩ := Except.bind_eq_ok h
    intro x hx
    rcases List.mem_cons.mp hx with rfl | hx
    · exact Except.mapError_eq_ok hfirst
    · exact ih h x hx

/-- **Every profile of a compiled routing** has its program. -/
theorem compileRouting_spec {outbounds : String → Option (BitVec 8)}
    (ifindexOf : String → BitVec 32) (h : compileRouting env fuel outbounds p = .ok b) :
    ∃ b₀ b₁, Compiled env ifindexOf outbounds p b₀ b₁ b := by
  obtain ⟨kinds, -, h⟩ := Except.bind_eq_ok h
  obtain ⟨c₁, hc₁, h⟩ := Except.bind_eq_ok h
  obtain ⟨c₂, hc₂, h⟩ := Except.bind_eq_ok h
  have hfresh : WellFormed env.lim ifindexOf { outboundName2Id := outbounds } :=
    ⟨fun _ hx => absurd hx List.not_mem_nil, Nat.zero_le _, fun _ _ hx => absurd hx List.not_mem_nil,
      fun _ hx => absurd hx List.not_mem_nil, fun _ hx => absurd hx List.not_mem_nil, Nat.le_refl 0⟩
  obtain ⟨hg₁, hshared, hc₁eq⟩ := compileShared_spec hfresh hc₁
  have hresolved : c₁.resolved = [] := congrArg RoutingCompiler.resolved hc₁eq
  have hflows : c₁.flows = [] := congrArg RoutingCompiler.flows hc₁eq
  have hend : c₁.flowEnd = emptySpan := congrArg RoutingCompiler.flowEnd hc₁eq
  have hprofiles : c₁.builder.profiles = [] := hg₁.same.profiles
  have hfallbacks : c₁.builder.fallbackSpans = [] := hg₁.same.fallbackSpans
  have hok₁ : CompilerOK env ifindexOf (lastNamed RoutingRuleSet.name p.routing.ruleSets) p c₁ := by
    refine ⟨congrArg RoutingCompiler.sets hc₁eq, ⟨hg₁.wellFormed, ?_, ?_⟩, ⟨hg₁.wellFormed, ?_⟩,
      ⟨hg₁.wellFormed, ?_⟩, hshared, .inl ?_⟩
    · rw [hfallbacks]
      exact fun _ _ hx => absurd hx List.not_mem_nil
    · rw [hprofiles]
      exact fun _ hx => absurd hx List.not_mem_nil
    · rw [hresolved]
      exact fun _ _ hx => absurd hx List.not_mem_nil
    · rw [hflows]
      exact fun _ _ hx => absurd hx List.not_mem_nil
    · rw [hend]
      rfl
  -- The default profile is set before the profiles are added.
  have hdefault : SamePool c₁.builder { c₁.builder with defaultProfileID := 1 } :=
    ⟨rfl, rfl, rfl, rfl, rfl, rfl, rfl⟩
  have hok₁' := hok₁.extend
    (hok₁.builder.set hdefault hok₁.builder.fallbacks hok₁.builder.profiles) hdefault.extends
  obtain ⟨c₃, hc₃, hc₂⟩ := Except.bind_eq_ok hc₂
  obtain ⟨_, -, hc₂⟩ := Except.bind_eq_ok hc₂
  obtain ⟨_, -, hc₂⟩ := Except.bind_eq_ok hc₂
  cases hc₂
  obtain ⟨hok₂, he₂, hnames⟩ := addProfiles_spec hok₁' hc₃
  obtain ⟨⟨profiles, b₂⟩, hb₂, h⟩ := Except.bind_eq_ok h
  have hfinish : SamePool c₂.builder { c₂.builder with
      programEnd := c₂.builder.rules.length
      kernelLpmLen := c₂.builder.simulatedLpmTries.length } :=
    ⟨rfl, rfl, rfl, rfl, rfl, rfl, rfl⟩
  obtain ⟨hg, hsame⟩ := finishProfiles_spec (hfinish.wellFormed hok₂.builder.wellFormed) hb₂
  have hlast : SamePool b₂ { b₂ with profiles } := ⟨rfl, rfl, rfl, rfl, rfl, rfl, rfl⟩
  unfold RoutingMatcherBuilder.validate at h
  obtain ⟨hend, h⟩ := Except.ite_error_eq_ok h
  obtain ⟨-, h⟩ := Except.ite_error_eq_ok h
  obtain ⟨-, h⟩ := Except.ite_error_eq_ok h
  obtain ⟨rules, hrules, h⟩ := Except.bind_eq_ok h
  obtain ⟨_, hvalid, h⟩ := Except.bind_eq_ok h
  cases h
  refine ⟨c₂.builder, { b₂ with profiles }, hok₂.builder, ?_, ?_,
    (hfinish.extends.trans hg.extends).trans hlast.extends, hlast.wellFormed hg.wellFormed, hrules,
    rfl, hsame, hg.same.programEnd, hg.same.kernelLpmLen, Nat.le_of_not_lt hend,
    validateProfiles_spec hvalid⟩
  · rw [he₂.outbounds]
    exact hg₁.extends.outbounds
  · rw [hnames]
    show c₁.builder.profiles.map _ ++ _ = _
    rw [hprofiles]
    rfl

end Profiles

end Dae
