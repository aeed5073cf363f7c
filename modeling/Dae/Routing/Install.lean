import Dae.Routing.Profile
import Dae.Routing.Lockstep

/-!
# Installed programs

`BuildKernspace` and `BuildUserspace` hand a compiled routing to the two
interpreters: the kernel gets the pool up to the end of the routing programs, the
tries that these use, and every profile as the list of its steps; userspace gets the
pool, the tries and the spans.
-/

namespace Dae

open RuleMachine

/-- `encodeRoutingProfiles`, for one profile. -/
def encodeRoutingProfile (profile : RoutingProfile) : ProfileValue where
  length := spanExecutionLen profile.spans
  steps := (expand profile.spans).map (BitVec.ofNat 16)

variable {lim : Limits}

/-- What `BuildKernspace` has put in the maps. -/
structure KernelTables (ifindexOf : String → BitVec 32) (b : RoutingMatcherBuilder)
    (maps : RoutingMaps lim) : Prop where
  pool : ∀ i < b.programEnd, (b.loaded ifindexOf)[i]? = some (maps.routingMap i)
  lpm : ∀ i < b.kernelLpmLen, (maps.lpmArrayMap (BitVec.ofNat 32 i)).isSome
  profiles : ∀ profile ∈ b.profiles,
    maps.routingProfileMap profile.id = some (encodeRoutingProfile profile)

/-- What `BuildUserspace` has put in the matcher. -/
structure UserTables (ifindexOf : String → BitVec 32) (b : RoutingMatcherBuilder)
    (m : RoutingMatcher lim) : Prop where
  pool : m.pool = b.loaded ifindexOf
  tries : m.lpmMatcher.length = b.simulatedLpmTries.length

/-! ### Reading a profile -/

section Reading

variable {env : CompileEnv} {ifindexOf : String → BitVec 32}
  {outbounds : String → Option (BitVec 8)} {p : PreparedRules}
  {b₀ b₁ b : RoutingMatcherBuilder}

variable {m : MatchSet}

theorem SameButMark.fields {m' : MatchSet} (h : SameButMark m m') :
    m'.atom = m.atom ∧ m'.action = m.action ∧ m'.flags = m.flags := by
  obtain ⟨mark, rfl, -⟩ := h
  exact ⟨rfl, rfl, rfl⟩

/-- Loading the finished builder fills in the jumps of the loaded pool. -/
theorem Compiled.encoded_loaded (h : Compiled env ifindexOf outbounds p b₀ b₁ b) :
    encodeRoutingJumps env.lim (b₁.loaded ifindexOf) = .ok (b.loaded ifindexOf) := by
  have hload := encodeRoutingJumps_loaded ifindexOf h.wellFormed.patches h.encoded
  have hpatches : b.interfaceRulePatches = b₁.interfaceRulePatches := by
    rw [h.final]
  rw [RoutingMatcherBuilder.loaded, RoutingMatcherBuilder.loaded, hpatches]
  exact hload

/-- An instruction of the routing programs, before and after the jumps. -/
theorem Compiled.read (h : Compiled env ifindexOf outbounds p b₀ b₁ b) {i : Nat}
    (hm : (b₀.loaded ifindexOf)[i]? = some m) :
    ∃ m', (b.loaded ifindexOf)[i]? = some m' ∧ SameButMark m m' := by
  have hm₁ := h.grows.pool.getElem?_eq_some hm
  have hsame := encodeRoutingJumps_same h.encoded_loaded
  obtain ⟨hi, hget⟩ := List.getElem?_eq_some_iff.mp hm₁
  have hi' : i < (b.loaded ifindexOf).length := hsame.length_eq ▸ hi
  refine ⟨(b.loaded ifindexOf)[i], List.getElem?_eq_getElem hi', ?_⟩
  have hrel := hsame.get hi hi'
  rw [List.get_eq_getElem, List.get_eq_getElem] at hrel
  rw [← hget]
  exact hrel

/-- The profiles of the finished builder are those of the compiler. -/
theorem Compiled.profile (h : Compiled env ifindexOf outbounds p b₀ b₁ b) {profile : RoutingProfile}
    (hmem : profile ∈ b.profiles) :
    ∃ policy s, lastNamed RoutingPolicy.name p.routing.policies profile.name = some policy ∧
      ProfileProgram env ifindexOf (lastNamed RoutingRuleSet.name p.routing.ruleSets) p b₀ policy
        profile.spans s := by
  obtain ⟨profile₀, hmem₀, heq⟩ := h.profiles.exists_left hmem
  obtain ⟨policy, s, hpolicy, hs⟩ := h.ok.profiles profile₀ hmem₀
  rw [heq]
  exact ⟨policy, s, hpolicy, hs⟩

/-- The instructions behind the spans of a profile, each with a supported predicate. -/
structure Fetched (env : CompileEnv) (ifindexOf : String → BitVec 32)
    (b : RoutingMatcherBuilder) (spans : List RoutingSpan) (prog : List MatchSet) : Prop where
  map_eq : (expand spans).map ((b.loaded ifindexOf)[·]?) = prog.map some
  index_lt : ∀ i ∈ expand spans, i < b.programEnd
  short : prog.length ≤ env.lim.maxMatchSetLen
  pos : 0 < prog.length
  atoms : ∀ m ∈ prog, AtomOK env.lim b.kernelLpmLen m.atom

variable {spans : List RoutingSpan}

theorem Segments.program_pos {sets : String → Option RoutingRuleSet} {policy : RoutingPolicy}
    {s : Segments}
    (hs : ProfileProgram env ifindexOf sets p b policy spans s) : 0 < s.program.size := by
  obtain ⟨t, -, -, hfallback⟩ := hs.fallback
  have hprogram : s.program = ([s.bypass, s.capture, s.destinations, s.request, s.controls, s.http,
      s.flowEnd, s.early, s.body, s.late].foldl Prog.append .nil).append s.fallback := rfl
  rw [hprogram, Prog.size_append, hfallback, Prog.size]
  have := fallbackCond.size_pos
  omega

/-- **The instructions of a profile.** -/
theorem Compiled.fetch (h : Compiled env ifindexOf outbounds p b₀ b₁ b)
    {sets : String → Option RoutingRuleSet} {policy : RoutingPolicy}
    {s : Segments} (hs : ProfileProgram env ifindexOf sets p b₀ policy spans s) :
    ∃ prog, Fetched env ifindexOf b spans prog := by
  have hlt := hs.lays.lays.index_lt
  have hread : ∀ i ∈ expand spans, ∃ m m', (b₀.loaded ifindexOf)[i]? = some m ∧
      (b.loaded ifindexOf)[i]? = some m' ∧ SameButMark m m' := by
    intro i hi
    have hm := List.getElem?_eq_getElem (hlt i hi)
    obtain ⟨m', hm', hsame⟩ := h.read hm
    exact ⟨_, m', hm, hm', hsame⟩
  obtain ⟨prog, hprog⟩ := List.exists_map_some fun i hi =>
    (hread i hi).elim fun _ hm => hm.imp fun m' hm' => hm'.2.1
  have hlen : prog.length = s.program.size := by
    have := congrArg List.length hprog
    rw [List.length_map, List.length_map, hs.lays.lays.length_eq] at this
    exact this.symm
  refine ⟨prog, hprog, ?_, hlen ▸ hs.short, hlen ▸ Segments.program_pos hs, ?_⟩
  · intro i hi
    rw [h.programEnd, ← b₀.loaded_length ifindexOf]
    exact hlt i hi
  · intro m hm
    have hmem : some m ∈ (expand spans).map ((b.loaded ifindexOf)[·]?) := by
      rw [hprog]
      exact List.mem_map.mpr ⟨m, hm, rfl⟩
    obtain ⟨i, hi, hget⟩ := List.mem_map.mp hmem
    obtain ⟨m₀, m', hm₀, hm', hsame⟩ := hread i hi
    rw [hm', Option.some.injEq] at hget
    rw [h.kernelLpmLen, ← hget, hsame.fields.1]
    exact h.ok.wellFormed.atoms m₀ (List.mem_of_getElem? hm₀)

/-! ### The two interpreters -/

theorem routePredicate_isSome {maps : RoutingMaps env.lim} (hmaps : KernelTables ifindexOf b maps)
    (params : RouteParams) (hm : AtomOK env.lim b.kernelLpmLen m.atom) :
    (routePredicate maps params m).isSome := by
  have hlpm : m.index.toNat < b.kernelLpmLen → ∀ key, (routeMatchLpm maps key m).isSome := by
    intro hlt key
    have := hmaps.lpm _ hlt
    rw [BitVec.ofNat_toNat, BitVec.setWidth_eq] at this
    rw [routeMatchLpm, Option.isSome_map]
    exact this
  have hindex : m.atom.matchSet.index = m.index := rfl
  have htype : m.atom.type = m.type := rfl
  unfold AtomOK at hm
  unfold routePredicate
  cases hty : m.type <;> simp only [htype, hty, hindex] at hm ⊢ <;>
    first
      | rfl
      | exact hlpm hm _
      | skip
  rw [if_neg (by omega)]
  cases maps.domainRoutingMap params.daddr <;> rfl

/-- The profile as the kernel sees it. -/
theorem Fetched.kernelProgram {maps : RoutingMaps env.lim} {profile : RoutingProfile}
    {prog : List MatchSet} (h : Fetched env ifindexOf b profile.spans prog)
    (hmaps : KernelTables ifindexOf b maps) (hend : b.programEnd ≤ env.lim.maxMatchSetLen)
    (params : RouteParams) : KernelProgram maps params (encodeRoutingProfile profile) prog := by
  have hlen : (expand profile.spans).length = prog.length := by
    have := congrArg List.length h.map_eq
    rwa [List.length_map, List.length_map] at this
  refine ⟨?_, h.short, ?_, fun m hm => routePredicate_isSome hmaps params (h.atoms m hm)⟩
  · show spanExecutionLen profile.spans = _
    rw [← expand_length, hlen]
  · intro i m hm
    have hi : i < (expand profile.spans).length := by
      rw [hlen]
      exact (List.getElem?_eq_some_iff.mp hm).1
    have hindex := h.index_lt _ (List.getElem_mem hi)
    have hstep : ((encodeRoutingProfile profile).steps.getD i 0).toNat = (expand profile.spans)[i] := by
      have hle := env.lim.le
      rw [List.getD_eq_getElem?_getD]
      show (((expand profile.spans).map (BitVec.ofNat 16))[i]?.getD 0).toNat = _
      rw [List.getElem?_map, List.getElem?_eq_getElem hi, Option.map_some, Option.getD_some,
        BitVec.toNat_ofNat]
      omega
    have hget : (b.loaded ifindexOf)[(expand profile.spans)[i]]? = some m := by
      have := congrArg (·[i]?) h.map_eq
      simp only [List.getElem?_map, hm, List.getElem?_eq_getElem hi, Option.map_some] at this
      exact Option.some.inj this
    rw [hstep]
    refine ⟨by omega, ?_⟩
    have := hmaps.pool _ hindex
    rw [hget, Option.some.injEq] at this
    exact this.symm

theorem predicate_ok {m : RoutingMatcher env.lim} {lpmLen : Nat} (hlen : lpmLen ≤ m.lpmMatcher.length)
    (input : RoutingInput env.lim) (src dst : Addr) {ins : MatchSet}
    (hins : AtomOK env.lim lpmLen ins.atom) : ∃ t, m.predicate input src dst ins = .ok t := by
  have hlpm : ins.index.toNat < lpmLen → ∀ key, ∃ t, m.hasPrefixIP ins.index.toNat key = .ok t := by
    intro hlt key
    unfold RoutingMatcher.hasPrefixIP
    rw [List.getElem?_eq_getElem (lt_of_lt_of_le hlt hlen)]
    exact ⟨_, rfl⟩
  have hindex : ins.atom.matchSet.index = ins.index := rfl
  have htype : ins.atom.type = ins.type := rfl
  unfold AtomOK at hins
  unfold RoutingMatcher.predicate
  cases hty : ins.type <;> simp only [htype, hty, hindex] at hins ⊢ <;>
    first
      | exact ⟨_, rfl⟩
      | exact hlpm hins _
      | (cases m.httpClientAllowed <;> exact ⟨_, rfl⟩)

/-- The profile as userspace sees it, behind the part that the stage skips. -/
theorem Fetched.userProgram {m : RoutingMatcher env.lim}
    {prog : List MatchSet} (h : Fetched env ifindexOf b spans prog)
    (hm : UserTables ifindexOf b m) (hlpm : b.kernelLpmLen ≤ b.simulatedLpmTries.length)
    {input : RoutingInput env.lim} {start : Nat}
    (hstage : ∀ c, CursorAt spans c → start ≤ c.position → ∀ s, spans[c.span]? = some s →
      ¬(input.stage = .routeAfterTarget ∧ s.phase = .ingress))
    (src dst : Addr) : UserProgram m input src dst spans prog start := by
  refine ⟨?_, hstage, ?_⟩
  · rw [hm.pool]
    exact h.map_eq
  · intro ins hins
    refine predicate_ok ?_ input src dst (h.atoms ins hins)
    rw [hm.tries]
    exact hlpm

end Reading

/-! ### Profiles without reserved targets -/

section Plain

variable {env : CompileEnv} {ifindexOf : String → BitVec 32}
  {outbounds : String → Option (BitVec 8)} {p : PreparedRules}
  {b₀ b₁ b : RoutingMatcherBuilder} {sets : String → Option RoutingRuleSet}
  {policy : RoutingPolicy} {spans : List RoutingSpan} {s : Segments}

/-- A target that is spelled like an internal one. -/
def Function.Reserved (f : Function) : Prop := f.name = logicalOr ∨ f.name = logicalAnd

instance (f : Function) : Decidable f.Reserved :=
  inferInstanceAs (Decidable (f.name = logicalOr ∨ f.name = logicalAnd))

/-- No rule of the profile has a reserved target. -/
structure Unreserved (sets : String → Option RoutingRuleSet) (p : PreparedRules)
    (policy : RoutingPolicy) : Prop where
  shared : ∀ rule ∈ p.bypass ++ p.earlyRoutes ++ p.lateRoutes, ¬rule.outbound.Reserved
  body : ∀ depth rs, inlineStatements (inlineSet sets depth) policy.statements = some rs →
    ∀ g ∈ rs, ¬g.rule.outbound.Reserved
  fallback : ¬policy.fallback.Reserved

variable {text : GoText}

theorem parseOutboundParams_name {params : List Param} {out out' : Outbound}
    (h : parseOutboundParams text params out = .ok out') : out'.name = out.name := by
  induction params generalizing out with
  | nil =>
    cases h
    rfl
  | cons param rest ih =>
    unfold parseOutboundParams at h
    split at h
    · split at h
      · exact (ih h).trans rfl
      · cases h
    · split at h
      · split at h
        · exact (ih h).trans rfl
        · cases h
      · split at h
        · split at h
          · exact (ih h).trans rfl
          · split at h
            · exact (ih h).trans rfl
            · cases h
        · cases h

/-- An unreserved target is a route. -/
theorem TargetMeans.route {target : Function} {not : Bool} {t : Terminal}
    (h : TargetMeans text outbounds target not t) (hres : ¬target.Reserved) : t.action = .route := by
  obtain ⟨out, hout, -, rfl⟩ := h
  have hname : out.name = target.name := parseOutboundParams_name hout
  unfold Function.Reserved at hres
  rw [not_or, ← hname] at hres
  unfold tailTerminal
  rw [if_neg hres.1, if_neg hres.2]

theorem route_of_rules {rs : List GuardedRule} {q : Prog Atom Terminal}
    (h : List.Forall₂ (RuleMeans text ifindexOf b) rs (q.rules []))
    (hres : ∀ g ∈ rs, ¬g.rule.outbound.Reserved) : q.All fun t => t.action = .route := by
  rw [q.all_iff_rules []]
  intro r hr
  obtain ⟨g, hg, hmeans⟩ := h.exists_left hr
  obtain ⟨not, htarget⟩ := hmeans.target
  exact htarget.route (hres g hg)

theorem route_of_bypass {rules : List RoutingRule} {q : Prog Atom Terminal}
    (h : List.Forall₂ (BypassMeans text ifindexOf b) rules (q.rules []))
    (hres : ∀ rule ∈ rules, ¬rule.outbound.Reserved) : q.All fun t => t.action = .route := by
  rw [q.all_iff_rules []]
  intro r hr
  obtain ⟨rule, hrule, t, hmeans, ht⟩ := h.exists_left hr
  obtain ⟨not, htarget⟩ := hmeans.target
  rw [ht, bypassTerminal_action]
  exact htarget.route (hres rule hrule)

/-- The pieces of a profile without reserved targets. -/
structure PlainSegments (s : Segments) : Prop where
  bypass : s.bypass.All fun t => t.action = .route
  early : s.early.All fun t => t.action = .route
  body : s.body.All fun t => t.action = .route
  late : s.late.All fun t => t.action = .route
  fallback : ∃ t, t.action = .route ∧ s.fallback = .rule fallbackCond t .nil

theorem ProfileProgram.plain (h : ProfileProgram env ifindexOf sets p b policy spans s)
    (hres : Unreserved sets p policy) : PlainSegments s := by
  have hshared := hres.shared
  simp only [List.forall_mem_append] at hshared
  obtain ⟨⟨hbypass, hearly⟩, hlate⟩ := hshared
  have hmap : ∀ {rules : List RoutingRule}, (∀ rule ∈ rules, ¬rule.outbound.Reserved) →
      ∀ g ∈ rules.map (GuardedRule.mk []), ¬g.rule.outbound.Reserved := by
    intro rules hrules g hg
    obtain ⟨rule, hrule, rfl⟩ := List.mem_map.mp hg
    exact hrules rule hrule
  obtain ⟨depth, rs, hrs, hbody⟩ := h.body
  obtain ⟨t, htarget, -, hfallback⟩ := h.fallback
  exact ⟨route_of_bypass h.bypass hbypass, route_of_rules h.early (hmap hearly),
    route_of_rules hbody (hres.body depth rs hrs), route_of_rules h.late (hmap hlate),
    t, htarget.route hres.fallback, hfallback⟩

/-- Every tail of such a profile closes its rule. -/
theorem ProfileProgram.closed (h : ProfileProgram env ifindexOf sets p b policy spans s)
    (hplain : PlainSegments s) : s.program.All fun t => ¬t.action.isLogical := by
  have hroute : ∀ t : Terminal, t.action = .route → ¬t.action.isLogical := by
    intro t ht
    rw [ht]
    decide
  have hexit : ∀ t : Terminal, t.CapturesExit → ¬t.action.isLogical := by
    intro t ht
    rw [ht.1]
    decide
  have hcontrol : ∀ t : Terminal, t.Controls → ¬t.action.isLogical := by
    intro t ht
    rcases ht.1 with ht | ht <;> rw [ht] <;> decide
  have hhttp : ∀ t : Terminal, t.Captures captureHTTP → ¬t.action.isLogical := by
    intro t ht
    rw [ht.1]
    decide
  have hend : s.flowEnd.All fun t => ¬t.action.isLogical := by
    rcases h.flowEnd with hend | ⟨hend, -, -⟩
    · rw [hend]
      exact ⟨by decide, trivial⟩
    · rw [hend]
      trivial
  obtain ⟨t, ht, hfallback⟩ := hplain.fallback
  have hlast : s.fallback.All fun t => ¬t.action.isLogical := by
    rw [hfallback]
    exact ⟨hroute t ht, trivial⟩
  have hnil : (Prog.nil : Prog Atom Terminal).All fun t => ¬t.action.isLogical := trivial
  exact ((((((((((hnil.append (hplain.bypass.imp hroute)).append (h.capture.imp hexit)).append
    (h.destinations.imp hexit)).append (h.request.imp hexit)).append (h.controls.imp hcontrol)).append
    (h.http.imp hhttp)).append hend).append (hplain.early.imp hroute)).append
    (hplain.body.imp hroute)).append (hplain.late.imp hroute)).append hlast

/-- The finished profile is the code of its program. -/
theorem Compiled.code (h : Compiled env ifindexOf outbounds p b₀ b₁ b)
    (hs : ProfileProgram env ifindexOf sets p b₀ policy spans s) (hplain : PlainSegments s)
    {prog : List MatchSet} (hprog : Fetched env ifindexOf b spans prog) :
    prog.map MatchSet.ins = s.program.code := by
  obtain ⟨ms, hms, hcode⟩ := (hs.lays.lays.mono h.grows.pool).code h.encoded_loaded
    (hs.closed hplain) hs.short
  have hsome : Function.Injective (some : MatchSet → Option MatchSet) := fun _ _ => Option.some.inj
  rw [List.map_injective_iff.mpr hsome (hprog.map_eq.symm.trans hms)]
  exact hcode

end Plain

end Dae
