import Dae.Lib.RuleJumps
import Dae.Routing.Meaning

/-!
# Compiled programs terminate

A compiled profile is a closed program: its jumps land on the tail of their own clause or
where a rule begins, and its last rule is a fallback that always stops.  So both
interpreters move forward inside the profile until a terminal action ends the walk, in
fewer steps than the profile has instructions, and neither of them ever fails.

This is a property of what the compiler emits; the bounds that the interpreters check at
run time never fail.  A target that is spelled like an internal one takes it away.
-/

namespace Dae

open RuleMachine

/-! ### The states of the two interpreters -/

section States

variable {lim : Limits}

/-- The states that the loop of `evaluateSpans` passes, after so many rounds. -/
inductive EvalReaches (m : RoutingMatcher lim) (p : RoutingInput lim) (src dst : Addr)
    (spans : List RoutingSpan) : Nat → EvalState → Prop
  | start : EvalReaches m p src dst spans 0 { cursor := newRoutingCursor spans }
  | round {n : Nat} {st st' : EvalState} (h : EvalReaches m p src dst spans n st)
      (hstep : m.evaluateStep p src dst p.simulateKernel spans st = .inl st') :
      EvalReaches m p src dst spans (n + 1) st'

/-- A round of userspace moves forward inside the profile, or ends with an evaluation. -/
def EvalInside (length : Nat) (st : EvalState) : EvalStep → Prop
  | .inl st' => st.cursor.position < st'.cursor.position ∧ st'.cursor.position < length
  | .inr result => ∃ e, result = .ok e

/-- The states that the loop of `route` passes, after so many rounds. -/
inductive RouteReaches (maps : RoutingMaps lim) (params : RouteParams) (profile : ProfileValue) :
    Nat → RouteState → Prop
  | start : RouteReaches maps params profile 0 { result := -(BitVec.ofNat 64 efault) }
  | round {n : Nat} {st st' : RouteState} (h : RouteReaches maps params profile n st)
      (hstep : routeStep maps params profile st = (st', .continue)) :
      RouteReaches maps params profile (n + 1) st'

/-- A round of the kernel moves forward inside the profile, or ends with a decision. -/
def RouteInside (length : Nat) (st : RouteState) : RouteState × RouteStepResult → Prop
  | (st', .continue) => st.position < st'.position ∧ st'.position < length
  | (st', .stop) => (routeFinish st').msb = false

/-- The kernel passes the states of its machine. -/
theorem RouteReaches.reaches {maps : RoutingMaps lim} {params : RouteParams}
    {profile : ProfileValue} {prog : List MatchSet} (hk : KernelProgram maps params profile prog)
    {n : Nat} {st : RouteState} (h : RouteReaches maps params profile n st) :
    ∃ s, st = kernelState s ∧
      Reaches (kernelWalker maps params) (prog.map MatchSet.ins) (State.start {}) n s := by
  induction h with
  | start => exact ⟨State.start {}, rfl, .refl⟩
  | @round n st st' _ hstep ih =>
    obtain ⟨s, rfl, hs⟩ := ih
    have hsim := kernelStep_step hk s
    rw [hstep] at hsim
    cases hout : step (kernelWalker maps params) (prog.map MatchSet.ins) s with
    | next s' =>
      rw [hout] at hsim
      obtain ⟨rfl, -⟩ := Prod.mk.inj hsim
      exact ⟨s', rfl, .step hs hout⟩
    | stop r | stuck =>
      rw [hout] at hsim
      cases hsim.1

/-- **The kernel stays inside** a program whose walk has a decision. -/
theorem RouteReaches.inside {maps : RoutingMaps lim} {params : RouteParams}
    {profile : ProfileValue} {prog : List MatchSet} (hk : KernelProgram maps params profile prog)
    {r : RouteDecision × Bool}
    (hwalk : walk (kernelWalker maps params) (prog.map MatchSet.ins) (State.start {}) =
      some (some r))
    {n : Nat} {st : RouteState} (h : RouteReaches maps params profile n st) :
    n ≤ st.position ∧ st.position < profile.length ∧
      RouteInside profile.length st (routeStep maps params profile st) := by
  obtain ⟨s, rfl, hs⟩ := h.reaches hk
  obtain ⟨hwalk', hle, hlt⟩ := hs.of_walk hwalk
  have hlen : (prog.map MatchSet.ins).length = profile.length := by
    rw [List.length_map, hk.length_eq]
  have hsim := kernelStep_step hk s
  refine ⟨(Nat.zero_add n).symm.trans_le hle, hlen ▸ hlt, ?_⟩
  cases hout : step (kernelWalker maps params) (prog.map MatchSet.ins) s with
  | next s' =>
    rw [hout] at hsim
    rw [show routeStep maps params profile (kernelState s) = (kernelState s', .continue) from hsim]
    obtain ⟨-, -, hlt'⟩ := (Reaches.step hs hout).of_walk hwalk
    exact ⟨(step_eq_next hout).1, hlen ▸ hlt'⟩
  | stop r' =>
    rw [walk_eq, hout] at hwalk'
    rw [hout, Option.some.inj hwalk'] at hsim
    obtain ⟨hstop, hfinish⟩ := hsim
    generalize routeStep maps params profile (kernelState s) = o at hstop hfinish ⊢
    obtain ⟨st', res⟩ := o
    cases hstop
    show (routeFinish st').msb = false
    rw [show routeFinish st' = packRouteResult r.1 r.2 from hfinish]
    exact packRouteResult_msb r.1 r.2
  | stuck =>
    rw [walk_eq, hout] at hwalk'
    cases hwalk'

section Userspace

variable {m : RoutingMatcher lim} {p : RoutingInput lim} {src dst : Addr}
  {first rest : List RoutingSpan} {prog : List MatchSet} {start : Nat}

/-- Where userspace is: still in front of `start`, with nothing done, or at a state of the
walk from there on. -/
def UserAt (m : RoutingMatcher lim) (p : RoutingInput lim) (src dst : Addr)
    (spans : List RoutingSpan) (prog : List MatchSet) (start n : Nat) (st : EvalState) : Prop :=
  CursorAt spans st.cursor ∧ n ≤ st.cursor.position ∧
    (st.cursor.position < start ∧ st = { cursor := st.cursor } ∨
      ∃ k s, st.cursor.position = s.position ∧ st = userState st.cursor s ∧
        Reaches (userWalker m p src dst p.simulateKernel) (prog.map MatchSet.ins)
          { State.start {} with position := start } k s)

/-- **One round** of userspace. -/
theorem UserAt.round (hu : UserProgram m p src dst (first ++ rest) prog start)
    (hstart : start = 0 ∨ p.stage = .routeAfterTarget ∧ start = spanExecutionLen first)
    (hfirst : ∀ s ∈ first, s.phase = .ingress) {e : RoutingEvaluation}
    (hwalk : walk (userWalker m p src dst p.simulateKernel) (prog.map MatchSet.ins)
      { State.start {} with position := start } = some e)
    {n : Nat} {st : EvalState} (h : UserAt m p src dst (first ++ rest) prog start n st) :
    st.cursor.position < spanExecutionLen (first ++ rest) ∧
      ((∃ st', m.evaluateStep p src dst p.simulateKernel (first ++ rest) st = .inl st' ∧
          st.cursor.position < st'.cursor.position ∧
          UserAt m p src dst (first ++ rest) prog start (n + 1) st') ∨
        ∃ e, m.evaluateStep p src dst p.simulateKernel (first ++ rest) st = .inr (.ok e)) := by
  have hlen : prog.length = spanExecutionLen (first ++ rest) := by
    have := congrArg List.length hu.fetch
    simpa using this.symm
  obtain ⟨hc, hn, ⟨hlt, hst⟩ | ⟨k, s, hpos, hst, hreach⟩⟩ := h
  · -- Before `start` every span is skipped.
    have hsum := spanExecutionLen_append first rest
    obtain ⟨hstage, rfl⟩ := hstart.resolve_left (by omega)
    refine ⟨by omega, .inl ?_⟩
    obtain ⟨span, -, hspan, -, -, -⟩ := hc.getElem (by omega)
    rcases hc.split hspan with ⟨-, hmem, hlast, hfit⟩ | ⟨hge, -⟩
    · obtain ⟨c', hc', hpos', hstep⟩ := evaluateStep_skip m src dst p.simulateKernel hc hspan hstage
        (hfirst span hmem) (by omega)
      rw [← hst] at hstep
      refine ⟨_, hstep, by show _ < c'.position; omega, hc', by show n + 1 ≤ c'.position; omega, ?_⟩
      rcases Nat.lt_or_ge c'.position (spanExecutionLen first) with h | h
      · exact .inl ⟨h, rfl⟩
      · exact .inr ⟨0, _, by show c'.position = spanExecutionLen first; omega, rfl, .refl⟩
    · omega
  · obtain ⟨hwalk', hle, hlt⟩ := hreach.of_walk hwalk
    rw [List.length_map, hlen] at hlt
    refine ⟨by omega, ?_⟩
    have hsim := userStep_step p.simulateKernel hu hc hpos (by
      have : start + k ≤ s.position := hle
      omega)
    rw [← hst] at hsim
    cases hout : step (userWalker m p src dst p.simulateKernel) (prog.map MatchSet.ins) s with
    | next s' =>
      rw [hout] at hsim
      obtain ⟨c', hc', hpos', hnext⟩ := hsim
      have hmove := (step_eq_next hout).1
      refine .inl ⟨_, hnext, ?_, hc', ?_, .inr ⟨k + 1, s', hpos', rfl, hreach.step hout⟩⟩
      · show st.cursor.position < c'.position
        omega
      · show n + 1 ≤ c'.position
        omega
    | stop r =>
      rw [hout] at hsim
      exact .inr ⟨r, hsim⟩
    | stuck =>
      rw [walk_eq, hout] at hwalk'
      cases hwalk'

/-- **Userspace stays inside** staged spans whose walk has an evaluation: in the ingress
spans that it skips, and behind them in the walk. -/
theorem EvalReaches.inside (hu : UserProgram m p src dst (first ++ rest) prog start)
    (hstart : start = 0 ∨ p.stage = .routeAfterTarget ∧ start = spanExecutionLen first)
    (hfirst : ∀ s ∈ first, s.phase = .ingress) {e : RoutingEvaluation}
    (hwalk : walk (userWalker m p src dst p.simulateKernel) (prog.map MatchSet.ins)
      { State.start {} with position := start } = some e)
    {n : Nat} {st : EvalState} (h : EvalReaches m p src dst (first ++ rest) n st) :
    n ≤ st.cursor.position ∧ st.cursor.position < spanExecutionLen (first ++ rest) ∧
      EvalInside (spanExecutionLen (first ++ rest)) st
        (m.evaluateStep p src dst p.simulateKernel (first ++ rest) st) := by
  have hat : UserAt m p src dst (first ++ rest) prog start n st := by
    induction h with
    | start =>
      obtain ⟨hc, hzero⟩ := cursorAt_new (first ++ rest)
      refine ⟨hc, Nat.zero_le _, ?_⟩
      rcases Nat.eq_zero_or_pos start with hs | hs
      · exact .inr ⟨0, _, hzero.trans hs.symm, rfl, .refl⟩
      · exact .inl ⟨by rw [hzero]; exact hs, rfl⟩
    | round _ hstep ih =>
      rcases (ih.round hu hstart hfirst hwalk).2 with ⟨st', hnext, -, hat⟩ | ⟨e, hstop⟩
      · rw [hstep] at hnext
        cases hnext
        exact hat
      · rw [hstep] at hstop
        cases hstop
  obtain ⟨hlt, hround⟩ := hat.round hu hstart hfirst hwalk
  refine ⟨hat.2.1, hlt, ?_⟩
  rcases hround with ⟨st', hnext, hmove, hat'⟩ | ⟨e, hstop⟩
  · rw [hnext]
    exact ⟨hmove, (hat'.round hu hstart hfirst hwalk).1⟩
  · rw [hstop]
    exact ⟨e, rfl⟩

end Userspace

end States

/-! ### Programs that stop -/

/-- A terminal that the kernel knows. -/
def Terminal.Decides (t : Terminal) : Prop :=
  t.action = .must ∨ t.action = .bump ∨ t.action = .capture ∨ t.action = .flowEnd ∨
    t.action = .route

variable {t : Terminal}

theorem applyKernel_decides (alive : BitVec 8 → Bool) (isdns : Bool)
    (ht : t.Decides) (f : Flow) (doubt : Bool) (r : Option (RouteDecision × Bool))
    (h : applyKernel alive isdns f t doubt = .inr r) : r.isSome = true := by
  unfold applyKernel at h
  rcases ht with ht | ht | ht | ht | ht <;> simp only [ht] at h
  · cases h
  · cases h
  all_goals
    repeat' split at h
    all_goals
      cases h
      try rfl

/-- A fallback route always stops. -/
theorem applyKernel_fallback (alive : BitVec 8 → Bool) (isdns : Bool)
    (hroute : t.action = .route) (hskip : t.has matchFlagSkipNoalive = false) (f : Flow)
    (doubt : Bool) : ∃ r, applyKernel alive isdns f t doubt = .inr (some r) := by
  unfold applyKernel
  rw [hroute]
  simp only [hskip, Bool.false_and]
  cases doubt <;> exact ⟨_, rfl⟩

theorem applyUser_fallback (usable : BitVec 8 → Bool) (isdns sim : Bool)
    (hroute : t.action = .route) (hskip : t.has matchFlagSkipNoalive = false) (f : Flow)
    (doubt : Bool) : ∃ r, applyUser usable isdns sim f t doubt = .inr r := by
  unfold applyUser
  rw [hroute]
  simp only [hskip, Bool.false_and]
  cases doubt <;> exact ⟨_, rfl⟩

/-- **A program that ends in a fallback stops**, with a result of one of its terminals. -/
theorem eval_append_fallback {S R : Type} (w : Walker Atom Terminal S R) (ok : R → Prop)
    {q : Prog Atom Terminal}
    (hq : q.All fun t => ∀ s doubt r, w.apply s t doubt = .inr r → ok r)
    (hpred : w.pred ⟨.fallback, 0⟩ = .hit)
    (ht : ∀ s, ∃ r, w.apply s t false = .inr r ∧ ok r) (s : S) :
    ∃ r, (q.append (.rule fallbackCond t .nil)).eval w false s = .inr r ∧ ok r := by
  rw [Prog.eval_append]
  cases hfirst : q.eval w false s with
  | inr r => exact ⟨r, rfl, Prog.eval_stops hq hfirst⟩
  | inl s' =>
    obtain ⟨r, hr, hok⟩ := ht s'
    exact ⟨r, (eval_fallback hpred t s').trans hr, hok⟩

section Profile

variable {env : CompileEnv} {ifindexOf : String → BitVec 32}
  {outbounds : String → Option (BitVec 8)} {p : PreparedRules} {b : RoutingMatcherBuilder}

/-- The pieces in front of the fallback. -/
def Segments.init (s : Segments) : Prog Atom Terminal :=
  [s.bypass, s.capture, s.destinations, s.request, s.controls, s.http, s.flowEnd, s.early, s.body,
    s.late].foldl Prog.append .nil

/-- The pieces between the ingress phase and the fallback. -/
def Segments.restInit (s : Segments) : Prog Atom Terminal :=
  [s.controls, s.http, s.flowEnd, s.early, s.body, s.late].foldl Prog.append .nil

theorem ProfileProgram.decides {sets : String → Option RoutingRuleSet} {policy : RoutingPolicy}
    {spans : List RoutingSpan} {s : Segments} {b₀ : RoutingMatcherBuilder}
    (h : ProfileProgram env ifindexOf sets p b₀ policy spans s) (hplain : PlainSegments s) :
    s.init.All Terminal.Decides := by
  have hroute : ∀ t : Terminal, t.action = .route → t.Decides := fun t ht => by
    simp [Terminal.Decides, ht]
  have hcapture : ∀ t : Terminal, t.action = .capture → t.Decides := fun t ht => by
    simp [Terminal.Decides, ht]
  have hend : s.flowEnd.All Terminal.Decides := by
    rcases h.flowEnd with hend | ⟨hend, -, -⟩ <;> rw [hend]
    · exact ⟨by simp [Terminal.Decides], trivial⟩
    · trivial
  have hcontrols : s.controls.All Terminal.Decides := h.controls.imp fun t ht => by
    rcases ht.1 with ht | ht <;> simp [Terminal.Decides, ht]
  have hnil : (Prog.nil : Prog Atom Terminal).All Terminal.Decides := trivial
  exact (((((((((hnil.append (hplain.bypass.imp hroute)).append
    (h.capture.imp fun t ht => hcapture t ht.1)).append
    (h.destinations.imp fun t ht => hcapture t ht.1)).append
    (h.request.imp fun t ht => hcapture t ht.1)).append hcontrols).append
    (h.http.imp fun t ht => hcapture t ht.1)).append hend).append
    (hplain.early.imp hroute)).append (hplain.body.imp hroute)).append (hplain.late.imp hroute)

/-- The jump of an instruction of a profile lands on the tail of its own clause, or on the
first instruction of a rule. -/
structure JumpLands (prog : List MatchSet) (i : Nat) (m : MatchSet) : Prop where
  hit : m.action = .or → 0 < m.mark.toNat ∧ i + m.mark.toNat < prog.length ∧
    ClauseTail (prog.map MatchSet.ins) i (i + m.mark.toNat)
  miss : m.action = .and ∨ m.action = .conditionalJump →
    0 < m.mark.toNat ∧ i + m.mark.toNat < prog.length ∧
    RuleStart (prog.map MatchSet.ins) (i + m.mark.toNat)

/-- **The jumps of a profile** land inside it. -/
theorem jumps_land {s : Segments} {prog : List MatchSet} (hplain : PlainSegments s)
    (hcode : prog.map MatchSet.ins = s.program.code) {i : Nat} {m : MatchSet}
    (hi : prog[i]? = some m) : JumpLands prog i m := by
  obtain ⟨t, -, hfallback⟩ := hplain.fallback
  have hsplit : prog.map MatchSet.ins =
      [] ++ s.init.code ++ [⟨⟨.fallback, 0⟩, false, .tail t⟩] := by
    rw [hcode, show s.program = s.init.append s.fallback from rfl, hfallback, Prog.code_append]
    rfl
  have hlen : prog.length = s.init.size + 1 := by
    rw [← List.length_map MatchSet.ins, hsplit]
    simp
  have hins : (prog.map MatchSet.ins)[i]? = some m.ins := by
    rw [List.getElem?_map, hi]
    rfl
  obtain ⟨hlands, -⟩ := s.init.lands [] _ hsplit (.inl rfl)
  rw [List.length_nil, Nat.zero_add] at hlands
  rcases Nat.lt_or_ge i s.init.size with hlt | hge
  · have hland := hlands i m.ins (Nat.zero_le i) hlt hins
    constructor
    · intro hor
      obtain ⟨hpos, hend, htail⟩ := hland.hit _ (op_or hor)
      exact ⟨hpos, by omega, htail⟩
    · intro haction
      have hmiss : m.ins.op.missDistance = m.mark.toNat := (missDistance_op m).trans (if_pos haction)
      have hne : ∀ d, m.ins.op ≠ .or d := by
        intro d
        rcases haction with h | h
        · rw [show m.ins.op = .and m.mark.toNat from op_and h]
          exact nofun
        · rw [show m.ins.op = .block m.mark.toNat from op_conditionalJump h]
          exact nofun
      obtain ⟨hpos, hend, hstart⟩ := hland.miss hne
      rw [hmiss] at hpos hend hstart
      exact ⟨hpos, by omega, hstart⟩
  · -- The last instruction is the fallback, which does not jump.
    have hlast : m.ins.op = .tail t := by
      have hi' : i = s.init.size := by
        have := (List.getElem?_eq_some_iff.mp hi).1
        omega
      rw [hsplit, List.nil_append, hi', ← Prog.code_length s.init, List.getElem?_concat_length] at hins
      rw [← Option.some.inj hins]
    have hop : m.op = .tail t := hlast
    constructor
    · intro hor
      rw [op_or hor] at hop
      cases hop
    · rintro (hand | hcond)
      · rw [op_and hand] at hop
        cases hop
      · rw [op_conditionalJump hcond] at hop
        cases hop

/-- **Compiled programs terminate inside the profile.**  Its jumps land on the tail of
their clause or where a rule begins; from every state that either interpreter passes, the
next position is larger and inside the profile, or the walk ends with a decision; that is
after fewer rounds than there are instructions, of which there are at most
`MaxMatchSetLen`. -/
theorem profile_terminates {fuel : Nat} (hc : compileRouting env fuel outbounds p = .ok b)
    {profile : RoutingProfile} (hmem : profile ∈ b.profiles) {policy : RoutingPolicy}
    (hpolicy : lastNamed RoutingPolicy.name p.routing.policies profile.name = some policy)
    (hres : Unreserved (lastNamed RoutingRuleSet.name p.routing.ruleSets) p policy)
    (ifindexOf : String → BitVec 32) :
    spanExecutionLen profile.spans ≤ env.lim.maxMatchSetLen ∧
    (∃ prog, (expand profile.spans).map ((b.loaded ifindexOf)[·]?) = prog.map some ∧
      ∀ i m, prog[i]? = some m → JumpLands prog i m) ∧
    (∀ (maps : RoutingMaps env.lim) (params : RouteParams), KernelTables ifindexOf b maps →
      (maps.routingInterfaceMap params.ifindex).getD maps.defaultRoutingProfile = profile.id →
      (route maps params).msb = false ∧
      ∀ n st, RouteReaches maps params (encodeRoutingProfile profile) n st →
        n ≤ st.position ∧ st.position < spanExecutionLen profile.spans ∧
        RouteInside (spanExecutionLen profile.spans) st
          (routeStep maps params (encodeRoutingProfile profile) st)) ∧
    (∀ (m : RoutingMatcher env.lim) (input : RoutingInput env.lim) (src dst : Addr),
      UserTables ifindexOf b m → input.src.addr = some src → input.dst.addr = some dst →
      (∃ e, m.evaluateSpans profile.spans input = .ok e) ∧
      ∀ n st, EvalReaches m input src dst profile.spans n st →
        n ≤ st.cursor.position ∧ st.cursor.position < spanExecutionLen profile.spans ∧
        EvalInside (spanExecutionLen profile.spans) st
          (m.evaluateStep input src dst input.simulateKernel profile.spans st)) := by
  obtain ⟨b₀, b₁, hcompiled⟩ := compileRouting_spec ifindexOf hc
  obtain ⟨policy', s, hpolicy', hs⟩ := hcompiled.profile hmem
  obtain rfl : policy = policy' := Option.some.inj (hpolicy.symm.trans hpolicy')
  have hplain := hs.plain hres
  obtain ⟨prog, hprog⟩ := hcompiled.fetch hs
  have hcode := hcompiled.code hs hplain hprog
  have hlen : prog.length = spanExecutionLen profile.spans := by
    have := congrArg List.length hprog.map_eq
    simpa using this.symm
  obtain ⟨t, htarget, hskip, hfallback⟩ := hs.fallback
  have hroute := htarget.route hres.fallback
  have hdecides := hs.decides hplain
  refine ⟨hlen ▸ hprog.short, ⟨prog, hprog.map_eq, fun i m => jumps_land hplain hcode⟩, ?_, ?_⟩
  · intro maps params hmaps hselect
    obtain ⟨r, heval, hok⟩ := eval_append_fallback (kernelWalker maps params)
      (fun r => r.isSome = true)
      (hdecides.imp fun t ht => applyKernel_decides (routeOutboundAlive maps params) params.isdns ht)
      rfl (fun s => by
        obtain ⟨r, hr⟩ := applyKernel_fallback (routeOutboundAlive maps params) params.isdns hroute
          hskip s false
        exact ⟨_, hr, rfl⟩) {}
    obtain ⟨d, rfl⟩ := Option.isSome_iff_exists.mp hok
    have hwalk : walk (kernelWalker maps params) (prog.map MatchSet.ins) (State.start {}) =
        some (some d) := by
      rw [hcode, walk_code, show s.program = s.init.append s.fallback from rfl, hfallback, heval]
      rfl
    have hk := hprog.kernelProgram hmaps hcompiled.fits params
    have hprofile : (encodeRoutingProfile profile).length = spanExecutionLen profile.spans := rfl
    refine ⟨?_, fun n st h => hprofile ▸ h.inside hk hwalk⟩
    rw [route_eq_walk hprog hmaps hcompiled.fits hmem hselect, hwalk]
    exact packRouteResult_msb d.1 d.2
  · intro m input src dst hm hsrc hdst
    obtain ⟨first, ⟨hingress, rest, hspans, hrest⟩, hfirst⟩ := hs.stages
    have hstaged : Staged first profile.spans := ⟨hingress, rest, hspans, hrest⟩
    have hstops : ∀ q, ∃ e, (Prog.append q s.fallback).eval
        (userWalker m input src dst input.simulateKernel) false {} = .inr e := by
      intro q
      rw [hfallback]
      obtain ⟨e, he, -⟩ := eval_append_fallback
        (userWalker m input src dst input.simulateKernel) (fun _ => True)
        (q.all_of_forall fun _ _ _ _ _ => trivial) rfl (fun s => by
          obtain ⟨r, hr⟩ := applyUser_fallback (m.usable input dst) (input.dst.port == 53)
            input.simulateKernel hroute hskip s false
          exact ⟨r, hr, trivial⟩) {}
      exact ⟨e, he⟩
    rw [hspans] at hprog hstaged ⊢
    by_cases hstage : input.stage = .routeAfterTarget
    · -- The walk begins behind the ingress spans.
      have hu : UserProgram m input src dst (first ++ rest) prog (spanExecutionLen first) :=
        hprog.userProgram hm hcompiled.kernelLpmLen_le
          (fun c hc hle span hspan hskip => hstaged.phase_ne hc hle hspan hskip.2) src dst
      obtain ⟨e, he⟩ := hstops s.restInit
      have hwalk : walk (userWalker m input src dst input.simulateKernel) (prog.map MatchSet.ins)
          { State.start {} with position := spanExecutionLen first } = some e := by
        rw [hcode, hfirst, s.program_eq]
        exact walk_code_from _ s.ingress s.rest he
      have hresult := evaluateSpans_eq_walk_from hsrc hdst hu hstage hingress
      rw [hwalk] at hresult
      exact ⟨⟨e, hresult⟩, fun n st h => h.inside hu (.inr ⟨hstage, rfl⟩) hingress hwalk⟩
    · have hu : UserProgram m input src dst (first ++ rest) prog 0 :=
        hprog.userProgram hm hcompiled.kernelLpmLen_le
          (fun _ _ _ _ _ hskip => hstage hskip.1) src dst
      obtain ⟨e, he⟩ := hstops s.init
      have hwalk : walk (userWalker m input src dst input.simulateKernel) (prog.map MatchSet.ins)
          (State.start {}) = some e := by
        rw [hcode, walk_code, show s.program = s.init.append s.fallback from rfl, he]
        rfl
      have hresult := evaluateSpans_eq_walk hsrc hdst hu
      rw [hwalk] at hresult
      exact ⟨⟨e, hresult⟩, fun n st h => h.inside hu (.inl rfl) hingress hwalk⟩

theorem profile_terminates_sample :
    (∃ e, sampleMatcher.evaluateSpans [{ first := 0, last := 2 }] sampleInput = .ok e) ∧
      (route sampleMaps sampleParams).msb = false := by
  obtain ⟨-, -, hkernel, huser⟩ := profile_terminates compile_sample
    (List.mem_singleton.mpr rfl) rfl unreserved_sample (fun _ => 0)
  exact ⟨(huser sampleMatcher sampleInput sampleSource sampleTarget ⟨rfl, rfl⟩ rfl rfl).1,
    (hkernel sampleMaps sampleParams kernelTables_sample rfl).1⟩

end Profile

/-! ### Reserved targets -/

/-- The fallback of the default policy is targeted at `"<OR>"`; another policy follows it in
the pool. -/
def orRules : PreparedRules where
  routing :=
    { policies :=
        [{ name := "main", statements := [], fallback := { name := "<OR>", quoted := true } },
          { name := "lan", statements := [], fallback := { name := "direct" } }]
      interfaces := [{ name := "eth0", policy := "lan" }]
      defaultPolicy := "main" }

/-- The compiled configuration. -/
def orBuilder : RoutingMatcherBuilder where
  outboundName2Id := sampleOutbounds
  rules :=
    [{ type := .fallback, action := .or, mark := 1 },
      { type := .fallback, outbound := outboundDirect }]
  programEnd := 2
  defaultProfileID := 1
  profiles :=
    [{ id := 1, name := "main", interfaceNames := [], spans := [{ first := 0, last := 1 }] },
      { id := 2, name := "lan", interfaceNames := ["eth0"], spans := [{ first := 1, last := 2 }] }]
  fallbackSpans :=
    [({ type := .fallback, action := .or }, { first := 0, last := 1 }),
      ({ type := .fallback, outbound := outboundDirect }, { first := 1, last := 2 })]

def orMaps : RoutingMaps sampleEnv.lim :=
  { sampleMaps with
    routingMap := fun i => (orBuilder.rules[i]?).getD { type := .fallback }
    routingProfileMap := fun id =>
      if id = 1 then some ⟨1, [0]⟩ else if id = 2 then some ⟨1, [1]⟩ else none }

def orMatcher : RoutingMatcher sampleEnv.lim :=
  { sampleMatcher with pool := orBuilder.rules, profiles := [(1, [{ first := 0, last := 1 }])] }

/-- **A reserved fallback is no terminal**: every packet of the profile fails in both
interpreters. -/
theorem reserved_fallback_fails :
    compileRouting sampleEnv 4 sampleOutbounds orRules = .ok orBuilder ∧
    KernelTables (fun _ => 0) orBuilder orMaps ∧ UserTables (fun _ => 0) orBuilder orMatcher ∧
    (route orMaps sampleParams).msb = true ∧
    orMatcher.evaluateSpans [{ first := 0, last := 1 }] sampleInput = .error "no match set hit" := by
  refine ⟨rfl, ⟨?_, fun i hi => absurd hi (Nat.not_lt_zero i), ?_⟩, ⟨rfl, rfl⟩, by decide +kernel, rfl⟩
  · intro i hi
    have hi' : i < 2 := hi
    interval_cases i <;> rfl
  · intro profile hmem
    fin_cases hmem <;> rfl

end Dae
