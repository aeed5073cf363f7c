import Dae.Routing.Agreement

/-!
# Ambiguous domains

A destination address may belong to several names.  The kernel then walks with the
AND and the OR of their bitmaps, and a predicate on which the names differ is only a
`maybe`.  If such a walk commits to an outbound, the walk for each single name
commits to the same one.

The argument follows the pieces of a profile.  Up to the flow controls nothing but
captures and routes can happen, and both hand over under doubt.  Between the controls
and the flow end the two walks may differ in what they have collected (`Tracks`); the
flow end hands over unless they agree again (`Settled`).

A rule whose target is spelled like one of the two internal targets is compiled into
a logical instruction, and then its jumps land where they should not.
-/

namespace Dae

open Kleene RuleMachine

/-! ### Bitmaps -/

section Bitmaps

variable {n : Nat}

/-- The bits that all bitmaps have. -/
def bitsAll (bitmaps : List (BitVec n)) : BitVec n := bitmaps.foldr (· &&& ·) (BitVec.allOnes n)

/-- The bits that some bitmap has. -/
def bitsAny (bitmaps : List (BitVec n)) : BitVec n := bitmaps.foldr (· ||| ·) 0

theorem bitsAll_le {bitmaps : List (BitVec n)} {b : BitVec n} (h : b ∈ bitmaps) (i : Nat)
    (hi : (bitsAll bitmaps).getLsbD i = true) : b.getLsbD i = true := by
  induction bitmaps with
  | nil => cases h
  | cons c rest ih =>
    rw [bitsAll, List.foldr_cons, BitVec.getLsbD_and, Bool.and_eq_true] at hi
    rcases List.mem_cons.mp h with rfl | h
    · exact hi.1
    · exact ih h hi.2

theorem le_bitsAny {bitmaps : List (BitVec n)} {b : BitVec n} (h : b ∈ bitmaps) (i : Nat)
    (hi : b.getLsbD i = true) : (bitsAny bitmaps).getLsbD i = true := by
  induction bitmaps with
  | nil => cases h
  | cons c rest ih =>
    rw [bitsAny, List.foldr_cons, BitVec.getLsbD_or, Bool.or_eq_true]
    rcases List.mem_cons.mp h with rfl | h
    · exact .inl hi
    · exact .inr (ih h)

end Bitmaps

/-! ### One domain value for the destination -/

section Domain

variable {lim : Limits}

/-- The maps with this value for the destination. -/
def RoutingMaps.setDomain (maps : RoutingMaps lim) (daddr : BitVec 128)
    (domain : DomainRouting lim) : RoutingMaps lim :=
  { maps with
    domainRoutingMap := fun addr => if addr = daddr then some domain else maps.domainRoutingMap addr }

theorem KernelTables.setDomain {ifindexOf : String → BitVec 32} {b : RoutingMatcherBuilder}
    {maps : RoutingMaps lim} (h : KernelTables ifindexOf b maps) (daddr : BitVec 128)
    (domain : DomainRouting lim) : KernelTables ifindexOf b (maps.setDomain daddr domain) :=
  ⟨h.pool, h.lpm, h.profiles⟩

/-- The answer of the kernel with this domain value. -/
def domainAnswer (maps : RoutingMaps lim) (params : RouteParams) (domain : DomainRouting lim)
    (a : Atom) : Truth :=
  (routePredicate (maps.setDomain params.daddr domain) params a.matchSet).getD .miss

/-- A predicate reads one bit of the domain value, or nothing of it. -/
theorem domainAnswer_cases (maps : RoutingMaps lim) (params : RouteParams) (a : Atom) :
    (∀ domain, domainAnswer maps params domain a =
      Truth.ofBounds (domain.routing.getLsbD a.matchSet.index.toNat)
        (domain.bump.getLsbD a.matchSet.index.toNat)) ∨
      ∃ x, ∀ domain, domainAnswer maps params domain a = Truth.ofBool x := by
  have hlpm : ∀ key, ∃ x, ∀ domain,
      ((routeMatchLpm (maps.setDomain params.daddr domain) key a.matchSet).getD .miss) =
        Truth.ofBool x := by
    intro key
    cases hlpm : maps.lpmArrayMap a.matchSet.index with
    | none =>
      refine ⟨false, fun domain => ?_⟩
      rw [routeMatchLpm, show (maps.setDomain params.daddr domain).lpmArrayMap a.matchSet.index =
        none from hlpm]
      rfl
    | some lpm =>
      refine ⟨lpmContains lpm key, fun domain => ?_⟩
      rw [routeMatchLpm, show (maps.setDomain params.daddr domain).lpmArrayMap a.matchSet.index =
        some lpm from hlpm]
      rfl
  have htype : a.matchSet.type = a.type := rfl
  unfold domainAnswer routePredicate
  cases hty : a.type <;> simp only [htype, hty]
  case domainSet =>
      left
      intro domain
      by_cases hi : lim.maxMatchSetLen ≤ a.matchSet.index.toNat
      · rw [if_pos hi, BitVec.getLsbD_of_ge _ _ hi, BitVec.getLsbD_of_ge _ _ hi]
        rfl
      · rw [if_neg hi]
        simp [RoutingMaps.setDomain]
  case ipSet => exact .inr (hlpm _)
  case sourceIpSet => exact .inr (hlpm _)
  case mac => exact .inr (hlpm _)
  case httpClient => exact .inr ⟨httpClientAllowed maps.httpClientsMap params, fun _ => rfl⟩
  case fallback => exact .inr ⟨true, fun _ => rfl⟩
  case mustRules => exact .inr ⟨false, fun _ => rfl⟩
  case upstream => exact .inr ⟨false, fun _ => rfl⟩
  case qType => exact .inr ⟨false, fun _ => rfl⟩
  all_goals exact .inr ⟨_, fun _ => rfl⟩

/-- The exact answer for one name. -/
def exactAtom (maps : RoutingMaps lim) (params : RouteParams)
    (bitmap : BitVec lim.maxMatchSetLen) (a : Atom) : Bool :=
  decide (domainAnswer maps params ⟨bitmap, bitmap⟩ a = .hit)

theorem exactAtom_eq (maps : RoutingMaps lim) (params : RouteParams)
    (bitmap : BitVec lim.maxMatchSetLen) (a : Atom) :
    domainAnswer maps params ⟨bitmap, bitmap⟩ a =
      Truth.ofBool (exactAtom maps params bitmap a) := by
  have hbool : ∀ x : Bool, Truth.ofBool x = Truth.ofBool (decide (Truth.ofBool x = .hit)) := by
    decide
  unfold exactAtom
  rcases domainAnswer_cases maps params a with h | ⟨x, h⟩
  · rw [h, Truth.ofBounds_self]
    exact hbool _
  · rw [h]
    exact hbool x

/-- **The ambiguous answer covers** the exact one of every name. -/
theorem domainAnswer_covers (maps : RoutingMaps lim) (params : RouteParams)
    {bitmaps : List (BitVec lim.maxMatchSetLen)} {bitmap : BitVec lim.maxMatchSetLen}
    (h : bitmap ∈ bitmaps) (a : Atom) :
    (domainAnswer maps params ⟨bitsAny bitmaps, bitsAll bitmaps⟩ a).Covers
      (exactAtom maps params bitmap a) := by
  have hhit : ∀ x : Bool, decide (Truth.ofBool x = .hit) = x := by decide
  unfold exactAtom
  rcases domainAnswer_cases maps params a with hbits | ⟨x, hx⟩
  · rw [hbits, hbits, Truth.ofBounds_self, hhit]
    exact Truth.covers_ofBounds (bitsAll_le h _) (le_bitsAny h _)
  · rw [hx, hx, hhit]
    exact Truth.covers_ofBool x

end Domain

/-! ### What the two walks have collected -/

/-- Between the flow controls and the flow end: the walk under doubt (`f`) has
everything that the exact walk (`f'`) has. -/
structure Tracks (f f' : Flow) : Prop where
  must : f.must.Covers (decide (f'.must = .hit))
  definite : f'.must ≠ .maybe
  bump : f'.flowBump = true → f.flowBump = true
  capture : f'.captureFlags ||| f.captureFlags = f.captureFlags
  inside : f.captureFlags &&& captureExit = 0

/-- Elsewhere the two agree on must, and no bump is pending. -/
structure Settled (f f' : Flow) : Prop extends Tracks f f' where
  settled : f.must ≠ .maybe
  noBump : f.flowBump = false

/-- The walk ends in the control plane. -/
def HandsOver (r : Option (RouteDecision × Bool)) : Prop :=
  ∃ d skipped, r = some (d, skipped) ∧ d.outbound = outboundControlPlaneRouting

/-- The exact decision (`d'`) is the one under doubt, with no more captures. -/
def SameRoute (d d' : RouteDecision) : Prop :=
  d'.outbound = d.outbound ∧ d'.mark = d.mark ∧ d'.must = d.must ∧
    d'.captureFlags ||| d.captureFlags = d.captureFlags

def SameEnd (r r' : Option (RouteDecision × Bool)) : Prop :=
  ∃ d skipped d' skipped', r = some (d, skipped) ∧ r' = some (d', skipped') ∧ SameRoute d d'

variable {f f' : Flow}

theorem Settled.must_eq (h : Settled f f') : f'.must = f.must := by
  have hcover := h.must
  have hf := h.settled
  have hf' := h.definite
  generalize f.must = x at hcover hf ⊢
  generalize f'.must = y at hcover hf' ⊢
  revert hcover hf hf'
  cases x <;> cases y <;> simp [Truth.Covers]

theorem Tracks.capture_exit (h : Tracks f f') : f'.captureFlags &&& captureExit = 0 := by
  have hsub := congrArg (· &&& captureExit) h.capture
  have hin := h.inside
  generalize f.captureFlags = x at hsub hin
  generalize f'.captureFlags = y at hsub ⊢
  simp only [BitVec.and_or_distrib_right, hin] at hsub
  simpa using hsub

theorem or_or_of_le {x y : BitVec 8} (z : BitVec 8) (h : y ||| x = x) :
    (y ||| z) ||| (x ||| z) = x ||| z := by
  calc (y ||| z) ||| (x ||| z) = (y ||| x) ||| (z ||| z) := by ac_rfl
    _ = x ||| z := by rw [h, BitVec.or_self]

variable {alive : BitVec 8 → Bool} {isdns : Bool}

theorem commit_sameRoute (h : Settled f f') (t : Terminal) :
    SameRoute (f.commit t isdns) (f'.commit t isdns) := by
  have hmust := h.must_eq
  refine ⟨rfl, rfl, ?_, ?_⟩
  · show (decide (f'.must = .hit) || _) = (decide (f.must = .hit) || _)
    rw [hmust]
  · simp only [Flow.commit, hmust]
    by_cases hdns : (!(decide (f.must = .hit) || t.has matchFlagMust) && isdns &&
        !t.has matchFlagBypass) = true
    · rw [if_pos hdns, if_pos hdns]
      exact or_or_of_le _ h.capture
    · rw [if_neg hdns, if_neg hdns]
      exact h.capture

/-- **Routes** hand over under doubt. -/
theorem cautious_routes :
    Cautious (applyKernel alive isdns) (fun t => t.action = .route) Settled HandsOver SameEnd where
  certain := by
    intro f f' t ht h
    unfold applyKernel
    simp only [ht]
    by_cases hskip : (t.has matchFlagSkipNoalive && !alive t.outbound) = true
    · rw [if_pos hskip, if_pos hskip]
      exact .next { h with }
    · rw [if_neg hskip, if_neg hskip]
      exact .stop ⟨_, _, _, _, rfl, rfl, commit_sameRoute h t⟩
  doubtful := by
    intro f f' t ht h
    unfold applyKernel
    simp only [ht]
    by_cases hskip : (t.has matchFlagSkipNoalive && !alive t.outbound) = true
    · rw [if_pos hskip, if_pos hskip]
      exact .next { h with } { h with }
    · rw [if_neg hskip]
      exact .defer ⟨_, _, rfl, rfl⟩

/-- **Exit captures** hand over at once. -/
theorem cautious_exits :
    Cautious (applyKernel alive isdns) Terminal.CapturesExit Settled HandsOver SameEnd := by
  have hexit : ∀ {f : Flow} {t : Terminal} (doubt : Bool), t.CapturesExit →
      ∃ r, applyKernel alive isdns f t doubt = .inr r ∧ HandsOver r := by
    intro f t doubt ht
    unfold applyKernel
    simp only [ht.1]
    have hne : ((f.captureFlags ||| t.captureFlags) &&& captureExit != 0) = true := by
      rw [bne_iff_ne]
      intro hzero
      rw [BitVec.and_or_distrib_right] at hzero
      exact ht.2.1 (BitVec.or_eq_zero_iff.mp hzero).2
    rw [if_pos hne]
    exact ⟨_, rfl, _, _, rfl, rfl⟩
  constructor <;>
    (intro f f' t ht _
     obtain ⟨r, hr, hover⟩ := hexit (f := f) _ ht
     rw [hr]
     exact .defer hover)

/-- **Controls** are collected; under doubt must becomes a `maybe`. -/
theorem cautious_controls :
    Cautious (applyKernel alive isdns) Terminal.Controls Tracks HandsOver SameEnd where
  certain := by
    intro f f' t ht h
    unfold applyKernel
    rcases ht.1 with ht | ht
    · simp only [ht]
      exact .next ⟨by simp [Truth.Covers], by simp, h.bump, h.capture, h.inside⟩
    · simp only [ht]
      exact .next ⟨h.must, h.definite, fun _ => rfl, h.capture, h.inside⟩
  doubtful := by
    intro f f' t ht h
    unfold applyKernel
    rcases ht.1 with ht | ht
    · simp only [ht, if_true]
      have hcover : ∀ x : Bool, f.must.Covers (decide (f'.must = .hit)) →
          (f.must.or .maybe).Covers (x || decide (f'.must = .hit)) := by
        intro x hx
        generalize decide (f'.must = .hit) = y at hx
        revert hx
        cases f.must <;> cases x <;> cases y <;> simp [Truth.Covers, Truth.or]
      refine .next ⟨?_, h.definite, h.bump, h.capture, h.inside⟩
        ⟨?_, by simp, h.bump, h.capture, h.inside⟩
      · simpa using hcover false h.must
      · simpa using hcover true h.must
    · simp only [ht]
      exact .next ⟨h.must, h.definite, fun _ => rfl, h.capture, h.inside⟩
        ⟨h.must, h.definite, fun _ => rfl, h.capture, h.inside⟩

/-- **HTTP captures** are collected, under doubt as well. -/
theorem cautious_http :
    Cautious (applyKernel alive isdns) (Terminal.Captures captureHTTP) Tracks HandsOver SameEnd := by
  have hinside : ∀ {x : BitVec 8} {t : Terminal}, t.Captures captureHTTP →
      x &&& captureExit = 0 → (x ||| t.captureFlags) &&& captureExit = 0 := by
    intro x t ht hx
    rw [ht.2.1, BitVec.and_or_distrib_right, hx]
    decide
  have hstep : ∀ {f : Flow} {t : Terminal} (doubt : Bool), t.Captures captureHTTP →
      f.captureFlags &&& captureExit = 0 → applyKernel alive isdns f t doubt =
        .inl { f with captureFlags := f.captureFlags ||| t.captureFlags } := by
    intro f t doubt ht hf
    unfold applyKernel
    simp only [ht.1]
    rw [if_neg]
    rw [hinside ht hf]
    decide
  constructor
  · intro f f' t ht h
    rw [hstep false ht h.inside, hstep false ht h.capture_exit]
    exact .next ⟨h.must, h.definite, h.bump, or_or_of_le _ h.capture, hinside ht h.inside⟩
  · intro f f' t ht h
    rw [hstep true ht h.inside, hstep false ht h.capture_exit]
    refine .next ⟨h.must, h.definite, h.bump, ?_, hinside ht h.inside⟩
      ⟨h.must, h.definite, h.bump, or_or_of_le _ h.capture, hinside ht h.inside⟩
    rw [← BitVec.or_assoc, h.capture]

/-- **The flow end** hands over unless the two walks agree again. -/
theorem flowEnd_settles (alive : BitVec 8 → Bool) (isdns : Bool) (h : Tracks f f') :
    Covered Settled HandsOver SameEnd
      (applyKernel alive isdns f { action := .flowEnd } false)
      (applyKernel alive isdns f' { action := .flowEnd } false) := by
  unfold applyKernel
  by_cases hend : (f.flowBump || decide (f.must = .maybe)) = true
  · simp only [hend, if_true]
    exact .defer ⟨_, _, rfl, rfl⟩
  · rw [Bool.not_eq_true, Bool.or_eq_false_iff, decide_eq_false_iff_not] at hend
    have hbump : f'.flowBump = false := by
      cases hb : f'.flowBump with
      | false => rfl
      | true => exact absurd (h.bump hb) (by rw [hend.1]; decide)
    have hleft : (f.flowBump || decide (f.must = .maybe)) = false := by
      simp [hend.1, hend.2]
    have hright : (f'.flowBump || decide (f'.must = .maybe)) = false := by
      simp [hbump, h.definite]
    simp only [hleft, hright, Bool.false_eq_true, if_false]
    exact .next ⟨h, hend.2, hend.1⟩

/-! ### A whole profile -/

section Profile

variable {env : CompileEnv} {ifindexOf : String → BitVec 32}
  {outbounds : String → Option (BitVec 8)} {p : PreparedRules} {b : RoutingMatcherBuilder}

/-- **Piece by piece**, the walk under doubt hands over or tracks the exact one. -/
theorem program_covered (alive : BitVec 8 → Bool) (isdns : Bool)
    {sets : String → Option RoutingRuleSet} {policy : RoutingPolicy} {spans : List RoutingSpan} {s : Segments}
    (h : ProfileProgram env ifindexOf sets p b policy spans s) (hplain : PlainSegments s)
    {pred : Atom → Truth} {world : Atom → Bool} (hcov : ∀ a, (pred a).Covers (world a))
    (hpred : pred ⟨.fallback, 0⟩ = .hit) (hworld : world ⟨.fallback, 0⟩ = true) :
    Covered Settled HandsOver SameEnd
      (s.program.eval ⟨pred, applyKernel alive isdns⟩ false {})
      (s.program.eval ⟨fun a => Truth.ofBool (world a), applyKernel alive isdns⟩ false {}) := by
  have hstart : Settled {} {} :=
    ⟨⟨⟨nofun, fun _ => rfl⟩, nofun, fun h => h, rfl, by decide⟩, nofun, rfl⟩
  have hworld' : Truth.ofBool (world ⟨.fallback, 0⟩) = .hit := by
    rw [hworld]
    rfl
  obtain ⟨t, ht, hfallback⟩ := hplain.fallback
  have hpiece : ∀ {Q : Terminal → Prop} {R : Flow → Flow → Prop},
      Cautious (applyKernel alive isdns) Q R HandsOver SameEnd →
      ∀ {q : Prog Atom Terminal}, q.All Q → ∀ f f', R f f' → Covered R HandsOver SameEnd
        (q.eval ⟨pred, applyKernel alive isdns⟩ false f)
        (q.eval ⟨fun a => Truth.ofBool (world a), applyKernel alive isdns⟩ false f') :=
    fun hcautious _ hq f f' hf => eval_covers hcautious hcov _ f f' hq hf
  have hroutes := @hpiece _ _ cautious_routes
  have hexits := @hpiece _ _ cautious_exits
  -- The controls and HTTP captures may drift apart, up to the flow end.
  have hflow : ∀ f f', Settled f f' → Covered Settled HandsOver SameEnd
      (andThen (andThen (s.controls.eval ⟨pred, applyKernel alive isdns⟩ false f)
        (s.http.eval ⟨pred, applyKernel alive isdns⟩ false))
        (s.flowEnd.eval ⟨pred, applyKernel alive isdns⟩ false))
      (andThen (andThen (s.controls.eval ⟨fun a => Truth.ofBool (world a), applyKernel alive isdns⟩
        false f') (s.http.eval ⟨fun a => Truth.ofBool (world a), applyKernel alive isdns⟩ false))
        (s.flowEnd.eval ⟨fun a => Truth.ofBool (world a), applyKernel alive isdns⟩ false)) := by
    intro f f' hf
    rcases h.flowEnd with hend | ⟨hend, hcontrols, hhttp⟩
    · refine ((hpiece cautious_controls h.controls f f' hf.toTracks).andThen
        (hpiece cautious_http h.http)).andThen fun g g' hg => ?_
      rw [hend, flowEndProg, eval_fallback hpred, eval_fallback hworld']
      exact flowEnd_settles alive isdns hg
    · rw [hend, hcontrols, hhttp]
      exact .next hf
  have hlast : s.fallback.All fun t => t.action = .route := by
    rw [hfallback]
    exact ⟨ht, trivial⟩
  have hall := ((((((((Covered.next hstart).andThen (hroutes hplain.bypass)).andThen
    (hexits h.capture)).andThen (hexits h.destinations)).andThen (hexits h.request)).andThen
    hflow).andThen (hroutes hplain.early)).andThen (hroutes hplain.body)).andThen
    (hroutes hplain.late) |>.andThen (hroutes hlast)
  simp only [Segments.program, List.foldl_cons, List.foldl_nil, Prog.eval_append]
  simp only [andThen_assoc] at hall ⊢
  exact hall

/-- **Soundness of the walk under doubt.**  If the walk with the AND and the OR of the
bitmaps commits to an outbound, the walk with each bitmap commits to the same one, and
its captures are among those under doubt. -/
theorem route_covers {fuel : Nat} (hc : compileRouting env fuel outbounds p = .ok b)
    {profile : RoutingProfile} (hmem : profile ∈ b.profiles) {policy : RoutingPolicy}
    (hpolicy : lastNamed RoutingPolicy.name p.routing.policies profile.name = some policy)
    (hres : Unreserved (lastNamed RoutingRuleSet.name p.routing.ruleSets) p policy)
    {maps : RoutingMaps env.lim} (hmaps : KernelTables ifindexOf b maps) {params : RouteParams}
    (hselect : (maps.routingInterfaceMap params.ifindex).getD maps.defaultRoutingProfile =
      profile.id)
    {bitmaps : List (BitVec env.lim.maxMatchSetLen)} {bitmap : BitVec env.lim.maxMatchSetLen}
    (hbitmap : bitmap ∈ bitmaps) {result exact : BitVec 64}
    (hresult : result =
      route (maps.setDomain params.daddr ⟨bitsAny bitmaps, bitsAll bitmaps⟩) params)
    (hexact : exact = route (maps.setDomain params.daddr ⟨bitmap, bitmap⟩) params)
    (hok : result.msb = false)
    (hcommits : (decodeRouteResult result).outbound ≠ outboundControlPlaneRouting) :
    exact.msb = false ∧ SameRoute (decodeRouteResult result) (decodeRouteResult exact) := by
  obtain ⟨b₀, b₁, hcompiled⟩ := compileRouting_spec ifindexOf hc
  obtain ⟨policy', s, hpolicy', hs⟩ := hcompiled.profile hmem
  obtain rfl : policy = policy' := Option.some.inj (hpolicy.symm.trans hpolicy')
  have hplain := hs.plain hres
  obtain ⟨prog, hprog⟩ := hcompiled.fetch hs
  have hcode := hcompiled.code hs hplain hprog
  -- Both walks run the same program; only the answers about domains differ.
  have hroute : ∀ domain, route (maps.setDomain params.daddr domain) params =
      kernelResult ((s.program.eval ⟨domainAnswer maps params domain,
        applyKernel (routeOutboundAlive maps params) params.isdns⟩ false {}).getRight?) := by
    intro domain
    rw [route_eq_walk hprog (hmaps.setDomain params.daddr domain) hcompiled.fits hmem hselect, hcode,
      walk_code]
    rfl
  have hcovered := program_covered (routeOutboundAlive maps params) params.isdns hs hplain
    (domainAnswer_covers maps params hbitmap) rfl rfl
  rw [hroute] at hresult hexact
  have hanswer : domainAnswer maps params ⟨bitmap, bitmap⟩ =
      fun a => Truth.ofBool (exactAtom maps params bitmap a) :=
    funext (exactAtom_eq maps params bitmap)
  rw [hanswer] at hexact
  generalize s.program.eval ⟨domainAnswer maps params ⟨bitsAny bitmaps, bitsAll bitmaps⟩,
    applyKernel (routeOutboundAlive maps params) params.isdns⟩ false {} = o at hcovered hresult
  generalize s.program.eval ⟨fun a => Truth.ofBool (exactAtom maps params bitmap a),
    applyKernel (routeOutboundAlive maps params) params.isdns⟩ false {} = o' at hcovered hexact
  cases hcovered with
  | defer h =>
    obtain ⟨d, skipped, rfl, hd⟩ := h
    rw [hresult] at hcommits
    rw [show kernelResult (Sum.inr (some (d, skipped))).getRight? = packRouteResult d skipped from rfl,
      decode_pack] at hcommits
    exact absurd hd hcommits
  | next _ =>
    have herror : (kernelResult none).msb = true := by decide
    have hnone : result.msb = true := by rw [hresult]; exact herror
    rw [hnone] at hok
    cases hok
  | stop h =>
    obtain ⟨d, skipped, d', skipped', rfl, rfl, hsame⟩ := h
    rw [hresult, hexact]
    refine ⟨packRouteResult_msb d' skipped', ?_⟩
    show SameRoute (decodeRouteResult (packRouteResult d skipped))
      (decodeRouteResult (packRouteResult d' skipped'))
    rw [decode_pack, decode_pack]
    exact hsame

end Profile

theorem route_covers_sample :
    SameRoute
      (decodeRouteResult (route (sampleMaps.setDomain sampleParams.daddr
        ⟨bitsAny [0, 1], bitsAll [0, 1]⟩) sampleParams))
      (decodeRouteResult (route (sampleMaps.setDomain sampleParams.daddr ⟨1, 1⟩) sampleParams)) :=
  (route_covers compile_sample (List.mem_singleton.mpr rfl) rfl unreserved_sample
    kernelTables_sample rfl (List.mem_cons_of_mem _ (List.mem_singleton.mpr rfl)) rfl rfl
    (by decide) (by decide)).2

/-! ### Reserved targets -/

/-- A rule set whose only rule is targeted at `"<AND>"`, used in front of two other
rules.  It is compiled once, and its jump over the rest of its rule spans the rule that
happens to follow it in the pool. -/
def reservedRules : PreparedRules where
  routing :=
    { ruleSets :=
        [{ name := "names"
           statements :=
             [.rule
               { andFunctions :=
                   [{ name := "domain"
                      params := [{ key := "full", val := "a", grammar := isParamKey_full }] }]
                 outbound := { name := "<AND>", quoted := true } }] }]
      policies :=
        [{ name := "main"
           statements :=
             [.use "names" [],
               .rule
                 { andFunctions :=
                     [{ name := "l4proto", params := [{ val := "udp", grammar := isParamKey_empty }] }]
                   outbound := { name := "block" } },
               .use "names" [],
               .rule
                 { andFunctions :=
                     [{ name := "ipversion", params := [{ val := "6", grammar := isParamKey_empty }] },
                       { name := "l4proto", params := [{ val := "tcp", grammar := isParamKey_empty }] }]
                   outbound := { name := "direct" } }]
           fallback := { name := "block" } }]
      defaultPolicy := "main" }

/-- The compiled configuration: the jump of the rule set, at the first place of the pool,
spans two places. -/
def reservedBuilder : RoutingMatcherBuilder where
  outboundName2Id := sampleOutbounds
  rules :=
    [{ type := .domainSet, action := .and, mark := 2 },
      { type := .l4Proto, value := 2, outbound := outboundBlock },
      { type := .ipVersion, value := 2, action := .and, mark := 2 },
      { type := .l4Proto, value := 1, outbound := outboundDirect },
      { type := .fallback, outbound := outboundBlock }]
  programEnd := 5
  defaultProfileID := 1
  simulatedDomainSet := [{ key := "full", domains := ["a"] }]
  profiles :=
    [{ id := 1, name := "main", interfaceNames := [],
       spans := [{ first := 0, last := 2 }, { first := 0, last := 1 }, { first := 2, last := 5 }] }]
  fallbackSpans := [({ type := .fallback, outbound := outboundBlock }, { first := 4, last := 5 })]

/-- The kernel maps of the compiled configuration. -/
def reservedMaps : RoutingMaps sampleEnv.lim :=
  { sampleMaps with
    routingMap := fun i => (reservedBuilder.rules[i]?).getD { type := .fallback }
    routingProfileMap := fun id => if id = 1 then some ⟨6, [0, 1, 0, 2, 3, 4]⟩ else none }

theorem compile_reserved :
    compileRouting sampleEnv 8 sampleOutbounds reservedRules = .ok reservedBuilder := rfl

/-- **A reserved target commits a wrong route.**  Under doubt about the domain the walk
blocks the packet, while the destination's name that is not in the set sends it out
directly: its miss jumps into the second condition of the rule behind the use. -/
theorem reserved_target_commits_wrong :
    compileRouting sampleEnv 8 sampleOutbounds reservedRules = .ok reservedBuilder ∧
    KernelTables (fun _ => 0) reservedBuilder reservedMaps ∧
    (let result := route (reservedMaps.setDomain sampleParams.daddr
        ⟨bitsAny [0, 1], bitsAll [0, 1]⟩) sampleParams
     let exact := route (reservedMaps.setDomain sampleParams.daddr ⟨0, 0⟩) sampleParams
     result.msb = false ∧ (decodeRouteResult result).outbound = outboundBlock ∧
       exact.msb = false ∧ (decodeRouteResult exact).outbound = outboundDirect) := by
  refine ⟨compile_reserved, ⟨?_, fun i hi => absurd hi (Nat.not_lt_zero i), ?_⟩, ?_⟩
  · intro i hi
    have hi' : i < 5 := hi
    interval_cases i <;> rfl
  · intro profile hmem
    rw [List.mem_singleton.mp hmem]
    rfl
  · decide +kernel

end Dae
