import Dae.Routing.Agreement

/-!
# What a policy means

A policy is a list of rules with a fallback, once every `use` is replaced by the rules
of the set it names.  The decision of a policy for a packet is the target of the first
rule that applies and is not skipped for want of a live outbound, and the fallback if
there is none (`policyRoute`).  For an exact input, userspace returns that decision on
the compiled spans of the policy, whatever else the pool holds.

The exception are rules whose target is spelled like an internal one.
-/

namespace Dae

open Kleene RuleMachine

/-! ### The decision of a policy -/

/-- What a target says: an outbound, a mark, and whether it is forced. -/
structure PolicyRoute where
  outbound : BitVec 8
  mark : BitVec 32
  must : Bool
  deriving DecidableEq, Repr

def RoutingEvaluation.route (e : RoutingEvaluation) : PolicyRoute := ⟨e.outbound, e.mark, e.must⟩

section Policy

variable (text : GoText) (outbounds : String → Option (BitVec 8)) (usable : BitVec 8 → Bool)
  (w : World)

/-- The route of a target, and whether it is skipped while its outbound is not alive. -/
def targetRoute (target : Function) : Option (PolicyRoute × Bool) :=
  match parseOutbound text target with
  | .error _ => none
  | .ok out => (outbounds out.name).map fun id => (⟨id, out.mark, out.must⟩, out.skipWhileNoalive)

/-- The conditions around a rule hold, and so does its own. -/
def GuardedRule.holds (g : GuardedRule) : Bool :=
  (g.guards ++ [g.rule.andFunctions]).all (w.predicateHolds text)

/-- The route of the first rule that applies. -/
def firstRoute : List GuardedRule → Option PolicyRoute
  | [] => none
  | g :: rest =>
    match g.holds text w, targetRoute text outbounds g.rule.outbound with
    | true, some (route, skip) =>
      if skip && !usable route.outbound then firstRoute rest else some route
    | _, _ => firstRoute rest

/-- **The decision of a policy**, given its rules after inlining. -/
def policyRoute (rules : List GuardedRule) (fallback : Function) : Option PolicyRoute :=
  (firstRoute text outbounds usable w rules).or ((targetRoute text outbounds fallback).map (·.1))

end Policy

/-! ### Exact inputs -/

/-- The input is exact, and the packet and the tables behind it are those of the world:
every bit that the domain bitmap may have it has, static sets are loaded as compiled,
client sets hold their members, and the bit of a domain set is the answer of its
patterns. -/
structure World.Describes {lim : Limits} (w : World) (b : RoutingMatcherBuilder)
    (m : RoutingMatcher lim) (input : RoutingInput lim) : Prop where
  src : input.src.addr = some w.src
  dst : input.dst.addr = some w.dst
  sport : input.src.port = w.sport
  dport : input.dst.port = w.dport
  l4proto : input.l4proto = w.l4proto
  processName : input.processName = w.processName
  ifindex : input.ifindex = w.ifindex
  physinif : input.physinif = w.physinif
  dscp : input.dscp = w.dscp
  mac : input.mac = w.mac
  bits : ∀ i, bitmapHas (m.loadedBitmap input) i = w.domainBit i
  exact : ∀ i, bitmapHas input.domainBumpBitmap i = true → w.domainBit i = true
  lpm : ∀ i, w.lpm i = (m.lpmMatcher[i]?).getD []
  httpClient : w.httpClient = match m.httpClientAllowed with
    | none => true
    | some allowed => allowed w.src w.mac
  static : ∀ id ∈ b.staticLpmIDs, b.simulatedLpmTries[id]? = some (w.lpm id)
  client : ∀ name slot, (name, slot) ∈ b.clientSetSlots →
    lpmContains (w.lpm slot) (w.mac.setWidth 128) = w.clientHas name
  domain : ∀ i set, b.simulatedDomainSet[i]? = some set →
    w.domainBit i = set.domains.any (w.domainMatches set.key)

/-- **An exact input** has a definite answer to every predicate. -/
theorem World.Describes.predicate {lim : Limits} {w : World} {b : RoutingMatcherBuilder}
    {m : RoutingMatcher lim} {input : RoutingInput lim} (h : w.Describes b m input) (a : Atom) :
    ((m.predicate input w.src w.dst a.matchSet).toOption).getD .miss =
      Truth.ofBool (w.atomHolds a) := by
  have hlpm : ∀ key : BitVec 128, (m.hasPrefixIP a.matchSet.index.toNat key).toOption.getD .miss =
      Truth.ofBool (lpmContains (w.lpm a.matchSet.index.toNat) key) := by
    intro key
    rw [RoutingMatcher.hasPrefixIP, h.lpm]
    cases m.lpmMatcher[a.matchSet.index.toNat]? <;> rfl
  have htype : a.matchSet.type = a.type := rfl
  unfold RoutingMatcher.predicate World.atomHolds
  cases hty : a.type <;> simp only [htype, hty]
  case domainSet =>
      rw [h.bits]
      have hexact := h.exact a.matchSet.index.toNat
      cases hbit : w.domainBit a.matchSet.index.toNat with
      | true => rfl
      | false =>
        rw [hbit] at hexact
        cases hbump : bitmapHas input.domainBumpBitmap a.matchSet.index.toNat with
        | true => cases hexact hbump
        | false => rfl
  case ipSet => exact hlpm _
  case sourceIpSet => exact hlpm _
  case mac =>
      rw [h.mac]
      exact hlpm _
  case httpClient =>
      rw [h.httpClient, h.mac]
      cases m.httpClientAllowed <;> rfl
  case port =>
      rw [h.dport]
      rfl
  case sourcePort =>
      rw [h.sport]
      rfl
  case l4Proto =>
      rw [h.l4proto]
      rfl
  case processName =>
      rw [h.processName]
      rfl
  case ifIndex =>
      rw [h.ifindex, h.physinif]
      rfl
  case dscp =>
      rw [h.dscp]
      rfl
  all_goals rfl

/-! ### Rules in an exact world -/

section Rules

variable {text : GoText} {ifindexOf : String → BitVec 32} {b : RoutingMatcherBuilder} {w : World}

/-- The terminal does what the target says. -/
structure Terminal.Does (t : Terminal) (route : PolicyRoute) (skip : Bool) : Prop where
  action : t.action = .route
  outbound : t.outbound = route.outbound
  mark : t.mark = route.mark
  must : t.has matchFlagMust = route.must
  skip : t.has matchFlagSkipNoalive = skip

theorem TargetMeans.does {outbounds : String → Option (BitVec 8)} {target : Function} {not : Bool}
    {t : Terminal} (h : TargetMeans text outbounds target not t) (hres : ¬target.Reserved) :
    ∃ route skip, targetRoute text outbounds target = some (route, skip) ∧ t.Does route skip := by
  obtain ⟨out, hparse, hknown, rfl⟩ := h
  have hname : out.name = target.name := parseOutboundParams_name hparse
  rw [Function.Reserved, ← hname, not_or] at hres
  obtain ⟨id, hid⟩ := (hknown.resolve_left hres.1).resolve_left hres.2
  refine ⟨⟨id, out.mark, out.must⟩, out.skipWhileNoalive, ?_, ?_⟩
  · rw [targetRoute, hparse]
    show (outbounds out.name).map _ = _
    rw [hid]
    rfl
  · have hmust : ∀ n m s, (routingMatchFlags n m s &&& matchFlagMust != 0) = m := by decide
    have hskip : ∀ n m s, (routingMatchFlags n m s &&& matchFlagSkipNoalive != 0) = s := by decide
    rw [tailTerminal, if_neg hres.1, if_neg hres.2, hid]
    exact ⟨rfl, rfl, rfl, hmust _ _ _, hskip _ _ _⟩

theorem RuleMeans.holds {env : CompileEnv} {g : GuardedRule} {r : List (Cond Atom) × Terminal}
    (h : RuleMeans env.text ifindexOf b g r) (hw : w.ifindexOf = ifindexOf) (hfits : w.Fits b) :
    r.1.all (·.holds w.atomHolds) = g.holds env.text w := by
  unfold GuardedRule.holds
  obtain ⟨hconds, -⟩ := h
  generalize g.guards ++ [g.rule.andFunctions] = fs at hconds ⊢
  generalize r.1 = conds at hconds ⊢
  induction hconds with
  | nil => rfl
  | cons hc _ ih => rw [List.all_cons, List.all_cons, ih, hc.holds hw hfits]

/-- The effect of a terminal in userspace, without doubt and before anything was
collected. -/
theorem applyUser_does (usable : BitVec 8 → Bool) (isdns simulateKernel : Bool) {t : Terminal}
    {route : PolicyRoute} {skip : Bool} (h : t.Does route skip) :
    (skip && !usable route.outbound) = true ∧
        applyUser usable isdns simulateKernel {} t false = .inl {} ∨
      (skip && !usable route.outbound) = false ∧
        ∃ e, applyUser usable isdns simulateKernel {} t false = .inr e ∧ e.route = route := by
  unfold applyUser
  rw [h.action, h.skip, h.outbound]
  cases hskip : skip && !usable route.outbound with
  | true => exact .inl ⟨rfl, rfl⟩
  | false =>
    refine .inr ⟨rfl, _, rfl, ?_⟩
    obtain ⟨outbound, mark, must⟩ := route
    have hout : t.outbound = outbound := h.outbound
    have hmark : t.mark = mark := h.mark
    have hmust : t.has matchFlagMust = must := h.must
    show PolicyRoute.mk t.outbound t.mark (false || t.has matchFlagMust) = _
    rw [hout, hmark, hmust, Bool.false_or]

/-- **Rules in turn** end at the first route, or go on as they began. -/
theorem runRules_firstRoute {env : CompileEnv} (usable : BitVec 8 → Bool)
    (isdns simulateKernel : Bool) {rs : List GuardedRule}
    {rules : List (List (Cond Atom) × Terminal)}
    (h : List.Forall₂ (RuleMeans env.text ifindexOf b) rs rules)
    (hres : ∀ g ∈ rs, ¬g.rule.outbound.Reserved) (hw : w.ifindexOf = ifindexOf)
    (hfits : w.Fits b) :
    firstRoute env.text b.outboundName2Id usable w rs = none ∧
        runRules w.atomHolds (applyUser usable isdns simulateKernel) rules {} = .inl {} ∨
      ∃ route e, firstRoute env.text b.outboundName2Id usable w rs = some route ∧
        runRules w.atomHolds (applyUser usable isdns simulateKernel) rules {} = .inr e ∧
        e.route = route := by
  induction h with
  | nil => exact .inl ⟨rfl, rfl⟩
  | @cons g r rs rules hmeans _ ih =>
    have ih := ih fun g' hg' => hres g' (List.mem_cons_of_mem _ hg')
    obtain ⟨conds, t⟩ := r
    obtain ⟨not, htarget⟩ := hmeans.target
    obtain ⟨route, skip, hroute, hdoes⟩ := htarget.does (hres g List.mem_cons_self)
    have hholds : conds.all (·.holds w.atomHolds) = g.holds env.text w := hmeans.holds hw hfits
    rw [firstRoute, runRules, hholds, hroute]
    cases g.holds env.text w with
    | false => exact ih
    | true =>
      rcases applyUser_does usable isdns simulateKernel hdoes with
        ⟨hskip, happly⟩ | ⟨hskip, e, happly, he⟩
      · simp only [hskip, happly, if_true]
        exact ih
      · simp only [hskip, happly, if_true]
        exact .inr ⟨route, e, rfl, rfl, he⟩

end Rules

/-! ### A whole policy -/

section Meaning

variable {env : CompileEnv} {ifindexOf : String → BitVec 32}
  {outbounds : String → Option (BitVec 8)} {p : PreparedRules} {b : RoutingMatcherBuilder}

/-- The profile is made of the policy alone: there are no flow controls, no captures, and
no programs of the system or of plugins around it. -/
structure PolicyOnly (p : PreparedRules) (policy : RoutingPolicy) : Prop where
  bypass : p.bypass = []
  destinations : p.destinations = []
  earlyRoutes : p.earlyRoutes = []
  lateRoutes : p.lateRoutes = []
  capture : p.capture = none
  rules : policy.rules = []

variable {b₀ : RoutingMatcherBuilder}

theorem Compiled.fits_world {b₁ : RoutingMatcherBuilder} {w : World} {m : RoutingMatcher env.lim}
    {input : RoutingInput env.lim} (h : Compiled env ifindexOf outbounds p b₀ b₁ b)
    (hw : w.Describes b m input) : w.Fits b₀ := by
  have hwf := h.ok.wellFormed
  have hstatics : b.staticLpmIDs = b₁.staticLpmIDs := by rw [h.final]
  have htries : b.simulatedLpmTries = b₁.simulatedLpmTries := by rw [h.final]
  have hclients : b.clientSetSlots = b₁.clientSetSlots := by rw [h.final]
  have hdomains : b.simulatedDomainSet = b₁.simulatedDomainSet := by rw [h.final]
  refine ⟨?_, ?_, ?_, ?_⟩
  · have hslots := hwf.slots
    have hfits := h.fits
    have hle := env.lim.le
    rw [h.programEnd] at hfits
    omega
  · intro id hid
    have hsome := List.getElem?_eq_getElem (hwf.statics id hid)
    have hloaded := hw.static id (hstatics ▸ h.grows.statics.subset hid)
    rw [htries, h.grows.tries.getElem?_eq_some hsome] at hloaded
    rw [hsome, hloaded]
  · intro name slot hslot
    exact hw.client name slot (hclients ▸ h.grows.clients.subset hslot)
  · intro i set hset
    exact hw.domain i set (hdomains ▸ h.grows.domains.getElem?_eq_some hset)

/-- A rule that always holds, in turn with others. -/
theorem runRules_fallback {S R : Type} (w : World) (apply : S → Terminal → Bool → S ⊕ R)
    (t : Terminal) (rest : List (List (Cond Atom) × Terminal)) (s : S) :
    runRules w.atomHolds apply (([fallbackCond], t) :: rest) s =
      andThen (apply s t false) (runRules w.atomHolds apply rest) := rfl

/-- Such a profile has nothing in front of the flow phase. -/
theorem ProfileProgram.ingress_eq {sets : String → Option RoutingRuleSet} {policy : RoutingPolicy}
    {spans : List RoutingSpan} {s : Segments}
    (h : ProfileProgram env ifindexOf sets p b₀ policy spans s) (honly : PolicyOnly p policy) :
    s.ingress = .nil := by
  rw [Segments.ingress, h.noBypass honly.bypass, (h.noRules honly.rules).1,
    h.noDestinations honly.destinations, (h.noCapture honly.capture).1]
  rfl

/-- The rules of a profile that is made of the policy alone; a flow end without controls
does nothing. -/
theorem ProfileProgram.rules_eq {sets : String → Option RoutingRuleSet} {policy : RoutingPolicy}
    {spans : List RoutingSpan} {s : Segments}
    (h : ProfileProgram env ifindexOf sets p b₀ policy spans s) (honly : PolicyOnly p policy) :
    s.program.rules [] = s.flowEnd.rules [] ++ s.body.rules [] ++ s.fallback.rules [] := by
  obtain ⟨hcapture, hcontrols⟩ := h.noRules honly.rules
  obtain ⟨hrequest, hhttp⟩ := h.noCapture honly.capture
  have hearly := h.early
  have hlate := h.late
  rw [honly.earlyRoutes] at hearly
  rw [honly.lateRoutes] at hlate
  simp only [Segments.program, List.foldl_cons, List.foldl_nil, Prog.rules_append,
    h.noBypass honly.bypass, hcapture, h.noDestinations honly.destinations, hrequest, hcontrols,
    hhttp, List.forall₂_nil_left_iff.mp hearly, List.forall₂_nil_left_iff.mp hlate, Prog.rules,
    List.nil_append, List.append_nil]

/-- **The compiled program means what the policy says.** -/
theorem evaluateSpans_meaning {fuel : Nat} (hc : compileRouting env fuel outbounds p = .ok b)
    {profile : RoutingProfile} (hmem : profile ∈ b.profiles) {policy : RoutingPolicy}
    (hpolicy : lastNamed RoutingPolicy.name p.routing.policies profile.name = some policy)
    (honly : PolicyOnly p policy)
    (hres : Unreserved (lastNamed RoutingRuleSet.name p.routing.ruleSets) p policy)
    {m : RoutingMatcher env.lim} (hm : UserTables ifindexOf b m) {input : RoutingInput env.lim}
    {w : World} (hindex : w.ifindexOf = ifindexOf) (hw : w.Describes b m input) :
    ∃ depth rules e,
      inlineStatements (inlineSet (lastNamed RoutingRuleSet.name p.routing.ruleSets) depth)
        policy.statements = some rules ∧
      m.evaluateSpans profile.spans input = .ok e ∧
      policyRoute env.text outbounds (m.usable input w.dst) w rules policy.fallback =
        some e.route := by
  obtain ⟨b₀, b₁, hcompiled⟩ := compileRouting_spec ifindexOf hc
  obtain ⟨policy', s, hpolicy', hs⟩ := hcompiled.profile hmem
  obtain rfl : policy = policy' := Option.some.inj (hpolicy.symm.trans hpolicy')
  have hplain := hs.plain hres
  obtain ⟨prog, hprog⟩ := hcompiled.fetch hs
  obtain ⟨first, hstaged, hfirst⟩ := hs.stages
  rw [hs.ingress_eq honly] at hfirst
  have huser := evaluateSpans_eq_walk hw.src hw.dst
    (hprog.userProgram hm hcompiled.kernelLpmLen_le
      (fun c hc _ span hspan hskip => hstaged.phase_ne hc (hfirst.trans_le (Nat.zero_le _)) hspan
        hskip.2) w.src w.dst)
  -- The walk runs the rules of the policy in turn.
  have hwalker : userWalker m input w.src w.dst input.simulateKernel =
      ⟨fun a => Truth.ofBool (w.atomHolds a),
        applyUser (m.usable input w.dst) (input.dst.port == 53) input.simulateKernel⟩ := by
    unfold userWalker
    rw [funext hw.predicate]
  have hflow : runRules w.atomHolds
      (applyUser (m.usable input w.dst) (input.dst.port == 53) input.simulateKernel)
      (s.flowEnd.rules []) {} = .inl {} := by
    rcases hs.flowEnd with hend | ⟨hend, -, -⟩ <;> rw [hend]
    · cases input.simulateKernel <;> rfl
    · rfl
  rw [hcompiled.code hs hplain hprog, walk_code, hwalker, eval_exact _ _ _ [] _ rfl,
    hs.rules_eq honly, List.append_assoc, runRules_append_inl hflow] at huser
  obtain ⟨depth, rules, hinline, hbody⟩ := hs.body
  have hfits := hcompiled.fits_world hw
  obtain ⟨t, htarget, hnoskip, hfallback⟩ := hs.fallback
  obtain ⟨route, skip, hroute, hdoes⟩ := htarget.does hres.fallback
  rw [hcompiled.outbounds_eq] at hroute
  have hrules := runRules_firstRoute (m.usable input w.dst) (input.dst.port == 53)
    input.simulateKernel hbody (hres.body depth rules hinline) hindex hfits
  rw [hcompiled.outbounds_eq] at hrules
  rcases hrules with ⟨hfirst, hrun⟩ | ⟨first, e, hfirst, hrun, he⟩
  · -- No rule applies, and a fallback is never skipped.
    have hskip : skip = false := hdoes.skip.symm.trans hnoskip
    rcases applyUser_does (m.usable input w.dst) (input.dst.port == 53) input.simulateKernel hdoes
      with ⟨hskipped, -⟩ | ⟨-, e, happly, he⟩
    · rw [hskip] at hskipped
      cases hskipped
    · rw [runRules_append_inl hrun, hfallback, Prog.rules, List.nil_append, runRules_fallback,
        happly] at huser
      refine ⟨depth, rules, e, hinline, huser, ?_⟩
      rw [policyRoute, hfirst, hroute, he]
      rfl
  · rw [runRules_append_inr hrun] at huser
    refine ⟨depth, rules, e, hinline, huser, ?_⟩
    rw [policyRoute, hfirst, he]
    rfl

/-- The world of `sampleInput`, where no domain and no client set is known. -/
def sampleWorld (l4proto : BitVec 8) : World where
  src := sampleSource
  dst := sampleTarget
  sport := 40000
  dport := 443
  l4proto
  processName := 0
  ifindex := 7
  physinif := 0
  dscp := 0
  mac := 0
  domainMatches _ _ := false
  clientHas _ := false
  ifindexOf _ := 0
  domainBit _ := false
  lpm _ := []
  httpClient := false

/-- Tables without sets describe it. -/
theorem sampleWorld_describes {b : RoutingMatcherBuilder} {m : RoutingMatcher sampleEnv.lim}
    {l4proto : BitVec 8} (hstatic : b.staticLpmIDs = []) (hclient : b.clientSetSlots = [])
    (hdomain : b.simulatedDomainSet = []) (hlpm : m.lpmMatcher = [])
    (hhttp : m.httpClientAllowed = some fun _ _ => false) :
    (sampleWorld l4proto).Describes b m { sampleInput with l4proto } := by
  refine ⟨rfl, rfl, rfl, rfl, rfl, rfl, rfl, rfl, rfl, rfl, fun _ => rfl, nofun, ?_, ?_, ?_, ?_, ?_⟩
  · intro i
    rw [hlpm]
    rfl
  · rw [hhttp]
    rfl
  · intro id hid
    rw [hstatic] at hid
    cases hid
  · intro name slot hslot
    rw [hclient] at hslot
    cases hslot
  · intro i set hset
    rw [hdomain] at hset
    cases hset

theorem evaluateSpans_meaning_sample :
    ∃ depth rules e,
      inlineStatements (inlineSet (lastNamed RoutingRuleSet.name []) depth)
        [.rule { andFunctions := [{ name := "l4proto", params := [{ val := "tcp" }] }]
                 outbound := { name := "proxy" } }] = some rules ∧
      sampleMatcher.evaluateSpans [{ first := 0, last := 2 }] sampleInput = .ok e ∧
      policyRoute sampleText sampleOutbounds (sampleMatcher.usable sampleInput sampleTarget)
        (sampleWorld l4ProtoTCP) rules { name := "direct" } = some e.route :=
  evaluateSpans_meaning compile_sample (List.mem_singleton.mpr rfl) rfl
    ⟨rfl, rfl, rfl, rfl, rfl, rfl⟩ unreserved_sample
    (show UserTables (fun _ => 0) sampleBuilder sampleMatcher from ⟨rfl, rfl⟩) rfl
    (sampleWorld_describes rfl rfl rfl rfl rfl)

end Meaning

/-! ### Reserved targets -/

/-- An outbound is named like the internal target. -/
def reservedOutbounds (name : String) : Option (BitVec 8) :=
  if name = "<AND>" then some 3 else sampleOutbounds name

/-- TCP goes to the outbound named `<AND>`, and all of IPv4 to the proxy. -/
def andRules : PreparedRules where
  routing :=
    { policies :=
        [{ name := "main"
           statements :=
             [.rule
               { andFunctions :=
                   [{ name := "l4proto", params := [{ val := "tcp", grammar := isParamKey_empty }] }]
                 outbound := { name := "<AND>", quoted := true } },
               .rule
                { andFunctions :=
                    [{ name := "ipversion", params := [{ val := "4", grammar := isParamKey_empty }] }]
                  outbound := { name := "proxy" } }]
           fallback := { name := "direct" } }]
      defaultPolicy := "main" }

/-- The compiled configuration: the first rule has become a condition of the second. -/
def andBuilder : RoutingMatcherBuilder where
  outboundName2Id := reservedOutbounds
  rules :=
    [{ type := .l4Proto, value := 1, action := .and, mark := 2 },
      { type := .ipVersion, value := 1, outbound := 2 },
      { type := .fallback, outbound := outboundDirect }]
  programEnd := 3
  defaultProfileID := 1
  profiles :=
    [{ id := 1, name := "main", interfaceNames := [], spans := [{ first := 0, last := 3 }] }]
  fallbackSpans := [({ type := .fallback, outbound := outboundDirect }, { first := 2, last := 3 })]

def andMatcher : RoutingMatcher sampleEnv.lim :=
  { sampleMatcher with pool := andBuilder.rules, profiles := [(1, [{ first := 0, last := 3 }])] }

/-- **A reserved target loses the rule after it.**  A UDP packet over IPv4 is for the
second rule, but the first one, which it does not match, skips that rule too. -/
theorem reserved_target_loses_rule :
    let input : RoutingInput sampleEnv.lim := { sampleInput with l4proto := l4ProtoUDP }
    compileRouting sampleEnv 4 reservedOutbounds andRules = .ok andBuilder ∧
    UserTables (fun _ => 0) andBuilder andMatcher ∧
    (sampleWorld l4ProtoUDP).Describes andBuilder andMatcher input ∧
    (inlineStatements (inlineSet (lastNamed RoutingRuleSet.name []) 0)
        [.rule
          { andFunctions := [{ name := "l4proto", params := [{ val := "tcp" }] }]
            outbound := { name := "<AND>", quoted := true } },
         .rule
          { andFunctions := [{ name := "ipversion", params := [{ val := "4" }] }]
            outbound := { name := "proxy" } }]).bind
      (policyRoute sampleText reservedOutbounds (andMatcher.usable input sampleTarget)
        (sampleWorld l4ProtoUDP) · { name := "direct" }) = some ⟨2, 0, false⟩ ∧
    (andMatcher.evaluateSpans [{ first := 0, last := 3 }] input).map (·.route) =
      .ok ⟨outboundDirect, 0, false⟩ :=
  ⟨rfl, ⟨rfl, rfl⟩, sampleWorld_describes rfl rfl rfl rfl rfl, by decide, rfl⟩

end Dae
