import Dae.Routing.Install

/-!
# Kernel and userspace agree

For a packet that both interpreters describe in the same way, with the same tables
behind them, every profile of a compiled routing takes both to the same decision.
Their early exits are computed by different code; the order in which profiles are
laid out makes them agree, since a capture that leaves at once always comes before
the first must control (`phaseOrdered_of_profile`).
-/

namespace Dae

open RuleMachine

section Phases

variable {pool : List MatchSet} {is : List Nat}

variable {q : Prog Atom Terminal}

/-- A spliced program can be cut where the pieces meet. -/
theorem Lays.split {r : Prog Atom Terminal} (h : Lays pool is (q.append r)) :
    ∃ is₁ is₂, is = is₁ ++ is₂ ∧ Lays pool is₁ q ∧ Lays pool is₂ r := by
  induction q generalizing is with
  | nil => exact ⟨[], is, rfl, .nil, h⟩
  | rule p t rest ih =>
    cases h with
    | rule chunk hnot plain tail =>
      obtain ⟨is₁, is₂, rfl, h₁, h₂⟩ := ih tail
      exact ⟨_, is₂, (List.append_assoc _ _ _).symm, .rule chunk hnot plain h₁, h₂⟩
  | block p body rest _ ih =>
    cases h with
    | block chunk hnot entry jump inner tail =>
      obtain ⟨is₁, is₂, rfl, h₁, h₂⟩ := ih tail
      exact ⟨_, is₂, (List.append_assoc _ _ _).symm, .block chunk hnot entry jump inner h₁, h₂⟩

/-- The instructions of the later pieces, when all their terminals are alike. -/
theorem Lays.split_foldl {ok : Terminal → Prop} {qs : List (Prog Atom Terminal)}
    (hqs : ∀ r ∈ qs, r.All ok) (h : Lays pool is (qs.foldl Prog.append q)) :
    ∃ is₁ is₂, is = is₁ ++ is₂ ∧ Lays pool is₁ q ∧ ∀ i ∈ is₂, ∃ m, pool[i]? = some m ∧
      (m.action = .or ∨ m.action = .and ∨ m.action = .conditionalJump ∨ ok m.terminal) := by
  induction qs generalizing q with
  | nil => exact ⟨is, [], (List.append_nil _).symm, h, fun i hi => absurd hi List.not_mem_nil⟩
  | cons r rest ih =>
    obtain ⟨is', is₃, rfl, h', hrest⟩ := ih (fun x hx => hqs x (List.mem_cons_of_mem _ hx)) h
    obtain ⟨is₁, is₂, rfl, h₁, h₂⟩ := h'.split
    refine ⟨is₁, is₂ ++ is₃, List.append_assoc _ _ _, h₁, ?_⟩
    intro i hi
    rcases List.mem_append.mp hi with hi | hi
    · exact h₂.action (hqs r List.mem_cons_self) i hi
    · exact hrest i hi

/-- A terminal before the flow controls. -/
def Terminal.Early (t : Terminal) : Prop :=
  t.action ≠ .must ∧ t.action ≠ .matchHit ∧ t.action ≠ .miss

/-- A terminal from the flow controls on. -/
def Terminal.Late (t : Terminal) : Prop :=
  (t.action = .capture → t.captureFlags &&& captureExit = 0) ∧ t.action ≠ .matchHit ∧
    t.action ≠ .miss

variable {t : Terminal}

theorem Terminal.Routes.early (h : t.Routes) : t.Early := by
  rcases h with h | h | h <;> simp [Terminal.Early, h]

theorem Terminal.Routes.late (h : t.Routes) : t.Late := by
  rcases h with h | h | h <;> simp [Terminal.Late, h]

theorem Terminal.CapturesExit.early (h : t.CapturesExit) : t.Early := by
  simp [Terminal.Early, h.1]

theorem Terminal.Controls.late (h : t.Controls) : t.Late := by
  rcases h.1 with h | h <;> simp [Terminal.Late, h]

theorem captures_http_late (h : t.Captures captureHTTP) : t.Late := by
  refine ⟨fun _ => ?_, ?_, ?_⟩
  · rw [h.2.1]
    decide
  · rw [h.1]
    decide
  · rw [h.1]
    decide

variable {env : CompileEnv} {ifindexOf : String → BitVec 32}
  {outbounds : String → Option (BitVec 8)} {p : PreparedRules}
  {b₀ b₁ b : RoutingMatcherBuilder}

theorem routes_of_rules {text : GoText} {rs : List GuardedRule}
    (h : List.Forall₂ (RuleMeans text ifindexOf b) rs (q.rules [])) : q.All Terminal.Routes := by
  rw [q.all_iff_rules []]
  intro r hr
  obtain ⟨g, -, hg⟩ := h.exists_left hr
  exact hg.routes

theorem routes_of_bypass {text : GoText} {rules : List RoutingRule}
    (h : List.Forall₂ (BypassMeans text ifindexOf b) rules (q.rules [])) :
    q.All Terminal.Routes := by
  rw [q.all_iff_rules []]
  intro r hr
  obtain ⟨rule, -, t, hrule, ht⟩ := h.exists_left hr
  have hroutes := hrule.routes
  unfold Terminal.Routes at hroutes ⊢
  rw [ht, bypassTerminal_action]
  exact hroutes

/-- The pieces before the flow controls, and the pieces from there on. -/
theorem ProfileProgram.phases {sets : String → Option RoutingRuleSet} {policy : RoutingPolicy}
    {spans : List RoutingSpan} {s : Segments}
    (h : ProfileProgram env ifindexOf sets p b policy spans s) :
    (∀ q ∈ [s.bypass, s.capture, s.destinations, s.request], q.All Terminal.Early) ∧
      ∀ q ∈ [s.controls, s.http, s.flowEnd, s.early, s.body, s.late, s.fallback],
        q.All Terminal.Late := by
  obtain ⟨depth, rs, -, hbody⟩ := h.body
  obtain ⟨t, ⟨out, -, -, ht⟩, -, hfallback⟩ := h.fallback
  have hend : s.flowEnd.All Terminal.Late := by
    rcases h.flowEnd with hend | ⟨hend, -, -⟩
    · rw [hend]
      exact ⟨⟨nofun, nofun, nofun⟩, trivial⟩
    · rw [hend]
      trivial
  constructor
  · simp only [List.forall_mem_cons, List.not_mem_nil, false_implies, implies_true, and_true]
    exact ⟨(routes_of_bypass h.bypass).imp fun _ ht => ht.early,
      h.capture.imp fun _ ht => ht.early, h.destinations.imp fun _ ht => ht.early,
      h.request.imp fun _ ht => ht.early⟩
  · simp only [List.forall_mem_cons, List.not_mem_nil, false_implies, implies_true, and_true]
    refine ⟨h.controls.imp fun _ ht => ht.late, h.http.imp fun _ ht => captures_http_late ht, hend,
      (routes_of_rules h.early).imp fun _ ht => ht.late,
      (routes_of_rules hbody).imp fun _ ht => ht.late,
      (routes_of_rules h.late).imp fun _ ht => ht.late, ?_⟩
    rw [hfallback, ht]
    exact ⟨(tailTerminal_spec _ _ _).2.late, trivial⟩

/-- The finished instructions have the actions and the flags of the compiled ones. -/
theorem Compiled.read_all (h : Compiled env ifindexOf outbounds p b₀ b₁ b) {ok : Terminal → Prop}
    {js : List Nat} {ms : List MatchSet}
    (hjs : ∀ i ∈ js, ∃ m, (b₀.loaded ifindexOf)[i]? = some m ∧
      (m.action = .or ∨ m.action = .and ∨ m.action = .conditionalJump ∨ ok m.terminal))
    (hmap : js.map ((b.loaded ifindexOf)[·]?) = ms.map some) :
    ∀ m' ∈ ms, ∃ m, SameButMark m m' ∧
      (m.action = .or ∨ m.action = .and ∨ m.action = .conditionalJump ∨ ok m.terminal) := by
  intro m' hm'
  have hmem : some m' ∈ js.map ((b.loaded ifindexOf)[·]?) := by
    rw [hmap]
    exact List.mem_map.mpr ⟨m', hm', rfl⟩
  obtain ⟨i, hi, hget⟩ := List.mem_map.mp hmem
  obtain ⟨m, hm, haction⟩ := hjs i hi
  obtain ⟨m'', hm'', hsame⟩ := h.read hm
  rw [hm'', Option.some.injEq] at hget
  exact ⟨m, hget ▸ hsame, haction⟩

/-- **Phase order**: captures that leave come first, must controls later. -/
theorem phaseOrdered_of_profile (h : Compiled env ifindexOf outbounds p b₀ b₁ b)
    {sets : String → Option RoutingRuleSet} {policy : RoutingPolicy} {spans : List RoutingSpan}
    {s : Segments} (hs : ProfileProgram env ifindexOf sets p b₀ policy spans s)
    {prog : List MatchSet} (hprog : Fetched env ifindexOf b spans prog) : PhaseOrdered prog := by
  obtain ⟨hearly, hlate⟩ := hs.phases
  have hlays : Lays (b₀.loaded ifindexOf) (expand spans)
      ([s.controls, s.http, s.flowEnd, s.early, s.body, s.late, s.fallback].foldl Prog.append
        ([s.bypass, s.capture, s.destinations, s.request].foldl Prog.append .nil)) := hs.lays.lays
  obtain ⟨is₁, is₂, his, hfirst, hrest⟩ := hlays.split_foldl hlate
  obtain ⟨is₀, is₁', his₁, hnil, hingress⟩ := hfirst.split_foldl hearly
  cases hnil
  have hmap := hprog.map_eq
  rw [his, his₁, List.nil_append, List.map_append] at hmap
  obtain ⟨ingress, rest, rfl, hmap₁, hmap₂⟩ := List.map_eq_append_iff.mp hmap.symm
  have hing := h.read_all hingress hmap₁.symm
  have hres := h.read_all hrest hmap₂.symm
  refine ⟨⟨ingress, rest, rfl, ?_, ?_⟩, ?_⟩
  · intro m' hm'
    obtain ⟨m, hsame, hm⟩ := hing m' hm'
    rw [hsame.fields.2.1]
    rcases hm with hm | hm | hm | hm
    · simp [hm]
    · simp [hm]
    · simp [hm]
    · exact hm.1
  · intro m' hm' hcapture
    obtain ⟨m, hsame, hm⟩ := hres m' hm'
    obtain ⟨-, haction, hflags⟩ := hsame.fields
    rw [haction] at hcapture
    rw [MatchSet.captureFlags, hflags]
    rcases hm with hm | hm | hm | hm
    · rw [hm] at hcapture
      cases hcapture
    · rw [hm] at hcapture
      cases hcapture
    · rw [hm] at hcapture
      cases hcapture
    · exact hm.1 hcapture
  · intro m' hm'
    rcases List.mem_append.mp hm' with hm' | hm'
    · obtain ⟨m, hsame, hm⟩ := hing m' hm'
      rw [hsame.fields.2.1]
      rcases hm with hm | hm | hm | hm
      · simp [hm]
      · simp [hm]
      · simp [hm]
      · exact hm.2
    · obtain ⟨m, hsame, hm⟩ := hres m' hm'
      rw [hsame.fields.2.1]
      rcases hm with hm | hm | hm | hm
      · simp [hm]
      · simp [hm]
      · simp [hm]
      · exact hm.2

end Phases

/-! ### The same packet -/

section Packet

variable {lim : Limits}

/-- Both interpreters describe the same packet. -/
structure SamePacket (params : RouteParams) (input : RoutingInput lim) (src dst : Addr) : Prop where
  src_eq : input.src.addr = some src
  dst_eq : input.dst.addr = some dst
  saddr : params.saddr = src.as16
  daddr : params.daddr = dst.as16
  sport : params.sport = input.src.port
  dport : params.dport = input.dst.port
  l4proto : params.l4protoType = input.l4proto
  ipversion : params.ipversionType = ipVersionFromAddr dst
  mac : params.mac = input.mac
  dscp : params.dscp = input.dscp
  ifindex : params.ifindex = input.ifindex
  physinif : params.physinif = input.physinif
  pname : params.pname = input.processName
  hasPname : params.hasPname = (input.processName.setWidth 8 != 0)
  isdns : params.isdns = (input.dst.port == 53)
  kernel : input.kernel = true
  stage : input.stage = .routeFromIngress

/-- The tables behind both interpreters give the same answers. -/
structure SameTables (lpmLen : Nat) (maps : RoutingMaps lim) (params : RouteParams)
    (m : RoutingMatcher lim) (input : RoutingInput lim) (src dst : Addr) : Prop where
  lpm : ∀ i < lpmLen, maps.lpmArrayMap (BitVec.ofNat 32 i) = m.lpmMatcher[i]?
  domain : match maps.domainRoutingMap params.daddr with
    | none => input.domainBitmap = none ∧ input.domainBumpBitmap = none ∧ input.domain = ""
    | some domain =>
      input.domainBitmap = some domain.routing ∧ input.domainBumpBitmap = some domain.bump
  client : httpClientAllowed maps.httpClientsMap params =
    match m.httpClientAllowed with
    | none => true
    | some allowed => allowed src input.mac
  alive : routeOutboundAlive maps params = m.usable input dst

/-- **One predicate** has the same answer on both sides. -/
theorem predicate_agrees {lpmLen : Nat} {maps : RoutingMaps lim} {params : RouteParams}
    {m : RoutingMatcher lim} {input : RoutingInput lim} {src dst : Addr}
    (hp : SamePacket params input src dst) (ht : SameTables lpmLen maps params m input src dst)
    {ins : MatchSet} (hins : AtomOK lim lpmLen ins.atom) :
    routePredicate maps params ins = (m.predicate input src dst ins).toOption := by
  have hlpm : ins.index.toNat < lpmLen → ∀ key, routeMatchLpm maps key ins =
      (m.hasPrefixIP ins.index.toNat key).toOption := by
    intro hlt key
    have hsame := ht.lpm _ hlt
    rw [BitVec.ofNat_toNat, BitVec.setWidth_eq] at hsame
    rw [routeMatchLpm, RoutingMatcher.hasPrefixIP, hsame]
    cases m.lpmMatcher[ins.index.toNat]? <;> rfl
  have hindex : ins.atom.matchSet.index = ins.index := rfl
  have htype : ins.atom.type = ins.type := rfl
  unfold AtomOK at hins
  unfold routePredicate RoutingMatcher.predicate
  cases hty : ins.type <;> simp only [htype, hty, hindex] at hins ⊢
  case domainSet =>
      rw [if_neg (by omega)]
      have hdomain := ht.domain
      cases hd : maps.domainRoutingMap params.daddr with
      | none =>
        simp only [hd] at hdomain
        obtain ⟨hrouting, hbump, hname⟩ := hdomain
        have hloaded : m.loadedBitmap input = none := by
          simp [RoutingMatcher.loadedBitmap, hrouting, hname]
        rw [hloaded, hbump]
        rfl
      | some domain =>
        simp only [hd] at hdomain
        obtain ⟨hrouting, hbump⟩ := hdomain
        have hloaded : m.loadedBitmap input = some domain.routing := by
          simp [RoutingMatcher.loadedBitmap, hrouting]
        rw [hloaded, hbump]
        rfl
  case ipSet =>
      rw [hp.daddr]
      exact hlpm hins _
  case sourceIpSet =>
      rw [hp.saddr]
      exact hlpm hins _
  case mac =>
      rw [hp.mac]
      exact hlpm hins _
  case httpClient =>
      rw [ht.client]
      cases m.httpClientAllowed <;> rfl
  case port =>
      rw [hp.dport]
      rfl
  case sourcePort =>
      rw [hp.sport]
      rfl
  case l4Proto =>
      rw [hp.l4proto]
      rfl
  case ipVersion =>
      rw [hp.ipversion]
      rfl
  case processName =>
      rw [hp.hasPname, hp.pname]
      rfl
  case ifIndex =>
      rw [hp.ifindex, hp.physinif]
      rfl
  case dscp =>
      rw [hp.dscp]
      rfl
  case fallback => rfl

/-- The result word of the kernel says what userspace returns. -/
def Agrees (word : BitVec 64) : Except String RoutingEvaluation → Prop
  | .ok e => word.msb = false ∧
      decodeRouteResult word = ⟨e.outbound, e.mark, e.must, e.captureFlags⟩
  | .error _ => word.msb = true

end Packet

/-! ### Agreement -/

section Agreement

variable {env : CompileEnv} {ifindexOf : String → BitVec 32}
  {outbounds : String → Option (BitVec 8)} {p : PreparedRules}
  {b₀ b₁ b : RoutingMatcherBuilder}

/-- `route` on a profile that was installed. -/
theorem route_eq_walk {maps : RoutingMaps env.lim} {params : RouteParams} {profile : RoutingProfile}
    {prog : List MatchSet} (hprog : Fetched env ifindexOf b profile.spans prog)
    (hmaps : KernelTables ifindexOf b maps) (hend : b.programEnd ≤ env.lim.maxMatchSetLen)
    (hmem : profile ∈ b.profiles)
    (hselect : (maps.routingInterfaceMap params.ifindex).getD maps.defaultRoutingProfile =
      profile.id) :
    route maps params =
      kernelResult (walk (kernelWalker maps params) (prog.map MatchSet.ins) (State.start {})) := by
  have hkernel := hprog.kernelProgram hmaps hend params
  have hlen := hkernel.length_eq
  have hpos := hprog.pos
  have hle := hprog.short
  have hloop := routeLoop_eq_walk hkernel env.lim.maxMatchSetLen (State.start {})
    (Nat.le_trans (Nat.sub_le _ _) hle)
  rw [← hloop]
  unfold route
  simp only [hselect, hmaps.profiles profile hmem]
  rw [if_neg (by omega)]
  rfl

theorem Compiled.kernelLpmLen_le (h : Compiled env ifindexOf outbounds p b₀ b₁ b) :
    b.kernelLpmLen ≤ b.simulatedLpmTries.length := by
  have htries : b.simulatedLpmTries = b₁.simulatedLpmTries := by rw [h.final]
  rw [h.kernelLpmLen, htries]
  exact h.grows.tries.length_le

/-- **Kernel and userspace agree** on every profile of a compiled routing. -/
theorem route_agrees {fuel : Nat} (hc : compileRouting env fuel outbounds p = .ok b)
    {profile : RoutingProfile} (hmem : profile ∈ b.profiles)
    {maps : RoutingMaps env.lim} (hmaps : KernelTables ifindexOf b maps)
    {m : RoutingMatcher env.lim} (hm : UserTables ifindexOf b m)
    {params : RouteParams} {input : RoutingInput env.lim} {src dst : Addr}
    (hselect : (maps.routingInterfaceMap params.ifindex).getD maps.defaultRoutingProfile =
      profile.id)
    (hpacket : SamePacket params input src dst)
    (htables : SameTables b.kernelLpmLen maps params m input src dst) :
    Agrees (route maps params) (m.evaluateSpans profile.spans input) := by
  obtain ⟨b₀, b₁, hcompiled⟩ := compileRouting_spec ifindexOf hc
  obtain ⟨policy, s, -, hs⟩ := hcompiled.profile hmem
  obtain ⟨prog, hprog⟩ := hcompiled.fetch hs
  have huser := evaluateSpans_eq_walk hpacket.src_eq hpacket.dst_eq
    (hprog.userProgram hm hcompiled.kernelLpmLen_le
      (fun _ _ _ _ _ hskip => by rw [hpacket.stage] at hskip; cases hskip.1) src dst)
  have hsim : input.simulateKernel = true := by
    simp [RoutingInput.simulateKernel, hpacket.kernel, hpacket.stage]
  have hwalk := walks_agree (phaseOrdered_of_profile hcompiled hs hprog)
    (fun ins hins => congrArg (Option.getD · .miss)
      (predicate_agrees hpacket htables (hprog.atoms ins hins)))
    htables.alive hpacket.isdns
  rw [route_eq_walk hprog hmaps hcompiled.fits hmem hselect]
  rw [hsim] at huser
  generalize walk (kernelWalker maps params) (prog.map MatchSet.ins) (State.start {}) = k at hwalk ⊢
  generalize walk (userWalker m input src dst true) (prog.map MatchSet.ins) (State.start {}) = u
    at hwalk huser
  cases hwalk with
  | none =>
    obtain ⟨err, herr⟩ := huser
    rw [herr]
    show (-(BitVec.ofNat 64 eperm)).msb = true
    decide
  | some h =>
    obtain ⟨d, skipped, rfl, rfl⟩ := h
    rw [show m.evaluateSpans profile.spans input = .ok d.evaluation from huser]
    exact ⟨packRouteResult_msb d skipped, decode_pack d skipped⟩

end Agreement

/-! ### A small configuration -/

/-- Text functions that no rule below calls. -/
def sampleText : GoText where
  quote s := s
  parsePrefix _ := .error "prefix"
  parseAddr _ := .error "address"
  parseAddrPort _ := .error "address"
  addrString _ _ := ""
  atoi _ := .error "number"
  parseUint _ _ := .error "number"
  parseBool _ := .error "bool"
  decodeHex _ := .error "hex"
  toLower s := s
  isSpace c := c == ' '
  isControl _ := false
  quoteMeta s := s
  comparePrefix _ _ := .eq

def sampleEnv : CompileEnv where
  lim := .standard
  text := sampleText
  validateSet _ _ := .ok ()

def sampleOutbounds (name : String) : Option (BitVec 8) :=
  if name = "direct" then some outboundDirect
  else if name = "block" then some outboundBlock
  else if name = "proxy" then some 2
  else none

/-- TCP goes to the proxy, everything else is direct. -/
def sampleRules : PreparedRules where
  routing :=
    { policies :=
        [{ name := "main"
           statements :=
             [.rule
               { andFunctions :=
                   [{ name := "l4proto", params := [{ val := "tcp", grammar := isParamKey_empty }] }]
                 outbound := { name := "proxy" } }]
           fallback := { name := "direct" } }]
      defaultPolicy := "main" }

/-- The compiled configuration. -/
def sampleBuilder : RoutingMatcherBuilder where
  outboundName2Id := sampleOutbounds
  rules :=
    [{ type := .l4Proto, value := 1, outbound := 2 },
      { type := .fallback, outbound := outboundDirect }]
  programEnd := 2
  defaultProfileID := 1
  profiles := [{ id := 1, name := "main", interfaceNames := [], spans := [{ first := 0, last := 2 }] }]
  fallbackSpans := [({ type := .fallback, outbound := outboundDirect }, { first := 1, last := 2 })]

theorem compile_sample : compileRouting sampleEnv 4 sampleOutbounds sampleRules = .ok sampleBuilder :=
  rfl

/-- The kernel maps of the compiled configuration, without domains or clients. -/
def sampleMaps : RoutingMaps sampleEnv.lim where
  routingMap i := (sampleBuilder.rules[i]?).getD { type := .fallback }
  routingInterfaceMap _ := none
  defaultRoutingProfile := 1
  routingProfileMap id := if id = 1 then some ⟨2, [0, 1]⟩ else none
  lpmArrayMap _ := none
  domainRoutingMap _ := none
  httpClientsMap := some []
  outboundConnectivityMap _ := some 0

def sampleMatcher : RoutingMatcher sampleEnv.lim where
  pool := sampleBuilder.rules
  lpmMatcher := []
  profiles := [(1, [{ first := 0, last := 2 }])]
  defaultProfileID := 1
  matchDomainBitmap _ := 0
  httpClientAllowed := some fun _ _ => false
  outboundUsable := none

def sampleSource : Addr := .v4 0x0a000001
def sampleTarget : Addr := .v4 0x0a000002

/-- A TCP packet to port 443. -/
def sampleParams : RouteParams where
  saddr := sampleSource.as16
  daddr := sampleTarget.as16
  pname := 0
  ifindex := 7
  physinif := 0
  sport := 40000
  dport := 443
  mac := 0
  l4protoType := l4ProtoTCP
  ipversionType := ipVersion4
  dscp := 0
  isdns := false
  hasPname := false

def sampleInput : RoutingInput sampleEnv.lim where
  src := ⟨some sampleSource, 40000⟩
  dst := ⟨some sampleTarget, 443⟩
  l4proto := l4ProtoTCP
  ifindex := 7
  kernel := true

theorem kernelTables_sample : KernelTables (fun _ => 0) sampleBuilder sampleMaps := by
  refine ⟨?_, fun i hi => absurd hi (Nat.not_lt_zero i), ?_⟩
  · intro i hi
    have hi' : i = 0 ∨ i = 1 := by
      have : i < 2 := hi
      omega
    rcases hi' with rfl | rfl <;> rfl
  · intro profile hmem
    rw [List.mem_singleton.mp hmem]
    rfl

theorem unreserved_sample :
    Unreserved (lastNamed RoutingRuleSet.name sampleRules.routing.ruleSets) sampleRules
      { name := "main"
        statements :=
          [.rule
            { andFunctions := [{ name := "l4proto", params := [{ val := "tcp" }] }]
              outbound := { name := "proxy" } }]
        fallback := { name := "direct" } } := by
  refine ⟨fun rule hrule => absurd hrule List.not_mem_nil, ?_, by decide⟩
  intro depth rs hrs g hg
  cases hrs
  rw [List.mem_singleton.mp hg]
  decide

theorem route_agrees_sample :
    Agrees (route sampleMaps sampleParams)
      (sampleMatcher.evaluateSpans [{ first := 0, last := 2 }] sampleInput) :=
  route_agrees compile_sample (List.mem_singleton.mpr rfl) kernelTables_sample ⟨rfl, rfl⟩ rfl
    ⟨rfl, rfl, rfl, rfl, rfl, rfl, rfl, rfl, rfl, rfl, rfl, rfl, rfl, rfl, rfl, rfl, rfl⟩
    ⟨fun i hi => absurd hi (Nat.not_lt_zero i), ⟨rfl, rfl, rfl⟩, rfl, rfl⟩

end Dae
