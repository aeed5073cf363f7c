import Dae.Tproxy.Flows

/-!
# Fragments

`do_tproxy_first_fragment` is a second copy of the admission of packets, for fragments, which can
not be handed to the control plane: it lets a fragment pass only if the whole packet would pass
unchanged.  Here the two are compared in one state, map failures included.
-/

namespace Dae

variable {lim : Limits}

namespace Fragment

open KernelState Flow

/-! ### Fragments are not handed over -/

theorem fragmentDirect_ne (s : KernelState lim) (p : Packet) (e : BitVec 64) :
    (s.fragmentDirect p e).1 ≠ .redirect := by
  unfold fragmentDirect
  grind

theorem fragmentRoute_ne (s : KernelState lim) (p : Packet) (e : BitVec 64) :
    (s.fragmentRoute p e).1 ≠ .redirect := by
  unfold fragmentRoute
  have hdirect := fun s : KernelState lim => fragmentDirect_ne s p e
  grind

theorem udpFragment_ne (s : KernelState lim) (p : Packet) (e : BitVec 64) :
    (s.udpFragment p e).1 ≠ .redirect := by
  unfold udpFragment
  have hdirect := fun s : KernelState lim => fragmentDirect_ne s p e
  have hroute := fun s : KernelState lim => fragmentRoute_ne s p e
  grind

theorem establishedFragment_ne (s : KernelState lim) (p : Packet) (e : BitVec 64) :
    (s.establishedFragment p e).1 ≠ .redirect := by
  unfold establishedFragment
  have hdirect := fragmentDirect_ne s p e
  grind

theorem firstFragment_ne (s : KernelState lim) (p : Packet) :
    (s.doTproxyFirstFragment p).1 ≠ .redirect := by
  unfold doTproxyFirstFragment
  dsimp only
  split
  · nofun
  · split
    · nofun
    · split
      · exact udpFragment_ne s p _
      · split
        · exact establishedFragment_ne s p _
        · exact fragmentRoute_ne s p _

/-! ### Fragments that pass -/

/-- The connection state can be refreshed. -/
def Refreshes (s : KernelState lim) (p : Packet) : Prop :=
  s.faults.udpConnState = true → s.udpConnStateMap p.five ≠ none

variable {s : KernelState lim} {p : Packet} {e : BitVec 64} {m : BitVec 32}

theorem fragmentDirect_pass
    (h : (s.fragmentDirect p e).1 = .next m) (hudp : p.five.l4proto = .udp) : Refreshes s p := by
  intro hfault hnone
  unfold fragmentDirect refreshUdpConnState at h
  rw [hudp, hnone, hfault] at h
  grind

theorem evaluate_direct (hfound : (route s.routing p.params).msb = false)
    (hdirect : (decodeRouteResult (route s.routing p.params)).outbound = outboundDirect) :
    s.evaluate p e =
      some (s.fillRouteMetadata p e (decodeRouteResult (route s.routing p.params))) := by
  have houtbound : (s.fillRouteMetadata p e
      (decodeRouteResult (route s.routing p.params))).outbound = outboundDirect := hdirect
  unfold evaluate
  dsimp only
  rw [hfound, if_neg (by nofun), houtbound, if_neg (by decide)]
  unfold checkLiveness
  rw [houtbound]
  simp

/-- A fragment without an earlier decision passes only if it is direct, without mark and
evidence. -/
theorem fragmentRoute_evaluates (h : (s.fragmentRoute p e).1 = .next m) :
    ∃ decision : RouteDecision, s.evaluate p e = some (s.fillRouteMetadata p e decision) ∧
      (s.fillRouteMetadata p e decision).proxied = false ∧ decision.mark = 0 := by
  refine ⟨decodeRouteResult (route s.routing p.params), ?_⟩
  unfold fragmentRoute at h
  dsimp only at h
  split at h
  · cases h
  · next hencoded =>
      rw [Bool.or_eq_true, not_or, Bool.not_eq_true, decide_eq_true_eq, not_not] at hencoded
      split at h
      · cases h
      · next hdirect =>
          rw [not_not] at hdirect
          split at h
          · cases h
          · next hmark =>
              rw [Bool.or_eq_true, not_or, decide_eq_true_eq, not_not] at hmark
              refine ⟨evaluate_direct hencoded.1 hdirect, ?_, hmark.1⟩
              have hcapture :
                  (decodeRouteResult (route s.routing p.params)).captureFlags = 0 := by
                unfold decodeRouteResult
                rw [hencoded.2]
                rfl
              unfold RoutingResult.proxied fillRouteMetadata
              rw [hdirect, hcapture]
              rfl

/-! ### TCP -/

/-- Whether a flow can be stored depends on what is stored of it. -/
theorem saveTcpFlow_isSome (s : KernelState lim) (key : TuplesKey) {r r' : RoutingResult}
    (hproxied : r.proxied = r'.proxied) (hmark : r.mark = r'.mark)
    (hepoch : r.routeEpoch = r'.routeEpoch) :
    (s.saveTcpFlow key r).isSome = (s.saveTcpFlow key r').isSome := by
  unfold saveTcpFlow
  rw [hproxied, hmark, hepoch]

theorem fragmentRoute_tcp (h : (s.fragmentRoute p e).1 = .next m) (htcp : p.five.l4proto = .tcp) :
    ∃ result, s.evaluate p e = some result ∧ result.proxied = false ∧ result.mark = 0 ∧
      (s.saveTcpFlow p.five result).isSome = true := by
  obtain ⟨decision, heval, hproxied, hmark⟩ := fragmentRoute_evaluates h
  refine ⟨s.fillRouteMetadata p e decision, heval, hproxied, hmark, ?_⟩
  have hsame := saveTcpFlow_isSome s p.five
    (show (s.fillRouteMetadata p e ⟨outboundDirect, 0, false, 0⟩).proxied = _ from hproxied.symm)
    hmark.symm rfl
  rw [← hsame]
  unfold fragmentRoute at h
  dsimp only at h
  rw [htcp] at h
  cases hsave : s.saveTcpFlow p.five (s.fillRouteMetadata p e ⟨outboundDirect, 0, false, 0⟩) with
  | some => rfl
  | none =>
    rw [hsave] at h
    grind

variable {result : RoutingResult}

theorem selected_passes_tcp (htcp : p.five.l4proto = .tcp) (hu : updating s p.mac = false)
    (hproxied : result.proxied = false) (hsave : (s.saveTcpFlow p.five result).isSome = true) :
    (s.selected p (epoch s p.mac) result).1 = .next result.mark := by
  unfold selected
  obtain ⟨s', hs'⟩ := Option.isSome_iff_exists.mp hsave
  simp only [settled hu, Bool.false_and, Bool.false_eq_true, if_false, hproxied, Bool.not_false,
    if_true, htcp, hs']

/-- The whole packet of a SYN fragment that passes: it passes unless it has a pending handoff. -/
theorem syn_passes
    (h : (s.fragmentRoute p (epoch s p.mac)).1 = .next m) (htcp : p.five.l4proto = .tcp)
    (hu : updating s p.mac = false) : (s.routeNew p (epoch s p.mac)).1 = .next 0 := by
  obtain ⟨result, heval, hproxied, hmark, hsave⟩ := fragmentRoute_tcp h htcp
  unfold routeNew
  rw [heval]
  simp only [htcp, reduceCtorEq, decide_false, Bool.false_and, Bool.false_eq_true, if_false]
  rw [selected_passes_tcp htcp hu hproxied hsave, hmark]

/-- An established fragment that passes belongs to a direct flow without mark. -/
theorem established_passes (h : (s.establishedFragment p e).1 = .next m) :
    (s.established p e).1 = .next (if s.tcpFlowMap p.five = none then p.mark else 0) := by
  unfold establishedFragment at h
  unfold established
  dsimp only at h ⊢
  split at h
  · cases h
  · next hepoch =>
      rw [if_neg hepoch]
      split at h
      · cases h
      · next hdirect =>
          cases hflow : s.tcpFlowMap p.five with
          | none => rfl
          | some flow =>
            rw [hflow, Option.any_some] at hdirect
            grind

/-! ### UDP -/

/-- The state with other connection states; nothing else in the admission of a packet depends on
them. -/
def withConn (s : KernelState lim) (conn : TuplesKey → Option Bool) : KernelState lim :=
  { s with udpConnStateMap := conn }

theorem readUdpRoute_withConn (s : KernelState lim) (conn : TuplesKey → Option Bool)
    (key : UdpSource) (check : Bool) :
    (withConn s conn).readUdpRoute key check =
      ((s.readUdpRoute key check).1, withConn (s.readUdpRoute key check).2 conn) := by
  unfold readUdpRoute withConn
  grind

/-- What is adopted, whatever the connection states. -/
theorem adoptUdpRoute_withConn (s : KernelState lim) (conn : TuplesKey → Option Bool)
    (key : UdpSource) :
    (withConn s conn).adoptUdpRoute key =
      (match (s.readUdpRoute key true).1 with
        | .hit result => some result
        | _ => none,
        withConn (s.readUdpRoute key true).2 conn) := by
  unfold adoptUdpRoute
  rw [readUdpRoute_withConn]
  rcases s.readUdpRoute key true with ⟨_ | _ | _, s'⟩ <;> rfl

theorem refresh_eq (h : Refreshes s p)
    (hconn : s.udpConnStateMap p.five ≠ some true) :
    ∃ conn, s.refreshUdpConnState p.five false = (some false, withConn s conn) := by
  unfold refreshUdpConnState
  cases hstate : s.udpConnStateMap p.five with
  | some state =>
    cases state with
    | true => exact absurd hstate hconn
    | false => exact ⟨s.udpConnStateMap, rfl⟩
  | none =>
    cases hfault : s.faults.udpConnState with
    | true => exact absurd hstate (h hfault)
    | false => exact ⟨Function.update s.udpConnStateMap p.five (some false), rfl⟩

variable {key : UdpSource}

/-- A new lifetime starts without an entry. -/
theorem readUdpRoute_fresh {check : Bool} (h : (s.readUdpRoute key check).1 = .fresh) :
    (s.readUdpRoute key check).2 =
      { s with udpRoutingCacheMap := Function.update s.udpRoutingCacheMap key none } := by
  unfold readUdpRoute at h ⊢
  cases hvalue : s.udpRoutingCacheMap key with
  | none =>
    dsimp only
    rw [← hvalue, Function.update_eq_self]
  | some value =>
    rw [hvalue] at h
    grind

/-- A cached decision that is new is adopted. -/
theorem saveUdpRoute_new (hnone : s.udpRoutingCacheMap p.source = none)
    (hfaults : (s.faults.udpRoutingCache || s.faults.udpTimer) = false)
    (hu : updating s p.mac = false) (hepoch : result.routeEpoch = epoch s p.mac)
    (hmac : result.mac = p.mac) (hgeneration : result.generation = s.routingGeneration) :
    s.saveUdpRoute p.source result =
      (some result,
        { s with
          udpRoutingCacheMap := Function.update s.udpRoutingCacheMap p.source
            (some { result, cachedUntil := s.now + udpRoutingCacheTtlNs }) }) := by
  have hsettled := settled hu
  have hu' : isUpdating (s.deviceRoutes p.mac) = false := hu
  have hdevice : (s.deviceRoutes p.mac).any (·.epoch ≠ epoch s p.mac) = false := by
    cases hd : s.deviceRoutes p.mac with
    | none => rfl
    | some device =>
      rw [hd, Option.any_some, Bool.or_eq_false_iff] at hsettled
      exact hsettled.2
  have hlater : ¬s.now + udpRoutingCacheTtlNs ≤ s.now := by
    unfold udpRoutingCacheTtlNs
    omega
  unfold saveUdpRoute
  rw [hnone]
  dsimp only
  rw [hfaults, if_neg (by nofun)]
  unfold adoptUdpRoute readUdpRoute
  simp only [Function.update_self, hmac, hu', hepoch, hdevice, hgeneration, hlater, ne_eq,
    not_true, decide_false, Bool.and_false, Bool.or_false, Bool.false_eq_true, if_false,
    Function.update_idem]

theorem saveUdpRoute_faults (hnone : s.udpRoutingCacheMap key = none)
    (hfaults : (s.faults.udpRoutingCache || s.faults.udpTimer) = true) :
    s.saveUdpRoute key result = (none, s) := by
  unfold saveUdpRoute
  rw [hnone]
  dsimp only
  rw [hfaults, if_pos rfl]

theorem readUdpRoute_state (s : KernelState lim) (key : UdpSource) (check : Bool) :
    ∃ cache, (s.readUdpRoute key check).2 = { s with udpRoutingCacheMap := cache } := by
  unfold readUdpRoute
  dsimp only
  split
  · exact ⟨_, rfl⟩
  · split
    · exact ⟨_, rfl⟩
    · split
      · exact ⟨_, rfl⟩
      · split <;> exact ⟨_, rfl⟩

/-- The UDP fragments that pass: replies to an inbound connection, those of a direct source, and
those that are routed directly. -/
inductive UdpPassed (s : KernelState lim) (p : Packet) : Prop where
  | inbound : s.udpConnStateMap p.five = some true → p.mark = 0 → UdpPassed s p
  | cached (saved : RoutingResult) :
      s.udpConnStateMap p.five ≠ some true → Refreshes s p → s.udpBindingsMap p.source = none →
      (s.readUdpRoute p.source true).1 = .hit saved → saved.proxied = false → saved.mark = 0 →
      UdpPassed s p
  | routed (decision : RouteDecision) :
      s.udpConnStateMap p.five ≠ some true → Refreshes s p → s.udpBindingsMap p.source = none →
      (s.readUdpRoute p.source true).1 = .fresh →
      s.evaluate p (epoch s p.mac) = some (s.fillRouteMetadata p (epoch s p.mac) decision) →
      (s.fillRouteMetadata p (epoch s p.mac) decision).proxied = false → decision.mark = 0 →
      (s.faults.udpRoutingCache || s.faults.udpTimer) = false → UdpPassed s p

/-- A routed fragment could be stored. -/
theorem fragmentRoute_udp
    (h : (s.fragmentRoute p (epoch s p.mac)).1 = .next m) (hudp : p.five.l4proto = .udp)
    (hu : updating s p.mac = false) (hnone : s.udpRoutingCacheMap p.source = none) :
    (s.faults.udpRoutingCache || s.faults.udpTimer) = false ∧ Refreshes s p := by
  unfold fragmentRoute at h
  dsimp only at h
  rw [hudp] at h
  cases hfaults : s.faults.udpRoutingCache || s.faults.udpTimer with
  | true =>
    simp only [saveUdpRoute_faults hnone hfaults] at h
    grind
  | false =>
    refine ⟨rfl, ?_⟩
    rw [saveUdpRoute_new hnone hfaults hu rfl rfl rfl] at h
    dsimp only at h
    split at h
    · cases h
    · split at h
      · cases h
      · split at h
        · cases h
        · split at h
          · cases h
          · have hrefresh := fragmentDirect_pass h hudp
            exact hrefresh

theorem udpFragment_passed
    (h : (s.udpFragment p (epoch s p.mac)).1 = .next m) (hudp : p.five.l4proto = .udp)
    (hu : updating s p.mac = false) : UdpPassed s p := by
  unfold udpFragment at h
  split at h
  · next hconn =>
      split at h
      · cases h
      · next hmark => exact .inbound hconn (not_not.mp hmark)
  · next hconn =>
      split at h
      · cases h
      · next hbinding =>
          rw [Bool.not_eq_true, Option.isSome_eq_false_iff, Option.isNone_iff_eq_none] at hbinding
          obtain ⟨cache, hcache⟩ := readUdpRoute_state s p.source true
          rcases hread : s.readUdpRoute p.source true with ⟨read, s'⟩
          rw [hread] at h hcache
          cases read with
          | ending => cases h
          | hit saved =>
            dsimp only at h hcache
            split at h
            · cases h
            · next hdirect =>
                rw [Bool.or_eq_true, not_or, Bool.not_eq_true, decide_eq_true_eq,
                  not_not] at hdirect
                subst hcache
                have hrefresh := fragmentDirect_pass h hudp
                exact .cached saved hconn hrefresh hbinding (by rw [hread]) hdirect.1 hdirect.2
          | fresh =>
            have hfresh := readUdpRoute_fresh (congrArg Prod.fst hread)
            rw [hread] at hfresh
            subst hfresh
            obtain ⟨decision, heval, hproxied, hmark⟩ := fragmentRoute_evaluates h
            obtain ⟨hfaults, hrefresh⟩ :=
              fragmentRoute_udp h hudp hu (Function.update_self ..)
            exact .routed decision hconn hrefresh hbinding (by rw [hread]) heval hproxied hmark
              hfaults

theorem saveUdpRoute_old (result : RoutingResult)
    (h : s.udpRoutingCacheMap key ≠ none) :
    s.saveUdpRoute key result = s.adoptUdpRoute key := by
  unfold saveUdpRoute
  cases hvalue : s.udpRoutingCacheMap key with
  | none => exact absurd hvalue h
  | some => rfl

section Udp

variable (hudp : p.five.l4proto = .udp) (hu : updating s p.mac = false)

include hudp hu

theorem selected_passes_udp (he : epoch s p.mac = e) (m : BitVec 32) :
    (s.selected p e result).1 = .next m ↔ result.proxied = false ∧ result.mark = m := by
  subst he
  unfold selected publishHandoff toControlPlane
  simp only [settled hu, Bool.false_and, Bool.false_eq_true, if_false, hudp]
  cases result.proxied with
  | true => grind
  | false => simp

/-- The whole packet of a fragment that was routed passes, cached or not. -/
theorem routeNew_passes {decision : RouteDecision}
    (he : epoch s p.mac = e) (heval : s.evaluate p e = some (s.fillRouteMetadata p e decision))
    (hproxied : (s.fillRouteMetadata p e decision).proxied = false) (hmark : decision.mark = 0)
    (hnone : s.udpRoutingCacheMap p.source = none)
    (hfaults : (s.faults.udpRoutingCache || s.faults.udpTimer) = false) :
    (s.routeNew p e).1 = .next 0 := by
  unfold routeNew
  rw [heval]
  dsimp only
  split
  · rw [saveUdpRoute_new hnone hfaults hu he.symm rfl rfl]
    dsimp only
    rw [selected_passes_udp hudp (by exact hu) (by exact he)]
    split
    · exact ⟨hproxied, hmark⟩
    · exact ⟨hproxied, hmark⟩
  · exact (selected_passes_udp hudp hu he 0).mpr ⟨hproxied, hmark⟩

/-- The whole packet of a fragment that passes does so too, if it is not DNS. -/
theorem udp_passes (h : UdpPassed s p) (hdns : p.isDns = false) :
    (s.udpUnfragmented p (epoch s p.mac)).1 = .next 0 := by
  unfold udpUnfragmented
  cases h with
  | inbound hconn hmark =>
    unfold refreshUdpConnState
    rw [hconn, hmark]
  | cached saved hconn hrefresh hbinding hread hproxied hmark =>
    obtain ⟨conn, hrefreshed⟩ := refresh_eq hrefresh hconn
    have hbinding' : (withConn s conn).udpBindingsMap p.source = none := hbinding
    obtain ⟨cache, hcache⟩ := readUdpRoute_state s p.source true
    rw [hrefreshed]
    dsimp only
    rw [hdns, if_neg (by nofun), hbinding', readUdpRoute_withConn, hread, hcache]
    dsimp only
    rw [selected_passes_udp hudp (by exact hu) (by rfl)]
    exact ⟨hproxied, hmark⟩
  | routed decision hconn hrefresh hbinding hread heval hproxied hmark hfaults =>
    obtain ⟨conn, hrefreshed⟩ := refresh_eq hrefresh hconn
    have hbinding' : (withConn s conn).udpBindingsMap p.source = none := hbinding
    rw [hrefreshed]
    dsimp only
    rw [hdns, if_neg (by nofun), hbinding', readUdpRoute_withConn, hread, readUdpRoute_fresh hread]
    exact routeNew_passes hudp hu rfl heval hproxied hmark (Function.update_self ..) hfaults

/-- The decision on a DNS packet from a source with a cached decision, on which the fragment does
not depend: it passes by itself, or it is `must` and the cached decision is still good. -/
def DnsAgrees (s : KernelState lim) (p : Packet) : Prop :=
  s.udpRoutingCacheMap p.source ≠ none →
    ∃ result, s.evaluate p (epoch s p.mac) = some result ∧
      if result.must then ∃ saved, (s.readUdpRoute p.source true).1 = .hit saved
      else result.proxied = false ∧ result.mark = 0

/-- The whole DNS packet, if its source has a cached decision. -/
theorem dns_cached {conn : TuplesKey → Option Bool} (hdns : p.isDns = true)
    (hcached : s.udpRoutingCacheMap p.source ≠ none)
    (hdirect : ∀ saved, (s.readUdpRoute p.source true).1 = .hit saved →
      saved.proxied = false ∧ saved.mark = 0) :
    ((withConn s conn).routeNew p (epoch s p.mac)).1 = .next 0 ↔ DnsAgrees s p := by
  have heval : (withConn s conn).evaluate p (epoch s p.mac) = s.evaluate p (epoch s p.mac) := rfl
  unfold routeNew DnsAgrees
  rw [heval]
  cases hresult : s.evaluate p (epoch s p.mac) with
  | none => simp [hcached]
  | some result =>
    simp only [hudp, hdns, Bool.not_true, Bool.false_or, decide_true, Bool.true_and,
      Option.some.injEq, exists_eq_left', ne_eq, hcached, not_false_eq_true, forall_const]
    cases hmust : result.must with
    | false =>
      simp only [Bool.false_eq_true, if_false]
      exact selected_passes_udp hudp (by exact hu) (by rfl) 0
    | true =>
      simp only [if_true]
      rw [saveUdpRoute_old result (by exact hcached), adoptUdpRoute_withConn]
      obtain ⟨cache, hcache⟩ := readUdpRoute_state s p.source true
      rw [hcache]
      cases hread : (s.readUdpRoute p.source true).1 with
      | fresh => simp
      | ending => simp
      | hit saved =>
        obtain ⟨hproxied, hmark⟩ := hdirect saved hread
        dsimp only
        rw [selected_passes_udp hudp (by exact hu) (by rfl)]
        exact iff_of_true ⟨hproxied, hmark⟩ ⟨saved, rfl⟩

/-- The whole packet of a DNS fragment that passes. -/
theorem dns_passes (h : UdpPassed s p) (hdns : p.isDns = true) :
    (s.udpUnfragmented p (epoch s p.mac)).1 = .next 0 ↔
      (s.udpConnStateMap p.five ≠ some true → DnsAgrees s p) := by
  unfold udpUnfragmented
  cases h with
  | inbound hconn hmark =>
    unfold refreshUdpConnState
    rw [hconn, hmark]
    simp
  | cached saved hconn hrefresh _ hread hproxied hmark =>
    obtain ⟨conn, hrefreshed⟩ := refresh_eq hrefresh hconn
    rw [hrefreshed]
    dsimp only
    rw [hdns, if_pos rfl]
    have hcached : s.udpRoutingCacheMap p.source ≠ none := by
      intro hnone
      unfold readUdpRoute at hread
      rw [hnone] at hread
      cases hread
    have hdirect : ∀ other, (s.readUdpRoute p.source true).1 = .hit other →
        other.proxied = false ∧ other.mark = 0 := by
      intro other hother
      rw [hread] at hother
      cases hother
      exact ⟨hproxied, hmark⟩
    rw [dns_cached hudp hu hdns hcached hdirect, forall_prop_of_true hconn]
  | routed decision hconn hrefresh _ hread heval hproxied hmark hfaults =>
    obtain ⟨conn, hrefreshed⟩ := refresh_eq hrefresh hconn
    rw [hrefreshed]
    dsimp only
    rw [hdns, if_pos rfl, forall_prop_of_true hconn]
    by_cases hnone : s.udpRoutingCacheMap p.source = none
    · have hpasses : ((withConn s conn).routeNew p (epoch s p.mac)).1 = .next 0 :=
        routeNew_passes hudp hu rfl heval hproxied hmark hnone hfaults
      exact iff_of_true hpasses fun hcached => absurd hnone hcached
    · refine dns_cached hudp hu hdns hnone ?_
      intro saved hsaved
      rw [hread] at hsaved
      cases hsaved

end Udp

/-! ### Both paths -/

/-- No decision is known for the packet: it is the control plane's own, or belongs to a connection
that was established before or is direct without mark and epoch. -/
def undecided (s : KernelState lim) (p : Packet) : Bool :=
  p.controlPlane ||
    (p.five.l4proto = .tcp && !p.opens && (s.tcpFlowMap p.five).isNone)

/-- The states in which a fragment is decided like the whole packet: a SYN has no pending handoff,
and the cached decision of a DNS packet does not differ from its own. -/
def SameDecision (s : KernelState lim) (p : Packet) : Prop :=
  match p.five.l4proto with
  | .tcp => p.opens = true → s.pendingHandoff p (epoch s p.mac) = none
  | .udp => p.isDns = true → s.udpConnStateMap p.five ≠ some true → DnsAgrees s p

/-- The whole packet of a fragment that passes, once the device is known. -/
theorem unfragmented_settled (hc : p.controlPlane = false)
    (hexempt : s.exempt p = false) (hu : updating s p.mac = false) :
    s.doTproxyUnfragmented p =
      match p.five.l4proto with
      | .udp => s.udpUnfragmented p (epoch s p.mac)
      | .tcp =>
        if !p.opens then s.established p (epoch s p.mac)
        else
          match s.pendingHandoff p (epoch s p.mac) with
          | none => s.routeNew p (epoch s p.mac)
          | some pending =>
            match s.saveTcpFlow p.five pending.result with
            | none => (.drop, s)
            | some s => s.toControlPlane := by
  have hu' : isUpdating (s.deviceRoutes p.mac) = false := hu
  unfold doTproxyUnfragmented
  simp only [hc, hexempt, hu', Bool.false_eq_true, if_false]
  rfl

theorem firstFragment_settled
    (hc : p.controlPlane = false) (h : (s.doTproxyFirstFragment p).1 = .next m) :
    updating s p.mac = false ∧
      match p.five.l4proto with
      | .udp => (s.udpFragment p (epoch s p.mac)).1 = .next m
      | .tcp =>
        if !p.opens then (s.establishedFragment p (epoch s p.mac)).1 = .next m
        else (s.fragmentRoute p (epoch s p.mac)).1 = .next m := by
  unfold doTproxyFirstFragment at h
  simp only [hc, Bool.false_eq_true, if_false] at h
  split at h
  · cases h
  · next hu =>
      rw [Bool.not_eq_true] at hu
      refine ⟨hu, ?_⟩
      cases hl4 : p.five.l4proto with
      | udp =>
        rw [hl4] at h
        exact h
      | tcp =>
        rw [hl4] at h
        dsimp only at h ⊢
        split at h
        · next hopens => exact (if_pos hopens).mpr h
        · next hopens => exact (if_neg hopens).mpr h

/-- **Fragmenting a packet does not weaken its policy where the two are decided alike.**  A fragment
is never handed to the control plane.  If it passes, the whole packet passes without a mark of its
own exactly if a SYN has no pending handoff and the decision on a DNS packet is the cached one. -/
theorem fragment_keeps_policy (s : KernelState lim) (p : Packet)
    (hexempt : s.routeExempt p.five.dip p.five.dport = false) :
    (s.doTproxyFirstFragment p).1 ≠ .redirect ∧
    ∀ m, (s.doTproxyFirstFragment p).1 = .next m →
      ((s.doTproxyUnfragmented p).1 = .next (if undecided s p then p.mark else 0) ↔
        p.controlPlane = true ∨ SameDecision s p) := by
  refine ⟨firstFragment_ne s p, ?_⟩
  intro m h
  cases hc : p.controlPlane with
  | true =>
    unfold doTproxyUnfragmented undecided
    simp [hc]
  | false =>
    obtain ⟨hu, h⟩ := firstFragment_settled hc h
    have hx : s.exempt p = false := by
      unfold exempt
      rw [hexempt, Bool.and_false]
    rw [unfragmented_settled hc hx hu]
    unfold undecided SameDecision
    cases hl4 : p.five.l4proto with
    | udp =>
      rw [hl4] at h
      have hpassed := udpFragment_passed h hl4 hu
      simp only [hc, reduceCtorEq, decide_false, Bool.false_and, Bool.or_false,
        Bool.false_eq_true, if_false, false_or]
      cases hdns : p.isDns with
      | true =>
        rw [dns_passes hl4 hu hpassed hdns]
        simp only [forall_const]
      | false => simp [udp_passes hl4 hu hpassed hdns]
    | tcp =>
      rw [hl4] at h
      simp only [hc, decide_true, Bool.true_and, Bool.false_or, Bool.false_eq_true, false_or]
      cases hopens : p.opens with
      | false =>
        rw [hopens] at h
        have hpasses := established_passes h
        simp only [Bool.not_false, if_true, hpasses, Bool.true_and, Bool.false_eq_true,
          false_imp_iff, Option.isNone_iff_eq_none]
      | true =>
        rw [hopens] at h
        have hpasses := syn_passes h hl4 hu
        simp only [Bool.not_true, Bool.false_eq_true, if_false, Bool.false_and,
          forall_const]
        cases hpending : s.pendingHandoff p (epoch s p.mac) with
        | none => exact iff_of_true hpasses rfl
        | some pending =>
          unfold toControlPlane
          grind

/-- The first fragment of a SYN to a direct destination passes, and so does the whole SYN. -/
theorem fragment_keeps_policy_syn :
    ((sampleKernel (Flow.sampleMaps outboundDirect 0)).doTproxyFirstFragment sampleSyn).1 = .next 0 ∧
      ((sampleKernel (Flow.sampleMaps outboundDirect 0)).doTproxyUnfragmented sampleSyn).1 =
        .next 0 :=
  ⟨rfl, ((fragment_keeps_policy (sampleKernel (Flow.sampleMaps outboundDirect 0)) sampleSyn rfl).2 0
    rfl).mpr (Or.inr fun _ => rfl)⟩

/-- A UDP packet to a time server and a DNS query from the same source. -/
def sampleDatagram (dport : BitVec 16) : Packet :=
  { five := { sampleFlow with dport, l4proto := .udp }, mac := 1, ipv4 := true }

/-- The source of a direct packet is cached.  The first fragment of a DNS query from it passes by
the cached decision; the whole query is handed to the control plane for the DNS plugins. -/
theorem dns_fragment_escapes :
    let s := ((sampleKernel (Flow.sampleMaps outboundDirect 0)).doTproxyUnfragmented
      (sampleDatagram 123)).2
    s.routeExempt (sampleDatagram 53).five.dip (sampleDatagram 53).five.dport = false ∧
      (s.doTproxyFirstFragment (sampleDatagram 53)).1 = .next 0 ∧
      (s.doTproxyUnfragmented (sampleDatagram 53)).1 = .redirect :=
  ⟨rfl, rfl, rfl⟩

end Fragment

end Dae
