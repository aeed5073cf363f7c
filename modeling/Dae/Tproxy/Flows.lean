import Dae.Tproxy.Admission

/-!
# TCP flows

What becomes of the packets of one TCP connection.  The decision on a connection is made once, when
its first SYN is admitted, and lives in two maps: the flow map, where a direct flow without mark
and epoch has no entry, and the handoff map, from which the control plane takes the decision.
-/

namespace Dae

variable {lim : Limits}

namespace Flow

/-- How a SYN was admitted. -/
inductive Admission where
  | handed
  | direct (mark : BitVec 32)
  deriving DecidableEq, Repr

/-- An admitted SYN, with the epoch that its device had. -/
structure AdmittedSyn where
  epoch : BitVec 64
  admission : Admission
  deriving DecidableEq, Repr

/-- The last admitted SYN after a packet; the control plane's own packets do not count. -/
def lastAdmitted (last : Option AdmittedSyn) (p : Packet) (epoch : BitVec 64) (verdict : Verdict) :
    Option AdmittedSyn :=
  if p.controlPlane || !p.opens then last
  else
    match verdict with
    | .drop => last
    | .redirect => some ⟨epoch, .handed⟩
    | .next mark => some ⟨epoch, .direct mark⟩

variable {last : Option AdmittedSyn} {p : Packet} {e : BitVec 64}

theorem lastAdmitted_skip {v : Verdict}
    (h : (p.controlPlane || !p.opens) = true) : lastAdmitted last p e v = last :=
  if_pos h

/-- The epoch of a device; zero if it has none. -/
def epoch (s : KernelState lim) (mac : Mac) : BitVec 64 := KernelState.epochOf (s.deviceRoutes mac)

/-- The policy of the device is being changed. -/
def updating (s : KernelState lim) (mac : Mac) : Bool := KernelState.isUpdating (s.deviceRoutes mac)

/-- What the runs assume of the state: map updates and redirects succeed and the destination is
under the policy of the device. -/
structure Ordinary (key : TuplesKey) (s : KernelState lim) : Prop where
  tcp : key.l4proto = .tcp
  faults : s.faults = {}
  notExempt : s.routeExempt key.dip key.dport = false

/-- Whatever else happens between two packets of the connection: programs, liveness, evidence,
epochs, clocks and the entries of other connections change.  The flow entry stays, and userspace
may take the handoff. -/
structure Between (key : TuplesKey) (s s' : KernelState lim) : Prop where
  ordinary : Ordinary key s'
  flow : s'.tcpFlowMap key = s.tcpFlowMap key
  handoff : s'.routingTuplesMap key = s.routingTuplesMap key ∨ s'.routingTuplesMap key = none

/-- The states that packets of the connection `key` from the device `mac` lead to, with the last
admitted SYN. -/
inductive Reached (key : TuplesKey) (mac : Mac) : KernelState lim → Option AdmittedSyn → Prop where
  | start {s : KernelState lim} :
      Ordinary key s → s.routingTuplesMap key = none → Reached key mac s none
  | between {s s' : KernelState lim} {last : Option AdmittedSyn} :
      Reached key mac s last → Between key s s' → Reached key mac s' last
  | unfragmented {s : KernelState lim} {last : Option AdmittedSyn} (p : Packet) :
      Reached key mac s last → p.five = key → p.mac = mac →
      Reached key mac (s.doTproxyUnfragmented p).2
        (lastAdmitted last p (epoch s mac) (s.doTproxyUnfragmented p).1)
  | firstFragment {s : KernelState lim} {last : Option AdmittedSyn} (p : Packet) :
      Reached key mac s last → p.five = key → p.mac = mac →
      Reached key mac (s.doTproxyFirstFragment p).2
        (lastAdmitted last p (epoch s mac) (s.doTproxyFirstFragment p).1)

/-! ### What is stored -/

/-- The flow entry of a decision. -/
def entryOf (result : RoutingResult) : Option TcpFlowState :=
  if !result.proxied && result.mark = 0 && result.routeEpoch = 0 then none
  else some ⟨result.routeEpoch, result.mark, result.proxied⟩

/-- The flow entry is the one of the admitted SYN. -/
def Agrees (entry : Option TcpFlowState) (syn : AdmittedSyn) : Prop :=
  match syn.admission with
  | .handed => ∃ mark, entry = some ⟨syn.epoch, mark, true⟩
  | .direct mark =>
    entry = if mark = 0 ∧ syn.epoch = 0 then none else some ⟨syn.epoch, mark, false⟩

/-- The invariant of the runs. -/
structure Inv (key : TuplesKey) (s : KernelState lim) (last : Option AdmittedSyn) : Prop where
  ordinary : Ordinary key s
  handoff : ∀ pending, s.routingTuplesMap key = some pending → pending.result.proxied = true
  flow : ∀ syn, last = some syn → Agrees (s.tcpFlowMap key) syn

variable {result : RoutingResult}

theorem entryOf_proxied (h : result.proxied = true) :
    entryOf result = some ⟨result.routeEpoch, result.mark, true⟩ := by
  simp only [entryOf, h, Bool.not_true, Bool.false_and, Bool.false_eq_true, if_false]

theorem agrees_handed (h : result.proxied = true) :
    Agrees (entryOf result) ⟨result.routeEpoch, .handed⟩ :=
  ⟨result.mark, entryOf_proxied h⟩

theorem agrees_direct (h : result.proxied = false) :
    Agrees (entryOf result) ⟨result.routeEpoch, .direct result.mark⟩ := by
  simp only [Agrees, entryOf, h, Bool.not_false, Bool.true_and, Bool.and_eq_true,
    decide_eq_true_eq]

/-- The state in which the flow entry of a decision is stored. -/
def storeFlow (s : KernelState lim) (key : TuplesKey) (result : RoutingResult) : KernelState lim :=
  { s with tcpFlowMap := Function.update s.tcpFlowMap key (entryOf result) }

theorem storeFlow_entry (s : KernelState lim) (key : TuplesKey) (result : RoutingResult) :
    (storeFlow s key result).tcpFlowMap key = entryOf result :=
  Function.update_self ..

variable {s : KernelState lim}

theorem saveTcpFlow_eq (h : s.faults = {}) (key : TuplesKey)
    (result : RoutingResult) : s.saveTcpFlow key result = some (storeFlow s key result) := by
  unfold KernelState.saveTcpFlow storeFlow entryOf
  split
  · rfl
  · rw [h]
    rfl

/-! ### One packet -/

/-- What a packet that may open the connection does: it is dropped and changes nothing, or a
decision under the current epoch is stored and followed. -/
inductive Opened (key : TuplesKey) (e : BitVec 64) (s : KernelState lim) :
    Verdict → KernelState lim → Prop where
  | dropped : Opened key e s .drop s
  | handed {s' : KernelState lim} {result : RoutingResult} :
      Ordinary key s' → result.routeEpoch = e → result.proxied = true →
      s'.tcpFlowMap key = entryOf result →
      (∀ pending, s'.routingTuplesMap key = some pending → pending.result.proxied = true) →
      Opened key e s .redirect s'
  | passed {s' : KernelState lim} {result : RoutingResult} :
      Ordinary key s' → result.routeEpoch = e → result.proxied = false →
      s'.tcpFlowMap key = entryOf result →
      (∀ pending, s'.routingTuplesMap key = some pending → pending.result.proxied = true) →
      Opened key e s (.next result.mark) s'

variable {key : TuplesKey}

/-- A packet that may not open the connection changes nothing. -/
theorem Inv.packet {s' : KernelState lim} {v : Verdict} (hinv : Inv key s last)
    (hkeeps : (p.controlPlane || !p.opens) = true → s' = s)
    (hopened : p.controlPlane = false → p.opens = true → Opened key e s v s') :
    Inv key s' (lastAdmitted last p e v) := by
  cases hskip : p.controlPlane || !p.opens with
  | true =>
    rw [hkeeps hskip, lastAdmitted_skip hskip]
    exact hinv
  | false =>
    have ⟨hc, hopens⟩ := Bool.or_eq_false_iff.mp hskip
    rw [Bool.not_eq_false'] at hopens
    unfold lastAdmitted
    rw [hskip]
    cases hopened hc hopens with
    | dropped => exact hinv
    | handed hord he hproxied hflow hhandoff =>
      refine ⟨hord, hhandoff, ?_⟩
      rintro syn ⟨⟩
      rw [hflow, ← he]
      exact agrees_handed hproxied
    | passed hord he hproxied hflow hhandoff =>
      refine ⟨hord, hhandoff, ?_⟩
      rintro syn ⟨⟩
      rw [hflow, ← he]
      exact agrees_direct hproxied

theorem exempt_eq_false (h : Ordinary key s) (hp : p.five = key) : s.exempt p = false := by
  unfold KernelState.exempt
  rw [hp, h.notExempt, Bool.and_false]

/-- The second look at the device finds what the first one found. -/
theorem settled {mac : Mac} (h : updating s mac = false) :
    ((s.deviceRoutes mac).any fun device => device.updating || device.epoch ≠ epoch s mac) =
      false := by
  unfold updating KernelState.isUpdating at h
  unfold epoch KernelState.epochOf
  cases hd : s.deviceRoutes mac with
  | none => rfl
  | some device =>
    rw [hd, Option.any_some] at h
    simp [h]

theorem toControlPlane_eq (h : s.faults = {}) :
    s.toControlPlane = (.redirect, s) := by
  unfold KernelState.toControlPlane
  rw [h]
  rfl

theorem Ordinary.congr {s' : KernelState lim} (h : Ordinary key s)
    (hfaults : s'.faults = s.faults) (hexempt : s'.routeExempt = s.routeExempt) :
    Ordinary key s' :=
  ⟨h.tcp, hfaults.trans h.faults, hexempt ▸ h.notExempt⟩

theorem selected_opened (h : Ordinary key s) (hp : p.five = key)
    (hu : updating s p.mac = false) (hr : result.routeEpoch = epoch s p.mac) :
    Opened key (epoch s p.mac) s (s.selected p (epoch s p.mac) result).1
      (s.selected p (epoch s p.mac) result).2 := by
  have htcp : p.five.l4proto = .tcp := hp ▸ h.tcp
  unfold KernelState.selected
  simp only [settled hu, Bool.false_and, Bool.false_eq_true, if_false, htcp]
  by_cases hproxied : result.proxied = true
  · simp only [hproxied, Bool.not_true, Bool.false_eq_true, if_false, if_true]
    have hpublish : s.publishHandoff p.five result p.seq = some
        { s with
          routingTuplesMap := Function.update s.routingTuplesMap p.five
            (some ⟨result, s.seconds + BitVec.ofNat 32 handoffLifetimeSeconds, p.seq⟩) } := by
      unfold KernelState.publishHandoff
      rw [h.faults]
      rfl
    rw [hpublish, hp]
    dsimp only
    rw [saveTcpFlow_eq (by exact h.faults)]
    dsimp only
    rw [toControlPlane_eq (by exact h.faults)]
    refine .handed (h.congr rfl rfl) hr hproxied (Function.update_self ..) ?_
    intro pending hpending
    have hsame := (Function.update_self ..).symm.trans hpending
    rw [Option.some.injEq] at hsame
    exact hsame ▸ hproxied
  · rw [Bool.not_eq_true] at hproxied
    simp only [hproxied, Bool.not_false, if_true]
    rw [hp, saveTcpFlow_eq h.faults]
    refine .passed (h.congr rfl rfl) hr hproxied (Function.update_self ..) ?_
    intro pending hpending
    cases (Function.update_self ..).symm.trans hpending

theorem checkLiveness_routeEpoch {adjusted : RoutingResult}
    (h : s.checkLiveness p result = some adjusted) : adjusted.routeEpoch = result.routeEpoch := by
  unfold KernelState.checkLiveness at h
  split at h
  · split at h
    · cases h
    · split at h
      · cases h
      · cases h
        rfl
  · cases h
    rfl

/-- A decision carries the epoch under which it was made. -/
theorem evaluate_routeEpoch (h : s.evaluate p e = some result) : result.routeEpoch = e := by
  unfold KernelState.evaluate at h
  dsimp only at h
  split at h
  · cases h
  · split at h
    · cases h
    · exact checkLiveness_routeEpoch h

theorem routeNew_opened (h : Ordinary key s) (hp : p.five = key) (hu : updating s p.mac = false) :
    Opened key (epoch s p.mac) s (s.routeNew p (epoch s p.mac)).1
      (s.routeNew p (epoch s p.mac)).2 := by
  have htcp : p.five.l4proto = .tcp := hp ▸ h.tcp
  unfold KernelState.routeNew
  cases hr : s.evaluate p (epoch s p.mac) with
  | none => exact .dropped
  | some result =>
    simp only [htcp, reduceCtorEq, decide_false, Bool.false_and, Bool.false_eq_true, if_false]
    exact selected_opened h hp hu (evaluate_routeEpoch hr)

theorem pendingHandoff_some {pending : RoutingHandoff} (h : s.pendingHandoff p e = some pending) :
    s.routingTuplesMap p.five = some pending ∧ pending.result.routeEpoch = e := by
  unfold KernelState.pendingHandoff at h
  rw [Option.filter_eq_some_iff] at h
  obtain ⟨hmap, hcond⟩ := h
  rw [Bool.and_eq_true, decide_eq_true_eq] at hcond
  exact ⟨hmap, hcond.2⟩

/-- The unfragmented packets of the connection, once the device is known. -/
theorem doTproxyUnfragmented_eq
    (h : Ordinary key s) (hp : p.five = key) (hc : p.controlPlane = false)
    (hu : updating s p.mac = false) :
    s.doTproxyUnfragmented p =
      if !p.opens then s.established p (epoch s p.mac)
      else
        match s.pendingHandoff p (epoch s p.mac) with
        | none => s.routeNew p (epoch s p.mac)
        | some pending => (.redirect, storeFlow s key pending.result) := by
  have htcp : p.five.l4proto = .tcp := hp ▸ h.tcp
  have hu' : KernelState.isUpdating (s.deviceRoutes p.mac) = false := hu
  unfold KernelState.doTproxyUnfragmented
  simp only [hc, exempt_eq_false h hp, hu', htcp, Bool.false_eq_true, if_false]
  split
  · rfl
  · unfold epoch
    cases s.pendingHandoff p (KernelState.epochOf (s.deviceRoutes p.mac)) with
    | none => rfl
    | some pending =>
      dsimp only
      rw [hp, saveTcpFlow_eq h.faults]
      exact toControlPlane_eq h.faults

theorem unfragmented_opened (h : Inv key s last) (hp : p.five = key)
    (hc : p.controlPlane = false) (hopens : p.opens = true) :
    Opened key (epoch s p.mac) s (s.doTproxyUnfragmented p).1 (s.doTproxyUnfragmented p).2 := by
  cases hu : updating s p.mac with
  | true =>
    have hu' : KernelState.isUpdating (s.deviceRoutes p.mac) = true := hu
    unfold KernelState.doTproxyUnfragmented
    simp only [hc, exempt_eq_false h.ordinary hp, hu', Bool.false_eq_true, if_false, if_true]
    exact .dropped
  | false =>
    rw [doTproxyUnfragmented_eq h.ordinary hp hc hu, hopens]
    simp only [Bool.not_true, Bool.false_eq_true, if_false]
    split
    · exact routeNew_opened h.ordinary hp hu
    · next pending hpending =>
        obtain ⟨hmap, he⟩ := pendingHandoff_some hpending
        rw [hp] at hmap
        exact .handed (h.ordinary.congr rfl rfl) he (h.handoff pending hmap)
          (storeFlow_entry ..) h.handoff

/-- A TCP fragment that may pass does so without mark. -/
theorem fragmentDirect_eq (h : Ordinary key s) (hp : p.five = key) (hu : updating s p.mac = false)
    (he : epoch s p.mac = e) : s.fragmentDirect p e = (.next 0, s) := by
  have htcp : p.five.l4proto = .tcp := hp ▸ h.tcp
  unfold KernelState.fragmentDirect
  rw [← he, settled hu]
  simp only [htcp, Bool.false_eq_true, if_false]

theorem fragmentRoute_opened (h : Inv key s last) (hp : p.five = key)
    (hu : updating s p.mac = false) :
    Opened key (epoch s p.mac) s (s.fragmentRoute p (epoch s p.mac)).1
      (s.fragmentRoute p (epoch s p.mac)).2 := by
  have htcp : p.five.l4proto = .tcp := hp ▸ h.ordinary.tcp
  unfold KernelState.fragmentRoute
  simp only [htcp]
  split
  · exact .dropped
  · split
    · exact .dropped
    · split
      · exact .dropped
      · rw [hp, saveTcpFlow_eq h.ordinary.faults]
        dsimp only
        have hord (result : RoutingResult) : Ordinary key (storeFlow s key result) :=
          h.ordinary.congr rfl rfl
        have hpass (result : RoutingResult) :
            (storeFlow s key result).fragmentDirect p (epoch s p.mac) =
              (.next 0, storeFlow s key result) :=
          fragmentDirect_eq (hord result) hp hu rfl
        rw [hpass]
        exact .passed (hord (s.fillRouteMetadata p (epoch s p.mac) ⟨outboundDirect, 0, false, 0⟩))
          rfl rfl (storeFlow_entry ..) h.handoff

theorem firstFragment_opened (h : Inv key s last) (hp : p.five = key)
    (hc : p.controlPlane = false) (hopens : p.opens = true) :
    Opened key (epoch s p.mac) s (s.doTproxyFirstFragment p).1 (s.doTproxyFirstFragment p).2 := by
  have htcp : p.five.l4proto = .tcp := hp ▸ h.ordinary.tcp
  unfold KernelState.doTproxyFirstFragment
  simp only [hc, hopens, htcp, Bool.not_true, Bool.false_eq_true, if_false]
  split
  · exact .dropped
  · next hu =>
      rw [Bool.not_eq_true] at hu
      exact fragmentRoute_opened h hp hu

/-- Packets of an established connection change no map. -/
theorem established_state (s : KernelState lim) (p : Packet) (e : BitVec 64) :
    (s.established p e).2 = s := by
  unfold KernelState.established KernelState.toControlPlane
  grind

theorem unfragmented_keeps
    (h : Ordinary key s) (hp : p.five = key) (hskip : (p.controlPlane || !p.opens) = true) :
    (s.doTproxyUnfragmented p).2 = s := by
  have htcp : p.five.l4proto = .tcp := hp ▸ h.tcp
  unfold KernelState.doTproxyUnfragmented
  simp only [htcp, exempt_eq_false h hp, Bool.false_eq_true, if_false]
  split
  · rfl
  · next hc =>
      rw [Bool.not_eq_true] at hc
      rw [hc, Bool.false_or] at hskip
      rw [hskip, if_pos rfl]
      split
      · rfl
      · exact established_state s p _

theorem firstFragment_keeps
    (h : Ordinary key s) (hp : p.five = key) (hskip : (p.controlPlane || !p.opens) = true) :
    (s.doTproxyFirstFragment p).2 = s := by
  have htcp : p.five.l4proto = .tcp := hp ▸ h.tcp
  unfold KernelState.doTproxyFirstFragment
  simp only [htcp]
  split
  · rfl
  · next hc =>
      rw [Bool.not_eq_true] at hc
      rw [hc, Bool.false_or] at hskip
      rw [hskip, if_pos rfl]
      split
      · rfl
      · unfold KernelState.establishedFragment KernelState.fragmentDirect
        simp only [htcp]
        grind

/-! ### Runs -/

theorem Reached.inv {mac : Mac} (h : Reached key mac s last) : Inv key s last := by
  induction h with
  | start hord hnone =>
    refine ⟨hord, ?_, ?_⟩
    · intro pending hpending
      rw [hnone] at hpending
      cases hpending
    · intro syn hsyn
      cases hsyn
  | between _ hbetween ih =>
    refine ⟨hbetween.ordinary, ?_, ?_⟩
    · intro pending hpending
      rcases hbetween.handoff with hsame | hnone
      · exact ih.handoff pending (hsame ▸ hpending)
      · rw [hnone] at hpending
        cases hpending
    · intro syn hsyn
      rw [hbetween.flow]
      exact ih.flow syn hsyn
  | unfragmented p _ hkey hmac ih =>
    exact ih.packet (unfragmented_keeps ih.ordinary hkey) (hmac ▸ unfragmented_opened ih hkey)
  | firstFragment p _ hkey hmac ih =>
    exact ih.packet (firstFragment_keeps ih.ordinary hkey) (hmac ▸ firstFragment_opened ih hkey)

/-- The verdict on a later packet that an admission asks for. -/
def Admission.Follows : Admission → Verdict → Prop
  | .handed, verdict => verdict = .redirect
  | .direct mark, verdict => if mark = 0 then ∃ m, verdict = .next m else verdict = .next mark

/-- Under the epoch of the SYN, an established packet follows it. -/
theorem established_follows {syn : AdmittedSyn}
    (h : Ordinary key s) (hp : p.five = key) (hflow : Agrees (s.tcpFlowMap key) syn) :
    syn.admission.Follows (s.established p syn.epoch).1 := by
  obtain ⟨e, admission⟩ := syn
  unfold KernelState.established
  rw [hp]
  cases admission with
  | handed =>
    obtain ⟨mark, hentry⟩ := hflow
    simp only [hentry, Option.any_some, decide_true, Bool.not_true, Bool.and_false,
      Bool.false_eq_true, if_false, toControlPlane_eq h.faults]
    rfl
  | direct mark =>
    have hentry : s.tcpFlowMap key =
        if mark = 0 ∧ e = 0 then none else some ⟨e, mark, false⟩ := hflow
    rw [hentry]
    by_cases hzero : mark = 0 ∧ e = 0
    · rw [if_pos hzero]
      simp only [hzero.2, ne_eq, not_true, decide_false, Bool.false_and, Bool.false_eq_true,
        if_false]
      exact (if_pos hzero.1).mpr ⟨p.mark, rfl⟩
    · rw [if_neg hzero]
      simp only [Option.any_some, decide_true, Bool.not_true, Bool.and_false,
        Bool.false_eq_true, if_false, Bool.not_false, if_true]
      by_cases hmark : mark = 0
      · exact (if_pos hmark).mpr ⟨mark, rfl⟩
      · exact (if_neg hmark).mpr rfl

/-- Under another epoch, an established packet does not pass. -/
theorem established_stale {syn : AdmittedSyn}
    (hp : p.five = key) (hflow : Agrees (s.tcpFlowMap key) syn) (hzero : e ≠ 0)
    (he : e ≠ syn.epoch) (mark : BitVec 32) : (s.established p e).1 ≠ .next mark := by
  have hstale : ((s.tcpFlowMap key).any (·.routeEpoch = e)) = false := by
    cases hentry : s.tcpFlowMap key with
    | none => rfl
    | some flow =>
      have hepoch : flow.routeEpoch = syn.epoch := by
        unfold Agrees at hflow
        grind
      rw [Option.any_some, hepoch]
      exact decide_eq_false (Ne.symm he)
  unfold KernelState.established KernelState.toControlPlane
  dsimp only
  rw [hp, hstale, Bool.not_false, Bool.and_true, decide_eq_true hzero, if_pos rfl]
  grind

theorem unfragmented_updating
    (h : Ordinary key s) (hp : p.five = key) (hc : p.controlPlane = false)
    (hu : updating s p.mac = true) : s.doTproxyUnfragmented p = (.drop, s) := by
  have hu' : KernelState.isUpdating (s.deviceRoutes p.mac) = true := hu
  unfold KernelState.doTproxyUnfragmented
  simp only [hc, exempt_eq_false h hp, hu', Bool.false_eq_true, if_false, if_true]

/-- **A TCP connection follows its last admitted SYN.**  Of the packets that the control plane has
not sent itself: while the policy of the device changes none passes.  Otherwise an established
packet is handed over if the SYN was, and passes with its mark if the SYN was direct, as long as
the device has the epoch of that SYN; under another epoch than zero it never passes.  A SYN with a
pending handoff is handed over again and its decision stays. -/
theorem follows_last_syn {key : TuplesKey} {mac : Mac} {s : KernelState lim}
    {last : Option AdmittedSyn} (h : Reached key mac s last) (p : Packet) (hkey : p.five = key)
    (hmac : p.mac = mac) (hc : p.controlPlane = false) :
    (updating s mac = true → (s.doTproxyUnfragmented p).1 = .drop) ∧
    (p.opens = false → ∀ syn, last = some syn →
      (updating s mac = false → epoch s mac = syn.epoch →
        syn.admission.Follows (s.doTproxyUnfragmented p).1) ∧
      (epoch s mac ≠ 0 → epoch s mac ≠ syn.epoch →
        ∀ mark, (s.doTproxyUnfragmented p).1 ≠ .next mark)) ∧
    (p.opens = true → updating s mac = false → ∀ pending, s.routingTuplesMap key = some pending →
      pending.synSeq = p.seq → (0#32).slt (pending.expires - s.seconds) = true →
      pending.result.routeEpoch = epoch s mac →
      (s.doTproxyUnfragmented p).1 = .redirect ∧
      (s.doTproxyUnfragmented p).2.routingTuplesMap key = some pending ∧
      (s.doTproxyUnfragmented p).2.tcpFlowMap key =
        some ⟨epoch s mac, pending.result.mark, true⟩) := by
  have hinv := h.inv
  subst hmac
  refine ⟨?_, ?_, ?_⟩
  · intro hu
    rw [unfragmented_updating hinv.ordinary hkey hc hu]
  · intro hopens syn hsyn
    have hflow := hinv.flow syn hsyn
    have hest (hu : updating s p.mac = false) :
        s.doTproxyUnfragmented p = s.established p (epoch s p.mac) := by
      rw [doTproxyUnfragmented_eq hinv.ordinary hkey hc hu, hopens]
      rfl
    refine ⟨?_, ?_⟩
    · intro hu he
      rw [hest hu, he]
      exact established_follows hinv.ordinary hkey hflow
    · intro hzero hne mark
      cases hu : updating s p.mac with
      | true =>
        rw [unfragmented_updating hinv.ordinary hkey hc hu]
        nofun
      | false =>
        rw [hest hu]
        exact established_stale hkey hflow hzero hne mark
  · intro hopens hu pending hmap hseq htime he
    have hpending : s.pendingHandoff p (epoch s p.mac) = some pending := by
      unfold KernelState.pendingHandoff
      rw [hkey, hmap, Option.filter_some, hseq, htime, he]
      simp only [decide_true, Bool.and_self, if_true]
    have hproxied := hinv.handoff pending hmap
    rw [doTproxyUnfragmented_eq hinv.ordinary hkey hc hu, hopens, hpending]
    refine ⟨rfl, hmap, ?_⟩
    have hstored := (storeFlow_entry s key pending.result).trans (entryOf_proxied hproxied)
    rwa [he] at hstored

/-- A program that routes everything alike. -/
def sampleMaps (outbound : BitVec 8) (mark : BitVec 32) : RoutingMaps .standard where
  routingMap _ := { type := .fallback, outbound, mark }
  routingInterfaceMap _ := none
  defaultRoutingProfile := 1
  routingProfileMap _ := some ⟨1, [0]⟩
  lpmArrayMap _ := none
  domainRoutingMap _ := none
  httpClientsMap := none
  outboundConnectivityMap _ := some 0

/-- Empty maps, with the epoch 3 for every device. -/
def sampleKernel (maps : RoutingMaps .standard) : KernelState .standard where
  routing := maps
  routingGeneration := 1
  now := 5000000000
  deviceRoutes _ := some { epoch := 3 }
  routeExempt _ _ := false
  tcpFlowMap _ := none
  routingTuplesMap _ := none
  udpBindingsMap _ := none
  udpRoutingCacheMap _ := none
  udpConnStateMap _ := none

def sampleFlow : TuplesKey :=
  { sip := 0xffff0a000001, dip := 0xffff0a000002, sport := 4000, dport := 443, l4proto := .tcp }

def sampleSyn : Packet := { five := sampleFlow, mac := 1, ipv4 := true, syn := true, seq := 9 }
def sampleAck : Packet := { five := sampleFlow, mac := 1, ipv4 := true, ack := true, seq := 10 }

/-- The state after a SYN that was direct with mark 7. -/
def sampleOpened : KernelState .standard :=
  ((sampleKernel (sampleMaps outboundDirect 7)).doTproxyUnfragmented sampleSyn).2

theorem reached_sampleOpened : Reached sampleFlow 1 sampleOpened (some ⟨3, .direct 7⟩) :=
  Reached.unfragmented sampleSyn (.start ⟨rfl, rfl, rfl⟩ rfl) rfl rfl

/-- An acknowledgement after it passes with that mark. -/
theorem follows_last_syn_direct : (sampleOpened.doTproxyUnfragmented sampleAck).1 = .next 7 :=
  ((follows_last_syn reached_sampleOpened sampleAck rfl rfl rfl).2.1 rfl _ rfl).1 rfl rfl

/-- The gate that userspace puts before the devices while it changes their policy. -/
def sampleGate : KernelState .standard :=
  { sampleOpened with deviceRoutes := fun _ => some { epoch := 3, updating := true } }

/-- Behind the gate the epoch is still the one of the SYN, but the packets of the connection are
dropped. -/
theorem dropped_while_updating :
    Reached sampleFlow 1 sampleGate (some ⟨3, .direct 7⟩) ∧ epoch sampleGate 1 = 3 ∧
      sampleAck.five = sampleFlow ∧ sampleAck.mac = 1 ∧ sampleAck.opens = false ∧
      (sampleGate.doTproxyUnfragmented sampleAck).1 = .drop :=
  ⟨reached_sampleOpened.between ⟨⟨rfl, rfl, rfl⟩, rfl, Or.inl rfl⟩, rfl, rfl, rfl, rfl, rfl⟩

end Flow

end Dae
