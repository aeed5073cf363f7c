import Dae.Lib.RuleCover
import Dae.Routing.Kernel
import Dae.Routing.Cursor

/-!
# Both interpreters are the rule machine

The kernel's loop and the userspace loop are two walkers of one rule machine
over the same instructions.  This module reads a `MatchSet` as an instruction of
the machine, gives each interpreter's effect of a terminal action as a function
of the accumulated flow state, and proves that the two loops are walks.
-/

namespace Dae

open Kleene RuleMachine

/-! ### Instructions -/

/-- The question of an instruction. -/
structure Atom where
  type : MatchType
  value : BitVec 128
  deriving DecidableEq, Repr

/-- The terminal of a rule. -/
structure Terminal where
  action : MatchAction
  outbound : BitVec 8 := 0
  mark : BitVec 32 := 0
  flags : BitVec 8 := 0
  deriving DecidableEq, Repr

def Terminal.has (t : Terminal) (flag : BitVec 8) : Bool := t.flags &&& flag != 0

/-- `MATCH_CAPTURE_FLAGS` of a terminal. -/
def Terminal.captureFlags (t : Terminal) : BitVec 8 := (t.flags >>> matchCaptureShift) &&& 7

namespace MatchSet

def atom (m : MatchSet) : Atom := ⟨m.type, m.value⟩

def terminal (m : MatchSet) : Terminal := ⟨m.action, m.outbound, m.mark, m.flags⟩

/-- How the machine uses an instruction. -/
def op (m : MatchSet) : Op Terminal :=
  match m.action with
  | .or => .or m.mark.toNat
  | .and => .and m.mark.toNat
  | .conditionalJump => .block m.mark.toNat
  | _ => .tail m.terminal

/-- The instruction of the machine. -/
def ins (m : MatchSet) : Ins Atom Terminal := ⟨m.atom, m.has matchFlagNot, m.op⟩

end MatchSet

/-- An instruction that asks what the atom asks and does nothing else. -/
def Atom.matchSet (a : Atom) : MatchSet := { type := a.type, value := a.value }

theorem missDistance_op (m : MatchSet) : m.op.missDistance =
    if m.action = .and ∨ m.action = .conditionalJump then m.mark.toNat else 1 := by
  unfold MatchSet.op
  cases m.action <;> rfl

variable {m : MatchSet}

theorem op_or (h : m.action = .or) : m.op = .or m.mark.toNat := by
  unfold MatchSet.op
  rw [h]

theorem op_and (h : m.action = .and) : m.op = .and m.mark.toNat := by
  unfold MatchSet.op
  rw [h]

theorem op_conditionalJump (h : m.action = .conditionalJump) :
    m.op = .block m.mark.toNat := by
  unfold MatchSet.op
  rw [h]

theorem op_tail (hor : m.action ≠ .or) (hand : m.action ≠ .and)
    (hcond : m.action ≠ .conditionalJump) : m.op = .tail m.terminal := by
  unfold MatchSet.op
  cases ha : m.action <;> first | rfl | contradiction

/-- A clause that already hits does not ask its predicate. -/
theorem or_unless_hit (a t : Truth) : a.or (if a = .hit then .hit else t) = a.or t := by
  split
  next h => simp [h]
  · rfl

/-- An alternative of a clause goes on with the answer so far. -/
theorem exec_or {S R : Type} {w : Walker Atom Terminal S R} {length : Nat} {s : State S}
    (h : m.action = .or) :
    exec w length s m.ins =
      advance length { s with clause := s.clause.or (w.pred m.ins.atom) }
        (if s.clause.or (w.pred m.ins.atom) = .hit then m.mark.toNat else 1) := by
  have hop : m.ins.op = .or m.mark.toNat := op_or h
  unfold exec
  rw [hop]

/-- Any other instruction ends its clause. -/
theorem exec_conclude {S R : Type} {w : Walker Atom Terminal S R} {length : Nat} {s : State S}
    (h : m.action ≠ .or) :
    exec w length s m.ins =
      conclude w length s m.op ((s.clause.or (w.pred m.ins.atom)).xor (m.has matchFlagNot)) := by
  have hop : ∀ d, m.op ≠ .or d := by
    intro d hd
    unfold MatchSet.op at hd
    cases ha : m.action <;> simp_all
  exact exec_tail hop

/-! ### Terminals -/

/-- What the terminals accumulate. -/
structure Flow where
  must : Truth := .miss
  captureFlags : BitVec 8 := 0
  flowBump : Bool := false
  skippedNoalive : Bool := false
  deriving DecidableEq, Repr

/-- The decision that leaves the flow to the control plane. -/
def Flow.handOver (f : Flow) (must : Bool) : RouteDecision :=
  { outbound := outboundControlPlaneRouting, mark := 0, must, captureFlags := f.captureFlags }

/-- The decision of a route terminal that is reached for certain. -/
def Flow.commit (f : Flow) (t : Terminal) (captureDns : Bool) : RouteDecision :=
  let must := decide (f.must = .hit) || t.has matchFlagMust
  { outbound := t.outbound
    mark := t.mark
    must
    captureFlags :=
      if !must && captureDns && !t.has matchFlagBypass then f.captureFlags ||| captureDNS
      else f.captureFlags }

/-- The effect of a terminal in the kernel: a stop without a decision is an
instruction that no kernel program may contain. -/
def applyKernel (alive : BitVec 8 → Bool) (isdns : Bool) (f : Flow) (t : Terminal)
    (doubt : Bool) : Flow ⊕ Option (RouteDecision × Bool) :=
  match t.action with
  | .must => .inl { f with must := if doubt then f.must.or .maybe else .hit }
  | .bump => .inl { f with flowBump := true }
  | .capture =>
    let f := { f with captureFlags := f.captureFlags ||| t.captureFlags }
    if f.captureFlags &&& captureExit != 0 then
      .inr (some (f.handOver (decide (f.must = .hit)), f.skippedNoalive))
    else .inl f
  | .flowEnd =>
    if f.flowBump || decide (f.must = .maybe) then
      .inr (some (f.handOver (decide (f.must = .hit)), f.skippedNoalive))
    else .inl f
  | .route =>
    if t.has matchFlagSkipNoalive && !alive t.outbound then
      .inl { f with skippedNoalive := true }
    else if doubt then .inr (some (f.handOver (decide (f.must = .hit)), f.skippedNoalive))
    else .inr (some (f.commit t isdns, f.skippedNoalive))
  | _ => .inr none

/-! ### The packed result -/

/-- The kernel's result word for a decision. -/
def packRouteResult (d : RouteDecision) (skipped : Bool) : BitVec 64 :=
  routeResultEncode d.outbound d.mark d.must |||
    d.captureFlags.setWidth 64 <<< routeResultCaptureShift |||
    (if skipped then routeResultSkippedNoalive else 0)

theorem routeResultEncode_msb (outbound : BitVec 8) (mark : BitVec 32) (must : Bool) :
    (routeResultEncode outbound mark must).msb = false := by
  simp [routeResultEncode, BitVec.msb_eq_getLsbD_last, routeResultMarkShift,
    routeResultMustShift]

theorem packRouteResult_msb (d : RouteDecision) (skipped : Bool) :
    (packRouteResult d skipped).msb = false := by
  cases skipped <;>
    simp [packRouteResult, routeResultEncode, BitVec.msb_eq_getLsbD_last, routeResultMarkShift,
      routeResultMustShift, routeResultCaptureShift, routeResultSkippedNoalive]

private theorem skipped_getLsbD (skipped : Bool) (i : Nat) :
    (if skipped then routeResultSkippedNoalive else (0 : BitVec 64)).getLsbD i =
      (skipped && decide (i = 41)) := by
  cases skipped with
  | false => simp
  | true =>
    have hpow : routeResultSkippedNoalive = BitVec.twoPow 64 41 := by decide
    simp only [if_true, Bool.true_and, hpow, BitVec.getLsbD_twoPow]
    by_cases h : i = 41
    · simp [h]
    · have h' : ¬41 = i := by omega
      simp [h, h']

/-- The fields of the result word do not overlap. -/
theorem packRouteResult_getLsbD (d : RouteDecision) (skipped : Bool) {i : Nat} (hi : i < 64) :
    (packRouteResult d skipped).getLsbD i =
      (d.outbound.getLsbD i || (decide (8 ≤ i) && d.mark.getLsbD (i - 8)) ||
        (decide (i = 40) && d.must) || (decide (42 ≤ i) && d.captureFlags.getLsbD (i - 42)) ||
        (skipped && decide (i = 41))) := by
  have hmust : ((BitVec.ofBool d.must).setWidth 64 <<< routeResultMustShift).getLsbD i =
      (decide (i = 40) && d.must) := by
    simp only [BitVec.getLsbD_shiftLeft, BitVec.getLsbD_setWidth, BitVec.getLsbD_ofBool,
      routeResultMustShift]
    rcases Nat.lt_trichotomy i 40 with h | rfl | h
    · simp [h, show i ≠ 40 by omega]
    · simp
    · simp [show i ≠ 40 by omega, show i - 40 ≠ 0 by omega]
  have hshift : ∀ k, (!decide (i < k)) = decide (k ≤ i) := by
    intro k
    rw [← decide_not]
    simp
  simp only [packRouteResult, routeResultEncode, BitVec.getLsbD_or, hmust, skipped_getLsbD]
  simp only [BitVec.getLsbD_shiftLeft, BitVec.getLsbD_setWidth, routeResultMarkShift,
    routeResultCaptureShift, hshift]
  simp [hi, show i - 8 < 64 by omega, show i - 42 < 64 by omega]

/-- **The control plane decodes what the kernel decided.** -/
theorem decode_pack (d : RouteDecision) (skipped : Bool) :
    decodeRouteResult (packRouteResult d skipped) = d := by
  obtain ⟨outbound, mark, must, captureFlags⟩ := d
  simp only [decodeRouteResult, RouteDecision.mk.injEq, routeResultMarkShift,
    routeResultMustShift, routeResultCaptureShift]
  refine ⟨?_, ?_, ?_, ?_⟩
  · apply BitVec.eq_of_getLsbD_eq
    intro i hi
    rw [BitVec.getLsbD_setWidth, packRouteResult_getLsbD _ _ (by omega)]
    simp [hi, show ¬8 ≤ i by omega, show i ≠ 40 by omega, show ¬42 ≤ i by omega,
      show i ≠ 41 by omega]
  · apply BitVec.eq_of_getLsbD_eq
    intro i hi
    rw [BitVec.getLsbD_setWidth, BitVec.getLsbD_ushiftRight,
      packRouteResult_getLsbD _ _ (by omega)]
    simp [hi, show 8 + i ≠ 40 by omega, show ¬42 ≤ 8 + i by omega, show 8 + i ≠ 41 by omega]
  · rw [packRouteResult_getLsbD _ _ (by omega)]
    simp
  · apply BitVec.eq_of_getLsbD_eq
    intro i hi
    rw [BitVec.getLsbD_setWidth, BitVec.getLsbD_ushiftRight,
      packRouteResult_getLsbD _ _ (by omega)]
    have hmark : mark.getLsbD (42 + i - 8) = false := BitVec.getLsbD_of_ge _ _ (by omega)
    have hout : outbound.getLsbD (42 + i) = false := BitVec.getLsbD_of_ge _ _ (by omega)
    simp [hi, hmark, hout, show 42 + i ≠ 40 by omega, show 42 + i ≠ 41 by omega]

/-! ### The kernel -/

variable {lim : Limits}

/-- The kernel as a walker. -/
def kernelWalker (maps : RoutingMaps lim) (params : RouteParams) :
    Walker Atom Terminal Flow (Option (RouteDecision × Bool)) where
  pred a := (routePredicate maps params a.matchSet).getD .miss
  apply := applyKernel (routeOutboundAlive maps params) params.isdns

/-- The result word of a walk. -/
def kernelResult : Option (Option (RouteDecision × Bool)) → BitVec 64
  | some (some (d, skipped)) => packRouteResult d skipped
  | _ => -(BitVec.ofNat 64 eperm)

/-- A profile value of the maps that spells `prog`, whose predicates are all
defined. -/
structure KernelProgram (maps : RoutingMaps lim) (params : RouteParams) (profile : ProfileValue)
    (prog : List MatchSet) : Prop where
  length_eq : profile.length = prog.length
  length_le : prog.length ≤ lim.maxMatchSetLen
  fetch : ∀ i m, prog[i]? = some m → (profile.steps.getD i 0).toNat < lim.maxMatchSetLen ∧
    maps.routingMap (profile.steps.getD i 0).toNat = m
  supported : ∀ m ∈ prog, (routePredicate maps params m).isSome

/-- A state of the machine as the kernel keeps it while it has no result. -/
def kernelState (s : State Flow) : RouteState where
  result := -(BitVec.ofNat 64 efault)
  position := s.position
  uncertainUntil := s.uncertainUntil
  clauseResult := s.clause
  must := s.acc.must
  captureFlags := s.acc.captureFlags
  ruleUncertain := s.ruleUncertain
  flowBump := s.acc.flowBump
  skippedNoalive := s.acc.skippedNoalive

/-- What a step of the kernel returns for a step of the machine. -/
def KernelStep (o : RouteState × RouteStepResult) :
    Outcome Flow (Option (RouteDecision × Bool)) → Prop
  | .next s => o = (kernelState s, .continue)
  | .stop r => o.2 = .stop ∧ routeFinish o.1 = kernelResult (some r)
  | .stuck => o.2 = .stop ∧ routeFinish o.1 = kernelResult none

theorem routeFinish_unset {st : RouteState} (h : st.result = -(BitVec.ofNat 64 efault)) :
    routeFinish st = -(BitVec.ofNat 64 eperm) := by
  have hmsb : (-(BitVec.ofNat 64 efault)).msb = true := by decide
  rw [routeFinish, h, hmsb]
  rfl

theorem routeFinish_set (st : RouteState) (outbound : BitVec 8) (mark : BitVec 32)
    (must : Bool) (h : st.result = routeResultEncode outbound mark must) :
    routeFinish st =
      packRouteResult ⟨outbound, mark, must, st.captureFlags⟩ st.skippedNoalive := by
  rw [routeFinish, h, routeResultEncode_msb]
  rfl

/-- A predicate reads only the type and the value of an instruction. -/
theorem routePredicate_atom (maps : RoutingMaps lim) (params : RouteParams) (m : MatchSet) :
    routePredicate maps params m.atom.matchSet = routePredicate maps params m := rfl

theorem kernelStep_advance (length : Nat) (s : State Flow) (d : Nat) :
    KernelStep (routeAdvance length (kernelState s) d) (advance length s d) := by
  unfold routeAdvance advance
  by_cases h : d = 0 ∨ length - s.position < d
  · have h' : d = 0 ∨ length - (kernelState s).position < d := h
    rw [if_pos h, if_pos h']
    exact ⟨rfl, routeFinish_unset rfl⟩
  · have h' : ¬(d = 0 ∨ length - (kernelState s).position < d) := h
    rw [if_neg h, if_neg h']
    rfl

/-- The kernel hands the flow over to userspace. -/
theorem kernelStep_handOver (s : State Flow) :
    KernelStep (toUserspace (kernelState s))
      (.stop (some (s.acc.handOver (decide (s.acc.must = .hit)), s.acc.skippedNoalive))) :=
  ⟨rfl, routeFinish_set _ _ _ _ rfl⟩

/-- A terminal of the kernel, and what the machine makes of it. -/
theorem kernelStep_terminal (maps : RoutingMaps lim) (params : RouteParams) (length : Nat)
    (s : State Flow) (m : MatchSet) (hor : m.action ≠ .or) (hand : m.action ≠ .and)
    (hcond : m.action ≠ .conditionalJump) :
    KernelStep (routeTerminal maps params length (kernelState s) m)
      (enter (kernelWalker maps params) length s (.tail m.terminal)) := by
  have hact : m.terminal.action = m.action := rfl
  have hnext : ∀ acc : Flow, KernelStep
      (routeAdvance length (kernelState { s with acc, ruleUncertain := false }) 1)
      (advance length { s with acc, ruleUncertain := false } 1) :=
    fun acc => kernelStep_advance length _ 1
  have hdoubt : ((kernelState s).ruleUncertain ||
      decide ((kernelState s).position < (kernelState s).uncertainUntil)) =
      (s.ruleUncertain || decide (s.position < s.uncertainUntil)) := rfl
  unfold routeTerminal enter kernelWalker
  simp only [hdoubt]
  generalize (s.ruleUncertain || decide (s.position < s.uncertainUntil)) = doubt
  unfold routeApply applyKernel
  simp only [hact]
  cases ha : m.action with
  | or => exact absurd ha hor
  | and => exact absurd ha hand
  | conditionalJump => exact absurd ha hcond
  | matchHit | miss => exact ⟨rfl, routeFinish_unset rfl⟩
  | must =>
    cases doubt with
    | false => exact hnext { s.acc with must := .hit }
    | true =>
      have hmust : (kernelState s).must = s.acc.must := rfl
      simp only [hmust, Bool.not_true, Bool.false_eq_true, if_false, if_true]
      by_cases hm : s.acc.must = .miss
      · rw [if_pos hm, hm]
        exact hnext { s.acc with must := .maybe }
      · -- A doubtful must does not lower a must that is already there.
        have hkeep : s.acc.must.or .maybe = s.acc.must := by
          cases hv : s.acc.must with
          | miss => exact absurd hv hm
          | maybe => rfl
          | hit => rfl
        rw [if_neg hm, hkeep]
        exact hnext s.acc
  | bump => exact hnext { s.acc with flowBump := true }
  | capture =>
    have hflags : (kernelState s).captureFlags ||| m.captureFlags =
        s.acc.captureFlags ||| m.terminal.captureFlags := rfl
    simp only [hflags]
    by_cases hexit : ((s.acc.captureFlags ||| m.terminal.captureFlags) &&& captureExit != 0) = true
    · rw [if_pos hexit, if_pos hexit]
      exact kernelStep_handOver { s with
        acc := { s.acc with captureFlags := s.acc.captureFlags ||| m.terminal.captureFlags } }
    · rw [if_neg hexit, if_neg hexit]
      exact hnext { s.acc with captureFlags := s.acc.captureFlags ||| m.terminal.captureFlags }
  | flowEnd =>
    have hdefer : ((kernelState s).flowBump || decide ((kernelState s).must = .maybe)) =
        (s.acc.flowBump || decide (s.acc.must = .maybe)) := rfl
    simp only [hdefer]
    by_cases hd : (s.acc.flowBump || decide (s.acc.must = .maybe)) = true
    · rw [if_pos hd, if_pos hd]
      exact kernelStep_handOver s
    · rw [if_neg hd, if_neg hd]
      exact hnext s.acc
  | route =>
    have hskip : (m.has matchFlagSkipNoalive && !routeOutboundAlive maps params m.outbound) =
        (m.terminal.has matchFlagSkipNoalive &&
          !routeOutboundAlive maps params m.terminal.outbound) := rfl
    simp only [hskip]
    by_cases hs : (m.terminal.has matchFlagSkipNoalive &&
        !routeOutboundAlive maps params m.terminal.outbound) = true
    · rw [if_pos hs, if_pos hs]
      exact hnext { s.acc with skippedNoalive := true }
    · rw [if_neg hs, if_neg hs]
      by_cases hu : doubt = true
      · rw [if_pos hu, if_pos hu]
        exact kernelStep_handOver s
      · rw [if_neg hu, if_neg hu]
        refine ⟨rfl, ?_⟩
        rw [routeFinish_set _ m.outbound m.mark _ rfl]
        have hdns : (!(decide ((kernelState s).must = .hit) || m.has matchFlagMust) &&
            params.isdns && !m.has matchFlagBypass) =
            (!(decide (s.acc.must = .hit) || m.terminal.has matchFlagMust) &&
              params.isdns && !m.terminal.has matchFlagBypass) := rfl
        simp only [kernelResult, Flow.commit, hdns]
        split <;> rfl

/-- The end of a clause in the kernel. -/
theorem kernelStep_conclude (maps : RoutingMaps lim) (params : RouteParams) (length : Nat)
    (s : State Flow) (m : MatchSet) (hor : m.action ≠ .or) (value : Truth) :
    KernelStep (routeConclude maps params length (kernelState { s with clause := .miss }) m value)
      (conclude (kernelWalker maps params) length s m.op value) := by
  have hmiss := missDistance_op m
  unfold routeConclude conclude
  simp only
  by_cases hv : value = .miss
  · rw [if_pos hv, if_pos hv, hmiss]
    exact kernelStep_advance length { s with clause := .miss, ruleUncertain := false } _
  · rw [if_neg hv, if_neg hv]
    by_cases hand : m.action = .and
    · rw [if_pos hand, op_and hand]
      exact kernelStep_advance length { s with
        clause := .miss
        ruleUncertain := s.ruleUncertain || decide (value = .maybe) } 1
    · rw [if_neg hand]
      by_cases hcond : m.action = .conditionalJump
      · rw [if_pos hcond, op_conditionalJump hcond]
        unfold enter
        simp only
        have hposition : (kernelState { s with clause := .miss }).position = s.position := rfl
        rw [hposition]
        by_cases hj : m.mark.toNat = 0 ∨ length - s.position < m.mark.toNat
        · rw [if_pos hj, if_pos hj]
          exact ⟨rfl, routeFinish_unset rfl⟩
        · rw [if_neg hj, if_neg hj]
          -- The kernel raises the bound only when it is lower: a maximum.
          have hu : (kernelState { s with clause := .miss }).uncertainUntil = s.uncertainUntil := rfl
          have hr : (kernelState { s with clause := .miss }).ruleUncertain = s.ruleUncertain := rfl
          rw [hu, hr]
          cases s.ruleUncertain || decide (value = .maybe) with
          | false => exact kernelStep_advance length { s with clause := .miss, ruleUncertain := false } 1
          | true =>
            by_cases hlt : s.uncertainUntil < s.position + m.mark.toNat
            · have hmax : max s.uncertainUntil (s.position + m.mark.toNat) =
                  s.position + m.mark.toNat := by omega
              simp only [hlt, hmax, decide_true, Bool.and_true, if_true]
              exact kernelStep_advance length { s with
                clause := .miss
                uncertainUntil := s.position + m.mark.toNat
                ruleUncertain := false } 1
            · have hmax : max s.uncertainUntil (s.position + m.mark.toNat) =
                  s.uncertainUntil := by omega
              simp only [hlt, hmax, decide_false, Bool.and_false, Bool.false_eq_true, if_false,
                if_true]
              exact kernelStep_advance length
                { s with clause := .miss, ruleUncertain := false } 1
      · rw [if_neg hcond, op_tail hor hand hcond]
        exact kernelStep_terminal maps params length { s with
          clause := .miss
          ruleUncertain := s.ruleUncertain || decide (value = .maybe) } m hor hand hcond

variable {prog : List MatchSet}

/-- **One kernel step is one step of the machine.** -/
theorem kernelStep_step {maps : RoutingMaps lim} {params : RouteParams}
    {profile : ProfileValue} (h : KernelProgram maps params profile prog)
    (s : State Flow) :
    KernelStep (routeStep maps params profile (kernelState s))
      (step (kernelWalker maps params) (prog.map MatchSet.ins) s) := by
  have hlen := h.length_eq
  have hle := h.length_le
  have hpos : (kernelState s).position = s.position := rfl
  by_cases hlt : s.position < prog.length
  · obtain ⟨m, hm⟩ : ∃ m, prog[s.position]? = some m := ⟨_, List.getElem?_eq_getElem hlt⟩
    obtain ⟨hk, hfetch⟩ := h.fetch s.position m hm
    obtain ⟨t, ht⟩ := Option.isSome_iff_exists.mp (h.supported m (List.mem_of_getElem? hm))
    have hin : ¬(lim.maxMatchSetLen ≤ s.position ∨ profile.length ≤ s.position) := by omega
    have hk' : ¬lim.maxMatchSetLen ≤ (profile.steps.getD s.position 0).toNat := by omega
    have hstep : step (kernelWalker maps params) (prog.map MatchSet.ins) s =
        exec (kernelWalker maps params) prog.length s m.ins := by
      simp [step, hm]
    have hpred : (kernelWalker maps params).pred m.ins.atom = t := by
      show (routePredicate maps params m.atom.matchSet).getD .miss = t
      rw [routePredicate_atom, ht]
      rfl
    rw [hstep, routeStep, hpos, if_neg hin, if_neg hk', hfetch, hlen]
    have hor : (if (kernelState s).clauseResult = .hit then some .hit
        else routePredicate maps params m) =
        some (if s.clause = .hit then .hit else t) := by
      rw [ht]
      show (if s.clause = .hit then some Truth.hit else some t) = _
      split <;> rfl
    rw [routeExecute, hor]
    simp only
    have hstate : (kernelState s).clauseResult = s.clause := rfl
    rw [hstate, or_unless_hit]
    by_cases ha : m.action = .or
    · rw [if_pos ha, exec_or ha, hpred]
      exact kernelStep_advance prog.length { s with clause := s.clause.or t } _
    · rw [if_neg ha, exec_conclude ha, hpred]
      exact kernelStep_conclude maps params prog.length s m ha _
  · have hin : lim.maxMatchSetLen ≤ s.position ∨ profile.length ≤ s.position := by omega
    have hnone : (prog.map MatchSet.ins)[s.position]? = none := by
      simp
      omega
    rw [routeStep, hpos, if_pos hin, step, hnone]
    exact ⟨rfl, routeFinish_unset rfl⟩

/-- **The kernel's bounded loop is the walk of its program.** -/
theorem routeLoop_eq_walk {maps : RoutingMaps lim} {params : RouteParams} {profile : ProfileValue}
    (h : KernelProgram maps params profile prog) :
    ∀ (fuel : Nat) (s : State Flow), prog.length - s.position ≤ fuel →
      routeFinish (routeLoop maps params profile fuel (kernelState s)) =
        kernelResult (walk (kernelWalker maps params) (prog.map MatchSet.ins) s) := by
  intro fuel
  induction fuel with
  | zero =>
    intro s hfuel
    have hend : (prog.map MatchSet.ins).length ≤ s.position := by
      rw [List.length_map]
      omega
    rw [walk, run_past_end hend]
    exact routeFinish_unset rfl
  | succ n ih =>
    intro s hfuel
    have hstep := kernelStep_step h s
    rw [routeLoop, walk_eq]
    cases hout : step (kernelWalker maps params) (prog.map MatchSet.ins) s with
    | next s' =>
      have hmove := step_eq_next hout
      rw [List.length_map] at hmove
      rw [hout] at hstep
      rw [show routeStep maps params profile (kernelState s) = (kernelState s', .continue)
        from hstep]
      exact ih s' (by omega)
    | stop r | stuck =>
      rw [hout] at hstep
      obtain ⟨hstop, hfinish⟩ := hstep
      revert hstop hfinish
      cases routeStep maps params profile (kernelState s) with
      | mk st res =>
        intro hstop hfinish
        cases hstop
        exact hfinish

/-! ### Userspace -/

/-- The evaluation that a decision is. -/
def RouteDecision.evaluation (d : RouteDecision) : RoutingEvaluation :=
  { outbound := d.outbound, mark := d.mark, must := d.must, captureFlags := d.captureFlags }

/-- The effect of a terminal in userspace, which leaves at a capture or a bump
only when it simulates the kernel, and then with a must bit of its own. -/
def applyUser (usable : BitVec 8 → Bool) (isdns simulateKernel : Bool) (f : Flow) (t : Terminal)
    (doubt : Bool) : Flow ⊕ RoutingEvaluation :=
  match t.action with
  | .must => .inl { f with must := if doubt then f.must.or .maybe else .hit }
  | .bump => .inl { f with flowBump := true }
  | .capture =>
    let f := { f with captureFlags := f.captureFlags ||| t.captureFlags }
    if simulateKernel && f.captureFlags &&& captureExit != 0 then
      .inr (f.handOver false).evaluation
    else .inl f
  | .flowEnd =>
    if (simulateKernel && f.flowBump) || decide (f.must = .maybe) then
      .inr (f.handOver (decide (f.must = .hit))).evaluation
    else .inl f
  | .matchHit => .inr { matched := true }
  | .miss => .inr {}
  | .route =>
    if t.has matchFlagSkipNoalive && !usable t.outbound then .inl f
    else if doubt then .inr (f.handOver (decide (f.must = .hit))).evaluation
    else .inr (f.commit t (simulateKernel && isdns)).evaluation
  | _ => .inl f

/-- Userspace as a walker. -/
def userWalker (m : RoutingMatcher lim) (p : RoutingInput lim) (src dst : Addr)
    (simulateKernel : Bool) : Walker Atom Terminal Flow RoutingEvaluation where
  pred a := ((m.predicate p src dst a.matchSet).toOption).getD .miss
  apply := applyUser (m.usable p dst) (p.dst.port == 53) simulateKernel

/-- Spans over the matcher's pool that spell `prog`, whose predicates are all
defined, none of them skipped at this stage from position `start` on. -/
structure UserProgram (m : RoutingMatcher lim) (p : RoutingInput lim) (src dst : Addr)
    (spans : List RoutingSpan) (prog : List MatchSet) (start : Nat) : Prop where
  fetch : (expand spans).map (m.pool[·]?) = prog.map some
  stage : ∀ c, CursorAt spans c → start ≤ c.position → ∀ s, spans[c.span]? = some s →
    ¬(p.stage = .routeAfterTarget ∧ s.phase = .ingress)
  supported : ∀ ins ∈ prog, ∃ t, m.predicate p src dst ins = .ok t

/-- A state of the machine as userspace keeps it. -/
def userState (c : RoutingCursor) (s : State Flow) : EvalState where
  cursor := c
  subrule := s.clause
  must := s.acc.must
  ruleUnknown := s.ruleUncertain
  flowBump := s.acc.flowBump
  uncertainUntil := s.uncertainUntil
  captureFlags := s.acc.captureFlags

/-- What a round of userspace does for a step of the machine. -/
def UserStep (spans : List RoutingSpan) (o : EvalStep) :
    Outcome Flow RoutingEvaluation → Prop
  | .next s => ∃ c, CursorAt spans c ∧ c.position = s.position ∧ o = .inl (userState c s)
  | .stop r => o = .inr (.ok r)
  | .stuck => ∃ err, o = .inr (.error err)

variable {spans : List RoutingSpan} {c : RoutingCursor}

theorem userStep_advance (hc : CursorAt spans c)
    (s : State Flow) (hpos : c.position = s.position) (i d : Nat) :
    UserStep spans (evaluateAdvance spans (userState c s) i d)
      (advance (spanExecutionLen spans) s d) := by
  unfold evaluateAdvance advance
  by_cases h0 : d = 0
  · rw [if_pos h0, if_pos (.inl h0)]
    exact ⟨_, rfl⟩
  · rw [if_neg h0]
    by_cases hfit : spanExecutionLen spans - s.position < d
    · have hnone : RoutingCursor.advance spans (userState c s).cursor d = none := by
        rw [RoutingCursor.advance, if_pos]
        show spanExecutionLen spans - c.position < d
        omega
      rw [hnone, if_pos (.inr hfit)]
      exact ⟨_, rfl⟩
    · have hle := hc.position_le
      obtain ⟨c', hadv, hc', hpos'⟩ := hc.advance (show c.position + d ≤ spanExecutionLen spans by omega)
      rw [show RoutingCursor.advance spans (userState c s).cursor d = some c' from hadv,
        if_neg (by omega)]
      exact ⟨c', hc', by simp only; omega, rfl⟩

/-- A terminal of userspace, and what the machine makes of it. -/
theorem userStep_terminal (m : RoutingMatcher lim) (p : RoutingInput lim) (src dst : Addr)
    (sim : Bool) (hc : CursorAt spans c)
    {s : State Flow} (hpos : c.position = s.position) (i : Nat) (ins : MatchSet)
    (hor : ins.action ≠ .or) (hand : ins.action ≠ .and) (hcond : ins.action ≠ .conditionalJump) :
    UserStep spans (m.evaluateTerminal p dst sim spans (userState c s) i ins)
      (enter (userWalker m p src dst sim) (spanExecutionLen spans) s (.tail ins.terminal)) := by
  have hact : ins.terminal.action = ins.action := rfl
  have hnext : ∀ acc : Flow, UserStep spans
      (evaluateAdvance spans (userState c { s with acc, ruleUncertain := false }) i 1)
      (advance (spanExecutionLen spans) { s with acc, ruleUncertain := false } 1) :=
    fun acc => userStep_advance hc { s with acc, ruleUncertain := false } hpos i 1
  have hdoubt : ((userState c s).ruleUnknown ||
      decide ((userState c s).cursor.position < (userState c s).uncertainUntil)) =
      (s.ruleUncertain || decide (s.position < s.uncertainUntil)) := by
    rw [← hpos]
    rfl
  unfold RoutingMatcher.evaluateTerminal enter userWalker
  simp only [hdoubt]
  generalize (s.ruleUncertain || decide (s.position < s.uncertainUntil)) = doubt
  unfold RoutingMatcher.evaluateAction applyUser
  simp only [hact]
  cases ha : ins.action with
  | or => exact absurd ha hor
  | and => exact absurd ha hand
  | conditionalJump => exact absurd ha hcond
  | matchHit => rfl
  | miss => rfl
  | must =>
    cases doubt with
    | false => exact hnext { s.acc with must := .hit }
    | true => exact hnext { s.acc with must := s.acc.must.or .maybe }
  | bump => exact hnext { s.acc with flowBump := true }
  | capture =>
    have hflags : (userState c s).captureFlags ||| ins.captureFlags =
        s.acc.captureFlags ||| ins.terminal.captureFlags := rfl
    simp only [hflags]
    by_cases hexit : (sim && (s.acc.captureFlags ||| ins.terminal.captureFlags) &&& captureExit
        != 0) = true
    · rw [if_pos hexit, if_pos hexit]
      rfl
    · rw [if_neg hexit, if_neg hexit]
      exact hnext { s.acc with captureFlags := s.acc.captureFlags ||| ins.terminal.captureFlags }
  | flowEnd =>
    have hdefer : ((sim && (userState c s).flowBump) || decide ((userState c s).must = .maybe)) =
        ((sim && s.acc.flowBump) || decide (s.acc.must = .maybe)) := rfl
    simp only [hdefer]
    by_cases hd : ((sim && s.acc.flowBump) || decide (s.acc.must = .maybe)) = true
    · rw [if_pos hd, if_pos hd]
      rfl
    · rw [if_neg hd, if_neg hd]
      exact hnext s.acc
  | route =>
    have hskip : (ins.has matchFlagSkipNoalive && !m.usable p dst ins.outbound) =
        (ins.terminal.has matchFlagSkipNoalive && !m.usable p dst ins.terminal.outbound) := rfl
    simp only [hskip]
    by_cases hs : (ins.terminal.has matchFlagSkipNoalive &&
        !m.usable p dst ins.terminal.outbound) = true
    · rw [if_pos hs, if_pos hs]
      exact hnext s.acc
    · rw [if_neg hs, if_neg hs]
      cases doubt with
      | true => rfl
      | false =>
        -- The two conditions on the DNS capture differ only in their order.
        have hdns : (sim && !(decide ((userState c s).must = .hit) || ins.has matchFlagMust) &&
            p.dst.port == 53 && !ins.has matchFlagBypass) =
            (!(decide (s.acc.must = .hit) || ins.terminal.has matchFlagMust) &&
              (sim && p.dst.port == 53) && !ins.terminal.has matchFlagBypass) := by
          have hm : (userState c s).must = s.acc.must := rfl
          have hh : ins.has = ins.terminal.has := rfl
          rw [hm, hh]
          cases sim <;> cases (decide (s.acc.must = .hit) || ins.terminal.has matchFlagMust) <;>
            simp
        simp only [hdns]
        rfl

/-- The end of a clause in userspace. -/
theorem userStep_clause (m : RoutingMatcher lim) (p : RoutingInput lim) (src dst : Addr)
    (sim : Bool) (hc : CursorAt spans c)
    (s : State Flow) (hpos : c.position = s.position) (i : Nat) (ins : MatchSet)
    (hor : ins.action ≠ .or) (value : Truth) :
    UserStep spans
      (m.evaluateClause p dst sim spans (userState c { s with clause := .miss }) i ins value)
      (conclude (userWalker m p src dst sim) (spanExecutionLen spans) s ins.op value) := by
  have hmiss := missDistance_op ins
  unfold RoutingMatcher.evaluateClause conclude
  simp only
  by_cases hv : value = .miss
  · rw [if_pos hv, if_pos hv, hmiss]
    exact userStep_advance hc { s with clause := .miss, ruleUncertain := false } hpos i _
  · rw [if_neg hv, if_neg hv]
    by_cases hand : ins.action = .and
    · rw [if_pos hand, op_and hand]
      exact userStep_advance hc { s with
        clause := .miss
        ruleUncertain := s.ruleUncertain || decide (value = .maybe) } hpos i 1
    · rw [if_neg hand]
      by_cases hcond : ins.action = .conditionalJump
      · rw [if_pos hcond, op_conditionalJump hcond]
        unfold enter
        simp only
        have hposition : (userState c { s with clause := .miss }).cursor.position = s.position :=
          hpos
        rw [hposition]
        by_cases hj : ins.mark.toNat = 0 ∨ spanExecutionLen spans - s.position < ins.mark.toNat
        · rw [if_pos hj, if_pos hj]
          exact ⟨_, rfl⟩
        · rw [if_neg hj, if_neg hj]
          have hr : (userState c { s with clause := .miss }).ruleUnknown = s.ruleUncertain := rfl
          rw [hr]
          cases s.ruleUncertain || decide (value = .maybe) with
          | false =>
            exact userStep_advance hc { s with clause := .miss, ruleUncertain := false } hpos i 1
          | true =>
            exact userStep_advance hc { s with
              clause := .miss
              uncertainUntil := max s.uncertainUntil (s.position + ins.mark.toNat)
              ruleUncertain := false } hpos i 1
      · rw [if_neg hcond, op_tail hor hand hcond]
        exact userStep_terminal m p src dst sim hc (s := { s with
          clause := .miss
          ruleUncertain := s.ruleUncertain || decide (value = .maybe) }) hpos i ins hor hand hcond

variable {p : RoutingInput lim} {src dst : Addr}

theorem UserProgram.length_eq {m : RoutingMatcher lim} {start : Nat}
    (h : UserProgram m p src dst spans prog start) : prog.length = spanExecutionLen spans := by
  have := congrArg List.length h.fetch
  simpa using this.symm

/-- **One round of userspace is one step of the machine.** -/
theorem userStep_step {m : RoutingMatcher lim} (sim : Bool) {start : Nat}
    (h : UserProgram m p src dst spans prog start) (hc : CursorAt spans c)
    {s : State Flow} (hpos : c.position = s.position) (hstart : start ≤ s.position) :
    UserStep spans (m.evaluateStep p src dst sim spans (userState c s))
      (step (userWalker m p src dst sim) (prog.map MatchSet.ins) s) := by
  have hlen := h.length_eq
  have hcursor : (userState c s).cursor = c := rfl
  rcases Nat.lt_or_ge s.position prog.length with hlt | hge
  · obtain ⟨span, -, hspan, hfirst, hlast, hexpand⟩ := hc.getElem (by omega)
    obtain ⟨ins, hins⟩ : ∃ ins, prog[s.position]? = some ins :=
      ⟨_, List.getElem?_eq_getElem hlt⟩
    have hpool : m.pool[c.instruction]? = some ins := by
      have hat := congrArg (fun l => l[s.position]?) h.fetch
      rw [List.getElem?_map, List.getElem?_map, ← hpos, hexpand, hpos, hins] at hat
      simpa using hat
    obtain ⟨t, ht⟩ := h.supported ins (List.mem_of_getElem? hins)
    have hstep : step (userWalker m p src dst sim) (prog.map MatchSet.ins) s =
        exec (userWalker m p src dst sim) (spanExecutionLen spans) s ins.ins := by
      unfold step
      rw [List.getElem?_map, hins, List.length_map, hlen]
      rfl
    have hpred : (userWalker m p src dst sim).pred ins.ins.atom = t := by
      show ((m.predicate p src dst ins).toOption).getD .miss = t
      rw [ht]
      rfl
    rw [hstep, RoutingMatcher.evaluateStep, hcursor, hspan]
    simp only
    rw [if_neg (h.stage c hc (hpos ▸ hstart) span hspan), hpool]
    simp only
    have hor : (if (userState c s).subrule = .hit then (.ok .hit : Except String Truth)
        else m.predicate p src dst ins) = .ok (if s.clause = .hit then .hit else t) := by
      rw [ht]
      show (if s.clause = .hit then (.ok .hit : Except String Truth) else .ok t) = _
      split <;> rfl
    have hsub : (userState c s).subrule = s.clause := rfl
    rw [RoutingMatcher.evaluateInstruction, hor]
    simp only
    rw [hsub, or_unless_hit]
    by_cases ha : ins.action = .or
    · rw [if_pos ha, exec_or ha, hpred]
      exact userStep_advance hc { s with clause := s.clause.or t } hpos _ _
    · rw [if_neg ha, exec_conclude ha, hpred]
      exact userStep_clause m p src dst sim hc s hpos _ ins ha _
  · have hle := hc.position_le
    have hnone : (prog.map MatchSet.ins)[s.position]? = none := by
      rw [List.getElem?_eq_none]
      rw [List.length_map]
      exact hge
    rw [RoutingMatcher.evaluateStep, hcursor, hc.getElem_none (by omega), step, hnone]
    exact ⟨_, rfl⟩

/-- What `evaluateSpans` returns for the end of a walk. -/
def UserResult (o : Except String RoutingEvaluation) : Option RoutingEvaluation → Prop
  | some r => o = .ok r
  | none => ∃ err, o = .error err

theorem evaluateLoop_eq_walk {m : RoutingMatcher lim} (sim : Bool) {start : Nat}
    (h : UserProgram m p src dst spans prog start) :
    ∀ (fuel : Nat) (c : RoutingCursor) (s : State Flow), CursorAt spans c →
      c.position = s.position → start ≤ s.position → prog.length - s.position < fuel →
      UserResult (m.evaluateLoop p src dst sim spans fuel (userState c s))
        (walk (userWalker m p src dst sim) (prog.map MatchSet.ins) s) := by
  intro fuel
  induction fuel with
  | zero =>
    intro c s _ _ _ hfuel
    omega
  | succ n ih =>
    intro c s hc hpos hstart hfuel
    have hstep := userStep_step sim h hc hpos hstart
    rw [RoutingMatcher.evaluateLoop, walk_eq]
    cases hout : step (userWalker m p src dst sim) (prog.map MatchSet.ins) s with
    | next s' =>
      have hmove := step_eq_next hout
      rw [List.length_map] at hmove
      rw [hout] at hstep
      obtain ⟨c', hc', hpos', hnext⟩ := hstep
      rw [hnext]
      exact ih c' s' hc' hpos' (by omega) (by omega)
    | stop r =>
      rw [hout] at hstep
      rw [show m.evaluateStep p src dst sim spans (userState c s) = .inr (.ok r) from hstep]
      rfl
    | stuck =>
      rw [hout] at hstep
      obtain ⟨err, herr⟩ := hstep
      rw [herr]
      exact ⟨err, rfl⟩

/-- **The userspace loop is the walk of its program.** -/
theorem evaluateSpans_eq_walk {m : RoutingMatcher lim} (hsrc : p.src.addr = some src)
    (hdst : p.dst.addr = some dst) (h : UserProgram m p src dst spans prog 0) :
    UserResult (m.evaluateSpans spans p)
      (walk (userWalker m p src dst p.simulateKernel) (prog.map MatchSet.ins)
        (State.start {})) := by
  obtain ⟨hc, hzero⟩ := cursorAt_new spans
  have hlen := h.length_eq
  unfold RoutingMatcher.evaluateSpans
  rw [hsrc, hdst]
  have hfuel : prog.length - (State.start ({} : Flow)).position < spanExecutionLen spans + 1 := by
    omega
  exact evaluateLoop_eq_walk p.simulateKernel h _ (newRoutingCursor spans) (State.start {}) hc
    hzero (Nat.zero_le _) hfuel

/-- A round at an ingress span after the target is known: the cursor leaves the span. -/
theorem evaluateStep_skip (m : RoutingMatcher lim) (src dst : Addr)
    (sim : Bool) (hc : CursorAt spans c)
    {s : RoutingSpan} (hs : spans[c.span]? = some s)
    (hstage : p.stage = .routeAfterTarget) (hphase : s.phase = .ingress)
    (hfit : c.position + (s.last - c.instruction) ≤ spanExecutionLen spans) :
    ∃ c', CursorAt spans c' ∧ c'.position = c.position + (s.last - c.instruction) ∧
      m.evaluateStep p src dst sim spans { cursor := c } = .inl { cursor := c' } := by
  obtain ⟨c', hadvance, hc', hpos'⟩ := hc.advance hfit
  refine ⟨c', hc', hpos', ?_⟩
  unfold RoutingMatcher.evaluateStep
  simp only [hs]
  rw [if_pos ⟨hstage, hphase⟩, hadvance]
  rfl

/-- **After the target is known**, the loop skips the ingress spans in front and walks
the rest of the program. -/
theorem evaluateLoop_skip {m : RoutingMatcher lim} (sim : Bool) {first rest : List RoutingSpan}
    (h : UserProgram m p src dst (first ++ rest) prog (spanExecutionLen first))
    (hstage : p.stage = .routeAfterTarget) (hfirst : ∀ s ∈ first, s.phase = .ingress) :
    ∀ (fuel : Nat) (c : RoutingCursor), CursorAt (first ++ rest) c →
      c.position ≤ spanExecutionLen first → prog.length - c.position < fuel →
      UserResult (m.evaluateLoop p src dst sim (first ++ rest) fuel { cursor := c })
        (walk (userWalker m p src dst sim) (prog.map MatchSet.ins)
          { State.start {} with position := spanExecutionLen first }) := by
  have hlen := h.length_eq
  have htotal := spanExecutionLen_append first rest
  intro fuel
  induction fuel with
  | zero =>
    intro c _ _ hfuel
    omega
  | succ n ih =>
    intro c hc hle hfuel
    by_cases hend : c.position = spanExecutionLen first
    · have hwalk := evaluateLoop_eq_walk sim h (n + 1) c
        { State.start {} with position := spanExecutionLen first } hc hend (Nat.le_refl _)
        (by rw [← hend]; exact hfuel)
      rw [show userState c { State.start {} with position := spanExecutionLen first } =
        { cursor := c } from rfl] at hwalk
      exact hwalk
    · obtain ⟨s, -, hs, -, -, -⟩ := hc.getElem (by omega)
      rcases hc.split hs with ⟨-, hmem, hlast, hfit⟩ | ⟨hge, -⟩
      · obtain ⟨c', hc', hpos', hstep⟩ := evaluateStep_skip m src dst sim hc hs hstage
          (hfirst s hmem) (by omega)
        rw [RoutingMatcher.evaluateLoop, hstep]
        exact ih c' hc' (by omega) (by omega)
      · omega

/-- `evaluateSpans` on staged spans: the walk starts behind the spans that it skips. -/
theorem evaluateSpans_eq_walk_from {m : RoutingMatcher lim} {first rest : List RoutingSpan}
    (hsrc : p.src.addr = some src) (hdst : p.dst.addr = some dst)
    (h : UserProgram m p src dst (first ++ rest) prog (spanExecutionLen first))
    (hstage : p.stage = .routeAfterTarget) (hfirst : ∀ s ∈ first, s.phase = .ingress) :
    UserResult (m.evaluateSpans (first ++ rest) p)
      (walk (userWalker m p src dst p.simulateKernel) (prog.map MatchSet.ins)
        { State.start {} with position := spanExecutionLen first }) := by
  obtain ⟨hc, hzero⟩ := cursorAt_new (first ++ rest)
  have hlen := h.length_eq
  unfold RoutingMatcher.evaluateSpans
  rw [hsrc, hdst]
  exact evaluateLoop_skip p.simulateKernel h hstage hfirst _ _ hc (by omega) (by omega)

end Dae
