import Dae.Routing.Machine

/-!
# The two interpreters in lockstep

On one program, with the same answers to its predicates and the same liveness,
the kernel and userspace walk in step.  Their terminals differ in one place: at
a capture that must leave at once the kernel reports its must bit and userspace
reports none.  The programs that the compiler lays out never notice, because
such a capture always comes before every must control (`PhaseOrdered`).
-/

namespace Dae

open RuleMachine

/-- Captures that leave at once come before every must control, and no
instruction ends a destination predicate. -/
structure PhaseOrdered (prog : List MatchSet) : Prop where
  split : ∃ ingress rest, prog = ingress ++ rest ∧ (∀ m ∈ ingress, m.action ≠ .must) ∧
    (∀ m ∈ rest, m.action = .capture → m.captureFlags &&& captureExit = 0)
  kernel : ∀ m ∈ prog, m.action ≠ .matchHit ∧ m.action ≠ .miss

/-- The flow state of the kernel and of userspace before position `k`, where the
must controls start at `cut`.  Userspace does not record skipped outbounds. -/
structure FlowAgree (cut k : Nat) (f f' : Flow) : Prop where
  must : f'.must = f.must
  captureFlags : f'.captureFlags = f.captureFlags
  flowBump : f'.flowBump = f.flowBump
  inside : f.captureFlags &&& captureExit = 0
  early : k ≤ cut → f.must = .miss

/-- The kernel's end of a walk and userspace's. -/
def DecisionAgree (k : Option (RouteDecision × Bool)) (u : RoutingEvaluation) : Prop :=
  ∃ d skipped, k = some (d, skipped) ∧ u = d.evaluation

/-- **One terminal.**  Before the cut no must is set; after it no capture leaves. -/
theorem apply_agree {alive : BitVec 8 → Bool} {isdns : Bool} {cut k : Nat} {t : Terminal}
    (hmust : k < cut → t.action ≠ .must)
    (hexit : cut ≤ k → t.action = .capture → t.captureFlags &&& captureExit = 0)
    (hkernel : t.action ≠ .matchHit ∧ t.action ≠ .miss)
    (htail : t.action ≠ .or ∧ t.action ≠ .and ∧ t.action ≠ .conditionalJump) {f f' : Flow}
    (h : FlowAgree cut k f f') (doubt : Bool) :
    Sum.LiftRel (FlowAgree cut (k + 1)) DecisionAgree (applyKernel alive isdns f t doubt)
      (applyUser alive isdns true f' t doubt) := by
  obtain ⟨hm, hc, hb, hin, hearly⟩ := h
  have hnext : FlowAgree cut (k + 1) f f' := ⟨hm, hc, hb, hin, fun hk => hearly (by omega)⟩
  unfold applyKernel applyUser
  cases ha : t.action with
  | or => exact absurd ha htail.1
  | and => exact absurd ha htail.2.1
  | conditionalJump => exact absurd ha htail.2.2
  | matchHit => exact absurd ha hkernel.1
  | miss => exact absurd ha hkernel.2
  | must =>
    have hk : cut ≤ k := by
      by_contra hlt
      exact hmust (by omega) ha
    simp only [hm]
    exact .inl ⟨rfl, hc, hb, hin, fun hk' => by omega⟩
  | bump => exact .inl ⟨hm, hc, rfl, hin, fun hk => hearly (by omega)⟩
  | capture =>
    simp only [hc, Bool.true_and]
    by_cases hx : ((f.captureFlags ||| t.captureFlags) &&& captureExit != 0) = true
    · rw [if_pos hx, if_pos hx]
      -- Only an early capture can leave, and no must precedes it.
      have hk : k ≤ cut := by
        by_contra hgt
        have hflags := hexit (by omega) ha
        have : (f.captureFlags ||| t.captureFlags) &&& captureExit = 0 := by
          rw [BitVec.and_or_distrib_right, hin, hflags]
          rfl
        rw [this] at hx
        exact absurd hx (by decide)
      refine .inr ⟨_, _, rfl, ?_⟩
      simp [hearly hk, Flow.handOver, RouteDecision.evaluation]
    · rw [if_neg hx, if_neg hx]
      have hzero : (f.captureFlags ||| t.captureFlags) &&& captureExit = 0 := by
        simpa using hx
      exact .inl ⟨hm, rfl, hb, hzero, fun hk => hearly (by omega)⟩
  | flowEnd =>
    simp only [hm, hb, Bool.true_and]
    by_cases hd : (f.flowBump || decide (f.must = .maybe)) = true
    · rw [if_pos hd, if_pos hd]
      refine .inr ⟨_, _, rfl, ?_⟩
      simp [Flow.handOver, RouteDecision.evaluation, hc]
    · rw [if_neg hd, if_neg hd]
      exact .inl hnext
  | route =>
    simp only [hm]
    by_cases hs : (t.has matchFlagSkipNoalive && !alive t.outbound) = true
    · rw [if_pos hs, if_pos hs]
      exact .inl ⟨hm, hc, hb, hin, fun hk => hearly (by omega)⟩
    · rw [if_neg hs, if_neg hs]
      cases doubt with
      | true =>
        refine .inr ⟨_, _, rfl, ?_⟩
        simp [Flow.handOver, RouteDecision.evaluation, hc]
      | false =>
        refine .inr ⟨_, _, rfl, ?_⟩
        simp [Flow.commit, RouteDecision.evaluation, hc, hm]

variable {lim : Limits}

/-- **Lockstep.**  On a program in phase order, with equal answers, the two
walks end with the same decision, or neither ends with one. -/
theorem walks_agree {maps : RoutingMaps lim} {params : RouteParams} {m : RoutingMatcher lim}
    {p : RoutingInput lim} {src dst : Addr} {prog : List MatchSet} (hphase : PhaseOrdered prog)
    (hpred : ∀ ins ∈ prog, (routePredicate maps params ins).getD .miss =
      ((m.predicate p src dst ins).toOption).getD .miss)
    (halive : routeOutboundAlive maps params = m.usable p dst)
    (hdns : params.isdns = (p.dst.port == 53)) :
    Option.Rel DecisionAgree
      (walk (kernelWalker maps params) (prog.map MatchSet.ins) (State.start {}))
      (walk (userWalker m p src dst true) (prog.map MatchSet.ins) (State.start {})) := by
  obtain ⟨⟨ingress, rest, hprog, hmust, hexit⟩, hkernel⟩ := hphase
  refine walk_lockstep (FlowAgree ingress.length) ?_ ?_ ?_
    ⟨rfl, rfl, rfl, by decide, fun _ => rfl⟩
  · intro p q f f' h hpq
    exact ⟨h.must, h.captureFlags, h.flowBump, h.inside, fun hq => h.early (by omega)⟩
  · intro i hi
    obtain ⟨ins, hins, rfl⟩ := List.mem_map.mp hi
    exact hpred ins hins
  · intro k i t hi hop f f' doubt hf
    rw [List.getElem?_map] at hi
    obtain ⟨ins, hins, rfl⟩ := Option.map_eq_some_iff.mp hi
    have hmem := List.mem_of_getElem? hins
    -- A tail is an instruction with a terminal action.
    have hterm : t = ins.terminal ∧ ins.action ≠ .or ∧ ins.action ≠ .and ∧
        ins.action ≠ .conditionalJump := by
      have hop' : ins.op = .tail t := hop
      unfold MatchSet.op at hop'
      cases ha : ins.action <;> simp_all
    obtain ⟨rfl, htail⟩ := hterm
    show Sum.LiftRel _ _ (applyKernel (routeOutboundAlive maps params) params.isdns f _ doubt)
      (applyUser (m.usable p dst) (p.dst.port == 53) true f' _ doubt)
    rw [halive, hdns]
    refine apply_agree ?_ ?_ (hkernel ins hmem) htail hf doubt
    · intro hk
      have : ins ∈ ingress := by
        rw [hprog, List.getElem?_append_left hk] at hins
        exact List.mem_of_getElem? hins
      exact hmust ins this
    · intro hk
      have : ins ∈ rest := by
        rw [hprog, List.getElem?_append_right hk] at hins
        exact List.mem_of_getElem? hins
      exact hexit ins this

end Dae
