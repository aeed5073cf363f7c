import Dae.Outbound.Lease

/-!
# Invalidation reaches all dependents

What the sections of the threads do to the graph of leases and to the callbacks, and what
follows for every interleaving.

* `Grows` — a lease keeps its parents, and its first cause and action;
* `Graph`, `Watch` — the invariants of the leases and of the callbacks.
-/

namespace Dae

namespace LeaseHeap

@[simp]
theorem lease_setLease (s : LeaseHeap) (l m : Nat) (lease : Lease) :
    (s.setLease l lease).lease m = if m = l then lease else s.lease m :=
  Function.update_apply _ _ _ _

@[simp]
theorem callback_setCallback (s : LeaseHeap) (k m : Nat) (callback : AbortCallback) :
    (s.setCallback k callback).callback m = if m = k then callback else s.callback m :=
  Function.update_apply _ _ _ _

/-! ### What no section undoes -/

structure Grows (s s' : LeaseHeap) : Prop where
  count : s.count ≤ s'.count
  callbackCount : s.callbackCount ≤ s'.callbackCount
  parents : ∀ l, l < s.count → (s'.lease l).parents = (s.lease l).parents
  ended : ∀ l, (s.lease l).cause ≠ none → (s'.lease l).cause = (s.lease l).cause ∧
    (s'.lease l).aborted = (s.lease l).aborted ∧ (s'.lease l).taken = (s.lease l).taken
  children : ∀ l p, l ∈ (s'.lease p).children →
    l ∈ (s.lease p).children ∨ (s.lease l).cause = none
  callback : ∀ k, k < s.callbackCount → (s'.callback k).lease = (s.callback k).lease ∧
    ((s'.callback k).state = .pending → (s.callback k).state = .pending)

instance : Std.Refl Grows where
  refl _ := ⟨le_rfl, le_rfl, fun _ _ => rfl, fun _ _ => ⟨rfl, rfl, rfl⟩, fun _ _ => .inl,
    fun _ _ => ⟨rfl, id⟩⟩

instance : IsTrans LeaseHeap Grows where
  trans s₁ s₂ s₃ h₁ h₂ := by
    refine ⟨h₁.count.trans h₂.count, h₁.callbackCount.trans h₂.callbackCount, fun l hl => ?_,
      fun l hl => ?_, fun l p hl => ?_, fun k hk => ?_⟩
    · exact (h₂.parents l (hl.trans_le h₁.count)).trans (h₁.parents l hl)
    · obtain ⟨hcause, haborted, htaken⟩ := h₁.ended l hl
      obtain ⟨hcause', haborted', htaken'⟩ := h₂.ended l (hcause ▸ hl)
      exact ⟨hcause'.trans hcause, haborted'.trans haborted, htaken'.trans htaken⟩
    · rcases h₂.children l p hl with hmem | hnone
      · exact h₁.children l p hmem
      · refine .inr (not_not.mp fun hended => hended ?_)
        rw [← (h₁.ended l hended).1, hnone]
    · obtain ⟨hlease, hstate⟩ := h₁.callback k hk
      obtain ⟨hlease', hstate'⟩ := h₂.callback k (hk.trans_le h₁.callbackCount)
      exact ⟨hlease'.trans hlease, fun h => hstate (hstate' h)⟩

/-! ### The invariants -/

/-- The graph of the leases: children are registered with valid parents only, and the children
of a lease whose invalidation has returned are not registered. -/
structure Graph (s : LeaseHeap) : Prop where
  fresh : ∀ l, s.count ≤ l → (s.lease l).parents = [] ∧ (s.lease l).cause = none
  parents : ∀ l p, some p ∈ (s.lease l).parents → p < l
  children : ∀ l p, l ∈ (s.lease p).children →
    l < s.count ∧ some p ∈ (s.lease l).parents ∧ (s.lease p).cause = none
  returned : ∀ l result, (l, result) ∈ s.returned → (s.lease l).cause ≠ none
  unlinked : ∀ l p, (l, true) ∈ s.returned → l ∉ (s.lease p).children

/-- The state of a callback, by what has happened to its lease. -/
structure CallbackSound (s : LeaseHeap) (k : Nat) : Prop where
  pending : (s.callback k).state = .pending → (s.callback k).runs = 0 ∧ (s.callback k).stopped = false
  scheduled : (s.callback k).state = .scheduled → (s.callback k).runs = 1 ∧
    (s.callback k).stopped = false ∧ (s.lease (s.callback k).lease).cause ≠ none ∧
    (s.lease (s.callback k).lease).aborted = true
  stopped : (s.callback k).state = .stopped → (s.callback k).runs = 0 ∧
    ((s.callback k).stopped = true ∨ ((s.lease (s.callback k).lease).cause ≠ none ∧
      (s.lease (s.callback k).lease).aborted = false))

/-- The callbacks: one that is pending is registered, or taken by an invalidation that has not
returned. -/
structure Watch (s : LeaseHeap) : Prop where
  lease : ∀ k, k < s.callbackCount → (s.callback k).lease < s.count
  onAbort : ∀ l k, k ∈ (s.lease l).onAbort → k < s.callbackCount ∧ (s.callback k).lease = l
  taken : ∀ l k, k ∈ (s.lease l).taken → k < s.callbackCount
  made : ∀ k, k ∈ s.made → k < s.callbackCount ∧ ((s.callback k).state = .pending →
    if (s.lease (s.callback k).lease).cause = none
    then k ∈ (s.lease (s.callback k).lease).onAbort else k ∈ (s.lease (s.callback k).lease).taken)
  released : ∀ l k, (l, true) ∈ s.returned → k ∈ (s.lease l).taken →
    (s.callback k).state ≠ .pending
  callback : ∀ k, k < s.callbackCount → s.CallbackSound k

/-- What holds of a waiting job. -/
def Assert (s : LeaseHeap) : LeaseJob → Prop
  | .link l parents => l < s.count ∧ ∀ p, some p ∈ parents → some p ∈ (s.lease l).parents
  | .invalidate l _ _ => l < s.count
  | .propagate l children parents callbacks cause aborted =>
    (s.lease l).cause = some cause ∧ (s.lease l).aborted = aborted ∧
      (∀ c ∈ children, c < s.count) ∧
      (∀ p, l ∈ (s.lease p).children → some p ∈ parents) ∧
      (∀ k ∈ callbacks, k < s.callbackCount ∧ (s.callback k).lease = l) ∧
      ∀ k ∈ (s.lease l).taken, k < s.callbackCount ∧
        ((s.callback k).state = .pending → k ∈ callbacks)
  | .start k => k < s.callbackCount ∧ (s.lease (s.callback k).lease).cause ≠ none ∧
      (s.lease (s.callback k).lease).aborted = true
  | .unregister k => k < s.callbackCount ∧ (s.callback k).state ≠ .pending

variable {s s' : LeaseHeap}

theorem assert_stable {job : LeaseJob} (hgrows : Grows s s')
    (h : s.Assert job) : s'.Assert job := by
  cases job with
  | link l parents =>
    refine ⟨h.1.trans_le hgrows.count, fun p hp => ?_⟩
    rw [hgrows.parents l h.1]
    exact h.2 p hp
  | invalidate l cause aborted => exact lt_of_lt_of_le h hgrows.count
  | propagate l children parents callbacks cause aborted =>
    obtain ⟨hcause, haborted, hchildren, hparents, hcallbacks, htaken⟩ := h
    have hended : (s.lease l).cause ≠ none := by simp [hcause]
    obtain ⟨hcause', haborted', htaken'⟩ := hgrows.ended l hended
    refine ⟨hcause'.trans hcause, haborted'.trans haborted,
      fun c hc => (hchildren c hc).trans_le hgrows.count, fun p hp => ?_, fun k hk => ?_,
      fun k hk => ?_⟩
    · exact hparents p ((hgrows.children l p hp).resolve_right hended)
    · obtain ⟨hlt, hlease⟩ := hcallbacks k hk
      exact ⟨hlt.trans_le hgrows.callbackCount, ((hgrows.callback k hlt).1).trans hlease⟩
    · obtain ⟨hlt, hpending⟩ := htaken k (htaken' ▸ hk)
      exact ⟨hlt.trans_le hgrows.callbackCount,
        fun hstate => hpending ((hgrows.callback k hlt).2 hstate)⟩
  | start k =>
    obtain ⟨hlt, hended, haborted⟩ := h
    obtain ⟨hcause', haborted', _⟩ := hgrows.ended _ hended
    have hlease := (hgrows.callback k hlt).1
    refine ⟨hlt.trans_le hgrows.callbackCount, ?_, ?_⟩
    · rw [hlease, hcause']
      exact hended
    · rw [hlease, haborted', haborted]
  | unregister k =>
    exact ⟨h.1.trans_le hgrows.callbackCount, fun hstate => h.2 ((hgrows.callback k h.1).2 hstate)⟩

/-! ### Sections on the graph -/

/-- A callback stays sound while it and the end of its lease stay the same. -/
theorem CallbackSound.congr {k : Nat} (h : s.CallbackSound k) (hcallback : s'.callback k = s.callback k)
    (hended : (s.lease (s.callback k).lease).cause ≠ none →
      (s'.lease (s.callback k).lease).cause = (s.lease (s.callback k).lease).cause ∧
      (s'.lease (s.callback k).lease).aborted = (s.lease (s.callback k).lease).aborted) :
    s'.CallbackSound k := by
  refine ⟨fun hstate => ?_, fun hstate => ?_, fun hstate => ?_⟩ <;> rw [hcallback] at hstate ⊢
  · exact h.pending hstate
  · obtain ⟨hruns, hstop, hcause, haborted⟩ := h.scheduled hstate
    rw [(hended hcause).1, (hended hcause).2]
    exact ⟨hruns, hstop, hcause, haborted⟩
  · obtain ⟨hruns, hstop⟩ := h.stopped hstate
    refine ⟨hruns, hstop.imp_right fun ⟨hcause, haborted⟩ => ?_⟩
    rw [(hended hcause).1, (hended hcause).2]
    exact ⟨hcause, haborted⟩

/-- The invariants of the shared state. -/
def Sound (s : LeaseHeap) : Prop := s.Graph ∧ s.Watch

variable {l : Nat}

/-- What a section may make of a lease: its end stays, only a valid child of a valid parent is
added, and the callbacks that are pending are kept. -/
structure LeaseStep (s : LeaseHeap) (l : Nat) (lease : Lease) : Prop where
  ended : (s.lease l).cause ≠ none → lease.cause = (s.lease l).cause ∧
    lease.aborted = (s.lease l).aborted ∧ lease.taken = (s.lease l).taken
  children : ∀ m ∈ lease.children, (m ∈ (s.lease l).children ∨ (m < s.count ∧
    some l ∈ (s.lease m).parents ∧ (s.lease m).cause = none)) ∧ lease.cause = none
  onAbort : ∀ k ∈ lease.onAbort, k < s.callbackCount ∧ (s.callback k).lease = l
  taken : ∀ k ∈ lease.taken, k < s.callbackCount
  made : ∀ k ∈ s.made, (s.callback k).lease = l → (s.callback k).state = .pending →
    if lease.cause = none then k ∈ lease.onAbort else k ∈ lease.taken

/-- **A section on one lease.**  A new one is the next in number. -/
theorem setLease_sound {lease : Lease} (count : Nat) (hsound : s.Sound)
    (hstep : s.LeaseStep l lease) (hcount : s.count ≤ count)
    (hsame : l < s.count → lease.parents = (s.lease l).parents)
    (hfresh : count ≤ l → lease.parents = [] ∧ lease.cause = none)
    (hparents : ∀ p, some p ∈ lease.parents → p < l) :
    Grows s { s.setLease l lease with count } ∧ { s.setLease l lease with count }.Sound := by
  obtain ⟨hgraph, hwatch⟩ := hsound
  generalize hs : { s.setLease l lease with count } = s'
  have hself : s'.lease l = lease := hs ▸ (lease_setLease s l l lease).trans (if_pos rfl)
  have hother : ∀ m, m ≠ l → s'.lease m = s.lease m := fun m hm =>
    hs ▸ (lease_setLease s l m lease).trans (if_neg hm)
  have hkept : ∀ m, m < s.count → (s'.lease m).parents = (s.lease m).parents := by
    intro m hm
    by_cases heq : m = l
    · rw [heq, hself, hsame (heq ▸ hm)]
    · rw [hother m heq]
  have hended : ∀ m, (s.lease m).cause ≠ none → (s'.lease m).cause = (s.lease m).cause ∧
      (s'.lease m).aborted = (s.lease m).aborted ∧ (s'.lease m).taken = (s.lease m).taken := by
    intro m hm
    by_cases heq : m = l
    · subst heq
      rw [hself]
      exact hstep.ended hm
    · rw [hother m heq]
      exact ⟨rfl, rfl, rfl⟩
  have hchildren : ∀ m q, m ∈ (s'.lease q).children → (m ∈ (s.lease q).children ∨ (m < s.count ∧
      some q ∈ (s.lease m).parents ∧ (s.lease m).cause = none)) ∧ (s'.lease q).cause = none := by
    intro m q hm
    by_cases heq : q = l
    · subst heq
      rw [hself] at hm ⊢
      exact hstep.children m hm
    · rw [hother q heq] at hm ⊢
      exact ⟨.inl hm, (hgraph.children m q hm).2.2⟩
  have hmade : ∀ k ∈ s.made, (s.callback k).state = .pending →
      if (s'.lease (s.callback k).lease).cause = none
      then k ∈ (s'.lease (s.callback k).lease).onAbort
      else k ∈ (s'.lease (s.callback k).lease).taken := by
    intro k hk hstate
    by_cases heq : (s.callback k).lease = l
    · rw [heq, hself]
      exact hstep.made k hk heq hstate
    · rw [hother _ heq]
      exact (hwatch.made k hk).2 hstate
  subst hs
  refine ⟨⟨hcount, le_rfl, hkept, hended, fun m q hm => ?_, fun _ _ => ⟨rfl, id⟩⟩,
    ⟨fun m hm => ?_, fun m q hq => ?_, fun m q hm => ?_, fun m result hm => ?_,
      fun m q hm hmem => ?_⟩,
    ⟨fun k hk => (hwatch.lease k hk).trans_le hcount, fun m k hk => ?_, fun m k hk => ?_,
      fun k hk => ⟨(hwatch.made k hk).1, hmade k hk⟩, fun m k hm hk => ?_, fun k hk => ?_⟩⟩
  · exact (hchildren m q hm).1.imp_right fun hnew => hnew.2.2
  · by_cases heq : m = l
    · rw [heq, hself]
      exact hfresh (heq ▸ hm)
    · rw [hother m heq]
      exact hgraph.fresh m (hcount.trans hm)
  · by_cases heq : m = l
    · subst heq
      exact hparents q (hself ▸ hq)
    · exact hgraph.parents m q (hother m heq ▸ hq)
  · obtain ⟨hcases, hvalid⟩ := hchildren m q hm
    have hlink : m < s.count ∧ some q ∈ (s.lease m).parents := by
      rcases hcases with hold | ⟨hlt, hparent, -⟩
      · obtain ⟨hlt, hparent, -⟩ := hgraph.children m q hold
        exact ⟨hlt, hparent⟩
      · exact ⟨hlt, hparent⟩
    rw [hkept m hlink.1]
    exact ⟨hlink.1.trans_le hcount, hlink.2, hvalid⟩
  · have hm' := hgraph.returned m result hm
    rw [(hended m hm').1]
    exact hm'
  · rcases (hchildren m q hmem).1 with hold | ⟨-, -, hvalid⟩
    · exact hgraph.unlinked m q hm hold
    · exact hgraph.returned m true hm hvalid
  · by_cases heq : m = l
    · subst heq
      exact hstep.onAbort k (hself ▸ hk)
    · exact hwatch.onAbort m k (hother m heq ▸ hk)
  · by_cases heq : m = l
    · subst heq
      exact hstep.taken k (hself ▸ hk)
    · exact hwatch.taken m k (hother m heq ▸ hk)
  · rw [(hended m (hgraph.returned m true hm)).2.2] at hk
    exact hwatch.released m k hm hk
  · exact (hwatch.callback k hk).congr rfl fun hcause =>
      ⟨(hended _ hcause).1, (hended _ hcause).2.1⟩

/-- A section on the children of a lease: only a valid child of a valid parent is added. -/
theorem setChildren_sound {p : Nat} {children : List Nat} (hsound : s.Sound)
    (h : ∀ m ∈ children, m ∈ (s.lease p).children ∨ (m < s.count ∧ some p ∈ (s.lease m).parents ∧
      (s.lease m).cause = none ∧ (s.lease p).cause = none)) :
    Grows s (s.setLease p { s.lease p with children }) ∧
      (s.setLease p { s.lease p with children }).Sound := by
  obtain ⟨hgraph, hwatch⟩ := hsound
  refine setLease_sound s.count ⟨hgraph, hwatch⟩ ⟨fun _ => ⟨rfl, rfl, rfl⟩, fun m hm => ?_,
    hwatch.onAbort p, hwatch.taken p, fun k hk heq hstate => ?_⟩ le_rfl (fun _ => rfl)
    (hgraph.fresh p) (hgraph.parents p)
  · rcases h m hm with hold | ⟨hlt, hparent, hvalid, hvalid'⟩
    · exact ⟨.inl hold, (hgraph.children m p hold).2.2⟩
    · exact ⟨.inr ⟨hlt, hparent, hvalid⟩, hvalid'⟩
  · have hpending := (hwatch.made k hk).2 hstate
    rwa [heq] at hpending

/-- The first invalidation of a lease. -/
theorem endLease_sound (cause : String) (aborted : Bool)
    (hsound : s.Sound) (hl : l < s.count) (hvalid : (s.lease l).cause = none) :
    Grows s (s.endLease l cause aborted) ∧ (s.endLease l cause aborted).Sound := by
  obtain ⟨hgraph, hwatch⟩ := hsound
  refine setLease_sound s.count ⟨hgraph, hwatch⟩ ⟨fun h => absurd hvalid h, nofun, nofun,
    fun k hk => (hwatch.onAbort l k hk).1, fun k hk heq hstate => ?_⟩ le_rfl (fun _ => rfl)
    (fun h => absurd hl (not_lt.mpr h)) (hgraph.parents l)
  have hpending := (hwatch.made k hk).2 hstate
  rw [heq, if_pos hvalid] at hpending
  rw [if_neg (by simp)]
  exact hpending

/-- A call of `invalidate` returns; behind the first one, the lease is in no set of children and
its callbacks are no longer pending. -/
theorem leave_sound {result : Bool} (hsound : s.Sound)
    (hended : (s.lease l).cause ≠ none)
    (hunlinked : result = true → ∀ p, l ∉ (s.lease p).children)
    (hreleased : result = true → ∀ k ∈ (s.lease l).taken, (s.callback k).state ≠ .pending) :
    Grows s (s.leave l result) ∧ (s.leave l result).Sound := by
  obtain ⟨hgraph, hwatch⟩ := hsound
  have hmem : ∀ m b, (m, b) ∈ (s.leave l result).returned →
      (m = l ∧ b = result) ∨ (m, b) ∈ s.returned := by
    intro m b hm
    rcases List.mem_cons.mp hm with heq | hold
    · exact .inl (Prod.mk.injEq m b l result ▸ heq)
    · exact .inr hold
  refine ⟨⟨le_rfl, le_rfl, fun _ _ => rfl, fun _ _ => ⟨rfl, rfl, rfl⟩, fun _ _ => .inl,
    fun _ _ => ⟨rfl, id⟩⟩, ⟨hgraph.fresh, hgraph.parents, hgraph.children, fun m b hm => ?_,
    fun m p hm => ?_⟩, ⟨hwatch.lease, hwatch.onAbort, hwatch.taken, hwatch.made, fun m k hm hk => ?_,
    fun k hk => (hwatch.callback k hk).congr rfl fun _ => ⟨rfl, rfl⟩⟩⟩
  · rcases hmem m b hm with ⟨rfl, _⟩ | hold
    · exact hended
    · exact hgraph.returned m b hold
  · rcases hmem m true hm with ⟨rfl, hresult⟩ | hold
    · exact hunlinked hresult.symm p
    · exact hgraph.unlinked m p hold
  · rcases hmem m true hm with ⟨rfl, hresult⟩ | hold
    · exact hreleased hresult.symm k hk
    · exact hwatch.released m k hold hk

/-- A new lease is in no set of children and has no callbacks. -/
theorem newLease_sound {parents : List (Option Nat)} (hsound : s.Sound)
    (hparents : ∀ p, some p ∈ parents → p < s.count) :
    Grows s (s.newLease parents) ∧ (s.newLease parents).Sound := by
  obtain ⟨hgraph, hwatch⟩ := hsound
  refine setLease_sound (s.count + 1) ⟨hgraph, hwatch⟩
    ⟨fun h => absurd (hgraph.fresh _ le_rfl).2 h, nofun, nofun, nofun, fun k hk heq => ?_⟩
    (Nat.le_succ _) (fun h => absurd h (lt_irrefl _)) (fun h => absurd h (Nat.not_succ_le_self _))
    hparents
  exact absurd (hwatch.lease k (hwatch.made k hk).1) (heq ▸ lt_irrefl _)

/-! ### Sections on the callbacks -/

variable {k : Nat}

/-- **A section on one callback.**  One that exists leaves the pending state, and a new one is the
next in number. -/
theorem putCallback_sound {callback : AbortCallback} (count : Nat) (hsound : s.Sound)
    (hcount : s.callbackCount ≤ count) (hlast : ∀ m < count, m ≠ k → m < s.callbackCount)
    (hsame : k < s.callbackCount → callback.lease = (s.callback k).lease ∧ callback.state ≠ .pending)
    (hlease : callback.lease < s.count)
    (hcallback : { s.setCallback k callback with callbackCount := count }.CallbackSound k) :
    Grows s { s.setCallback k callback with callbackCount := count } ∧
      { s.setCallback k callback with callbackCount := count }.Sound := by
  obtain ⟨hgraph, hwatch⟩ := hsound
  generalize hs : { s.setCallback k callback with callbackCount := count } = s' at hcallback ⊢
  have hself : s'.callback k = callback := hs ▸ (callback_setCallback s k k callback).trans (if_pos rfl)
  have hother : ∀ m, m ≠ k → s'.callback m = s.callback m := fun m hm =>
    hs ▸ (callback_setCallback s k m callback).trans (if_neg hm)
  have hkept : ∀ m, m < s.callbackCount → (s'.callback m).lease = (s.callback m).lease ∧
      ((s'.callback m).state = .pending → (s.callback m).state = .pending) := by
    intro m hm
    by_cases heq : m = k
    · subst heq
      rw [hself]
      exact (hsame hm).imp_right fun hstate h => absurd h hstate
    · rw [hother m heq]
      exact ⟨rfl, id⟩
  subst hs
  refine ⟨⟨le_rfl, hcount, fun _ _ => rfl, fun _ _ => ⟨rfl, rfl, rfl⟩, fun _ _ => .inl, hkept⟩,
    ⟨hgraph.fresh, hgraph.parents, hgraph.children, hgraph.returned, hgraph.unlinked⟩,
    ⟨fun m hm => ?_, fun l m hm => ?_, fun l m hm => (hwatch.taken l m hm).trans_le hcount,
      fun m hm => ?_, fun l m hl hm h => ?_, fun m hm => ?_⟩⟩
  · by_cases heq : m = k
    · rw [heq, hself]
      exact hlease
    · rw [hother m heq]
      exact hwatch.lease m (hlast m hm heq)
  · obtain ⟨hlt, heq⟩ := hwatch.onAbort l m hm
    exact ⟨hlt.trans_le hcount, (hkept m hlt).1.trans heq⟩
  · obtain ⟨hlt, hpending⟩ := hwatch.made m hm
    rw [(hkept m hlt).1]
    exact ⟨hlt.trans_le hcount, fun h => hpending ((hkept m hlt).2 h)⟩
  · exact hwatch.released l m hl hm ((hkept m (hwatch.taken l m hm)).2 h)
  · by_cases heq : m = k
    · exact heq ▸ hcallback
    · exact (hwatch.callback m (hlast m hm heq)).congr (hother m heq) fun _ => ⟨rfl, rfl⟩

/-- A callback leaves the pending state. -/
theorem setCallback_sound {callback : AbortCallback} (hsound : s.Sound) (hk : k < s.callbackCount)
    (hlease : callback.lease = (s.callback k).lease) (hstate : callback.state ≠ .pending)
    (hcallback : (s.setCallback k callback).CallbackSound k) :
    Grows s (s.setCallback k callback) ∧ (s.setCallback k callback).Sound :=
  putCallback_sound s.callbackCount hsound le_rfl (fun _ hm _ => hm) (fun _ => ⟨hlease, hstate⟩)
    (hlease ▸ hsound.2.lease k hk) hcallback

theorem startCallback_sound (hsound : s.Sound) (hk : k < s.callbackCount)
    (hended : (s.lease (s.callback k).lease).cause ≠ none)
    (haborted : (s.lease (s.callback k).lease).aborted = true) :
    Grows s (s.startCallback k) ∧ (s.startCallback k).Sound ∧
      ((s.startCallback k).callback k).state ≠ .pending := by
  unfold startCallback
  split
  next hpending =>
    obtain ⟨hruns, hstop⟩ := (hsound.2.callback k hk).pending hpending
    obtain ⟨hgrows, hsound'⟩ := @setCallback_sound s k
      { s.callback k with state := .scheduled, runs := (s.callback k).runs + 1 } hsound hk rfl
      nofun ⟨by simp, by simp [hruns, hstop, setCallback, hended, haborted], by simp⟩
    exact ⟨hgrows, hsound', by simp⟩
  next hstate => exact ⟨refl_of Grows s, hsound, hstate⟩

theorem releaseCallback_sound (hsound : s.Sound) (hk : k < s.callbackCount)
    (hended : (s.lease (s.callback k).lease).cause ≠ none)
    (haborted : (s.lease (s.callback k).lease).aborted = false) :
    Grows s (s.releaseCallback k) ∧ (s.releaseCallback k).Sound ∧
      ((s.releaseCallback k).callback k).state ≠ .pending := by
  unfold releaseCallback
  split
  next hpending =>
    obtain ⟨hruns, hstop⟩ := (hsound.2.callback k hk).pending hpending
    obtain ⟨hgrows, hsound'⟩ := @setCallback_sound s k { s.callback k with state := .stopped }
      hsound hk rfl nofun ⟨by simp, by simp, by simp [hruns, setCallback, hended, haborted]⟩
    exact ⟨hgrows, hsound', by simp⟩
  next hstate => exact ⟨refl_of Grows s, hsound, hstate⟩

theorem stop_sound (hsound : s.Sound) (hk : k < s.callbackCount)
    (hpending : (s.callback k).state = .pending) :
    Grows s (s.setCallback k { s.callback k with state := .stopped, stopped := true }) ∧
      (s.setCallback k { s.callback k with state := .stopped, stopped := true }).Sound := by
  obtain ⟨hruns, _⟩ := (hsound.2.callback k hk).pending hpending
  exact setCallback_sound hsound hk rfl nofun ⟨by simp, by simp, by simp [hruns]⟩

theorem newCallback_sound {callback : AbortCallback} (hsound : s.Sound)
    (hlease : callback.lease < s.count)
    (hcallback : (s.newCallback callback).CallbackSound s.callbackCount) :
    Grows s (s.newCallback callback) ∧ (s.newCallback callback).Sound :=
  putCallback_sound (s.callbackCount + 1) hsound (Nat.le_succ _)
    (fun _ hm hne => lt_of_le_of_ne (Nat.le_of_lt_succ hm) hne) (fun h => absurd h (lt_irrefl _))
    hlease hcallback

/-- A section on the registered callbacks: one that is pending stays. -/
theorem setOnAbort_sound {onAbort : List Nat} (hsound : s.Sound)
    (hnew : ∀ k ∈ onAbort, k < s.callbackCount ∧ (s.callback k).lease = l)
    (hkept : ∀ k ∈ (s.lease l).onAbort, (s.callback k).state = .pending → k ∈ onAbort) :
    Grows s (s.setLease l { s.lease l with onAbort }) ∧
      (s.setLease l { s.lease l with onAbort }).Sound := by
  obtain ⟨hgraph, hwatch⟩ := hsound
  refine setLease_sound s.count ⟨hgraph, hwatch⟩ ⟨fun _ => ⟨rfl, rfl, rfl⟩,
    fun m hm => ⟨.inl hm, (hgraph.children m l hm).2.2⟩, hnew, hwatch.taken l,
    fun k hk heq hstate => ?_⟩ le_rfl (fun _ => rfl) (hgraph.fresh l) (hgraph.parents l)
  have hpending := (hwatch.made k hk).2 hstate
  rw [heq] at hpending
  split
  next hvalid => exact hkept k ((if_pos hvalid).mp hpending) hstate
  next hended => exact (if_neg hended).mp hpending

theorem register_sound (hsound : s.Sound) (hk : k < s.callbackCount)
    (hlease : (s.callback k).lease = l) : Grows s (s.register l k) ∧ (s.register l k).Sound := by
  refine setOnAbort_sound hsound (fun m hm => ?_) fun m hm _ => List.mem_cons_of_mem k hm
  rcases List.mem_cons.mp hm with rfl | hold
  · exact ⟨hk, hlease⟩
  · exact hsound.2.onAbort l m hold

theorem unregister_sound (hsound : s.Sound)
    (hstate : (s.callback k).state ≠ .pending) :
    Grows s (s.unregister l k) ∧ (s.unregister l k).Sound := by
  refine setOnAbort_sound hsound (fun m hm => ?_) fun m hm hpending => ?_
  · exact hsound.2.onAbort l m (List.mem_filter.mp hm).1
  · refine List.mem_filter.mpr ⟨hm, decide_eq_true ?_⟩
    rintro rfl
    exact hstate hpending

theorem finish_sound (hsound : s.Sound) (hk : k < s.callbackCount)
    (hpending : (s.callback k).state = .pending →
      if (s.lease (s.callback k).lease).cause = none
      then k ∈ (s.lease (s.callback k).lease).onAbort
      else k ∈ (s.lease (s.callback k).lease).taken) :
    Grows s (s.finish k) ∧ (s.finish k).Sound := by
  obtain ⟨hgraph, hwatch⟩ := hsound
  refine ⟨⟨le_rfl, le_rfl, fun _ _ => rfl, fun _ _ => ⟨rfl, rfl, rfl⟩, fun _ _ => .inl,
    fun _ _ => ⟨rfl, id⟩⟩, ⟨hgraph.fresh, hgraph.parents, hgraph.children, hgraph.returned,
    hgraph.unlinked⟩, ⟨hwatch.lease, hwatch.onAbort, hwatch.taken, fun m hm => ?_, hwatch.released,
    fun m hm => (hwatch.callback m hm).congr rfl fun _ => ⟨rfl, rfl⟩⟩⟩
  rcases List.mem_cons.mp hm with rfl | hold
  · exact ⟨hk, hpending⟩
  · exact hwatch.made m hold

/-! ### Every section -/

/-- Two sections in a row. -/
theorem sound_trans {s₁ s₂ s₃ : LeaseHeap} (h₁ : Grows s₁ s₂ ∧ s₂.Sound)
    (h₂ : s₂.Sound → Grows s₂ s₃ ∧ s₃.Sound) : Grows s₁ s₃ ∧ s₃.Sound :=
  ⟨trans_of Grows h₁.1 (h₂ h₁.2).1, (h₂ h₁.2).2⟩

theorem lease_newLease (s : LeaseHeap) (parents : List (Option Nat)) :
    (s.newLease parents).lease s.count = { parents } := Function.update_self _ _ _

theorem callback_newCallback (s : LeaseHeap) (callback : AbortCallback) :
    (s.newCallback callback).callback s.callbackCount = callback := Function.update_self _ _ _

/-- A callback that has just been made. -/
theorem newCallback_pending (hsound : s.Sound) (hl : l < s.count) :
    Grows s (s.newCallback { lease := l }) ∧ (s.newCallback { lease := l }).Sound := by
  have hnew := s.callback_newCallback { lease := l }
  refine newCallback_sound hsound hl ⟨fun _ => ?_, fun h => ?_, fun h => ?_⟩
  · rw [hnew]
    exact ⟨rfl, rfl⟩
  · rw [hnew] at h
    cases h
  · rw [hnew] at h
    cases h

/-- `AfterAbort` on a valid lease. -/
theorem afterAbort_sound (hsound : s.Sound) (hl : l < s.count)
    (hvalid : (s.lease l).cause = none) :
    Grows s (((s.newCallback { lease := l }).register l s.callbackCount).finish s.callbackCount) ∧
      (((s.newCallback { lease := l }).register l s.callbackCount).finish s.callbackCount).Sound := by
  have hnew := s.callback_newCallback { lease := l }
  have hregistered := sound_trans (newCallback_pending hsound hl) fun hsound' =>
    register_sound hsound' (Nat.lt_succ_self s.callbackCount) (congrArg AbortCallback.lease hnew)
  refine sound_trans hregistered fun hsound' =>
    finish_sound hsound' (Nat.lt_succ_self _) fun _ => ?_
  have hlease : ((s.newCallback { lease := l }).register l s.callbackCount).lease
      (((s.newCallback { lease := l }).register l s.callbackCount).callback s.callbackCount).lease =
      { s.lease l with onAbort := s.callbackCount :: (s.lease l).onAbort } := by
    change ((s.newCallback { lease := l }).register l s.callbackCount).lease
      ((s.newCallback { lease := l }).callback s.callbackCount).lease = _
    rw [hnew]
    exact Function.update_self _ _ _
  rw [hlease, if_pos hvalid]
  exact List.mem_cons_self

/-- `AfterAbort` on a lease that was invalidated without an abort. -/
theorem afterAbortInvalid_sound (hsound : s.Sound) (hl : l < s.count)
    (hended : (s.lease l).cause ≠ none) (haborted : (s.lease l).aborted = false) :
    Grows s ((s.newCallback { lease := l, state := .stopped }).finish s.callbackCount) ∧
      ((s.newCallback { lease := l, state := .stopped }).finish s.callbackCount).Sound := by
  have hnew := s.callback_newCallback { lease := l, state := .stopped }
  have hfirst : Grows s (s.newCallback { lease := l, state := .stopped }) ∧
      (s.newCallback { lease := l, state := .stopped }).Sound := by
    refine newCallback_sound hsound hl ⟨fun h => ?_, fun h => ?_, fun _ => ?_⟩
    · rw [hnew] at h
      cases h
    · rw [hnew] at h
      cases h
    · rw [hnew]
      exact ⟨rfl, .inr ⟨hended, haborted⟩⟩
  refine sound_trans hfirst fun hsound' => finish_sound hsound' (Nat.lt_succ_self _) fun h => ?_
  rw [hnew] at h
  cases h

variable {jobs : List LeaseJob}

theorem call_sound (hsound : s.Sound)
    (h : s.Call s' jobs) : Grows s s' ∧ s'.Sound ∧ ∀ job ∈ jobs, s'.Assert job := by
  cases h with
  | newLease parents hparents =>
    obtain ⟨hgrows, hsound'⟩ := newLease_sound hsound hparents
    refine ⟨hgrows, hsound', List.forall_mem_singleton.mpr ⟨Nat.lt_succ_self _, fun p hp => ?_⟩⟩
    rw [lease_newLease]
    exact hp
  | invalidate l cause aborted hl =>
    exact ⟨refl_of Grows s, hsound, List.forall_mem_singleton.mpr hl⟩
  | afterAbort l hl hvalid =>
    obtain ⟨hgrows, hsound'⟩ := afterAbort_sound hsound hl hvalid
    exact ⟨hgrows, hsound', nofun⟩
  | afterAbortAborted l hl hended haborted =>
    obtain ⟨hgrows, hsound'⟩ := newCallback_pending hsound hl
    refine ⟨hgrows, hsound', List.forall_mem_singleton.mpr ⟨Nat.lt_succ_self _, ?_⟩⟩
    rw [callback_newCallback]
    exact ⟨hended, haborted⟩
  | afterAbortInvalid l hl hended haborted =>
    obtain ⟨hgrows, hsound'⟩ := afterAbortInvalid_sound hsound hl hended haborted
    exact ⟨hgrows, hsound', nofun⟩
  | stop k hk hpending =>
    obtain ⟨hgrows, hsound'⟩ := stop_sound hsound hk hpending
    exact ⟨hgrows, hsound', List.forall_mem_singleton.mpr ⟨hk, by simp⟩⟩
  | stopLate k hk => exact ⟨refl_of Grows s, hsound, nofun⟩

/-- The sections of a call of `invalidate` behind its first one. -/
theorem propagate_sound {children : List Nat}
    {parents : List (Option Nat)} {callbacks : List Nat} {cause : String} {aborted : Bool}
    (hsound : s.Sound)
    (hassert : s.Assert (.propagate l children parents callbacks cause aborted))
    (h : s.Exec (.propagate l children parents callbacks cause aborted) s' jobs) :
    Grows s s' ∧ s'.Sound ∧ ∀ job ∈ jobs, s'.Assert job := by
  obtain ⟨hcause, haborted, hchildren, hparents, hcallbacks, htaken⟩ := hassert
  have hended : (s.lease l).cause ≠ none := by simp [hcause]
  cases h with
  | child l c children parents callbacks cause aborted =>
    refine ⟨refl_of Grows s, hsound, fun job hjob => ?_⟩
    rcases List.mem_cons.mp hjob with rfl | hjob
    · exact hchildren c List.mem_cons_self
    · rw [List.mem_singleton.mp hjob]
      exact ⟨hcause, haborted, fun c' hc' => hchildren c' (List.mem_cons_of_mem c hc'), hparents,
        hcallbacks, htaken⟩
  | unlinkNil l parents callbacks cause aborted =>
    refine ⟨refl_of Grows s, hsound, List.forall_mem_singleton.mpr ⟨hcause, haborted, hchildren,
      fun p hp => ?_, hcallbacks, htaken⟩⟩
    exact (List.mem_cons.mp (hparents p hp)).resolve_left nofun
  | unlink l p parents callbacks cause aborted =>
    obtain ⟨hgrows, hsound'⟩ := @setChildren_sound s p ((s.lease p).children.filter (· ≠ l))
      hsound fun m hm => .inl (List.mem_filter.mp hm).1
    have hassert' := assert_stable hgrows (show s.Assert (.propagate l [] (some p :: parents)
      callbacks cause aborted) from ⟨hcause, haborted, hchildren, hparents, hcallbacks, htaken⟩)
    obtain ⟨hcause', haborted', hchildren', hparents', hcallbacks', htaken'⟩ := hassert'
    refine ⟨hgrows, hsound', List.forall_mem_singleton.mpr ⟨hcause', haborted', hchildren',
      fun q hq => ?_, hcallbacks', htaken'⟩⟩
    refine (List.mem_cons.mp (hparents' q hq)).resolve_left fun heq => ?_
    cases heq
    rw [removeChild, lease_setLease, if_pos rfl] at hq
    simp at hq
  | callback l k callbacks cause aborted =>
    obtain ⟨hk, hlease⟩ := hcallbacks k List.mem_cons_self
    have hsection : Grows s (if aborted then s.startCallback k else s.releaseCallback k) ∧
        (if aborted then s.startCallback k else s.releaseCallback k).Sound ∧
        ((if aborted then s.startCallback k else s.releaseCallback k).callback k).state ≠
          .pending := by
      cases aborted with
      | true => exact startCallback_sound hsound hk (hlease ▸ hended) (hlease ▸ haborted)
      | false => exact releaseCallback_sound hsound hk (hlease ▸ hended) (hlease ▸ haborted)
    obtain ⟨hgrows, hsound', hstate⟩ := hsection
    have hassert' := assert_stable hgrows (show s.Assert (.propagate l [] [] (k :: callbacks)
      cause aborted) from ⟨hcause, haborted, hchildren, hparents, hcallbacks, htaken⟩)
    obtain ⟨hcause', haborted', hchildren', hparents', hcallbacks', htaken'⟩ := hassert'
    refine ⟨hgrows, hsound', List.forall_mem_singleton.mpr ⟨hcause', haborted', hchildren',
      hparents', fun m hm => hcallbacks' m (List.mem_cons_of_mem k hm), fun m hm => ?_⟩⟩
    refine ⟨(htaken' m hm).1, fun hpending => ?_⟩
    refine (List.mem_cons.mp ((htaken' m hm).2 hpending)).resolve_left ?_
    rintro rfl
    exact hstate hpending
  | propagated l cause aborted =>
    obtain ⟨hgrows, hsound'⟩ := @leave_sound s l true hsound hended
      (fun _ p hp => absurd (hparents p hp) List.not_mem_nil)
      fun _ k hk hpending => absurd ((htaken k hk).2 hpending) List.not_mem_nil
    exact ⟨hgrows, hsound', nofun⟩

theorem exec_sound {job : LeaseJob} (hsound : s.Sound)
    (hassert : s.Assert job) (h : s.Exec job s' jobs) :
    Grows s s' ∧ s'.Sound ∧ ∀ job ∈ jobs, s'.Assert job := by
  cases job with
  | link l parents =>
    obtain ⟨hl, hparents⟩ := hassert
    cases h with
    | linked | linkEnded l p parents hended => exact ⟨refl_of Grows s, hsound, nofun⟩
    | linkNil l parents =>
      exact ⟨refl_of Grows s, hsound, List.forall_mem_singleton.mpr
        ⟨hl, fun p hp => hparents p (List.mem_cons_of_mem none hp)⟩⟩
    | linkParentEnded l p parents cause hvalid hended =>
      exact ⟨refl_of Grows s, hsound, List.forall_mem_singleton.mpr hl⟩
    | link l p parents hvalid hvalid' =>
      obtain ⟨hgrows, hsound'⟩ := @setChildren_sound s p ((s.lease p).children.insert l)
        hsound fun m hm => by
          rcases List.mem_insert_iff.mp hm with rfl | hold
          · exact .inr ⟨hl, hparents p List.mem_cons_self, hvalid, hvalid'⟩
          · exact .inl hold
      exact ⟨hgrows, hsound', List.forall_mem_singleton.mpr (assert_stable hgrows
        ⟨hl, fun q hq => hparents q (List.mem_cons_of_mem (some p) hq)⟩)⟩
  | invalidate l cause aborted =>
    cases h with
    | invalidateAgain l cause aborted hended =>
      obtain ⟨hgrows, hsound'⟩ := @leave_sound s l false hsound hended nofun nofun
      exact ⟨hgrows, hsound', nofun⟩
    | invalidate l cause aborted children callbacks hvalid hchildren hcallbacks =>
      obtain ⟨hgrows, hsound'⟩ := endLease_sound (cause.getD errDependencyInvalid) aborted hsound
        hassert hvalid
      have hlease : (s.endLease l (cause.getD errDependencyInvalid) aborted).lease l =
          { s.lease l with
            cause := some (cause.getD errDependencyInvalid)
            aborted
            children := []
            onAbort := []
            taken := (s.lease l).onAbort } := Function.update_self _ _ _
      refine ⟨hgrows, hsound', List.forall_mem_singleton.mpr ⟨?_, ?_, fun c hc => ?_,
        fun p hp => ?_, fun k hk => ?_, fun k hk => ?_⟩⟩
      · rw [hlease]
      · rw [hlease]
      · exact (hsound.1.children c l (hchildren.mem_iff.mp hc)).1
      · have hparent := (hsound'.1.children l p hp).2.1
        rw [hlease] at hparent
        exact hparent
      · exact hsound.2.onAbort l k (hcallbacks.mem_iff.mp hk)
      · rw [hlease] at hk
        exact ⟨(hsound.2.onAbort l k hk).1, fun _ => hcallbacks.mem_iff.mpr hk⟩
  | propagate l children parents callbacks cause aborted => exact propagate_sound hsound hassert h
  | start k =>
    obtain ⟨hk, hended, haborted⟩ := hassert
    cases h
    obtain ⟨hgrows, hsound', hstate⟩ := startCallback_sound hsound hk hended haborted
    have hfinish := sound_trans ⟨hgrows, hsound'⟩ fun hsound' =>
      finish_sound hsound' (hk.trans_le hgrows.callbackCount) fun hpending => absurd hpending hstate
    exact ⟨hfinish.1, hfinish.2, nofun⟩
  | unregister k =>
    cases h
    obtain ⟨hgrows, hsound'⟩ := @unregister_sound s (s.callback k).lease k hsound hassert.2
    exact ⟨hgrows, hsound', nofun⟩

end LeaseHeap

open LeaseHeap

/-- **Every section** keeps the invariants and undoes nothing. -/
theorem leases_guarantee : Threads.Guarantee leaseMachine Sound Assert Grows where
  stable := assert_stable
  call := call_sound
  exec := exec_sound

theorem initial_holds : Threads.Holds Sound Assert LeaseConfig.initial :=
  ⟨⟨⟨fun _ _ => ⟨rfl, rfl⟩, nofun, nofun, nofun, nofun⟩, ⟨nofun, nofun, nofun, nofun, nofun, nofun⟩⟩,
    nofun⟩

/-! ### Ancestors -/

/-- A lease depends on its ancestors, and counts as one of its own. -/
def LeaseHeap.Ancestor (s : LeaseHeap) : Nat → Nat → Prop :=
  Relation.ReflTransGen fun p l => some p ∈ (s.lease l).parents

theorem ancestor_grows {s s' : LeaseHeap} (hsound : s.Sound) (hgrows : Grows s s') {a l : Nat}
    (h : s.Ancestor a l) (hl : l < s.count) : s'.Ancestor a l := by
  induction h with
  | refl => exact .refl
  | tail _ hparent ih =>
    refine (ih ((hsound.1.parents _ _ hparent).trans hl)).tail ?_
    rw [hgrows.parents _ hl]
    exact hparent

/-- The walk over the gates finds a lease that had ended when it began. -/
theorem termination_found {c : LeaseConfig} {todo : List (Option Nat)}
    {result : Option (String × Bool)} (h : Termination c todo result)
    (hholds : Threads.Holds Sound Assert c) {a l : Nat} (hl : some l ∈ todo)
    (hcount : l < c.shared.count) (hancestor : c.shared.Ancestor a l)
    (hended : (c.shared.lease a).cause ≠ none) : result ≠ none := by
  induction h generalizing l with
  | done => cases hl
  | null _ ih =>
    exact ih hholds ((List.mem_cons.mp hl).resolve_left nofun) hcount hancestor hended
  | found => exact nofun
  | @next c c' m todo result hrun hvalid _ ih =>
    obtain ⟨hgrows, hholds'⟩ := leases_guarantee.run hholds hrun
    have hended' : (c'.shared.lease a).cause ≠ none := (hgrows.ended a hended).1 ▸ hended
    have hcount' := hcount.trans_le hgrows.count
    have hancestor' := ancestor_grows hholds.shared hgrows hancestor hcount
    rcases List.mem_cons.mp hl with heq | hrest
    · cases heq
      rcases Relation.ReflTransGen.cases_tail hancestor' with rfl | ⟨p, hancestor', hparent⟩
      · exact absurd hvalid hended'
      · exact ih hholds' (List.mem_append_left _ hparent)
          ((hholds'.shared.1.parents m p hparent).trans hcount') hancestor' hended'
    · exact ih hholds' (List.mem_append_right _ hrest) hcount' hancestor' hended'

/-- **Invalidation reaches all dependents.**  At every point of every run:

* once a call of `invalidate` on a lease has returned, every lease that depends on it is found
  to be invalid from then on, however its gates are read;
* a lease whose first invalidation has returned is in no set of children;
* a callback is started at most once, only for a lease that was aborted, and never if its stop
  function returns true; once `AfterAbort` has returned, and the invalidation that took the
  callback, if any, it has been started exactly if the lease was aborted and the callback was
  not stopped. -/
theorem leases_end {c : LeaseConfig} (h : leaseMachine.Run LeaseConfig.initial c) :
    (∀ a result, (a, result) ∈ c.shared.returned → ∀ c', leaseMachine.Run c c' →
      ∀ l, l < c'.shared.count → c'.shared.Ancestor a l →
        ∀ found, Termination c' [some l] found → found ≠ none) ∧
    (∀ l p, (l, true) ∈ c.shared.returned → l ∉ (c.shared.lease p).children) ∧
    ∀ k, k < c.shared.callbackCount →
      (c.shared.callback k).runs ≤ 1 ∧
      (0 < (c.shared.callback k).runs →
        (c.shared.lease (c.shared.callback k).lease).cause ≠ none ∧
        (c.shared.lease (c.shared.callback k).lease).aborted = true ∧
        (c.shared.callback k).stopped = false) ∧
      (k ∈ c.shared.made → (c.shared.lease (c.shared.callback k).lease).cause ≠ none →
        ((c.shared.callback k).lease, true) ∈ c.shared.returned ∨
          k ∉ (c.shared.lease (c.shared.callback k).lease).taken →
        (0 < (c.shared.callback k).runs ↔
          (c.shared.lease (c.shared.callback k).lease).aborted = true ∧
            (c.shared.callback k).stopped = false)) := by
  obtain ⟨-, hholds⟩ := leases_guarantee.run initial_holds h
  obtain ⟨hgraph, hwatch⟩ := hholds.shared
  refine ⟨fun a result ha c' hrun l hl hancestor found hfound => ?_, hgraph.unlinked, fun k hk => ?_⟩
  · obtain ⟨hgrows, hholds'⟩ := leases_guarantee.run hholds hrun
    have hended := hgraph.returned a result ha
    exact termination_found hfound hholds' List.mem_cons_self hl hancestor
      ((hgrows.ended a hended).1 ▸ hended)
  · obtain ⟨hpending, hscheduled, hstopped⟩ := hwatch.callback k hk
    cases hstate : (c.shared.callback k).state with
    | pending =>
      obtain ⟨hruns, -⟩ := hpending hstate
      refine ⟨by omega, fun h => by omega, fun hmade hended hdone => ?_⟩
      have htaken := (if_neg hended).mp ((hwatch.made k hmade).2 hstate)
      rcases hdone with hreturned | hnot
      · exact absurd hstate (hwatch.released _ k hreturned htaken)
      · exact absurd htaken hnot
    | scheduled =>
      obtain ⟨hruns, hstop, hended, haborted⟩ := hscheduled hstate
      exact ⟨hruns.le, fun _ => ⟨hended, haborted, hstop⟩,
        fun _ _ _ => ⟨fun _ => ⟨haborted, hstop⟩, fun _ => by omega⟩⟩
    | stopped =>
      obtain ⟨hruns, hwhy⟩ := hstopped hstate
      refine ⟨by omega, fun h => by omega, fun _ _ _ => ⟨fun h => by omega, fun ⟨haborted, hstop⟩ => ?_⟩⟩
      rcases hwhy with hstop' | ⟨_, hnot⟩
      · rw [hstop] at hstop'
        cases hstop'
      · rw [haborted] at hnot
        cases hnot

/-- A lease is made, watched and aborted. -/
theorem leases_end_aborted : ∃ c, leaseMachine.Run LeaseConfig.initial c ∧
    (0, true) ∈ c.shared.returned ∧ 0 < (c.shared.callback 0).runs := by
  have hnew := Relation.ReflTransGen.tail .refl (Threads.Machine.Step.call (M := leaseMachine)
    (c := LeaseConfig.initial) (t := 0) rfl (Call.newLease [] nofun))
  have hlinked := hnew.tail (.exec (t := 0) rfl (Exec.linked 0))
  have hwatched := hlinked.tail (.call (t := 0) rfl (Call.afterAbort 0 (by decide) rfl))
  have hcalled := hwatched.tail (.call (t := 0) rfl (Call.invalidate 0 none true (by decide)))
  have hended := hcalled.tail (.exec (t := 0) rfl
    (Exec.invalidate 0 none true [] [0] rfl (List.Perm.refl _) (List.Perm.refl _)))
  have hstarted := hended.tail (.exec (t := 0) rfl (Exec.callback 0 0 [] _ true))
  have hreturned := hstarted.tail (.exec (t := 0) rfl (Exec.propagated 0 _ true))
  refine ⟨_, hreturned, List.mem_cons_self, ?_⟩
  exact (((leases_end hreturned).2.2 0 (by decide)).2.2 List.mem_cons_self nofun
    (.inl List.mem_cons_self)).mpr ⟨rfl, rfl⟩

/-- **A second call returns early.**  While the first invalidation of lease 1 still has to remove
it from the children of its parent, another call on the lease has returned. -/
theorem left_by_second_call : ∃ c, leaseMachine.Run LeaseConfig.initial c ∧
    (1, false) ∈ c.shared.returned ∧ (c.shared.lease 1).cause ≠ none ∧
      1 ∈ (c.shared.lease 0).children := by
  have hparent := Relation.ReflTransGen.tail .refl (Threads.Machine.Step.call (M := leaseMachine)
    (c := LeaseConfig.initial) (t := 0) rfl (Call.newLease [] nofun))
  have hlinked := hparent.tail (.exec (t := 0) rfl (Exec.linked 0))
  have hchild := hlinked.tail (.call (t := 0) rfl (Call.newLease [some 0]
    fun p hp => Option.some.inj (List.mem_singleton.mp hp) ▸ Nat.zero_lt_one))
  have hadded := hchild.tail (.exec (t := 0) rfl (Exec.link 1 0 [] rfl rfl))
  have hlinked' := hadded.tail (.exec (t := 0) rfl (Exec.linked 1))
  have hcalled := hlinked'.tail (.call (t := 0) rfl (Call.invalidate 1 none false (by decide)))
  have hended := hcalled.tail (.exec (t := 0) rfl
    (Exec.invalidate 1 none false [] [] rfl (List.Perm.refl _) (List.Perm.refl _)))
  have hagain := hended.tail (.call (t := 1) rfl (Call.invalidate 1 none false (by decide)))
  have hreturned := hagain.tail (.exec (t := 1) rfl (Exec.invalidateAgain 1 none false nofun))
  exact ⟨_, hreturned, List.mem_cons_self, nofun, List.mem_cons_self⟩

end Dae
