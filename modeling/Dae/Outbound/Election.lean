import Dae.Outbound.AutomaticSelection

/-!
# The elected path

Candidates are ordered by their tier and then by their sorting latency, so the best result is
the first least one of a linear order.  A candidate may be committed before all results have
arrived: none of the others can then reach a better tier, and within the tier only a candidate
with the same offset and without conditional priorities can still have a smaller latency.
-/

namespace Dae

open OrderDual

variable {α : Type*} {w : Nat}

/-! ### The order of the candidates -/

def rank (score : Bool × BitVec w × BitVec 64) : Bool ×ₗ ℤᵒᵈ ×ₗ ℤ :=
  toLex (score.1, toLex (toDual score.2.1.toInt, score.2.2.toInt))

def tierRank (tier : Bool × BitVec w) : Bool ×ₗ ℤᵒᵈ := toLex (tier.1, toDual tier.2.toInt)

theorem rank_lt_iff (a b : Bool × BitVec w × BitVec 64) :
    rank a < rank b ↔ a.1 < b.1 ∨ a.1 = b.1 ∧ (b.2.1.toInt < a.2.1.toInt ∨
      a.2.1.toInt = b.2.1.toInt ∧ a.2.2.toInt < b.2.2.toInt) := by
  unfold rank
  rw [Prod.Lex.toLex_lt_toLex, Prod.Lex.toLex_lt_toLex]
  simp only [toDual_lt_toDual, toDual_inj]

theorem tierRank_lt_iff (a b : Bool × BitVec w) :
    tierRank a < tierRank b ↔ a.1 < b.1 ∨ a.1 = b.1 ∧ b.2.toInt < a.2.toInt := by
  unfold tierRank
  rw [Prod.Lex.toLex_lt_toLex]
  simp only [toDual_lt_toDual]

theorem tierRank_le {a b : Bool × BitVec w × BitVec 64} (h : rank a ≤ rank b) :
    tierRank (a.1, a.2.1) ≤ tierRank (b.1, b.2.1) := by
  by_contra hlt
  refine absurd h (not_le.mpr ?_)
  rw [not_le, tierRank_lt_iff] at hlt
  rw [rank_lt_iff]
  exact hlt.imp_right fun ⟨hsame, hpriority⟩ => ⟨hsame, .inl hpriority⟩

theorem tierRank_inj {a b : Bool × BitVec w} (h : tierRank a = tierRank b) : a = b := by
  have hpair := toLex.injective h
  rw [Prod.mk.injEq] at hpair
  exact Prod.ext hpair.1 (BitVec.eq_of_toInt_eq (toDual.injective hpair.2))

theorem compareScores_lt_iff (a b : Bool × BitVec w × BitVec 64) :
    compareScores a b = .lt ↔ rank a < rank b := by
  have hthen : (compare b.2.1.toInt a.2.1.toInt).then (compare a.2.2.toInt b.2.2.toInt) = .lt ↔
      b.2.1.toInt < a.2.1.toInt ∨ a.2.1.toInt = b.2.1.toInt ∧ a.2.2.toInt < b.2.2.toInt := by
    rw [Ordering.then_eq_lt, compare_lt_iff_lt, compare_eq_iff_eq, compare_lt_iff_lt, @eq_comm Int]
  rw [rank_lt_iff, ← hthen]
  unfold compareScores
  cases a.1 <;> cases b.1 <;> simp

theorem compareScores_gt_iff (a b : Bool × BitVec w × BitVec 64) :
    compareScores a b = .gt ↔ rank b < rank a := by
  have hthen : (compare b.2.1.toInt a.2.1.toInt).then (compare a.2.2.toInt b.2.2.toInt) = .gt ↔
      a.2.1.toInt < b.2.1.toInt ∨ b.2.1.toInt = a.2.1.toInt ∧ b.2.2.toInt < a.2.2.toInt := by
    rw [Ordering.then_eq_gt, compare_gt_iff_gt, compare_eq_iff_eq, compare_gt_iff_gt]
  rw [rank_lt_iff, ← hthen]
  unfold compareScores
  cases a.1 <;> cases b.1 <;> simp

/-- The sorting of a discovery. -/
theorem pairwise_insertionSort_rank (l : List (DiscoveryCandidate α w)) :
    (l.insertionSort fun a b =>
      compareScores (a.degraded, a.upper, 0) (b.degraded, b.upper, 0) ≠ .gt).Pairwise
      fun a b => tierRank a.tier ≤ tierRank b.tier := by
  have hle : ∀ a b : DiscoveryCandidate α w,
      compareScores (a.degraded, a.upper, 0) (b.degraded, b.upper, 0) ≠ .gt ↔
        rank (a.degraded, a.upper, 0) ≤ rank (b.degraded, b.upper, 0) := fun a b => by
    rw [ne_eq, compareScores_gt_iff, not_lt]
  have : Std.Total fun a b : DiscoveryCandidate α w =>
      compareScores (a.degraded, a.upper, 0) (b.degraded, b.upper, 0) ≠ .gt :=
    ⟨fun a b => by
      rw [hle, hle]
      exact le_total _ _⟩
  have : IsTrans (DiscoveryCandidate α w) fun a b =>
      compareScores (a.degraded, a.upper, 0) (b.degraded, b.upper, 0) ≠ .gt :=
    ⟨fun a b c => by
      rw [hle, hle, hle]
      exact le_trans⟩
  exact (List.pairwise_insertionSort _ l).imp fun {a b} h => tierRank_le ((hle a b).mp h)

theorem betterTier_iff (a b : Bool × BitVec w) : betterTier a b = true ↔ tierRank a < tierRank b := by
  rw [tierRank_lt_iff]
  unfold betterTier
  rw [Bool.or_eq_true, Bool.and_eq_true, Bool.and_eq_true, decide_eq_true_iff,
    BitVec.slt_iff_toInt_lt]
  refine or_congr ?_ Iff.rfl
  cases a.1 <;> cases b.1 <;> simp

/-! ### The best result -/

def SelectorCandidate.score (c : SelectorCandidate α w) : Bool × BitVec w × BitVec 64 :=
  (c.degraded, c.priority, c.sortingLatency)

theorem bestResult_eq_argmin (verified : List (SelectorCandidate α w)) :
    Selection.bestResult verified = verified.argmin fun c => rank c.score := by
  unfold Selection.bestResult List.argmin
  congr 1
  funext best candidate
  cases best with
  | none => rfl
  | some best =>
    show (if compareScores candidate.score best.score = .lt then some candidate else some best) = _
    simp only [compareScores_lt_iff]
    rfl

/-- **The best result** is among the results and no other one comes before it. -/
theorem bestResult_spec {verified : List (SelectorCandidate α w)} {best : SelectorCandidate α w}
    (h : Selection.bestResult verified = some best) :
    best ∈ verified ∧ ∀ y ∈ verified, rank best.score ≤ rank y.score := by
  rw [bestResult_eq_argmin] at h
  exact ⟨List.argmin_mem h, fun y hy =>
    @List.le_of_mem_argmin _ _ _ (fun c => rank c.score) _ y best hy h⟩

theorem bestResult_eq_none {verified : List (SelectorCandidate α w)}
    (h : Selection.bestResult verified = none) : verified = [] := by
  rw [bestResult_eq_argmin] at h
  exact List.argmin_eq_none.mp h

/-! ### Sums of durations -/

theorem toInt_saturatingDurationAdd (a b : BitVec 64) :
    (saturatingDurationAdd a b).toInt = max (-2 ^ 63) (min (2 ^ 63 - 1) (a.toInt + b.toInt)) := by
  have ha := a.le_toInt
  have ha' := @BitVec.toInt_lt 64 a
  have hb := b.le_toInt
  have hb' := @BitVec.toInt_lt 64 b
  have hmax : (BitVec.intMax 64).toInt = 2 ^ 63 - 1 := by decide
  have hmin : (BitVec.intMin 64).toInt = -2 ^ 63 := by decide
  have hzero : (0#64).toInt = 0 := by decide
  have hzero' : (0 : BitVec 64).toInt = 0 := by decide
  have hup : (BitVec.intMax 64 - b).toInt = (2 ^ 63 - 1 - b.toInt).bmod (2 ^ 64) := by
    rw [BitVec.toInt_sub, hmax]
  have hdown : (BitVec.intMin 64 - b).toInt = (-2 ^ 63 - b.toInt).bmod (2 ^ 64) := by
    rw [BitVec.toInt_sub, hmin]
  rw [Int.bmod] at hup hdown
  unfold saturatingDurationAdd
  simp only [Bool.and_eq_true, BitVec.slt_iff_toInt_lt]
  split
  · rw [hmax]
    omega
  · split
    · rw [hmin]
      omega
    · rw [BitVec.toInt_add, Int.bmod]
      omega

/-- An offset bounds the score of every nonnegative latency. -/
theorem le_saturatingDurationAdd {a : BitVec 64} (b : BitVec 64) (h : 0 ≤ a.toInt) :
    b.toInt ≤ (saturatingDurationAdd a b).toInt := by
  have hb := b.le_toInt
  have hb' := @BitVec.toInt_lt 64 b
  rw [toInt_saturatingDurationAdd]
  omega

theorem saturatingDurationAdd_mono {a a' : BitVec 64} (b : BitVec 64) (h : a.toInt ≤ a'.toInt) :
    (saturatingDurationAdd a b).toInt ≤ (saturatingDurationAdd a' b).toInt := by
  rw [toInt_saturatingDurationAdd, toInt_saturatingDurationAdd]
  omega

theorem prefer_of_rank_le {s : Selection α w} {a b path : SelectorCandidate α w}
    (h : rank a.score ≤ rank b.score) (hprefer : s.prefer b path = true) :
    s.prefer a path = true := by
  have htier : tierRank a.tier ≤ tierRank b.tier := tierRank_le h
  unfold Selection.prefer at hprefer ⊢
  split
  · rfl
  next hnot =>
    have hle : tierRank path.tier ≤ tierRank a.tier :=
      not_lt.mp fun hlt => hnot ((betterTier_iff _ _).mpr hlt)
    rw [if_neg fun hbetter => absurd ((betterTier_iff _ _).mp hbetter)
      (not_lt.mpr (hle.trans htier))] at hprefer
    split at hprefer
    · cases hprefer
    next hsame =>
      -- all three are in one tier
      obtain ⟨hpolicy, hdegraded, hpriority⟩ := not_or.mp hsame |>.imp_right not_or.mp
      have hpath : b.tier = path.tier := Prod.ext (not_not.mp hdegraded) (not_not.mp hpriority)
      have htiers : a.tier = path.tier := tierRank_inj (le_antisymm (hpath ▸ htier) hle)
      have hd : a.degraded = path.degraded := congrArg Prod.fst htiers
      have hp : a.priority = path.priority := congrArg Prod.snd htiers
      rw [if_neg (by simp [hpolicy, hd, hp])]
      have hlatency : a.sortingLatency.toInt ≤ b.sortingLatency.toInt := by
        by_contra hlt
        refine absurd h (not_le.mpr ((rank_lt_iff _ _).mpr (.inr ⟨?_, .inr ⟨?_, not_le.mp hlt⟩⟩)))
        · exact (not_not.mp hdegraded).trans hd.symm
        · exact congrArg BitVec.toInt ((not_not.mp hpriority).trans hp.symm)
      rw [BitVec.slt_iff_toInt_lt] at hprefer ⊢
      exact (saturatingDurationAdd_mono _ hlatency).trans_lt hprefer

/-! ### What a candidate can answer -/

namespace Selection

variable {s : Selection α w} {all arrived : List (DiscoveryCandidate α w)} {e : Election α w}
  {current : Nat → Option (SelectorCandidate α w)}

/-- The candidates of a discovery, with merged annotations and nonnegative latencies. -/
structure Listed (s : Selection α w) (all : List (DiscoveryCandidate α w)) : Prop where
  listed : ∀ x ∈ all, x = s.discoveryCandidate x.d
  fits : ∀ x ∈ all, x.annotation.Fits
  latency : ∀ x ∈ all, ∀ stats, s.outcome x.d = some stats →
    0 ≤ (candidateLatency s.policy stats).toInt

/-- What holds of a result: it does not leave the tier that the candidate may reach, and its
score is at least the offset. -/
theorem Listed.result {x : DiscoveryCandidate α w} {y : SelectorCandidate α w} (h : s.Listed all)
    (hx : x ∈ all) (hy : s.result x = some y) :
    y.degraded = x.degraded ∧ y.priority.toInt ≤ x.upper.toInt ∧
      x.annotation.addLatency.toInt ≤ y.sortingLatency.toInt := by
  obtain ⟨stats, hstats, rfl⟩ := Option.map_eq_some_iff.mp hy
  have hlisted := h.listed x hx
  have hnote : x.annotation = s.dialerToAnnotation x.d :=
    congrArg DiscoveryCandidate.annotation hlisted
  have hupper : x.upper = (s.dialerToAnnotation x.d).maxPriority :=
    congrArg DiscoveryCandidate.upper hlisted
  have hfits := hnote ▸ h.fits x hx
  refine ⟨rfl, ?_, ?_⟩
  · rw [hupper]
    exact hfits.priorityAt_le_maxPriority _
  · rw [hnote]
    exact le_saturatingDurationAdd _ (h.latency x hx stats hstats)

/-- The answer `y` of `x` is not in a better tier, and in the same tier it has a smaller latency
only with the same offset and no conditional priority. -/
def Behind (s : Selection α w) (best : SelectorCandidate α w) (x : DiscoveryCandidate α w)
    (y : SelectorCandidate α w) : Prop :=
  tierRank best.tier ≤ tierRank y.tier ∧
    (y.tier = best.tier → y.sortingLatency.toInt < best.sortingLatency.toInt →
      x.annotation.addLatency = (s.dialerToAnnotation best.dialer).addLatency ∧
        hasConditionalPriority x.annotation = false)

theorem behind_of_lt {x : DiscoveryCandidate α w} {y best : SelectorCandidate α w}
    (h : tierRank best.tier < tierRank y.tier) : s.Behind best x y :=
  ⟨h.le, fun htier => absurd (congrArg tierRank htier) h.ne'⟩

/-- **A candidate that cannot win** stays behind. -/
theorem not_canBeat [DecidableEq α] {x : DiscoveryCandidate α w} {y best : SelectorCandidate α w}
    {running : Bool} (h : s.Listed all) (hx : x ∈ all) (hy : s.result x = some y)
    (hbeat : s.canBeat best running x = false) : s.Behind best x y := by
  obtain ⟨hdegraded, hupper, hoffset⟩ := h.result hx hy
  unfold canBeat at hbeat
  split at hbeat
  next hne =>
    refine behind_of_lt ((tierRank_lt_iff _ _).mpr (.inl ?_))
    have htrue : x.degraded = true := Bool.not_eq_eq_eq_not.mp hbeat
    have hfalse : best.degraded = false := Bool.eq_false_iff.mpr fun hbest => hne (htrue.trans hbest.symm)
    exact Bool.lt_iff.mpr ⟨hfalse, hdegraded.trans htrue⟩
  next hsame =>
    have hsame : best.degraded = y.degraded := (hdegraded.trans (not_not.mp hsame)).symm
    split at hbeat
    next hne =>
      refine behind_of_lt ((tierRank_lt_iff _ _).mpr (.inr ⟨hsame, ?_⟩))
      have hge := BitVec.slt_iff_toInt_lt.not.mp (Bool.eq_false_iff.mp hbeat)
      exact hupper.trans_lt (lt_of_le_of_ne (not_lt.mp hge) fun heq => hne (BitVec.eq_of_toInt_eq heq))
    next hreach =>
      have hreach : x.upper = best.priority := not_not.mp hreach
      constructor
      · refine not_lt.mp fun hlt => ?_
        rcases (tierRank_lt_iff _ _).mp hlt with hless | ⟨_, hmore⟩
        · exact absurd hsame.symm hless.ne
        · rw [hreach] at hupper
          exact absurd hmore (not_lt.mpr hupper)
      · intro _ hless
        split at hbeat
        next hoffset' =>
          exact absurd (hoffset.trans_lt hless) (not_lt.mpr (BitVec.sle_iff_toInt_le.mp hoffset'))
        next =>
          rw [Bool.or_eq_false_iff, Bool.or_eq_false_iff, Bool.not_eq_eq_eq_not,
            decide_eq_false_iff_not, not_not] at hbeat
          exact ⟨hbeat.2, hbeat.1.2⟩

/-! ### The election -/

/-- The right choice among the candidates: it has answered, none that has answered is in a
better tier, and in its own tier only candidates with the same offset and no conditional
priority have smaller latencies. -/
structure Wins (s : Selection α w) (all : List (DiscoveryCandidate α w)) (c : SelectorCandidate α w) :
    Prop where
  answered : ∃ x ∈ all, s.result x = some c
  tier : ∀ x ∈ all, ∀ y, s.result x = some y → betterTier y.tier c.tier = false
  latency : ∀ x ∈ all, ∀ y, s.result x = some y → y.tier = c.tier →
    y.sortingLatency.toInt < c.sortingLatency.toInt →
    x.annotation.addLatency = (s.dialerToAnnotation c.dialer).addLatency ∧
      hasConditionalPriority x.annotation = false

/-- The results that have arrived are recorded, and only a right choice is committed. -/
structure Fair (s : Selection α w) (all arrived : List (DiscoveryCandidate α w)) (e : Election α w) :
    Prop where
  verified : ∀ y, y ∈ e.verified ↔ ∃ x ∈ arrived, s.result x = some y
  committed : ∀ c, e.committed = some c → s.Wins all c

/-- A candidate that is not left to a later tier, or to a slower answer, is not beaten by the
best result. -/
theorem wins_of_best {best : SelectorCandidate α w} (hfair : s.Fair all arrived e)
    (hsub : arrived ⊆ all) (hbest : bestResult e.verified = some best)
    (hrest : ∀ x ∈ all, x ∉ arrived → ∀ y, s.result x = some y → s.Behind best x y) :
    s.Wins all best := by
  obtain ⟨hmem, hleast⟩ := bestResult_spec hbest
  have hanswer : ∀ x ∈ all, ∀ y, s.result x = some y → s.Behind best x y := by
    intro x hx y hy
    by_cases harrived : x ∈ arrived
    · have hrank := hleast y ((hfair.verified y).mpr ⟨x, harrived, hy⟩)
      refine ⟨tierRank_le hrank, fun htier hless => absurd hrank (not_le.mpr ?_)⟩
      have hdegraded : y.degraded = best.degraded := congrArg Prod.fst htier
      have hpriority : y.priority = best.priority := congrArg Prod.snd htier
      exact (rank_lt_iff _ _).mpr
        (.inr ⟨hdegraded, .inr ⟨congrArg BitVec.toInt hpriority, hless⟩⟩)
    · exact hrest x hx harrived y hy
  refine ⟨?_, fun x hx y hy => ?_, fun x hx y hy => (hanswer x hx y hy).2⟩
  · obtain ⟨x, hx, hresult⟩ := (hfair.verified best).mp hmem
    exact ⟨x, hsub hx, hresult⟩
  · rw [Bool.eq_false_iff, ne_eq, betterTier_iff]
    exact not_lt.mpr (hanswer x hx y hy).1

theorem fair_receive {x : DiscoveryCandidate α w} (hfair : s.Fair all arrived e) :
    s.Fair all (arrived ++ [x]) (s.receive x e) := by
  refine ⟨fun y => ?_, hfair.committed⟩
  unfold receive
  rw [List.mem_append, hfair.verified y, Option.mem_toList]
  constructor
  · rintro (⟨z, hz, hy⟩ | hy)
    · exact ⟨z, List.mem_append_left _ hz, hy⟩
    · exact ⟨x, List.mem_append_right _ List.mem_cons_self, hy⟩
  · rintro ⟨z, hz, hy⟩
    rcases List.mem_append.mp hz with hold | hnew
    · exact .inl ⟨z, hold, hy⟩
    · rw [List.mem_singleton.mp hnew] at hy
      exact .inr hy

variable [DecidableEq α]

/-- A commit succeeds, or the path selected before is usable and stays. -/
theorem commit_spec (s : Selection α w) (current : Nat → Option (SelectorCandidate α w))
    (c : SelectorCandidate α w) (e : Election α w) :
    (s.commit current c e).verified = e.verified ∧
      ((s.commit current c e).committed = some c ∨
        (s.commit current c e).committed = e.committed ∧
          ∃ n path, current n = some path ∧ s.prefer c path = false) := by
  unfold commit
  simp only
  split
  · exact ⟨rfl, .inl rfl⟩
  next path hpath =>
    split
    next hkept =>
      rw [Bool.and_eq_true, Bool.not_eq_eq_eq_not] at hkept
      exact ⟨rfl, .inr ⟨rfl, _, path, hpath, hkept.2⟩⟩
    next => exact ⟨rfl, .inl rfl⟩

theorem fair_commit {best : SelectorCandidate α w} (hfair : s.Fair all arrived e)
    (hwins : s.Wins all best) :
    s.Fair all arrived (s.commit current best e) := by
  obtain ⟨hverified, hcommitted⟩ := s.commit_spec current best e
  refine ⟨fun y => hverified ▸ hfair.verified y, fun c hc => ?_⟩
  rcases hcommitted with hnew | ⟨hold, _⟩
  · rw [hnew] at hc
    cases hc
    exact hwins
  · exact hfair.committed c (hold ▸ hc)

theorem fair_tryCommit {pending outstanding : List (DiscoveryCandidate α w)}
    (hlisted : s.Listed all) (hsub : arrived ⊆ all)
    (hcover : ∀ x ∈ all, x ∈ arrived ∨ x ∈ outstanding ∨ x ∈ pending) (hfair : s.Fair all arrived e) :
    s.Fair all arrived (s.tryCommit current pending outstanding e) := by
  unfold tryCommit
  split
  · exact hfair
  · split
    · exact hfair
    next best hbest =>
      split
      · exact hfair
      next hblocked =>
        obtain ⟨hout, hpend⟩ := Bool.or_eq_false_iff.mp (Bool.eq_false_iff.mpr hblocked)
        refine fair_commit hfair (wins_of_best hfair hsub hbest fun x hx harrived y hy => ?_)
        rcases (hcover x hx).resolve_left harrived with hx' | hx'
        · exact not_canBeat hlisted hx hy
            (Bool.eq_false_iff.mpr (List.any_eq_false.mp hout x hx'))
        · exact not_canBeat hlisted hx hy
            (Bool.eq_false_iff.mpr (List.any_eq_false.mp hpend x hx'))

/-- The results of a batch, one after the other: a candidate has arrived, is outstanding or
waits in a later tier. -/
theorem fair_receiveAll {pending outstanding arrivals : List (DiscoveryCandidate α w)}
    (hlisted : s.Listed all) (hsub : arrived ⊆ all) (harrivals : arrivals ⊆ all)
    (hcover : ∀ x ∈ all, x ∈ arrived ∨ x ∈ outstanding ∨ x ∈ pending) (hfair : s.Fair all arrived e) :
    s.Fair all (arrived ++ arrivals) (s.receiveAll current pending outstanding arrivals e) := by
  induction arrivals generalizing arrived outstanding e with
  | nil =>
    rw [List.append_nil]
    exact hfair
  | cons x arrivals ih =>
    have hx := harrivals List.mem_cons_self
    have hsub' : arrived ++ [x] ⊆ all :=
      List.append_subset.mpr ⟨hsub, List.cons_subset.mpr ⟨hx, List.nil_subset _⟩⟩
    have hcover' : ∀ z ∈ all, z ∈ arrived ++ [x] ∨
        z ∈ outstanding.filter (fun other => other.d ≠ x.d) ∨ z ∈ pending := by
      intro z hz
      rcases hcover z hz with harrived | hout | hpend
      · exact .inl (List.mem_append_left _ harrived)
      · by_cases hd : z.d = x.d
        · refine .inl (List.mem_append_right _ (List.mem_singleton.mpr ?_))
          rw [hlisted.listed z hz, hd, ← hlisted.listed x hx]
        · exact .inr (.inl (List.mem_filter.mpr ⟨hout, decide_eq_true hd⟩))
      · exact .inr (.inr hpend)
    rw [← List.singleton_append, ← List.append_assoc]
    exact ih hsub' (fun z hz => harrivals (List.mem_cons_of_mem x hz)) hcover'
      (fair_tryCommit hlisted hsub' hcover' (fair_receive hfair))

/-- The commit behind a batch: what is pending stays below the tier of the best result. -/
theorem fair_endBatch {pending : List (DiscoveryCandidate α w)} (hlisted : s.Listed all)
    (hsub : arrived ⊆ all) (hcover : ∀ x ∈ all, x ∈ arrived ∨ x ∈ pending)
    (hsorted : pending.Pairwise fun a b => tierRank a.tier ≤ tierRank b.tier)
    (hfair : s.Fair all arrived e) : s.Fair all arrived (s.endBatch current pending e) := by
  unfold endBatch
  split
  · exact hfair
  · split
    · exact hfair
    next best hbest =>
      split
      · refine fair_commit hfair (wins_of_best hfair hsub hbest fun x hx harrived => ?_)
        exact absurd ((hcover x hx).resolve_left harrived) List.not_mem_nil
      next next rest =>
        split
        next hbetter =>
          refine fair_commit hfair (wins_of_best hfair hsub hbest fun x hx harrived y hy => ?_)
          obtain ⟨hdegraded, hupper, _⟩ := hlisted.result hx hy
          have hnext : tierRank next.tier ≤ tierRank x.tier := by
            rcases List.mem_cons.mp ((hcover x hx).resolve_left harrived) with rfl | hrest
            · exact le_rfl
            · exact List.rel_of_pairwise_cons hsorted hrest
          have hreach : tierRank x.tier ≤ tierRank y.tier := by
            refine not_lt.mp fun hlt => ?_
            rcases (tierRank_lt_iff _ _).mp hlt with hless | ⟨_, hmore⟩
            · exact absurd hdegraded hless.ne
            · exact absurd hmore (not_lt.mpr hupper)
          exact behind_of_lt (((betterTier_iff _ _).mp hbetter).trans_le (hnext.trans hreach))
        next => exact hfair

/-- Nothing is committed although a candidate has answered: the path selected before is usable
and no candidate is preferred to it. -/
def Stays (s : Selection α w) (all : List (DiscoveryCandidate α w))
    (current : Nat → Option (SelectorCandidate α w)) : Prop :=
  ∃ n path, current n = some path ∧
    ∀ x ∈ all, ∀ y, s.result x = some y → s.prefer y path = false

/-- The last commit, when all results have arrived. -/
theorem electLoop_nil {order : List (DiscoveryCandidate α w) → List (DiscoveryCandidate α w)}
    (hsub : arrived ⊆ all) (hcover : ∀ x ∈ all, x ∈ arrived) (hfair : s.Fair all arrived e) :
    (∀ c, (s.electLoop order current [] e).committed = some c → s.Wins all c) ∧
      ((s.electLoop order current [] e).committed = none →
        (∀ x ∈ all, s.result x = none) ∨ s.Stays all current) := by
  rw [electLoop]
  split
  next hnone =>
    refine ⟨hfair.committed, fun _ => .inl fun x hx => ?_⟩
    refine Option.eq_none_iff_forall_ne_some.mpr fun y hy => ?_
    have hmem := (hfair.verified y).mpr ⟨x, hcover x hx, hy⟩
    rw [bestResult_eq_none hnone] at hmem
    cases hmem
  next best hbest =>
    have hwins := wins_of_best hfair hsub hbest fun x hx harrived => absurd (hcover x hx) harrived
    refine ⟨(fair_commit hfair hwins).committed, fun hnone => .inr ?_⟩
    rcases (s.commit_spec current best e).2 with hnew | ⟨_, n, path, hpath, hkept⟩
    · rw [hnew] at hnone
      cases hnone
    · refine ⟨n, path, hpath, fun x hx y hy => Bool.eq_false_iff.mpr fun hprefer => ?_⟩
      have hrank := (bestResult_spec hbest).2 y ((hfair.verified y).mpr ⟨x, hcover x hx, hy⟩)
      rw [prefer_of_rank_le hrank hprefer] at hkept
      cases hkept

/-- **The loop over the tiers**, from any state in which nothing is committed yet. -/
theorem electLoop_spec {order : List (DiscoveryCandidate α w) → List (DiscoveryCandidate α w)}
    (hlisted : s.Listed all) (horder : ∀ batch, (order batch).Perm batch)
    (pending : List (DiscoveryCandidate α w)) :
    ∀ (arrived : List (DiscoveryCandidate α w)) (e : Election α w), arrived ⊆ all → pending ⊆ all →
      (∀ x ∈ all, x ∈ arrived ∨ x ∈ pending) →
      (pending.Pairwise fun a b => tierRank a.tier ≤ tierRank b.tier) → s.Fair all arrived e →
      (∀ c, (s.electLoop order current pending e).committed = some c → s.Wins all c) ∧
        ((s.electLoop order current pending e).committed = none →
          (∀ x ∈ all, s.result x = none) ∨ s.Stays all current) := by
  induction hn : pending.length using Nat.strong_induction_on generalizing pending with
  | _ n ih =>
    intro arrived e hsub hpending hcover hsorted hfair
    cases pending with
    | nil =>
      exact electLoop_nil hsub
        (fun x hx => (hcover x hx).resolve_right List.not_mem_nil) hfair
    | cons first rest =>
      rw [electLoop]
      generalize hsame : (fun candidate : DiscoveryCandidate α w =>
        decide (candidate.upper = first.upper ∧ candidate.degraded = first.degraded)) = same
      have hrest : first :: rest = (first :: rest.takeWhile same) ++ rest.dropWhile same := by
        rw [List.cons_append, List.takeWhile_append_dropWhile]
      generalize hbatch : first :: rest.takeWhile same = batch at hrest ⊢
      generalize hlater : rest.dropWhile same = later at hrest ⊢
      have hshort : later.length < n := by
        rw [← hn, hrest, List.length_append, ← hbatch, List.length_cons]
        omega
      rw [hrest] at hpending hcover hsorted
      obtain ⟨hbatchSub, hlaterSub⟩ := List.append_subset.mp hpending
      have horderSub : order batch ⊆ all := fun x hx => hbatchSub ((horder batch).mem_iff.mp hx)
      have hcover₁ : ∀ x ∈ all, x ∈ arrived ∨ x ∈ batch ∨ x ∈ later := fun x hx =>
        (hcover x hx).imp_right List.mem_append.mp
      have hfair₁ : s.Fair all arrived { e with visited := batch.map (·.d) ++ e.visited } :=
        ⟨hfair.verified, hfair.committed⟩
      have hfair₂ := @fair_receiveAll _ _ s all arrived _ current _ later batch (order batch)
        hlisted hsub horderSub hcover₁ hfair₁
      have hsub₂ : arrived ++ order batch ⊆ all := List.append_subset.mpr ⟨hsub, horderSub⟩
      have hcover₂ : ∀ x ∈ all, x ∈ arrived ++ order batch ∨ x ∈ later := by
        intro x hx
        rw [List.mem_append, (horder batch).mem_iff, or_assoc]
        exact hcover₁ x hx
      have hsorted₂ := (List.pairwise_append.mp hsorted).2.1
      have hfair₃ := @fair_endBatch _ _ s all _ _ current _ later hlisted hsub₂ hcover₂
        hsorted₂ hfair₂
      split
      next hdone =>
        refine ⟨hfair₃.committed, fun hnone => ?_⟩
        rw [hnone] at hdone
        cases hdone
      next =>
        exact ih later.length hshort later rfl _ _ hsub₂ hlaterSub hcover₂ hsorted₂ hfair₃

/-- The candidates of a discovery stand in the order of the tiers they may reach. -/
theorem discoveryCandidates_spec (s : Selection α w) (current : Option (SelectorCandidate α w))
    (upgrade : Bool) :
    (∀ x ∈ (s.discoveryCandidates current upgrade).1, x = s.discoveryCandidate x.d ∧ x.d ∈ s.dialers) ∧
      (s.discoveryCandidates current upgrade).1.Pairwise
        fun a b => tierRank a.tier ≤ tierRank b.tier := by
  generalize hsort : ((s.dialers.filter (s.discovers current upgrade)).map
    s.discoveryCandidate).insertionSort (fun a b =>
      compareScores (a.degraded, a.upper, 0) (b.degraded, b.upper, 0) ≠ .gt) = candidates
  have hlisted : ∀ x ∈ candidates, x = s.discoveryCandidate x.d ∧ x.d ∈ s.dialers := by
    intro x hx
    rw [← hsort] at hx
    obtain ⟨d, hd, rfl⟩ := List.mem_map.mp ((List.perm_insertionSort _ _).mem_iff.mp hx)
    exact ⟨rfl, (List.mem_filter.mp hd).1⟩
  have hsorted : candidates.Pairwise fun a b => tierRank a.tier ≤ tierRank b.tier := by
    have hpairwise := pairwise_insertionSort_rank ((s.dialers.filter (s.discovers current upgrade)).map
      s.discoveryCandidate)
    rw [hsort] at hpairwise
    exact hpairwise
  unfold discoveryCandidates
  simp only [hsort]
  split
  · exact ⟨fun x hx => hlisted x (List.mem_filter.mp hx).1, hsorted.filter _⟩
  · exact ⟨hlisted, hsorted⟩

/-- **The elected path.**  For every order in which the results arrive, the committed candidate
is the right choice.  While the path selected before stays unusable, a candidate is committed
exactly if one answers; if one answers and none is committed, that path has become usable and
no candidate is preferred to it. -/
theorem elect_commits {s : Selection α w}
    {order : List (DiscoveryCandidate α w) → List (DiscoveryCandidate α w)}
    {current : Nat → Option (SelectorCandidate α w)} {upgrade : Bool}
    (hmerged : ∀ d ∈ s.dialers, ∃ stages, mergeAnnotations stages = .ok (s.dialerToAnnotation d))
    (hlatency : ∀ d ∈ s.dialers, ∀ stats, s.outcome d = some stats →
      0 ≤ (candidateLatency s.policy stats).toInt)
    (horder : ∀ batch, (order batch).Perm batch) :
    let all := (s.discoveryCandidates (current 0) upgrade).1
    (∀ c, (s.elect order current upgrade).committed = some c → s.Wins all c) ∧
      ((∀ n, current n = none) → ((∃ c, (s.elect order current upgrade).committed = some c) ↔
        ∃ x ∈ all, (s.result x).isSome)) ∧
      ((∃ x ∈ all, (s.result x).isSome) → (s.elect order current upgrade).committed = none →
        s.Stays all current) := by
  intro all
  obtain ⟨hlisted, hsorted⟩ := s.discoveryCandidates_spec (current 0) upgrade
  have hall : s.Listed all := by
    refine ⟨fun x hx => (hlisted x hx).1, fun x hx => ?_, fun x hx => hlatency x.d (hlisted x hx).2⟩
    obtain ⟨stages, hstages⟩ := hmerged x.d (hlisted x hx).2
    rw [congrArg DiscoveryCandidate.annotation (hlisted x hx).1]
    exact (mergeAnnotations_ok hstages).2.2.1
  obtain ⟨hwins, hnone⟩ := @electLoop_spec _ _ s all current _ order hall horder all []
    { visited := (s.discoveryCandidates (current 0) upgrade).2 } (List.nil_subset _)
    (List.Subset.refl _) (fun x hx => .inr hx) hsorted ⟨by simp, nofun⟩
  have hstays : (∃ x ∈ all, (s.result x).isSome) → (s.elect order current upgrade).committed = none →
      s.Stays all current := by
    rintro ⟨x, hx, hanswer⟩ huncommitted
    refine (hnone huncommitted).resolve_left fun hsilent => ?_
    rw [hsilent x hx] at hanswer
    cases hanswer
  refine ⟨hwins, fun hunusable => ⟨?_, fun hanswer => ?_⟩, hstays⟩
  · rintro ⟨c, hc⟩
    obtain ⟨x, hx, hresult⟩ := (hwins c hc).answered
    exact ⟨x, hx, Option.isSome_iff_exists.mpr ⟨c, hresult⟩⟩
  · refine Option.ne_none_iff_exists'.mp fun huncommitted => ?_
    obtain ⟨n, path, hpath, _⟩ := hstays hanswer huncommitted
    rw [hunusable n] at hpath
    cases hpath

/-- Two dialers with equal scores: one is slower and the other has an offset. -/
def samplePaths : Selection Nat 64 where
  policy := .minLastLatency
  dialers := [0, 1]
  dialerToAnnotation d := { addLatency := if d = 0 then 0 else 10 }
  snapshot _ := {}
  outcome d := some ⟨if d = 0 then 20 else 10, 0, 0⟩

theorem elect_commits_sample :
    ∃ c, (samplePaths.elect List.reverse (fun _ => none) false).committed = some c := by
  have hmerged : ∀ d ∈ samplePaths.dialers, ∃ stages,
      mergeAnnotations stages = .ok (samplePaths.dialerToAnnotation d) := by
    intro d hd
    refine ⟨[some (samplePaths.dialerToAnnotation d)], ?_⟩
    revert d
    decide
  have hlatency : ∀ d ∈ samplePaths.dialers, ∀ stats, samplePaths.outcome d = some stats →
      0 ≤ (candidateLatency samplePaths.policy stats).toInt := by
    intro d hd stats hstats
    cases hstats
    revert d
    decide
  have helect := @elect_commits Nat 64 _ samplePaths List.reverse (fun _ => none) false hmerged
    hlatency fun batch => batch.reverse_perm
  exact (helect.2.1 fun _ => rfl).mpr ⟨samplePaths.discoveryCandidate 0, by decide, rfl⟩

/-- Dialer 0 was selected before and answers again; dialer 1 answers first, with the same score.
The best result is then dialer 1, which is not preferred to the path selected before. -/
theorem recovered_path_keeps :
    let recovered := fun n =>
      if n = 0 then none else samplePaths.result (samplePaths.discoveryCandidate 0)
    (∀ x ∈ (samplePaths.discoveryCandidates (recovered 0) false).1, (samplePaths.result x).isSome) ∧
      (samplePaths.elect List.reverse recovered false).committed = none := by
  refine ⟨by decide, ?_⟩
  decide +kernel

end Selection

end Dae
