import Dae.Lib.Result
import Dae.Lib.Signed

/-!
# Path annotations

`component/outbound/dialer/annotation.go`: every stage of a proxy path may carry a latency
to add and a priority that depends on the measured latency.  `MergeAnnotations` sums the
annotations of a path and refuses those whose sums leave the range of the integers.

Durations have 64 bits and `int` has `w`.  A stage without annotation is a nil pointer,
`none` here.
-/

namespace Dae

open Signed

/-- `Priority`: a priority for latencies from `low` to `high`. -/
structure Priority (w : Nat) where
  pri : BitVec w
  low : BitVec 64
  high : BitVec 64
  deriving DecidableEq, Repr

structure PriorityTerm (w : Nat) where
  default : BitVec w
  conditional : List (Priority w) := []
  deriving DecidableEq, Repr

structure Annotation (w : Nat) where
  addLatency : BitVec 64 := 0
  priority : BitVec w := 0
  conditionalPriority : List (Priority w) := []
  priorityTerms : List (PriorityTerm w) := []
  deriving DecidableEq, Repr

variable {w : Nat}

/-- The first of the conditional priorities whose range has the latency. -/
def priorityFor (latency : BitVec 64) (default : BitVec w) : List (Priority w) → BitVec w
  | [] => default
  | p :: conditional =>
    if p.low.sle latency && latency.sle p.high then p.pri else priorityFor latency default conditional

/-- The greatest of the priorities, whatever the latency. -/
def greatestPriority (default : BitVec w) (conditional : List (Priority w)) : BitVec w :=
  conditional.foldl (fun value p => max value p.pri) default

/-- The least of the priorities, whatever the latency. -/
def leastPriority (default : BitVec w) (conditional : List (Priority w)) : BitVec w :=
  conditional.foldl (fun value p => min value p.pri) default

namespace PriorityTerm

def priorityAt (latency : BitVec 64) (term : PriorityTerm w) : BitVec w :=
  priorityFor latency term.default term.conditional

def greatest (term : PriorityTerm w) : BitVec w := greatestPriority term.default term.conditional

def least (term : PriorityTerm w) : BitVec w := leastPriority term.default term.conditional

end PriorityTerm

namespace Annotation

def priorityAt (a : Annotation w) (latency : BitVec 64) : BitVec w :=
  if a.priorityTerms = [] then priorityFor latency a.priority a.conditionalPriority
  else a.priorityTerms.foldl (fun priority term => priority + term.priorityAt latency) 0

def maxPriority (a : Annotation w) : BitVec w :=
  if a.priorityTerms = [] then greatestPriority a.priority a.conditionalPriority
  else a.priorityTerms.foldl (fun priority term => priority + term.greatest) 0

end Annotation

/-- The first loop of `MergeAnnotations`. -/
def mergeLoop : List (Option ( Annotation w)) → Annotation w → Except String ( Annotation w)
  | [], merged => .ok merged
  | none :: annotations, merged => mergeLoop annotations merged
  | some annotation :: annotations, merged =>
    if overflows merged.addLatency annotation.addLatency then .error "add_latency overflow"
    else if overflows merged.priority annotation.priority then .error "priority overflow"
    else
      mergeLoop annotations
        { merged with
          addLatency := merged.addLatency + annotation.addLatency
          priority := merged.priority + annotation.priority
          priorityTerms :=
            if annotation.priorityTerms ≠ [] then merged.priorityTerms ++ annotation.priorityTerms
            else if annotation.priority ≠ 0 ∨ annotation.conditionalPriority ≠ [] then
              merged.priorityTerms ++ [⟨ annotation.priority, annotation.conditionalPriority⟩]
            else merged.priorityTerms }

/-- The second loop: the least and the greatest sums of the priorities are in range. -/
def checkLoop : List (PriorityTerm w) → BitVec w → BitVec w → Except String Unit
  | [], _, _ => .ok ()
  | term :: terms, minPriority, maxPriority =>
    if overflows minPriority term.least || overflows maxPriority term.greatest then
      .error "conditional priority overflow"
    else checkLoop terms (minPriority + term.least) (maxPriority + term.greatest)

def mergeAnnotations (annotations : List (Option ( Annotation w))) : Except String ( Annotation w) := do
  let merged ← mergeLoop annotations {}
  checkLoop merged.priorityTerms 0 0
  return merged

/-! ### The terms of an annotation -/

/-- The terms an annotation adds to the merged one. -/
def Annotation.terms (a : Annotation w) : List (PriorityTerm w) :=
  if a.priorityTerms ≠ [] then a.priorityTerms
  else if a.priority ≠ 0 ∨ a.conditionalPriority ≠ [] then [⟨a.priority, a.conditionalPriority⟩]
  else []

variable {a : Annotation w}

theorem Annotation.terms_of_ne_nil (h : a.priorityTerms ≠ []) :
    a.terms = a.priorityTerms := if_pos h

/-- Both evaluations of an annotation are sums over its terms. -/
theorem Annotation.eval_terms {f : BitVec w → List (Priority w) → BitVec w} (hf : f 0 [] = 0)
    (a : Annotation w) :
    (if a.priorityTerms = [] then f a.priority a.conditionalPriority
      else a.priorityTerms.foldl (fun sum term => sum + f term.default term.conditional) 0) =
      (a.terms.map fun term => f term.default term.conditional).foldl (· + ·) 0 := by
  rw [List.foldl_map]
  by_cases hterms : a.priorityTerms = []
  · rw [if_pos hterms, Annotation.terms, if_neg (not_not_intro hterms)]
    split <;> rename_i h
    · exact (BitVec.zero_add _).symm
    · obtain ⟨hpriority, hconditional⟩ := not_or.mp h
      rw [not_not.mp hpriority, not_not.mp hconditional, hf]
      rfl
  · rw [if_neg hterms, terms_of_ne_nil hterms]

theorem Annotation.priorityAt_eq (a : Annotation w) (latency : BitVec 64) :
    a.priorityAt latency = (a.terms.map (PriorityTerm.priorityAt latency)).foldl (· + ·) 0 :=
  a.eval_terms rfl

theorem Annotation.maxPriority_eq (a : Annotation w) :
    a.maxPriority = (a.terms.map PriorityTerm.greatest).foldl (· + ·) 0 :=
  a.eval_terms rfl

theorem priorityFor_cases (latency : BitVec 64) (default : BitVec w) (conditional : List (Priority w)) :
    priorityFor latency default conditional = default ∨
      ∃ p ∈ conditional, priorityFor latency default conditional = p.pri := by
  induction conditional with
  | nil => exact .inl rfl
  | cons p conditional ih =>
    rw [priorityFor]
    split
    · exact .inr ⟨p, List.mem_cons_self, rfl⟩
    · rcases ih with h | ⟨q, hq, h⟩
      · exact .inl h
      · exact .inr ⟨q, List.mem_cons_of_mem p hq, h⟩

theorem le_greatestPriority (default : BitVec w) (conditional : List (Priority w)) :
    default.toInt ≤ (greatestPriority default conditional).toInt ∧
      ∀ p ∈ conditional, p.pri.toInt ≤ (greatestPriority default conditional).toInt := by
  induction conditional generalizing default with
  | nil => exact ⟨le_rfl, fun p hp => nomatch hp⟩
  | cons q conditional ih =>
    obtain ⟨hstart, hrest⟩ := ih (max default q.pri)
    rw [toInt_max] at hstart
    refine ⟨(le_max_left _ _).trans hstart, fun p hp => ?_⟩
    rcases List.mem_cons.mp hp with rfl | hp
    · exact (le_max_right _ _).trans hstart
    · exact hrest p hp

theorem leastPriority_le (default : BitVec w) (conditional : List (Priority w)) :
    (leastPriority default conditional).toInt ≤ default.toInt ∧
      ∀ p ∈ conditional, (leastPriority default conditional).toInt ≤ p.pri.toInt := by
  induction conditional generalizing default with
  | nil => exact ⟨le_rfl, fun p hp => nomatch hp⟩
  | cons q conditional ih =>
    obtain ⟨hstart, hrest⟩ := ih (min default q.pri)
    rw [toInt_min] at hstart
    refine ⟨hstart.trans (min_le_left _ _), fun p hp => ?_⟩
    rcases List.mem_cons.mp hp with rfl | hp
    · exact hstart.trans (min_le_right _ _)
    · exact hrest p hp

/-- At every latency a term lies between its least and its greatest priority. -/
theorem PriorityTerm.priorityAt_between (latency : BitVec 64) (term : PriorityTerm w) :
    term.least.toInt ≤ (term.priorityAt latency).toInt ∧
      (term.priorityAt latency).toInt ≤ term.greatest.toInt := by
  obtain ⟨hleast, hleast'⟩ := leastPriority_le term.default term.conditional
  obtain ⟨hgreatest, hgreatest'⟩ := le_greatestPriority term.default term.conditional
  rw [priorityAt]
  rcases priorityFor_cases latency term.default term.conditional with h | ⟨p, hp, h⟩
  · rw [h]
    exact ⟨hleast, hgreatest⟩
  · rw [h]
    exact ⟨hleast' p hp, hgreatest' p hp⟩

/-! ### Merging -/

/-- What `MergeAnnotations` leaves in its result: the terms are all there is. -/
structure Merged (merged : Annotation w) : Prop where
  conditional : merged.conditionalPriority = []
  priority : merged.priorityTerms = [] → merged.priority = 0

variable {merged : Annotation w}

theorem Merged.terms (h : Merged merged) : merged.terms = merged.priorityTerms := by
  by_cases hterms : merged.priorityTerms = []
  · rw [ Annotation.terms, if_neg (not_not_intro hterms), h.priority hterms, h.conditional, hterms]
    simp
  · exact Annotation.terms_of_ne_nil hterms

/-- The annotations of a list, without the nil pointers. -/
def present (annotations : List (Option ( Annotation w))) : List ( Annotation w) :=
  annotations.filterMap id

/-- One round of the first loop: what an annotation does to the merged one. -/
theorem priorityTerms_round (merged annotation : Annotation w) :
    (if annotation.priorityTerms ≠ [] then merged.priorityTerms ++ annotation.priorityTerms
      else if annotation.priority ≠ 0 ∨ annotation.conditionalPriority ≠ [] then
        merged.priorityTerms ++ [⟨ annotation.priority, annotation.conditionalPriority⟩]
      else merged.priorityTerms) = merged.priorityTerms ++ annotation.terms := by
  rw [ Annotation.terms]
  split
  · rfl
  · split
    · rfl
    · exact (List.append_nil _).symm

/-- An annotation without terms has priority zero. -/
theorem Annotation.priority_of_terms_nil (h : a.terms = []) : a.priority = 0 := by
  by_contra hne
  rw [ Annotation.terms] at h
  split at h
  · contradiction
  · rw [if_pos (.inl hne)] at h
    cases h

variable {annotations : List (Option ( Annotation w))} {result : Annotation w}

theorem mergeLoop_spec (h : mergeLoop annotations merged = .ok result) (hmerged : Merged merged) :
    Merged result ∧
      result.priorityTerms = merged.priorityTerms ++ (present annotations).flatMap Annotation.terms ∧
      result.addLatency.toInt =
        merged.addLatency.toInt + ((present annotations).map (·.addLatency.toInt)).sum := by
  induction annotations generalizing merged with
  | nil =>
    cases h
    exact ⟨hmerged, (List.append_nil _).symm, (Int.add_zero _).symm⟩
  | cons annotation annotations ih =>
    cases annotation with
    | none => exact ih h hmerged
    | some annotation =>
      rw [mergeLoop] at h
      split at h
      · cases h
      split at h
      · cases h
      rename_i hlatency hpriority
      rw [priorityTerms_round] at h
      obtain ⟨hresult, hterms, hsum⟩ := ih h ⟨hmerged.conditional, by
        intro hnil
        obtain ⟨hnil, hnil'⟩ := List.append_eq_nil_iff.mp hnil
        show merged.priority + annotation.priority = 0
        rw [hmerged.priority hnil, annotation.priority_of_terms_nil hnil']
        exact BitVec.zero_add 0⟩
      refine ⟨hresult, ?_, ?_⟩
      · rw [hterms, List.append_assoc]
        rfl
      · rw [hsum, toInt_add_of_not_overflows (Bool.eq_false_iff.mpr hlatency), Int.add_assoc]
        rfl

theorem checkLoop_spec {before terms : List (PriorityTerm w)}
    (h : checkLoop terms ((before.map PriorityTerm.least).foldl (· + ·) 0)
      ((before.map PriorityTerm.greatest).foldl (· + ·) 0) = .ok ())
    (hleast : Exact (before.map PriorityTerm.least))
    (hgreatest : Exact (before.map PriorityTerm.greatest)) :
    Exact ((before ++ terms).map PriorityTerm.least) ∧
      Exact ((before ++ terms).map PriorityTerm.greatest) := by
  induction terms generalizing before with
  | nil =>
    rw [List.append_nil]
    exact ⟨hleast, hgreatest⟩
  | cons term terms ih =>
    rw [checkLoop] at h
    split at h
    · cases h
    rename_i hcheck
    obtain ⟨hmin, hmax⟩ := Bool.or_eq_false_iff.mp (Bool.eq_false_iff.mpr hcheck)
    have hmin := inRange_of_not_overflows hmin
    have hmax := inRange_of_not_overflows hmax
    rw [hleast.toInt_foldl] at hmin
    rw [hgreatest.toInt_foldl] at hmax
    rw [← List.singleton_append, ← List.append_assoc]
    refine ih ?_ ?_ ?_
    · rw [List.map_append, List.map_append, List.foldl_append, List.foldl_append]
      exact h
    · rw [List.map_append]
      exact hleast.append_singleton hmin
    · rw [List.map_append]
      exact hgreatest.append_singleton hmax

/-- The priorities of the annotation can be summed, whatever the latency. -/
def Annotation.Fits (a : Annotation w) : Prop :=
  Exact (a.terms.map PriorityTerm.least) ∧ Exact (a.terms.map PriorityTerm.greatest)

/-- **What an accepted list merges to.** -/
theorem mergeAnnotations_ok (h : mergeAnnotations annotations = .ok merged) :
    merged.terms = (present annotations).flatMap Annotation.terms ∧
      merged.addLatency.toInt = ((present annotations).map (·.addLatency.toInt)).sum ∧
      merged.Fits ∧ Merged merged := by
  rw [mergeAnnotations] at h
  cases hloop : mergeLoop annotations {} with
  | error e =>
    rw [hloop] at h
    cases h
  | ok result =>
    rw [hloop] at h
    cases hcheck : checkLoop result.priorityTerms 0 0 with
    | error e =>
      change (checkLoop result.priorityTerms 0 0).bind _ = _ at h
      rw [hcheck] at h
      cases h
    | ok u =>
      change (checkLoop result.priorityTerms 0 0).bind _ = _ at h
      rw [hcheck] at h
      cases h
      obtain ⟨hmerged, hterms, hsum⟩ := mergeLoop_spec hloop ⟨rfl, fun _ => rfl⟩
      have hrange : Exact (([] ++ merged.priorityTerms).map PriorityTerm.least) ∧
          Exact (([] ++ merged.priorityTerms).map PriorityTerm.greatest) :=
        checkLoop_spec hcheck exact_nil exact_nil
      rw [ Annotation.Fits, hmerged.terms]
      refine ⟨hterms, ?_, hrange, hmerged⟩
      rw [hsum]
      exact Int.zero_add _

theorem mergeLoop_append (first rest : List (Option ( Annotation w))) (merged : Annotation w) :
    mergeLoop (first ++ rest) merged = (mergeLoop first merged).bind (mergeLoop rest) := by
  induction first generalizing merged with
  | nil => rfl
  | cons annotation first ih =>
    cases annotation with
    | none => exact ih merged
    | some annotation =>
      rw [List.cons_append, mergeLoop, mergeLoop]
      split
      · rfl
      · split
        · rfl
        · exact ih _

/-- Merging a merged annotation into an empty one gives it back. -/
theorem mergeLoop_merged (h : Merged merged)
    (hloop : mergeLoop [some merged] {} = .ok result) : result = merged := by
  have hround := priorityTerms_round ({} : Annotation w) merged
  rw [mergeLoop, hround, h.terms] at hloop
  obtain ⟨-, hloop⟩ := Except.ite_error_eq_ok hloop
  obtain ⟨-, hloop⟩ := Except.ite_error_eq_ok hloop
  cases hloop
  obtain ⟨addLatency, priority, conditional, terms⟩ := merged
  obtain rfl := h.conditional
  simp

/-- **Merging goes on from a merged annotation.** -/
theorem mergeAnnotations_concat
    { annotation : Annotation w} (h : mergeAnnotations annotations = .ok merged)
    (hnext : mergeAnnotations [some merged, some annotation] = .ok result) :
    mergeAnnotations (annotations ++ [some annotation]) = .ok result := by
  have hmerged := (mergeAnnotations_ok h).2.2.2
  have hloop : mergeLoop annotations {} = .ok merged := by
    unfold mergeAnnotations at h
    obtain ⟨loop, hloop, h⟩ := Except.bind_eq_ok h
    obtain ⟨-, -, h⟩ := Except.bind_eq_ok h
    cases h
    exact hloop
  unfold mergeAnnotations at hnext ⊢
  obtain ⟨final, hfinal, hcheck⟩ := Except.bind_eq_ok hnext
  rw [← List.singleton_append, mergeLoop_append] at hfinal
  obtain ⟨first, hfirst, hfinal⟩ := Except.bind_eq_ok hfinal
  rw [mergeLoop_merged hmerged hfirst] at hfinal
  rw [mergeLoop_append, hloop]
  change (mergeLoop [some annotation] merged >>= _) = _
  rw [hfinal]
  exact hcheck

theorem Annotation.Fits.priorityAt (h : a.Fits) (latency : BitVec 64) :
    Exact (a.terms.map (PriorityTerm.priorityAt latency)) :=
  h.1.between h.2 fun term _ => term.priorityAt_between latency

/-- One stage of a path always fits; so does a merged annotation, by `mergeAnnotations_ok`. -/
theorem Annotation.fits_of_single (h : a.priorityTerms.length ≤ 1) : a.Fits := by
  have hsingle : ∀ {l : List (PriorityTerm w)} (f : PriorityTerm w → BitVec w), l.length ≤ 1 →
      Exact (l.map f) := by
    intro l f hl
    match l with
    | [] => exact exact_nil
    | [term] =>
      refine exact_nil.append_singleton ?_
      rw [List.map_nil, List.sum_nil, Int.zero_add]
      exact inRange_toInt _
  have hterms : a.terms.length ≤ 1 := by
    rw [ Annotation.terms]
    split
    · exact h
    · split
      · exact le_rfl
      · exact Nat.zero_le 1
  exact ⟨hsingle _ hterms, hsingle _ hterms⟩

theorem Annotation.Fits.toInt_priorityAt (h : a.Fits) (latency : BitVec 64) :
    (a.priorityAt latency).toInt = (a.terms.map fun term => (term.priorityAt latency).toInt).sum := by
  rw [a.priorityAt_eq, (h.priorityAt latency).toInt_foldl, List.map_map]
  rfl

theorem Annotation.Fits.toInt_maxPriority (h : a.Fits) :
    a.maxPriority.toInt = (a.terms.map fun term => term.greatest.toInt).sum := by
  rw [a.maxPriority_eq, h.2.toInt_foldl, List.map_map]
  rfl

theorem Annotation.Fits.priorityAt_le_maxPriority (h : a.Fits)
    (latency : BitVec 64) : (a.priorityAt latency).toInt ≤ a.maxPriority.toInt := by
  rw [h.toInt_priorityAt, h.toInt_maxPriority]
  exact List.sum_le_sum fun term _ => (term.priorityAt_between latency).2

/-- Two annotations with the same terms evaluate alike. -/
theorem Annotation.eval_congr {b : Annotation w} (h : a.terms = b.terms) :
    (∀ latency, a.priorityAt latency = b.priorityAt latency) ∧ a.maxPriority = b.maxPriority := by
  refine ⟨fun latency => ?_, ?_⟩
  · rw [a.priorityAt_eq, b.priorityAt_eq, h]
  · rw [a.maxPriority_eq, b.maxPriority_eq, h]

/-- **Merging is a sum.**  If `MergeAnnotations` accepts a list of annotations whose own
priorities can be summed, then at every latency the merged priority and the merged latency
are the sums of those of the list, no partial sum of `PriorityAt` or `MaxPriority` wraps
around, `MaxPriority` is an upper bound, and merging two parts first gives the same. -/
theorem mergeAnnotations_sum {annotations : List (Option ( Annotation w))} {merged : Annotation w}
    (h : mergeAnnotations annotations = .ok merged) (hfits : ∀ a ∈ present annotations, a.Fits) :
    (∀ latency, (merged.priorityAt latency).toInt =
      ((present annotations).map fun a => (a.priorityAt latency).toInt).sum) ∧
    merged.addLatency.toInt = ((present annotations).map (·.addLatency.toInt)).sum ∧
    (∀ latency k, ((merged.priorityTerms.take k).foldl
        (fun (priority : BitVec w) term => priority + PriorityTerm.priorityAt latency term) 0).toInt =
      ((merged.priorityTerms.take k).map fun term => (term.priorityAt latency).toInt).sum) ∧
    (∀ k, ((merged.priorityTerms.take k).foldl
        (fun (priority : BitVec w) term => priority + PriorityTerm.greatest term) 0).toInt =
      ((merged.priorityTerms.take k).map (·.greatest.toInt)).sum) ∧
    (∀ latency, (merged.priorityAt latency).toInt ≤ merged.maxPriority.toInt) ∧
    ∀ first rest firstMerged restMerged both, annotations = first ++ rest →
      mergeAnnotations first = .ok firstMerged → mergeAnnotations rest = .ok restMerged →
      mergeAnnotations [some firstMerged, some restMerged] = .ok both →
      (∀ latency, both.priorityAt latency = merged.priorityAt latency) ∧
        both.maxPriority = merged.maxPriority ∧ both.addLatency = merged.addLatency := by
  obtain ⟨hterms, hlatency, hmergedFits, hmerged⟩ := mergeAnnotations_ok h
  refine ⟨fun latency => ?_, hlatency, fun latency k => ?_, fun k => ?_, fun latency => ?_, ?_⟩
  · rw [hmergedFits.toInt_priorityAt, hterms, List.map_flatMap, List.flatMap_def, List.sum_flatten,
      List.map_map]
    exact congrArg List.sum (List.map_congr_left fun a ha => ((hfits a ha).toInt_priorityAt latency).symm)
  · have hexact := (hmergedFits.priorityAt latency).take k
    rw [hmerged.terms, ← List.map_take] at hexact
    have hsum := hexact.toInt_foldl
    rwa [List.foldl_map, List.map_map] at hsum
  · have hexact := hmergedFits.2.take k
    rw [hmerged.terms, ← List.map_take] at hexact
    have hsum := hexact.toInt_foldl
    rwa [List.foldl_map, List.map_map] at hsum
  · exact hmergedFits.priorityAt_le_maxPriority latency
  · intro first rest firstMerged restMerged both hsplit hfirst hrest hboth
    obtain ⟨hterms₁, hlatency₁, -, -⟩ := mergeAnnotations_ok hfirst
    obtain ⟨hterms₂, hlatency₂, -, -⟩ := mergeAnnotations_ok hrest
    obtain ⟨htermsBoth, hlatencyBoth, -, -⟩ := mergeAnnotations_ok hboth
    have hpresent : present annotations = present first ++ present rest := by
      rw [hsplit, present, List.filterMap_append]
      rfl
    have hsame : both.terms = merged.terms := by
      rw [htermsBoth, hterms, hpresent, List.flatMap_append, ← hterms₁, ← hterms₂]
      exact congrArg (firstMerged.terms ++ ·) (List.append_nil _)
    obtain ⟨hpriorityAt, hmaxPriority⟩ := Annotation.eval_congr hsame
    refine ⟨hpriorityAt, hmaxPriority, BitVec.eq_of_toInt_eq ?_⟩
    rw [hlatencyBoth, hlatency, hpresent, List.map_append, List.sum_append, ← hlatency₁, ← hlatency₂]
    exact congrArg (firstMerged.addLatency.toInt + ·) (Int.add_zero _)

/-- A stage of priority 2 that drops to 1 above a millisecond, and one of priority 3. -/
def sampleStages : List (Option ( Annotation 64)) :=
  [some { addLatency := 5, priority := 2, conditionalPriority := [⟨1, 1000000, BitVec.intMax 64⟩] },
    none, some { priority := 3, priorityTerms := [⟨3, []⟩] }]

theorem mergeAnnotations_sum_sample : ∃ merged,
    mergeAnnotations sampleStages = .ok merged ∧ (merged.priorityAt 2000000).toInt =
      ((present sampleStages).map fun a => (a.priorityAt 2000000).toInt).sum := by
  refine ⟨_, rfl, (mergeAnnotations_sum rfl fun a ha => ?_).1 _⟩
  apply Annotation.fits_of_single
  revert a
  decide

/-- An annotation whose own priorities wrap around is accepted behind one that makes room
for them, and the merged priority is not the sum of the two. -/
theorem mergeAnnotations_wrapped : ∃ (annotations : List (Option ( Annotation 64))) (merged : Annotation 64),
    mergeAnnotations annotations = .ok merged ∧ (merged.priorityAt 0).toInt ≠
      ((present annotations).map fun a => (a.priorityAt 0).toInt).sum :=
  ⟨[some { priorityTerms := [⟨-BitVec.intMax 64, []⟩] },
    some { priorityTerms := [⟨BitVec.intMax 64, []⟩, ⟨BitVec.intMax 64, []⟩] }], _, rfl, by decide⟩

end Dae
