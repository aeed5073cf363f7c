import Dae.Outbound.Annotation

/-!
# Electing a path

`component/outbound/automatic_selection.go`, with `selector.go` and `selection_order.go`: a
group without a usable path probes its dialers, tier by tier, and commits one of those that
answered.  The dialers of a tier are probed in parallel, so their results arrive in any order.

A `Selection` has what one round of discovery reads.  How a dialer answers a probe, and with
which latencies, is fixed for the round, and its proof stays valid; whether the path that was
selected before is usable is asked anew by every commit.  Cancellation and timeouts, the demand
for monitoring and the tracking of changes are left out.
-/

namespace Dae

/-- The policies with an automatic selection. -/
inductive AutomaticPolicy where
  | random
  | failover
  | minAverage10Latencies
  | minMovingAverageLatencies
  | minLastLatency
  deriving DecidableEq, Repr

structure LatencyStats where
  last : BitVec 64
  avg10 : BitVec 64
  movingAvg : BitVec 64
  deriving DecidableEq, Repr

inductive NetworkSupport where
  | unknown
  | confirmed
  | unsupported
  deriving DecidableEq, Repr

/-- What discovery reads of a dialer: `CanProbe`, and its `SelectionSnapshot`. -/
structure SelectionSnapshot where
  canProbe : Bool := true
  support : NetworkSupport := .unknown
  monitoring : Bool := false
  degraded : Bool := false
  deriving DecidableEq, Repr

structure SelectorCandidate (α : Type*) (w : Nat) where
  dialer : α
  latency : BitVec 64
  sortingLatency : BitVec 64
  priority : BitVec w
  degraded : Bool
  deriving DecidableEq, Repr

structure DiscoveryCandidate (α : Type*) (w : Nat) where
  d : α
  upper : BitVec w
  degraded : Bool
  annotation : Annotation w
  deriving DecidableEq, Repr

/-- A group with its automatic selection, for one network. -/
structure Selection (α : Type*) (w : Nat) where
  policy : AutomaticPolicy
  dialers : List α
  dialerToAnnotation : α → Annotation w
  snapshot : α → SelectionSnapshot
  /-- The latencies of a dialer that has answered the probe. -/
  outcome : α → Option LatencyStats
  visited : List α := []
  tolerance : BitVec 64 := 0
  toleranceActive : Bool := false
  force : Bool := false

variable {α : Type*} {w : Nat}

/-! ### Scores -/

def saturatingDurationAdd (a b : BitVec 64) : BitVec 64 :=
  if (0#64).slt b && (BitVec.intMax 64 - b).slt a then BitVec.intMax 64
  else if b.slt 0 && a.slt (BitVec.intMin 64 - b) then BitVec.intMin 64
  else a + b

def candidateLatency (policy : AutomaticPolicy) (latency : LatencyStats) : BitVec 64 :=
  match policy with
  | .minAverage10Latencies => latency.avg10
  | .minMovingAverageLatencies => latency.movingAvg
  | _ => latency.last

def Selection.scoreCandidate (s : Selection α w) (d : α) (measurements : LatencyStats)
    (degraded : Bool) : SelectorCandidate α w :=
  let latency := candidateLatency s.policy measurements
  { dialer := d
    latency
    sortingLatency := saturatingDurationAdd latency (s.dialerToAnnotation d).addLatency
    priority := (s.dialerToAnnotation d).priorityAt latency
    degraded }

/-- `compareCandidates`, on what it reads of a candidate: the first one comes first for `lt`. -/
def compareScores (a b : Bool × BitVec w × BitVec 64) : Ordering :=
  if a.1 ≠ b.1 then if a.1 then .gt else .lt
  else (compare b.2.1.toInt a.2.1.toInt).then (compare a.2.2.toInt b.2.2.toInt)

def compareCandidates (a b : SelectorCandidate α w) : Ordering :=
  compareScores (a.degraded, a.priority, a.sortingLatency) (b.degraded, b.priority, b.sortingLatency)

/-- `betterTier`, on what it reads of a candidate. -/
def betterTier (a b : Bool × BitVec w) : Bool :=
  (!a.1 && b.1) || (a.1 = b.1 && b.2.slt a.2)

def SelectorCandidate.tier (a : SelectorCandidate α w) : Bool × BitVec w := (a.degraded, a.priority)

/-- The tier that a dialer may reach. -/
def DiscoveryCandidate.tier (a : DiscoveryCandidate α w) : Bool × BitVec w := (a.degraded, a.upper)

def Selection.prefer (s : Selection α w) (a b : SelectorCandidate α w) : Bool :=
  if betterTier a.tier b.tier then true
  else if s.policy = .random ∨ a.degraded ≠ b.degraded ∨ a.priority ≠ b.priority then false
  else
    let tolerance := if s.toleranceActive && !s.force then s.tolerance else 0
    (saturatingDurationAdd a.sortingLatency tolerance).slt b.sortingLatency

/-! ### Discovery -/

def hasConditionalPriority (a : Annotation w) : Bool :=
  !a.conditionalPriority.isEmpty ||
    a.priorityTerms.any fun term => !term.conditional.isEmpty

/-- A dialer as a candidate of a discovery. -/
def Selection.discoveryCandidate (s : Selection α w) (d : α) : DiscoveryCandidate α w where
  d
  upper := (s.dialerToAnnotation d).maxPriority
  degraded := (s.snapshot d).degraded
  annotation := s.dialerToAnnotation d

variable [DecidableEq α]

/-- The tests of `discoveryCandidates`, in the order of the loop. -/
def Selection.discovers (s : Selection α w) (current : Option (SelectorCandidate α w)) (upgrade : Bool)
    (d : α) : Bool :=
  let snapshot := s.snapshot d
  let upper := (s.dialerToAnnotation d).maxPriority
  if !snapshot.canProbe then false
  else if snapshot.support = .unsupported then false
  else if upgrade && snapshot.monitoring && snapshot.support = .confirmed then false
  else
    match current with
    | none => true
    | some current =>
      if upgrade && !current.degraded &&
          (upper.slt current.priority || s.policy = .failover && upper = current.priority) then false
      else if upgrade && d = current.dialer && !current.degraded then false
      else true

/-- `discoveryCandidates`, with the dialers visited: the candidates in the order of the tiers
they may reach, without those visited before unless all have been. -/
def Selection.discoveryCandidates (s : Selection α w) (current : Option (SelectorCandidate α w))
    (upgrade : Bool) : List (DiscoveryCandidate α w) × List α :=
  let candidates := ((s.dialers.filter (s.discovers current upgrade)).map
    s.discoveryCandidate).insertionSort fun a b =>
      compareScores (a.degraded, a.upper, 0) (b.degraded, b.upper, 0) ≠ .gt
  if candidates.any fun candidate => candidate.d ∉ s.visited then
    (candidates.filter fun candidate => candidate.d ∉ s.visited, s.visited)
  else (candidates, [])

/-! ### Election -/

/-- The state of an election: the candidates that have answered, in the order of arrival, the
one committed, and how many commits have been tried. -/
structure Election (α : Type*) (w : Nat) where
  verified : List (SelectorCandidate α w) := []
  committed : Option (SelectorCandidate α w) := none
  attempts : Nat := 0
  visited : List α := []

namespace Selection

variable (s : Selection α w)

/-- What is known of a candidate once its probe has returned. -/
def result (candidate : DiscoveryCandidate α w) : Option (SelectorCandidate α w) :=
  (s.outcome candidate.d).map fun stats => s.scoreCandidate candidate.d stats candidate.degraded

/-- `bestResult`: the first of the best results. -/
def bestResult (verified : List (SelectorCandidate α w)) : Option (SelectorCandidate α w) :=
  verified.foldl
    (fun best candidate =>
      match best with
      | none => some candidate
      | some best => if compareCandidates candidate best = .lt then some candidate else some best)
    none

/-- `commit`; `current n` is the path selected before, when it is usable at the `n`th attempt. -/
def commit (current : Nat → Option (SelectorCandidate α w)) (candidate : SelectorCandidate α w)
    (e : Election α w) : Election α w :=
  let e := { e with attempts := e.attempts + 1 }
  match current e.attempts with
  | none => { e with committed := some candidate }
  | some path =>
    if path.dialer ≠ candidate.dialer && !s.prefer candidate path then e
    else { e with committed := some candidate }

/-- Another candidate may still be better than the best one so far. -/
def canBeat (best : SelectorCandidate α w) (running : Bool) (candidate : DiscoveryCandidate α w) :
    Bool :=
  if candidate.degraded ≠ best.degraded then !candidate.degraded
  else if candidate.upper ≠ best.priority then best.priority.slt candidate.upper
  else if best.sortingLatency.sle candidate.annotation.addLatency then false
  else
    !running || hasConditionalPriority candidate.annotation ||
      candidate.annotation.addLatency ≠ (s.dialerToAnnotation best.dialer).addLatency

/-- The commit behind every result, unless a candidate may still be better. -/
def tryCommit (current : Nat → Option (SelectorCandidate α w))
    (pending outstanding : List (DiscoveryCandidate α w)) (e : Election α w) : Election α w :=
  if e.committed.isSome then e
  else
    match bestResult e.verified with
    | none => e
    | some best =>
      if outstanding.any (s.canBeat best true) || pending.any (s.canBeat best false) then e
      else s.commit current best e

/-- A result is recorded. -/
def receive (candidate : DiscoveryCandidate α w) (e : Election α w) : Election α w :=
  { e with verified := e.verified ++ (s.result candidate).toList }

/-- The results of a batch in the order of their arrival. -/
def receiveAll (current : Nat → Option (SelectorCandidate α w)) (pending : List (DiscoveryCandidate α w)) :
    List (DiscoveryCandidate α w) → List (DiscoveryCandidate α w) → Election α w → Election α w
  | _, [], e => e
  | outstanding, candidate :: arrivals, e =>
    let outstanding := outstanding.filter fun other => other.d ≠ candidate.d
    receiveAll current pending outstanding arrivals
      (s.tryCommit current pending outstanding (s.receive candidate e))

/-- The commit behind a batch. -/
def endBatch (current : Nat → Option (SelectorCandidate α w)) (pending : List (DiscoveryCandidate α w))
    (e : Election α w) : Election α w :=
  if e.committed.isSome then e
  else
    match bestResult e.verified with
    | none => e
    | some best =>
      match pending with
      | [] => s.commit current best e
      | next :: _ => if betterTier best.tier next.tier then s.commit current best e else e

/-- The loop of `elect` over the tiers; `order` gives the order in which results arrive. -/
def electLoop (order : List (DiscoveryCandidate α w) → List (DiscoveryCandidate α w))
    (current : Nat → Option (SelectorCandidate α w)) :
    List (DiscoveryCandidate α w) → Election α w → Election α w
  | [], e =>
    match bestResult e.verified with
    | none => e
    | some best => s.commit current best e
  | first :: rest, e =>
    let same := fun candidate : DiscoveryCandidate α w =>
      decide (candidate.upper = first.upper ∧ candidate.degraded = first.degraded)
    let batch := first :: rest.takeWhile same
    let pending := rest.dropWhile same
    let e := { e with visited := batch.map (·.d) ++ e.visited }
    let e := s.endBatch current pending (s.receiveAll current pending batch (order batch) e)
    if e.committed.isSome then e else electLoop order current pending e
termination_by pending => pending.length
decreasing_by exact Nat.lt_succ_of_le (List.dropWhile_suffix _).length_le

/-- `elect`, from the candidates of a discovery. -/
def elect (order : List (DiscoveryCandidate α w) → List (DiscoveryCandidate α w))
    (current : Nat → Option (SelectorCandidate α w)) (upgrade : Bool) : Election α w :=
  let (pending, visited) := s.discoveryCandidates (current 0) upgrade
  s.electLoop order current pending { visited }

end Selection

end Dae
