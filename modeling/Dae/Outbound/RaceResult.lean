import Dae.Outbound.RaceFates

/-!
# Racing leaks nothing

The attempts are started in the order of the source, and together with what becomes of them this
says that a race leaks nothing.
-/

namespace Dae

/-! Weights that count down while a race is left. -/

def SourcePoint.weight {A E : Type} : SourcePoint A E → Nat
  | .opening => 6
  | .pulling => 5
  | .offering _ => 4
  | .waiting => 4
  | .stopping => 3
  | .closingFinished => 2
  | .closingInput => 1
  | .ended => 0

def AttemptPoint.weight {R E : Type} : AttemptPoint R E → Nat
  | .running => 3
  | .sending _ => 2
  | .delivered _ => 1
  | .discarding _ => 1
  | .finished _ => 0

def RacePoint.weight {R E : Type} : RacePoint R E → Nat
  | .leaving .stoppingTimer _ => 5
  | .leaving .closingReturned _ => 4
  | .leaving .cancelling _ => 3
  | .leaving .awaitingSource _ => 2
  | .leaving .awaitingWorkers _ => 1
  | _ => 0

def AttemptFate.outcome {R E : Type} : AttemptFate R E → Except E R
  | .delivered outcome => outcome
  | .dropped outcome => outcome

namespace Race

variable {A R E : Type} {withDiscard : Bool} {s s' : Race A R E}

/-! ### The order of the attempts -/

/-- The addresses that are tried, and the one that waits to be. -/
def tried (s : Race A R E) : List (RaceCandidate A E) :=
  s.attempts.map (fun a => (a.address, none)) ++ s.pending.toList.map fun address => (address, none)

/-- What the source has produced is tried in order. -/
structure Ordered (s : Race A R E) : Prop where
  order : s.tried <+: s.produced
  offered : s.main.outcome? = none → ∀ c, s.source = .offering c →
    s.produced = s.tried ++ [c] ∧ s.waiting = true
  pulled : s.main.outcome? = none → s.source = .pulling → s.produced = s.tried ∧ s.waiting = true
  idle : s.main.outcome? = none → s.source = .opening ∨ s.source = .waiting → s.produced = s.tried
  waiting : s.waiting = true → s.pending = none

variable {i : Nat}

theorem tried_set {address : A} {before after : AttemptPoint R E}
    (ha : s.attempts[i]? = some ⟨address, before⟩) :
    ({ s with attempts := s.attempts.set i ⟨address, after⟩ } : Race A R E).tried = s.tried := by
  have hmap : (s.attempts.set i ⟨address, after⟩).map (fun a => (a.address, (none : Option E))) =
      s.attempts.map fun a => (a.address, none) := by
    refine List.ext_getElem? fun j => ?_
    grind
  rw [tried, tried, hmap]

/-- Steps that neither the source nor the addresses take part in. -/
theorem Ordered.congr (h : s.Ordered) (htried : s'.tried = s.tried)
    (hproduced : s'.produced = s.produced) (hwaiting : s'.waiting = s.waiting)
    (hpending : s.pending = none → s'.pending = none) (hsource : s'.source = s.source)
    (hmain : s'.main.outcome? = none → s.main.outcome? = none) : s'.Ordered where
  order := by
    rw [htried, hproduced]
    exact h.order
  offered hloop c hc := by
    rw [htried, hproduced, hwaiting]
    exact h.offered (hmain hloop) c (hsource ▸ hc)
  pulled hloop hp := by
    rw [htried, hproduced, hwaiting]
    exact h.pulled (hmain hloop) (hsource ▸ hp)
  idle hloop hi := by
    rw [htried, hproduced]
    exact h.idle (hmain hloop) (hsource ▸ hi)
  waiting hw := hpending (h.waiting (hwaiting ▸ hw))

/-- The source no longer offers anything. -/
theorem Ordered.of_stopped (h : s.Ordered) (htried : s'.tried = s.tried)
    (hproduced : s'.produced = s.produced) (hpending : s'.waiting = true → s'.pending = none)
    (hsource : s'.source = .stopping ∨ s'.source = .closingFinished ∨ s'.SourceStopped) :
    s'.Ordered := by
  refine ⟨by rw [htried, hproduced]; exact h.order, fun _ c hc => ?_, fun _ hp => ?_,
    fun _ hi => ?_, hpending⟩
  · simp [SourceStopped, hc] at hsource
  · simp [SourceStopped, hp] at hsource
  · rcases hi with hi | hi <;> simp [SourceStopped, hi] at hsource

theorem turn_ordered (h : s.Ordered) (hmain : s.main = .loop) : s.turn.Ordered := by
  obtain ⟨_, pending, _, _, _, started, hturn, -, hstarted⟩ := s.turn_cases
  rw [hturn]
  refine h.congr ?_ rfl rfl (fun hnone => ?_) rfl fun _ => by simp [hmain]
  · simp [tried, hstarted]
  · simp_all

/-- The address that is received is the next one. -/
theorem takeCandidate_ordered (h : s.Ordered) {c : RaceCandidate A E} (hmain : s.main = .selecting)
    (hsource : s.source = .offering c) : (s.takeCandidate c).Ordered := by
  obtain ⟨hproduced, hwaiting⟩ := h.offered (by simp [hmain]) c hsource
  have hpending := h.waiting hwaiting
  obtain ⟨address, error⟩ := c
  cases error with
  | some error =>
    refine ⟨h.order, fun hloop => ?_, fun hloop => ?_, fun hloop => ?_, fun hw => ?_⟩
    · cases hloop
    · cases hloop
    · cases hloop
    · cases hw
  | none =>
    have htried : (s.takeCandidate (address, none)).tried = s.tried ++ [(address, none)] := by
      simp [takeCandidate, tried, hpending]
    have hsame : (s.takeCandidate (address, none)).produced =
        (s.takeCandidate (address, none)).tried := hproduced.trans htried.symm
    refine ⟨hsame ▸ List.prefix_refl _, fun _ c hc => ?_, fun _ hp => ?_, fun _ _ => hsame,
      fun hw => ?_⟩
    · cases hc
    · cases hp
    · cases hw

theorem pull_ordered (h : s.Ordered) (hmain : s.main = .selecting) (hsource : s.source = .waiting)
    (hpulls : s.pulls = true) :
    ({ s with main := .loop, waiting := true, source := .pulling } : Race A R E).Ordered := by
  have hpending : s.pending = none := by
    simp only [pulls, Bool.and_eq_true, Option.isNone_iff_eq_none] at hpulls
    exact hpulls.1.1.2
  have hproduced := h.idle (by simp [hmain]) (.inr hsource)
  refine ⟨h.order, fun _ c hc => ?_, fun _ _ => ⟨hproduced, rfl⟩, fun _ hi => ?_, fun _ => hpending⟩
  · cases hc
  · rcases hi with hi | hi <;> cases hi

theorem next_ordered (h : s.Ordered) (hsource : s.source = .pulling) (c : RaceCandidate A E) :
    ({ s with source := .offering c, produced := s.produced ++ [c] } : Race A R E).Ordered := by
  refine ⟨h.order.trans (List.prefix_append ..), fun hloop c' hc => ?_, fun _ hp => ?_,
    fun _ hi => ?_, h.waiting⟩
  · obtain ⟨hproduced, hwaiting⟩ := h.pulled hloop hsource
    cases hc
    exact ⟨congrArg (· ++ [c]) hproduced, hwaiting⟩
  · cases hp
  · rcases hi with hi | hi <;> cases hi

theorem act_ordered {action : RaceAction A R E} (h : s.Ordered)
    (hact : s.act withDiscard action = some s') : s'.Ordered := by
  have hdoes := act_does hact
  cases action with
  | turn => exact hdoes.2 ▸ turn_ordered h hdoes.1
  | pull =>
    obtain ⟨hmain, hsource, hpulls, rfl⟩ := hdoes
    exact pull_ordered h hmain hsource hpulls
  | receive =>
    obtain ⟨hmain, c, hsource, rfl⟩ := hdoes
    exact takeCandidate_ordered h hmain hsource
  | inputClosed =>
    obtain ⟨hmain, hsource, rfl⟩ := hdoes
    exact h.of_stopped rfl rfl (fun hw => by cases hw) (.inr (.inr (.inr hsource)))
  | result i =>
    obtain ⟨hmain, address, outcome, ha, rfl⟩ := hdoes
    cases outcome <;> exact h.congr (tried_set ha) rfl rfl id rfl fun _ => by simp [hmain]
  | tick =>
    obtain ⟨hmain, rfl⟩ := hdoes
    exact h.congr rfl rfl rfl id rfl fun _ => by simp [hmain]
  | contextDone =>
    obtain ⟨hmain, -, rfl⟩ := hdoes
    exact h.congr rfl rfl rfl id rfl fun _ => by simp [hmain]
  | leave =>
    obtain ⟨stage, outcome, point, _, _, hmain, hpoint, rfl⟩ := leave_cases hdoes
    exact h.congr rfl rfl rfl id rfl fun hloop => by simp [hpoint] at hloop
  | attemptReturns i outcome =>
    obtain ⟨address, ha, rfl⟩ := hdoes
    exact h.congr (tried_set ha) rfl rfl id rfl id
  | drop i =>
    obtain ⟨-, address, outcome, ha, rfl⟩ := hdoes
    cases outcome <;> cases withDiscard <;> exact h.congr (tried_set ha) rfl rfl id rfl id
  | discard i | endAttempt i =>
    obtain ⟨address, _, ha, rfl⟩ := hdoes
    exact h.congr (tried_set ha) rfl rfl id rfl id
  | next candidate =>
    cases candidate with
    | none => exact hdoes.2 ▸ h.of_stopped rfl rfl h.waiting (.inl rfl)
    | some c => exact hdoes.2 ▸ next_ordered h hdoes.1 c
  | cancelParent => exact hdoes ▸ h.congr rfl rfl rfl id rfl id
  | openSource =>
    obtain ⟨hsource, rfl⟩ := hdoes
    exact ⟨h.order, fun _ c hc => (by cases hc), fun _ hp => (by cases hp),
      fun hloop _ => h.idle hloop (.inl hsource), h.waiting⟩
  | sourceDone => exact hdoes.2.2 ▸ h.of_stopped rfl rfl h.waiting (.inl rfl)
  | stopSource => exact hdoes.2 ▸ h.of_stopped rfl rfl h.waiting (.inr (.inl rfl))
  | closeFinished => exact hdoes.2 ▸ h.of_stopped rfl rfl h.waiting (.inr (.inr (.inl rfl)))
  | closeInput => exact hdoes.2 ▸ h.of_stopped rfl rfl h.waiting (.inr (.inr (.inr rfl)))

/-! ### A race that is left returns -/

/-- A bound for the actions until `Race` returns, once it has left its loop. -/
def remaining (s : Race A R E) : Nat :=
  s.main.weight + s.source.weight + (s.attempts.map fun a => a.point.weight).sum

theorem leave_remaining (h : s.leave = some s') : s'.remaining < s.remaining := by
  cases hmain : s.main with
  | leaving stage outcome =>
    cases stage with
    | awaitingSource =>
      cases hsource : s.source <;> simp [leave, hmain, hsource] at h <;>
        simp [← h, remaining, RacePoint.weight, hmain, hsource]
    | awaitingWorkers =>
      simp only [leave, hmain] at h
      split at h
      · cases h
        simp [remaining, RacePoint.weight, hmain]
      · cases h
    | _ =>
      simp only [leave, hmain, Option.some.injEq] at h
      simp [← h, remaining, RacePoint.weight, hmain]
  | _ => simp [leave, hmain] at h

/-- An attempt comes nearer to its end. -/
theorem attempt_remaining {address : A} {before after : AttemptPoint R E}
    (ha : s.attempts[i]? = some ⟨address, before⟩) (hless : after.weight < before.weight) :
    ({ s with attempts := s.attempts.set i ⟨address, after⟩ } : Race A R E).remaining <
      s.remaining := by
  have hsum := List.sum_map_set (fun a => a.point.weight) ⟨address, after⟩ ha
  simp only [remaining]
  dsimp only at hsum
  omega

/-- **Every action after the loop was left** brings the return nearer. -/
theorem leaving_remaining {action : RaceAction A R E} {outcome : RaceOutcome R E}
    (hleft : s.main.outcome? = some outcome) (haction : action ≠ .cancelParent)
    (hact : s.act withDiscard action = some s') : s'.remaining < s.remaining := by
  have hdoes := act_does hact
  cases action with
  | cancelParent => exact absurd rfl haction
  | turn | pull | receive | inputClosed | result i | tick | contextDone =>
    simp [hdoes.1] at hleft
  | leave => exact leave_remaining hdoes
  | attemptReturns i outcome =>
    obtain ⟨address, ha, rfl⟩ := hdoes
    exact attempt_remaining ha (by simp [AttemptPoint.weight])
  | drop i =>
    obtain ⟨-, address, outcome, ha, rfl⟩ := hdoes
    cases outcome <;> cases withDiscard <;>
      exact attempt_remaining ha (by simp [AttemptPoint.weight])
  | discard i | endAttempt i =>
    obtain ⟨address, _, ha, rfl⟩ := hdoes
    exact attempt_remaining ha (by simp [AttemptPoint.weight])
  | next candidate =>
    cases candidate <;>
      (obtain ⟨hsource, rfl⟩ := hdoes
       simp [remaining, hsource, SourcePoint.weight])
  | sourceDone =>
    obtain ⟨hsource | ⟨c, hsource⟩, -, rfl⟩ := hdoes <;>
      simp [remaining, hsource, SourcePoint.weight]
  | openSource | stopSource | closeFinished | closeInput =>
    obtain ⟨hsource, rfl⟩ := hdoes
    simp [remaining, hsource, SourcePoint.weight]

/-- An attempt that is not finished can go on when nobody receives its result any more. -/
theorem attempt_enabled [Nonempty E] (hclosed : s.returnedClosed = true)
    {a : RaceAttempt A R E} (ha : s.attempts[i]? = some a) (hnot : ∀ fate, a.point ≠ .finished fate) :
    ∃ action, action ≠ .cancelParent ∧ (s.act withDiscard action).isSome = true := by
  obtain ⟨address, point⟩ := a
  cases point with
  | running =>
    obtain ⟨error⟩ := (inferInstance : Nonempty E)
    exact ⟨.attemptReturns i (.error error), by simp, by simp [act, ha]⟩
  | sending outcome => exact ⟨.drop i, by simp, by simp [act, ha, hclosed]⟩
  | delivered outcome => exact ⟨.endAttempt i, by simp, by simp [act, ha]⟩
  | discarding value => exact ⟨.discard i, by simp, by simp [act, ha]⟩
  | finished fate => exact absurd rfl (hnot fate)

/-- **While a race is left** some goroutine can go on: the source and the attempts return, since
their context is cancelled. -/
theorem leaving_enabled [Nonempty E] (h : s.Settled) {stage : RaceStage}
    {outcome : RaceOutcome R E} (hmain : s.main = .leaving stage outcome) :
    ∃ action, action ≠ .cancelParent ∧ (s.act withDiscard action).isSome = true := by
  unfold Settled at h
  rw [hmain] at h
  cases stage with
  | stoppingTimer | closingReturned | cancelling =>
    exact ⟨.leave, by simp, by simp [act, leave, hmain]⟩
  | awaitingSource =>
    obtain ⟨-, hcancelled⟩ := h
    cases hsource : s.source with
    | opening => exact ⟨.openSource, by simp, by simp [act, hsource]⟩
    | waiting | offering c => exact ⟨.sourceDone, by simp, by simp [act, hsource, hcancelled]⟩
    | pulling => exact ⟨.next none, by simp, by simp [act, hsource]⟩
    | stopping => exact ⟨.stopSource, by simp, by simp [act, hsource]⟩
    | closingFinished => exact ⟨.closeFinished, by simp, by simp [act, hsource]⟩
    | closingInput | ended => exact ⟨.leave, by simp, by simp [act, leave, hmain, hsource]⟩
  | awaitingWorkers =>
    by_cases hfinished : s.AttemptsFinished
    · exact ⟨.leave, by simp, by simp [act, leave, hmain, attemptsFinished_iff.mpr hfinished]⟩
    · unfold AttemptsFinished at hfinished
      push Not at hfinished
      obtain ⟨a, ha, hnot⟩ := hfinished
      obtain ⟨i, hi⟩ := List.mem_iff_getElem?.mp ha
      exact attempt_enabled h.1 hi hnot

/-! ### Every race -/

structure Sound (withDiscard : Bool) (s : Race A R E) : Prop where
  winner : s.Winner
  discarded : Discarded withDiscard s
  errors : s.Errors
  settled : s.Settled
  ordered : s.Ordered

theorem reachable_sound (h : Reachable withDiscard s) : Sound withDiscard s := by
  induction h with
  | refl =>
    refine ⟨fun i v => ?_, ⟨fun i => ?_, ?_⟩, ?_, trivial, ?_, ?_, ?_, ?_, ?_⟩
    · simp [delivered?]
    · simp [discardsOf]
    · simp
    · simp [Errors]
    · simp [tried]
    · simp
    · simp
    · simp [tried]
    · simp
  | tail _ hstep ih =>
    obtain ⟨action, hact⟩ := hstep
    have heffect := act_effect hact
    exact ⟨heffect.winner ih.winner, heffect.discarded ih.discarded, heffect.errors ih.errors,
      act_settled ih.settled hact, act_ordered ih.ordered hact⟩

/-- What a race has done at any time, and when it has returned. -/
structure LeaksNothing (withDiscard : Bool) (s : Race A R E) : Prop where
  order : s.attempts.map (fun a => (a.address, none)) <+: s.produced
  value : ∀ i v, s.main.outcome? = some (.value i v) →
    s.delivered? i = some (.ok v) ∧ s.discards.count i = 0
  error : ∀ address error, (address, some error) ∈ s.received →
    s.main.outcome? = some (.sourceError error)
  finished : ∀ outcome, s.main = .returned outcome → s.SourceStopped ∧ s.AttemptsFinished
  others : ∀ outcome, s.main = .returned outcome → ∀ i a fate v, s.attempts[i]? = some a →
    a.point = .finished fate → fate.outcome = .ok v →
      outcome = .value i v ∧ s.discards.count i = 0 ∨
      (∀ w, outcome ≠ .value i w) ∧ s.discards.count i = if withDiscard then 1 else 0
  returns : ∀ stage outcome, s.main = .leaving stage outcome →
    (∃ action, action ≠ .cancelParent ∧ (s.act withDiscard action).isSome = true) ∧
    ∀ action s', action ≠ .cancelParent → s.act withDiscard action = some s' →
      s'.remaining < s.remaining

/-- **Every race**, for every source, every outcome of the attempts and every interleaving. -/
theorem leaks_nothing [Nonempty E] (h : Reachable withDiscard s) : LeaksNothing withDiscard s := by
  have hsound := reachable_sound h
  have hcount : ∀ {i : Nat} {a : RaceAttempt A R E}, s.attempts[i]? = some a →
      s.discards.count i = if withDiscard then a.point.discards else 0 := by
    intro i a ha
    rw [hsound.discarded.count i, discardsOf, ha]
    rfl
  refine ⟨(List.prefix_append ..).trans hsound.ordered.order, fun i v hvalue => ?_, hsound.errors,
    fun outcome hmain => ?_, fun outcome hmain i a fate v ha hfate hok => ?_,
    fun stage outcome hmain => ⟨leaving_enabled hsound.settled hmain, fun action s' hne hact =>
      leaving_remaining (by rw [hmain]; rfl) hne hact⟩⟩
  · have hdelivered := (hsound.winner i v).mp hvalue
    obtain ⟨a, ha, hpoint⟩ := Option.bind_eq_some_iff.mp hdelivered
    refine ⟨hdelivered, (hcount ha).trans ?_⟩
    cases hp : a.point with
    | finished fate => cases fate <;> simp_all [AttemptPoint.delivered?, AttemptPoint.discards]
    | _ => simp [AttemptPoint.discards]
  · have hsettled := hsound.settled
    unfold Settled at hsettled
    rwa [hmain] at hsettled
  · have hdelivered : s.delivered? i = a.point.delivered? := by rw [delivered?, ha]; rfl
    rw [hcount ha]
    cases fate with
    | delivered result =>
      have hvalue := (hsound.winner i v).mpr (by
        rw [hdelivered, hfate]
        exact congrArg some hok)
      rw [hmain] at hvalue
      refine .inl ⟨Option.some.inj hvalue, ?_⟩
      simp [hfate, AttemptPoint.discards]
    | dropped result =>
      refine .inr ⟨fun w hw => ?_, ?_⟩
      · have := (hsound.winner i w).mp (by rw [hmain, hw]; rfl)
        rw [hdelivered, hfate] at this
        cases this
      · obtain rfl : result = .ok v := hok
        simp [hfate, AttemptPoint.discards]

/-- A race of two attempts that both succeed: the second wins, and the first is discarded. -/
def sampleActions : List (RaceAction Nat Nat Nat) :=
  [.openSource, .turn, .tick, .turn, .pull, .next (some (7, none)), .turn, .receive, .turn, .tick,
    .turn, .pull, .next (some (8, none)), .turn, .receive, .turn, .attemptReturns 0 (.ok 70),
    .attemptReturns 1 (.ok 80), .result 1, .leave, .leave, .drop 0, .discard 0, .leave, .sourceDone,
    .stopSource, .closeFinished, .leave, .endAttempt 1, .leave]

theorem sampleActions_possible : (play true {} sampleActions).isSome = true := by
  decide +kernel

def sampleRace : Race Nat Nat Nat := (play true {} sampleActions).get sampleActions_possible

theorem sampleRace_reachable : Reachable true sampleRace :=
  play_reaches (Option.some_get sampleActions_possible).symm

theorem leaks_nothing_sample : LeaksNothing true sampleRace ∧
    sampleRace.main = .returned (.value 1 80) ∧ sampleRace.discards = [0] :=
  ⟨leaks_nothing sampleRace_reachable, by decide +kernel, by decide +kernel⟩

/-- **`Race` may return first**: the deferred calls of the source close `finished`, which `Race`
waits for, before `input`. -/
theorem returns_before_source : ∃ s : Race Nat Nat Nat, Reachable true s ∧
    s.main = .returned (.value 1 80) ∧ s.source ≠ .ended :=
  ⟨sampleRace, sampleRace_reachable, by decide +kernel, by decide +kernel⟩

end Race

end Dae
