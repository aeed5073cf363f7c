import Dae.Lib.Result
import Dae.Outbound.Race

/-!
# What becomes of the attempts of a race

Every interleaving of `Race`, its source and its attempts keeps what follows.

* `Race.Winner` — a value that `Race` returns is the success it received, from one attempt;
* `Race.Discarded` — the values of the other attempts that succeeded are discarded once;
* `Race.Errors` — an error of the source is what `Race` returns;
* `Race.Settled` — `Race` returns after its attempts have finished and its source has stopped.

The actions are taken apart once, in `Race.act_does`; as far as they matter for the attempts they
are those of `Race.Effect`.
-/

namespace Dae

/-- The result that `Race` received from an attempt. -/
def AttemptPoint.delivered? {R E : Type} : AttemptPoint R E → Option (Except E R)
  | .delivered outcome => some outcome
  | .finished (.delivered outcome) => some outcome
  | _ => none

/-- The value of an attempt was passed to `discard` if there is one. -/
def AttemptPoint.discards {R E : Type} : AttemptPoint R E → Nat
  | .finished (.dropped (.ok _)) => 1
  | _ => 0

namespace Race

variable {A R E : Type} {withDiscard : Bool} {s s' : Race A R E}

/-- When an action is possible, and what it does. -/
def Does (withDiscard : Bool) (s s' : Race A R E) : RaceAction A R E → Prop
  | .cancelParent => s' = { s with cancelled := true }
  | .turn => s.main = .loop ∧ s' = s.turn
  | .pull => s.main = .selecting ∧ s.source = .waiting ∧ s.pulls = true ∧
      s' = { s with main := .loop, waiting := true, source := .pulling }
  | .receive => s.main = .selecting ∧ ∃ c, s.source = .offering c ∧ s' = s.takeCandidate c
  | .inputClosed => s.main = .selecting ∧ s.source = .ended ∧
      s' = { s with main := .loop, waiting := false, inputOpen := false }
  | .result i => s.main = .selecting ∧ ∃ address outcome,
      s.attempts[i]? = some ⟨address, .sending outcome⟩ ∧ s' = s.takeResult i address outcome
  | .tick => s.main = .selecting ∧ s' = { s with main := .loop, ready := true, armed := false }
  | .contextDone => s.main = .selecting ∧ s.cancelled = true ∧ s' = s.leaveWith .cancelled
  | .leave => s.leave = some s'
  | .openSource => s.source = .opening ∧ s' = { s with source := .waiting }
  | .sourceDone => (s.source = .waiting ∨ ∃ c, s.source = .offering c) ∧ s.cancelled = true ∧
      s' = { s with source := .stopping }
  | .next none => s.source = .pulling ∧ s' = { s with source := .stopping }
  | .next (some c) => s.source = .pulling ∧
      s' = { s with source := .offering c, produced := s.produced ++ [c] }
  | .stopSource => s.source = .stopping ∧ s' = { s with source := .closingFinished }
  | .closeFinished => s.source = .closingFinished ∧ s' = { s with source := .closingInput }
  | .closeInput => s.source = .closingInput ∧ s' = { s with source := .ended }
  | .attemptReturns i outcome => ∃ address, s.attempts[i]? = some ⟨address, .running⟩ ∧
      s' = { s with attempts := s.attempts.set i ⟨address, .sending outcome⟩ }
  | .drop i => s.returnedClosed = true ∧ ∃ address outcome,
      s.attempts[i]? = some ⟨address, .sending outcome⟩ ∧ s' = s.drop withDiscard i address outcome
  | .discard i => ∃ address value, s.attempts[i]? = some ⟨address, .discarding value⟩ ∧
      s' = { s with
        attempts := s.attempts.set i ⟨address, .finished (.dropped (.ok value))⟩
        discards := s.discards ++ [i] }
  | .endAttempt i => ∃ address outcome, s.attempts[i]? = some ⟨address, .delivered outcome⟩ ∧
      s' = { s with attempts := s.attempts.set i ⟨address, .finished (.delivered outcome)⟩ }

variable {action : RaceAction A R E}

theorem act_does (h : s.act withDiscard action = some s') :
    s.Does withDiscard s' action := by
  cases action with
  | next candidate =>
    cases hsource : s.source <;> cases candidate <;> grind [act, Does]
  | _ => grind [act, Does]

/-- A turn starts the pending address or none, and there is no winner after it. -/
theorem turn_cases (s : Race A R E) : ∃ main pending ready active armed started,
    s.turn = { s with
      main, pending, ready, active, armed
      attempts := s.attempts ++ started.map fun address => ⟨address, .running⟩ } ∧
    (∀ i v, main.outcome? ≠ some (.value i v)) ∧ s.pending.toList = started ++ pending.toList := by
  have hsame : s.attempts = s.attempts ++ [] := (List.append_nil _).symm
  unfold turn startPending leaveWith
  dsimp only
  split
  · exact ⟨_, _, _, _, _, [], by rw [List.map_nil, ← hsame], by simp, rfl⟩
  · split
    next address hpending =>
      split
      · split <;> exact ⟨_, none, _, _, _, [address], rfl, by simp, by simp [hpending]⟩
      · split <;> exact ⟨_, _, _, _, _, [], by rw [List.map_nil, ← hsame], by simp, rfl⟩
    next => split <;> exact ⟨_, _, _, _, _, [], by rw [List.map_nil, ← hsame], by simp, rfl⟩

/-- Leaving changes where `Race` is, closes `returned` and cancels the context. -/
theorem leave_cases (h : s.leave = some s') : ∃ stage outcome point returnedClosed cancelled,
    s.main = .leaving stage outcome ∧ point.outcome? = some outcome ∧
      s' = { s with main := point, returnedClosed, cancelled } := by
  cases hmain : s.main with
  | leaving stage outcome => cases stage <;> grind [leave, RacePoint.outcome?]
  | _ => grind [leave]

/-- What an attempt does by itself, and whether its value is then discarded. -/
inductive AttemptStep (withDiscard returnedClosed : Bool) :
    AttemptPoint R E → AttemptPoint R E → Bool → Prop where
  | returns (outcome : Except E R) :
    AttemptStep withDiscard returnedClosed .running (.sending outcome) false
  | drops (error : E) : returnedClosed = true →
    AttemptStep withDiscard returnedClosed (.sending (.error error))
      (.finished (.dropped (.error error))) false
  | keeps (value : R) : returnedClosed = true → withDiscard = false →
    AttemptStep withDiscard returnedClosed (.sending (.ok value))
      (.finished (.dropped (.ok value))) false
  | loses (value : R) : returnedClosed = true → withDiscard = true →
    AttemptStep withDiscard returnedClosed (.sending (.ok value)) (.discarding value) false
  | discards (value : R) :
    AttemptStep withDiscard returnedClosed (.discarding value) (.finished (.dropped (.ok value))) true
  | ends (outcome : Except E R) :
    AttemptStep withDiscard returnedClosed (.delivered outcome) (.finished (.delivered outcome)) false

/-- The actions, as far as they matter for the attempts and for what `Race` returns. -/
inductive Effect (withDiscard : Bool) (s : Race A R E) : Race A R E → Prop where
  | source {source cancelled produced} :
    Effect withDiscard s { s with source, cancelled, produced }
  | turn : s.main = .loop → Effect withDiscard s s.turn
  | loop {waiting inputOpen ready armed source} : s.main = .selecting →
    Effect withDiscard s { s with main := .loop, waiting, inputOpen, ready, armed, source }
  | candidate (c : RaceCandidate A E) : s.main = .selecting → s.source = .offering c →
    Effect withDiscard s (s.takeCandidate c)
  | result {i address outcome} : s.main = .selecting →
    s.attempts[i]? = some ⟨address, .sending outcome⟩ →
    Effect withDiscard s (s.takeResult i address outcome)
  | contextDone : s.main = .selecting → Effect withDiscard s (s.leaveWith .cancelled)
  | leave {stage outcome point returnedClosed cancelled} : s.main = .leaving stage outcome →
    point.outcome? = some outcome →
    Effect withDiscard s { s with main := point, returnedClosed, cancelled }
  | attempt {i address before after discarded} : s.attempts[i]? = some ⟨address, before⟩ →
    AttemptStep withDiscard s.returnedClosed before after discarded →
    Effect withDiscard s { s with
      attempts := s.attempts.set i ⟨address, after⟩
      discards := s.discards ++ if discarded then [i] else [] }

theorem act_effect (h : s.act withDiscard action = some s') :
    Effect withDiscard s s' := by
  have hdoes := act_does h
  cases action with
  | turn => exact hdoes.2 ▸ .turn hdoes.1
  | pull =>
    obtain ⟨hmain, -, -, rfl⟩ := hdoes
    exact .loop hmain
  | receive =>
    obtain ⟨hmain, c, hsource, rfl⟩ := hdoes
    exact .candidate c hmain hsource
  | inputClosed =>
    obtain ⟨hmain, -, rfl⟩ := hdoes
    exact .loop hmain
  | result i =>
    obtain ⟨hmain, address, outcome, ha, rfl⟩ := hdoes
    exact .result hmain ha
  | tick =>
    obtain ⟨hmain, rfl⟩ := hdoes
    exact .loop hmain
  | contextDone =>
    obtain ⟨hmain, -, rfl⟩ := hdoes
    exact .contextDone hmain
  | leave =>
    obtain ⟨stage, outcome, point, _, _, hmain, hpoint, rfl⟩ := leave_cases hdoes
    exact .leave hmain hpoint
  | attemptReturns i outcome =>
    obtain ⟨address, ha, rfl⟩ := hdoes
    simpa using Effect.attempt ha (.returns outcome)
  | drop i =>
    obtain ⟨hclosed, address, outcome, ha, rfl⟩ := hdoes
    cases outcome with
    | error error => simpa [drop] using Effect.attempt ha (.drops error hclosed)
    | ok value =>
      cases withDiscard with
      | false => simpa [drop] using Effect.attempt ha (.keeps value hclosed rfl)
      | true => simpa [drop] using Effect.attempt ha (.loses value hclosed rfl)
  | discard i =>
    obtain ⟨address, value, ha, rfl⟩ := hdoes
    simpa using Effect.attempt ha (.discards value)
  | endAttempt i =>
    obtain ⟨address, outcome, ha, rfl⟩ := hdoes
    simpa using Effect.attempt ha (.ends outcome)
  | next candidate =>
    cases candidate <;> exact hdoes.2 ▸ .source
  | cancelParent => exact hdoes ▸ .source
  | sourceDone => exact hdoes.2.2 ▸ .source
  | openSource | stopSource | closeFinished | closeInput => exact hdoes.2 ▸ .source

/-! ### The winner -/

def delivered? (s : Race A R E) (i : Nat) : Option (Except E R) :=
  s.attempts[i]?.bind fun a => a.point.delivered?

/-- `Race` has received a success from the winner and from no other attempt. -/
def Winner (s : Race A R E) : Prop :=
  ∀ i v, s.main.outcome? = some (.value i v) ↔ s.delivered? i = some (.ok v)

/-- The outcome is the same, or `Race` leaves its loop without a value. -/
def SameWinner (s s' : Race A R E) : Prop :=
  ∀ i v, s'.main.outcome? = some (.value i v) ↔ s.main.outcome? = some (.value i v)

theorem Winner.congr (h : s.Winner) (hdelivered : ∀ i, s'.delivered? i = s.delivered? i)
    (hsame : s.SameWinner s') : s'.Winner := by
  intro i v
  rw [hsame, hdelivered]
  exact h i v

variable {i : Nat} {a : RaceAttempt A R E}

/-- A step of an attempt that `Race` takes no part in. -/
theorem delivered?_set {a' : RaceAttempt A R E} (ha : s.attempts[i]? = some a)
    (hpoint : a'.point.delivered? = a.point.delivered?) (j : Nat) :
    ({ s with attempts := s.attempts.set i a' } : Race A R E).delivered? j = s.delivered? j := by
  grind [delivered?]

/-- An attempt that was just started is like none, for what depends on its result. -/
theorem lookup_started {β : Type} (attempts : List (RaceAttempt A R E)) (started : List A)
    (f : Option (RaceAttempt A R E) → β)
    (hf : ∀ address, f (some ⟨address, .running⟩) = f none) (i : Nat) :
    f (attempts ++ started.map fun address => ⟨address, .running⟩)[i]? = f attempts[i]? := by
  grind

theorem turn_winner (h : s.Winner) (hmain : s.main = .loop) : s.turn.Winner := by
  obtain ⟨main, _, _, _, _, started, hturn, hnone, -⟩ := s.turn_cases
  rw [hturn]
  exact h.congr (lookup_started _ started (·.bind fun a => a.point.delivered?) fun _ => rfl)
    (by simp [SameWinner, hmain, hnone])

variable {address : A}

/-- The result of an attempt: a success makes it the winner, since there was none. -/
theorem takeResult_winner (h : s.Winner) (hmain : s.main = .selecting)
    {outcome : Except E R} (ha : s.attempts[i]? = some ⟨address, .sending outcome⟩) :
    (s.takeResult i address outcome).Winner := by
  have hnone : ∀ j v, s.delivered? j ≠ some (.ok v) := by
    intro j v hj
    have := (h j v).mpr hj
    simp [hmain] at this
  have hlt := (List.getElem?_eq_some_iff.mp ha).1
  have hset : ∀ j, (s.takeResult i address outcome).delivered? j =
      if j = i then some outcome else s.delivered? j := by
    intro j
    by_cases hj : j = i
    · subst hj
      cases outcome <;> simp [takeResult, leaveWith, delivered?, hlt, AttemptPoint.delivered?]
    · cases outcome <;>
        simp [takeResult, leaveWith, delivered?, List.getElem?_set_ne (Ne.symm hj), hj]
  intro j v
  rw [hset j]
  cases outcome with
  | ok value =>
    by_cases hj : j = i
    · simp [takeResult, leaveWith, hj]
    · simp [takeResult, leaveWith, hj, hnone j v, Ne.symm hj]
  | error error =>
    by_cases hj : j = i
    · simp [takeResult, hj]
    · simp [takeResult, hj, hnone j v]

theorem Effect.winner (heffect : Effect withDiscard s s') (h : s.Winner) : s'.Winner := by
  cases heffect with
  | source => exact h.congr (fun _ => rfl) fun _ _ => .rfl
  | turn hmain => exact turn_winner h hmain
  | loop hmain => exact h.congr (fun _ => rfl) (by simp [SameWinner, hmain])
  | candidate c hmain =>
    obtain ⟨address, error⟩ := c
    cases error <;>
      exact h.congr (fun _ => rfl) (by simp [SameWinner, takeCandidate, leaveWith, hmain])
  | result hmain ha => exact takeResult_winner h hmain ha
  | contextDone hmain => exact h.congr (fun _ => rfl) (by simp [SameWinner, leaveWith, hmain])
  | leave hmain hpoint => exact h.congr (fun _ => rfl) (by simp [SameWinner, hmain, hpoint])
  | attempt ha hstep =>
    exact h.congr (delivered?_set ha (by cases hstep <;> rfl)) fun _ _ => .rfl

/-! ### Discarded values -/

def discardsOf (s : Race A R E) (i : Nat) : Nat :=
  (s.attempts[i]?.map fun a => a.point.discards).getD 0

/-- The values of the attempts that were dropped have been passed to `discard`, each once. -/
structure Discarded (withDiscard : Bool) (s : Race A R E) : Prop where
  count : ∀ i, s.discards.count i = if withDiscard then s.discardsOf i else 0
  given : ∀ a ∈ s.attempts, ∀ v, a.point = .discarding v → withDiscard = true

theorem discardsOf_set (ha : s.attempts[i]? = some a)
    (a' : RaceAttempt A R E) (j : Nat) :
    ({ s with attempts := s.attempts.set i a' } : Race A R E).discardsOf j =
      if j = i then a'.point.discards else s.discardsOf j := by
  have hlt := (List.getElem?_eq_some_iff.mp ha).1
  by_cases hj : j = i
  · subst hj
    simp [discardsOf, hlt]
  · simp [discardsOf, List.getElem?_set_ne (Ne.symm hj), hj]

theorem Discarded.congr (h : Discarded withDiscard s) (hdiscards : s'.discards = s.discards)
    (hof : ∀ i, s'.discardsOf i = s.discardsOf i)
    (hgiven : ∀ a ∈ s'.attempts, ∀ v, a.point = .discarding v → withDiscard = true) :
    Discarded withDiscard s' :=
  ⟨fun i => by rw [hdiscards, hof, h.count i], hgiven⟩

theorem turn_discarded (h : Discarded withDiscard s) : Discarded withDiscard s.turn := by
  obtain ⟨_, _, _, _, _, started, hturn, -, -⟩ := s.turn_cases
  have hof := lookup_started s.attempts started
    (fun a => (a.map fun a => a.point.discards).getD 0) fun _ => rfl
  rw [hturn]
  refine h.congr rfl hof fun a ha v hv => ?_
  rcases List.mem_append.mp ha with hold | hnew
  · exact h.given a hold v hv
  · obtain ⟨address, -, rfl⟩ := List.mem_map.mp hnew
    cases hv

theorem attempt_discarded (h : Discarded withDiscard s)
    {before after : AttemptPoint R E} {discarded : Bool}
    (ha : s.attempts[i]? = some ⟨address, before⟩)
    (hstep : AttemptStep withDiscard s.returnedClosed before after discarded) :
    Discarded withDiscard { s with
      attempts := s.attempts.set i ⟨address, after⟩
      discards := s.discards ++ if discarded then [i] else [] } := by
  have hof := discardsOf_set ha ⟨address, after⟩
  have hbefore : s.discardsOf i = before.discards := by simp [discardsOf, ha]
  refine ⟨fun j => ?_, List.forall_mem_set h.given fun v hv => ?_⟩
  · change (s.discards ++ _).count j = if withDiscard then Race.discardsOf { s with
      attempts := s.attempts.set i ⟨address, after⟩ } j else 0
    rw [hof j, List.count_append, h.count j]
    by_cases hj : j = i
    · subst hj
      rw [hbefore, if_pos rfl]
      cases hstep with
      | discards value =>
        have hgiven := h.given _ (List.mem_of_getElem? ha) value rfl
        simp [hgiven, AttemptPoint.discards]
      | keeps value _ hno => simp [hno]
      | _ => simp [AttemptPoint.discards]
    · have hcount : (if discarded then [i] else []).count j = 0 := by
        cases discarded <;> simp [Ne.symm hj]
      rw [hcount, if_neg hj, add_zero]
  · cases hstep with
    | loses value _ hyes => exact hyes
    | _ => cases hv

theorem Effect.discarded (heffect : Effect withDiscard s s') (h : Discarded withDiscard s) :
    Discarded withDiscard s' := by
  cases heffect with
  | source | loop hmain | contextDone hmain | leave hmain hpoint =>
    exact h.congr rfl (fun _ => rfl) h.given
  | turn hmain => exact turn_discarded h
  | candidate c hmain =>
    obtain ⟨address, error⟩ := c
    cases error <;> exact h.congr rfl (fun _ => rfl) h.given
  | @result i address outcome hmain ha =>
    have hof : ∀ j, (s.takeResult i address outcome).discardsOf j = s.discardsOf j := by
      intro j
      have hset := discardsOf_set ha ⟨address, .delivered outcome⟩ j
      have hbefore : s.discardsOf i = 0 := by simp [discardsOf, ha, AttemptPoint.discards]
      cases outcome <;> (refine hset.trans ?_; split <;> simp_all [AttemptPoint.discards])
    cases outcome <;> exact h.congr rfl hof (List.forall_mem_set h.given fun v hv => by cases hv)
  | attempt ha hstep => exact attempt_discarded h ha hstep

/-! ### Errors of the source -/

/-- An error that was received from the source is what `Race` returns. -/
def Errors (s : Race A R E) : Prop :=
  ∀ address error, (address, some error) ∈ s.received →
    s.main.outcome? = some (.sourceError error)

/-- While `Race` is in its loop it has received no error. -/
theorem Errors.of_loop (h : s.Errors) (hmain : s.main.outcome? = none)
    (hreceived : s'.received = s.received) : s'.Errors := by
  intro address error herror
  rw [hreceived] at herror
  have := h address error herror
  simp [hmain] at this

theorem Effect.errors (heffect : Effect withDiscard s s') (h : s.Errors) : s'.Errors := by
  cases heffect with
  | source => exact h
  | turn hmain =>
    obtain ⟨_, _, _, _, _, _, hturn, -, -⟩ := s.turn_cases
    exact h.of_loop (by simp [hmain]) (by rw [hturn])
  | loop hmain | contextDone hmain => exact h.of_loop (by simp [hmain]) rfl
  | candidate c hmain =>
    intro address error herror
    obtain ⟨address', error'⟩ := c
    have hmem : (address, some error) = (address', error') := by
      have hsplit : (address, some error) ∈ s.received ++ [(address', error')] := by
        cases error' <;> exact herror
      rcases List.mem_append.mp hsplit with hold | hnew
      · have := h address error hold
        simp [hmain] at this
      · exact List.mem_singleton.mp hnew
    cases hmem
    rfl
  | @result i address outcome hmain ha =>
    cases outcome <;> exact h.of_loop (by simp [hmain]) rfl
  | leave hmain hpoint =>
    intro address error herror
    rw [hpoint]
    simpa [hmain] using h address error herror
  | attempt ha hstep => exact h

/-! ### What has finished -/

/-- The source was stopped and its goroutine has closed `finished`. -/
def SourceStopped (s : Race A R E) : Prop := s.source = .closingInput ∨ s.source = .ended

def AttemptsFinished (s : Race A R E) : Prop :=
  ∀ a ∈ s.attempts, ∃ fate, a.point = .finished fate

/-- What `Race` has done and waited for when it is at `point`. -/
def SettledAt (s : Race A R E) : RacePoint R E → Prop
  | .leaving .cancelling _ => s.returnedClosed = true
  | .leaving .awaitingSource _ => s.returnedClosed = true ∧ s.cancelled = true
  | .leaving .awaitingWorkers _ => s.returnedClosed = true ∧ s.SourceStopped
  | .returned _ => s.SourceStopped ∧ s.AttemptsFinished
  | _ => True

def Settled (s : Race A R E) : Prop := s.SettledAt s.main

theorem attemptsFinished_iff : s.attemptsFinished = true ↔ s.AttemptsFinished := by
  rw [attemptsFinished, List.all_eq_true]
  refine forall₂_congr fun a _ => ?_
  cases a.point <;> simp

/-- Nothing that `Race` waits for is undone. -/
theorem Settled.congr (h : s.Settled) (hmain : s'.main = s.main)
    (hclosed : s'.returnedClosed = s.returnedClosed)
    (hcancelled : s.cancelled = true → s'.cancelled = true)
    (hstopped : s.SourceStopped → s'.SourceStopped)
    (hfinished : s.AttemptsFinished → s'.AttemptsFinished) : s'.Settled := by
  unfold Settled at h ⊢
  rw [hmain]
  cases hpoint : s.main with
  | leaving stage outcome =>
    rw [hpoint] at h
    cases stage with
    | cancelling => exact hclosed.trans h
    | awaitingSource => exact ⟨hclosed.trans h.1, hcancelled h.2⟩
    | awaitingWorkers => exact ⟨hclosed.trans h.1, hstopped h.2⟩
    | _ => trivial
  | returned outcome =>
    rw [hpoint] at h
    exact ⟨hstopped h.1, hfinished h.2⟩
  | _ => trivial

/-- An attempt that is not finished moves. -/
theorem attemptsFinished_set {before : AttemptPoint R E}
    (ha : s.attempts[i]? = some ⟨address, before⟩) (hbefore : ∀ fate, before ≠ .finished fate) :
    ¬s.AttemptsFinished := by
  intro hall
  obtain ⟨fate, hfate⟩ := hall _ (List.mem_of_getElem? ha)
  exact hbefore fate hfate

theorem turn_settled : s.turn.Settled := by
  unfold turn
  dsimp only
  split
  · trivial
  · split <;> trivial

theorem leave_settled (h : s.Settled) (hleave : s.leave = some s') : s'.Settled := by
  unfold Settled at h
  cases hmain : s.main with
  | leaving stage outcome =>
    rw [hmain] at h
    cases stage with
    | awaitingSource =>
      cases hsource : s.source <;> simp [leave, hmain, hsource] at hleave <;>
        exact hleave ▸ ⟨h.1, by simp [SourceStopped]⟩
    | awaitingWorkers =>
      simp only [leave, hmain] at hleave
      split at hleave
      next hfinished =>
        cases hleave
        exact ⟨h.2, attemptsFinished_iff.mp hfinished⟩
      next => cases hleave
    | cancelling =>
      simp only [leave, hmain, Option.some.injEq] at hleave
      exact hleave ▸ ⟨h, rfl⟩
    | closingReturned =>
      simp only [leave, hmain, Option.some.injEq] at hleave
      exact hleave ▸ rfl
    | stoppingTimer =>
      simp only [leave, hmain, Option.some.injEq] at hleave
      exact hleave ▸ trivial
  | _ => simp [leave, hmain] at hleave

theorem act_settled (h : s.Settled)
    (hact : s.act withDiscard action = some s') : s'.Settled := by
  have hdoes := act_does hact
  cases action with
  | turn => exact hdoes.2 ▸ turn_settled
  | pull => exact hdoes.2.2.2 ▸ trivial
  | receive =>
    obtain ⟨hmain, ⟨address, error⟩, -, rfl⟩ := hdoes
    cases error <;> trivial
  | inputClosed => exact hdoes.2.2 ▸ trivial
  | result i =>
    obtain ⟨hmain, address, outcome, ha, rfl⟩ := hdoes
    cases outcome <;> trivial
  | tick => exact hdoes.2 ▸ trivial
  | contextDone => exact hdoes.2.2 ▸ trivial
  | leave => exact leave_settled h hdoes
  | attemptReturns i outcome =>
    obtain ⟨address, ha, rfl⟩ := hdoes
    exact h.congr rfl rfl id id fun hall => absurd hall (attemptsFinished_set ha (by simp))
  | drop i =>
    obtain ⟨-, address, outcome, ha, rfl⟩ := hdoes
    have hnot := attemptsFinished_set ha (by simp)
    cases outcome <;> cases withDiscard <;>
      exact h.congr rfl rfl id id fun hall => absurd hall hnot
  | discard i | endAttempt i =>
    obtain ⟨address, _, ha, rfl⟩ := hdoes
    exact h.congr rfl rfl id id fun hall => absurd hall (attemptsFinished_set ha (by simp))
  | next candidate =>
    cases candidate <;>
      (obtain ⟨hsource, rfl⟩ := hdoes
       exact h.congr rfl rfl id (by simp [SourceStopped, hsource]) id)
  | cancelParent => exact hdoes ▸ h.congr rfl rfl (fun _ => rfl) id id
  | sourceDone =>
    obtain ⟨hsource | ⟨c, hsource⟩, -, rfl⟩ := hdoes <;>
      exact h.congr rfl rfl id (by simp [SourceStopped, hsource]) id
  | openSource | stopSource | closeFinished | closeInput =>
    obtain ⟨hsource, rfl⟩ := hdoes
    exact h.congr rfl rfl id (by simp [SourceStopped, hsource]) id

end Race

end Dae
