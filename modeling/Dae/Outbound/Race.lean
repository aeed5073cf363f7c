import Mathlib

/-!
# Racing connection attempts

`Race` of `pkg/outbound/happyeyeballs/race.go`: addresses come one by one from a source, attempts
are started in turn while others are still running, the first success wins, and what the losers
have opened is discarded.

Three kinds of goroutines run: `Race` itself, the one that pulls the source, and one for each
attempt.  An action is what one of them does between two points where it may have to wait; an
exchange over an unbuffered channel is one action of both sides.  The addresses, the outcomes of
the attempts and the times at which anything happens are arbitrary.

The state also records what the source has produced, what `Race` has received from it, and the
attempts whose value was passed to `discard`.
-/

namespace Dae

/-- What the source yields: an address, or an error that ends the race. -/
abbrev RaceCandidate (A E : Type) := A × Option E

/-- What became of the result of an attempt: `Race` received it, or it was dropped because `Race`
had left its loop. -/
inductive AttemptFate (R E : Type) where
  | delivered (outcome : Except E R)
  | dropped (outcome : Except E R)

/-- Where the goroutine of an attempt is: in `attempt`, in its `select`, after it, in `discard`, or
finished. -/
inductive AttemptPoint (R E : Type) where
  | running
  | sending (outcome : Except E R)
  | delivered (outcome : Except E R)
  | discarding (value : R)
  | finished (fate : AttemptFate R E)

structure RaceAttempt (A R E : Type) where
  address : A
  point : AttemptPoint R E

/-- Where the goroutine of the source is.  Its deferred calls stop the source, close `finished` and
close `input`, in this order. -/
inductive SourcePoint (A E : Type) where
  | opening
  | waiting
  | pulling
  | offering (candidate : RaceCandidate A E)
  | stopping
  | closingFinished
  | closingInput
  | ended
  deriving DecidableEq

/-- What `Race` returns. -/
inductive RaceOutcome (R E : Type) where
  | value (attempt : Nat) (value : R)
  | sourceError (error : E)
  | cancelled
  | unreachable (failures : List E)
  deriving DecidableEq

/-- The deferred calls of `Race`. -/
inductive RaceStage where
  | stoppingTimer
  | closingReturned
  | cancelling
  | awaitingSource
  | awaitingWorkers
  deriving DecidableEq

/-- Where `Race` is. -/
inductive RacePoint (R E : Type) where
  | loop
  | selecting
  | leaving (stage : RaceStage) (outcome : RaceOutcome R E)
  | returned (outcome : RaceOutcome R E)
  deriving DecidableEq

/-- `returnedClosed` is the closed channel `returned`, `inputOpen` that the variable `input` is not
nil, and `armed` that the timer will fire. -/
structure Race (A R E : Type) where
  main : RacePoint R E := .loop
  source : SourcePoint A E := .opening
  cancelled : Bool := false
  returnedClosed : Bool := false
  inputOpen : Bool := true
  pending : Option A := none
  active : Int := 0
  failures : List E := []
  armed : Bool := true
  ready : Bool := false
  waiting : Bool := false
  attempts : List (RaceAttempt A R E) := []
  produced : List (RaceCandidate A E) := []
  received : List (RaceCandidate A E) := []
  discards : List Nat := []

inductive RaceAction (A R E : Type) where
  | cancelParent
  | turn
  | pull
  | receive
  | inputClosed
  | result (i : Nat)
  | tick
  | contextDone
  | leave
  | openSource
  | sourceDone
  | next (candidate : Option (RaceCandidate A E))
  | stopSource
  | closeFinished
  | closeInput
  | attemptReturns (i : Nat) (outcome : Except E R)
  | drop (i : Nat)
  | discard (i : Nat)
  | endAttempt (i : Nat)

def RacePoint.outcome? {R E : Type} : RacePoint R E → Option (RaceOutcome R E)
  | .loop => none
  | .selecting => none
  | .leaving _ outcome => some outcome
  | .returned outcome => some outcome

variable {R E : Type}

@[simp] theorem RacePoint.outcome?_loop : (.loop : RacePoint R E).outcome? = none := rfl

@[simp] theorem RacePoint.outcome?_selecting :
    (.selecting : RacePoint R E).outcome? = none := rfl

@[simp] theorem RacePoint.outcome?_leaving (stage : RaceStage)
    (outcome : RaceOutcome R E) : (RacePoint.leaving stage outcome).outcome? = some outcome := rfl

@[simp] theorem RacePoint.outcome?_returned (outcome : RaceOutcome R E) :
    (RacePoint.returned outcome).outcome? = some outcome := rfl

namespace Race

variable {A R E : Type}

/-! ### `Race` -/

def leaveWith (s : Race A R E) (outcome : RaceOutcome R E) : Race A R E :=
  { s with main := .leaving .stoppingTimer outcome }

/-- A pending address is tried when the timer has fired. -/
def startPending (s : Race A R E) : Race A R E :=
  match s.pending with
  | some address =>
    if s.ready then
      { s with
        pending := none
        ready := false
        active := s.active + 1
        armed := true
        attempts := s.attempts ++ [⟨address, .running⟩] }
    else
      s
  | none => s

/-- A turn of the loop up to its `select`. -/
def turn (s : Race A R E) : Race A R E :=
  if s.cancelled then
    s.leaveWith .cancelled
  else
    let s := s.startPending
    if !s.inputOpen && s.pending.isNone && s.active == 0 then
      s.leaveWith (.unreachable s.failures)
    else
      { s with main := .selecting }

/-- The `select` offers a request to the source. -/
def pulls (s : Race A R E) : Bool := s.ready && s.pending.isNone && !s.waiting && s.inputOpen

/-- A candidate is received. -/
def takeCandidate (s : Race A R E) (candidate : RaceCandidate A E) : Race A R E :=
  let s := { s with
    waiting := false
    source := .waiting
    received := s.received ++ [candidate] }
  match candidate.2 with
  | some error => s.leaveWith (.sourceError error)
  | none => { s with pending := some candidate.1, main := .loop }

/-- The result of an attempt is received. -/
def takeResult (s : Race A R E) (i : Nat) (address : A) (outcome : Except E R) : Race A R E :=
  let s := { s with
    active := s.active - 1
    attempts := s.attempts.set i ⟨address, .delivered outcome⟩ }
  match outcome with
  | .ok value => s.leaveWith (.value i value)
  | .error error =>
    { s with
      failures := s.failures ++ [error]
      armed := s.armed || (s.active == 0 && !s.ready)
      main := .loop }

def attemptsFinished (s : Race A R E) : Bool :=
  s.attempts.all fun a => match a.point with
    | .finished _ => true
    | _ => false

/-- The next deferred call of `Race`, if it does not have to wait. -/
def leave (s : Race A R E) : Option (Race A R E) :=
  match s.main with
  | .leaving .stoppingTimer outcome => some { s with main := .leaving .closingReturned outcome }
  | .leaving .closingReturned outcome =>
    some { s with main := .leaving .cancelling outcome, returnedClosed := true }
  | .leaving .cancelling outcome =>
    some { s with main := .leaving .awaitingSource outcome, cancelled := true }
  | .leaving .awaitingSource outcome =>
    match s.source with
    | .closingInput => some { s with main := .leaving .awaitingWorkers outcome }
    | .ended => some { s with main := .leaving .awaitingWorkers outcome }
    | _ => none
  | .leaving .awaitingWorkers outcome =>
    if s.attemptsFinished then some { s with main := .returned outcome } else none
  | _ => none

/-! ### The attempts -/

/-- An attempt whose result nobody receives any more. -/
def drop (withDiscard : Bool) (s : Race A R E) (i : Nat) (address : A) (outcome : Except E R) :
    Race A R E :=
  match outcome, withDiscard with
  | .ok value, true => { s with attempts := s.attempts.set i ⟨address, .discarding value⟩ }
  | _, _ => { s with attempts := s.attempts.set i ⟨address, .finished (.dropped outcome)⟩ }

/-! ### All actions -/

/-- What an action does, if it is possible; `withDiscard` says whether `discard` is given. -/
def act (withDiscard : Bool) (s : Race A R E) : RaceAction A R E → Option (Race A R E)
  | .cancelParent => some { s with cancelled := true }
  | .turn => match s.main with
    | .loop => some s.turn
    | _ => none
  | .pull => match s.main, s.source with
    | .selecting, .waiting =>
      if s.pulls then some { s with main := .loop, waiting := true, source := .pulling } else none
    | _, _ => none
  | .receive => match s.main, s.source with
    | .selecting, .offering candidate =>
      if s.inputOpen then some (s.takeCandidate candidate) else none
    | _, _ => none
  | .inputClosed => match s.main, s.source with
    | .selecting, .ended =>
      if s.inputOpen then
        some { s with main := .loop, waiting := false, inputOpen := false }
      else
        none
    | _, _ => none
  | .result i => match s.main, s.attempts[i]? with
    | .selecting, some ⟨address, .sending outcome⟩ => some (s.takeResult i address outcome)
    | _, _ => none
  | .tick => match s.main with
    | .selecting =>
      if s.armed then some { s with main := .loop, ready := true, armed := false } else none
    | _ => none
  | .contextDone => match s.main with
    | .selecting => if s.cancelled then some (s.leaveWith .cancelled) else none
    | _ => none
  | .leave => s.leave
  | .openSource => match s.source with
    | .opening => some { s with source := .waiting }
    | _ => none
  | .sourceDone => match s.source with
    | .waiting => if s.cancelled then some { s with source := .stopping } else none
    | .offering _ => if s.cancelled then some { s with source := .stopping } else none
    | _ => none
  | .next candidate => match s.source, candidate with
    | .pulling, some c => some { s with source := .offering c, produced := s.produced ++ [c] }
    | .pulling, none => some { s with source := .stopping }
    | _, _ => none
  | .stopSource => match s.source with
    | .stopping => some { s with source := .closingFinished }
    | _ => none
  | .closeFinished => match s.source with
    | .closingFinished => some { s with source := .closingInput }
    | _ => none
  | .closeInput => match s.source with
    | .closingInput => some { s with source := .ended }
    | _ => none
  | .attemptReturns i outcome => match s.attempts[i]? with
    | some ⟨address, .running⟩ =>
      some { s with attempts := s.attempts.set i ⟨address, .sending outcome⟩ }
    | _ => none
  | .drop i => match s.attempts[i]? with
    | some ⟨address, .sending outcome⟩ =>
      if s.returnedClosed then some (s.drop withDiscard i address outcome) else none
    | _ => none
  | .discard i => match s.attempts[i]? with
    | some ⟨address, .discarding value⟩ =>
      some { s with
        attempts := s.attempts.set i ⟨address, .finished (.dropped (.ok value))⟩
        discards := s.discards ++ [i] }
    | _ => none
  | .endAttempt i => match s.attempts[i]? with
    | some ⟨address, .delivered outcome⟩ =>
      some { s with attempts := s.attempts.set i ⟨address, .finished (.delivered outcome)⟩ }
    | _ => none

/-- An action of one of the goroutines. -/
def Step (withDiscard : Bool) (s s' : Race A R E) : Prop :=
  ∃ action, s.act withDiscard action = some s'

/-- What any interleaving reaches. -/
abbrev Reachable (withDiscard : Bool) (s : Race A R E) : Prop :=
  Relation.ReflTransGen (Step withDiscard) {} s

/-- The actions one after the other. -/
def play (withDiscard : Bool) (s : Race A R E) : List (RaceAction A R E) → Option (Race A R E)
  | [] => some s
  | action :: actions => (s.act withDiscard action).bind fun s' => play withDiscard s' actions

theorem play_reaches {withDiscard : Bool} {s s' : Race A R E} {actions : List (RaceAction A R E)}
    (h : s.play withDiscard actions = some s') :
    Relation.ReflTransGen (Step withDiscard) s s' := by
  induction actions generalizing s with
  | nil =>
    cases h
    exact .refl
  | cons action actions ih =>
    obtain ⟨s₁, hact, hrest⟩ := Option.bind_eq_some_iff.mp h
    exact .head ⟨action, hact⟩ (ih hrest)

end Race

end Dae
