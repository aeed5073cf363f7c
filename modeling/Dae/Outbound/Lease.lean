import Dae.Lib.Threads

/-!
# Leases

`pkg/outbound/netproxy/lease.go`: a lease stands for a resource, depends on its parents, and is
invalidated with them.  Leases are made, invalidated and watched by concurrent threads; the
sections under the locks, and the operations on the state of a callback, are atomic.

A `LeaseHeap` numbers the leases and the callbacks of `AfterAbort`.  It also records what the
results are about: the calls of `invalidate` that have returned, the callbacks whose
`AfterAbort` has returned, and how often a callback has been started.  The references to the
resource and the stream, and the channel that is closed with the lease, are left out.
-/

namespace Dae

inductive CallbackState where
  | pending
  | scheduled
  | stopped
  deriving DecidableEq, Repr

/-- `leaseAbortCallback`, with the number of its runs and whether its stop function has
returned true. -/
structure AbortCallback where
  lease : Nat := 0
  state : CallbackState := .pending
  runs : Nat := 0
  stopped : Bool := false
  deriving DecidableEq, Repr

/-- `Lease`, with the callbacks that its invalidation has taken.  A parent may be nil. -/
structure Lease where
  parents : List (Option Nat) := []
  aborted : Bool := false
  cause : Option String := none
  children : List Nat := []
  onAbort : List Nat := []
  taken : List Nat := []
  deriving DecidableEq, Repr

def errDependencyInvalid : String := "outbound dependency is no longer available"

structure LeaseHeap where
  count : Nat := 0
  lease : Nat → Lease := fun _ => {}
  callbackCount : Nat := 0
  callback : Nat → AbortCallback := fun _ => {}
  returned : List (Nat × Bool) := []
  made : List Nat := []

/-- What is left of a call: the rest of the loop of `newLease`, a call of `invalidate`, the rest
of such a call behind its section, a start of a callback, and the end of a stop function. -/
inductive LeaseJob where
  | link (l : Nat) (parents : List (Option Nat))
  | invalidate (l : Nat) (cause : Option String) (aborted : Bool)
  | propagate (l : Nat) (children : List Nat) (parents : List (Option Nat)) (callbacks : List Nat)
      (cause : String) (aborted : Bool)
  | start (k : Nat)
  | unregister (k : Nat)
  deriving DecidableEq, Repr

namespace LeaseHeap

def setLease (s : LeaseHeap) (l : Nat) (lease : Lease) : LeaseHeap :=
  { s with lease := Function.update s.lease l lease }

def setCallback (s : LeaseHeap) (k : Nat) (callback : AbortCallback) : LeaseHeap :=
  { s with callback := Function.update s.callback k callback }

def addChild (s : LeaseHeap) (p l : Nat) : LeaseHeap :=
  s.setLease p { s.lease p with children := (s.lease p).children.insert l }

def removeChild (s : LeaseHeap) (p l : Nat) : LeaseHeap :=
  s.setLease p { s.lease p with children := (s.lease p).children.filter (· ≠ l) }

/-- The section of `invalidate`: the first invalidation fixes the cause and the action. -/
def endLease (s : LeaseHeap) (l : Nat) (cause : String) (aborted : Bool) : LeaseHeap :=
  s.setLease l
    { s.lease l with
      cause := some cause
      aborted
      children := []
      onAbort := []
      taken := (s.lease l).onAbort }

/-- A call of `invalidate` returns. -/
def leave (s : LeaseHeap) (l : Nat) (result : Bool) : LeaseHeap :=
  { s with returned := (l, result) :: s.returned }

/-- `start`. -/
def startCallback (s : LeaseHeap) (k : Nat) : LeaseHeap :=
  if (s.callback k).state = .pending then
    s.setCallback k { s.callback k with state := .scheduled, runs := (s.callback k).runs + 1 }
  else s

/-- A callback is released without being invoked. -/
def releaseCallback (s : LeaseHeap) (k : Nat) : LeaseHeap :=
  if (s.callback k).state = .pending then s.setCallback k { s.callback k with state := .stopped }
  else s

def newLease (s : LeaseHeap) (parents : List (Option Nat)) : LeaseHeap :=
  { s.setLease s.count { parents } with count := s.count + 1 }

def newCallback (s : LeaseHeap) (callback : AbortCallback) : LeaseHeap :=
  { s.setCallback s.callbackCount callback with callbackCount := s.callbackCount + 1 }

/-- An `AfterAbort` returns. -/
def finish (s : LeaseHeap) (k : Nat) : LeaseHeap := { s with made := k :: s.made }

def register (s : LeaseHeap) (l k : Nat) : LeaseHeap :=
  s.setLease l { s.lease l with onAbort := k :: (s.lease l).onAbort }

def unregister (s : LeaseHeap) (l k : Nat) : LeaseHeap :=
  s.setLease l { s.lease l with onAbort := (s.lease l).onAbort.filter (· ≠ k) }

/-- The first section of a call.  The parents of a new lease exist already. -/
inductive Call (s : LeaseHeap) : LeaseHeap → List LeaseJob → Prop where
  | newLease (parents : List (Option Nat)) : (∀ p, some p ∈ parents → p < s.count) →
      s.Call (s.newLease parents) [.link s.count parents]
  | invalidate (l : Nat) (cause : Option String) (aborted : Bool) : l < s.count →
      s.Call s [.invalidate l cause aborted]
  | afterAbort (l : Nat) : l < s.count → (s.lease l).cause = none →
      s.Call (((s.newCallback { lease := l }).register l s.callbackCount).finish s.callbackCount) []
  | afterAbortAborted (l : Nat) : l < s.count → (s.lease l).cause ≠ none →
      (s.lease l).aborted = true → s.Call (s.newCallback { lease := l }) [.start s.callbackCount]
  | afterAbortInvalid (l : Nat) : l < s.count → (s.lease l).cause ≠ none →
      (s.lease l).aborted = false →
      s.Call ((s.newCallback { lease := l, state := .stopped }).finish s.callbackCount) []
  | stop (k : Nat) : k < s.callbackCount → (s.callback k).state = .pending →
      s.Call (s.setCallback k { s.callback k with state := .stopped, stopped := true })
        [.unregister k]
  | stopLate (k : Nat) : (s.callback k).state ≠ .pending → s.Call s []

/-- The sections of the other jobs.  The sets of children and callbacks are walked in any
order. -/
inductive Exec (s : LeaseHeap) : LeaseJob → LeaseHeap → List LeaseJob → Prop where
  | linked (l : Nat) : s.Exec (.link l []) s []
  | linkNil (l : Nat) (parents : List (Option Nat)) :
      s.Exec (.link l (none :: parents)) s [.link l parents]
  | linkEnded (l p : Nat) (parents : List (Option Nat)) : (s.lease l).cause ≠ none →
      s.Exec (.link l (some p :: parents)) s []
  | linkParentEnded (l p : Nat) (parents : List (Option Nat)) (cause : String) :
      (s.lease l).cause = none → (s.lease p).cause = some cause →
      s.Exec (.link l (some p :: parents)) s [.invalidate l (some cause) (s.lease p).aborted]
  | link (l p : Nat) (parents : List (Option Nat)) : (s.lease l).cause = none →
      (s.lease p).cause = none →
      s.Exec (.link l (some p :: parents)) (s.addChild p l) [.link l parents]
  | invalidateAgain (l : Nat) (cause : Option String) (aborted : Bool) :
      (s.lease l).cause ≠ none → s.Exec (.invalidate l cause aborted) (s.leave l false) []
  | invalidate (l : Nat) (cause : Option String) (aborted : Bool) (children callbacks : List Nat) :
      (s.lease l).cause = none → children.Perm (s.lease l).children →
      callbacks.Perm (s.lease l).onAbort →
      s.Exec (.invalidate l cause aborted)
        (s.endLease l (cause.getD errDependencyInvalid) aborted)
        [.propagate l children (s.lease l).parents callbacks (cause.getD errDependencyInvalid) aborted]
  | child (l c : Nat) (children : List Nat) (parents : List (Option Nat)) (callbacks : List Nat)
      (cause : String) (aborted : Bool) :
      s.Exec (.propagate l (c :: children) parents callbacks cause aborted) s
        [.invalidate c (some cause) aborted, .propagate l children parents callbacks cause aborted]
  | unlinkNil (l : Nat) (parents : List (Option Nat)) (callbacks : List Nat) (cause : String)
      (aborted : Bool) :
      s.Exec (.propagate l [] (none :: parents) callbacks cause aborted) s
        [.propagate l [] parents callbacks cause aborted]
  | unlink (l p : Nat) (parents : List (Option Nat)) (callbacks : List Nat) (cause : String)
      (aborted : Bool) :
      s.Exec (.propagate l [] (some p :: parents) callbacks cause aborted) (s.removeChild p l)
        [.propagate l [] parents callbacks cause aborted]
  | callback (l k : Nat) (callbacks : List Nat) (cause : String) (aborted : Bool) :
      s.Exec (.propagate l [] [] (k :: callbacks) cause aborted)
        (if aborted then s.startCallback k else s.releaseCallback k)
        [.propagate l [] [] callbacks cause aborted]
  | propagated (l : Nat) (cause : String) (aborted : Bool) :
      s.Exec (.propagate l [] [] [] cause aborted) (s.leave l true) []
  | start (k : Nat) : s.Exec (.start k) ((s.startCallback k).finish k) []
  | unregister (k : Nat) : s.Exec (.unregister k) (s.unregister (s.callback k).lease k) []

end LeaseHeap

/-- The threads that use leases. -/
def leaseMachine : Threads.Machine LeaseHeap LeaseJob where
  call := LeaseHeap.Call
  exec := LeaseHeap.Exec

abbrev LeaseConfig := Threads.Config LeaseHeap LeaseJob

/-- No lease has been made. -/
def LeaseConfig.initial : LeaseConfig := ⟨{}, fun _ => []⟩

/-- `termination`: the gates of a lease and of its ancestors are read one after the other while
other threads run.  The result is the cause and the action that was found, if any. -/
inductive Termination : LeaseConfig → List (Option Nat) → Option (String × Bool) → Prop where
  | done {c : LeaseConfig} : Termination c [] none
  | null {c : LeaseConfig} {todo : List (Option Nat)} {result : Option (String × Bool)} :
      Termination c todo result → Termination c (none :: todo) result
  | found {c c' : LeaseConfig} {l : Nat} {todo : List (Option Nat)} {cause : String} :
      leaseMachine.Run c c' → (c'.shared.lease l).cause = some cause →
      Termination c (some l :: todo) (some (cause, (c'.shared.lease l).aborted))
  | next {c c' : LeaseConfig} {l : Nat} {todo : List (Option Nat)} {result : Option (String × Bool)} :
      leaseMachine.Run c c' → (c'.shared.lease l).cause = none →
      Termination c' ((c'.shared.lease l).parents ++ todo) result →
      Termination c (some l :: todo) result

end Dae
