import Mathlib

/-!
# Session states

`StateBroadcaster` of `pkg/outbound/netproxy/session.go`: the state of a shared connection is
published under a lock, and every watcher has a queue, a wake-up channel of one slot and a
goroutine that hands the events over one by one.

The sections under the lock and the operations on the channels are atomic and interleave
arbitrarily.  A broadcaster also records the events it has published, and a watcher what it has
delivered and since when it watches.  The diagnostic fields of an event are left out.
-/

namespace Dae

inductive SessionState where
  | disconnected
  | connecting
  | connected
  | closed
  deriving DecidableEq, Repr

structure ResourceRef where
  ownerID : BitVec 64 := 0
  resourceID : BitVec 64 := 0
  generation : BitVec 64 := 0
  deriving DecidableEq, Repr

structure StateEvent where
  publisherID : BitVec 64 := 0
  seq : BitVec 64 := 0
  state : SessionState
  cause : Option String := none
  resource : ResourceRef := {}
  readinessVersion : BitVec 64 := 0
  accepting : Bool := false
  usableCapacity : Int := 0
  deriving DecidableEq, Repr

/-- Where the goroutine of a watcher is: before its section, in one of its two selects, or on its
way out. -/
inductive WatcherPoint where
  | loop
  | waiting
  | sending (event : StateEvent)
  | removing
  | closing
  | ended
  deriving DecidableEq, Repr

/-- `stateWatcher`, with its goroutine, whether its context is cancelled, the number of events that
were published before it, and what the receiver has got. -/
structure StateWatcher where
  queue : List StateEvent
  wake : Bool := false
  registered : Bool
  point : WatcherPoint := .loop
  cancelled : Bool := false
  since : Nat
  delivered : List StateEvent := []
  deriving DecidableEq, Repr

/-- `StateBroadcaster`, with all watchers there have been and all events. -/
structure StateBroadcaster where
  current : StateEvent
  watchers : List StateWatcher := []
  events : List StateEvent

def boolCapacity (accepting : Bool) : Int := if accepting then 1 else 0

/-- `max` on unsigned numbers. -/
def maxVersion (a b : BitVec 64) : BitVec 64 := if a ≤ b then b else a

namespace StateWatcher

/-- A registered watcher is given an event and woken. -/
def enqueue (event : StateEvent) (w : StateWatcher) : StateWatcher :=
  if w.registered then
    { w with
      queue := w.queue ++ [event]
      wake := true
      registered := event.state ≠ .closed }
  else w

/-- The next step of the goroutine, where it does not follow its context.  A send waits for the
receiver, and the first select for a wake-up. -/
def next (isClosed : Bool) (w : StateWatcher) : StateWatcher :=
  match w.point with
  | .loop =>
    match w.queue with
    | [] => { w with point := if isClosed then .removing else .waiting }
    | event :: rest => { w with queue := rest, point := .sending event }
  | .waiting => if w.wake then { w with wake := false, point := .loop } else w
  | .sending event => { w with delivered := w.delivered ++ [event], point := .loop }
  | .removing => { w with registered := false, point := .closing }
  | .closing => { w with point := .ended }
  | .ended => w

/-- A select takes the context, which is done. -/
def leave (w : StateWatcher) : StateWatcher :=
  match w.cancelled, w.point with
  | true, .waiting | true, .sending _ => { w with point := .removing }
  | _, _ => w

end StateWatcher

namespace StateBroadcaster

/-- `newStateBroadcaster`, on an event that names its publisher. -/
def new (initial : StateEvent) : StateBroadcaster := { current := initial, events := [initial] }

def isClosed (b : StateBroadcaster) : Bool := b.current.state = .closed

/-- `publishLocked`. -/
def publishLocked (b : StateBroadcaster) (event : StateEvent) : Bool × StateBroadcaster :=
  if b.current.state = .closed then (false, b)
  else
    let event := if event.publisherID = 0 then { event with publisherID := b.current.publisherID }
      else event
    let event := { event with seq := b.current.seq + 1 }
    (true,
      { current := event
        watchers := b.watchers.map (StateWatcher.enqueue event)
        events := b.events ++ [event] })

/-- `Transition`. -/
def transition (b : StateBroadcaster) (state : SessionState) (cause : Option String) :
    Bool × StateBroadcaster :=
  if b.current.state = .closed ∨ b.current.state = state then (false, b)
  else
    b.publishLocked
      { b.current with
        state
        cause
        accepting := state = .connected
        usableCapacity := boolCapacity (state = .connected)
        readinessVersion := b.current.readinessVersion + 1 }

/-- `Publish`. -/
def publish (b : StateBroadcaster) (event : StateEvent) : Bool × StateBroadcaster :=
  let previous := b.current
  let readiness :=
    if previous.state ≠ event.state ∨ previous.accepting ≠ event.accepting ∨
        (previous.resource ≠ event.resource ∧ (previous.accepting ∨ event.accepting)) then
      previous.readinessVersion + 1
    else previous.readinessVersion
  b.publishLocked { event with readinessVersion := maxVersion readiness event.readinessVersion }

/-- `WatchState`. -/
def watchState (b : StateBroadcaster) : StateBroadcaster :=
  { b with
    watchers := b.watchers ++
      [{ queue := [b.current]
         registered := b.current.state ≠ .closed
         since := b.events.length - 1 }] }

/-- The goroutine of watcher `i` goes on. -/
def run (b : StateBroadcaster) (i : Nat) : StateBroadcaster :=
  { b with watchers := b.watchers.modify i (StateWatcher.next b.isClosed) }

end StateBroadcaster

/-- One section of one goroutine. -/
inductive SessionStep (b : StateBroadcaster) : StateBroadcaster → Prop where
  | transition (state : SessionState) (cause : Option String) :
      SessionStep b (b.transition state cause).2
  | publish (event : StateEvent) : SessionStep b (b.publish event).2
  | watchState : SessionStep b b.watchState
  | cancel (i : Nat) :
      SessionStep b { b with watchers := b.watchers.modify i ({ · with cancelled := true }) }
  | run (i : Nat) : SessionStep b (b.run i)
  | leave (i : Nat) :
      SessionStep b { b with watchers := b.watchers.modify i StateWatcher.leave }

end Dae
