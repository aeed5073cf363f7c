import Dae.Lib.Result
import Dae.Outbound.Session

/-!
# Delivery of session states

Every watcher gets the state at its subscription and then every event once and in order, however
the goroutines interleave.

* `StateWatcher.Sound` — what a watcher has delivered, holds and has queued are the events since
  its subscription, and it does not sleep over one.
-/

namespace Dae

/-- Successive events: the number rises by one, the first one is not the last state, and readiness
does not go back unless its counter is at its end. -/
structure StateEvent.Follows (e e' : StateEvent) : Prop where
  seq : e'.seq = e.seq + 1
  before : e.state ≠ .closed
  readiness : e.readinessVersion ≠ BitVec.allOnes 64 → e.readinessVersion ≤ e'.readinessVersion

/-- The event that the goroutine is about to send. -/
def WatcherPoint.hand : WatcherPoint → List StateEvent
  | .sending event => [event]
  | _ => []

/-- The goroutine has left its loop. -/
def WatcherPoint.out : WatcherPoint → Bool
  | .removing | .closing | .ended => true
  | _ => false

/-- A watcher whose context is not done. -/
structure StateWatcher.Sound (b : StateBroadcaster) (w : StateWatcher) : Prop where
  since : w.since < b.events.length
  account : w.delivered ++ w.point.hand ++ w.queue = b.events.drop w.since
  registered : w.registered = !b.isClosed
  awake : w.point = .waiting → w.queue ≠ [] ∨ b.isClosed = true → w.wake = true
  out : w.point.out = true → w.queue = [] ∧ b.isClosed = true

structure StateBroadcaster.Sound (b : StateBroadcaster) : Prop where
  last : b.events.drop (b.events.length - 1) = [b.current]
  chain : b.events.IsChain StateEvent.Follows
  watchers : ∀ w ∈ b.watchers, w.cancelled = false → w.Sound b

/-! ### Sections -/

variable {b : StateBroadcaster}

theorem length_events_pos (h : b.Sound) : 0 < b.events.length := by
  have hlast := congrArg List.length h.last
  rw [List.length_drop, List.length_singleton] at hlast
  omega

variable {b' : StateBroadcaster} {w : StateWatcher}

/-- A watcher that is registered takes the event behind those it has. -/
theorem enqueue_sound {event : StateEvent}
    (hopen : b.isClosed = false) (hcurrent : b'.current = event)
    (hevents : b'.events = b.events ++ [event]) (h : w.Sound b) : (w.enqueue event).Sound b' := by
  have hreg : w.registered = true := by rw [h.registered, hopen, Bool.not_false]
  unfold StateWatcher.enqueue
  rw [if_pos hreg]
  refine ⟨?_, ?_, ?_, fun _ _ => rfl, ?_⟩
  · rw [hevents, List.length_append]
    exact Nat.lt_add_right _ h.since
  · dsimp only
    rw [hevents, List.drop_append_of_le_length h.since.le, ← h.account]
    simp only [List.append_assoc]
  · unfold StateBroadcaster.isClosed
    rw [hcurrent]
    simp
  · intro hout
    have hclosed := (h.out hout).2
    rw [hopen] at hclosed
    cases hclosed

theorem publishLocked_sound {event : StateEvent} (h : b.Sound)
    (hreadiness : b.current.readinessVersion ≠ BitVec.allOnes 64 →
      b.current.readinessVersion ≤ event.readinessVersion) : (b.publishLocked event).2.Sound := by
  unfold StateBroadcaster.publishLocked
  split
  · exact h
  · next hopen =>
      dsimp only
      generalize hevent : ({ if event.publisherID = 0 then
          { event with publisherID := b.current.publisherID } else event with
          seq := b.current.seq + 1 } : StateEvent) = sent
      have hfollows : b.current.Follows sent := by
        refine ⟨by rw [← hevent], hopen, ?_⟩
        rw [← hevent]
        split <;> exact hreadiness
      refine ⟨?_, ?_, ?_⟩
      · simp
      · dsimp only
        have hsplit : b.events = b.events.take (b.events.length - 1) ++ [b.current] := by
          rw [← h.last, List.take_append_drop]
        rw [List.isChain_append]
        refine ⟨h.chain, List.isChain_singleton sent, ?_⟩
        intro x hx y hy
        rw [hsplit, List.getLast?_concat, Option.mem_some_iff] at hx
        rw [List.head?_cons, Option.mem_some_iff] at hy
        rw [← hx, ← hy]
        exact hfollows
      · intro w hw hcancelled
        obtain ⟨w₀, hw₀, rfl⟩ := List.mem_map.mp hw
        have hcancelled₀ : w₀.cancelled = false := by
          unfold StateWatcher.enqueue at hcancelled
          split at hcancelled <;> exact hcancelled
        exact enqueue_sound (decide_eq_false hopen) rfl rfl (h.watchers w₀ hw₀ hcancelled₀)

theorem le_maxVersion (a b : BitVec 64) : a ≤ maxVersion a b := by
  unfold maxVersion
  split
  · assumption
  · exact BitVec.le_refl a

/-- A counter that is not at its end rises. -/
theorem le_add_one {v : BitVec 64} (h : v ≠ BitVec.allOnes 64) : v ≤ v + 1 := by
  have hend : v ≠ 0xffffffffffffffff#64 := h
  bv_omega

theorem transition_sound (h : b.Sound) (state : SessionState)
    (cause : Option String) : (b.transition state cause).2.Sound := by
  unfold StateBroadcaster.transition
  split
  · exact h
  · exact publishLocked_sound h le_add_one

theorem publish_sound (h : b.Sound) (event : StateEvent) :
    (b.publish event).2.Sound := by
  unfold StateBroadcaster.publish
  refine publishLocked_sound h ?_
  intro hend
  dsimp only
  refine BitVec.le_trans ?_ (le_maxVersion _ _)
  split
  · exact le_add_one hend
  · exact BitVec.le_refl _

/-- What is said of a watcher depends on the events only. -/
theorem StateBroadcaster.Sound.with_watchers (h : b.Sound)
    (hcurrent : b'.current = b.current) (hevents : b'.events = b.events)
    (hwatchers : ∀ w ∈ b'.watchers, w.cancelled = false → w.Sound b) : b'.Sound := by
  refine ⟨by rw [hevents, hcurrent]; exact h.last, hevents ▸ h.chain, ?_⟩
  intro w hw hcancelled
  obtain ⟨hsince, haccount, hregistered, hawake, hout⟩ := hwatchers w hw hcancelled
  have hclosed : b'.isClosed = b.isClosed := by
    unfold StateBroadcaster.isClosed
    rw [hcurrent]
  exact ⟨hevents ▸ hsince, hevents ▸ haccount, hclosed ▸ hregistered, hclosed ▸ hawake,
    hclosed ▸ hout⟩

theorem watchState_sound (h : b.Sound) : b.watchState.Sound := by
  refine h.with_watchers rfl rfl ?_
  intro w hw hcancelled
  rcases List.mem_append.mp hw with hold | hnew
  · exact h.watchers w hold hcancelled
  · rw [List.mem_singleton.mp hnew]
    have hpos := length_events_pos h
    refine ⟨by dsimp only; omega, h.last.symm, ?_, nofun, nofun⟩
    unfold StateBroadcaster.isClosed
    simp

theorem next_sound (h : w.Sound b) :
    (w.next b.isClosed).Sound b := by
  have haccount := h.account
  unfold StateWatcher.next
  cases hpoint : w.point with
  | loop =>
    rw [hpoint] at haccount
    dsimp only
    cases hqueue : w.queue with
    | nil =>
      rw [hqueue] at haccount
      dsimp only
      cases hclosed : b.isClosed with
      | true =>
        rw [if_pos rfl]
        exact ⟨h.since, by simpa [WatcherPoint.hand, hqueue] using haccount,
          hclosed ▸ h.registered, nofun, fun _ => ⟨rfl, hclosed⟩⟩
      | false =>
        rw [if_neg (by nofun)]
        refine ⟨h.since, by simpa [WatcherPoint.hand, hqueue] using haccount,
          h.registered, ?_, nofun⟩
        intro _ hwork
        rcases hwork with hqueue' | hclosed'
        · exact absurd rfl hqueue'
        · rw [hclosed] at hclosed'
          cases hclosed'
    | cons event rest =>
      rw [hqueue] at haccount
      refine ⟨h.since, ?_, h.registered, nofun, nofun⟩
      simpa [WatcherPoint.hand] using haccount
  | waiting =>
    dsimp only
    split
    · rw [hpoint] at haccount
      exact ⟨h.since, haccount, h.registered, nofun, nofun⟩
    · exact h
  | sending event =>
    rw [hpoint] at haccount
    refine ⟨h.since, ?_, h.registered, nofun, nofun⟩
    simpa [WatcherPoint.hand] using haccount
  | removing =>
    have hout := h.out (by rw [hpoint]; rfl)
    rw [hpoint] at haccount
    refine ⟨h.since, haccount, ?_, nofun, fun _ => hout⟩
    rw [hout.2]
    rfl
  | closing =>
    have hout := h.out (by rw [hpoint]; rfl)
    rw [hpoint] at haccount
    exact ⟨h.since, haccount, h.registered, nofun, fun _ => hout⟩
  | ended => exact h

theorem cancelled_next (c : Bool) (w : StateWatcher) : (w.next c).cancelled = w.cancelled := by
  unfold StateWatcher.next
  grind

theorem run_sound (h : b.Sound) (i : Nat) : (b.run i).Sound := by
  refine h.with_watchers rfl rfl ?_
  refine List.forall_mem_modify h.watchers ?_
  intro w _ hw hcancelled
  rw [cancelled_next] at hcancelled
  exact next_sound (hw hcancelled)

theorem leave_sound (h : b.Sound) (i : Nat) :
    StateBroadcaster.Sound { b with watchers := b.watchers.modify i StateWatcher.leave } := by
  refine h.with_watchers rfl rfl ?_
  refine List.forall_mem_modify h.watchers ?_
  intro w _ hw hcancelled
  unfold StateWatcher.leave at hcancelled ⊢
  split at hcancelled <;> grind

theorem cancel_sound (h : b.Sound) (i : Nat) :
    StateBroadcaster.Sound
      { b with watchers := b.watchers.modify i ({ · with cancelled := true }) } := by
  refine h.with_watchers rfl rfl ?_
  exact List.forall_mem_modify h.watchers fun _ _ _ => nofun

theorem step_sound (h : b.Sound) (hstep : SessionStep b b') : b'.Sound := by
  cases hstep with
  | transition state cause => exact transition_sound h state cause
  | publish event => exact publish_sound h event
  | watchState => exact watchState_sound h
  | cancel i => exact cancel_sound h i
  | run i => exact run_sound h i
  | leave i => exact leave_sound h i

/-! ### Progress -/

open StateWatcher in
/-- From its loop, a goroutine delivers its queue and comes to wait, or ends if the session has. -/
theorem drains_loop (c : Bool) (hloop : w.point = .loop) :
    ∃ n, ((next c)^[n] w).delivered = w.delivered ++ w.queue ∧
      ((next c)^[n] w).point = if c then .ended else .waiting := by
  generalize hqueue : w.queue = queue
  induction queue generalizing w with
  | nil =>
    cases c with
    | true => exact ⟨3, by simp [next, hloop, hqueue]⟩
    | false => exact ⟨1, by simp [next, hloop, hqueue]⟩
  | cons event rest ih =>
    have htwo : (next c)^[2] w =
        { w with queue := rest, delivered := w.delivered ++ [event], point := .loop } := by
      simp [next, hloop, hqueue]
    obtain ⟨n, hdelivered, hpoint⟩ := ih (w := (next c)^[2] w) (by rw [htwo]) (by rw [htwo])
    refine ⟨n + 2, ?_, ?_⟩
    · rw [Function.iterate_add_apply, hdelivered, htwo, List.append_assoc, List.singleton_append]
    · rw [Function.iterate_add_apply, hpoint]

open StateWatcher in
/-- **The goroutine of a watcher delivers all there is**, and ends if the session has. -/
theorem StateWatcher.Sound.drains (h : w.Sound b) :
    ∃ n, ((next b.isClosed)^[n] w).delivered = b.events.drop w.since ∧
      (b.isClosed = true → ((next b.isClosed)^[n] w).point = .ended) := by
  -- It comes back to its loop, unless it is out of it or has nothing to do.
  have hback : ∀ w' : StateWatcher, w'.point = .loop →
      w'.delivered ++ w'.queue = b.events.drop w.since →
      (∃ k, (next b.isClosed)^[k] w = w') →
      ∃ n, ((next b.isClosed)^[n] w).delivered = b.events.drop w.since ∧
        (b.isClosed = true → ((next b.isClosed)^[n] w).point = .ended) := by
    rintro w' hloop hall ⟨k, rfl⟩
    obtain ⟨n, hdelivered, hpoint⟩ := drains_loop b.isClosed hloop
    refine ⟨n + k, ?_, ?_⟩
    · rw [Function.iterate_add_apply, hdelivered, hall]
    · intro hclosed
      rw [Function.iterate_add_apply, hpoint, hclosed, if_pos rfl]
  have haccount := h.account
  cases hpoint : w.point with
  | loop =>
    rw [hpoint] at haccount
    exact hback w hpoint (by simpa [WatcherPoint.hand] using haccount) ⟨0, rfl⟩
  | sending event =>
    rw [hpoint] at haccount
    refine hback ((next b.isClosed) w) (by simp [next, hpoint]) ?_ ⟨1, rfl⟩
    simpa [next, hpoint, WatcherPoint.hand] using haccount
  | waiting =>
    rw [hpoint] at haccount
    cases hwake : w.wake with
    | true =>
      refine hback ((next b.isClosed) w) (by simp [next, hpoint, hwake]) ?_ ⟨1, rfl⟩
      simpa [next, hpoint, hwake, WatcherPoint.hand] using haccount
    | false =>
      have hidle : ¬(w.queue ≠ [] ∨ b.isClosed = true) := by
        intro hwork
        rw [h.awake hpoint hwork] at hwake
        cases hwake
      rw [not_or, not_not, Bool.not_eq_true] at hidle
      refine ⟨0, ?_, fun hclosed => ?_⟩
      · simpa [WatcherPoint.hand, hidle.1] using haccount
      · rw [hidle.2] at hclosed
        cases hclosed
  | removing =>
    have hout := h.out (by rw [hpoint]; rfl)
    rw [hpoint] at haccount
    exact ⟨2, by simpa [next, hpoint, WatcherPoint.hand, hout.1] using haccount,
      fun _ => by simp [next, hpoint]⟩
  | closing =>
    have hout := h.out (by rw [hpoint]; rfl)
    rw [hpoint] at haccount
    exact ⟨1, by simpa [next, hpoint, WatcherPoint.hand, hout.1] using haccount,
      fun _ => by simp [next, hpoint]⟩
  | ended =>
    have hout := h.out (by rw [hpoint]; rfl)
    rw [hpoint] at haccount
    exact ⟨0, by simpa [WatcherPoint.hand, hout.1] using haccount, fun _ => hpoint⟩

/-- Steps of one goroutine alone. -/
theorem run_iterate (b : StateBroadcaster) (i n : Nat) :
    ((·.run i)^[n] b).isClosed = b.isClosed ∧
      ((·.run i)^[n] b).watchers[i]? = b.watchers[i]?.map (StateWatcher.next b.isClosed)^[n] := by
  induction n with
  | zero => simp
  | succ n ih =>
    rw [Function.iterate_succ_apply', Function.iterate_succ']
    generalize (·.run i)^[n] b = b' at ih ⊢
    refine ⟨ih.1, ?_⟩
    unfold StateBroadcaster.run
    dsimp only
    rw [List.getElem?_modify, ih.1, ih.2]
    cases b.watchers[i]? <;> simp

theorem new_sound (initial : StateEvent) : (StateBroadcaster.new initial).Sound :=
  ⟨rfl, List.isChain_singleton initial, nofun⟩

/-- **Session states are delivered once and in order.**  At every point of every run the events
follow each other, and the event that is current is the last one, so that a watcher that subscribes
now gets the events from it on.  A watcher whose context is not done

* has delivered the first of the events since its subscription;
* has closed its channel only after it has delivered all of them, the last one being the end of the
  session;
* delivers all of them, and closes its channel if the session has ended, whenever its goroutine is
  given the steps. -/
theorem events_delivered {initial : StateEvent} {b : StateBroadcaster}
    (h : Relation.ReflTransGen SessionStep (.new initial) b) :
    b.events.IsChain StateEvent.Follows ∧
    (∃ w, b.watchState.watchers = b.watchers ++ [w] ∧ b.events.drop w.since = [b.current]) ∧
    ∀ i w, b.watchers[i]? = some w → w.cancelled = false →
      w.delivered <+: b.events.drop w.since ∧
      (w.point = .ended → w.delivered = b.events.drop w.since ∧
        w.delivered.getLast? = some b.current ∧ b.current.state = .closed) ∧
      ∃ n w', ((·.run i)^[n] b).watchers[i]? = some w' ∧
        w'.delivered = b.events.drop w.since ∧ (b.current.state = .closed → w'.point = .ended) := by
  have hsound : b.Sound := by
    induction h with
    | refl => exact new_sound initial
    | tail _ hstep ih => exact step_sound ih hstep
  refine ⟨hsound.chain, ⟨_, rfl, hsound.last⟩, ?_⟩
  intro i w hw hcancelled
  have hwatcher := hsound.watchers w (List.mem_of_getElem? hw) hcancelled
  have haccount := hwatcher.account
  refine ⟨⟨w.point.hand ++ w.queue, by rw [← haccount, List.append_assoc]⟩, ?_, ?_⟩
  · intro hended
    obtain ⟨hqueue, hclosed⟩ := hwatcher.out (by rw [hended]; rfl)
    rw [hended, hqueue] at haccount
    have hall : w.delivered = b.events.drop w.since := by
      simpa [WatcherPoint.hand] using haccount
    refine ⟨hall, ?_, of_decide_eq_true hclosed⟩
    have hlast : b.events.getLast? = some b.current := by
      rw [← List.take_append_drop (b.events.length - 1) b.events, hsound.last, List.getLast?_concat]
    rw [hall, List.getLast?_drop, if_neg (not_le.mpr hwatcher.since), hlast]
  · obtain ⟨n, hdelivered, hpoint⟩ := hwatcher.drains
    refine ⟨n, _, ?_, hdelivered, fun hclosed => hpoint (decide_eq_true hclosed)⟩
    rw [(run_iterate b i n).2, hw, Option.map_some]

/-- A watcher of a session that is connected and then closed gets the three states. -/
theorem events_delivered_closed :
    ∃ b w, Relation.ReflTransGen SessionStep (.new { state := .disconnected }) b ∧
      b.watchers[0]? = some w ∧
      ∃ n w', ((·.run 0)^[n] b).watchers[0]? = some w' ∧
        w'.delivered.map (·.state) = [.disconnected, .connected, .closed] ∧ w'.point = .ended := by
  have hwatch := Relation.ReflTransGen.single
    (SessionStep.watchState (b := .new { state := .disconnected }))
  have hconnected := hwatch.tail (.transition .connected none)
  have hclosed := hconnected.tail (.transition .closed none)
  refine ⟨_, _, hclosed, rfl, ?_⟩
  obtain ⟨n, w', hw', hdelivered, hpoint⟩ := ((events_delivered hclosed).2.2 0 _ rfl rfl).2.2
  exact ⟨n, w', hw', by rw [hdelivered]; rfl, hpoint rfl⟩

/-- **The counter of readiness wraps.**  An owner may publish any version; after the last one a
transition has the first, and a watcher gets both. -/
theorem readiness_wraps : ∃ b, Relation.ReflTransGen SessionStep
    (.new { state := .disconnected }) b ∧
    b.watchers.map (fun w => w.delivered.map (·.readinessVersion)) =
      [[0, BitVec.allOnes 64, 0]] := by
  have hwatch := Relation.ReflTransGen.single
    (SessionStep.watchState (b := .new { state := .disconnected }))
  have hpublished := hwatch.tail (.publish
    { state := .connecting, readinessVersion := BitVec.allOnes 64 })
  have hconnected := hpublished.tail (.transition .connected none)
  have htwo := (hconnected.tail (.run 0)).tail (.run 0)
  have hfour := (htwo.tail (.run 0)).tail (.run 0)
  exact ⟨_, (hfour.tail (.run 0)).tail (.run 0), by decide⟩

end Dae
