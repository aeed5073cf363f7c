import Dae.Tproxy.UdpCache

/-!
# The lifetime of a cached UDP decision

Packets of one UDP source follow one decision for as long as its entry is used.  The entry is
closed under its lock, but found, checked and removed outside of it, and removed by its key:

* `Undisturbed` says what must not have happened between those sections;
* `Inv` ties the last use to the entry in the map.
-/

namespace Dae.UdpCache

open Threads

/-- The latest clock of the uses since the last change or release. -/
def lastUse : List Event → Nat
  | .hit _ time _ _ :: rest => max time (lastUse rest)
  | _ => 0

/-- A use follows the decision of the one before it, if there was no change and no release between,
unless the entry was idle for its lifetime. -/
def Coherent : List Event → Prop
  | .hit later time _ _ :: .hit result time' generation epoch :: rest =>
    (time < lastUse (.hit result time' generation epoch :: rest) + udpRoutingCacheTtlNs →
      later = result) ∧
    Coherent (.hit result time' generation epoch :: rest)
  | _ :: rest => Coherent rest
  | [] => True

/-- A used decision was made under the generation and the epoch at that time. -/
def Event.Current : Event → Prop
  | .hit result _ generation epoch => result.generation = generation ∧ result.routeEpoch = epoch
  | _ => True

/-- The entry does not belong to the current generation and epoch. -/
def Shared.isStale (s : Shared) (result : RoutingResult) : Bool :=
  s.device.any (·.epoch ≠ result.routeEpoch) || result.generation ≠ s.routingGeneration

/-- What must not have happened since the earlier sections of a thread.  When a packet locks an
entry, what it found out about the generation and the epoch is still so; if it uses the entry, that
is still in the map, was not last used by a packet with a later clock, and was not made under an
epoch that the device has lost.  A removal finds the entry that was closed, if any. -/
def Undisturbed (s : Shared) : Job → Prop
  | .lockRoute _ _ id now stale =>
    (s.entries id).closing = false →
      stale = s.isStale (s.entries id).result ∧
        (stale = false → now < (s.entries id).cachedUntil →
          s.slot = some id ∧ (s.entries id).cachedUntil ≤ now + udpRoutingCacheTtlNs ∧
            (s.device = none → (s.entries id).result.routeEpoch = 0))
  | .deleteRoute _ _ id => s.slot = some id ∨ s.slot = none
  | .expireDelete id => s.slot = some id ∨ s.slot = none
  | _ => True

instance (s : Shared) : DecidablePred (Undisturbed s)
  | .lockRoute _ _ _ _ _ => inferInstanceAs (Decidable (_ → _ ∧ (_ → _ → _ ∧ _ ∧ (_ → _))))
  | .deleteRoute _ _ _ => inferInstanceAs (Decidable (_ ∨ _))
  | .expireDelete _ => inferInstanceAs (Decidable (_ ∨ _))
  | .packet | .lookupDevice _ | .lookupBinding _ | .lookupRoute _ _ | .sampleNow _ _ _
  | .checkDevice _ _ _ _ | .checkGeneration _ _ _ _ _ | .route _ | .stamp _ _ | .insert _ _ _
  | .arm _ | .selected _ _ | .expire _ | .expireLock _ _ | .releaseDecision | .releaseBinding =>
    inferInstanceAs (Decidable True)

/-! ### Histories -/

theorem coherent_hit {later : RoutingResult} {time : Nat} {generation : BitVec 32}
    {epoch : BitVec 64} {history : List Event} (h : Coherent history)
    (hlast : ∀ result t g e rest, history = .hit result t g e :: rest →
      time < lastUse history + udpRoutingCacheTtlNs → later = result) :
    Coherent (.hit later time generation epoch :: history) := by
  cases history with
  | nil => trivial
  | cons event rest =>
    cases event with
    | hit result t g e => exact ⟨hlast result t g e rest rfl, h⟩
    | changed => exact h
    | released => exact h

/-! ### The invariant -/

/-- The entry of the last use is in the map and has its lifetime before it, or that lifetime has
passed. -/
def Owned (s : Shared) (result : RoutingResult) (time : Nat) : Prop :=
  (∃ id, s.slot = some id ∧ (s.entries id).result = result ∧
    time + udpRoutingCacheTtlNs ≤
      if (s.entries id).closing then s.now else (s.entries id).cachedUntil) ∨
  (time + udpRoutingCacheTtlNs ≤ s.now ∧
    ∀ id, s.slot = some id → time + udpRoutingCacheTtlNs ≤ s.born id)

structure Inv (s : Shared) : Prop where
  slot : ∀ id, s.slot = some id → id < s.size
  born : ∀ id, id < s.size → s.born id ≤ s.now
  coherent : Coherent s.history
  current : ∀ event ∈ s.history, event.Current
  last : ∀ result time generation epoch rest,
    s.history = .hit result time generation epoch :: rest →
    generation = s.routingGeneration ∧ epoch = KernelState.epochOf s.device ∧
      Owned s result (lastUse s.history)

/-- What holds of a thread that holds an entry, and of one that will remove it. -/
def Assert (s : Shared) : Job → Prop
  | .sampleNow _ _ id => id < s.size
  | .checkDevice _ _ id now => id < s.size ∧ s.born id ≤ now ∧ now ≤ s.now
  | .checkGeneration _ _ id now _ => id < s.size ∧ s.born id ≤ now ∧ now ≤ s.now
  | .lockRoute _ _ id now _ => id < s.size ∧ s.born id ≤ now ∧ now ≤ s.now
  | .deleteRoute _ _ id => id < s.size ∧ (s.entries id).closing = true
  | .expire id => id < s.size
  | .expireLock id now => id < s.size ∧ now ≤ s.now
  | .expireDelete id => id < s.size ∧ (s.entries id).closing = true
  | _ => True

/-- Entries are never forgotten, and closed for good. -/
structure Grows (s s' : Shared) : Prop where
  size : s.size ≤ s'.size
  now : s.now ≤ s'.now
  born : ∀ id, id < s.size → s'.born id = s.born id
  closing : ∀ id, id < s.size → (s.entries id).closing = true → (s'.entries id).closing = true

instance : Std.Refl Grows where
  refl _ := ⟨le_rfl, le_rfl, fun _ _ => rfl, fun _ _ h => h⟩

instance : IsTrans Shared Grows where
  trans _ _ _ h h' :=
    ⟨h.size.trans h'.size, h.now.trans h'.now,
      fun id hid => (h'.born id (hid.trans_le h.size)).trans (h.born id hid),
      fun id hid hclosing => h'.closing id (hid.trans_le h.size) (h.closing id hid hclosing)⟩

variable {s s' : Shared} {job : Job}

theorem assert_stable (h : Grows s s') (hjob : Assert s job) :
    Assert s' job := by
  have hsize := h.size
  have hnow := h.now
  cases job with
  | sampleNow _ _ id => exact hjob.trans_le hsize
  | expire id => exact hjob.trans_le hsize
  | checkDevice _ _ id now | checkGeneration _ _ id now _ | lockRoute _ _ id now _ =>
    exact ⟨hjob.1.trans_le hsize, h.born id hjob.1 ▸ hjob.2.1, hjob.2.2.trans hnow⟩
  | expireLock id now => exact ⟨hjob.1.trans_le hsize, hjob.2.trans hnow⟩
  | deleteRoute _ _ id | expireDelete id =>
    exact ⟨hjob.1.trans_le hsize, h.closing id hjob.1 hjob.2⟩
  | _ => trivial

/-! ### Sections -/

/-- What is shown of a section. -/
def Sound (s s' : Shared) (jobs : List Job) : Prop :=
  Grows s s' ∧ Inv s' ∧ ∀ job ∈ jobs, Assert s' job

theorem sound_end (h : Inv s) : Sound s s [] :=
  ⟨refl_of Grows s, h, by simp⟩

theorem sound_then (h : Inv s) (hjob : Assert s job) : Sound s s [job] := by
  refine ⟨refl_of Grows s, h, ?_⟩
  intro other hother
  rw [List.mem_singleton.mp hother]
  exact hjob

theorem sound_missed (h : Inv s) (ctx : Context) (saving : Bool) :
    Sound s s (Shared.missed ctx saving) := by
  cases saving with
  | true => exact sound_end h
  | false => exact sound_then h trivial

/-- The entries stay as they are. -/
theorem grows_of_entries (hsize : s'.size = s.size) (hnow : s.now ≤ s'.now)
    (hborn : s'.born = s.born) (hentries : s'.entries = s.entries) : Grows s s' :=
  ⟨hsize.ge, hnow, fun _ _ => by rw [hborn], fun _ _ h => by rw [hentries]; exact h⟩

theorem close_entries (s : Shared) (id other : Nat) :
    ((s.close id).entries other).result = (s.entries other).result ∧
      ((s.close id).entries other).cachedUntil = (s.entries other).cachedUntil ∧
      ((s.close id).entries other).closing = (decide (other = id) || (s.entries other).closing) := by
  unfold Shared.close
  by_cases hid : other = id
  · subst hid
    simp
  · simp [hid]

theorem grows_close (s : Shared) (id : Nat) : Grows s (s.close id) := by
  refine ⟨le_rfl, le_rfl, fun _ _ => rfl, ?_⟩
  intro other _ hclosing
  rw [(close_entries s id other).2.2, hclosing, Bool.or_true]

/-- If the last use was of this entry, its lifetime has passed. -/
def Idle (s : Shared) (id : Nat) : Prop :=
  ∀ result time generation epoch rest,
    s.history = .hit result time generation epoch :: rest → s.slot = some id →
    (s.entries id).result = result → lastUse s.history + udpRoutingCacheTtlNs ≤ s.now

variable {id : Nat}

theorem inv_close (h : Inv s) (hidle : Idle s id) : Inv (s.close id) := by
  refine ⟨h.slot, h.born, h.coherent, h.current, ?_⟩
  intro result time generation epoch rest hhistory
  obtain ⟨hgeneration, hepoch, howned⟩ := h.last result time generation epoch rest hhistory
  refine ⟨hgeneration, hepoch, ?_⟩
  rcases howned with ⟨owner, hslot, hresult, htime⟩ | hpassed
  · refine Or.inl ⟨owner, hslot, (close_entries s id owner).1.trans hresult, ?_⟩
    rw [(close_entries s id owner).2.2, (close_entries s id owner).2.1]
    by_cases hid : owner = id
    · subst hid
      simp only [decide_true, Bool.true_or, if_true]
      exact hidle result time generation epoch rest hhistory hslot hresult
    · simp only [hid, decide_false, Bool.false_or]
      exact htime
  · exact Or.inr hpassed

theorem sound_close (h : Inv s) (hidle : Idle s id)
    (hjob : Assert (s.close id) job) : Sound s (s.close id) [job] := by
  refine ⟨grows_close s id, inv_close h hidle, ?_⟩
  intro other hother
  rw [List.mem_singleton.mp hother]
  exact hjob

theorem closing_close (s : Shared) (id : Nat) : ((s.close id).entries id).closing = true := by
  rw [(close_entries s id id).2.2, decide_eq_true rfl, Bool.true_or]

variable {now : Nat}

/-- An expired entry has not been used for its lifetime. -/
theorem idle_of_expired (h : Inv s)
    (hopen : (s.entries id).closing = false) (hexpired : (s.entries id).cachedUntil ≤ now)
    (hnow : now ≤ s.now) : Idle s id := by
  intro result time generation epoch rest hhistory hslot _
  rcases (h.last result time generation epoch rest hhistory).2.2 with
    ⟨owner, howner, _, htime⟩ | hpassed
  · rw [hslot, Option.some.injEq] at howner
    subst howner
    rw [hopen] at htime
    exact (htime.trans hexpired).trans hnow
  · exact hpassed.1

/-- The entry of the last use is not stale. -/
theorem idle_of_stale (h : Inv s)
    (hstale : s.isStale (s.entries id).result = true) : Idle s id := by
  intro result time generation epoch rest hhistory _ hresult
  obtain ⟨hgeneration, hepoch, _⟩ := h.last result time generation epoch rest hhistory
  have hcurrent := h.current (.hit result time generation epoch) (hhistory ▸ List.mem_cons_self)
  unfold Shared.isStale at hstale
  rw [hresult, hcurrent.1, hcurrent.2, hgeneration, hepoch] at hstale
  cases hdevice : s.device with
  | none => simp [hdevice] at hstale
  | some device => simp [hdevice, KernelState.epochOf] at hstale

/-- A current decision that the packet may use belongs to the current generation and epoch. -/
theorem current_of_not_stale {result : RoutingResult}
    (h : s.isStale result = false) (hnone : s.device = none → result.routeEpoch = 0) :
    result.generation = s.routingGeneration ∧
      result.routeEpoch = KernelState.epochOf s.device := by
  unfold Shared.isStale at h
  rw [Bool.or_eq_false_iff, decide_eq_false_iff_not, not_not] at h
  refine ⟨h.2, ?_⟩
  cases hdevice : s.device with
  | none => exact hnone hdevice
  | some device =>
    have hepoch := h.1
    rw [hdevice, Option.any_some, decide_eq_false_iff_not, not_not] at hepoch
    exact hepoch.symm

theorem grows_use (s : Shared) (hopen : (s.entries id).closing = false) (now : Nat) :
    Grows s (s.use id now) := by
  refine ⟨le_rfl, le_rfl, fun _ _ => rfl, ?_⟩
  intro other _ hclosing
  by_cases hother : other = id
  · subst hother
    rw [hopen] at hclosing
    cases hclosing
  · simpa [Shared.use, hother] using hclosing

/-- The clock of a packet that uses the entry in the map is not behind those before it. -/
theorem lastUse_le (h : Inv s) (hborn : s.born id ≤ now)
    (hslot : s.slot = some id) (hopen : (s.entries id).closing = false)
    (huntil : (s.entries id).cachedUntil ≤ now + udpRoutingCacheTtlNs) :
    lastUse s.history ≤ now := by
  cases hhistory : s.history with
  | nil => exact Nat.zero_le now
  | cons event rest =>
    cases event with
    | changed => exact Nat.zero_le now
    | released => exact Nat.zero_le now
    | hit result time generation epoch =>
      have howned := (h.last result time generation epoch rest hhistory).2.2
      rw [hhistory] at howned
      rcases howned with ⟨owner, howner, _, htime⟩ | ⟨_, hpassed⟩
      · cases hslot.symm.trans howner
        rw [hopen] at htime
        exact Nat.le_of_add_le_add_right (htime.trans huntil)
      · exact (Nat.le_add_right _ _).trans ((hpassed id hslot).trans hborn)

/-- The spin-lock section of a packet. -/
theorem lockRoute_sound {ctx : Context} {saving stale : Bool}
    (h : Inv s) (hjob : Assert s (.lockRoute ctx saving id now stale))
    (hok : Undisturbed s (.lockRoute ctx saving id now stale)) :
    Sound s (s.lockRoute ctx saving id now stale).1 (s.lockRoute ctx saving id now stale).2 := by
  obtain ⟨hid, hborn, hnow⟩ := hjob
  unfold Shared.lockRoute
  dsimp only
  cases hopen : (s.entries id).closing with
  | true => exact sound_end h
  | false =>
    obtain ⟨hstale, huse⟩ := hok hopen
    simp only [Bool.false_eq_true, if_false]
    split
    · next hend =>
        refine sound_close h ?_ ⟨hid, closing_close s id⟩
        rw [Bool.or_eq_true, decide_eq_true_eq] at hend
        rcases hend with hstale' | hexpired
        · exact idle_of_stale h (hstale ▸ hstale')
        · exact idle_of_expired h hopen hexpired hnow
    · next hend =>
        rw [Bool.or_eq_true, not_or, Bool.not_eq_true, decide_eq_true_eq, not_le] at hend
        obtain ⟨hslot, huntil, hnone⟩ := huse hend.1 hend.2
        have hcurrent := current_of_not_stale (hstale ▸ hend.1) hnone
        have hlater := lastUse_le h hborn hslot hopen huntil
        refine ⟨grows_use s hopen now, ⟨h.slot, h.born, ?_, ?_, ?_⟩, by simp [Assert]⟩
        · refine coherent_hit h.coherent ?_
          intro result t g e rest hhistory hshort
          rcases (h.last result t g e rest hhistory).2.2 with
            ⟨owner, howner, hresult, _⟩ | ⟨_, hpassed⟩
          · cases hslot.symm.trans howner
            exact hresult
          · exact absurd ((hpassed id hslot).trans hborn) (not_le.mpr hshort)
        · intro event hevent
          rcases List.mem_cons.mp hevent with rfl | hold
          · exact hcurrent
          · exact h.current event hold
        · intro result time generation epoch rest hhistory
          cases hhistory
          refine ⟨rfl, rfl, Or.inl ⟨id, hslot, ?_, ?_⟩⟩
          · simp [Shared.use]
          · simp [Shared.use, hopen, lastUse, hlater]

/-- The removal of a closed entry. -/
theorem sound_delete {jobs : List Job} (h : Inv s)
    (hclosing : (s.entries id).closing = true) (hok : s.slot = some id ∨ s.slot = none)
    (hjobs : Inv { s with slot := none } →
      Sound { s with slot := none } { s with slot := none } jobs) :
    Sound s { s with slot := none } jobs := by
  have hinv : Inv { s with slot := none } := by
    refine ⟨by simp, h.born, h.coherent, h.current, ?_⟩
    intro result time generation epoch rest hhistory
    obtain ⟨hgeneration, hepoch, howned⟩ := h.last result time generation epoch rest hhistory
    refine ⟨hgeneration, hepoch, Or.inr ⟨?_, by simp⟩⟩
    rcases howned with ⟨owner, hslot, _, htime⟩ | hpassed
    · rcases hok with hsame | hnone
      · rw [hsame, Option.some.injEq] at hslot
        subst hslot
        rw [hclosing] at htime
        exact htime
      · rw [hnone] at hslot
        cases hslot
    · exact hpassed.1
  exact ⟨grows_of_entries rfl le_rfl rfl rfl, hinv, (hjobs hinv).2.2⟩

theorem insert_sound {ctx : Context} {result : RoutingResult} {cachedUntil : Nat} (h : Inv s) :
    Sound s (s.insert ctx result cachedUntil).1 (s.insert ctx result cachedUntil).2 := by
  unfold Shared.insert
  cases hslot : s.slot with
  | some => exact sound_then h trivial
  | none =>
    refine ⟨⟨Nat.le_succ _, le_rfl, ?_, ?_⟩, ⟨?_, ?_, h.coherent, h.current, ?_⟩, by simp [Assert]⟩
    · intro id hid
      exact Function.update_of_ne hid.ne s.now s.born
    · intro id hid hclosing
      simpa [hid.ne] using hclosing
    · intro id hid
      cases hid
      exact Nat.lt_succ_self _
    · intro id hid
      by_cases hnew : id = s.size
      · subst hnew
        simp
      · simpa [hnew] using h.born id (by simp only at hid; omega)
    · intro last time generation epoch rest hhistory
      obtain ⟨hgeneration, hepoch, howned⟩ := h.last last time generation epoch rest hhistory
      refine ⟨hgeneration, hepoch, Or.inr ?_⟩
      rcases howned with ⟨owner, howner, _⟩ | hpassed
      · rw [hslot] at howner
        cases howner
      · refine ⟨hpassed.1, ?_⟩
        intro id hid
        cases hid
        simpa using hpassed.1

/-- After a change or a release nothing is said of earlier uses. -/
theorem sound_reset {event : Event} (h : Inv s)
    (hhistory : s'.history = event :: s.history)
    (hevent : event = .changed ∨ event = .released)
    (hslot : s'.slot = s.slot ∨ s'.slot = none) (hentries : s'.entries = s.entries)
    (hsize : s'.size = s.size) (hborn : s'.born = s.born) (hnow : s'.now = s.now) :
    Sound s s' [] := by
  refine ⟨grows_of_entries hsize hnow.ge hborn hentries, ⟨?_, ?_, ?_, ?_, ?_⟩, by simp⟩
  · intro id hid
    rw [hsize]
    rcases hslot with hsame | hnone
    · exact h.slot id (hsame ▸ hid)
    · rw [hnone] at hid
      cases hid
  · rw [hsize, hborn, hnow]
    exact h.born
  · rw [hhistory]
    rcases hevent with rfl | rfl
    · exact h.coherent
    · exact h.coherent
  · rw [hhistory]
    intro other hother
    rcases List.mem_cons.mp hother with rfl | hold
    · rcases hevent with rfl | rfl <;> trivial
    · exact h.current other hold
  · intro result time generation epoch rest hlast
    rw [hhistory] at hlast
    rcases hevent with rfl | rfl <;> cases hlast

theorem exec_sound (choice : Option RoutingResult) (h : Inv s)
    (hjob : Assert s job) (hok : Undisturbed s job) :
    Sound s (s.exec job choice).1 (s.exec job choice).2 := by
  cases job with
  | packet => exact sound_then h trivial
  | lookupDevice generation | lookupBinding ctx | arm ctx =>
    unfold Shared.exec
    dsimp only
    split
    · exact sound_end h
    · exact sound_then h trivial
  | lookupRoute ctx saving =>
    unfold Shared.exec
    dsimp only
    split
    · exact sound_missed h ctx saving
    · next id hid => exact sound_then h (h.slot id hid)
  | sampleNow ctx saving id => exact sound_then h ⟨hjob, h.born id hjob, le_rfl⟩
  | checkDevice ctx saving id now =>
    unfold Shared.exec
    dsimp only
    split
    · exact sound_end h
    · exact sound_then h hjob
  | checkGeneration ctx saving id now stale => exact sound_then h hjob
  | lockRoute ctx saving id now stale => exact lockRoute_sound h hjob hok
  | deleteRoute ctx saving id => exact sound_delete h hjob.2 hok fun h' => sound_missed h' ctx saving
  | route ctx =>
    cases choice with
    | none => exact sound_end h
    | some result => exact sound_then h trivial
  | stamp ctx result => exact sound_then h trivial
  | insert ctx result cachedUntil => exact insert_sound h
  | selected ctx result => exact sound_end h
  | expire id => exact sound_then h ⟨hjob, le_rfl⟩
  | expireLock id now =>
    unfold Shared.exec
    dsimp only
    cases hopen : (s.entries id).closing with
    | true => exact sound_end h
    | false =>
      simp only [Bool.false_eq_true, if_false]
      split
      · exact sound_end h
      · next hexpired =>
          exact sound_close h (idle_of_expired h hopen (not_lt.mp hexpired) hjob.2)
            ⟨hjob.1, closing_close s id⟩
  | expireDelete id => exact sound_delete h hjob.2 hok sound_end
  | releaseDecision => exact sound_reset h rfl (Or.inr rfl) (Or.inr rfl) rfl rfl rfl rfl
  | releaseBinding => exact sound_reset h rfl (Or.inr rfl) (Or.inl rfl) rfl rfl rfl rfl

/-- Time passes. -/
theorem sound_pass (h : Inv s) (ns : Nat) : Sound s { s with now := s.now + ns } [] := by
  have hle : s.now ≤ s.now + ns := Nat.le_add_right _ _
  refine ⟨grows_of_entries rfl hle rfl rfl,
    ⟨h.slot, fun id hid => (h.born id hid).trans hle, h.coherent, h.current, ?_⟩, by simp⟩
  intro result time generation epoch rest hhistory
  obtain ⟨hgeneration, hepoch, howned⟩ := h.last result time generation epoch rest hhistory
  refine ⟨hgeneration, hepoch, ?_⟩
  rcases howned with ⟨owner, hslot, hresult, htime⟩ | hpassed
  · refine Or.inl ⟨owner, hslot, hresult, ?_⟩
    cases hclosing : (s.entries owner).closing with
    | true =>
      rw [hclosing] at htime
      exact htime.trans hle
    | false =>
      rw [hclosing] at htime
      exact htime
  · exact Or.inr ⟨hpassed.1.trans hle, hpassed.2⟩

theorem call_sound (c : Shared.Call) (h : Inv s) :
    Sound s (s.call c).1 (s.call c).2 := by
  cases c with
  | packet => exact sound_then h trivial
  | timer id =>
    unfold Shared.call
    dsimp only
    split
    · next hid => exact sound_then h hid
    · exact sound_end h
  | bind routeEpoch =>
    unfold Shared.call
    dsimp only
    split
    · exact sound_end h
    · exact ⟨grows_of_entries rfl le_rfl rfl rfl,
        ⟨h.slot, h.born, h.coherent, h.current, h.last⟩, by simp [Assert]⟩
  | pass ns => exact sound_pass h ns
  | setGeneration generation =>
    unfold Shared.call
    dsimp only
    by_cases hsame : generation = s.routingGeneration
    · rw [if_pos hsame, hsame]
      exact sound_end h
    · rw [if_neg hsame]
      exact sound_reset h rfl (Or.inl rfl) (Or.inl rfl) rfl rfl rfl rfl
  | setDevice device =>
    unfold Shared.call
    dsimp only
    by_cases hsame : KernelState.epochOf device = KernelState.epochOf s.device
    · rw [if_pos hsame]
      refine ⟨grows_of_entries rfl le_rfl rfl rfl,
        ⟨h.slot, h.born, h.coherent, h.current, ?_⟩, by simp⟩
      intro result time generation epoch rest hhistory
      obtain ⟨hgeneration, hepoch, howned⟩ := h.last result time generation epoch rest hhistory
      exact ⟨hgeneration, hepoch.trans hsame.symm, howned⟩
    · rw [if_neg hsame]
      exact sound_reset h rfl (Or.inl rfl) (Or.inl rfl) rfl rfl rfl rfl

/-! ### Runs -/

theorem cache_guarantee : Guarantee (program.machine Undisturbed) Inv Assert Grows where
  stable := assert_stable
  call h hcall := by
    obtain ⟨c, hc⟩ := hcall
    have hsound := call_sound c h
    rwa [show Shared.call _ c = _ from hc] at hsound
  exec h hjob hexec := by
    obtain ⟨hok, choice, hchoice⟩ := hexec
    have hsound := exec_sound choice h hjob hok
    rwa [show Shared.exec _ _ choice = _ from hchoice] at hsound

/-- No thread runs and the source has no decision. -/
def Idling (c : Config Shared Job) : Prop :=
  (∀ t, c.threads t = []) ∧ c.shared.slot = none ∧ c.shared.size = 0 ∧ c.shared.history = []

/-- Nothing runs, at time zero. -/
def sampleIdle : Config Shared Job where
  shared :=
    { now := 0, routingGeneration := 1, device := none,
      entries := fun _ => ⟨{}, 0, false⟩, born := fun _ => 0 }
  threads _ := []

theorem idling_sample : Idling sampleIdle := ⟨fun _ => rfl, rfl, rfl, rfl⟩

/-- A packet in thread `t` that finds no decision and is routed to `outbound`, up to the use of its
decision. -/
def routedPacket (t : Nat) (outbound : BitVec 8) : List (Move Shared.Call (Option RoutingResult)) :=
  [.call t .packet, .exec t none, .exec t none, .exec t none, .exec t none,
    .exec t (some { outbound })] ++ List.replicate 8 (.exec t none)

/-- A packet that finds a decision. -/
def cachedPacket (t : Nat) : List (Move Shared.Call (Option RoutingResult)) :=
  .call t .packet :: List.replicate 8 (.exec t none)

/-- The source is used, bound and idle for its lifetime.  The timer closes its entry, userspace
releases the binding with the entry, and the next packet inserts another one; then the timer removes
that, and the packet after it is routed anew. -/
def delayedDelete : List (Move Shared.Call (Option RoutingResult)) :=
  routedPacket 1 2 ++
  [.call 2 (.bind 0), .call 3 (.pass udpRoutingCacheTtlNs), .call 4 (.timer 0), .exec 4 none,
    .exec 4 none, .exec 2 none, .exec 2 none] ++
  routedPacket 5 2 ++ [.exec 4 none] ++ routedPacket 6 3

end Dae.UdpCache
