import Dae.Mitm.RequestReplay
import Dae.Lib.Result

/-!
# Retried uploads are exact

Which body has read the source is settled by the order of the bodies: they are closed one before the
other, and a body that may still begin to read is the only one (`Turns`).  What is recorded is what
was taken from the source, up to the chunk that a read is about to record, unless no regular end of
the source can follow (`Inv.incomplete`); so the recording is complete when it is declared so.

* `act_effect` says once what an action does, and one lemma for each effect keeps `Inv`.
-/

namespace Dae

namespace RequestReplay

variable {α E : Type} [DecidableEq E] {content : List α} {terminal : BodyError E}
  {s s' : RequestReplay α E}

/-- What the actions do, by the body they are about. -/
inductive Effect (terminal : BodyError E) (s : RequestReplay α E) : RequestReplay α E → Prop where
  | beginRead {i b} : s.bodies[i]? = some b → b.kind = .recording → b.point = .idle →
    Effect terminal s (s.beginRead i b)
  | readSource {i b n choice err} : s.bodies[i]? = some b → b.kind = .recording →
    b.point = .reading → s.sourceError terminal n choice = some err →
    Effect terminal s (s.readSource i b n err)
  | record {i b chunk err memory} : s.bodies[i]? = some b → b.kind = .recording →
    b.point = .recording chunk err → Effect terminal s (s.record i b chunk err memory)
  | readCursor {i b data n} : s.bodies[i]? = some b → b.kind = .cursor data →
    Effect terminal s (s.readCursor i b data n)
  | closeRecording {i b} : s.bodies[i]? = some b → b.kind = .recording →
    Effect terminal s (s.closeRecording i b)
  | closeCursor {i b data} : s.bodies[i]? = some b → b.kind = .cursor data →
    Effect terminal s (s.setBody i { b with closed := true })
  | closeSource : 0 < s.closing →
    Effect terminal s { s with closing := s.closing - 1, closes := s.closes + 1 }
  | openBody : (∀ b ∈ s.bodies, b.closed = true) → Effect terminal s s.openBody
  | release : Effect terminal s s.release

theorem act_effect {action : ReplayAction E} (h : s.act terminal action = some s') :
    Effect terminal s s' := by
  cases action with
  | beginRead i =>
    simp only [act] at h
    split at h
    next hb => cases h; exact .beginRead hb rfl rfl
    next => cases h
  | readSource i n err =>
    simp only [act] at h
    split at h
    next hb =>
      obtain ⟨e, he, rfl⟩ := Option.map_eq_some_iff.mp h
      exact .readSource hb rfl rfl he
    next => cases h
  | record i memory =>
    simp only [act] at h
    split at h
    next hb => cases h; exact .record hb rfl rfl
    next => cases h
  | readCursor i n =>
    simp only [act] at h
    split at h
    next hb => cases h; exact .readCursor hb rfl
    next => cases h
  | closeBody i =>
    simp only [act] at h
    split at h
    next hb => cases h; exact .closeRecording hb rfl
    next hb => cases h; exact .closeCursor hb rfl
    next => cases h
  | closeSource =>
    simp only [act] at h
    split at h
    next hpos => cases h; exact .closeSource hpos
    next => cases h
  | openBody =>
    simp only [act] at h
    split at h
    next hall => cases h; exact .openBody (by simpa using hall)
    next => cases h
  | release => cases h; exact .release

end RequestReplay

def BodyKind.isRecording {α : Type} : BodyKind α → Bool
  | .recording => true
  | .cursor _ => false

namespace AttemptBody

variable {α E : Type}

/-- Bytes that were read from the source and are not recorded yet. -/
def inFlight (b : AttemptBody α E) : List α :=
  match b.point with
  | .recording chunk _ => chunk
  | _ => []

/-- A body that may read the source. -/
def live (b : AttemptBody α E) : Bool := b.kind.isRecording && !b.closed

theorem live_iff {b : AttemptBody α E} : b.live = true ↔ b.kind = .recording ∧ b.closed = false := by
  unfold live
  cases b.kind <;> simp [BodyKind.isRecording]

end AttemptBody

/-! ### The bodies in turn -/

/-- Only the last body is not closed, one body at most has been read from the source, and a body that
may still begin to read it is the only one. -/
structure Turns {α E : Type} (bodies : List (AttemptBody α E)) : Prop where
  last : ∀ (i : Nat) (b : AttemptBody α E), bodies[i]? = some b → b.closed = false →
    i + 1 = bodies.length
  unique : ∀ (i j : Nat) (b b' : AttemptBody α E), bodies[i]? = some b → bodies[j]? = some b' →
    b.started = true → b'.started = true → i = j
  alone : ∀ b ∈ bodies, b.live = true → b.started = false → ∀ b' ∈ bodies, b'.started = false

namespace Turns

variable {α E : Type} {bodies : List (AttemptBody α E)} {i : Nat} {b b' : AttemptBody α E}

theorem getElem?_set_cases {β : Type} {l : List β} {i j : Nat} {x y : β}
    (h : (l.set i y)[j]? = some x) : j = i ∧ x = y ∨ j ≠ i ∧ l[j]? = some x := by
  by_cases hj : j = i
  · subst hj
    have hlt : j < l.length := by simpa using (List.getElem?_eq_some_iff.mp h).1
    rw [List.getElem?_set_self hlt] at h
    exact .inl ⟨rfl, (Option.some.inj h).symm⟩
  · rw [List.getElem?_set_ne (Ne.symm hj)] at h
    exact .inr ⟨hj, h⟩

/-- A body moves on, is started or is closed. -/
theorem set (h : Turns bodies) (hb : bodies[i]? = some b)
    (hclosed : b'.closed = false → b.closed = false)
    (hstarted : b'.started = true → b.started = true ∨
      b.closed = false ∧ ∀ x ∈ bodies, x.started = false)
    (hlive : b'.live = true → b'.started = false → b.live = true ∧ b.started = false) :
    Turns (bodies.set i b') := by
  refine ⟨fun j x hx hc => ?_, fun j k x y hx hy hsx hsy => ?_, fun x hx hl hs y hy => ?_⟩
  · rw [List.length_set]
    rcases getElem?_set_cases hx with ⟨rfl, rfl⟩ | ⟨-, hold⟩
    · exact h.last j b hb (hclosed hc)
    · exact h.last j x hold hc
  · rcases getElem?_set_cases hx with ⟨rfl, rfl⟩ | ⟨-, hxold⟩ <;>
      rcases getElem?_set_cases hy with ⟨rfl, rfl⟩ | ⟨-, hyold⟩
    · rfl
    · rcases hstarted hsx with hbs | ⟨-, hnone⟩
      · exact h.unique j k b y hb hyold hbs hsy
      · simp [hnone y (List.mem_of_getElem? hyold)] at hsy
    · rcases hstarted hsy with hbs | ⟨-, hnone⟩
      · exact h.unique j k x b hxold hb hsx hbs
      · simp [hnone x (List.mem_of_getElem? hxold)] at hsx
    · exact h.unique j k x y hxold hyold hsx hsy
  · obtain ⟨j, hj⟩ := List.mem_iff_getElem?.mp hx
    rcases getElem?_set_cases hj with ⟨rfl, rfl⟩ | ⟨hne, hold⟩
    · obtain ⟨hbl, hbs⟩ := hlive hl hs
      rcases List.mem_or_eq_of_mem_set hy with hyold | rfl
      · exact h.alone b (List.mem_of_getElem? hb) hbl hbs y hyold
      · exact hs
    · have hnone := h.alone x (List.mem_of_getElem? hold) hl hs
      rcases List.mem_or_eq_of_mem_set hy with hyold | rfl
      · exact hnone y hyold
      · by_contra ht
        rcases hstarted (by simpa using ht) with hbs | ⟨hbc, -⟩
        · simp [hnone b (List.mem_of_getElem? hb)] at hbs
        · have hjlast := h.last j x hold (AttemptBody.live_iff.mp hl).2
          have hilast := h.last i b hb hbc
          omega

/-- The next body, when all others are closed. -/
theorem append (h : Turns bodies) (hall : ∀ x ∈ bodies, x.closed = true)
    (hnew : b.started = false) (hfresh : b.live = true → ∀ x ∈ bodies, x.started = false) :
    Turns (bodies ++ [b]) := by
  refine ⟨fun j x hx hc => ?_, fun j k x y hx hy hsx hsy => ?_, fun x hx hl hs y hy => ?_⟩
  · by_cases hj : j < bodies.length
    · rw [List.getElem?_append_left hj] at hx
      simp [hall x (List.mem_of_getElem? hx)] at hc
    · have hlt := (List.getElem?_eq_some_iff.mp hx).1
      rw [List.length_append, List.length_singleton] at hlt ⊢
      omega
  · have hold : ∀ {j : Nat} {x : AttemptBody α E}, (bodies ++ [b])[j]? = some x → x.started = true →
        bodies[j]? = some x := by
      intro j x hx hsx
      by_cases hj : j < bodies.length
      · rwa [List.getElem?_append_left hj] at hx
      · rw [List.getElem?_append_right (by omega)] at hx
        obtain rfl : b = x := by
          have := List.mem_of_getElem? hx
          exact (List.mem_singleton.mp this).symm
        simp [hnew] at hsx
    exact h.unique j k x y (hold hx hsx) (hold hy hsy) hsx hsy
  · rcases List.mem_append.mp hx with hold | hlast
    · simp [AttemptBody.live_iff, hall x hold] at hl
    · rw [List.mem_singleton.mp hlast] at hl
      rcases List.mem_append.mp hy with hyold | hylast
      · exact hfresh hl y hyold
      · rwa [List.mem_singleton.mp hylast]

/-- While one body is not closed, all others are. -/
theorem closed_of_ne (h : Turns bodies) (hb : bodies[i]? = some b) (hopen : b.closed = false)
    {j : Nat} {x : AttemptBody α E} (hx : bodies[j]? = some x) (hne : j ≠ i) : x.closed = true := by
  by_contra hc
  have hi := h.last i b hb hopen
  have hj := h.last j x hx (by simpa using hc)
  omega

end Turns

namespace RequestReplay

variable {α E : Type} {content : List α} {terminal : BodyError E} {s s' : RequestReplay α E}

/-! ### The invariant -/

/-- What the reads of a body have returned. -/
structure BodyOk (content : List α) (terminal : BodyError E) (s : RequestReplay α E)
    (b : AttemptBody α E) : Prop where
  started : b.started = true → b.kind = .recording ∧ b.got ++ b.inFlight = s.taken
  fresh : b.started = false → b.point = .idle ∧
    (b.kind = .recording → b.got = [] ∧ (b.closed = false → b.ended = none))
  flight : ∀ chunk e, b.point = .recording chunk (some e) →
    e = terminal ∧ s.rest = [] ∨ e ≠ .eof ∧ s.sourceHeld = false
  ended : ∀ e, b.ended = some e → b.closed = false ∨ e = .eof → e = terminal ∧ b.got = content
  cursor : ∀ data, b.kind = .cursor data → data = content ∧ terminal = .eof ∧ b.got <+: data

/-- The bodies, the source and the recording.  An incomplete recording holds what was taken from the
source, unless no regular end can follow. -/
structure Inv (content : List α) (terminal : BodyError E) (s : RequestReplay α E) : Prop where
  split : s.taken ++ s.rest = content
  bodies : ∀ b ∈ s.bodies, BodyOk content terminal s b
  turns : Turns s.bodies
  untouched : (∀ b ∈ s.bodies, b.started = false) → s.taken = []
  fresh : s.err = none → s.view = .absent →
    s.recorded = [] ∧ s.sourceHeld = true ∧ ∀ b ∈ s.bodies, b.started = false
  incomplete : s.err = some .incompleteUpload → ∃ b ∈ s.bodies, b.started = true ∧
    (s.recorded ++ b.inFlight = s.taken ∨ terminal ≠ .eof ∨ b.closed = true ∧ b.point = .idle)
  complete : ∀ data, s.view = .live data →
    data = content ∧ terminal = .eof ∧ data.length ≤ requestReplayLimit
  closedView : s.view = .closed → s.err ≠ none
  readers : s.readers = (s.bodies.countP AttemptBody.live : Nat)
  held : ∀ b ∈ s.bodies, b.live = true → s.sourceHeld = true
  closedOnce : s.closing + s.closes = if s.sourceHeld then 0 else 1
  released : s.released = true → s.err = some .closedPipe ∧ (s.sourceHeld = true → s.readers ≠ 0)
  safe : s.panicked = false

variable {b : AttemptBody α E}

/-- What a body has returned stays right while the source is not read. -/
theorem BodyOk.congr (h : BodyOk content terminal s b)
    (htaken : s'.taken = s.taken) (hrest : s'.rest = s.rest)
    (hheld : s.sourceHeld = false → s'.sourceHeld = false) : BodyOk content terminal s' b where
  started := by
    rw [htaken]
    exact h.started
  fresh := h.fresh
  flight chunk e hpoint := by
    rw [hrest]
    exact (h.flight chunk e hpoint).imp_right fun hbroken => ⟨hbroken.1, hheld hbroken.2⟩
  ended := h.ended
  cursor := h.cursor

variable {i : Nat}

/-- The only body that was started. -/
theorem Inv.eq_of_started (h : Inv content terminal s) {b' : AttemptBody α E}
    (hb : s.bodies[i]? = some b) (hs : b.started = true) (hb' : b' ∈ s.bodies)
    (hs' : b'.started = true) : b' = b := by
  obtain ⟨j, hj⟩ := List.mem_iff_getElem?.mp hb'
  obtain rfl := h.turns.unique j i b' b hj hb hs' hs
  exact Option.some.inj (hj.symm.trans hb)

theorem countP_set_same {β : Type} {p : β → Bool} {l : List β} {x y : β}
    (hx : l[i]? = some x) (hsame : p y = p x) : (l.set i y).countP p = l.countP p := by
  obtain ⟨hlt, rfl⟩ := List.getElem?_eq_some_iff.mp hx
  rw [List.countP_set hlt, hsame]
  have hpos : p l[i] = true → 0 < l.countP p := fun hp =>
    List.countP_pos_iff.mpr ⟨l[i], List.getElem_mem hlt, hp⟩
  split
  next hp =>
    have := hpos hp
    omega
  next => rfl

/-- A body moves without reading the source or being opened. -/
theorem Inv.setBody (h : Inv content terminal s) {b' : AttemptBody α E}
    (hb : s.bodies[i]? = some b) (hok : BodyOk content terminal s b')
    (hclosed : b.closed = true → b'.closed = true) (hstarted : b'.started = b.started)
    (hlive : b'.live = b.live) (hflight : b'.inFlight = b.inFlight)
    (hidle : b.point = .idle → b'.point = .idle) :
    Inv content terminal (s.setBody i b') := by
  have hmem := List.mem_of_getElem? hb
  have hclosed' : b'.closed = false → b.closed = false := fun hc => by
    by_contra hn
    simp [hclosed (by simpa using hn)] at hc
  refine {
    h with
    bodies := List.forall_mem_set (fun x hx => (h.bodies x hx).congr rfl rfl id)
      (hok.congr rfl rfl id)
    turns := ?_, untouched := fun hnone => ?_, fresh := fun he hv => ?_, incomplete := fun he => ?_
    readers := h.readers.trans (congrArg _ (countP_set_same hb hlive).symm)
    held := List.forall_mem_set h.held fun hl => h.held b hmem (hlive ▸ hl) }
  · exact h.turns.set hb hclosed' (fun hs => .inl (hstarted ▸ hs)) fun hl hs =>
      ⟨hlive ▸ hl, hstarted ▸ hs⟩
  · exact h.untouched (List.forall_mem_of_set hb hnone hstarted.symm.trans)
  · obtain ⟨hrecorded, hheld, hnone⟩ := h.fresh he hv
    exact ⟨hrecorded, hheld, List.forall_mem_set hnone (hstarted.trans (hnone b hmem))⟩
  · refine List.exists_mem_set hb (h.incomplete he) ?_
    rintro ⟨hs, hcases⟩
    refine ⟨hstarted.trans hs, ?_⟩
    rw [hflight]
    exact hcases.imp_right (Or.imp_right fun hd => ⟨hclosed hd.1, hidle hd.2⟩)

/-! ### Reading the source -/

/-- An unclosed body of the source that was not read is the first to read it. -/
theorem Inv.taken_nil (h : Inv content terminal s) (hb : b ∈ s.bodies)
    (hlive : b.live = true) (hs : b.started = false) : s.taken = [] :=
  h.untouched (h.turns.alone b hb hlive hs)

/-- A closed body only reports that it is closed. -/
theorem BodyOk.ended_closed (h : BodyOk content terminal s b)
    (hclosed : b.closed = true) : BodyOk content terminal s { b with ended := some .closedPipe } := by
  have hnot : b.closed ≠ false := by simp [hclosed]
  refine { h with
    fresh := fun hs => ⟨(h.fresh hs).1, fun hk => ⟨((h.fresh hs).2 hk).1, fun hc => absurd hc hnot⟩⟩
    ended := fun e he hend => ?_ }
  obtain rfl := Option.some.inj he
  rcases hend with hopen | heof
  · exact absurd hopen hnot
  · cases heof

theorem startedError_cases (s : RequestReplay α E) :
    s.err = none ∧ s.view = .absent ∧ s.startedError = some .incompleteUpload ∨
      (s.err = none → s.view ≠ .absent) ∧ s.startedError = s.err := by
  unfold startedError
  cases herr : s.err with
  | some e => exact .inr ⟨fun hn => (by cases hn), rfl⟩
  | none => cases hview : s.view <;> simp

theorem beginRead_inv (h : Inv content terminal s)
    (hb : s.bodies[i]? = some b) (hkind : b.kind = .recording) (hidle : b.point = .idle) :
    Inv content terminal (s.beginRead i b) := by
  have hmem := List.mem_of_getElem? hb
  have hbody := h.bodies b hmem
  unfold beginRead
  split
  next hclosed => exact h.setBody hb (hbody.ended_closed hclosed) (fun _ => hclosed) rfl rfl rfl id
  next hopen =>
    have hopen : b.closed = false := by simpa using hopen
    have hlive : b.live = true := AttemptBody.live_iff.mpr ⟨hkind, hopen⟩
    have hheld := h.held b hmem hlive
    have hmem' : { b with started := true, point := .reading } ∈
        s.bodies.set i { b with started := true, point := .reading } :=
      List.mem_set (List.getElem?_eq_some_iff.mp hb).1 _
    have hnoflight : b.inFlight = [] := by simp [AttemptBody.inFlight, hidle]
    have hgot : b.got = s.taken := by
      cases hs : b.started with
      | true =>
        have := (hbody.started hs).2
        rwa [hnoflight, List.append_nil] at this
      | false => rw [((hbody.fresh hs).2 hkind).1, h.taken_nil hmem hlive hs]
    have hnone : b.started = false → ∀ x ∈ s.bodies, x.started = false :=
      h.turns.alone b hmem hlive
    refine {
      h with
      bodies := List.forall_mem_set (fun x hx => (h.bodies x hx).congr rfl rfl id) ?_
      turns := ?_, untouched := fun hall => ?_, fresh := fun he hv => ?_
      incomplete := fun he => ?_, closedView := fun hv => ?_, readers := ?_, held := fun _ _ _ => hheld
      released := fun hr => ?_, safe := by simp [setBody, h.safe, hheld] }
    · exact {
        started := fun _ => ⟨hkind, (List.append_nil b.got).trans hgot⟩
        fresh := fun hs => by cases hs
        flight := fun chunk e hp => by cases hp
        ended := hbody.ended
        cursor := hbody.cursor }
    · refine h.turns.set hb id (fun _ => ?_) fun _ hs => by cases hs
      cases hs : b.started with
      | true => exact .inl rfl
      | false => exact .inr ⟨hopen, hnone hs⟩
    · cases hall _ hmem'
    · change s.startedError = none at he
      rcases startedError_cases s with ⟨-, -, heq⟩ | ⟨hnot, heq⟩
      · rw [heq] at he
        cases he
      · exact absurd hv (hnot (heq ▸ he))
    · refine ⟨_, hmem', rfl, ?_⟩
      change s.recorded ++ [] = s.taken ∨ terminal ≠ .eof ∨ b.closed = true ∧ _
      change s.startedError = _ at he
      rw [List.append_nil]
      rcases startedError_cases s with ⟨herr, hview, -⟩ | ⟨-, heq⟩
      · obtain ⟨hrecorded, -, hall⟩ := h.fresh herr hview
        exact .inl (hrecorded.trans (h.untouched hall).symm)
      · obtain ⟨x, hx, hxs, hcases⟩ := h.incomplete (heq ▸ he)
        have hbs : b.started = true := by
          by_contra hs
          simp [hnone (by simpa using hs) x hx] at hxs
        obtain rfl := h.eq_of_started hb hbs hx hxs
        rw [hnoflight, List.append_nil] at hcases
        exact hcases.imp_right (Or.imp_right fun hd => absurd (hopen.symm.trans hd.1) (by simp))
    · change s.startedError ≠ none
      rcases startedError_cases s with ⟨-, -, heq⟩ | ⟨-, heq⟩
      · simp [heq]
      · exact heq ▸ h.closedView hv
    · have hcount : (s.bodies.set i { b with started := true, point := .reading }).countP
          AttemptBody.live = s.bodies.countP AttemptBody.live := countP_set_same hb rfl
      exact h.readers.trans (congrArg _ hcount.symm)
    · obtain ⟨herr, hreaders⟩ := h.released hr
      refine ⟨?_, hreaders⟩
      change s.startedError = _
      rcases startedError_cases s with ⟨hn, -, -⟩ | ⟨-, heq⟩
      · rw [herr] at hn
        cases hn
      · exact heq.trans herr

variable {n : Nat}

/-- The error of a read: the end of the source, or the failure of one that is being closed. -/
theorem sourceError_spec [DecidableEq E] (h : Inv content terminal s)
    {choice : SourceError E} {err : Option (BodyError E)}
    (herr : s.sourceError terminal n choice = some err) (e : BodyError E) (he : err = some e) :
    e = terminal ∧ s.rest.drop n = [] ∨ e ≠ .eof ∧ s.sourceHeld = false := by
  subst he
  cases choice with
  | none => cases herr
  | terminal =>
    simp only [sourceError] at herr
    split at herr
    next hlen =>
      cases herr
      exact .inl ⟨rfl, List.drop_eq_nil_of_le hlen⟩
    next => cases herr
  | broken failure =>
    simp only [sourceError] at herr
    split at herr
    next hbroken =>
      cases herr
      simp only [Bool.and_eq_true, decide_eq_true_eq, bne_iff_ne] at hbroken
      refine .inr ⟨hbroken.2, ?_⟩
      have honce := h.closedOnce
      cases hheld : s.sourceHeld with
      | false => rfl
      | true =>
        rw [hheld] at honce
        simp only [if_true] at honce
        omega
    next => cases herr

theorem readSource_inv [DecidableEq E] (h : Inv content terminal s)
    {choice : SourceError E} {err : Option (BodyError E)}
    (hb : s.bodies[i]? = some b) (hpoint : b.point = .reading)
    (herr : s.sourceError terminal n choice = some err) :
    Inv content terminal (s.readSource i b n err) := by
  have hmem := List.mem_of_getElem? hb
  have hbody := h.bodies b hmem
  have hs : b.started = true := by
    by_contra hn
    have hidle := (hbody.fresh (by simpa using hn)).1
    rw [hpoint] at hidle
    cases hidle
  have hgot : b.got = s.taken := by
    have := (hbody.started hs).2
    simpa [AttemptBody.inFlight, hpoint] using this
  have hmem' : { b with point := .recording (s.rest.take n) err } ∈
      s.bodies.set i { b with point := .recording (s.rest.take n) err } :=
    List.mem_set (List.getElem?_eq_some_iff.mp hb).1 _
  have hcount : (s.bodies.set i { b with point := .recording (s.rest.take n) err }).countP
      AttemptBody.live = s.bodies.countP AttemptBody.live := countP_set_same hb rfl
  have hnotfresh : s.err = none → s.view = .absent → False := fun he hv => by
    simp [(h.fresh he hv).2.2 b hmem] at hs
  refine {
    h with
    split := ?_, bodies := fun x hx => ?_, turns := ?_, untouched := fun hall => ?_
    fresh := fun he hv => absurd hv (hnotfresh he), incomplete := fun he => ?_
    readers := h.readers.trans (congrArg _ hcount.symm)
    held := List.forall_mem_set h.held (h.held b hmem) }
  · change s.taken ++ s.rest.take n ++ s.rest.drop n = content
    rw [List.append_assoc, List.take_append_drop]
    exact h.split
  · obtain ⟨j, hj⟩ := List.mem_iff_getElem?.mp hx
    rcases Turns.getElem?_set_cases hj with ⟨rfl, rfl⟩ | ⟨hne, hold⟩
    · exact {
        started := fun _ => ⟨(hbody.started hs).1, congrArg (· ++ s.rest.take n) hgot⟩
        fresh := fun hn => absurd (hs.symm.trans hn) (by simp)
        flight := fun chunk e hp => by
          obtain ⟨-, he⟩ := ReadPoint.recording.inj hp
          exact sourceError_spec h herr e he
        ended := hbody.ended
        cursor := hbody.cursor }
    · -- The other bodies were never read.
      have hxs : x.started = false := by
        by_contra hn
        exact hne (h.turns.unique j i x b hold hb (by simpa using hn) hs)
      have hx := h.bodies x (List.mem_of_getElem? hold)
      exact {
        started := fun ht => absurd (hxs.symm.trans ht) (by simp)
        fresh := hx.fresh
        flight := fun chunk e hp => by
          rw [(hx.fresh hxs).1] at hp
          cases hp
        ended := hx.ended
        cursor := hx.cursor }
  · exact h.turns.set hb id (fun ht => .inl ht) fun hl hn => ⟨hl, hn⟩
  · have hnot := hall { b with point := .recording (s.rest.take n) err } hmem'
    exact absurd (hs.symm.trans hnot) (by simp)
  · obtain ⟨x, hx, hxs, hcases⟩ := h.incomplete he
    obtain rfl := h.eq_of_started hb hs hx hxs
    refine ⟨_, hmem', hs, ?_⟩
    change s.recorded ++ s.rest.take n = s.taken ++ s.rest.take n ∨ _
    have hnoflight : x.inFlight = [] := by simp [AttemptBody.inFlight, hpoint]
    rw [hnoflight, List.append_nil] at hcases
    rcases hcases with hrecorded | hterminal | ⟨-, hidle⟩
    · exact .inl (congrArg (· ++ s.rest.take n) hrecorded)
    · exact .inr (.inl hterminal)
    · rw [hpoint] at hidle
      cases hidle

/-! ### Recording -/

/-- What `record` does: nothing, if the recording has ended; or it fails, grows, fails with the very
error that marks an incomplete recording, or is complete. -/
inductive Recorded (s : RequestReplay α E) (chunk : List α) (err : Option (BodyError E)) :
    RequestReplay α E → Prop where
  | ignored : s.err ≠ some .incompleteUpload → Recorded s chunk err s
  | failed {failure} : s.err = some .incompleteUpload → failure ≠ .incompleteUpload →
    Recorded s chunk err { s with recorded := [], err := some failure }
  | grown : s.err = some .incompleteUpload → err = none →
    Recorded s chunk err { s with recorded := s.recorded ++ chunk }
  | spoiled : s.err = some .incompleteUpload → err = some .incompleteUpload →
    Recorded s chunk err { s with recorded := [], err := some .incompleteUpload }
  | completed : s.err = some .incompleteUpload → err = some .eof →
    (s.recorded ++ chunk).length ≤ requestReplayLimit →
    Recorded s chunk err
      { s with view := .live (s.recorded ++ chunk), recorded := [], err := none }

theorem recordChunk_recorded [DecidableEq E] (s : RequestReplay α E) (chunk : List α)
    (err : Option (BodyError E)) (memory : Bool) :
    Recorded s chunk err (s.recordChunk chunk err memory) := by
  unfold recordChunk
  split
  next hne => exact .ignored hne
  next herr =>
    have herr : s.err = some .incompleteUpload := by simpa using herr
    unfold writeError
    by_cases hlong : requestReplayLimit < s.recorded.length + chunk.length
    · rw [if_pos hlong]
      exact .failed herr (by simp)
    · rw [if_neg hlong]
      cases memory with
      | false => exact .failed herr (by simp)
      | true =>
        dsimp only [if_true]
        match err with
        | none => exact .grown herr rfl
        | some .eof => exact .completed herr rfl (by rw [List.length_append]; omega)
        | some .incompleteUpload => exact .spoiled herr rfl
        | some .closedPipe | some .tooLarge | some .budgetExhausted | some (.other e) =>
          exact .failed herr (by simp)

section Record

variable {i : Nat} {b : AttemptBody α E} {chunk : List α} {err : Option (BodyError E)}

theorem Inv.started_of_point (h : Inv content terminal s) (hb : s.bodies[i]? = some b)
    (hpoint : b.point ≠ .idle) : b.started = true := by
  by_contra hn
  exact hpoint ((h.bodies b (List.mem_of_getElem? hb)).fresh (by simpa using hn)).1

/-- What the read returns: all there is, if it is the end of a body that is not closed. -/
theorem Inv.recorded_ok (h : Inv content terminal s) (hb : s.bodies[i]? = some b)
    (hpoint : b.point = .recording chunk err) :
    BodyOk content terminal s { b with point := .idle, got := b.got ++ chunk, ended := err } := by
  have hmem := List.mem_of_getElem? hb
  have hbody := h.bodies b hmem
  have hs := h.started_of_point hb (by simp [hpoint])
  obtain ⟨hkind, hgot⟩ := hbody.started hs
  have htaken : b.got ++ chunk = s.taken := by simpa [AttemptBody.inFlight, hpoint] using hgot
  refine {
    started := fun _ => ⟨hkind, (List.append_nil _).trans htaken⟩
    fresh := fun hn => absurd (hs.symm.trans hn) (by simp)
    flight := fun c e hp => by cases hp
    ended := fun e he hend => ?_
    cursor := fun data hk => absurd (hkind.symm.trans hk) (by simp) }
  rcases hbody.flight chunk e (hpoint.trans (congrArg _ he)) with ⟨rfl, hrest⟩ | ⟨hne, hheld⟩
  · refine ⟨rfl, ?_⟩
    have hsplit := h.split
    rw [hrest, List.append_nil] at hsplit
    exact htaken.trans hsplit
  · have hlive := h.held b hmem (AttemptBody.live_iff.mpr ⟨hkind, hend.resolve_right hne⟩)
    rw [hheld] at hlive
    cases hlive

/-- An incomplete recording and the chunk are what was taken, if the chunk ends the source. -/
theorem Inv.recorded_eq (h : Inv content terminal s) (hb : s.bodies[i]? = some b)
    (hpoint : b.point = .recording chunk err) (herr : s.err = some .incompleteUpload) :
    s.recorded ++ chunk = s.taken ∨ terminal ≠ .eof := by
  have hs := h.started_of_point hb (by simp [hpoint])
  obtain ⟨x, hx, hxs, hcases⟩ := h.incomplete herr
  obtain rfl := h.eq_of_started hb hs hx hxs
  have hflight : x.inFlight = chunk := by simp [AttemptBody.inFlight, hpoint]
  rw [hflight] at hcases
  rcases hcases with hrecorded | hterminal | ⟨-, hidle⟩
  · exact .inl hrecorded
  · exact .inr hterminal
  · rw [hpoint] at hidle
    cases hidle

theorem record_inv [DecidableEq E] (h : Inv content terminal s) {memory : Bool}
    (hb : s.bodies[i]? = some b) (hpoint : b.point = .recording chunk err) :
    Inv content terminal (s.record i b chunk err memory) := by
  have hmem := List.mem_of_getElem? hb
  have hbody := h.bodies b hmem
  have hs := h.started_of_point hb (by simp [hpoint])
  obtain ⟨hkind, -⟩ := hbody.started hs
  have hok := h.recorded_ok hb hpoint
  have hmem' := List.mem_set (List.getElem?_eq_some_iff.mp hb).1
    { b with point := .idle, got := b.got ++ chunk, ended := err }
  have hcount : (s.bodies.set i
      { b with point := .idle, got := b.got ++ chunk, ended := err }).countP AttemptBody.live =
        s.bodies.countP AttemptBody.live := countP_set_same hb rfl
  -- Whatever becomes of the recording, the bodies and the source are as before.
  have hcore : ∀ {recorded view error}, (error = none → view ≠ .absent) →
      (error = some .incompleteUpload → recorded = s.taken ∨ terminal ≠ .eof ∨ b.closed = true) →
      (∀ data, view = .live data →
        data = content ∧ terminal = .eof ∧ data.length ≤ requestReplayLimit) →
      (view = .closed → error ≠ none) → (s.released = true → error = some .closedPipe) →
      Inv content terminal ({ s with recorded, view, err := error }.setBody i
        { b with point := .idle, got := b.got ++ chunk, ended := err }) := by
    intro recorded view error hfresh hincomplete hcomplete hclosed hreleased
    refine {
      h with
      bodies := List.forall_mem_set (fun x hx => (h.bodies x hx).congr rfl rfl id)
        (hok.congr rfl rfl id)
      turns := ?_, untouched := fun hall => ?_
      fresh := fun he hv => absurd hv (hfresh he), incomplete := fun he => ⟨_, hmem', hs, ?_⟩
      complete := hcomplete, closedView := hclosed
      readers := h.readers.trans (congrArg _ hcount.symm)
      held := List.forall_mem_set h.held (h.held b hmem)
      released := fun hr => ⟨hreleased hr, (h.released hr).2⟩ }
    · exact h.turns.set hb id (fun ht => .inl ht) fun hl hn => ⟨hl, hn⟩
    · have hnone := hall _ hmem'
      exact absurd (hs.symm.trans hnone) (by simp)
    · exact (hincomplete he).imp (fun hr => (List.append_nil _).trans hr)
        (Or.imp_right fun hc => ⟨hc, rfl⟩)
  have hnotfresh : s.err = none → s.view ≠ .absent := fun he hv => by
    simp [(h.fresh he hv).2.2 b hmem] at hs
  have hnotreleased : s.err = some .incompleteUpload → s.released ≠ true := fun he hr => by
    rw [(h.released hr).1] at he
    cases he
  have hrecorded := recordChunk_recorded s chunk err memory
  unfold record
  generalize s.recordChunk chunk err memory = s₁ at hrecorded
  cases hrecorded with
  | ignored hne =>
    exact hcore hnotfresh (fun he => absurd he hne) h.complete h.closedView
      fun hr => (h.released hr).1
  | failed herr hne =>
    exact hcore (fun hn => by cases hn) (fun he => absurd (Option.some.inj he) hne) h.complete
      (fun _ hn => by cases hn) fun hr => absurd hr (hnotreleased herr)
  | grown herr hnone =>
    exact hcore hnotfresh (fun _ => (h.recorded_eq hb hpoint herr).imp_right .inl) h.complete
      h.closedView fun hr => absurd hr (hnotreleased herr)
  | spoiled herr heq =>
    refine hcore (fun hn => by cases hn) (fun _ => .inr ?_) h.complete
      (fun _ hn => by cases hn) fun hr => absurd hr (hnotreleased herr)
    rcases hbody.flight chunk _ (hpoint.trans (congrArg _ heq)) with ⟨rfl, -⟩ | ⟨-, hheld⟩
    · exact .inl (by simp)
    · refine .inr ?_
      by_contra hopen
      have hlive := h.held b hmem (AttemptBody.live_iff.mpr ⟨hkind, by simpa using hopen⟩)
      rw [hheld] at hlive
      cases hlive
  | completed herr heq hlen =>
    refine hcore (fun _ hv => by cases hv) (fun he => by cases he) (fun data hdata => ?_)
      (fun hv => by cases hv) fun hr => absurd hr (hnotreleased herr)
    obtain rfl := ReplayView.live.inj hdata
    rcases hbody.flight chunk _ (hpoint.trans (congrArg _ heq)) with ⟨rfl, hrest⟩ | ⟨hne, -⟩
    · refine ⟨?_, rfl, hlen⟩
      have hsplit := h.split
      rw [hrest, List.append_nil] at hsplit
      rcases h.recorded_eq hb hpoint herr with hall | hno
      · exact hall.trans hsplit
      · exact absurd rfl hno
    · exact absurd rfl hne

end Record

/-! ### Reading a recording -/

theorem readCursor_inv (h : Inv content terminal s)
    {data : List α} (hb : s.bodies[i]? = some b) (hkind : b.kind = .cursor data) :
    Inv content terminal (s.readCursor i b data n) := by
  have hbody := h.bodies b (List.mem_of_getElem? hb)
  unfold readCursor
  split
  next hclosed => exact h.setBody hb (hbody.ended_closed hclosed) (fun _ => hclosed) rfl rfl rfl id
  next hopen =>
    obtain ⟨hdata, hterminal, -⟩ := hbody.cursor data hkind
    refine h.setBody hb ?_ id rfl rfl rfl id
    refine {
      hbody with
      started := fun hs => ?_
      fresh := fun hs => ⟨(hbody.fresh hs).1, fun hk => absurd (hkind.symm.trans hk) (by simp)⟩
      ended := fun e he _ => ?_
      cursor := fun other hk => ?_ }
    · exact absurd (hkind.symm.trans (hbody.started hs).1) (by simp)
    · dsimp only at he ⊢
      split at he
      next => cases he
      next hall =>
        cases he
        rw [List.length_take] at hall
        exact ⟨hterminal.symm, (List.take_of_length_le (by omega)).trans hdata⟩
    · obtain rfl := BodyKind.cursor.inj (hkind.symm.trans hk)
      exact ⟨hdata, hterminal, List.take_prefix _ _⟩

/-! ### Closing the bodies and the source -/

/-- What a body has returned stays right when it is closed. -/
theorem BodyOk.closed_ok (h : BodyOk content terminal s b) :
    BodyOk content terminal s { b with closed := true } := by
  refine { h with
    fresh := fun hs => ⟨(h.fresh hs).1, fun hk => ⟨((h.fresh hs).2 hk).1, fun hc => by cases hc⟩⟩
    ended := fun e he hend => ?_ }
  rcases hend with hc | heof
  · cases hc
  · exact h.ended e he (.inr heof)

/-- With the body that is not closed, the last one that may read the source is gone. -/
theorem Inv.live_closed (h : Inv content terminal s)
    (hb : s.bodies[i]? = some b) (hlive : b.live = true) :
    ∀ x ∈ s.bodies.set i { b with closed := true }, x.live = false := by
  intro x hx
  have hclosed : x.closed = true := by
    obtain ⟨j, hj⟩ := List.mem_iff_getElem?.mp hx
    rcases Turns.getElem?_set_cases hj with ⟨-, rfl⟩ | ⟨hne, hold⟩
    · rfl
    · exact h.turns.closed_of_ne hb (AttemptBody.live_iff.mp hlive).2 hold hne
  simp [AttemptBody.live, hclosed]

theorem countP_dead {bodies : List (AttemptBody α E)} (h : ∀ x ∈ bodies, x.live = false) :
    bodies.countP AttemptBody.live = 0 :=
  List.countP_eq_zero.mpr fun x hx hl => absurd ((h x hx).symm.trans hl) (by simp)

/-- That body is then the only reader. -/
theorem Inv.readers_one (h : Inv content terminal s)
    (hb : s.bodies[i]? = some b) (hlive : b.live = true) : s.readers = 1 := by
  have hdead := h.live_closed hb hlive
  have hzero := countP_dead hdead
  obtain ⟨hlt, hget⟩ := List.getElem?_eq_some_iff.mp hb
  have hpos : 0 < s.bodies.countP AttemptBody.live :=
    List.countP_pos_iff.mpr ⟨b, List.mem_of_getElem? hb, hlive⟩
  have hnot : ({ b with closed := true } : AttemptBody α E).live = false :=
    hdead _ (List.mem_set hlt _)
  rw [List.countP_set hlt, hget, hlive, hnot] at hzero
  simp only [if_true, Bool.false_eq_true, if_false] at hzero
  have hreaders := h.readers
  omega

/-- A body of the source is closed, and the source perhaps taken. -/
theorem Inv.closeBody (h : Inv content terminal s) {closing : Nat}
    {held : Bool} (hb : s.bodies[i]? = some b) (hlive : b.live = true)
    (honce : closing + s.closes = if held then 0 else 1)
    (hfresh : s.err = none → s.view = .absent → held = true)
    (hreleased : s.released = true → held = false) :
    Inv content terminal
      ({ s with readers := s.readers - 1, sourceHeld := held, closing }.setBody i
        { b with closed := true }) := by
  have hmem := List.mem_of_getElem? hb
  have hbody := h.bodies b hmem
  have hmem' := List.mem_set (List.getElem?_eq_some_iff.mp hb).1 { b with closed := true }
  have hheld := h.held b hmem hlive
  have hdead := h.live_closed hb hlive
  refine {
    h with
    bodies := ?_, turns := ?_, untouched := fun hall => ?_, fresh := fun he hv => ?_
    incomplete := fun he => ?_, readers := ?_
    held := fun x hx hl => absurd ((hdead x hx).symm.trans hl) (by simp), closedOnce := honce
    released := fun hr => ⟨(h.released hr).1, fun ht => ?_⟩ }
  · have hback : s.sourceHeld = false → held = false := fun hn => by
      rw [hheld] at hn
      cases hn
    exact List.forall_mem_set (fun x hx => (h.bodies x hx).congr rfl rfl hback)
      (hbody.closed_ok.congr rfl rfl hback)
  · refine h.turns.set hb (fun hc => by cases hc) (fun ht => .inl ht) fun hl => ?_
    rw [hdead _ hmem'] at hl
    cases hl
  · exact h.untouched (List.forall_mem_of_set hb hall id)
  · obtain ⟨hrecorded, -, hnone⟩ := h.fresh he hv
    exact ⟨hrecorded, hfresh he hv, List.forall_mem_set hnone (hnone b hmem)⟩
  · refine List.exists_mem_set hb (h.incomplete he) ?_
    rintro ⟨hs, hcases⟩
    exact ⟨hs, hcases.imp_right (Or.imp_right fun hd => ⟨rfl, hd.2⟩)⟩
  · change s.readers - 1 = ((s.bodies.set i { b with closed := true }).countP _ : Nat)
    rw [countP_dead hdead, h.readers_one hb hlive]
    rfl
  · rw [hreleased hr] at ht
    cases ht

theorem closeRecording_inv [DecidableEq E] (h : Inv content terminal s)
    (hb : s.bodies[i]? = some b) (hkind : b.kind = .recording) :
    Inv content terminal (s.closeRecording i b) := by
  have hmem := List.mem_of_getElem? hb
  unfold closeRecording
  split
  next => exact h
  next hopen =>
    have hopen : b.closed = false := by simpa using hopen
    have hlive : b.live = true := AttemptBody.live_iff.mpr ⟨hkind, hopen⟩
    have hheld := h.held b hmem hlive
    have honce := h.closedOnce
    rw [hheld, if_pos rfl] at honce
    dsimp only
    split
    next htake =>
      have htaken : takeSource ({ s with readers := s.readers - 1 }.setBody i
          { b with closed := true }) = { s with
            readers := s.readers - 1, sourceHeld := false, closing := s.closing + 1 }.setBody i
              { b with closed := true } := by
        simp only [takeSource, RequestReplay.setBody, hheld, if_true]
      rw [htaken]
      refine h.closeBody hb hlive ?_ (fun he hv => ?_) fun _ => rfl
      · rw [if_neg (by simp)]
        omega
      · have hnone := (h.fresh he hv).2.2 b hmem
        simp [hnone, RequestReplay.setBody, he] at htake
    next hkeep =>
      have hsame : { s with readers := s.readers - 1 } = { s with
          readers := s.readers - 1, sourceHeld := true, closing := s.closing } := by
        rw [← hheld]
      rw [hsame]
      refine h.closeBody hb hlive ?_ (fun _ _ => rfl) fun hr => ?_
      · rw [if_pos rfl]
        exact honce
      · have hreaders : s.readers - 1 = 0 := by simp [h.readers_one hb hlive]
        simp [RequestReplay.setBody, (h.released hr).1, hreaders] at hkeep

theorem closeSource_inv (h : Inv content terminal s) (hpos : 0 < s.closing) :
    Inv content terminal { s with closing := s.closing - 1, closes := s.closes + 1 } := by
  have honce := h.closedOnce
  have hsum : s.closing - 1 + (s.closes + 1) = s.closing + s.closes := by omega
  exact { h with
    bodies := fun b hb => (h.bodies b hb).congr rfl rfl id
    closedOnce := hsum.trans honce }

theorem closeCursor_inv (h : Inv content terminal s)
    {data : List α} (hb : s.bodies[i]? = some b) (hkind : b.kind = .cursor data) :
    Inv content terminal (s.setBody i { b with closed := true }) := by
  have hbody := h.bodies b (List.mem_of_getElem? hb)
  refine h.setBody hb hbody.closed_ok (fun _ => rfl) rfl ?_ rfl id
  simp [AttemptBody.live, hkind, BodyKind.isRecording]

/-! ### Opening a body and releasing the recording -/

/-- A body is opened that has not been read. -/
theorem Inv.appendBody (h : Inv content terminal s) (hall : ∀ b ∈ s.bodies, b.closed = true)
    (kind : BodyKind α) (readers : Int)
    (hcursor : ∀ data, kind = .cursor data → data = content ∧ terminal = .eof)
    (hsource : kind = .recording →
      s.sourceHeld = true ∧ s.released = false ∧ ∀ b ∈ s.bodies, b.started = false)
    (hreaders : readers = s.readers + if kind.isRecording then 1 else 0) :
    Inv content terminal { s with readers, bodies := s.bodies ++ [{ kind }] } := by
  have hlive : ({ kind } : AttemptBody α E).live = kind.isRecording := by
    simp [AttemptBody.live]
  have hkind : kind.isRecording = true → kind = .recording := fun hr => by
    cases kind with
    | recording => rfl
    | cursor data => cases hr
  refine {
    h with
    bodies := fun b hb => ?_, turns := ?_, untouched := fun hn => ?_, fresh := fun he hv => ?_
    incomplete := fun he => ?_, readers := ?_, held := fun b hb hl => ?_, released := fun hr => ?_ }
  · rcases List.mem_append.mp hb with hold | hnew
    · exact (h.bodies b hold).congr rfl rfl id
    · rw [List.mem_singleton.mp hnew]
      exact {
        started := fun hs => by cases hs
        fresh := fun _ => ⟨rfl, fun _ => ⟨rfl, fun _ => rfl⟩⟩
        flight := fun chunk e hp => by cases hp
        ended := fun e he => by cases he
        cursor := fun data hk =>
          ⟨(hcursor data hk).1, (hcursor data hk).2, List.nil_prefix⟩ }
  · exact h.turns.append hall rfl fun hl => (hsource (hkind (hlive ▸ hl))).2.2
  · exact h.untouched fun b hb => hn b (List.mem_append_left _ hb)
  · obtain ⟨hrecorded, hheld, hnone⟩ := h.fresh he hv
    refine ⟨hrecorded, hheld, fun b hb => ?_⟩
    rcases List.mem_append.mp hb with hold | hnew
    · exact hnone b hold
    · rw [List.mem_singleton.mp hnew]
  · obtain ⟨b, hb, hrest⟩ := h.incomplete he
    exact ⟨b, List.mem_append_left _ hb, hrest⟩
  · change readers = ((s.bodies ++ [({ kind } : AttemptBody α E)]).countP AttemptBody.live : Nat)
    rw [List.countP_append, List.countP_singleton, hlive, hreaders, h.readers]
    split <;> simp
  · rcases List.mem_append.mp hb with hold | hnew
    · exact h.held b hold hl
    · rw [List.mem_singleton.mp hnew, hlive] at hl
      exact (hsource (hkind hl)).1
  · obtain ⟨herr, hheld⟩ := h.released hr
    refine ⟨herr, fun ht => ?_⟩
    have hnot : kind.isRecording ≠ true := fun hk => by
      have hn := (hsource (hkind hk)).2.1
      rw [hr] at hn
      cases hn
    rw [if_neg hnot, Int.add_zero] at hreaders
    exact hreaders ▸ hheld ht

/-- What `open` returns, by the state of the recording. -/
theorem getBody_cases (s : RequestReplay α E) :
    (∃ e, s.getBody = some (.error e) ∧ s.err = some e) ∨
      s.getBody = some (.ok .recording) ∧ s.err = none ∧ s.view = .absent ∨
      (∃ data, s.getBody = some (.ok (.cursor data)) ∧ s.err = none ∧ s.view = .live data) ∨
      s.getBody = none ∧ s.err = none ∧ s.view = .closed := by
  unfold getBody
  cases s.err with
  | some e => exact .inl ⟨e, rfl, rfl⟩
  | none =>
    cases s.view with
    | absent => exact .inr (.inl ⟨rfl, rfl, rfl⟩)
    | live data => exact .inr (.inr (.inl ⟨data, rfl, rfl, rfl⟩))
    | closed => exact .inr (.inr (.inr ⟨rfl, rfl, rfl⟩))

theorem openBody_inv (h : Inv content terminal s) (hall : ∀ b ∈ s.bodies, b.closed = true) :
    Inv content terminal s.openBody := by
  unfold openBody
  rcases getBody_cases s with ⟨e, hget, -⟩ | ⟨hget, herr, hview⟩ | ⟨data, hget, -, hview⟩ |
    ⟨-, herr, hview⟩
  · rw [hget]
    exact h
  · rw [hget]
    obtain ⟨-, hheld, hnone⟩ := h.fresh herr hview
    refine h.appendBody hall .recording (s.readers + 1) (fun other hk => by cases hk)
      (fun _ => ⟨hheld, ?_, hnone⟩) rfl
    by_contra hr
    rw [(h.released (by simpa using hr)).1] at herr
    cases herr
  · rw [hget]
    obtain ⟨hdata, hterminal, -⟩ := h.complete data hview
    refine h.appendBody hall (.cursor data) s.readers (fun other hk => ?_)
      (fun hk => by cases hk) (Int.add_zero _).symm
    obtain rfl := BodyKind.cursor.inj hk
    exact ⟨hdata, hterminal⟩
  · exact absurd herr (h.closedView hview)

/-- The recording is released, and the source perhaps taken. -/
theorem Inv.releaseWith (h : Inv content terminal s) {closing : Nat} {held : Bool}
    {view : ReplayView α} (honce : closing + s.closes = if held then 0 else 1)
    (hview : ∀ data, view ≠ .live data) (hback : s.sourceHeld = false → held = false)
    (hreaders : s.readers ≠ 0 → held = s.sourceHeld) (htaken : held = true → s.readers ≠ 0) :
    Inv content terminal { s with
      err := some .closedPipe, recorded := [], view, released := true, sourceHeld := held,
      closing } := by
  refine {
    h with
    bodies := fun b hb => (h.bodies b hb).congr rfl rfl hback, fresh := fun he => by cases he
    incomplete := fun he => by cases he
    complete := fun data hv => absurd hv (hview data)
    closedView := fun _ he => by cases he
    held := fun b hb hl => ?_, closedOnce := honce, released := fun _ => ⟨rfl, htaken⟩ }
  have hpos : 0 < s.bodies.countP AttemptBody.live := List.countP_pos_iff.mpr ⟨b, hb, hl⟩
  have hcount := h.readers
  exact (hreaders (by omega)).trans (h.held b hb hl)

theorem release_inv (h : Inv content terminal s) : Inv content terminal s.release := by
  have honce := h.closedOnce
  unfold release
  dsimp only
  split
  next hzero =>
    unfold takeSource
    dsimp only
    split
    next hheld =>
      rw [hheld, if_pos rfl] at honce
      refine h.releaseWith ?_ (fun _ => by cases s.view <;> simp) (fun _ => rfl)
        (fun hn => absurd hzero hn) fun hc => by cases hc
      rw [if_neg (by simp)]
      omega
    next hheld =>
      exact h.releaseWith honce (fun _ => by cases s.view <;> simp) id (fun _ => rfl)
        fun hc => absurd hc hheld
  next hpos =>
    exact h.releaseWith honce (fun _ => by cases s.view <;> simp) id (fun _ => rfl) fun _ => hpos

theorem start_inv : Inv content terminal (start content : RequestReplay α E) := by
  have hfirst : ∀ b ∈ (start content : RequestReplay α E).bodies, b = { kind := .recording } :=
    fun b hb => List.mem_singleton.mp hb
  exact {
    split := rfl
    bodies := fun b hb => by
      rw [hfirst b hb]
      exact {
        started := fun hs => by cases hs
        fresh := fun _ => ⟨rfl, fun _ => ⟨rfl, fun _ => rfl⟩⟩
        flight := fun chunk e hp => by cases hp
        ended := fun e he => by cases he
        cursor := fun data hk => by cases hk }
    turns := by
      refine ⟨fun i b hb _ => ?_, fun i j b b' hb _ hs => ?_, fun _ _ _ _ b hb => ?_⟩
      · have hlt := (List.getElem?_eq_some_iff.mp hb).1
        simp only [start, List.length_singleton] at hlt ⊢
        omega
      · rw [hfirst b (List.mem_of_getElem? hb)] at hs
        cases hs
      · rw [hfirst b hb]
    untouched := fun _ => rfl
    fresh := fun _ _ => ⟨rfl, rfl, fun b hb => by rw [hfirst b hb]⟩
    incomplete := fun he => by cases he
    complete := fun data hv => by cases hv
    closedView := fun hv => by cases hv
    readers := rfl
    held := fun _ _ _ => rfl
    closedOnce := rfl
    released := fun hr => by cases hr
    safe := rfl }

theorem Effect.inv [DecidableEq E] (h : Inv content terminal s) (he : Effect terminal s s') :
    Inv content terminal s' := by
  cases he with
  | beginRead hb hkind hidle => exact beginRead_inv h hb hkind hidle
  | readSource hb _ hpoint herr => exact readSource_inv h hb hpoint herr
  | record hb _ hpoint => exact record_inv h hb hpoint
  | readCursor hb hkind => exact readCursor_inv h hb hkind
  | closeRecording hb hkind => exact closeRecording_inv h hb hkind
  | closeCursor hb hkind => exact closeCursor_inv h hb hkind
  | closeSource hpos => exact closeSource_inv h hpos
  | openBody hall => exact openBody_inv h hall
  | release => exact release_inv h

theorem reachable_inv [DecidableEq E] (h : Reachable content terminal s) :
    Inv content terminal s :=
  h.invariant start_inv fun hs hact => (act_effect hact).inv hs

/-! ### The uploads -/

theorem Inv.got_prefix (h : Inv content terminal s) (hb : b ∈ s.bodies) :
    b.got <+: content := by
  have hbody := h.bodies b hb
  have htaken : s.taken <+: content := ⟨s.rest, h.split⟩
  cases hs : b.started with
  | true =>
    have hgot : b.got <+: s.taken := ⟨b.inFlight, (hbody.started hs).2⟩
    exact hgot.trans htaken
  | false =>
    cases hkind : b.kind with
    | recording =>
      rw [((hbody.fresh hs).2 hkind).1]
      exact List.nil_prefix
    | cursor data =>
      obtain ⟨hdata, -, hgot⟩ := hbody.cursor data hkind
      exact hdata ▸ hgot

/-- A body can be opened as long as nothing was read, and then with a complete recording. -/
theorem Inv.open_ok (h : Inv content terminal s) {kind : BodyKind α}
    (hopen : s.getBody = some (.ok kind)) :
    s.released = false ∧ (kind = .recording ∧ s.taken = [] ∨
      kind = .cursor content ∧ terminal = .eof ∧ content.length ≤ requestReplayLimit) := by
  have hrelease : s.err = none → s.released = false := fun herr => by
    by_contra hr
    rw [(h.released (by simpa using hr)).1] at herr
    cases herr
  rcases getBody_cases s with ⟨e, hget, -⟩ | ⟨hget, herr, hview⟩ | ⟨data, hget, herr, hview⟩ |
    ⟨hget, -⟩
  · rw [hget] at hopen
    cases hopen
  · rw [hget] at hopen
    cases hopen
    exact ⟨hrelease herr, .inl ⟨rfl, h.untouched (h.fresh herr hview).2.2⟩⟩
  · rw [hget] at hopen
    cases hopen
    obtain ⟨rfl, hterminal, hlen⟩ := h.complete data hview
    exact ⟨hrelease herr, .inr ⟨rfl, hterminal, hlen⟩⟩
  · rw [hget] at hopen
    cases hopen

/-- The source goes with the last body that could read it, or with the release. -/
theorem Inv.source_closed (h : Inv content terminal s) (hall : ∀ b ∈ s.bodies, b.closed = true)
    (hr : s.released = true) : s.closing + s.closes = 1 := by
  have hdead : ∀ b ∈ s.bodies, b.live = false := fun b hb => by
    simp [AttemptBody.live, hall b hb]
  have hreaders : s.readers = 0 := by rw [h.readers, countP_dead hdead]; rfl
  have honce := h.closedOnce
  cases hheld : s.sourceHeld with
  | true => exact absurd hreaders ((h.released hr).2 hheld)
  | false => rwa [hheld] at honce

/-- Two bytes are sent, the second one with the end, and sent again. -/
def sampleUpload : List (ReplayAction Unit) :=
  [.beginRead 0, .readSource 0 1 .none, .record 0 true, .beginRead 0, .readSource 0 8 .terminal,
    .closeBody 0, .record 0 true, .openBody, .readCursor 1 8, .closeSource, .release]

theorem sampleUpload_possible :
    (Actions.play (act .eof) (start [7, 9]) sampleUpload).isSome = true := by
  decide +kernel

/-- The uploads of the request so far. -/
def sampleReplay : RequestReplay Nat Unit :=
  (Actions.play (act .eof) (start [7, 9]) sampleUpload).get sampleUpload_possible

end RequestReplay

end Dae
