import Dae.Outbound.Invalidation

/-!
# What the readers of a lease see

`Cause` and `AbortCause` read the gates of a lease and of its ancestors one after the other, until
they find one that has ended.  Before the invalidation of an ancestor reaches the lease, they report
that of the ancestor; afterwards that of the lease.
-/

namespace Dae

open LeaseHeap

/-- A walk over the gates of the leases in `todo` that begins at the first configuration and ends at
the last one. -/
inductive Read : LeaseConfig → List (Option Nat) → Option (String × Bool) → LeaseConfig → Prop where
  | done {c : LeaseConfig} : Read c [] none c
  | null {c e : LeaseConfig} {todo : List (Option Nat)} {result : Option (String × Bool)} :
      Read c todo result e → Read c (none :: todo) result e
  | found {c e : LeaseConfig} {l : Nat} {todo : List (Option Nat)} {cause : String} :
      leaseMachine.Run c e → (e.shared.lease l).cause = some cause →
      Read c (some l :: todo) (some (cause, (e.shared.lease l).aborted)) e
  | next {c c' e : LeaseConfig} {l : Nat} {todo : List (Option Nat)}
      {result : Option (String × Bool)} :
      leaseMachine.Run c c' → (c'.shared.lease l).cause = none →
      Read c' ((c'.shared.lease l).parents ++ todo) result e → Read c (some l :: todo) result e

/-- What a reader of lease `l` finds between two configurations. -/
def ReadBetween (a c : LeaseConfig) (l : Nat) (found : String × Bool) : Prop :=
  ∃ e, Read a [some l] (some found) e ∧ leaseMachine.Run e c

/-- The cause and the action with which a lease has ended. -/
def LeaseHeap.Ended (s : LeaseHeap) (l : Nat) (outcome : String × Bool) : Prop :=
  (s.lease l).cause = some outcome.1 ∧ (s.lease l).aborted = outcome.2

/-- The lease and those of its ancestors that have ended did so with one cause and action. -/
def LeaseHeap.OneOutcome (s : LeaseHeap) (l : Nat) : Prop :=
  ∀ x y, s.Ancestor x l → s.Ancestor y l → ∀ outcome outcome', s.Ended x outcome →
    s.Ended y outcome' → outcome = outcome'

/-- The lease and all its ancestors are open. -/
def LeaseHeap.Open (s : LeaseHeap) (l : Nat) : Prop :=
  ∀ x, s.Ancestor x l → (s.lease x).cause = none

variable {l : Nat}

theorem ended_grows {s s' : LeaseHeap} (h : Grows s s') {outcome : String × Bool}
    (hended : s.Ended l outcome) : s'.Ended l outcome := by
  have hsame := h.ended l (by rw [hended.1]; nofun)
  exact ⟨hsame.1.trans hended.1, hsame.2.1.trans hended.2⟩

/-! ### A reader finds an ancestor that has ended -/

variable {c e : LeaseConfig} {todo : List (Option Nat)} {result : Option (String × Bool)}

theorem read_run (h : Read c todo result e) : leaseMachine.Run c e := by
  induction h with
  | done => exact .refl
  | null _ ih => exact ih
  | found hrun _ => exact hrun
  | next hrun _ _ ih => exact hrun.trans ih

theorem read_finds (h : Read c todo result e) (hholds : Threads.Holds Sound Assert c)
    (hcount : ∀ l, some l ∈ todo → l < c.shared.count) :
    ∀ found, result = some found →
      ∃ l x, some l ∈ todo ∧ e.shared.Ancestor x l ∧ e.shared.Ended x found := by
  induction h with
  | done => nofun
  | null _ ih =>
    intro found hfound
    obtain ⟨l, x, hl, hx⟩ := ih hholds (fun l hl => hcount l (List.mem_cons_of_mem _ hl)) found hfound
    exact ⟨l, x, List.mem_cons_of_mem _ hl, hx⟩
  | @found c e l todo cause hrun hcause =>
    rintro found ⟨⟩
    exact ⟨l, l, List.mem_cons_self, .refl, hcause, rfl⟩
  | @next c c' e l todo result hrun hopen hread ih =>
    intro found hfound
    obtain ⟨hgrows, hholds'⟩ := leases_guarantee.run hholds hrun
    have hl := (hcount l List.mem_cons_self).trans_le hgrows.count
    have hparents : ∀ m, some m ∈ (c'.shared.lease l).parents → m < c'.shared.count :=
      fun m hm => (hholds'.shared.1.parents l m hm).trans hl
    have hcount' : ∀ m, some m ∈ (c'.shared.lease l).parents ++ todo → m < c'.shared.count := by
      intro m hm
      rcases List.mem_append.mp hm with hparent | hrest
      · exact hparents m hparent
      · exact (hcount m (List.mem_cons_of_mem _ hrest)).trans_le hgrows.count
    obtain ⟨m, x, hm, hx, hended⟩ := ih hholds' hcount' found hfound
    rcases List.mem_append.mp hm with hparent | hrest
    · obtain ⟨hgrows', _⟩ := leases_guarantee.run hholds' (read_run hread)
      refine ⟨l, x, List.mem_cons_self, hx.tail ?_, hended⟩
      rw [hgrows'.parents l hl]
      exact hparent
    · exact ⟨m, x, List.mem_cons_of_mem _ hrest, hx, hended⟩

/-! ### A reader may find each of them -/

variable {a : LeaseConfig}

/-- A reader passes by a lease that is open with its ancestors. -/
theorem read_skip (hsound : a.shared.Sound)
    (hopen : a.shared.Open l)
    (hread : Read a todo result e) : Read a (some l :: todo) result e := by
  induction l using Nat.strong_induction_on generalizing todo with
  | _ l ih =>
    refine .next .refl (hopen l .refl) ?_
    have hparents : ∀ m, some m ∈ (a.shared.lease l).parents → m < l ∧ a.shared.Open m :=
      fun m hm => ⟨hsound.1.parents l m hm, fun x hx => hopen x (hx.tail hm)⟩
    generalize (a.shared.lease l).parents = parents at hparents
    induction parents with
    | nil => exact hread
    | cons parent rest ihrest =>
      have hrest := ihrest fun m hm => hparents m (List.mem_cons_of_mem _ hm)
      cases parent with
      | none => exact .null hrest
      | some m =>
        obtain ⟨hm, hopen⟩ := hparents m List.mem_cons_self
        exact ih m hm hopen hrest

theorem read_skip_all (hsound : a.shared.Sound) {pre : List (Option Nat)}
    (hopen : ∀ m, some m ∈ pre → a.shared.Open m)
    (hread : Read a todo result e) : Read a (pre ++ todo) result e := by
  induction pre with
  | nil => exact hread
  | cons parent rest ih =>
    have hrest := ih fun m hm => hopen m (List.mem_cons_of_mem _ hm)
    cases parent with
    | none => exact .null hrest
    | some m => exact read_skip hsound (hopen m List.mem_cons_self) hrest

/-- A reader that begins while all are open, and waits before an ancestor, finds how that ends. -/
theorem read_waits (hsound : a.shared.Sound) (hrun : leaseMachine.Run a c)
    {x : Nat} (hancestor : a.shared.Ancestor x l) (hopen : a.shared.Open l)
    {outcome : String × Bool} (hended : c.shared.Ended x outcome) (todo : List (Option Nat)) :
    Read a (some l :: todo) (some outcome) c := by
  induction hancestor generalizing todo with
  | refl =>
    obtain ⟨cause, aborted⟩ := outcome
    obtain ⟨hcause, haborted⟩ := hended
    dsimp only at hcause haborted
    rw [← haborted]
    exact .found hrun hcause
  | @tail m l _ hparent ih =>
    obtain ⟨pre, post, hsplit⟩ := List.append_of_mem hparent
    have hparents : ∀ p, some p ∈ (a.shared.lease l).parents → a.shared.Open p :=
      fun p hp y hy => hopen y (hy.tail hp)
    refine .next .refl (hopen l .refl) ?_
    rw [hsplit] at hparents ⊢
    rw [List.append_assoc]
    refine read_skip_all hsound (fun p hp => hparents p (List.mem_append_left _ hp)) ?_
    exact ih (hparents m (List.mem_append_right _ List.mem_cons_self)) (post ++ todo)

/-! ### Agreement -/

/-- A lease gets no new ancestors. -/
theorem ancestor_of_grows {s s' : LeaseHeap} (hsound : s.Sound) (hgrows : Grows s s') {x : Nat}
    (h : s'.Ancestor x l) (hl : l < s.count) : s.Ancestor x l := by
  induction h with
  | refl => exact .refl
  | @tail m l _ hparent ih =>
    rw [hgrows.parents l hl] at hparent
    exact (ih ((hsound.1.parents l m hparent).trans hl)).tail hparent

/-- What a reader finds is how an ancestor has ended. -/
theorem readBetween_ended {found : String × Bool}
    (hholds : Threads.Holds Sound Assert a) (hl : l < a.shared.count)
    (h : ReadBetween a c l found) : ∃ x, c.shared.Ancestor x l ∧ c.shared.Ended x found := by
  obtain ⟨e, hread, hrun⟩ := h
  have hcount : ∀ m, some m ∈ [some l] → m < a.shared.count := by
    intro m hm
    cases List.mem_singleton.mp hm
    exact hl
  obtain ⟨m, x, hm, hancestor, hended⟩ := read_finds hread hholds hcount found rfl
  cases List.mem_singleton.mp hm
  obtain ⟨hgrows, hholds'⟩ := leases_guarantee.run hholds (read_run hread)
  obtain ⟨hgrows', _⟩ := leases_guarantee.run hholds' hrun
  exact ⟨x, ancestor_grows hholds'.shared hgrows' hancestor (hl.trans_le hgrows.count),
    ended_grows hgrows' hended⟩

/-- **Readers see one cause where a lease and its ancestors end alike.**  If those that have ended by
some point did so with one cause and action, any two reads before that point find the same.  If two
reads could not differ since a time at which the lease and all its ancestors were open, then they
did. -/
theorem readers_agree {c : LeaseConfig} {l : Nat} :
    (c.shared.OneOutcome l → ∀ a b, leaseMachine.Run LeaseConfig.initial a →
      leaseMachine.Run LeaseConfig.initial b → l < a.shared.count → l < b.shared.count →
      ∀ found found', ReadBetween a c l found → ReadBetween b c l found' → found = found') ∧
    (∀ a, leaseMachine.Run LeaseConfig.initial a → leaseMachine.Run a c → l < a.shared.count →
      a.shared.Open l →
      (∀ found found', ReadBetween a c l found → ReadBetween a c l found' → found = found') →
      c.shared.OneOutcome l) := by
  refine ⟨?_, ?_⟩
  · intro hone a b ha hb hla hlb found found' hread hread'
    obtain ⟨-, hholds⟩ := leases_guarantee.run initial_holds ha
    obtain ⟨-, hholds'⟩ := leases_guarantee.run initial_holds hb
    obtain ⟨x, hx, hended⟩ := readBetween_ended hholds hla hread
    obtain ⟨y, hy, hended'⟩ := readBetween_ended hholds' hlb hread'
    exact hone x y hx hy found found' hended hended'
  · intro a ha hrun hla hopen hsame x y hx hy outcome outcome' hended hended'
    obtain ⟨-, hholds⟩ := leases_guarantee.run initial_holds ha
    obtain ⟨hgrows, -⟩ := leases_guarantee.run hholds hrun
    have hfinds : ∀ z result, c.shared.Ancestor z l → c.shared.Ended z result →
        ReadBetween a c l result := by
      intro z result hz hresult
      have hz' := ancestor_of_grows hholds.shared hgrows hz hla
      exact ⟨c, read_waits hholds.shared hrun hz' hopen hresult [], .refl⟩
    exact hsame outcome outcome' (hfinds x outcome hx hended) (hfinds y outcome' hy hended')

/-- The rest of a run begins where it has come to. -/
theorem run_here {b : LeaseConfig} (_ : leaseMachine.Run a b) : leaseMachine.Run b b := .refl

/-- A lease without parents is aborted; whoever finds it ended finds that. -/
theorem readers_agree_aborted : ∃ a c, leaseMachine.Run LeaseConfig.initial a ∧
    leaseMachine.Run a c ∧ ReadBetween a c 0 (errDependencyInvalid, true) ∧
    ∀ found, ReadBetween a c 0 found → found = (errDependencyInvalid, true) := by
  have hnew := Relation.ReflTransGen.tail .refl (Threads.Machine.Step.call (M := leaseMachine)
    (c := LeaseConfig.initial) (t := 0) rfl (Call.newLease [] nofun))
  have hlinked := hnew.tail (.exec (t := 0) rfl (Exec.linked 0))
  have hcalled := (run_here hlinked).tail (.call (t := 0) rfl
    (Call.invalidate 0 none true (by decide)))
  have hended := hcalled.tail (.exec (t := 0) rfl
    (Exec.invalidate 0 none true [] [] rfl (List.Perm.refl _) (List.Perm.refl _)))
  refine ⟨_, _, hlinked, hended, ⟨_, .found hended rfl, .refl⟩, ?_⟩
  intro found hfound
  refine readers_agree.1 ?_ _ _ hlinked hlinked Nat.zero_lt_one Nat.zero_lt_one found _ hfound
    ⟨_, .found hended rfl, .refl⟩
  intro x y hx hy outcome outcome' hx' hy'
  rcases Relation.ReflTransGen.cases_tail hx with rfl | ⟨_, _, hparent⟩
  · rcases Relation.ReflTransGen.cases_tail hy with rfl | ⟨_, _, hparent⟩
    · exact Prod.ext (Option.some.inj (hx'.1.symm.trans hy'.1)) (hx'.2.symm.trans hy'.2)
    · cases hparent
  · cases hparent

/-- **Two readers differ.**  Of two parents the second is invalidated first, and its cause is read
before it arrives; then the abort of the other one arrives before it. -/
theorem readers_differ : ∃ c, leaseMachine.Run LeaseConfig.initial c ∧
    ReadBetween LeaseConfig.initial c 2 ("left", false) ∧
    ReadBetween LeaseConfig.initial c 2 ("right", true) := by
  have hnew := Relation.ReflTransGen.tail .refl (Threads.Machine.Step.call (M := leaseMachine)
    (c := LeaseConfig.initial) (t := 0) rfl (Call.newLease [] nofun))
  have hlinked := hnew.tail (.exec (t := 0) rfl (Exec.linked 0))
  have hnew' := hlinked.tail (.call (t := 0) rfl (Call.newLease [] nofun))
  have hlinked' := hnew'.tail (.exec (t := 0) rfl (Exec.linked 1))
  have hchild := hlinked'.tail (.call (t := 0) rfl (Call.newLease [some 0, some 1]
    (by simp [LeaseHeap.newLease])))
  have hadded := hchild.tail (.exec (t := 0) rfl (Exec.link 2 0 [some 1] rfl rfl))
  have hadded' := hadded.tail (.exec (t := 0) rfl (Exec.link 2 1 [] rfl rfl))
  have hready := hadded'.tail (.exec (t := 0) rfl (Exec.linked 2))
  have hcalled := hready.tail (.call (t := 1) rfl
    (Call.invalidate 1 (some "left") false (by decide)))
  have hleft := hcalled.tail (.exec (t := 1) rfl
    (Exec.invalidate 1 (some "left") false [2] [] rfl (List.Perm.refl _) (List.Perm.refl _)))
  have hread : Read LeaseConfig.initial [some 2] (some ("left", false)) _ :=
    .next hleft rfl (.next .refl rfl (.found .refl rfl))
  have hcalled' := (run_here hleft).tail (.call (t := 2) rfl
    (Call.invalidate 0 (some "right") true (by decide)))
  have hright := hcalled'.tail (.exec (t := 2) rfl
    (Exec.invalidate 0 (some "right") true [2] [] rfl (List.Perm.refl _) (List.Perm.refl _)))
  have harrives := hright.tail (.exec (t := 2) rfl (Exec.child 0 2 [] [] [] "right" true))
  have hended := harrives.tail (.exec (t := 2) rfl
    (Exec.invalidate 2 (some "right") true [] [] rfl (List.Perm.refl _) (List.Perm.refl _)))
  exact ⟨_, hleft.trans hended, ⟨_, hread, hended⟩, ⟨_, .found (hleft.trans hended) rfl, .refl⟩⟩

end Dae
