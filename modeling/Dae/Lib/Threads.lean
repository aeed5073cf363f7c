import Mathlib

/-!
# Threads with call stacks

Threads share a state.  Each thread has a stack of jobs; an atomic section executes the job on
top, changes the shared state and puts other jobs in its place, and an idle thread may begin a
call at any time.  The sections of all threads are interleaved arbitrarily.

The rule is that of rely and guarantee: every section stays within a relation `R` on the shared
state, and what holds of a waiting job is stable under `R`.

* `Guarantee` — what has to be shown of one section;
* `Guarantee.run` — what then holds along every run;
* `Program` — a machine whose sections are functions, and `Program.play_run`, by which a schedule
  can be evaluated.
-/

namespace Threads

variable {σ J : Type*}

/-- The sections that begin a call, and those that execute a job. -/
structure Machine (σ J : Type*) where
  call : σ → σ → List J → Prop
  exec : σ → J → σ → List J → Prop

structure Config (σ J : Type*) where
  shared : σ
  threads : Nat → List J

/-- One section of one thread. -/
inductive Machine.Step (M : Machine σ J) : Config σ J → Config σ J → Prop where
  | call {c : Config σ J} {t : Nat} {s : σ} {jobs : List J} : c.threads t = [] →
      M.call c.shared s jobs → M.Step c ⟨s, Function.update c.threads t jobs⟩
  | exec {c : Config σ J} {t : Nat} {job : J} {rest : List J} {s : σ} {jobs : List J} :
      c.threads t = job :: rest → M.exec c.shared job s jobs →
      M.Step c ⟨s, Function.update c.threads t (jobs ++ rest)⟩

abbrev Machine.Run (M : Machine σ J) : Config σ J → Config σ J → Prop :=
  Relation.ReflTransGen M.Step

/-- The invariant `I` of the shared state and the assertion `P` of every waiting job. -/
structure Holds (I : σ → Prop) (P : σ → J → Prop) (c : Config σ J) : Prop where
  shared : I c.shared
  waiting : ∀ t, ∀ job ∈ c.threads t, P c.shared job

/-- The sections keep the invariant, stay within `R` and establish the assertions of their
jobs; assertions are stable under `R`. -/
structure Guarantee (M : Machine σ J) (I : σ → Prop) (P : σ → J → Prop) (R : σ → σ → Prop) : Prop where
  stable : ∀ {s s' job}, R s s' → P s job → P s' job
  call : ∀ {s s' jobs}, I s → M.call s s' jobs → R s s' ∧ I s' ∧ ∀ job ∈ jobs, P s' job
  exec : ∀ {s job s' jobs}, I s → P s job → M.exec s job s' jobs →
    R s s' ∧ I s' ∧ ∀ job ∈ jobs, P s' job

variable {M : Machine σ J} {I : σ → Prop} {P : σ → J → Prop} {R : σ → σ → Prop}

variable {c : Config σ J}

/-- The jobs of all threads after a section: those that were waiting and the new ones. -/
theorem holds_update {s : σ} {t : Nat} {jobs : List J} (hinv : I s)
    (hstable : ∀ t', ∀ job ∈ c.threads t', P s job) (hjobs : ∀ job ∈ jobs, P s job) :
    Holds I P ⟨s, Function.update c.threads t jobs⟩ := by
  refine ⟨hinv, fun t' job hjob => ?_⟩
  change job ∈ Function.update c.threads t jobs t' at hjob
  by_cases ht : t' = t
  · subst ht
    rw [Function.update_self] at hjob
    exact hjobs job hjob
  · rw [Function.update_of_ne ht] at hjob
    exact hstable t' job hjob

variable {c' : Config σ J}

theorem Guarantee.step (h : Guarantee M I P R) (hc : Holds I P c)
    (hstep : M.Step c c') : R c.shared c'.shared ∧ Holds I P c' := by
  cases hstep with
  | call _ hcall =>
    obtain ⟨hrel, hinv, hjobs⟩ := h.call hc.shared hcall
    exact ⟨hrel, holds_update hinv (fun t job hjob => h.stable hrel (hc.waiting t job hjob)) hjobs⟩
  | @exec t job rest s jobs ht hexec =>
    have hwaiting := hc.waiting t
    rw [ht] at hwaiting
    obtain ⟨hrel, hinv, hjobs⟩ := h.exec hc.shared (hwaiting job List.mem_cons_self) hexec
    refine ⟨hrel, holds_update hinv (fun t job hjob => h.stable hrel (hc.waiting t job hjob)) ?_⟩
    intro other hother
    rcases List.mem_append.mp hother with hnew | hold
    · exact hjobs other hnew
    · exact h.stable hrel (hwaiting other (List.mem_cons_of_mem job hold))

/-- **Along every run** the assertions hold, and the shared states are related by every
reflexive and transitive relation that has the sections. -/
theorem Guarantee.run (h : Guarantee M I P R) [Std.Refl R] [IsTrans σ R]
    (hc : Holds I P c) (hrun : M.Run c c') : R c.shared c'.shared ∧ Holds I P c' := by
  induction hrun with
  | refl => exact ⟨refl_of R _, hc⟩
  | tail _ hstep ih =>
    obtain ⟨hrel, hholds⟩ := h.step ih.2 hstep
    exact ⟨trans_of R ih.1 hrel, hholds⟩

/-! ### Programs -/

/-- Sections given by functions: a call, or a choice that the section makes, says which. -/
structure Program (σ J C D : Type*) where
  call : σ → C → σ × List J
  exec : σ → J → D → σ × List J

variable {C D : Type*}

/-- The machine of a program, for the sections that `ok` allows. -/
def Program.machine (P : Program σ J C D) (ok : σ → J → Prop) : Machine σ J where
  call s s' jobs := ∃ c, P.call s c = (s', jobs)
  exec s job s' jobs := ok s job ∧ ∃ d, P.exec s job d = (s', jobs)

/-- A move of a schedule. -/
inductive Move (C D : Type*) where
  | call (t : Nat) (c : C)
  | exec (t : Nat) (d : D)

variable (P : Program σ J C D) (ok : σ → J → Prop) [∀ s, DecidablePred (ok s)]

/-- The configuration after a move, if the move is possible. -/
def Program.move (c : Config σ J) : Move C D → Option (Config σ J)
  | .call t x =>
    match c.threads t with
    | [] => some ⟨(P.call c.shared x).1, Function.update c.threads t (P.call c.shared x).2⟩
    | _ :: _ => none
  | .exec t d =>
    match c.threads t with
    | [] => none
    | job :: rest =>
      if ok c.shared job then
        some ⟨(P.exec c.shared job d).1,
          Function.update c.threads t ((P.exec c.shared job d).2 ++ rest)⟩
      else none

def Program.play : Config σ J → List (Move C D) → Option (Config σ J)
  | c, [] => some c
  | c, m :: rest => (P.move ok c m).bind fun c' => Program.play c' rest

variable {P ok}

theorem Program.move_step {m : Move C D} (h : P.move ok c m = some c') :
    (P.machine ok).Step c c' := by
  unfold Program.move at h
  cases m with
  | call t x =>
    cases ht : c.threads t with
    | nil =>
      simp only [ht, Option.some.injEq] at h
      exact h ▸ .call ht ⟨x, rfl⟩
    | cons => simp [ht] at h
  | exec t d =>
    cases ht : c.threads t with
    | nil => simp [ht] at h
    | cons job rest =>
      by_cases hok : ok c.shared job
      · simp only [ht, if_pos hok, Option.some.injEq] at h
        exact h ▸ .exec ht ⟨hok, d, rfl⟩
      · simp [ht, hok] at h

/-- A schedule that can be played is a run. -/
theorem Program.play_run {moves : List (Move C D)}
    (h : P.play ok c moves = some c') : (P.machine ok).Run c c' := by
  induction moves generalizing c with
  | nil =>
    cases h
    exact .refl
  | cons m rest ih =>
    obtain ⟨c₁, hmove, hrest⟩ := Option.bind_eq_some_iff.mp h
    exact .head (Program.move_step hmove) (ih hrest)

end Threads
