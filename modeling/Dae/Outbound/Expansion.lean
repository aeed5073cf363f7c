import Dae.Outbound.GroupCompiler

/-!
# What a group expands to

The expansion of a group is the ordered product of its stages, path by path, with the
first stage running fastest: `List.sections`.  `GroupProduct` states it on the expansions
of the other groups, without a memo table and without the loops.
-/

namespace Dae

open Run

variable {w n : Nat}

/-! ### The product -/

/-- A path of another group passes the filters of a stage and its entry families. -/
def CompiledStage.passes (text : PathText) (stage : CompiledStage w n) (path : PathSpec w) : Bool :=
  pathFilterHit text path stage.filters == some true &&
    match mergeEntryOptions path.entry stage.entry with
    | .error _ => true
    | .ok entry => path.reachable text entry == some true

/-- A path of another group with what the stage adds to it. -/
structure Imported (stage : CompiledStage w n) (path fragment : PathSpec w) : Prop where
  nodes : fragment.nodes = path.nodes
  annotation :
    mergeAnnotations [some path.annotation, some stage.annotation] = .ok fragment.annotation
  entry : mergeEntryOptions path.entry stage.entry = .ok fragment.entry

/-- The fragments of a stage: its nodes, or the paths of its group that pass. -/
def StageFragments (text : PathText) (expansion : Fin n → Except String (List (PathSpec w)))
    (stage : CompiledStage w n) (fragments : List (PathSpec w)) : Prop :=
  match stage.group with
  | none => fragments = stage.nodes.map fun node => ⟨[node], stage.annotation, stage.entry⟩
  | some group => ∃ paths, expansion group = .ok paths ∧
      List.Forall₂ (Imported stage) (paths.filter (stage.passes text)) fragments

/-- The path of a chain of fragments. -/
structure Joined (fragments : List (PathSpec w)) (path : PathSpec w) : Prop where
  nodes : path.nodes = fragments.flatMap (·.nodes)
  annotation : mergeAnnotations (fragments.map fun f => some f.annotation) = .ok path.annotation
  entry : path.entry = (fragments.head?.map (·.entry)).getD {}

/-- One path of a group: the product of its stages, later stages major. -/
def PathProduct (text : PathText) (expansion : Fin n → Except String (List (PathSpec w)))
    (stages : List (CompiledStage w n)) (paths : List (PathSpec w)) : Prop :=
  ∃ fragments, List.Forall₂ (StageFragments text expansion) stages fragments ∧
    List.Forall₂ Joined fragments.sections paths

structure GroupProduct (text : PathText) (expansion : Fin n → Except String (List (PathSpec w)))
    (group : GroupDefinition w n) (paths : List (PathSpec w)) : Prop where
  product : ∃ parts, List.Forall₂ (PathProduct text expansion) group.paths parts ∧
    paths = parts.flatten
  depth : ∀ path ∈ paths, path.nodes.length ≤ maxProxyPathDepth
  count : paths.length ≤ maxExpandedPaths

/-! ### Lists -/

section Lists

variable {α β γ : Type}

theorem sections_concat (lists : List (List α)) (last : List α) :
    (lists ++ [last]).sections = last.flatMap fun a => lists.sections.map (· ++ [a]) := by
  induction lists with
  | nil =>
    simp [List.sections, List.map_eq_flatMap]
  | cons l lists ih =>
    rw [List.cons_append, List.sections, ih, List.flatMap_assoc, List.sections]
    refine congrArg (fun f => List.flatMap f last) (funext fun a => ?_)
    rw [List.flatMap_map, List.map_flatMap]
    refine congrArg (fun f => List.flatMap f lists.sections) (funext fun s => ?_)
    rw [List.map_map]
    rfl

theorem forall₂_flatMap {R : α → β → Prop} {f : γ → List α} {g : γ → List β}
    (h : ∀ c, List.Forall₂ R (f c) (g c)) (l : List γ) :
    List.Forall₂ R (l.flatMap f) (l.flatMap g) := by
  induction l with
  | nil => exact .nil
  | cons c l ih => exact List.rel_append (h c) ih

theorem forall₂_comp {R : α → β → Prop} {S : β → γ → Prop} {T : α → γ → Prop}
    (hT : ∀ a b c, R a b → S b c → T a c) {l₁ : List α} {l₂ : List β} {l₃ : List γ}
    (h₁ : List.Forall₂ R l₁ l₂) (h₂ : List.Forall₂ S l₂ l₃) : List.Forall₂ T l₁ l₃ := by
  induction h₁ generalizing l₃ with
  | nil =>
    cases h₂
    exact .nil
  | cons hab _ ih =>
    cases h₂ with
    | cons hbc h₂ => exact .cons (hT _ _ _ hab hbc) (ih h₂)

end Lists

namespace GroupCompiler

/-! ### Fragments of a stage -/

theorem pathFilterHit_returns {text : PathText} {path : PathSpec w} (hnodes : path.nodes ≠ [])
    (filters : List CompiledFilter) : ∃ hit, pathFilterHit text path filters = some hit := by
  induction filters with
  | nil => exact ⟨true, rfl⟩
  | cons filter filters ih =>
    obtain ⟨value, hvalue⟩ : ∃ value, path.filterValue filter.name = some value := by
      unfold PathSpec.filterValue
      split
      · rw [List.getLast?_eq_some_getLast hnodes]
        exact ⟨_, rfl⟩
      · exact ⟨_, rfl⟩
    rw [pathFilterHit, hvalue]
    by_cases hmatch : filter.matches text value = true
    · simp only [Option.bind_eq_bind, Option.bind_some, hmatch, if_true]
      exact ih
    · simp only [Option.bind_eq_bind, Option.bind_some, hmatch]
      exact ⟨false, rfl⟩

theorem reachable_returns {text : PathText} {path : PathSpec w} (hnodes : path.nodes ≠ [])
    (entry : EntryOptions) : ∃ reachable, path.reachable text entry = some reachable := by
  unfold PathSpec.reachable
  cases entry.families with
  | none => exact ⟨true, rfl⟩
  | some families =>
    rw [List.head?_eq_some_head hnodes]
    exact ⟨_, rfl⟩

/-- The loop over the paths of another group keeps those that pass. -/
theorem groupFragments_spec {text : PathText} {stage : CompiledStage w n}
    {paths : List (PathSpec w)} (hnodes : ∀ path ∈ paths, path.nodes ≠ []) :
    ∃ result, groupFragments text stage paths = some result ∧
      ∀ fragments, result = .ok fragments →
        List.Forall₂ (Imported stage) (paths.filter (stage.passes text)) fragments := by
  induction paths with
  | nil => exact ⟨.ok [], rfl, fun fragments h => by cases h; exact .nil⟩
  | cons path paths ih =>
    obtain ⟨rest, hrest, hspec⟩ := ih fun p hp => hnodes p (List.mem_cons_of_mem _ hp)
    obtain ⟨hit, hhit⟩ := @pathFilterHit_returns w text path
      (hnodes path List.mem_cons_self) stage.filters
    rw [groupFragments, hhit]
    cases hit with
    | false =>
      refine ⟨rest, hrest, fun fragments h => ?_⟩
      have hskip : stage.passes text path = false := by
        unfold CompiledStage.passes
        rw [hhit]
        rfl
      rw [List.filter_cons_of_neg (by rw [hskip]; exact Bool.false_ne_true)]
      exact hspec fragments h
    | true =>
      simp only [Option.bind_eq_bind, Option.bind_some, if_true]
      cases hmerge : mergeAnnotations [some path.annotation, some stage.annotation] with
      | error err => exact ⟨_, rfl, fun fragments h => nomatch h⟩
      | ok merged =>
        cases hentry : mergeEntryOptions path.entry stage.entry with
        | error err => exact ⟨_, rfl, fun fragments h => nomatch h⟩
        | ok entry =>
          obtain ⟨reachable, hreachable⟩ :=
            @reachable_returns w text path (hnodes path List.mem_cons_self) entry
          have hpasses : stage.passes text path = reachable := by
            unfold CompiledStage.passes
            simp only [hhit, hentry, hreachable]
            cases reachable <;> rfl
          simp only [hreachable, ← hpasses, hrest, Option.bind_some]
          cases hpass : stage.passes text path with
          | false =>
            refine ⟨rest, rfl, fun fragments h => ?_⟩
            rw [List.filter_cons_of_neg (by rw [hpass]; exact Bool.false_ne_true)]
            exact hspec fragments h
          | true =>
            refine ⟨_, rfl, fun fragments h => ?_⟩
            rw [List.filter_cons_of_pos hpass]
            cases rest with
            | error err => cases h
            | ok rest =>
              cases h
              exact .cons ⟨rfl, hmerge, hentry⟩ (hspec rest rfl)

/-! ### Joining -/

theorem joinPath_ok {text : PathText} {name : String} {stageIndex : Nat}
    {before fragment path : PathSpec w} (h : joinPath text name stageIndex before fragment = .ok path) :
    path.nodes = before.nodes ++ fragment.nodes ∧ path.nodes.length ≤ maxProxyPathDepth ∧
      mergeAnnotations [some before.annotation, some fragment.annotation] = .ok path.annotation ∧
      path.entry = if stageIndex = 0 then fragment.entry else before.entry := by
  unfold joinPath at h
  obtain ⟨hdepth, h⟩ := Except.ite_error_eq_ok h
  obtain ⟨merged, hnote, h⟩ := Except.bind_eq_ok h
  cases h
  exact ⟨rfl, not_lt.mp hdepth, Except.mapError_eq_ok hnote, rfl⟩

theorem joinPaths_ok {text : PathText} {name : String} {stageIndex : Nat}
    {pairs : List (PathSpec w × PathSpec w)} {paths : List (PathSpec w)}
    (h : joinPaths text name stageIndex pairs = .ok paths) :
    List.Forall₂ (fun pair path => joinPath text name stageIndex pair.1 pair.2 = .ok path)
      pairs paths := by
  induction pairs generalizing paths with
  | nil =>
    cases h
    exact .nil
  | cons pair pairs ih =>
    rw [joinPaths] at h
    obtain ⟨path, hpath, h⟩ := Except.bind_eq_ok h
    obtain ⟨rest, hrest, h⟩ := Except.bind_eq_ok h
    cases h
    exact .cons hpath (ih hrest)

/-- One stage multiplies the product by its fragments. -/
theorem joined_concat {text : PathText} {name : String} {chains : List (List (PathSpec w))}
    {current fragments next : List (PathSpec w)} (hcurrent : List.Forall₂ Joined chains.sections current)
    (h : joinPaths text name chains.length
      (fragments.flatMap fun fragment => current.map fun before => (before, fragment)) = .ok next) :
    List.Forall₂ Joined (chains ++ [fragments]).sections next ∧
      ∀ path ∈ next, path.nodes.length ≤ maxProxyPathDepth := by
  have hjoined := joinPaths_ok h
  have hpairs : List.Forall₂
      (fun chain (pair : PathSpec w × PathSpec w) => ∃ s ∈ chains.sections, chain = s ++ [pair.2] ∧
        Joined s pair.1)
      (chains ++ [fragments]).sections
      (fragments.flatMap fun fragment => current.map fun before => (before, fragment)) := by
    rw [sections_concat]
    refine forall₂_flatMap (fun fragment => ?_) fragments
    rw [List.forall₂_map_left_iff, List.forall₂_map_right_iff]
    have hmem := (List.forall₂_and_left _ _).mpr ⟨fun s hs => hs, hcurrent⟩
    exact hmem.imp fun s before ⟨hs, hj⟩ => ⟨s, hs, rfl, hj⟩
  refine ⟨forall₂_comp ?_ hpairs hjoined, ?_⟩
  · rintro chain ⟨before, fragment⟩ path ⟨s, hs, rfl, hbefore⟩ hpath
    obtain ⟨hnodes, -, hnote, hentry⟩ := joinPath_ok hpath
    refine ⟨?_, ?_, ?_⟩
    · rw [hnodes, hbefore.nodes, List.flatMap_append, List.flatMap_singleton]
    · rw [List.map_append]
      exact mergeAnnotations_concat hbefore.annotation hnote
    · have hlength := List.mem_sections_length hs
      rw [hentry, hbefore.entry]
      cases s with
      | nil =>
        rw [← hlength, if_pos List.length_nil]
        rfl
      | cons f s =>
        rw [← hlength, if_neg (by simp)]
        rfl
  · intro path hpath
    obtain ⟨pair, -, hpair⟩ := hjoined.exists_left hpath
    exact (joinPath_ok hpair).2.1

/-! ### Stages, paths and groups -/

section Answers

variable {text : PathText} {expansion : Fin n → Except String (List (PathSpec w))}
  {sound : Expanded w n → Prop}

/-- The expansions have no path without nodes. -/
def Solid (expansion : Fin n → Except String (List (PathSpec w))) (group : Fin n) : Prop :=
  ∀ paths, expansion group = .ok paths → ∀ path ∈ paths, path.nodes ≠ []

/-- The result that a computation has with any right way to expand the given groups. -/
def AnswersWith (sound : Expanded w n → Prop) (expansion : Fin n → Except String (List (PathSpec w)))
    (groups : List (Fin n))
    (run : (Fin n → Run (Expanded w n) String (List (PathSpec w))) →
      Run (Expanded w n) String (List (PathSpec w)))
    (result : Except String (List (PathSpec w))) : Prop :=
  ∀ expandedPaths, (∀ group ∈ groups, Answers sound (expandedPaths group) (expansion group)) →
    Answers sound (run expandedPaths) result

theorem expandStage_answers {stage : CompiledStage w n} {groups : List (Fin n)}
    (hgroup : ∀ group, stage.group = some group → group ∈ groups)
    (hsolid : ∀ group ∈ groups, Solid expansion group) :
    ∃ result, AnswersWith sound expansion groups (fun rec => expandStage text rec stage) result ∧
      ∀ fragments, result = .ok fragments → StageFragments text expansion stage fragments := by
  unfold expandStage StageFragments
  cases hstage : stage.group with
  | none =>
    exact ⟨.ok _, fun _ _ => Answers.pure _, fun fragments h => (Except.ok.inj h).symm⟩
  | some group =>
    have hmem := hgroup group hstage
    cases hpaths : expansion group with
    | error err =>
      refine ⟨.error err, fun rec hrec => Answers.bind_error ?_, fun fragments h => nomatch h⟩
      rw [← hpaths]
      exact hrec group hmem
    | ok paths =>
      obtain ⟨result, hresult, hspec⟩ :=
        @groupFragments_spec w n text stage paths (hsolid group hmem paths hpaths)
      refine ⟨result, fun rec hrec => ?_, fun fragments h => ⟨paths, hpaths, hspec fragments h⟩⟩
      refine Answers.bind (a := paths) ?_ ?_
      · rw [← hpaths]
        exact hrec group hmem
      · rw [hresult]
        exact Answers.lift result

/-- The stages of a path, from a product of the stages before. -/
theorem expandStages_answers {groups : List (Fin n)}
    (hsolid : ∀ group ∈ groups, Solid expansion group) {name : String} {pathIndex : Nat}
    {stages : List (CompiledStage w n)}
    (hgroups : ∀ stage ∈ stages, ∀ group, stage.group = some group → group ∈ groups)
    {chains : List (List (PathSpec w))} {current : List (PathSpec w)}
    (hcurrent : List.Forall₂ Joined chains.sections current) :
    ∃ result, AnswersWith sound expansion groups
        (fun rec => expandStages text rec name pathIndex chains.length stages current) result ∧
      ∀ paths, result = .ok paths →
        (∃ fragments, List.Forall₂ (StageFragments text expansion) stages fragments ∧
          List.Forall₂ Joined (chains ++ fragments).sections paths) ∧
        (stages ≠ [] ∨ (∀ path ∈ current, path.nodes.length ≤ maxProxyPathDepth) →
          ∀ path ∈ paths, path.nodes.length ≤ maxProxyPathDepth) := by
  induction stages generalizing chains current with
  | nil =>
    refine ⟨.ok current, fun _ _ => Answers.pure current, fun paths h => ?_⟩
    cases h
    refine ⟨⟨[], .nil, ?_⟩, fun h => h.resolve_left (fun h => h rfl)⟩
    rwa [List.append_nil]
  | cons stage stages ih =>
    obtain ⟨stageResult, hstage, hfragments⟩ := @expandStage_answers w n text expansion sound stage
      groups (hgroups stage List.mem_cons_self) hsolid
    unfold expandStages
    cases stageResult with
    | error err =>
      exact ⟨.error _, fun rec hrec => Answers.bind_error (hstage rec hrec).mapError,
        fun paths h => nomatch h⟩
    | ok fragments =>
      obtain ⟨joined, hjoined⟩ : ∃ joined : Except String (List (PathSpec w)), joined =
          if fragments.length ≠ 0 ∧ maxExpandedPaths / fragments.length < current.length then
            .error (exceedsLimit text name)
          else
            joinPaths text name chains.length
              (fragments.flatMap fun fragment => current.map fun before => (before, fragment)) :=
        ⟨_, rfl⟩
      cases joined with
      | error err =>
        refine ⟨.error err, fun rec hrec => ?_, fun paths h => nomatch h⟩
        refine Answers.bind (hstage rec hrec).mapError (Answers.bind_error ?_)
        rw [← hjoined]
        exact Answers.lift _
      | ok next =>
        obtain ⟨hnext, hdepth⟩ := joined_concat hcurrent (Except.ite_error_eq_ok hjoined.symm).2
        obtain ⟨result, hresult, hspec⟩ :=
          ih (fun s hs => hgroups s (List.mem_cons_of_mem _ hs)) hnext
        refine ⟨result, fun rec hrec => ?_, fun paths h => ?_⟩
        · refine Answers.bind (hstage rec hrec).mapError (Answers.bind (a := next) ?_ ?_)
          · rw [← hjoined]
            exact Answers.lift _
          · have := hresult rec hrec
            rwa [List.length_append, List.length_singleton] at this
        · obtain ⟨⟨rest, hrest, hproduct⟩, hpaths⟩ := hspec paths h
          refine ⟨⟨fragments :: rest, .cons (hfragments fragments rfl) hrest, ?_⟩,
            fun _ => hpaths (.inr hdepth)⟩
          rwa [List.append_assoc, List.singleton_append] at hproduct

/-- The paths of a group, after those already expanded. -/
theorem expandPaths_answers {groups : List (Fin n)}
    (hsolid : ∀ group ∈ groups, Solid expansion group) {name : String}
    {rest : List (List (CompiledStage w n))} (hstages : ∀ path ∈ rest, path ≠ [])
    (hgroups : ∀ path ∈ rest, ∀ stage ∈ path, ∀ group, stage.group = some group → group ∈ groups)
    {pathIndex : Nat} {done : List (PathSpec w)} :
    ∃ result, AnswersWith sound expansion groups
        (fun rec => expandPaths text rec name pathIndex rest done) result ∧
      ∀ paths, result = .ok paths → ∃ parts,
        List.Forall₂ (PathProduct text expansion) rest parts ∧ paths = done ++ parts.flatten ∧
        ((∀ path ∈ done, path.nodes.length ≤ maxProxyPathDepth) →
          ∀ path ∈ paths, path.nodes.length ≤ maxProxyPathDepth) ∧
        (done.length ≤ maxExpandedPaths → paths.length ≤ maxExpandedPaths) := by
  induction rest generalizing pathIndex done with
  | nil =>
    refine ⟨.ok done, fun _ _ => Answers.pure done, fun paths h => ?_⟩
    cases h
    exact ⟨[], .nil, (List.append_nil _).symm, id, id⟩
  | cons path rest ih =>
    have hempty : List.Forall₂ Joined ([] : List (List (PathSpec w))).sections [{}] :=
      .cons ⟨rfl, rfl, rfl⟩ .nil
    obtain ⟨pathResult, hpath, hproduct⟩ := @expandStages_answers w n text expansion sound groups
      hsolid name pathIndex path (hgroups path List.mem_cons_self) [] [{}] hempty
    unfold expandPaths
    cases pathResult with
    | error err =>
      exact ⟨.error err, fun rec hrec => Answers.bind_error (hpath rec hrec),
        fun paths h => nomatch h⟩
    | ok current =>
      obtain ⟨⟨fragments, hfragments, hjoined⟩, hdepth⟩ := hproduct current rfl
      by_cases hlimit : maxExpandedPaths - done.length < current.length
      · refine ⟨.error (exceedsLimit text name), fun rec hrec => ?_, fun paths h => nomatch h⟩
        refine Answers.bind (hpath rec hrec) (Answers.bind_error ?_)
        rw [if_pos hlimit]
        exact Answers.lift _
      · obtain ⟨result, hresult, hspec⟩ :=
          @ih (fun p hp => hstages p (List.mem_cons_of_mem _ hp))
            (fun p hp => hgroups p (List.mem_cons_of_mem _ hp)) (pathIndex + 1) (done ++ current)
        refine ⟨result, fun rec hrec => ?_, fun paths h => ?_⟩
        · refine Answers.bind (hpath rec hrec) (Answers.bind (a := done ++ current) ?_
            (hresult rec hrec))
          rw [if_neg hlimit]
          exact Answers.lift _
        · obtain ⟨parts, hparts, rfl, hdeep, hcount⟩ := hspec paths h
          refine ⟨current :: parts, .cons ⟨fragments, hfragments, hjoined⟩ hparts, ?_, ?_, ?_⟩
          · rw [List.flatten_cons, List.append_assoc]
          · intro hdone
            refine hdeep fun p hp => ?_
            rcases List.mem_append.mp hp with hp | hp
            · exact hdone p hp
            · exact hdepth (.inl (hstages path List.mem_cons_self)) p hp
          · intro hdone
            refine hcount ?_
            rw [List.length_append]
            omega

/-- **One expansion.**  With any right way to expand its dependencies, a group expands to the
product of its stages. -/
theorem expand_answers {group : GroupDefinition w n}
    (hsolid : ∀ d ∈ group.dependencies, Solid expansion d) :
    ∃ result, AnswersWith sound expansion group.dependencies
        (fun rec => expand text rec group) result ∧
      ∀ paths, result = .ok paths → GroupProduct text expansion group paths := by
  have hgroups : ∀ path ∈ group.paths, ∀ stage ∈ path, ∀ d, stage.group = some d →
      d ∈ group.dependencies := by
    intro path hpath stage hstage d hd
    exact List.mem_filterMap.mpr ⟨stage, List.mem_flatten_of_mem hpath hstage, hd⟩
  obtain ⟨result, hresult, hspec⟩ := @expandPaths_answers w n text expansion sound
    group.dependencies hsolid group.name group.paths group.stages hgroups 0 []
  refine ⟨result, hresult, fun paths h => ?_⟩
  obtain ⟨parts, hparts, rfl, hdepth, hcount⟩ := hspec paths h
  exact ⟨⟨parts, hparts, rfl⟩, hdepth (fun _ h => nomatch h), hcount (Nat.zero_le _)⟩

end Answers

/-! ### The memo table -/

section Memo

variable {c : GroupCompiler w} {text : PathText}

/-- The expansion of a group on its own. -/
def expansion (c : GroupCompiler w) (text : PathText) (group : Fin c.size) :
    Except String (List (PathSpec w)) :=
  match expandedPaths c text (c.size + 1) group (fun _ => none) with
  | some (result, _) => result
  | none => .error ""

/-- The table holds right expansions only. -/
def Sound (c : GroupCompiler w) (text : PathText) (expanded : Expanded w c.size) : Prop :=
  ∀ group paths, expanded group = some paths → expansion c text group = .ok paths

theorem sound_empty : Sound c text fun _ => none := fun _ _ h => nomatch h

/-- The product of solid fragments is solid. -/
theorem nodes_ne_nil_of_product {group : Fin c.size} {paths : List (PathSpec w)}
    (h : GroupProduct text (expansion c text) (c.ordered group) paths)
    (hsolid : ∀ d ∈ (c.ordered group).dependencies, Solid (expansion c text) d) :
    ∀ path ∈ paths, path.nodes ≠ [] := by
  obtain ⟨⟨parts, hparts, rfl⟩, -, -⟩ := h
  intro path hpath
  obtain ⟨part, hpart, hpath⟩ := List.mem_flatten.mp hpath
  obtain ⟨stages, hstages, fragments, hfragments, hjoined⟩ := hparts.exists_left hpart
  obtain ⟨chain, hchain, hpath⟩ := hjoined.exists_left hpath
  have hchain := List.mem_sections.mp hchain
  rw [hpath.nodes]
  -- The first stage of the path contributes nodes.
  cases hfragments with
  | nil => exact absurd rfl ((c.ordered group).stages _ hstages)
  | @cons stage list rest lists hstage hrest =>
    cases hchain with
    | @cons fragment _ chain _ hfragment _ =>
      have hnodes : fragment.nodes ≠ [] := by
        unfold StageFragments at hstage
        cases hgroup : stage.group with
        | none =>
          rw [hgroup] at hstage
          change list = _ at hstage
          rw [hstage] at hfragment
          obtain ⟨node, -, rfl⟩ := List.mem_map.mp hfragment
          exact List.cons_ne_nil _ _
        | some d =>
          rw [hgroup] at hstage
          obtain ⟨inner, hinner, himported⟩ := hstage
          obtain ⟨p, hp, hp'⟩ := himported.exists_left hfragment
          have hd : d ∈ (c.ordered group).dependencies :=
            List.mem_filterMap.mpr ⟨stage,
              List.mem_flatten_of_mem hstages List.mem_cons_self, hgroup⟩
          rw [hp'.nodes]
          exact hsolid d hd inner hinner p (List.mem_filter.mp hp).1
      rw [List.flatMap_cons]
      exact fun h => hnodes (List.append_eq_nil_iff.mp h).1

/-- Along a topological order, the groups before a group are enough fuel for it. -/
theorem expandedPaths_answers {order : List (Fin c.size)} (hnodup : order.Nodup)
    (horder : Dfs.Topological (fun group => (c.ordered group).dependencies) order)
    {before after : List (Fin c.size)} {group : Fin c.size} (hsplit : order = before ++ group :: after) :
    (∀ fuel, before.length < fuel →
      Answers (Sound c text) (expandedPaths c text fuel group) (expansion c text group)) ∧
    (∀ paths, expansion c text group = .ok paths →
      GroupProduct text (expansion c text) (c.ordered group) paths) ∧
    Solid (expansion c text) group := by
  induction hlength : before.length using Nat.strong_induction_on
    generalizing before after group with
  | _ k ih =>
    have hdeps : ∀ d ∈ (c.ordered group).dependencies, ∀ fuel, before.length ≤ fuel →
        Answers (Sound c text) (expandedPaths c text fuel d) (expansion c text d) ∧
          Solid (expansion c text) d := by
      intro d hd fuel hfuel
      obtain ⟨first, second, rfl⟩ :=
        List.append_of_mem (horder before group after hsplit d hd)
      rw [List.length_append, List.length_cons] at hlength hfuel
      have hd := @ih first.length (by omega) first (second ++ group :: after) d
        (by rw [hsplit, List.append_assoc]; rfl) rfl
      exact ⟨hd.1 fuel (by omega), hd.2.2⟩
    have hsize : before.length ≤ c.size := by
      have := hnodup.length_le_card
      rw [hsplit, List.length_append, Fintype.card_fin] at this
      omega
    have hsolid : ∀ d ∈ (c.ordered group).dependencies, Solid (expansion c text) d :=
      fun d hd => (hdeps d hd c.size hsize).2
    obtain ⟨result, hresult, hproduct⟩ := @expand_answers w c.size text (expansion c text)
      (Sound c text) (c.ordered group) hsolid
    have hexpansion : expansion c text group = result := by
      obtain ⟨s, hrun, -⟩ := hresult (expandedPaths c text c.size)
        (fun d hd => (hdeps d hd c.size hsize).1) _ sound_empty
      unfold expansion expandedPaths
      simp only [hrun]
      cases result <;> rfl
    refine ⟨fun fuel hfuel => ?_, fun paths h => hproduct paths (hexpansion ▸ h),
      fun paths h => nodes_ne_nil_of_product (hproduct paths (hexpansion ▸ h)) hsolid⟩
    obtain ⟨fuel, rfl⟩ : ∃ m, fuel = m + 1 := ⟨fuel - 1, by omega⟩
    intro expanded hsound
    unfold expandedPaths
    cases hmemo : expanded group with
    | some paths => exact ⟨expanded, by rw [hsound group paths hmemo], hsound⟩
    | none =>
      obtain ⟨expanded', hrun, hsound'⟩ := hresult (expandedPaths c text fuel)
        (fun d hd => (hdeps d hd fuel (by omega)).1) expanded hsound
      simp only [hrun]
      rw [hexpansion]
      cases result with
      | error err => exact ⟨expanded', rfl, hsound'⟩
      | ok paths =>
        refine ⟨_, rfl, fun g p hp => ?_⟩
        by_cases hg : g = group
        · rw [hg, Function.update_self] at hp
          rw [hg, hexpansion]
          exact congrArg Except.ok (Option.some_inj.mp hp)
        · rw [Function.update_of_ne hg] at hp
          exact hsound' g p hp

/-- Groups accepted by `validateCycles` have a topological order. -/
theorem exists_order (hvalid : c.validateCycles = some (.ok ())) :
    ∃ order : List (Fin c.size), order.Nodup ∧ (∀ group, group ∈ order) ∧
      Dfs.Topological (fun group => (c.ordered group).dependencies) order := by
  unfold validateCycles at hvalid
  obtain ⟨result, hrun, hresult⟩ := Option.map_eq_some_iff.mp hvalid
  obtain ⟨s, rfl, -⟩ := Except.map_eq_ok hresult
  have hstart : Dfs.Order (fun group => (c.ordered group).dependencies)
      ({} : Dfs.Search (Fin c.size)) [] :=
    ⟨fun _ => ⟨fun h => (nomatch h), fun h => (nomatch h)⟩, List.nodup_nil, by
      intro before a after h
      exact absurd h.symm (List.append_ne_nil_of_right_ne_nil _ (List.cons_ne_nil _ _))⟩
  obtain ⟨order, horder, hall, -⟩ :=
    Dfs.visitAll_order (fun a s s' order h => Dfs.visit_order h) hrun hstart
  rw [List.nil_append] at horder hall
  exact ⟨order, horder.nodup, fun group => hall group (List.mem_finRange group), horder.topological⟩

/-- **`validateCycles` is exact.**  It ends for all groups; it accepts those without a cycle of
references, and for others it names a cycle. -/
theorem validateCycles_exact (c : GroupCompiler w) :
    c.validateCycles = some (.ok ()) ∧
        (∀ cycle, ¬Dfs.Cycle (fun group => (c.ordered group).dependencies) cycle) ∨
      ∃ cycle, Dfs.Cycle (fun group => (c.ordered group).dependencies) cycle ∧
        c.validateCycles = some (.error (c.reportCycle cycle)) := by
  have hready : ∀ group ∈ List.finRange c.size, Dfs.Ready
      (fun group => (c.ordered group).dependencies) (c.size + 1) {} [] group := by
    intro group _
    exact ⟨⟨by simp, List.nodup_nil, fun _ _ _ h => by simp at h⟩, by simp, .singleton group,
      by simp [Dfs.remaining]⟩
  unfold validateCycles
  rcases Dfs.visitAll_ends Dfs.visit_ends hready with ⟨s, hrun, -⟩ | ⟨cycle, hcycle, hrun⟩
  · obtain ⟨order, -, hall, horder⟩ := @exists_order w c (by rw [validateCycles, hrun]; rfl)
    exact .inl ⟨by rw [hrun]; rfl, horder.not_cycle hall⟩
  · exact .inr ⟨cycle, hcycle, by rw [hrun]; rfl⟩

/-- Any groups may be expanded in any order. -/
theorem expandAll_answers (hvalid : c.validateCycles = some (.ok ())) {fuel : Nat}
    (hfuel : c.size ≤ fuel) (groups : List (Fin c.size)) {expanded : Expanded w c.size}
    (hsound : Sound c text expanded) :
    ∃ expanded', c.expandAll text fuel groups expanded =
      some (groups.map (expansion c text), expanded') ∧ Sound c text expanded' := by
  obtain ⟨order, hnodup, hall, horder⟩ := exists_order hvalid
  induction groups generalizing expanded with
  | nil => exact ⟨expanded, rfl, hsound⟩
  | cons group groups ih =>
    obtain ⟨before, after, hsplit⟩ := List.append_of_mem (hall group)
    have hlength : before.length < fuel := by
      have := hnodup.length_le_card
      rw [hsplit, List.length_append, List.length_cons, Fintype.card_fin] at this
      omega
    obtain ⟨expanded₁, hrun, hsound₁⟩ :=
      (expandedPaths_answers hnodup horder hsplit).1 fuel hlength expanded hsound
    obtain ⟨expanded₂, hrun₂, hsound₂⟩ := ih hsound₁
    refine ⟨expanded₂, ?_, hsound₂⟩
    rw [expandAll, hrun]
    simp only [Option.bind_eq_bind, Option.bind_some, hrun₂, List.map_cons]

end Memo

/-- **Expansion is the ordered product.**  For groups accepted by `validateCycles` there is
one result for each group, which is what it expands to in every order of expansion, and a
result that is not an error is the ordered product of the stages within the limits. -/
theorem expandAll_product {c : GroupCompiler w} (text : PathText)
    (hvalid : c.validateCycles = some (.ok ())) :
    ∃ result : Fin c.size → Except String (List (PathSpec w)),
      (∀ fuel, c.size ≤ fuel → ∀ groups, ∃ expanded,
        c.expandAll text fuel groups (fun _ => none) = some (groups.map result, expanded)) ∧
      ∀ group paths, result group = .ok paths →
        GroupProduct text result (c.ordered group) paths := by
  refine ⟨expansion c text, fun fuel hfuel groups => ?_, fun group paths h => ?_⟩
  · obtain ⟨expanded, hrun, -⟩ := @expandAll_answers w c text hvalid fuel hfuel groups _ sound_empty
    exact ⟨expanded, hrun⟩
  · obtain ⟨order, hnodup, hall, horder⟩ := exists_order hvalid
    obtain ⟨before, after, hsplit⟩ := List.append_of_mem (hall group)
    exact (expandedPaths_answers hnodup horder hsplit).2.1 paths h

/-- A group of two nodes, and a group that chains two paths of it. -/
def sampleCompiler : GroupCompiler 64 where
  size := 2
  ordered
    | 0 =>
      { name := "chain"
        paths := [[{ group := some 1 }, { group := some 1, annotation := { priority := 1 } }]]
        stages := by decide }
    | 1 =>
      { name := "nodes"
        paths := [[{ nodes := [⟨"", "a", "", "", "a:1"⟩, ⟨"", "b", "", "", "b:1"⟩] }]]
        stages := by decide }

def samplePathText : PathText where
  quote s := s
  splitHost _ := none
  parseAddr _ := none
  matchString _ _ := false

theorem expandAll_product_sample : ∃ result : Fin 2 → Except String (List (PathSpec 64)),
    (∃ expanded, sampleCompiler.expandAll samplePathText 2 [(1 : Fin 2), (0 : Fin 2)] (fun _ => none) =
      some ([(1 : Fin 2), (0 : Fin 2)].map result, expanded)) ∧
    ∀ paths, result 0 = .ok paths →
      GroupProduct samplePathText result (sampleCompiler.ordered (0 : Fin 2)) paths := by
  obtain ⟨result, hrun, hproduct⟩ :=
    @expandAll_product 64 sampleCompiler samplePathText (by decide +kernel)
  exact ⟨result, hrun 2 le_rfl [(1 : Fin 2), (0 : Fin 2)], hproduct (0 : Fin 2)⟩

end GroupCompiler

end Dae
