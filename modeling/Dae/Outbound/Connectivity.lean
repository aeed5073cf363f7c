import Dae.Lib.Result
import Dae.Outbound.ConnectionPolicy

/-!
# Routing projections of a group

Observers of a group copy its availability, each into a routing projection of its own.  The
group remembers what it has published and publishes changes only.
-/

namespace Dae

namespace DialerGroup

/-- Every observer has what the group remembers. -/
def Synced (g : DialerGroup) : Prop := ∀ value ∈ g.observers, value = g.networkAvailable

/-- The observers accept or refuse a publication as a whole. -/
def Together (g : DialerGroup) (answers : Answers) : Prop :=
  (∀ i < g.observers.length, answers i = none) ∨ ∀ i < g.observers.length, answers i ≠ none

/-- The group with another availability, which all observers have accepted. -/
def withAvailable (g : DialerGroup) (available : Network → Bool) : DialerGroup :=
  { g with
    networkAvailable := available
    observers := List.replicate g.observers.length available }

@[simp] theorem networkAvailable_withAvailable (g : DialerGroup) (available : Network → Bool) :
    (g.withAvailable available).networkAvailable = available := rfl

@[simp] theorem length_withAvailable (g : DialerGroup) (available : Network → Bool) :
    (g.withAvailable available).observers.length = g.observers.length :=
  List.length_replicate

variable {quote : String → String} {health : Health} {answers : Answers} {n : Network}
  {g g' : DialerGroup} {leases : Leases} {index : Int}

theorem Synced.observers (h : g.Synced) :
    g.observers = List.replicate g.observers.length g.networkAvailable :=
  List.eq_replicate_of_mem h

theorem Synced.withAvailable_self (h : g.Synced) :
    g.withAvailable g.networkAvailable = g := by
  rw [withAvailable, ← h.observers]

theorem synced_withAvailable (g : DialerGroup) (available : Network → Bool) :
    (g.withAvailable available).Synced :=
  fun _ h => List.eq_of_mem_replicate h

theorem withAvailable_withAvailable (g : DialerGroup) (a b : Network → Bool) :
    (g.withAvailable a).withAvailable b = g.withAvailable b := by
  simp [withAvailable]

/-! ### One publication -/

theorem mapIdx_accepted (h : g.Synced) {available : Bool}
    (haccept : ∀ i < g.observers.length, answers i = none) :
    (g.observers.mapIdx fun i value =>
      if answers i = none then Function.update value n available else value) =
      List.replicate g.observers.length (Function.update g.networkAvailable n available) := by
  refine List.eq_replicate_iff.mpr ⟨List.length_mapIdx, fun value hvalue => ?_⟩
  obtain ⟨i, hi, rfl⟩ := List.mem_mapIdx.mp hvalue
  rw [if_pos (haccept i hi), h _ (List.getElem_mem hi)]

theorem mapIdx_refused {available : Bool} (hrefuse : ∀ i < g.observers.length, answers i ≠ none) :
    (g.observers.mapIdx fun i value =>
      if answers i = none then Function.update value n available else value) = g.observers := by
  refine List.ext_getElem List.length_mapIdx fun i hi hi' => ?_
  rw [List.getElem_mapIdx, if_neg (hrefuse i hi')]

theorem errors_eq_nil_iff :
    (List.range g.observers.length).filterMap answers = [] ↔
      ∀ i < g.observers.length, answers i = none := by
  rw [List.filterMap_eq_nil_iff]
  exact forall_congr' fun i => by rw [List.mem_range]

/-- A publication that is accepted is remembered; one that is refused changes nothing. -/
theorem publishNetworkAvailable_together (h : g.Synced) (htogether : g.Together answers)
    (n : Network) (available : Bool) :
    ∃ value, (publishNetworkAvailable answers n available g).2 =
        g.withAvailable (Function.update g.networkAvailable n value) ∧
      (value = g.networkAvailable n ∨ value = available) ∧
      ((∀ i < g.observers.length, answers i = none) → value = available) := by
  unfold publishNetworkAvailable
  by_cases hsame : g.networkAvailable n = available
  · refine ⟨g.networkAvailable n, ?_, .inl rfl, fun _ => hsame⟩
    rw [if_pos hsame, Function.update_eq_self, h.withAvailable_self]
  · rw [if_neg hsame]
    by_cases haccept : ∀ i < g.observers.length, answers i = none
    · refine ⟨available, ?_, .inr rfl, fun _ => rfl⟩
      simp only [publishConnectivity, errors_eq_nil_iff.mpr haccept, mapIdx_accepted h haccept,
        ne_eq, not_true_eq_false, if_false, withAvailable]
    · refine ⟨g.networkAvailable n, ?_, .inl rfl, fun hall => absurd hall haccept⟩
      have hrefuse := htogether.resolve_left haccept
      have herr : (List.range g.observers.length).filterMap answers ≠ [] :=
        fun h => haccept (errors_eq_nil_iff.mp h)
      simp only [publishConnectivity, herr, ne_eq, not_false_eq_true, if_true,
        mapIdx_refused hrefuse, Function.update_eq_self, h.withAvailable_self]

/-- **One publication.**  A change of availability leaves the observers current exactly when
they accept it or refuse it as a whole. -/
theorem publishNetworkAvailable_synced_iff (h : g.Synced) {available : Bool}
    (hchange : g.networkAvailable n ≠ available) :
    (publishNetworkAvailable answers n available g).2.Synced ↔ g.Together answers := by
  constructor
  · intro hsynced
    by_contra hsplit
    obtain ⟨⟨i, hi, hrefused⟩, j, hj, haccepted⟩ :
        (∃ i, ∃ _ : i < g.observers.length, answers i ≠ none) ∧
          ∃ j, ∃ _ : j < g.observers.length, answers j = none := by
      rw [Together, not_or] at hsplit
      push Not at hsplit
      obtain ⟨⟨i, hi, hi'⟩, j, hj, hj'⟩ := hsplit
      exact ⟨⟨i, hi, hi'⟩, j, hj, hj'⟩
    have herr : (List.range g.observers.length).filterMap answers ≠ [] :=
      fun h => hrefused (errors_eq_nil_iff.mp h i hi)
    unfold publishNetworkAvailable at hsynced
    simp only [if_neg hchange, publishConnectivity, herr, ne_eq, not_false_eq_true, if_true] at hsynced
    have hvalue := hsynced _ (List.mem_mapIdx.mpr ⟨j, hj, rfl⟩)
    rw [if_pos haccepted, h _ (List.getElem_mem hj)] at hvalue
    have := congrFun hvalue n
    rw [Function.update_self] at this
    exact hchange this.symm
  · intro htogether
    obtain ⟨value, hresult, -⟩ := publishNetworkAvailable_together h htogether n available
    rw [hresult]
    exact synced_withAvailable _ _

/-! ### An update -/

theorem updateLoop_together {answers : Network → Answers} {networks retain : Network → Bool}
    {rest : List Network} (h : g.Synced) (htogether : ∀ n, g.Together (answers n)) :
    ∃ available, (updateLoop answers networks retain rest g).2 = g.withAvailable available ∧
      (∀ n, available n = g.networkAvailable n ∨ available n = networks n) ∧
      ((∀ n, ∀ i < g.observers.length, answers n i = none) → ∀ n ∈ rest,
        (retain n && !networks n) = false → available n = networks n) := by
  induction rest generalizing g with
  | nil =>
    exact ⟨g.networkAvailable, h.withAvailable_self.symm, fun _ => .inl rfl,
      fun _ _ hn => nomatch hn⟩
  | cons n rest ih =>
    unfold updateLoop
    by_cases hretain : (retain n && !networks n) = true
    · rw [if_pos hretain]
      obtain ⟨available, hresult, hvalues, haccepted⟩ := ih h htogether
      refine ⟨available, hresult, hvalues, fun hall m hm hm' => ?_⟩
      rcases List.mem_cons.mp hm with rfl | hm
      · exact absurd hretain (by rw [hm']; exact Bool.false_ne_true)
      · exact haccepted hall m hm hm'
    · rw [if_neg hretain]
      obtain ⟨value, hpublished, hvalue, hfirst⟩ :=
        publishNetworkAvailable_together h (htogether n) n (networks n)
      obtain ⟨available, hresult, hvalues, haccepted⟩ :=
        @ih (g.withAvailable (Function.update g.networkAvailable n value))
          (synced_withAvailable _ _) fun m => by
            unfold Together
            rw [length_withAvailable]
            exact htogether m
      rw [length_withAvailable] at haccepted
      rw [networkAvailable_withAvailable] at hvalues
      rw [withAvailable_withAvailable] at hresult
      refine ⟨available, ?_, fun m => ?_, fun hall m hm hm' => ?_⟩
      · simp only [hpublished]
        exact hresult
      · rcases hvalues m with hold | hnew
        · rw [hold]
          by_cases hm : m = n
          · rw [hm, Function.update_self]
            exact hvalue
          · rw [Function.update_of_ne hm]
            exact .inl rfl
        · exact .inr hnew
      · by_cases hmem : m ∈ rest
        · exact haccepted hall m hmem hm'
        · obtain rfl := (List.mem_cons.mp hm).resolve_right hmem
          rcases hvalues m with hold | hnew
          · rw [hold, Function.update_self]
            exact hfirst (hall m)
          · exact hnew

/-- The availability is the one that the dialers give. -/
def Current (g : DialerGroup) (health : Health) : Prop :=
  ∀ n, g.networkAvailable n = (g.aggregateConnectivity health).1 n

theorem updateConnectivity_together {answers : Network → Answers} (h : g.Synced)
    (htogether : ∀ n, g.Together (answers n)) :
    ∃ available, (updateConnectivity answers health g).2 = g.withAvailable available ∧
      ((∀ n, ∀ i < g.observers.length, answers n i = none) →
        (∀ n, (g.aggregateConnectivity health).2 n = false) →
          available = (g.aggregateConnectivity health).1) := by
  obtain ⟨available, hresult, -, haccepted⟩ :=
    @updateLoop_together g answers (g.aggregateConnectivity health).1
      (g.aggregateConnectivity health).2 Network.all h htogether
  refine ⟨available, hresult, fun hall hretain => funext fun n => ?_⟩
  exact haccepted hall n n.mem_all (by rw [hretain n, Bool.false_and])

/-! ### A change of the selection -/

theorem aggregateConnectivity_congr (hkind : g'.kind = g.kind) (hpolicy : g'.policy = g.policy)
    (hdialers : g'.dialers = g.dialers) (hindex : g'.selectionIndex = g.selectionIndex)
    (health : Health) :
    g'.aggregateConnectivity health = g.aggregateConnectivity health := by
  unfold aggregateConnectivity isAutomatic policyDialers isSelector fixedDialer inRange
  rw [hkind, hpolicy, hdialers, hindex]

theorem aggregateConnectivity_retain (h : g.isSelector = true) (health : Health) (n : Network) :
    (g.aggregateConnectivity health).2 n = false := by
  have hautomatic : g.isAutomatic = false := by
    unfold isSelector at h
    rw [Bool.and_eq_true, decide_eq_true_iff, decide_eq_true_iff] at h
    unfold isAutomatic
    rw [h.2]
    exact Bool.and_false _
  unfold aggregateConnectivity
  rw [hautomatic, Bool.false_and, if_neg Bool.false_ne_true]

/-- A group whose selection is changed and restored is the same but for what was published. -/
theorem restore_selection {available : Network → Bool} :
    ({ ({ g with selectionIndex := index } : DialerGroup).withAvailable available with
      selectionIndex := g.selectionIndex } : DialerGroup) = g.withAvailable available :=
  rfl

/-- Only a selector gets as far as a change. -/
theorem isSelector_of_selectionTarget {id : String} (h : g.selectionTarget quote id = .ok index) :
    g.isSelector = true := by
  unfold selectionTarget at h
  obtain ⟨-, h⟩ := Except.ite_error_eq_ok h
  obtain ⟨hselector, -⟩ := Except.ite_error_eq_ok h
  rwa [Bool.not_eq_true', Bool.not_eq_false] at hselector

theorem switchSelection_undone {commit : Option String} {answers : Bool → Network → Answers}
    (hselector : g.isSelector = true) (h : g.Synced) (htogether : ∀ n, g.Together (answers false n))
    (hcurrent : g.Current health)
    (haccepted : ∀ n, ∀ i < g.observers.length, answers true n i = none)
    (herr : (g.switchSelection quote index commit answers health leases).1 ≠ []) :
    (g.switchSelection quote index commit answers health leases).2 = (g, leases) := by
  obtain ⟨available, hforward, -⟩ := @updateConnectivity_together health
    { g with selectionIndex := index } (answers false) h htogether
  obtain ⟨restored, hback, hvalue⟩ := @updateConnectivity_together health
    (g.withAvailable available) (answers true) (synced_withAvailable _ _) fun n => .inl (by
      rw [length_withAvailable]
      exact haccepted n)
  have haggregate : (g.withAvailable available).aggregateConnectivity health =
      g.aggregateConnectivity health :=
    aggregateConnectivity_congr rfl rfl rfl rfl health
  have hrestored : restored = g.networkAvailable := by
    rw [hvalue (by rw [length_withAvailable]; exact haccepted)
      (fun n => haggregate ▸ aggregateConnectivity_retain hselector health n), haggregate]
    exact (funext hcurrent).symm
  rw [withAvailable_withAvailable, hrestored, h.withAvailable_self] at hback
  unfold switchSelection at herr ⊢
  simp only [hforward] at herr ⊢
  split at herr
  next hfailed => rw [if_pos hfailed, restore_selection, hback]
  next => exact absurd rfl herr

/-- **A change that fails is undone**, if what was published was current and the observers
accept the rollback. -/
theorem changeSelection_undone {id : String} {commit : Option String}
    {answers : Bool → Network → Answers} (h : g.Synced)
    (htogether : ∀ n, g.Together (answers false n)) (hcurrent : g.Current health)
    (haccepted : ∀ n, ∀ i < g.observers.length, answers true n i = none)
    (herr : (changeSelection quote id commit answers health g leases).1 ≠ []) :
    (changeSelection quote id commit answers health g leases).2 = (g, leases) := by
  unfold changeSelection at herr ⊢
  cases htarget : g.selectionTarget quote id with
  | error err => rfl
  | ok index =>
    rw [htarget] at herr
    by_cases hsame : g.selectionIndex = index
    · simp only [if_pos hsame]
    · simp only [if_neg hsame] at herr ⊢
      exact switchSelection_undone (isSelector_of_selectionTarget htarget) h htogether hcurrent
        haccepted herr

/-! ### Runs -/

/-- The operations on one group, with what the environment answers. -/
inductive Op where
  | changeSelection (id : String) (commit : Option String) (answers : Bool → Network → Answers)
      (health : Health)
  | dialerChanged (answers : Network → Answers) (health : Health)
  | automaticChanged (n : Network) (selected : Option Nat) (answers : Network → Answers)
      (health : Health)
  | observeConnectivity (answers : Network → Option String)
  | detach (i : Nat)

/-- One operation: the errors it reports, the group and the leases. -/
def Op.run (quote : String → String) : Op → DialerGroup × Leases → List String × DialerGroup × Leases
  | .changeSelection id commit answers health, (g, leases) =>
    g.changeSelection quote id commit answers health leases
  | .dialerChanged answers health, (g, leases) => g.dialerChanged answers health leases
  | .automaticChanged n selected answers health, (g, leases) =>
    g.automaticChanged n selected answers health leases
  | .observeConnectivity answers, (g, leases) =>
    ((g.observeConnectivity answers).1.toList, (g.observeConnectivity answers).2, leases)
  | .detach i, (g, leases) => ([], g.detach i, leases)

/-- Every publication of the operation is accepted or refused as a whole. -/
def Op.Together (g : DialerGroup) : Op → Prop
  | .changeSelection _ _ answers _ => ∀ rollback n, g.Together (answers rollback n)
  | .dialerChanged answers _ => ∀ n, g.Together (answers n)
  | .automaticChanged _ _ answers _ => ∀ n, g.Together (answers n)
  | _ => True

/-- The state after some operations. -/
def runAll (quote : String → String) (ops : List Op) (s : DialerGroup × Leases) :
    DialerGroup × Leases :=
  ops.foldl (fun s op => (op.run quote s).2) s

/-- The published part of a group is untouched. -/
def SamePublished (g g' : DialerGroup) : Prop :=
  g'.observers = g.observers ∧ g'.networkAvailable = g.networkAvailable

theorem SamePublished.trans {g₁ g₂ g₃ : DialerGroup} (h₁ : SamePublished g₁ g₂)
    (h₂ : SamePublished g₂ g₃) : SamePublished g₁ g₃ :=
  ⟨h₂.1.trans h₁.1, h₂.2.trans h₁.2⟩

theorem samePublished_local : Local SamePublished :=
  ⟨fun _ => ⟨rfl, rfl⟩, SamePublished.trans, fun _ => ⟨rfl, rfl⟩⟩

theorem samePublished_closeRecovered (g : DialerGroup) (leases : Leases) :
    SamePublished g (g.closeRecoveredConnections leases).1 := by
  unfold closeRecoveredConnections
  split
  · exact samePublished_local.closeRecoveredLoop _ _ _
  · exact ⟨rfl, rfl⟩

/-- What is published does not depend on the connections. -/
theorem SamePublished.synced (h : SamePublished g g') (hg : g.Synced) : g'.Synced := by
  unfold Synced
  rw [h.1, h.2]
  exact hg

theorem SamePublished.together (h : SamePublished g g') (hg : g.Together answers) :
    g'.Together answers := by
  unfold Together
  rw [h.1]
  exact hg

theorem updateConnectivity_synced {answers : Network → Answers} (h : g.Synced)
    (htogether : ∀ n, g.Together (answers n)) :
    (updateConnectivity answers health g).2.Synced := by
  obtain ⟨available, hresult, -⟩ := updateConnectivity_together h htogether
  rw [hresult]
  exact synced_withAvailable _ _

theorem switchSelection_synced {commit : Option String} {answers : Bool → Network → Answers}
    (h : g.Synced) (htogether : ∀ rollback n, g.Together (answers rollback n)) :
    (g.switchSelection quote index commit answers health leases).2.1.Synced := by
  obtain ⟨available, hforward, -⟩ := @updateConnectivity_together health
    { g with selectionIndex := index } (answers false) h (htogether false)
  unfold switchSelection
  simp only [hforward]
  split
  · rw [restore_selection]
    refine updateConnectivity_synced (synced_withAvailable _ _) fun n => ?_
    unfold Together
    rw [length_withAvailable]
    exact htogether true n
  · exact ((samePublished_closeRecovered _ _).trans
      (samePublished_local.reselectLoop _ _ _ _)).synced (synced_withAvailable _ _)

theorem publishAndRecover_synced {answers : Network → Answers} (h : g.Synced)
    (htogether : ∀ n, g.Together (answers n)) :
    (g.publishAndRecover answers health leases).2.1.Synced := by
  have hupdated := @updateConnectivity_synced health _ _ h htogether
  unfold publishAndRecover
  simp only
  split
  · exact hupdated
  · exact (samePublished_closeRecovered _ _).synced hupdated

/-- One operation keeps the observers current. -/
theorem run_op_synced {op : Op} (h : g.Synced) (htogether : op.Together g) :
    (op.run quote (g, leases)).2.1.Synced := by
  cases op with
  | changeSelection id commit answers health =>
    change (g.changeSelection quote id commit answers health leases).2.1.Synced
    unfold changeSelection
    split
    · exact h
    · split
      · exact h
      · exact switchSelection_synced h htogether
  | dialerChanged answers health =>
    change (g.dialerChanged answers health leases).2.1.Synced
    unfold dialerChanged
    split
    · exact h
    · exact publishAndRecover_synced h htogether
  | automaticChanged n selected answers health =>
    change (g.automaticChanged n selected answers health leases).2.1.Synced
    unfold automaticChanged
    split
    · exact h
    · cases selected with
      | none => exact publishAndRecover_synced h htogether
      | some dialer =>
        have hsame := samePublished_local.updateSelection g leases n dialer
        exact publishAndRecover_synced (hsame.synced h) fun n => hsame.together (htogether n)
  | observeConnectivity answers =>
    change (g.observeConnectivity answers).2.Synced
    unfold DialerGroup.observeConnectivity
    split
    · exact h
    · intro value hvalue
      rcases List.mem_append.mp hvalue with hvalue | hvalue
      · exact h value hvalue
      · exact List.mem_singleton.mp hvalue
  | detach i => exact fun value hvalue => h value (List.mem_of_mem_eraseIdx hvalue)

/-- A run in which every publication is accepted or refused as a whole. -/
def TogetherRun (quote : String → String) : List Op → DialerGroup × Leases → Prop
  | [], _ => True
  | op :: ops, s => op.Together s.1 ∧ TogetherRun quote ops (op.run quote s).2

theorem TogetherRun.at {before : List Op} {op : Op} {after : List Op} {s : DialerGroup × Leases}
    (h : TogetherRun quote (before ++ op :: after) s) (hs : s.1.Synced) :
    (runAll quote before s).1.Synced ∧ op.Together (runAll quote before s).1 := by
  induction before generalizing s with
  | nil => exact ⟨hs, h.1⟩
  | cons first before ih => exact ih h.2 (run_op_synced hs h.1)

/-- **Projections stay current.**  In a run in which every publication is accepted or refused
as a whole, every observer has the availability of the group after each operation; and a
change of the selection that reports an error, made when the published availability was
current and with a rollback that the observers accept, leaves the group and all leases as
they were. -/
theorem run_synced {quote : String → String} {ops : List Op} {s : DialerGroup × Leases}
    (hs : s.1.Synced) (hrun : TogetherRun quote ops s) :
    ∀ before op after, ops = before ++ op :: after →
      (op.run quote (runAll quote before s)).2.1.Synced ∧
      ∀ id commit answers health, op = .changeSelection id commit answers health →
        (op.run quote (runAll quote before s)).1 ≠ [] →
        (runAll quote before s).1.Current health →
        (∀ n, ∀ i < (runAll quote before s).1.observers.length, answers true n i = none) →
        (op.run quote (runAll quote before s)).2 = runAll quote before s := by
  rintro before op after rfl
  obtain ⟨hsynced, htogether⟩ := hrun.at hs
  refine ⟨run_op_synced hsynced htogether, ?_⟩
  rintro id commit answers health rfl herr hcurrent haccepted
  exact changeSelection_undone hsynced (htogether false) hcurrent haccepted herr

/-! ### Samples -/

/-- A selector with two paths, of which only the second is usable. -/
def sampleGroup : DialerGroup where
  name := "proxy"
  kind := .selector
  policy := .selector
  dialers := ["a", "b"]

def secondUsable : Health where
  usable i _ := i == 1
  verified _ _ := false
  selected _ := none
  started := false
  networks _ := false
  retain _ := false

def acceptAll : Answers := fun _ => none

/-- The only observer accepts all, and the commit of the change fails. -/
def sampleOps : List Op :=
  [.observeConnectivity fun _ => none, .dialerChanged (fun _ => acceptAll) secondUsable,
    .changeSelection "b" (some "disk full") (fun _ _ => acceptAll) secondUsable]

theorem run_synced_rollback :
    (runAll id sampleOps (sampleGroup, {})).1.Synced ∧
      (runAll id sampleOps (sampleGroup, {})).1.selectionIndex = 0 := by
  have htogether : TogetherRun id sampleOps (sampleGroup, {}) :=
    ⟨trivial, fun _ => .inl fun _ _ => rfl, fun _ _ => .inl fun _ _ => rfl, trivial⟩
  obtain ⟨hsynced, hundone⟩ := run_synced (fun _ h => absurd h List.not_mem_nil) htogether
    (sampleOps.take 2) _ [] rfl
  have hstate := hundone "b" (some "disk full") (fun _ _ => acceptAll) secondUsable rfl
    (by decide) (fun n => by cases n <;> decide) fun _ _ _ => rfl
  exact ⟨hsynced, congrArg (fun s => s.1.selectionIndex) hstate⟩

/-- Two observers are current; the first accepts a change that the second refuses, and keeps
it although the group takes it back. -/
theorem split_publication : ∃ (g : DialerGroup) (answers : Bool → Network → Answers),
    g.Synced ∧ g.Current secondUsable ∧
      (g.changeSelection id "b" none answers secondUsable {}).1 ≠ [] ∧
      ¬(g.changeSelection id "b" none answers secondUsable {}).2.1.Synced := by
  refine ⟨{ sampleGroup with observers := [fun _ => false, fun _ => false] },
    fun _ _ i => if i = 0 then none else some "map update failed", ?_, ?_, by decide, ?_⟩
  · intro value hvalue
    rcases List.mem_pair.mp hvalue with rfl | rfl <;> rfl
  · intro n
    cases n <;> decide
  · intro hsynced
    have := congrFun (hsynced _ (List.mem_cons_self)) .tcp4
    exact absurd this (by decide)

end DialerGroup

end Dae
