import Dae.Outbound.DialerGroup

/-!
# Connection policies

`component/outbound/connection_policy.go`: the leases of a group, for its own connections and
for those of a group it has replaced, and what the operations of a group do to them.
-/

namespace Dae

namespace DialerGroup

/-- `connectionLease` of a group without a successor. -/
def connectionLease (n : Network) (fallback : Bool) (g : DialerGroup) (leases : Leases) :
    Option Nat × DialerGroup × Leases :=
  if g.kind ≠ .selector then (none, g, leases)
  else
    let (lease, g, leases) := g.ownLease n fallback leases
    (some lease, g, leases)

/-- `inheritedConnectionLease` of the owner, for a path selected by a retired group. -/
def inheritedConnectionLease (n : Network) (fallback : Bool) (selected : String) (g : DialerGroup)
    (leases : Leases) : Option Nat × DialerGroup × Leases :=
  let current := (g.connections.networks n).selected
  if (g.connections.closeOnReselect ∧ selected ≠ "" ∧ current ≠ "" ∧ current ≠ selected) ∨
      (fallback ∧ g.connections.closeOnRecovery ∧ g.networkAvailable n) then
    (some leases.next, g,
      { next := leases.next + 1, aborted := leases.next :: leases.aborted })
  else g.connectionLease n fallback leases

/-- The selection of `SelectConnection`, with the network it was made for. -/
def selectFamily (health : Health) (n : Network) (strictIP : Bool) (g : DialerGroup)
    (leases : Leases) : Except SelectError Nat × Network × DialerGroup × Leases :=
  match g.selectLocked health n leases with
  | (.error .noAliveDialer, g, leases) =>
    if strictIP then (.error .noAliveDialer, n, g, leases)
    else
      let (result, g, leases) := g.selectLocked health n.other leases
      (result, n.other, g, leases)
  | (result, g, leases) => (result, n, g, leases)

/-- The choice of `InheritConnections` for one network. -/
def inheritSelection (health : Health) (n : Network) (g : DialerGroup) (leases : Leases) :
    DialerGroup × Leases :=
  if g.isSelector then
    match g.fixedDialer with
    | some dialer => g.updateConnectionSelection n dialer leases
    | none => (g, leases)
  else (g.selectLocked health n leases).2

/-- The loop of `InheritConnections`. -/
def inheritLoop (health : Health) : List Network → DialerGroup → Leases → DialerGroup × Leases
  | [], g, leases => (g, leases)
  | n :: rest, g, leases =>
    let (g, leases) := g.inheritSelection health n leases
    inheritLoop health rest g leases

/-- The group without leases of its own. -/
def withoutLeases (g : DialerGroup) : DialerGroup :=
  { g with
    connections :=
      { g.connections with
        networks := fun n =>
          { g.connections.networks n with regular := none, fallback := none } } }

/-! ### What an operation does to the leases -/

/-- A group of a chain: both policies are set, its paths have names, and no connection is
open without a recorded path. -/
structure Ready (g : DialerGroup) : Prop where
  reselect : g.connections.closeOnReselect = true
  recovery : g.connections.closeOnRecovery = true
  named : ∀ id ∈ g.dialers, id ≠ ""
  recorded : ∀ n lease, (g.connections.networks n).regular = some lease →
    (g.connections.networks n).selected ≠ ""

/-- A lease is aborted or kept, a regular one only with the path recorded for it. -/
structure Keeps (g : DialerGroup) (leases : Leases) (g' : DialerGroup) (leases' : Leases) : Prop where
  dialers : g'.dialers = g.dialers
  aborted : leases.aborted ⊆ leases'.aborted
  ready : g.Ready → g'.Ready
  regular : g.Ready → ∀ n lease, (g.connections.networks n).regular = some lease →
    lease ∈ leases'.aborted ∨ ((g'.connections.networks n).regular = some lease ∧
      (g'.connections.networks n).selected = (g.connections.networks n).selected)
  fallback : g.Ready → ∀ n lease, (g.connections.networks n).fallback = some lease →
    lease ∈ leases'.aborted ∨ (g'.connections.networks n).fallback = some lease

/-- What happens to the leases in an operation that ends in a group and leases. -/
abbrev KeepsTo (g : DialerGroup) (leases : Leases) (out : DialerGroup × Leases) : Prop :=
  Keeps g leases out.1 out.2

variable {health : Health} {answers : Network → Answers} {n : Network} {dialer : Nat}
  {g g' : DialerGroup} {leases leases' : Leases}

theorem Keeps.trans {g₁ g₂ g₃ : DialerGroup} {l₁ l₂ l₃ : Leases} (h₁ : Keeps g₁ l₁ g₂ l₂)
    (h₂ : Keeps g₂ l₂ g₃ l₃) : Keeps g₁ l₁ g₃ l₃ where
  dialers := h₂.dialers.trans h₁.dialers
  aborted := List.Subset.trans h₁.aborted h₂.aborted
  ready h := h₂.ready (h₁.ready h)
  regular h n lease hlease := by
    rcases h₁.regular h n lease hlease with haborted | ⟨hkept, hselected⟩
    · exact .inl (h₂.aborted haborted)
    · rw [← hselected]
      exact h₂.regular (h₁.ready h) n lease hkept
  fallback h n lease hlease := by
    rcases h₁.fallback h n lease hlease with haborted | hkept
    · exact .inl (h₂.aborted haborted)
    · exact h₂.fallback (h₁.ready h) n lease hkept

/-- Nothing happens to the connections. -/
theorem keeps_of_connections (hdialers : g'.dialers = g.dialers)
    (hconnections : g'.connections = g.connections) : Keeps g leases g' leases where
  dialers := hdialers
  aborted := List.Subset.refl _
  ready h := ⟨hconnections ▸ h.reselect, hconnections ▸ h.recovery, hdialers ▸ h.named,
    hconnections ▸ h.recorded⟩
  regular _ n lease hlease := .inr (by rw [hconnections]; exact ⟨hlease, rfl⟩)
  fallback _ n lease hlease := .inr (by rw [hconnections]; exact hlease)

theorem Keeps.refl (g : DialerGroup) (leases : Leases) : Keeps g leases g leases :=
  keeps_of_connections rfl rfl

theorem networks_setGeneration (g : DialerGroup) (n m : Network) (generation : ConnectionGeneration) :
    (g.setGeneration n generation).connections.networks m =
      if m = n then generation else g.connections.networks m :=
  Function.update_apply _ _ _ _

theorem subset_abort (leases : Leases) (lease : Option Nat) :
    leases.aborted ⊆ (leases.abort lease).aborted := by
  cases lease with
  | none => exact List.Subset.refl _
  | some lease => exact List.subset_cons_self _ _

theorem mem_abort (leases : Leases) (lease : Nat) :
    lease ∈ (leases.abort (some lease)).aborted := List.mem_cons_self

/-- One generation is replaced. -/
theorem keeps_setGeneration {generation : ConnectionGeneration}
    (haborted : leases.aborted ⊆ leases'.aborted)
    (hrecorded : g.Ready → ∀ lease, generation.regular = some lease → generation.selected ≠ "")
    (hregular : g.Ready → ∀ lease, (g.connections.networks n).regular = some lease →
      lease ∈ leases'.aborted ∨ (generation.regular = some lease ∧
        generation.selected = (g.connections.networks n).selected))
    (hfallback : ∀ lease, (g.connections.networks n).fallback = some lease →
      lease ∈ leases'.aborted ∨ generation.fallback = some lease) :
    Keeps g leases (g.setGeneration n generation) leases' where
  dialers := rfl
  aborted := haborted
  ready h := by
    refine ⟨h.reselect, h.recovery, h.named, fun m lease => ?_⟩
    rw [networks_setGeneration]
    split
    · exact hrecorded h lease
    · exact h.recorded m lease
  regular h m lease hlease := by
    rw [networks_setGeneration]
    split
    next hm => exact hm ▸ hregular h lease (hm ▸ hlease)
    next => exact .inr ⟨hlease, rfl⟩
  fallback _ m lease hlease := by
    rw [networks_setGeneration]
    split
    next hm => exact hfallback lease (hm ▸ hlease)
    next => exact .inr hlease

theorem keeps_closeReselected (n : Network) (g : DialerGroup) (leases : Leases) :
    KeepsTo g leases (g.closeReselectedConnections n leases) := by
  unfold closeReselectedConnections
  split
  · simp only
    refine keeps_setGeneration (List.Subset.trans (subset_abort _ _) (subset_abort _ _))
      (fun _ lease h => nomatch h) (fun _ lease hlease => .inl ?_) (fun lease hlease => .inl ?_)
    · rw [hlease]
      exact subset_abort _ _ (mem_abort _ _)
    · rw [hlease]
      exact mem_abort _ _
  · exact Keeps.refl g leases

/-- After the connections of a network have ended, its path may change. -/
theorem keeps_reselect (n : Network) (selected : String) (g : DialerGroup) (leases : Leases) :
    g.Ready → Keeps g leases ((g.closeReselectedConnections n leases).1.recordSelection n selected)
      (g.closeReselectedConnections n leases).2 := by
  intro hready
  have hclosed : ((g.closeReselectedConnections n leases).1.connections.networks n).regular = none := by
    unfold closeReselectedConnections
    rw [if_pos hready.reselect, networks_setGeneration, if_pos rfl]
  refine (keeps_closeReselected n g leases).trans ?_
  refine keeps_setGeneration (List.Subset.refl _) (fun _ lease h => ?_) (fun _ lease h => ?_)
    fun lease h => .inr h
  · rw [hclosed] at h
    cases h
  · rw [hclosed] at h
    cases h

theorem statsID_ne (hready : g.Ready) (hdialer : dialer < g.dialers.length) :
    g.statsID dialer ≠ "" := by
  unfold statsID
  rw [List.getD_eq_getElem?_getD, List.getElem?_eq_getElem hdialer, Option.getD_some]
  exact hready.named _ (List.getElem_mem hdialer)

theorem keeps_updateSelection (hdialer : dialer < g.dialers.length) (hready : g.Ready) :
    KeepsTo g leases (g.updateConnectionSelection n dialer leases) := by
  have hnamed := statsID_ne hready hdialer
  unfold updateConnectionSelection
  simp only
  split
  · exact keeps_reselect n _ g leases hready
  next hsame =>
    refine keeps_setGeneration (List.Subset.refl _) (fun _ _ _ => hnamed) (fun _ lease h => .inr ?_)
      fun lease h => .inr h
    have hrecorded := hready.recorded n lease h
    rw [not_and_or, not_not, not_not] at hsame
    exact ⟨h, (hsame.resolve_left hrecorded).symm⟩

theorem keeps_closeRecoveredLoop (rest : List Network) (g : DialerGroup) (leases : Leases) :
    KeepsTo g leases (closeRecoveredLoop rest g leases) := by
  induction rest generalizing g leases with
  | nil => exact Keeps.refl g leases
  | cons n rest ih =>
    unfold closeRecoveredLoop
    split
    · simp only
      refine Keeps.trans ?_ (ih _ _)
      refine keeps_setGeneration (subset_abort _ _) (fun h lease => h.recorded n lease)
        (fun _ lease h => .inr ⟨h, rfl⟩) fun lease h => .inl ?_
      rw [h]
      exact mem_abort _ _
    · exact ih g leases

theorem keeps_closeRecovered (g : DialerGroup) (leases : Leases) :
    KeepsTo g leases (g.closeRecoveredConnections leases) := by
  unfold closeRecoveredConnections
  split
  · exact keeps_closeRecoveredLoop _ _ _
  · exact Keeps.refl g leases

/-- Publishing does not touch the connections. -/
theorem updateLoop_same {networks retain : Network → Bool} (rest : List Network) (g : DialerGroup) :
    (updateLoop answers networks retain rest g).2.dialers = g.dialers ∧
      (updateLoop answers networks retain rest g).2.connections = g.connections := by
  induction rest generalizing g with
  | nil => exact ⟨rfl, rfl⟩
  | cons n rest ih =>
    have hpublish : (publishNetworkAvailable (answers n) n (networks n) g).2.dialers = g.dialers ∧
        (publishNetworkAvailable (answers n) n (networks n) g).2.connections = g.connections := by
      unfold publishNetworkAvailable
      split
      · exact ⟨rfl, rfl⟩
      · simp only
        split
        · exact ⟨rfl, rfl⟩
        · exact ⟨rfl, rfl⟩
    unfold updateLoop
    split
    · exact ih g
    · exact ⟨(ih _).1.trans hpublish.1, (ih _).2.trans hpublish.2⟩

theorem keeps_updateConnectivity (answers : Network → Answers) (health : Health) (g : DialerGroup)
    (leases : Leases) : Keeps g leases (updateConnectivity answers health g).2 leases :=
  keeps_of_connections (updateLoop_same _ _).1 (updateLoop_same _ _).2

theorem keeps_reselectLoop {selected : String} {rest : List Network} (hready : g.Ready) :
    KeepsTo g leases (reselectLoop selected rest g leases) := by
  induction rest generalizing g leases with
  | nil => exact Keeps.refl g leases
  | cons n rest ih =>
    unfold reselectLoop
    have hfirst := keeps_reselect n selected g leases hready
    exact hfirst.trans (ih (hfirst.ready hready))

theorem keeps_changeSelection {quote : String → String} {id : String} {commit : Option String}
    {answers : Bool → Network → Answers} (hready : g.Ready) :
    KeepsTo g leases (g.changeSelection quote id commit answers health leases).2 := by
  unfold changeSelection
  split
  · exact Keeps.refl g leases
  next index _ =>
    split
    · exact Keeps.refl g leases
    · have hindex : Keeps g leases ({ g with selectionIndex := index } : DialerGroup) leases :=
        keeps_of_connections rfl rfl
      have hchanged := hindex.trans (keeps_updateConnectivity (answers false) health _ leases)
      unfold switchSelection
      simp only
      split
      · have hrestored := fun changed : DialerGroup =>
          (@keeps_of_connections changed { changed with selectionIndex := g.selectionIndex } leases
            rfl rfl).trans (keeps_updateConnectivity (answers true) health _ leases)
        exact hchanged.trans (hrestored _)
      · have hrecovered := hchanged.trans (keeps_closeRecovered _ leases)
        exact hrecovered.trans (keeps_reselectLoop (hrecovered.ready hready))

/-- The end of `DialerChanged` and `automaticChanged`. -/
def publishAndRecover (answers : Network → Answers) (health : Health) (g : DialerGroup)
    (leases : Leases) : List String × DialerGroup × Leases :=
  let (err, g) := g.updateConnectivity answers health
  if err ≠ [] then (err, g, leases) else ([], g.closeRecoveredConnections leases)

theorem keeps_publishAndRecover (answers : Network → Answers) (health : Health) (g : DialerGroup)
    (leases : Leases) :
    KeepsTo g leases (g.publishAndRecover answers health leases).2 := by
  unfold publishAndRecover
  simp only
  split
  · exact keeps_updateConnectivity answers health g leases
  · exact (keeps_updateConnectivity answers health g leases).trans (keeps_closeRecovered _ leases)

theorem keeps_dialerChanged (answers : Network → Answers) (health : Health) (g : DialerGroup)
    (leases : Leases) :
    KeepsTo g leases (g.dialerChanged answers health leases).2 := by
  unfold dialerChanged
  split
  · exact Keeps.refl g leases
  · exact keeps_publishAndRecover answers health g leases

theorem keeps_automaticChanged {selected : Option Nat} (hready : g.Ready)
    (hwithin : ∀ dialer, selected = some dialer → dialer < g.dialers.length) :
    KeepsTo g leases (g.automaticChanged n selected answers health leases).2 := by
  unfold automaticChanged
  split
  · exact Keeps.refl g leases
  · cases selected with
    | none => exact keeps_publishAndRecover answers health g leases
    | some dialer =>
      exact (keeps_updateSelection (hwithin dialer rfl) hready).trans
        (keeps_publishAndRecover answers health _ _)

/-- The automatic selection selects dialers of the group. -/
def Within (health : Health) (g : DialerGroup) : Prop :=
  ∀ n dialer, health.selected n = some dialer → dialer < g.dialers.length

theorem fixedDialer_lt (h : g.fixedDialer = some dialer) :
    dialer < g.dialers.length := by
  unfold fixedDialer at h
  split at h
  next hrange =>
    cases h
    unfold inRange at hrange
    rw [Bool.and_eq_true, decide_eq_true_iff, decide_eq_true_iff] at hrange
    omega
  next => cases h

/-- What `selectLocked` does: the dialer is one of the group, and for a selector group it is
recorded. -/
theorem selectLocked_spec (hready : g.Ready) (hwithin : Within health g) :
    KeepsTo g leases (g.selectLocked health n leases).2 ∧
      ∀ dialer, (g.selectLocked health n leases).1 = .ok dialer → dialer < g.dialers.length ∧
        (g.kind = .selector →
          ((g.selectLocked health n leases).2.1.connections.networks n).selected =
            g.statsID dialer) := by
  unfold selectLocked
  split
  · exact ⟨Keeps.refl g leases, fun _ h => nomatch h⟩
  · split
    · exact ⟨Keeps.refl g leases, fun _ h => nomatch h⟩
    next hdialers =>
      split
      next hkind =>
        refine ⟨Keeps.refl g leases, fun dialer h => ⟨?_, fun hk => absurd hk hkind⟩⟩
        simp only at h
        split at h
        · cases h
          exact List.length_pos_iff.mpr hdialers
        · cases h
      next hkind =>
        simp only
        split
        · exact ⟨Keeps.refl g leases, fun _ h => nomatch h⟩
        next selected hselected =>
          have hlt : selected < g.dialers.length := by
            split at hselected
            · exact hwithin n selected hselected
            · exact fixedDialer_lt hselected
          split
          · refine ⟨keeps_updateSelection hlt hready, fun dialer h => ?_⟩
            cases h
            refine ⟨hlt, fun _ => ?_⟩
            unfold updateConnectionSelection
            simp only [recordSelection, networks_setGeneration, if_true]
          · exact ⟨Keeps.refl g leases, fun _ h => nomatch h⟩

/-! ### What an operation leaves alone -/

/-- Nothing is published, and no fallback lease is made. -/
structure Frame (g g' : DialerGroup) : Prop where
  kind : g'.kind = g.kind
  available : g'.networkAvailable = g.networkAvailable
  fallback : ∀ n, (g.connections.networks n).fallback = none →
    (g'.connections.networks n).fallback = none

theorem Frame.refl (g : DialerGroup) : Frame g g := ⟨rfl, rfl, fun _ h => h⟩

theorem Frame.trans {g₁ g₂ g₃ : DialerGroup} (h₁ : Frame g₁ g₂) (h₂ : Frame g₂ g₃) : Frame g₁ g₃ :=
  ⟨h₂.kind.trans h₁.kind, h₂.available.trans h₁.available,
    fun n h => h₂.fallback n (h₁.fallback n h)⟩

theorem frame_setGeneration {generation : ConnectionGeneration}
    (h : (g.connections.networks n).fallback = none → generation.fallback = none) :
    Frame g (g.setGeneration n generation) := by
  refine ⟨rfl, rfl, fun m hm => ?_⟩
  rw [networks_setGeneration]
  split
  next heq => exact h (heq ▸ hm)
  next => exact hm

/-- A relation of groups that holds across every change of a generation that makes no fallback
lease. -/
structure Local (R : DialerGroup → DialerGroup → Prop) : Prop where
  refl : ∀ g, R g g
  trans : ∀ {g₁ g₂ g₃}, R g₁ g₂ → R g₂ g₃ → R g₁ g₃
  set : ∀ {g n generation},
    ((g.connections.networks n).fallback = none → generation.fallback = none) →
      R g (g.setGeneration n generation)

theorem frame_local : Local Frame := ⟨Frame.refl, Frame.trans, frame_setGeneration⟩

section

variable {R : DialerGroup → DialerGroup → Prop} (hR : Local R) (rest : List Network)
  (g : DialerGroup) (leases : Leases)

include hR

theorem Local.reselect (n : Network) (selected : String) :
    R g ((g.closeReselectedConnections n leases).1.recordSelection n selected) := by
  unfold closeReselectedConnections
  split
  · exact hR.trans (hR.set fun _ => rfl) (hR.set fun h => h)
  · exact hR.set fun h => h

theorem Local.updateSelection (n : Network) (dialer : Nat) :
    R g (g.updateConnectionSelection n dialer leases).1 := by
  unfold updateConnectionSelection
  simp only
  split
  · exact hR.reselect g leases n _
  · exact hR.set fun h => h

theorem Local.reselectLoop (selected : String) :
    R g (DialerGroup.reselectLoop selected rest g leases).1 := by
  induction rest generalizing g leases with
  | nil => exact hR.refl g
  | cons n rest ih => exact hR.trans (hR.reselect g leases n selected) (ih _ _)

theorem Local.closeRecoveredLoop : R g (DialerGroup.closeRecoveredLoop rest g leases).1 := by
  induction rest generalizing g leases with
  | nil => exact hR.refl g
  | cons n rest ih =>
    unfold DialerGroup.closeRecoveredLoop
    split
    · exact hR.trans (hR.set fun _ => rfl) (ih _ _)
    · exact ih g leases

end

theorem frame_selectLocked (health : Health) (n : Network) (g : DialerGroup) (leases : Leases) :
    Frame g (g.selectLocked health n leases).2.1 := by
  unfold selectLocked
  split
  · exact Frame.refl g
  · split
    · exact Frame.refl g
    · split
      · exact Frame.refl g
      · simp only
        split
        · exact Frame.refl g
        · split
          · exact frame_local.updateSelection g leases n _
          · exact Frame.refl g

/-- No fallback lease is left on a network that the group has published. -/
def Recovered (g : DialerGroup) : Prop :=
  ∀ n, g.networkAvailable n = true → (g.connections.networks n).fallback = none

theorem recovered_of_frame (h : g.Recovered) (hframe : Frame g g') :
    g'.Recovered := fun n hn => hframe.fallback n (h n (hframe.available ▸ hn))

theorem closeRecoveredLoop_mem {rest : List Network} (hn : n ∈ rest)
    (havailable : g.networkAvailable n = true) :
    ((closeRecoveredLoop rest g leases).1.connections.networks n).fallback = none := by
  induction rest generalizing g leases with
  | nil => cases hn
  | cons m rest ih =>
    unfold closeRecoveredLoop
    rcases List.mem_cons.mp hn with rfl | hrest
    · rw [if_pos havailable]
      refine (frame_local.closeRecoveredLoop rest _ _).fallback n ?_
      rw [networks_setGeneration, if_pos rfl]
    · split
      · exact ih hrest havailable
      · exact ih hrest havailable

theorem closeRecovered_recovered (hready : g.Ready) (leases : Leases) :
    Frame g (g.closeRecoveredConnections leases).1 ∧
      (g.closeRecoveredConnections leases).1.Recovered := by
  unfold closeRecoveredConnections
  rw [if_pos hready.recovery]
  have hframe := frame_local.closeRecoveredLoop Network.all g leases
  exact ⟨hframe, fun n hn =>
    closeRecoveredLoop_mem (Network.mem_all n) (hframe.available ▸ hn)⟩

/-- What an operation publishes: without an error, no fallback lease is left on the networks
published, unless nothing is. -/
def Publishes (g : DialerGroup) (err : List String) (g' : DialerGroup) : Prop :=
  err = [] → g'.networkAvailable = g.networkAvailable ∨ g'.Recovered

theorem publishes_changeSelection {quote : String → String} {id : String} {commit : Option String}
    {answers : Bool → Network → Answers} (hready : g.Ready) :
    Publishes g (g.changeSelection quote id commit answers health leases).1
      (g.changeSelection quote id commit answers health leases).2.1 := by
  unfold changeSelection
  split
  · exact fun _ => .inl rfl
  next index _ =>
    split
    · exact fun _ => .inl rfl
    · unfold switchSelection
      simp only
      split
      · intro h
        cases h
      · intro _
        have hindex : Keeps g leases ({ g with selectionIndex := index } : DialerGroup) leases :=
          keeps_of_connections rfl rfl
        have hchanged := hindex.trans (keeps_updateConnectivity (answers false) health _ leases)
        exact .inr (recovered_of_frame (closeRecovered_recovered (hchanged.ready hready) leases).2
          (frame_local.reselectLoop _ _ _ _))

theorem publishAndRecover_recovered (hready : g.Ready)
    (h : (g.publishAndRecover answers health leases).1 = []) :
    (g.publishAndRecover answers health leases).2.1.Recovered := by
  unfold publishAndRecover at h ⊢
  simp only at h ⊢
  split at h
  next hfailed => exact absurd h hfailed
  next hdone =>
    rw [if_neg hdone]
    exact (closeRecovered_recovered
      ((keeps_updateConnectivity answers health g leases).ready hready) leases).2

theorem publishes_dialerChanged (hready : g.Ready) :
    Publishes g (g.dialerChanged answers health leases).1
      (g.dialerChanged answers health leases).2.1 := by
  unfold dialerChanged
  split
  · exact fun _ => .inl rfl
  · exact fun h => .inr (publishAndRecover_recovered hready h)

theorem publishes_automaticChanged {selected : Option Nat} (hready : g.Ready)
    (hwithin : ∀ dialer, selected = some dialer → dialer < g.dialers.length) :
    Publishes g (g.automaticChanged n selected answers health leases).1
      (g.automaticChanged n selected answers health leases).2.1 := by
  unfold automaticChanged
  split
  · exact fun _ => .inl rfl
  · cases selected with
    | none => exact fun h => .inr (publishAndRecover_recovered hready h)
    | some dialer =>
      exact fun h => .inr (publishAndRecover_recovered
        ((keeps_updateSelection (hwithin dialer rfl) hready).ready hready) h)

/-! ### Selecting and lending -/

/-- What the selection of `SelectConnection` does; a path that is selected is recorded. -/
theorem selectFamily_spec {network : Network} {strictIP : Bool} {result : Except SelectError Nat}
    (hready : g.Ready) (hwithin : Within health g)
    (h : g.selectFamily health n strictIP leases = (result, network, g', leases')) :
    Keeps g leases g' leases' ∧ Frame g g' ∧
      ∀ dialer, result = .ok dialer → dialer < g.dialers.length ∧
        (g.kind = .selector → (g'.connections.networks network).selected = g.statsID dialer) := by
  have hfirst := @selectLocked_spec health n g leases hready hwithin
  have hframe := frame_selectLocked health n g leases
  unfold selectFamily at h
  split at h
  next g₁ leases₁ hlocked =>
    rw [hlocked] at hfirst hframe
    split at h
    · cases h
      exact ⟨hfirst.1, hframe, fun _ h => nomatch h⟩
    · cases h
      have hwithin₁ : Within health g₁ := fun m dialer hm => hfirst.1.dialers ▸ hwithin m dialer hm
      obtain ⟨hkeeps, hok⟩ := @selectLocked_spec health n.other g₁ leases₁ (hfirst.1.ready hready)
        hwithin₁
      have hframe₁ := frame_selectLocked health n.other g₁ leases₁
      refine ⟨hfirst.1.trans hkeeps, hframe.trans hframe₁, fun dialer hdialer => ?_⟩
      have hsame : g₁.dialers = g.dialers := hfirst.1.dialers
      obtain ⟨hlt, hrecorded⟩ := hok dialer hdialer
      refine ⟨hsame ▸ hlt, fun hkind => ?_⟩
      have hstats : g₁.statsID dialer = g.statsID dialer := by rw [statsID, statsID, hsame]
      exact (hrecorded (hframe.kind.trans hkind)).trans hstats
  next result₁ g₁ leases₁ _ hlocked =>
    rw [hlocked] at hfirst hframe
    cases h
    exact ⟨hfirst.1, hframe, hfirst.2⟩

/-- The lease of a generation is made when there is none. -/
theorem ownLease_spec {fallback : Bool} {lease : Nat}
    (h : g.ownLease n fallback leases = (lease, g', leases'))
    (hrecorded : fallback = false → (g.connections.networks n).selected ≠ "") :
    Keeps g leases g' leases' ∧ g'.networkAvailable = g.networkAvailable ∧
      (g'.connections.networks n).selected = (g.connections.networks n).selected ∧
      (if fallback then (g'.connections.networks n).fallback
        else (g'.connections.networks n).regular) = some lease := by
  unfold ownLease at h
  simp only at h
  split at h
  next old hold =>
    cases h
    exact ⟨Keeps.refl g leases, rfl, rfl, hold⟩
  next hnone =>
    cases h
    refine ⟨?_, rfl, ?_, ?_⟩
    · cases fallback with
      | false =>
        refine keeps_setGeneration (List.Subset.refl _) (fun _ _ _ => hrecorded rfl)
          (fun _ lease h => ?_) fun _ h => .inr h
        exact absurd (hnone.symm.trans h) nofun
      | true =>
        refine keeps_setGeneration (List.Subset.refl _) (fun h lease => h.recorded n lease)
          (fun _ _ h => .inr ⟨h, rfl⟩) fun lease h => ?_
        exact absurd (hnone.symm.trans h) nofun
    · rw [networks_setGeneration, if_pos rfl]
      cases fallback <;> rfl
    · rw [networks_setGeneration, if_pos rfl]
      cases fallback <;> rfl

theorem keeps_inheritSelection (hready : g.Ready) (hwithin : Within health g) :
    KeepsTo g leases (g.inheritSelection health n leases) ∧
      Frame g (g.inheritSelection health n leases).1 := by
  unfold inheritSelection
  split
  · split
    next dialer hdialer =>
      exact ⟨keeps_updateSelection (fixedDialer_lt hdialer) hready,
        frame_local.updateSelection g leases n dialer⟩
    next => exact ⟨Keeps.refl g leases, Frame.refl g⟩
  · exact ⟨(selectLocked_spec hready hwithin).1, frame_selectLocked health n g leases⟩

theorem keeps_inheritLoop {rest : List Network} (hready : g.Ready) (hwithin : Within health g) :
    KeepsTo g leases (inheritLoop health rest g leases) ∧
      Frame g (inheritLoop health rest g leases).1 := by
  induction rest generalizing g leases with
  | nil => exact ⟨Keeps.refl g leases, Frame.refl g⟩
  | cons n rest ih =>
    obtain ⟨hkeeps, hframe⟩ := @keeps_inheritSelection health n g leases hready hwithin
    have hwithin' : Within health (g.inheritSelection health n leases).1 :=
      fun m dialer hm => hkeeps.dialers ▸ hwithin m dialer hm
    obtain ⟨hrest, hframe'⟩ := @ih _ (g.inheritSelection health n leases).2
      (hkeeps.ready hready) hwithin'
    exact ⟨hkeeps.trans hrest, hframe.trans hframe'⟩

end DialerGroup

end Dae
