import Dae.Outbound.ConnectionPolicy

/-!
# Connections along a chain of groups

A group that replaces another one inherits its connections: the leases move to the
successor, and the old group, which may still admit connections, borrows the leases of the
last group of the chain, its owner.

The retired groups of a chain stand in the order of their retirement, so that a request for
a lease is passed on to the owner.  A chain also lists the leases that have been handed out.

* `Inv` — a lease that is not aborted belongs to the owner, with the path recorded there;
* `Reached` — runs in which retired groups borrow only from owners with a recorded path.
-/

namespace Dae

open DialerGroup

/-- A lease handed out, with its path; a fallback has none. -/
structure Handed where
  lease : Nat
  network : Network
  path : Option String
  deriving DecidableEq, Repr

structure Chain where
  retired : List DialerGroup := []
  owner : DialerGroup
  leases : Leases := {}
  handed : List Handed := []

namespace Chain

/-- The owner, or one of the retired groups. -/
def get (c : Chain) : Option Nat → Option DialerGroup
  | none => some c.owner
  | some i => c.retired[i]?

def put (c : Chain) (who : Option Nat) (g : DialerGroup) (leases : Leases) : Chain :=
  match who with
  | none => { c with owner := g, leases }
  | some i => { c with retired := c.retired.set i g, leases }

/-- An operation on one group. -/
def on (c : Chain) (who : Option Nat)
    (f : DialerGroup → Leases → List String × DialerGroup × Leases) : List String × Chain :=
  match c.get who with
  | none => ([], c)
  | some g => ((f g c.leases).1, c.put who (f g c.leases).2.1 (f g c.leases).2.2)

/-- The lease is handed out, if there is one. -/
def hand (c : Chain) (lease : Option Nat) (network : Network) (path : Option String) : Chain :=
  match lease with
  | none => c
  | some lease => { c with handed := ⟨lease, network, path⟩ :: c.handed }

/-- `connectionLease` for the group that made the selection: a retired group passes the
request on to the owner. -/
def lend (c : Chain) (who : Option Nat) (g : DialerGroup) (network : Network) (path : Option String) :
    Chain :=
  let fallback := path.isNone
  match who with
  | none =>
    let (lease, owner, leases) := c.owner.connectionLease network fallback c.leases
    { c with owner, leases }.hand lease network path
  | some _ =>
    if g.kind ≠ .selector then c
    else
      let (lease, owner, leases) := c.owner.inheritedConnectionLease network fallback
        (g.connections.networks network).selected c.leases
      { c with owner, leases }.hand lease network path

/-- `SelectConnection` on the owner or on a retired group. -/
def selectConnection (c : Chain) (who : Option Nat) (n : Network) (strictIP : Bool) (health : Health) :
    Chain :=
  match c.get who with
  | none => c
  | some g =>
    match g.selectFamily health n strictIP c.leases with
    | (.ok dialer, network, g, leases) =>
      (c.put who g leases).lend who g network (some (g.statsID dialer))
    | (.error .noAliveDialer, _, g, leases) => (c.put who g leases).lend who g n none
    | (.error _, _, g, leases) => c.put who g leases

/-- `InheritConnections`: a new group takes over from the owner. -/
def inheritConnections (c : Chain) (g : DialerGroup) (health : Health) : Chain :=
  let g := { g with
    connections := { g.connections with networks := c.owner.connections.networks } }
  let (g, leases) := inheritLoop health Network.all g c.leases
  let (g, leases) := g.closeRecoveredConnections leases
  { c with retired := c.retired ++ [c.owner.withoutLeases], owner := g, leases }

inductive Op where
  | selectConnection (who : Option Nat) (n : Network) (strictIP : Bool) (health : Health)
  | changeSelection (who : Option Nat) (id : String) (commit : Option String)
      (answers : Bool → Network → Answers) (health : Health)
  | dialerChanged (who : Option Nat) (answers : Network → Answers) (health : Health)
  | automaticChanged (who : Option Nat) (n : Network) (selected : Option Nat)
      (answers : Network → Answers) (health : Health)
  | inheritConnections (g : DialerGroup) (health : Health)

/-- One step of a chain, with the errors it reports. -/
def Op.run (quote : String → String) (c : Chain) : Op → List String × Chain
  | .selectConnection who n strictIP health => ([], c.selectConnection who n strictIP health)
  | .changeSelection who id commit answers health =>
    c.on who (DialerGroup.changeSelection quote id commit answers health)
  | .dialerChanged who answers health => c.on who (DialerGroup.dialerChanged answers health)
  | .automaticChanged who n selected answers health =>
    c.on who (DialerGroup.automaticChanged n selected answers health)
  | .inheritConnections g health => ([], c.inheritConnections g health)

/-! ### The invariant -/

/-- A lease that has been handed out is aborted, or it is the owner's, recorded with its
path; a fallback one then only stands on a network that is not published. -/
structure Inv (c : Chain) : Prop where
  owner : c.owner.Ready
  retired : ∀ g ∈ c.retired, g.Ready
  regular : ∀ lease n path, ⟨lease, n, some path⟩ ∈ c.handed → lease ∈ c.leases.aborted ∨
    ((c.owner.connections.networks n).regular = some lease ∧
      (c.owner.connections.networks n).selected = path)
  fallback : ∀ lease n, ⟨lease, n, none⟩ ∈ c.handed → lease ∈ c.leases.aborted ∨
    ((c.owner.connections.networks n).fallback = some lease ∧ c.owner.networkAvailable n = false)

variable {quote : String → String} {c : Chain} {n : Network} {g g' : DialerGroup}
  {leases : Leases}

/-- The owner is replaced by a group that keeps its leases. -/
theorem inv_owner {retired : List DialerGroup} (hinv : c.Inv) (hretired : ∀ g ∈ retired, g.Ready)
    (hready : g.Ready) (hsame : g.connections.networks = c.owner.connections.networks)
    (hkeeps : Keeps g c.leases g' leases)
    (havailable : ∀ n, c.owner.networkAvailable n = false → g'.networkAvailable n = true →
      (g'.connections.networks n).fallback = none) :
    Inv { c with retired, owner := g', leases } where
  owner := hkeeps.ready hready
  retired := hretired
  regular lease n path h := by
    rcases hinv.regular lease n path h with haborted | ⟨hregular, hselected⟩
    · exact .inl (hkeeps.aborted haborted)
    · rw [← hsame] at hregular hselected
      rw [← hselected]
      exact hkeeps.regular hready n lease hregular
  fallback lease n h := by
    rcases hinv.fallback lease n h with haborted | ⟨hfallback, hclosed⟩
    · exact .inl (hkeeps.aborted haborted)
    · rw [← hsame] at hfallback
      refine (hkeeps.fallback hready n lease hfallback).imp_right fun hkept => ⟨hkept, ?_⟩
      rw [← Bool.not_eq_true]
      intro hpublished
      rw [havailable n hclosed hpublished] at hkept
      cases hkept

/-- A retired group changes. -/
theorem inv_retired {i : Nat} (hinv : c.Inv) (hg : c.retired[i]? = some g)
    (hkeeps : Keeps g c.leases g' leases) :
    Inv { c with retired := c.retired.set i g', leases } where
  owner := hinv.owner
  retired g₁ hmem := by
    rcases List.mem_or_eq_of_mem_set hmem with hold | rfl
    · exact hinv.retired g₁ hold
    · exact hkeeps.ready (hinv.retired g (List.mem_of_getElem? hg))
  regular lease n path h := (hinv.regular lease n path h).imp_left fun h => hkeeps.aborted h
  fallback lease n h := (hinv.fallback lease n h).imp_left fun h => hkeeps.aborted h

/-- A lease is handed out. -/
theorem inv_hand {lease : Nat} {path : Option String} (hinv : c.Inv)
    (hregular : ∀ selected, path = some selected → lease ∈ c.leases.aborted ∨
      ((c.owner.connections.networks n).regular = some lease ∧
        (c.owner.connections.networks n).selected = selected))
    (hfallback : path = none → lease ∈ c.leases.aborted ∨
      ((c.owner.connections.networks n).fallback = some lease ∧
        c.owner.networkAvailable n = false)) :
    (c.hand (some lease) n path).Inv where
  owner := hinv.owner
  retired := hinv.retired
  regular lease' m selected h := by
    rcases List.mem_cons.mp h with heq | hold
    · cases heq
      exact hregular selected rfl
    · exact hinv.regular lease' m selected hold
  fallback lease' m h := by
    rcases List.mem_cons.mp h with heq | hold
    · cases heq
      exact hfallback rfl
    · exact hinv.fallback lease' m hold

/-- What a connection of the owner's own needs: its path is the recorded one, or the network
is not published. -/
def Admits (c : Chain) (n : Network) : Option String → Prop
  | some path => path ≠ "" ∧ (c.owner.connections.networks n).selected = path
  | none => c.owner.networkAvailable n = false

/-- The owner lends a lease of its own. -/
theorem inv_connectionLease {path : Option String} (hinv : c.Inv)
    (hadmits : c.owner.kind = .selector → c.Admits n path) :
    Inv (hand { c with
        owner := (c.owner.connectionLease n path.isNone c.leases).2.1
        leases := (c.owner.connectionLease n path.isNone c.leases).2.2 }
      (c.owner.connectionLease n path.isNone c.leases).1 n path) := by
  unfold connectionLease
  split
  · exact hinv
  next hkind =>
    have hadmits := hadmits (not_not.mp hkind)
    rcases hown : c.owner.ownLease n path.isNone c.leases with ⟨lease, g, leases⟩
    have hrecorded : path.isNone = false → (c.owner.connections.networks n).selected ≠ "" := by
      intro hsome
      cases path with
      | none => cases hsome
      | some path => exact hadmits.2 ▸ hadmits.1
    obtain ⟨hkeeps, hsame, hselected, hlease⟩ := ownLease_spec hown hrecorded
    have hinv' := inv_owner hinv hinv.retired hinv.owner rfl hkeeps fun m hfalse htrue => by
      rw [hsame, hfalse] at htrue
      cases htrue
    cases path with
    | none =>
      refine inv_hand hinv' nofun fun _ => .inr ⟨hlease, ?_⟩
      exact hsame ▸ hadmits
    | some path =>
      refine inv_hand hinv' (fun selected hpath => ?_) nofun
      cases hpath
      exact .inr ⟨hlease, hselected.trans hadmits.2⟩

/-- The owner lends a lease to a retired group. -/
theorem inv_inheritedLease {path : Option String} {selected : String} (hinv : c.Inv)
    (hselected : ∀ X, path = some X →
      X ≠ "" ∧ selected = X ∧ (c.owner.connections.networks n).selected ≠ "") :
    Inv (hand { c with
        owner := (c.owner.inheritedConnectionLease n path.isNone selected c.leases).2.1
        leases := (c.owner.inheritedConnectionLease n path.isNone selected c.leases).2.2 }
      (c.owner.inheritedConnectionLease n path.isNone selected c.leases).1 n path) := by
  unfold inheritedConnectionLease
  simp only
  split
  · -- the route is no longer wanted: the lease is aborted from the start
    have hkeeps : Keeps c.owner c.leases c.owner
        { next := c.leases.next + 1, aborted := c.leases.next :: c.leases.aborted } := by
      have hrefl := Keeps.refl c.owner c.leases
      exact { hrefl with
        aborted := List.subset_cons_self _ _
        regular := fun h n lease hlease => .inr ⟨hlease, rfl⟩
        fallback := fun h n lease hlease => .inr hlease }
    have hinv' := inv_owner hinv hinv.retired hinv.owner rfl hkeeps fun m hfalse htrue => by
      rw [hfalse] at htrue
      cases htrue
    exact inv_hand hinv' (fun _ _ => .inl List.mem_cons_self) fun _ => .inl List.mem_cons_self
  next hwanted =>
    refine inv_connectionLease hinv fun _ => ?_
    rw [not_or] at hwanted
    cases path with
    | none =>
      refine Bool.eq_false_iff.mpr fun hpublished => ?_
      exact hwanted.2 ⟨rfl, hinv.owner.recovery, hpublished⟩
    | some X =>
      obtain ⟨hX, hsel, hrecorded⟩ := hselected X rfl
      refine ⟨hX, ?_⟩
      by_contra hne
      exact hwanted.1 ⟨hinv.owner.reselect, hsel ▸ hX, hrecorded, hsel ▸ hne⟩

/-! ### Runs -/

/-- A group as it is made for a chain: both policies are set and its paths have names. -/
structure Configured (g : DialerGroup) : Prop where
  reselect : g.connections.closeOnReselect = true
  recovery : g.connections.closeOnRecovery = true
  named : ∀ id ∈ g.dialers, id ≠ ""

/-- What holds of every operation: an automatic selection selects dialers of its group, and a
new group is configured. -/
def Op.Valid (c : Chain) : Op → Prop
  | .selectConnection who _ _ health => ∀ g, c.get who = some g → Within health g
  | .changeSelection .. => True
  | .dialerChanged .. => True
  | .automaticChanged who _ selected _ _ => ∀ g, c.get who = some g →
      ∀ dialer, selected = some dialer → dialer < g.dialers.length
  | .inheritConnections g health => Configured g ∧ Within health g

/-- What the leases rest on: a retired group borrows for a path only where the owner has
recorded one, the owner falls back only on networks that it has not published, and an
operation that fails publishes no network. -/
def Op.Sound (quote : String → String) (c : Chain) (op : Op) : Prop :=
  match op with
  | .selectConnection (some i) n strictIP health => ∀ g, c.retired[i]? = some g →
      ∀ dialer network g' leases,
        g.selectFamily health n strictIP c.leases = (.ok dialer, network, g', leases) →
        (c.owner.connections.networks network).selected ≠ ""
  | .selectConnection none n strictIP health => ∀ network g' leases,
      c.owner.selectFamily health n strictIP c.leases =
        (.error .noAliveDialer, network, g', leases) → c.owner.networkAvailable n = false
  | op => (op.run quote c).1 = [] ∨ ∀ n, (op.run quote c).2.owner.networkAvailable n = true →
      c.owner.networkAvailable n = true

/-- A selection of the owner's own. -/
theorem inv_select_owner {strictIP : Bool} {health : Health} (hinv : c.Inv)
    (hwithin : Within health c.owner)
    (hsound : (Op.selectConnection none n strictIP health).Sound quote c) :
    (c.selectConnection none n strictIP health).Inv := by
  have hput : ∀ {result network g leases},
      c.owner.selectFamily health n strictIP c.leases = (result, network, g, leases) →
      (c.put none g leases).Inv := by
    intro result network g leases h
    obtain ⟨hkeeps, hframe, _⟩ := selectFamily_spec hinv.owner hwithin h
    refine inv_owner hinv hinv.retired hinv.owner rfl hkeeps fun m hfalse htrue => ?_
    rw [hframe.available, hfalse] at htrue
    cases htrue
  unfold selectConnection
  simp only [get]
  split
  next dialer network g leases h =>
    obtain ⟨hkeeps, hframe, hok⟩ := selectFamily_spec hinv.owner hwithin h
    obtain ⟨hlt, hrecorded⟩ := hok dialer rfl
    refine inv_connectionLease (hput h) fun hkind => ?_
    have hsame : g.statsID dialer = c.owner.statsID dialer := by
      rw [statsID, statsID, hkeeps.dialers]
    exact ⟨hsame ▸ statsID_ne hinv.owner hlt, (hrecorded (hframe.kind ▸ hkind)).trans hsame.symm⟩
  next network g leases h =>
    obtain ⟨_, hframe, _⟩ := selectFamily_spec hinv.owner hwithin h
    refine inv_connectionLease (hput h) fun _ => ?_
    exact (congrFun hframe.available n).trans (hsound network g leases h)
  next h => exact hput h

/-- A selection of a retired group. -/
theorem inv_select_retired {i : Nat} {strictIP : Bool} {health : Health} (hinv : c.Inv)
    (hg : c.retired[i]? = some g) (hwithin : Within health g)
    (hsound : (Op.selectConnection (some i) n strictIP health).Sound quote c) :
    (c.selectConnection (some i) n strictIP health).Inv := by
  have hready := hinv.retired g (List.mem_of_getElem? hg)
  have hput : ∀ {result network g' leases},
      g.selectFamily health n strictIP c.leases = (result, network, g', leases) →
      (c.put (some i) g' leases).Inv :=
    fun h => inv_retired hinv hg (selectFamily_spec hready hwithin h).1
  unfold selectConnection
  simp only [get, hg]
  split
  next dialer network g' leases h =>
    obtain ⟨hkeeps, hframe, hok⟩ := selectFamily_spec hready hwithin h
    obtain ⟨hlt, hrecorded⟩ := hok dialer rfl
    have hsame : g'.statsID dialer = g.statsID dialer := by
      rw [statsID, statsID, hkeeps.dialers]
    unfold lend
    simp only
    split
    · exact hput h
    next hkind =>
      refine inv_inheritedLease (hput h) fun X hX => ?_
      cases hX
      have hkind : g.kind = .selector := hframe.kind ▸ not_not.mp hkind
      exact ⟨hsame ▸ statsID_ne hready hlt, (hrecorded hkind).trans hsame.symm,
        hsound g hg dialer network g' leases h⟩
  next network g' leases h =>
    unfold lend
    simp only
    split
    · exact hput h
    · exact inv_inheritedLease (hput h) fun _ hnone => by cases hnone
  next h => exact hput h

/-- An operation on a group that keeps its leases, and clears the fallback leases of the
networks it publishes. -/
theorem inv_on {who : Option Nat} {f : DialerGroup → Leases → List String × DialerGroup × Leases}
    (hinv : c.Inv) (hkeeps : ∀ g, c.get who = some g → g.Ready →
      Keeps g c.leases (f g c.leases).2.1 (f g c.leases).2.2)
    (hpublishes : ∀ g, c.get who = some g → g.Ready →
      Publishes g (f g c.leases).1 (f g c.leases).2.1)
    (hsound : (c.on who f).1 = [] ∨ ∀ n, (c.on who f).2.owner.networkAvailable n = true →
      c.owner.networkAvailable n = true) :
    (c.on who f).2.Inv := by
  unfold on at hsound ⊢
  split at hsound
  · exact hinv
  next g hg =>
    cases who with
    | none =>
      cases hg
      refine inv_owner hinv hinv.retired hinv.owner rfl (hkeeps _ rfl hinv.owner)
        fun n hfalse htrue => ?_
      rcases hsound with hdone | hfailed
      · rcases hpublishes _ rfl hinv.owner hdone with hsame | hrecovered
        · rw [hsame, hfalse] at htrue
          cases htrue
        · exact hrecovered n htrue
      · have := hfailed n htrue
        rw [hfalse] at this
        cases this
    | some i =>
      exact inv_retired hinv hg (hkeeps g hg (hinv.retired g (List.mem_of_getElem? hg)))

/-- A group that holds the leases of the owner takes over. -/
theorem inv_takeOver {g₁ g₂ : DialerGroup} {leases₁ leases₂ : Leases} {health : Health}
    (hinv : c.Inv) (hready : g.Ready) (hwithin : Within health g)
    (hsame : g.connections.networks = c.owner.connections.networks)
    (hloop : inheritLoop health Network.all g c.leases = (g₁, leases₁))
    (hclose : g₁.closeRecoveredConnections leases₁ = (g₂, leases₂)) :
    Inv { c with retired := c.retired ++ [c.owner.withoutLeases], owner := g₂, leases := leases₂ } := by
  have hfirst := (@keeps_inheritLoop health g c.leases Network.all hready hwithin).1
  have hlast := keeps_closeRecovered g₁ leases₁
  rw [hloop] at hfirst
  have hrecovered := (closeRecovered_recovered (hfirst.ready hready) leases₁).2
  rw [hclose] at hlast hrecovered
  refine inv_owner hinv ?_ hready hsame (hfirst.trans hlast) fun n _ htrue => hrecovered n htrue
  intro g' hg'
  rcases List.mem_append.mp hg' with hold | hnew
  · exact hinv.retired g' hold
  · rw [List.mem_singleton.mp hnew]
    exact ⟨hinv.owner.reselect, hinv.owner.recovery, hinv.owner.named, nofun⟩

theorem inv_inherit {health : Health} (hinv : c.Inv) (hconfigured : Configured g)
    (hwithin : Within health g) :
    (c.inheritConnections g health).Inv := by
  have hready : Ready { g with
      connections := { g.connections with networks := c.owner.connections.networks } } :=
    ⟨hconfigured.reselect, hconfigured.recovery, hconfigured.named, hinv.owner.recorded⟩
  exact inv_takeOver hinv hready hwithin rfl rfl rfl

/-- Every step keeps the invariant. -/
theorem inv_run {op : Op} (hinv : c.Inv) (hvalid : op.Valid c) (hsound : op.Sound quote c) :
    (op.run quote c).2.Inv := by
  cases op with
  | selectConnection who n strictIP health =>
    cases who with
    | none => exact inv_select_owner hinv (hvalid _ rfl) hsound
    | some i =>
      cases hg : c.retired[i]? with
      | none =>
        unfold Op.run selectConnection
        simp only [get, hg]
        exact hinv
      | some g => exact inv_select_retired hinv hg (hvalid g hg) hsound
  | changeSelection who id commit answers health =>
    exact inv_on hinv (fun _ _ h => keeps_changeSelection h)
      (fun _ _ h => publishes_changeSelection h) hsound
  | dialerChanged who answers health =>
    exact inv_on hinv (fun g _ _ => keeps_dialerChanged answers health g c.leases)
      (fun _ _ h => publishes_dialerChanged h) hsound
  | automaticChanged who n selected answers health =>
    exact inv_on hinv (fun g hg h => keeps_automaticChanged h (hvalid g hg))
      (fun g hg h => publishes_automaticChanged h (hvalid g hg)) hsound
  | inheritConnections g health => exact inv_inherit hinv hvalid.1 hvalid.2

/-- The runs of a chain whose steps satisfy `P`, from a group that has handed out no lease. -/
inductive Reached (quote : String → String) (P : Chain → Op → Prop) : Chain → Prop where
  | start {g : DialerGroup} : Configured g → (g.connections.networks = fun _ => {}) →
      Reached quote P { owner := g }
  | step {c : Chain} (op : Op) : Reached quote P c → op.Valid c → P c op →
      Reached quote P (op.run quote c).2

theorem Reached.inv (h : Reached quote (Op.Sound quote) c) :
    c.Inv := by
  induction h with
  | @start g hconfigured hfresh =>
    refine ⟨⟨hconfigured.reselect, hconfigured.recovery, hconfigured.named, ?_⟩, nofun, nofun, nofun⟩
    intro n lease h
    rw [hfresh] at h
    cases h
  | step op _ hvalid hsound ih => exact inv_run ih hvalid hsound

/-- A group with one path and both policies. -/
def pathGroup (name path : String) : DialerGroup where
  name
  kind := .selector
  policy := .fixed
  dialers := [path]
  connections := { closeOnReselect := true, closeOnRecovery := true }

theorem configured_pathGroup {name path : String} (h : path ≠ "") :
    Configured (pathGroup name path) :=
  ⟨rfl, rfl, fun _ hid => List.mem_singleton.mp hid ▸ h⟩

/-- All paths of the groups are usable, or none is. -/
def health (usable : Bool) : Health where
  usable _ _ := usable
  verified _ _ := usable
  selected _ := none
  started := false
  networks _ := usable
  retain _ := false

theorem within_health (usable : Bool) (g : DialerGroup) : Within (health usable) g := nofun

end Chain

end Dae
