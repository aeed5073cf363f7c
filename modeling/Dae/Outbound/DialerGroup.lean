import Mathlib

/-!
# Dialer groups

`component/outbound/dialer_group.go`, `group_selection.go` and `connection_policy.go`: a
group selects one of its dialers, publishes for every network whether it is available, and
hands out leases that end when the selection changes or the group recovers.  Each function
here runs under the lock of its group.

What the group reads of its dialers and of its automatic selection at one moment is a
`Health`; observers and the commit of a change answer through an oracle.  Statistics, logs,
the tracking of checks and the readiness at startup are left out.
-/

namespace Dae

inductive Network where
  | tcp4
  | tcp6
  | udp4
  | udp6
  deriving DecidableEq, Repr

def Network.all : List Network := [.tcp4, .tcp6, .udp4, .udp6]

theorem Network.mem_all (n : Network) : n ∈ Network.all := by
  cases n <;> decide

/-- The same transport over the other IP version. -/
def Network.other : Network → Network
  | .tcp4 => .tcp6
  | .tcp6 => .tcp4
  | .udp4 => .udp6
  | .udp6 => .udp4

inductive GroupKind where
  | selector
  | singleAlwaysAlive
  | invisible
  deriving DecidableEq, Repr

/-- `DialerSelectionPolicy`; the policies by latency and `failover` select alike here. -/
inductive SelectionPolicy where
  | empty
  | fixed
  | selector
  | random
  | automatic
  deriving DecidableEq, Repr

/-- What a group reads of its dialers, by position, and of its automatic selection: the
dialer selected (or drawn, for the random policy) and its snapshot of connectivity. -/
structure Health where
  usable : Nat → Network → Bool
  verified : Nat → Network → Bool
  selected : Network → Option Nat
  started : Bool
  networks : Network → Bool
  retain : Network → Bool

/-! ### Leases -/

/-- The leases made so far and those that have been aborted. -/
structure Leases where
  next : Nat := 0
  aborted : List Nat := []
  deriving DecidableEq, Repr

def Leases.abort (leases : Leases) : Option Nat → Leases
  | none => leases
  | some lease => { leases with aborted := lease :: leases.aborted }

structure ConnectionGeneration where
  selected : String := ""
  regular : Option Nat := none
  fallback : Option Nat := none
  deriving DecidableEq, Repr

structure ConnectionPolicy where
  closeOnReselect : Bool := false
  closeOnRecovery : Bool := false
  networks : Network → ConnectionGeneration := fun _ => {}

/-! ### Groups -/

/-- `DialerGroup`; a dialer is its `StatsID`, an observer what it accepted last. -/
structure DialerGroup where
  name : String
  kind : GroupKind
  policy : SelectionPolicy
  dialers : List String
  fixedIndex : Int := 0
  selectionIndex : Int := 0
  connections : ConnectionPolicy := {}
  networkAvailable : Network → Bool := fun _ => false
  observers : List (Network → Bool) := []
  closed : Bool := false

namespace DialerGroup

/-- `g.automatic` is set. -/
def isAutomatic (g : DialerGroup) : Bool :=
  g.kind = .selector && (g.policy = .random || g.policy = .automatic)

def isSelector (g : DialerGroup) : Bool := g.kind = .selector && g.policy = .selector

def inRange (g : DialerGroup) (index : Int) : Bool := 0 ≤ index && index < g.dialers.length

def fixedDialer (g : DialerGroup) : Option Nat :=
  if g.inRange g.selectionIndex then some g.selectionIndex.toNat else none

def statsID (g : DialerGroup) (dialer : Nat) : String := g.dialers.getD dialer ""

/-- `policyDialers`, by position. -/
def policyDialers (g : DialerGroup) : List Nat :=
  if g.policy = .empty ∨ g.policy = .fixed ∨ g.isSelector then g.fixedDialer.toList
  else List.range g.dialers.length

/-- The networks and the retained ones of `aggregateConnectivity`. -/
def aggregateConnectivity (g : DialerGroup) (health : Health) : (Network → Bool) × (Network → Bool) :=
  if g.isAutomatic && health.started then (health.networks, health.retain)
  else (fun n => g.policyDialers.any (health.usable · n), fun _ => false)

/-! ### Publishing -/

/-- How the observers answer one publication, by their position; an error refuses it. -/
abbrev Answers := Nat → Option String

/-- `publishConnectivity`: every observer is asked, and the errors are joined. -/
def publishConnectivity (answers : Answers) (available : Bool) (n : Network) (g : DialerGroup) :
    List String × DialerGroup :=
  ((List.range g.observers.length).filterMap answers,
    { g with
      observers := g.observers.mapIdx fun i value =>
        if answers i = none then Function.update value n available else value })

def publishNetworkAvailable (answers : Answers) (n : Network) (available : Bool) (g : DialerGroup) :
    List String × DialerGroup :=
  if g.networkAvailable n = available then ([], g)
  else
    let (err, g) := publishConnectivity answers available n g
    if err ≠ [] then (err, g)
    else ([], { g with networkAvailable := Function.update g.networkAvailable n available })

/-- The loop of `updateConnectivity`. -/
def updateLoop (answers : Network → Answers) (networks retain : Network → Bool) :
    List Network → DialerGroup → List String × DialerGroup
  | [], g => ([], g)
  | n :: rest, g =>
    if retain n && !networks n then updateLoop answers networks retain rest g
    else
      let (err, g) := publishNetworkAvailable (answers n) n (networks n) g
      let (more, g) := updateLoop answers networks retain rest g
      (err ++ more, g)

def updateConnectivity (answers : Network → Answers) (health : Health) (g : DialerGroup) :
    List String × DialerGroup :=
  let (networks, retain) := g.aggregateConnectivity health
  updateLoop answers networks retain Network.all g

/-- `ObserveConnectivity`: an observer that accepts the current values is registered. -/
def observeConnectivity (answers : Network → Option String) (g : DialerGroup) :
    Option String × DialerGroup :=
  match Network.all.findSome? answers with
  | some err => (some err, g)
  | none => (none, { g with observers := g.observers ++ [g.networkAvailable] })

/-- The function that `ObserveConnectivity` returns. -/
def detach (i : Nat) (g : DialerGroup) : DialerGroup :=
  { g with observers := g.observers.eraseIdx i }

/-! ### Connections -/

def setGeneration (g : DialerGroup) (n : Network) (generation : ConnectionGeneration) : DialerGroup :=
  { g with
    connections :=
      { g.connections with
        networks := Function.update g.connections.networks n generation } }

def closeReselectedConnections (n : Network) (g : DialerGroup) (leases : Leases) :
    DialerGroup × Leases :=
  if g.connections.closeOnReselect then
    let generation := g.connections.networks n
    (g.setGeneration n { generation with regular := none, fallback := none },
      (leases.abort generation.regular).abort generation.fallback)
  else (g, leases)

/-- The loop of `closeRecoveredConnections`. -/
def closeRecoveredLoop : List Network → DialerGroup → Leases → DialerGroup × Leases
  | [], g, leases => (g, leases)
  | n :: rest, g, leases =>
    if g.networkAvailable n then
      let generation := g.connections.networks n
      closeRecoveredLoop rest (g.setGeneration n { generation with fallback := none })
        (leases.abort generation.fallback)
    else closeRecoveredLoop rest g leases

def closeRecoveredConnections (g : DialerGroup) (leases : Leases) : DialerGroup × Leases :=
  if g.connections.closeOnRecovery then closeRecoveredLoop Network.all g leases else (g, leases)

/-- The selection of a network is recorded. -/
def recordSelection (n : Network) (selected : String) (g : DialerGroup) : DialerGroup :=
  g.setGeneration n { g.connections.networks n with selected }

def updateConnectionSelection (n : Network) (dialer : Nat) (g : DialerGroup) (leases : Leases) :
    DialerGroup × Leases :=
  let selected := g.statsID dialer
  let recorded := (g.connections.networks n).selected
  let (g, leases) :=
    if recorded ≠ "" ∧ recorded ≠ selected then g.closeReselectedConnections n leases
    else (g, leases)
  (g.recordSelection n selected, leases)

/-- A lease of the group's own generation, made when there is none. -/
def ownLease (n : Network) (fallback : Bool) (g : DialerGroup) (leases : Leases) :
    Nat × DialerGroup × Leases :=
  let generation := g.connections.networks n
  match if fallback then generation.fallback else generation.regular with
  | some lease => (lease, g, leases)
  | none =>
    let lease := leases.next
    let generation :=
      if fallback then { generation with fallback := some lease }
      else { generation with regular := some lease }
    (lease, g.setGeneration n generation, { leases with next := lease + 1 })

/-! ### Selection -/

inductive SelectError where
  | closed
  | noDialer
  | noAliveDialer
  deriving DecidableEq, Repr

def selectionUsable (g : DialerGroup) (health : Health) (dialer : Nat) (n : Network) : Bool :=
  if g.isAutomatic then health.verified dialer n else health.usable dialer n

def selectLocked (health : Health) (n : Network) (g : DialerGroup) (leases : Leases) :
    Except SelectError Nat × DialerGroup × Leases :=
  if g.closed then (.error .closed, g, leases)
  else if g.dialers = [] then (.error .noDialer, g, leases)
  else if g.kind ≠ .selector then
    (if health.usable 0 n then .ok 0 else .error .noAliveDialer, g, leases)
  else
    let selected :=
      if g.policy = .random ∨ g.policy = .automatic then health.selected n else g.fixedDialer
    match selected with
    | none => (.error .noAliveDialer, g, leases)
    | some dialer =>
      if g.selectionUsable health dialer n then
        (.ok dialer, g.updateConnectionSelection n dialer leases)
      else (.error .noAliveDialer, g, leases)

/-- The checks of `ChangeSelection`: the index of the path to select. -/
def selectionTarget (quote : String → String) (id : String) (g : DialerGroup) : Except String Int :=
  if g.closed then .error "use of closed network connection"
  else if !g.isSelector then
    .error ("group " ++ quote g.name ++ " does not use selector policy")
  else if !g.inRange g.fixedIndex then
    .error ("group " ++ quote g.name ++ ": selector initial index " ++ toString g.fixedIndex ++
      " is out of range for " ++ toString g.dialers.length ++ " paths")
  else if id = "" then .ok g.fixedIndex
  else
    match g.dialers.idxOf? id with
    | none => .error ("group " ++ quote g.name ++ " has no path " ++ quote id)
    | some index => .ok index

/-- The last loop of `ChangeSelection`: all connections end and the path is recorded. -/
def reselectLoop (selected : String) : List Network → DialerGroup → Leases → DialerGroup × Leases
  | [], g, leases => (g, leases)
  | n :: rest, g, leases =>
    let (g, leases) := g.closeReselectedConnections n leases
    reselectLoop selected rest (g.recordSelection n selected) leases

/-- The change is committed when it has been published. -/
def commitError (published : List String) (commit : Option String) : List String :=
  if published = [] then commit.toList else published

/-- The change itself, from one index to another. -/
def switchSelection (quote : String → String) (index : Int) (commit : Option String)
    (answers : Bool → Network → Answers) (health : Health) (g : DialerGroup) (leases : Leases) :
    List String × DialerGroup × Leases :=
  let (err, changed) := updateConnectivity (answers false) health { g with selectionIndex := index }
  let err := commitError err commit
  if err ≠ [] then
    let (more, restored) := updateConnectivity (answers true) health
      { changed with selectionIndex := g.selectionIndex }
    (("change selector " ++ quote g.name ++ ": " ++ "\n".intercalate err) :: more, restored, leases)
  else
    let (changed, leases) := changed.closeRecoveredConnections leases
    ([], reselectLoop (changed.statsID index.toNat) Network.all changed leases)

/-- `ChangeSelection`.  `answers false` are the answers to the change and `answers true`
those to its rollback; `commit` is the error of the commit.  The errors are joined. -/
def changeSelection (quote : String → String) (id : String) (commit : Option String)
    (answers : Bool → Network → Answers) (health : Health) (g : DialerGroup) (leases : Leases) :
    List String × DialerGroup × Leases :=
  match g.selectionTarget quote id with
  | .error err => ([err], g, leases)
  | .ok index =>
    if g.selectionIndex = index then (commit.toList, g, leases)
    else g.switchSelection quote index commit answers health leases

/-- `DialerChanged`; a group with an automatic selection only takes notice. -/
def dialerChanged (answers : Network → Answers) (health : Health) (g : DialerGroup)
    (leases : Leases) : List String × DialerGroup × Leases :=
  if g.closed ∨ g.kind ≠ .selector ∨ g.isAutomatic then ([], g, leases)
  else
    let (err, g) := g.updateConnectivity answers health
    if err ≠ [] then (err, g, leases) else ([], g.closeRecoveredConnections leases)

/-- `automaticChanged`, with the dialer of a committed election. -/
def automaticChanged (n : Network) (selected : Option Nat) (answers : Network → Answers)
    (health : Health) (g : DialerGroup) (leases : Leases) : List String × DialerGroup × Leases :=
  if g.closed then ([], g, leases)
  else
    let (g, leases) :=
      match selected with
      | none => (g, leases)
      | some dialer => g.updateConnectionSelection n dialer leases
    let (err, g) := g.updateConnectivity answers health
    if err ≠ [] then (err, g, leases) else ([], g.closeRecoveredConnections leases)

end DialerGroup

end Dae
