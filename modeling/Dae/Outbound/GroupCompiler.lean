import Dae.Lib.Dfs
import Dae.Lib.Run
import Dae.Net.Addr
import Dae.Outbound.Annotation

/-!
# Group paths

`component/outbound/group_compiler.go` and `group_filter.go`: a group is a list of paths, a
path a chain of stages, and a stage a list of nodes or the paths of another group.
`expandedPaths` multiplies the stages out and keeps what it found with the group.

The groups of a compiler are numbered in the order of their declaration and refer to each
other by number.  `NewGroupCompiler` records a dependency for every stage that refers to a
group, so the dependencies are read off the stages here.  Parsing the configuration, the
selection policies and the fields of a path that are set later are left out.
-/

namespace Dae

/-- What is used of `fmt`, `net`, `netip` and `regexp2` here: quoting, the host of an
address, an IP address, and whether a pattern matches. -/
structure PathText where
  quote : String → String
  splitHost : String → Option String
  parseAddr : String → Option Addr
  matchString : String → String → Bool

/-! ### Nodes and filters -/

/-- `NodeInfo`, with the properties that filters and entry families read. -/
structure NodeInfo where
  link : String
  name : String
  subscriptionTag : String
  protocol : String
  address : String
  deriving DecidableEq, Repr

inductive FilterInput where
  | name
  | subscriptionTag
  | link
  | protocol
  deriving DecidableEq, Repr

inductive FilterKey where
  | exact
  | keyword
  | regex
  deriving DecidableEq, Repr

structure CompiledFilter where
  name : FilterInput
  not : Bool := false
  params : List (FilterKey × String)
  deriving DecidableEq, Repr

def NodeInfo.filterValue (node : NodeInfo) : FilterInput → String
  | .name => node.name
  | .subscriptionTag => node.subscriptionTag
  | .link => node.link
  | .protocol => node.protocol

def CompiledFilter.matches (text : PathText) (filter : CompiledFilter) (value : String) : Bool :=
  let hit := filter.params.any fun (key, param) =>
    match key with
    | .regex => text.matchString param value
    | .keyword => decide (param.toList <:+: value.toList)
    | .exact => value == param
  if hit then !filter.not else filter.not

/-! ### Entry options -/

def family4 : BitVec 8 := 1

def family6 : BitVec 8 := 2

def allFamilies : BitVec 8 := family4 ||| family6

/-- `EntryOptions`; an empty interface is none. -/
structure EntryOptions where
  mark : Option (BitVec 32) := none
  interface : String := ""
  families : Option (BitVec 8) := none
  deriving DecidableEq, Repr

def mergeEntryOptions (inner outer : EntryOptions) : Except String EntryOptions :=
  if outer.mark ≠ none ∧ inner.mark ≠ none ∧ inner.mark ≠ outer.mark then
    .error "conflicting entry mark annotations"
  else if outer.interface ≠ "" ∧ inner.interface ≠ "" ∧ inner.interface ≠ outer.interface then
    .error "conflicting entry interface annotations"
  else .ok
    { mark := if outer.mark ≠ none then outer.mark else inner.mark
      interface := if outer.interface ≠ "" then outer.interface else inner.interface
      families :=
        match outer.families, inner.families with
        | none, families => families
        | some mask, none => some mask
        | some mask, some families => some (mask &&& families) }

/-- `entryHostname`. -/
def entryHostname (text : PathText) (address : String) : String :=
  match text.splitHost address with
  | some host => host
  | none =>
    let host := address.toList
    let host := if host.head? = some '[' then host.tail else host
    String.ofList (if host.getLast? = some ']' then host.dropLast else host)

def entryAddressFamilies (text : PathText) (address : String) : BitVec 8 :=
  match text.parseAddr (entryHostname text address) with
  | some ip => if ip.unmap.is4 then family4 else family6
  | none => allFamilies

/-! ### Paths -/

def maxProxyPathDepth : Nat := 16

def maxExpandedPaths : Nat := 4096

structure PathSpec (w : Nat) where
  nodes : List NodeInfo := []
  annotation : Annotation w := {}
  entry : EntryOptions := {}
  deriving DecidableEq, Repr

/-- What a filter of `pathFilterHit` reads: the subscription of the last node, or a property
of the whole chain.  A path without nodes has no subscription and panics. -/
def PathSpec.filterValue {w : Nat} (path : PathSpec w) (input : FilterInput) : Option String :=
  if input = .subscriptionTag then path.nodes.getLast?.map (·.subscriptionTag)
  else some (" -> ".intercalate (path.nodes.map (·.filterValue input)))

def pathFilterHit {w : Nat} (text : PathText) (path : PathSpec w) : List CompiledFilter → Option Bool
  | [] => some true
  | filter :: filters => do
      let value ← path.filterValue filter.name
      if filter.matches text value then pathFilterHit text path filters else some false

/-- The first node of the path has an address of the families of its entry; without nodes
there is a panic. -/
def PathSpec.reachable {w : Nat} (text : PathText) (path : PathSpec w) (entry : EntryOptions) :
    Option Bool :=
  match entry.families with
  | none => some true
  | some families => path.nodes.head?.map fun node =>
    entryAddressFamilies text node.address &&& families != 0

structure CompiledStage (w n : Nat) where
  nodes : List NodeInfo := []
  group : Option (Fin n) := none
  filters : List CompiledFilter := []
  annotation : Annotation w := {}
  entry : EntryOptions := {}
  deriving DecidableEq, Repr

/-- `groupDefinition`; a path without stages is refused when the group is compiled. -/
structure GroupDefinition (w n : Nat) where
  name : String
  paths : List (List (CompiledStage w n))
  stages : ∀ path ∈ paths, path ≠ []

/-- The groups of a compiler, in the order of their declaration. -/
structure GroupCompiler (w : Nat) where
  size : Nat
  ordered : Fin size → GroupDefinition w size

/-- The groups that the stages refer to, in order. -/
def GroupDefinition.dependencies {w n : Nat} (group : GroupDefinition w n) : List (Fin n) :=
  group.paths.flatten.filterMap (·.group)

/-- The expansions that are done. -/
abbrev Expanded (w n : Nat) := Fin n → Option (List (PathSpec w))

namespace GroupCompiler

variable {w : Nat}

def reportCycle (c : GroupCompiler w) (cycle : List (Fin c.size)) : String :=
  "group path cycle: " ++ " -> ".intercalate (cycle.map fun group => (c.ordered group).name)

/-- `validateCycles`; the groups not yet visited bound the depth of the search. -/
def validateCycles (c : GroupCompiler w) : Option (Except String Unit) :=
  (Dfs.visitAll (Dfs.visit (fun group => (c.ordered group).dependencies) c.reportCycle (c.size + 1))
    (List.finRange c.size) {}).map (·.map fun _ => ())

section Expand

variable {n : Nat} (text : PathText)

/-- The loop of `expandStage` over the paths of another group. -/
def groupFragments (stage : CompiledStage w n) :
    List (PathSpec w) → Option (Except String (List (PathSpec w)))
  | [] => some (.ok [])
  | fragment :: fragments => do
      if ← pathFilterHit text fragment stage.filters then
        match mergeAnnotations [some fragment.annotation, some stage.annotation] with
        | .error err => some (.error ("merge group stage annotation: " ++ err))
        | .ok merged =>
          match mergeEntryOptions fragment.entry stage.entry with
          | .error err => some (.error err)
          | .ok entry => do
              let reachable ← fragment.reachable text entry
              let rest ← groupFragments stage fragments
              some (if reachable then rest.map (⟨fragment.nodes, merged, entry⟩ :: ·) else rest)
      else groupFragments stage fragments

def expandStage (expandedPaths : Fin n → Run (Expanded w n) String (List (PathSpec w)))
    (stage : CompiledStage w n) : Run (Expanded w n) String (List (PathSpec w)) :=
  match stage.group with
  | some group => do
      let fragments ← expandedPaths group
      Run.lift (groupFragments text stage fragments)
  | none => pure (stage.nodes.map fun node => ⟨[node], stage.annotation, stage.entry⟩)

/-- The body of the innermost loop of `expand`. -/
def joinPath (name : String) (stageIndex : Nat) (before fragment : PathSpec w) :
    Except String (PathSpec w) :=
  let nodes := before.nodes ++ fragment.nodes
  if maxProxyPathDepth < nodes.length then
    .error ("group " ++ text.quote name ++ ": proxy path depth " ++ toString nodes.length ++
      " exceeds limit " ++ toString maxProxyPathDepth)
  else do
    let annotation ← (mergeAnnotations [some before.annotation, some fragment.annotation]).mapError
      fun err => "group " ++ text.quote name ++ ": merge path annotation: " ++ err
    .ok ⟨nodes, annotation, if stageIndex = 0 then fragment.entry else before.entry⟩

/-- The two inner loops of `expand`: later stages are the major dimension. -/
def joinPaths (name : String) (stageIndex : Nat) :
    List (PathSpec w × PathSpec w) → Except String (List (PathSpec w))
  | [] => .ok []
  | (before, fragment) :: pairs => do
      let path ← joinPath text name stageIndex before fragment
      let paths ← joinPaths name stageIndex pairs
      .ok (path :: paths)

def exceedsLimit (name : String) : String :=
  "group " ++ text.quote name ++ ": proxy path expansion exceeds limit " ++ toString maxExpandedPaths

/-- The loop of `expand` over the stages of a path. -/
def expandStages (expandedPaths : Fin n → Run (Expanded w n) String (List (PathSpec w)))
    (name : String) (pathIndex : Nat) :
    Nat → List (CompiledStage w n) → List (PathSpec w) →
      Run (Expanded w n) String (List (PathSpec w))
  | _, [], current => pure current
  | stageIndex, stage :: stages, current => do
      let fragments ← (expandStage text expandedPaths stage).mapError fun err =>
        "group " ++ text.quote name ++ " path " ++ toString (pathIndex + 1) ++ " stage " ++
          toString (stageIndex + 1) ++ ": " ++ err
      let next ← Run.lift (some
        (if fragments.length ≠ 0 ∧ maxExpandedPaths / fragments.length < current.length then
          .error (exceedsLimit text name)
        else
          joinPaths text name stageIndex
            (fragments.flatMap fun fragment => current.map fun before => (before, fragment))))
      expandStages expandedPaths name pathIndex (stageIndex + 1) stages next

/-- The loop of `expand` over the paths of a group. -/
def expandPaths (expandedPaths : Fin n → Run (Expanded w n) String (List (PathSpec w)))
    (name : String) :
    Nat → List (List (CompiledStage w n)) → List (PathSpec w) →
      Run (Expanded w n) String (List (PathSpec w))
  | _, [], paths => pure paths
  | pathIndex, path :: rest, paths => do
      let current ← expandStages text expandedPaths name pathIndex 0 path [{}]
      let paths ← Run.lift (some
        (if maxExpandedPaths - paths.length < current.length then .error (exceedsLimit text name)
        else .ok (paths ++ current)))
      expandPaths expandedPaths name (pathIndex + 1) rest paths

def expand (expandedPaths : Fin n → Run (Expanded w n) String (List (PathSpec w)))
    (group : GroupDefinition w n) : Run (Expanded w n) String (List (PathSpec w)) :=
  expandPaths text expandedPaths group.name 0 group.paths []

end Expand

/-- The expansion of a group, which is kept when it succeeds.  Fuel is the depth to which
groups are nested. -/
def expandedPaths (c : GroupCompiler w) (text : PathText) :
    Nat → Fin c.size → Run (Expanded w c.size) String (List (PathSpec w))
  | 0, _ => fun _ => none
  | fuel + 1, group => fun expanded =>
    match expanded group with
    | some paths => some (.ok paths, expanded)
    | none =>
      match expand text (expandedPaths c text fuel) (c.ordered group) expanded with
      | none => none
      | some (.error err, expanded) => some (.error err, expanded)
      | some (.ok paths, expanded) =>
        some (.ok paths, Function.update expanded group (some paths))

/-- The expansions of several groups, one after the other. -/
def expandAll (c : GroupCompiler w) (text : PathText) (fuel : Nat) :
    List (Fin c.size) → Expanded w c.size →
      Option (List (Except String (List (PathSpec w))) × Expanded w c.size)
  | [], expanded => some ([], expanded)
  | group :: groups, expanded => do
      let (result, expanded) ← expandedPaths c text fuel group expanded
      let (results, expanded) ← expandAll c text fuel groups expanded
      some (result :: results, expanded)

end GroupCompiler

end Dae
