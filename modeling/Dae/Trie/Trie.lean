import Dae.Lib.Sorted
import Dae.Net.Addr
import Dae.Trie.BitList

/-!
# The succinct trie

`pkg/trie/trie.go`: a static set of byte strings, asked for a member that is a
prefix of a word.  The nodes are numbered level by level; `labelBitmap` holds for
each node one zero for every edge and a closing one, `labels` the characters of the
edges, `leaves` the nodes at which a string ends.

`none` is a run-time panic and a Go `int` that may become negative is an `Int`.  The
rank and select samples are 32-bit integers until they are packed.  Functions that
read a compact bit list take the reader as an argument: `CompactBitList.get` is the
program's own, `CompactBitList.getChecked` panics at a unit that was never written.
-/

namespace Dae

open BitWords

/-- A Go string. -/
abbrev Bytes := List UInt8

/-! ### Alphabets -/

structure ValidChars where
  table : UInt8 → UInt8
  n : UInt16
  zeroChar : UInt8

def newValidChars (validChars : Bytes) : ValidChars :=
  validChars.foldl (fun v c =>
    { table := Function.update v.table c v.n.toUInt8
      n := v.n + 1
      zeroChar := if v.n = 0 then c else v.zeroChar })
    { table := fun _ => 0, n := 0, zeroChar := 0 }

def ValidChars.size (v : ValidChars) : Nat := v.n.toNat

def ValidChars.isValidChar (v : ValidChars) (c : UInt8) : Bool :=
  decide (0 < v.table c) || c == v.zeroChar

/-- A `*ValidChars`: `ValidCidrChars` is recognised by its address. -/
inductive CharsRef where
  | validCidrChars
  | other (validChars : Bytes)
  deriving DecidableEq, Repr

/-- The characters the alphabet was made from. -/
def CharsRef.letters : CharsRef → Bytes
  | validCidrChars => [48, 49]
  | other validChars => validChars

def CharsRef.chars (r : CharsRef) : ValidChars := newValidChars r.letters

/-! ### Bitmaps -/

def setBit (bm : List (BitVec 64)) (i : Nat) (v : Bool) : List (BitVec 64) :=
  (bm ++ List.replicate (i / 64 + 1 - bm.length) 0).modify (i / 64)
    (· ||| ((BitVec.ofBool v).setWidth 64 <<< (i % 64)))

/-- `getBit(bm, i) != 0`. -/
def getBit (bm : List (BitVec 64)) (i : Int) : Option Bool := do
  let word ← index bm (i / 64)
  some (word &&& (1#64 <<< (i % 64).toNat) != 0)

abbrev Reader := CompactBitList → Int → Option (BitVec 64)

def countZeros (get : Reader) (bm : List (BitVec 64)) (ranks : CompactBitList) (i : Int) :
    Option Int := do
  let rank ← get ranks (i / 64)
  let word ← index bm (i / 64)
  some (i - rank.toInt - ones (word &&& ((1#64 <<< (i % 64).toNat) - 1#64)))

/-- The loop of `selectIthOne` over the words from word `i` on. -/
def selectWord : List (BitVec 64) → Nat → Int → Option Int
  | [], _, _ => none
  | w :: bm, i, findIthOne =>
    if (ones w : Int) ≤ findIthOne then selectWord bm (i + 1) (findIthOne - ones w)
    else some (64 * i + trailingZeros (clearLowest^[findIthOne.toNat] w))

def selectIthOne (get : Reader) (bm : List (BitVec 64)) (ranks selects : CompactBitList) (i : Int) :
    Option Int := do
  let sample ← get selects (i / 64)
  let base := sample.toInt - sample.toInt % 64
  let rank ← get ranks (base / 64)
  if base < 0 then none
  else selectWord (bm.drop (base / 64).toNat) (base / 64).toNat (i - rank.toInt)

/-! ### The trie -/

structure IpCursor where
  node : Int
  bitmap : Int
  deriving DecidableEq, Repr

structure Trie where
  leaves : List (BitVec 64)
  labelBitmap : List (BitVec 64)
  labels : CompactBitList
  ranksBL : CompactBitList
  selectsBL : CompactBitList
  chars : CharsRef
  ipv4 : IpCursor

namespace Trie

/-- The loops over the labels of a node, from bit `bmIdx` on.  `some none` is the end of
the labels. -/
def findLabel (get : Reader) (ss : Trie) (nodeId : Int) (found : BitVec 64 → Bool) :
    Nat → Int → Option (Option Int)
  | 0, _ => none
  | fuel + 1, bmIdx => do
      if ← getBit ss.labelBitmap bmIdx then some none
      else
        let label ← get ss.labels (bmIdx - nodeId)
        if found label then some (some bmIdx) else findLabel get ss nodeId found fuel (bmIdx + 1)

/-- Enough rounds for every label of the trie. -/
def labelFuel (ss : Trie) : Nat := 64 * ss.labelBitmap.length + 1

/-- The node behind the edge at bit `bmIdx`, and where its labels start. -/
def nextLevel (get : Reader) (ss : Trie) (bmIdx : Int) : Option (Int × Int) := do
  let nodeId ← countZeros get ss.labelBitmap ss.ranksBL (bmIdx + 1)
  let one ← selectIthOne get ss.labelBitmap ss.ranksBL ss.selectsBL (nodeId - 1)
  some (nodeId, one + 1)

def hasPrefixLoop (get : Reader) (ss : Trie) : Bytes → Int → Int → Option Bool
  | [], nodeId, _ => getBit ss.leaves nodeId
  | c :: word, nodeId, bmIdx => do
      if ← getBit ss.leaves nodeId then some true
      else if !ss.chars.chars.isValidChar c then some false
      else
        match ← findLabel get ss nodeId (fun label => label.setWidth 8 == (ss.chars.chars.table c).toBitVec)
            ss.labelFuel bmIdx with
        | none => some false
        | some bmIdx =>
          let (nodeId, bmIdx) ← nextLevel get ss bmIdx
          hasPrefixLoop get ss word nodeId bmIdx

def hasPrefix (get : Reader) (ss : Option Trie) (word : Bytes) : Option Bool :=
  match ss with
  | none => some false
  | some ss => hasPrefixLoop get ss word 0 0

/-- The rounds of `seekIP` from bit `bit` on. -/
def seekIPLoop (get : Reader) (ss : Trie) (address : BitVec 128) :
    Nat → Nat → IpCursor → Option IpCursor
  | 0, _, cursor => some cursor
  | rounds + 1, bit, cursor => do
      if ← getBit ss.leaves cursor.node then some cursor
      else
        match ← findLabel get ss cursor.node
            (fun label => label == (BitVec.ofBool (address.getMsbD bit)).setWidth 64) ss.labelFuel
            cursor.bitmap with
        | none => some { node := -1, bitmap := 0 }
        | some bitmap =>
          let (node, bitmap) ← nextLevel get ss bitmap
          seekIPLoop get ss address rounds (bit + 1) { node, bitmap }

def seekIP (get : Reader) (ss : Trie) (address : BitVec 128) (start stop : Nat) (cursor : IpCursor) :
    Option IpCursor :=
  if cursor.node < 0 then some cursor
  else seekIPLoop get ss address (stop - start) start cursor

def hasPrefixIP (get : Reader) (ss : Option Trie) (address : BitVec 128) : Option Bool :=
  match ss with
  | none => some false
  | some ss =>
    if ss.chars ≠ .validCidrChars then some false
    else do
      let (cursor, start) :=
        if (Addr.v6 address).is4In6 then (ss.ipv4, 96) else ({ node := 0, bitmap := 0 }, 0)
      let cursor ← seekIP get ss address start 128 cursor
      if 0 ≤ cursor.node then getBit ss.leaves cursor.node else some false

end Trie

/-! ### Construction -/

/-- The ranks: the number of ones before each word, and of all. -/
def rankSamples (bm : List (BitVec 64)) : List (BitVec 32) :=
  bm.foldl (fun ranks word => ranks ++ [ranks.getLastD 0 + BitVec.ofNat 32 (ones word)]) [0]

/-- The positions of every 64th one, with the number of ones seen. -/
def selectSamples (bm : List (BitVec 64)) : List (BitVec 32) × Nat :=
  (List.range (64 * bm.length)).foldl (fun (selects, n) i =>
    if bit bm i then (if n % 64 = 0 then selects ++ [BitVec.ofNat 32 i] else selects, n + 1)
    else (selects, n)) ([], 0)

def CompactBitList.appendAll (m : CompactBitList) (values : List (BitVec 64)) :
    Option CompactBitList :=
  values.foldlM CompactBitList.append m

/-- `init`: the rank and select indexes. -/
def initIndexes (labelBitmap : List (BitVec 64)) : Option (CompactBitList × CompactBitList) := do
  let ranks := rankSamples labelBitmap
  let selects := (selectSamples labelBitmap).1
  let lastRank ← ranks.getLast?
  let lastSelect ← selects.getLast?
  let ranksBL ← (newCompactBitList (len64 (lastRank.signExtend 64))).appendAll
    (ranks.map (·.signExtend 64))
  let selectsBL ← (newCompactBitList (max 1 (len64 (lastSelect.signExtend 64)))).appendAll
    (selects.map (·.signExtend 64))
  some (ranksBL, selectsBL)

structure QElt where
  s : Nat
  e : Nat
  col : Nat
  deriving DecidableEq, Repr

/-- What the loop of `NewTrie` has built; `queue` is the part not yet visited. -/
structure TrieBuild where
  queue : List QElt
  leaves : List (BitVec 64)
  labels : CompactBitList
  labelBitmap : List (BitVec 64)
  lIdx : Nat

/-- `keys[j][col]`. -/
def charAt (keys : List Bytes) (j col : Nat) : Option UInt8 := do
  let key ← keys[j]?
  key[col]?

/-- The end of the keys from `j` on that have `c` at `col`, with `rounds` keys left. -/
def runEnd (keys : List Bytes) (col : Nat) (c : UInt8) : Nat → Nat → Option Nat
  | 0, j => some j
  | rounds + 1, j => do
      let d ← charAt keys j col
      if d = c then runEnd keys col c rounds (j + 1) else some j

/-- Queue a child and append its label. -/
def TrieBuild.addChild (chars : ValidChars) (st : TrieBuild) (child : QElt) (c : UInt8) :
    Option TrieBuild := do
  let labels ← st.labels.append ((chars.table c).toBitVec.setWidth 64)
  some { st with
    queue := st.queue ++ [child]
    labels
    labelBitmap := setBit st.labelBitmap st.lIdx false
    lIdx := st.lIdx + 1 }

/-- The loop over the children of a node. -/
def childLoop (keys : List Bytes) (chars : ValidChars) (e col : Nat) :
    Nat → Nat → TrieBuild → Option TrieBuild
  | 0, _, st => some st
  | fuel + 1, j, st =>
    if j < e then do
      let c ← charAt keys j col
      let next ← runEnd keys col c (e - j) j
      let st ← st.addChild chars ⟨j, next, col + 1⟩ c
      childLoop keys chars e col fuel next st
    else some st

/-- The loop over the queue. -/
def nodeLoop (keys : List Bytes) (chars : ValidChars) : Nat → Nat → TrieBuild → Option TrieBuild
  | 0, _, st => if st.queue = [] then some st else none
  | fuel + 1, i, st =>
    match st.queue with
    | [] => some st
    | elt :: queue => do
        let key ← keys[elt.s]?
        let leaf := elt.col == key.length
        let s := if leaf then elt.s + 1 else elt.s
        let leaves := if leaf then setBit st.leaves i true else st.leaves
        let st ← childLoop keys chars elt.e elt.col (elt.e - s) s { st with queue, leaves }
        nodeLoop keys chars fuel (i + 1)
          { st with labelBitmap := setBit st.labelBitmap st.lIdx true, lIdx := st.lIdx + 1 }

/-- More rounds than the trie can have nodes. -/
def nodeFuel (keys : List Bytes) : Nat := (keys.map fun key => key.length + 1).sum

/-- `NewTrie` of sorted keys without repetitions over the alphabet. -/
def buildTrie (get : Reader) (keys : List Bytes) (chars : CharsRef) : Option Trie := do
  let st ← nodeLoop keys chars.chars (nodeFuel keys) 0
    { queue := [⟨0, keys.length, 0⟩], leaves := [], labelBitmap := [], lIdx := 0
      labels := newCompactBitList (Nat.size chars.chars.size) }
  let (ranksBL, selectsBL) ← initIndexes st.labelBitmap
  let ss : Trie :=
    { leaves := st.leaves, labelBitmap := st.labelBitmap, labels := st.labels, ranksBL, selectsBL
      chars, ipv4 := { node := 0, bitmap := 0 } }
  if chars = .validCidrChars then do
    let ipv4 ← ss.seekIP get Addr.mappedPrefix 0 96 { node := 0, bitmap := 0 }
    some { ss with ipv4 }
  else some ss

def newTrie (get : Reader) (keys : List Bytes) (chars : CharsRef) :
    Option (Except String (Option Trie)) :=
  if keys = [] then some (.ok none)
  else
    let keys := compact (keys.insertionSort (· ≤ ·))
    match keys.flatten.find? (fun c => !chars.chars.isValidChar c) with
    | some c => some (.error ("char out of range: " ++ String.singleton (Char.ofNat c.toNat)))
    | none => (buildTrie get keys chars).map fun ss => .ok (some ss)

/-! ### Prefixes -/

/-- The digits of the bits from bit `i` on. -/
def bin128Loop (ip : BitVec 128) : Nat → Nat → Bytes
  | 0, _ => []
  | n + 1, i => (if ip.getMsbD i then 49 else 48) :: bin128Loop ip n (i + 1)

def prefix2bin128 (p : Prefix) : Bytes :=
  let n := if p.addr.is4 then p.bits + 96 else p.bits
  bin128Loop p.addr.as16 n 0

def newTrieFromPrefixes (get : Reader) (cidrs : List Prefix) :
    Option (Except String (Option Trie)) :=
  newTrie get (cidrs.map prefix2bin128) .validCidrChars

end Dae
