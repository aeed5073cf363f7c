import Dae.Lib.Result
import Dae.Trie.Correct

/-!
# Matching domains

`component/routing/domain_matcher`: a bitmap with one bit for every index at which the
domain is matched.  Full and suffix patterns become keys of a trie over the reversed
domain, with `^` for its start; keywords go to an Aho–Corasick matcher and regular
expressions are tried one by one.

The Aho–Corasick matcher, the regular expressions and `strings.ToLower` are parameters;
`PatternLibs.Lawful` states what is used of them.  The counts that only the log reads are
left out.
-/

namespace Dae

open BitWords PrefixTree

/-- A string of ASCII characters. -/
def ascii (s : String) : Bytes := s.toList.map fun c => c.toNat.toUInt8

inductive RoutingDomainKey where
  | full
  | keyword
  | suffix
  | regex
  | other (name : String)
  deriving DecidableEq, Repr

structure PatternLibs (Ac Re : Type) where
  newMatcher : List Bytes → Except String Ac
  contains : Ac → Bytes → Bool
  compile : Bytes → Option Re
  matchString : Re → Bytes → Bool
  toLower : Bytes → Bytes

/-- The matcher reports substrings, and no letter is lowered to `^` or `$`. -/
structure PatternLibs.Lawful {Ac Re : Type} (libs : PatternLibs Ac Re) : Prop where
  contains : ∀ patterns ac text, libs.newMatcher patterns = .ok ac →
    (libs.contains ac text = true ↔ ∃ d ∈ patterns, d <:+: text)
  lower : ∀ s, 94 ∉ s → 36 ∉ s → 94 ∉ libs.toLower s ∧ 36 ∉ libs.toLower s

/-- `ValidDomainChars`: the digits, the small letters and `-`, `.`, `^` and `_`. -/
def validDomainChars : CharsRef :=
  .other [48, 49, 50, 51, 52, 53, 54, 55, 56, 57, 97, 98, 99, 100, 101, 102, 103, 104, 105, 106, 107,
    108, 109, 110, 111, 112, 113, 114, 115, 116, 117, 118, 119, 120, 121, 122, 45, 46, 94, 95]

structure AhocorasickSlimtrie (Ac Re : Type) where
  validAcIndexes : List Nat
  validTrieIndexes : List Nat
  validRegexpIndexes : List Nat
  ac : List (Option Ac)
  trie : List (Option Trie)
  regexp : List (List Re)
  toBuildAc : List (List Bytes)
  toBuildTrie : List (List Bytes)
  err : Option Bytes

variable {Ac Re : Type}

def newAhocorasickSlimtrie (bitLength : Nat) : AhocorasickSlimtrie Ac Re where
  validAcIndexes := []
  validTrieIndexes := []
  validRegexpIndexes := []
  ac := List.replicate bitLength none
  trie := List.replicate bitLength none
  regexp := List.replicate bitLength []
  toBuildAc := List.replicate bitLength []
  toBuildTrie := List.replicate bitLength []
  err := none

/-- `table[i] = append(table[i], values...)`. -/
def appendAt {α : Type} (table : List (List α)) (i : Nat) (values : List α) : Option (List (List α)) :=
  if i < table.length then some (table.modify i (· ++ values)) else none

/-- Every character of the pattern is in `ValidDomainChars`. -/
def validPattern (d : Bytes) : Bool := d.all validDomainChars.chars.isValidChar

namespace AhocorasickSlimtrie

/-- The loop of `AddSet` over the patterns. -/
def addPatterns (libs : PatternLibs Ac Re) (bitIndex : Nat) (typ : RoutingDomainKey) :
    List Bytes → AhocorasickSlimtrie Ac Re → Option (AhocorasickSlimtrie Ac Re)
  | [], n => some n
  | d :: patterns, n =>
    match typ with
    | .full =>
      if validPattern d then do
        let toBuildTrie ← appendAt n.toBuildTrie bitIndex [94 :: (d ++ [36])]
        addPatterns libs bitIndex typ patterns { n with toBuildTrie }
      else addPatterns libs bitIndex typ patterns n
    | .suffix =>
      if validPattern d then do
        let keys := if d.head? = some 46 then [d ++ [36]] else [46 :: (d ++ [36]), 94 :: (d ++ [36])]
        let toBuildTrie ← appendAt n.toBuildTrie bitIndex keys
        addPatterns libs bitIndex typ patterns { n with toBuildTrie }
      else addPatterns libs bitIndex typ patterns n
    | .keyword => do
        let toBuildAc ← appendAt n.toBuildAc bitIndex [d]
        addPatterns libs bitIndex typ patterns { n with toBuildAc }
    | .regex =>
      match libs.compile d with
      | none => some { n with err := some (ascii "failed to compile regex: " ++ d) }
      | some r => do
          let regexp ← appendAt n.regexp bitIndex [r]
          addPatterns libs bitIndex typ patterns { n with regexp }
    | .other name => some { n with err := some (ascii ("unknown RoutingDomainKey: " ++ name)) }

def addSet (libs : PatternLibs Ac Re) (bitIndex : Nat) (patterns : List Bytes)
    (typ : RoutingDomainKey) (n : AhocorasickSlimtrie Ac Re) : Option (AhocorasickSlimtrie Ac Re) :=
  if n.err ≠ none then some n else addPatterns libs bitIndex typ patterns n

end AhocorasickSlimtrie

/-- `strings.TrimSuffix` of one character. -/
def trimSuffix (s : Bytes) (c : UInt8) : Bytes := if s.getLast? = some c then s.dropLast else s

def toSuffixTrieString (s : Bytes) : Bytes := (trimSuffix s 36).reverse

namespace AhocorasickSlimtrie

/-- The first two loops of `Build`, from index `i` on: an index without patterns is passed
over, any other is made an item and a valid index. -/
def buildEach {β : Type} (make : List Bytes → Option (Except Bytes β)) (absent : β) :
    Nat → List (List Bytes) → Option (Except Bytes (List β × List Nat))
  | _, [] => some (.ok ([], []))
  | i, toBuild :: rest =>
    if toBuild = [] then do
      let built ← buildEach make absent (i + 1) rest
      some (built.map fun (items, valid) => (absent :: items, valid))
    else do
      match ← make toBuild with
      | .error e => some (.error e)
      | .ok item =>
        let built ← buildEach make absent (i + 1) rest
        some (built.map fun (items, valid) => (item :: items, i :: valid))

def buildAcs (libs : PatternLibs Ac Re) : List (List Bytes) →
    Option (Except Bytes (List (Option Ac) × List Nat)) :=
  buildEach (fun toBuild => some (((libs.newMatcher toBuild).mapError ascii).map some)) none 0

def buildTries (get : Reader) : List (List Bytes) →
    Option (Except Bytes (List (Option Trie) × List Nat)) :=
  buildEach (fun toBuild => (newTrie get (toBuild.map toSuffixTrieString) validDomainChars).map
    (·.mapError ascii)) none 0

def build (get : Reader) (libs : PatternLibs Ac Re) (n : AhocorasickSlimtrie Ac Re) :
    Option (Except Bytes (AhocorasickSlimtrie Ac Re)) :=
  match n.err with
  | some e => some (.error e)
  | none => do
      match ← buildAcs libs n.toBuildAc with
      | .error e => some (.error e)
      | .ok (ac, validAcIndexes) =>
        let built ← buildTries get n.toBuildTrie
        some (built.map fun (trie, validTrieIndexes) =>
          { n with
            ac, validAcIndexes, trie, validTrieIndexes
            validRegexpIndexes :=
              (List.range n.regexp.length).filter fun i => n.regexp.getD i [] ≠ []
            toBuildAc := [], toBuildTrie := [] })

/-- `bitmap[i/32] |= 1 << (i % 32)`. -/
def setIndex (bitmap : List (BitVec 32)) (i : Nat) : List (BitVec 32) :=
  bitmap.modify (i / 32) (· ||| (1#32 <<< (i % 32)))

/-- The loops of `MatchDomainBitmap`: an index that is matched already is not tried again. -/
def matchLoop (hit : Nat → Option Bool) : List Nat → List (BitVec 32) → Option (List (BitVec 32))
  | [], bitmap => some bitmap
  | i :: indexes, bitmap =>
    if bit bitmap i then matchLoop hit indexes bitmap
    else do
      if ← hit i then matchLoop hit indexes (setIndex bitmap i) else matchLoop hit indexes bitmap

def matchDomainBitmap (get : Reader) (libs : PatternLibs Ac Re) (n : AhocorasickSlimtrie Ac Re)
    (domain : Bytes) : Option (List (BitVec 32)) := do
  let N := n.ac.length / 32 + if n.ac.length % 32 ≠ 0 then 1 else 0
  let domain := libs.toLower (trimSuffix domain 46)
  let suffixTrieDomain := toSuffixTrieString (94 :: domain)
  let bitmap ← matchLoop (fun i => do
    let ss ← n.trie[i]?
    Trie.hasPrefix get ss suffixTrieDomain) n.validTrieIndexes (List.replicate N 0)
  let acDomain := 94 :: (domain ++ [36])
  let bitmap ← matchLoop (fun i => do
    let ac ← n.ac[i]?
    let ac ← ac
    some (libs.contains ac acDomain)) n.validAcIndexes bitmap
  matchLoop (fun i => do
    let regexps ← n.regexp[i]?
    some (regexps.any (libs.matchString · domain))) n.validRegexpIndexes bitmap

end AhocorasickSlimtrie

/-! ### Adding sets -/

/-- One call of `AddSet`. -/
structure PatternSet where
  bitIndex : Nat
  patterns : List Bytes
  typ : RoutingDomainKey

/-- The keys of a pattern, before they are reversed. -/
def trieKeys (typ : RoutingDomainKey) (d : Bytes) : List Bytes :=
  match typ with
  | .full => if validPattern d then [94 :: (d ++ [36])] else []
  | .suffix =>
    if validPattern d then
      if d.head? = some 46 then [d ++ [36]] else [46 :: (d ++ [36]), 94 :: (d ++ [36])]
    else []
  | _ => []

def acKeys (typ : RoutingDomainKey) (d : Bytes) : List Bytes :=
  match typ with
  | .keyword => [d]
  | _ => []

def regexps (libs : PatternLibs Ac Re) (typ : RoutingDomainKey) (d : Bytes) : List Re :=
  match typ with
  | .regex => (libs.compile d).toList
  | _ => []

namespace AhocorasickSlimtrie

/-- The tables grew by these values at one index. -/
structure Added (n n' : AhocorasickSlimtrie Ac Re) (i : Nat) (keys acs : List Bytes) (res : List Re) :
    Prop where
  trie : ∀ k, n'.toBuildTrie.getD k [] = n.toBuildTrie.getD k [] ++ if k = i then keys else []
  ac : ∀ k, n'.toBuildAc.getD k [] = n.toBuildAc.getD k [] ++ if k = i then acs else []
  regexp : ∀ k, n'.regexp.getD k [] = n.regexp.getD k [] ++ if k = i then res else []
  trieLength : n'.toBuildTrie.length = n.toBuildTrie.length
  acLength : n'.toBuildAc.length = n.toBuildAc.length
  regexpLength : n'.regexp.length = n.regexp.length

theorem Added.refl (n : AhocorasickSlimtrie Ac Re) (i : Nat) : Added n n i [] [] [] :=
  ⟨by simp, by simp, by simp, rfl, rfl, rfl⟩

variable {n : AhocorasickSlimtrie Ac Re} {i : Nat}

theorem Added.trans {n₁ n₂ : AhocorasickSlimtrie Ac Re} {keys keys' acs acs' : List Bytes}
    {res res' : List Re} (h : Added n n₁ i keys acs res) (h' : Added n₁ n₂ i keys' acs' res') :
    Added n n₂ i (keys ++ keys') (acs ++ acs') (res ++ res') where
  trie k := by rw [h'.trie, h.trie]; split <;> simp
  ac k := by rw [h'.ac, h.ac]; split <;> simp
  regexp k := by rw [h'.regexp, h.regexp]; split <;> simp
  trieLength := h'.trieLength.trans h.trieLength
  acLength := h'.acLength.trans h.acLength
  regexpLength := h'.regexpLength.trans h.regexpLength

theorem appendAt_spec {α : Type} {table table' : List (List α)} {values : List α}
    (h : appendAt table i values = some table') : table'.length = table.length ∧
      ∀ k, table'.getD k [] = table.getD k [] ++ if k = i then values else [] := by
  unfold appendAt at h
  split at h
  · rename_i hi
    cases h
    refine ⟨List.length_modify .., ?_⟩
    intro k
    rw [List.getD_eq_getElem?_getD, List.getD_eq_getElem?_getD, List.getElem?_modify]
    by_cases hk : k = i
    · subst hk
      simp [List.getElem?_eq_getElem hi]
    · simp [hk, Ne.symm hk]
  · cases h

variable {libs : PatternLibs Ac Re} {n' : AhocorasickSlimtrie Ac Re}

theorem addPatterns_spec {typ : RoutingDomainKey} {patterns : List Bytes}
    (h : addPatterns libs i typ patterns n = some n') (herr : n'.err = none) :
    Added n n' i (patterns.flatMap (trieKeys typ)) (patterns.flatMap (acKeys typ))
      (patterns.flatMap (regexps libs typ)) := by
  induction patterns generalizing n with
  | nil =>
    obtain rfl : n = n' := Option.some.inj h
    exact .refl n i
  | cons d patterns ih =>
    -- one pattern, and then the rest
    have hstep : ∀ n₁, addPatterns libs i typ patterns n₁ = some n' →
        Added n n₁ i (trieKeys typ d) (acKeys typ d) (regexps libs typ d) →
        Added n n' i ((d :: patterns).flatMap (trieKeys typ)) ((d :: patterns).flatMap (acKeys typ))
          ((d :: patterns).flatMap (regexps libs typ)) := by
      intro n₁ hrest hadd
      exact hadd.trans (ih hrest)
    cases typ with
    | full | suffix =>
      rw [addPatterns] at h
      by_cases hvalid : validPattern d = true
      · rw [if_pos hvalid] at h
        obtain ⟨table, htable, hrest⟩ := Option.bind_eq_some_iff.mp h
        obtain ⟨hlength, hget⟩ := appendAt_spec htable
        refine hstep _ hrest ⟨?_, by simp [acKeys], by simp [regexps], hlength, rfl, rfl⟩
        rw [trieKeys, if_pos hvalid]
        exact hget
      · rw [if_neg hvalid] at h
        refine hstep n h ?_
        rw [trieKeys, if_neg hvalid]
        exact .refl n i
    | keyword =>
      obtain ⟨table, htable, hrest⟩ := Option.bind_eq_some_iff.mp h
      obtain ⟨hlength, hget⟩ := appendAt_spec htable
      exact hstep _ hrest ⟨by simp [trieKeys], hget, by simp [regexps], rfl, hlength, rfl⟩
    | regex =>
      rw [addPatterns] at h
      cases hcompile : libs.compile d with
      | none =>
        rw [hcompile] at h
        cases h
        cases herr
      | some r =>
        rw [hcompile] at h
        obtain ⟨table, htable, hrest⟩ := Option.bind_eq_some_iff.mp h
        obtain ⟨hlength, hget⟩ := appendAt_spec htable
        refine hstep _ hrest ⟨by simp [trieKeys], by simp [acKeys], ?_, rfl, rfl, hlength⟩
        rw [regexps, hcompile]
        exact hget
    | other name =>
      cases h
      cases herr

def addSets (libs : PatternLibs Ac Re) (sets : List PatternSet) (n : AhocorasickSlimtrie Ac Re) :
    Option (AhocorasickSlimtrie Ac Re) :=
  sets.foldlM (fun n set => n.addSet libs set.bitIndex set.patterns set.typ) n

theorem addSet_err {patterns : List Bytes} {typ : RoutingDomainKey}
    (h : n.addSet libs i patterns typ = some n') (herr : n'.err = none) : n.err = none := by
  unfold addSet at h
  split at h
  · cases h
    exact herr
  · rename_i hnone
    exact not_not.mp hnone

theorem addSets_err {sets : List PatternSet}
    (h : n.addSets libs sets = some n') (herr : n'.err = none) :
    n.err = none := by
  induction sets generalizing n with
  | nil =>
    cases h
    exact herr
  | cons set sets ih =>
    rw [addSets, List.foldlM_cons] at h
    obtain ⟨n₁, hn₁, hrest⟩ := Option.bind_eq_some_iff.mp h
    exact addSet_err hn₁ (ih hrest)

/-- What the sets of one index add up to. -/
def collect {α : Type} (sets : List PatternSet) (f : RoutingDomainKey → Bytes → List α) (k : Nat) :
    List α :=
  sets.flatMap fun set => if k = set.bitIndex then set.patterns.flatMap (f set.typ) else []

/-- **After all sets** the tables hold what the sets of each index add up to. -/
theorem addSets_spec {sets : List PatternSet}
    (h : n.addSets libs sets = some n') (herr : n'.err = none) :
    (∀ k, n'.toBuildTrie.getD k [] = n.toBuildTrie.getD k [] ++ collect sets trieKeys k) ∧
      (∀ k, n'.toBuildAc.getD k [] = n.toBuildAc.getD k [] ++ collect sets acKeys k) ∧
      (∀ k, n'.regexp.getD k [] = n.regexp.getD k [] ++ collect sets (regexps libs) k) ∧
      n'.toBuildTrie.length = n.toBuildTrie.length ∧ n'.toBuildAc.length = n.toBuildAc.length ∧
      n'.regexp.length = n.regexp.length := by
  induction sets generalizing n with
  | nil =>
    cases h
    simp [collect]
  | cons set sets ih =>
    rw [addSets, List.foldlM_cons] at h
    obtain ⟨n₁, hn₁, hrest⟩ := Option.bind_eq_some_iff.mp h
    have hnone := addSets_err hrest herr
    have hadd := hn₁
    rw [addSet, if_neg (not_not.mpr (addSet_err hn₁ hnone))] at hadd
    have hfirst := addPatterns_spec hadd hnone
    obtain ⟨htrie, hac, hregexp, htl, hal, hrl⟩ := ih hrest
    refine ⟨?_, ?_, ?_, htl.trans hfirst.trieLength, hal.trans hfirst.acLength,
      hrl.trans hfirst.regexpLength⟩
    · intro k
      rw [htrie, hfirst.trie, List.append_assoc]
      rfl
    · intro k
      rw [hac, hfirst.ac, List.append_assoc]
      rfl
    · intro k
      rw [hregexp, hfirst.regexp, List.append_assoc]
      rfl

/-! ### Building -/

theorem buildEach_spec {β : Type} {make : List Bytes → Option (Except Bytes β)} {absent : β}
    {toBuilds : List (List Bytes)} {items : List β} {valid : List Nat}
    (h : buildEach make absent i toBuilds = some (.ok (items, valid))) :
    items.length = toBuilds.length ∧ (∀ k, k ∈ valid ↔ i ≤ k ∧ toBuilds.getD (k - i) [] ≠ []) ∧
      ∀ j, toBuilds.getD j [] ≠ [] → ∃ item, make (toBuilds.getD j []) = some (.ok item) ∧
        items[j]? = some item := by
  induction toBuilds generalizing i items valid with
  | nil =>
    cases h
    simp
  | cons toBuild rest ih =>
    -- the indexes of the rest are one further
    have hvalid : ∀ valid' : List Nat,
        (∀ k, k ∈ valid' ↔ i + 1 ≤ k ∧ rest.getD (k - (i + 1)) [] ≠ []) →
        ∀ k, k ∈ valid' ↔ i < k ∧ (toBuild :: rest).getD (k - i) [] ≠ [] := by
      intro valid' hrest k
      rw [hrest]
      refine and_congr_right fun hk => ?_
      rw [show k - i = k - (i + 1) + 1 by omega, List.getD_cons_succ]
    rw [buildEach] at h
    by_cases hnil : toBuild = []
    · rw [if_pos hnil] at h
      obtain ⟨built, hrest, hsome⟩ := Option.bind_eq_some_iff.mp h
      obtain ⟨⟨items', valid'⟩, rfl, hok⟩ := Except.map_eq_ok (Option.some.inj hsome)
      cases hok
      obtain ⟨hlength, hmem, hbuilt⟩ := ih hrest
      refine ⟨by rw [List.length_cons, List.length_cons, hlength], ?_, ?_⟩
      · intro k
        rw [hvalid valid hmem k]
        constructor
        · exact fun ⟨hlt, hne⟩ => ⟨hlt.le, hne⟩
        · rintro ⟨hle, hne⟩
          refine ⟨Nat.lt_of_le_of_ne hle ?_, hne⟩
          rintro rfl
          rw [Nat.sub_self, List.getD_cons_zero] at hne
          exact hne hnil
      · intro j hj
        cases j with
        | zero => exact absurd hnil hj
        | succ j => exact hbuilt j hj
    · rw [if_neg hnil] at h
      obtain ⟨made, hmade, h⟩ := Option.bind_eq_some_iff.mp h
      cases made with
      | error e => cases h
      | ok item =>
        obtain ⟨built, hrest, hsome⟩ := Option.bind_eq_some_iff.mp h
        obtain ⟨⟨items', valid'⟩, rfl, hok⟩ := Except.map_eq_ok (Option.some.inj hsome)
        cases hok
        obtain ⟨hlength, hmem, hbuilt⟩ := ih hrest
        refine ⟨by rw [List.length_cons, List.length_cons, hlength], ?_, ?_⟩
        · intro k
          rw [List.mem_cons, hvalid valid' hmem k]
          constructor
          · rintro (rfl | ⟨hlt, hne⟩)
            · exact ⟨le_rfl, by rw [Nat.sub_self]; exact hnil⟩
            · exact ⟨hlt.le, hne⟩
          · rintro ⟨hle, hne⟩
            rcases Nat.eq_or_lt_of_le hle with rfl | hlt
            · exact .inl rfl
            · exact .inr ⟨hlt, hne⟩
        · intro j hj
          cases j with
          | zero => exact ⟨item, hmade, rfl⟩
          | succ j => exact hbuilt j hj

/-! ### Matching -/

theorem length_setIndex (bitmap : List (BitVec 32)) (i : Nat) :
    (setIndex bitmap i).length = bitmap.length := List.length_modify ..

theorem bit_setIndex {bitmap : List (BitVec 32)} (hi : i < 32 * bitmap.length) (k : Nat) :
    bit (setIndex bitmap i) k = (bit bitmap k || decide (k = i)) := by
  have hk : k % 32 < 32 := Nat.mod_lt k (by omega)
  rw [bit, bit, List.getD_eq_getElem?_getD, List.getD_eq_getElem?_getD, setIndex, List.getElem?_modify]
  by_cases hword : i / 32 = k / 32
  · have hroom : k / 32 < bitmap.length := by omega
    rw [List.getElem?_eq_getElem hroom]
    simp only [hword, if_true, Option.map_eq_map, Option.map_some, Option.getD_some, BitVec.getLsbD_or,
      BitVec.getLsbD_shiftLeft, BitVec.getLsbD_one, hk, decide_true, Bool.true_and]
    congr 1
    rw [Bool.eq_iff_iff]
    simp
    omega
  · have hki : ¬ k = i := by
      rintro rfl
      exact hword rfl
    simp [hword, hki]

theorem bit_zeros (N k : Nat) : bit (List.replicate N (0 : BitVec 32)) k = false := by
  rw [bit, List.getD_eq_getElem?_getD, List.getElem?_replicate]
  split <;> exact BitVec.getLsbD_zero

/-- **One loop of `MatchDomainBitmap`** sets the bits of the indexes that are hit. -/
theorem matchLoop_spec {hit : Nat → Option Bool} {answer : Nat → Bool} {indexes : List Nat}
    (bitmap : List (BitVec 32)) (hhit : ∀ i ∈ indexes, hit i = some (answer i))
    (hroom : ∀ i ∈ indexes, i < 32 * bitmap.length) :
    ∃ bitmap', matchLoop hit indexes bitmap = some bitmap' ∧ bitmap'.length = bitmap.length ∧
      ∀ k, bit bitmap' k = (bit bitmap k || (decide (k ∈ indexes) && answer k)) := by
  induction indexes generalizing bitmap with
  | nil => exact ⟨bitmap, rfl, rfl, by simp⟩
  | cons i indexes ih =>
    have hrest := fun k hk => hhit k (List.mem_cons_of_mem i hk)
    have hroomRest := fun k hk => hroom k (List.mem_cons_of_mem i hk)
    rw [matchLoop]
    by_cases hset : bit bitmap i = true
    · obtain ⟨bitmap', hloop, hlength, hbits⟩ := ih bitmap hrest hroomRest
      refine ⟨bitmap', by rw [if_pos hset]; exact hloop, hlength, ?_⟩
      intro k
      rw [hbits]
      by_cases hk : k = i
      · subst hk
        simp [hset]
      · simp [hk]
    · rw [if_neg hset, hhit i List.mem_cons_self]
      cases hanswer : answer i with
      | true =>
        have hroomSet : ∀ k ∈ indexes, k < 32 * (setIndex bitmap i).length := by
          rw [length_setIndex]
          exact hroomRest
        obtain ⟨bitmap', hloop, hlength, hbits⟩ := ih (setIndex bitmap i) hrest hroomSet
        refine ⟨bitmap', hloop, by rw [hlength, length_setIndex], ?_⟩
        intro k
        rw [hbits, bit_setIndex (hroom i List.mem_cons_self)]
        by_cases hk : k = i
        · subst hk
          simp [hanswer]
        · simp [hk]
      | false =>
        obtain ⟨bitmap', hloop, hlength, hbits⟩ := ih bitmap hrest hroomRest
        refine ⟨bitmap', hloop, hlength, ?_⟩
        intro k
        rw [hbits]
        by_cases hk : k = i
        · subst hk
          simp [hanswer]
        · simp [hk]

end AhocorasickSlimtrie

/-! ### What the patterns mean -/

/-- The domain as it is matched: in lower case, without one trailing dot. -/
def PatternLibs.normalize (libs : PatternLibs Ac Re) (domain : Bytes) : Bytes :=
  libs.toLower (trimSuffix domain 46)

/-- A pattern matches a normalized domain. -/
def PatternLibs.Matches (libs : PatternLibs Ac Re) (typ : RoutingDomainKey) (d domain : Bytes) : Prop :=
  match typ with
  | .full => validPattern d = true ∧ domain = d
  | .suffix => validPattern d = true ∧
      if d.head? = some 46 then d <:+ domain else domain = d ∨ (46 :: d) <:+ domain
  | .keyword => d <:+: 94 :: (domain ++ [36])
  | .regex => ∃ r, libs.compile d = some r ∧ libs.matchString r domain = true
  | .other _ => False

theorem toSuffixTrieString_dollar (s : Bytes) : toSuffixTrieString (s ++ [36]) = s.reverse := by
  rw [toSuffixTrieString, trimSuffix, List.getLast?_concat, if_pos rfl, List.dropLast_concat]

theorem toSuffixTrieString_plain {s : Bytes} (h : 36 ∉ s) : toSuffixTrieString s = s.reverse := by
  rw [toSuffixTrieString, trimSuffix, if_neg]
  intro hlast
  exact h (List.mem_of_getLast? hlast)

variable {d domain : Bytes}

/-- `^` occurs at the start only. -/
theorem caret_suffix_iff (h : 94 ∉ domain) :
    94 :: d <:+ 94 :: domain ↔ domain = d := by
  rw [List.suffix_cons_iff]
  constructor
  · rintro (heq | hsuffix)
    · exact (List.cons.inj heq).2.symm
    · exact absurd (hsuffix.subset List.mem_cons_self) h
  · rintro rfl
    exact .inl rfl

theorem dot_suffix_iff : 46 :: d <:+ 94 :: domain ↔ 46 :: d <:+ domain := by
  rw [List.suffix_cons_iff]
  constructor
  · rintro (heq | hsuffix)
    · exact absurd (List.cons.inj heq).1 (by decide)
    · exact hsuffix
  · exact .inr

/-- A key of the pattern is a prefix of the reversed domain exactly when the pattern, a full
or a suffix one, matches. -/
theorem trieKeys_iff (libs : PatternLibs Ac Re) (h : 94 ∉ domain)
    (typ : RoutingDomainKey) (d : Bytes) :
    (∃ key ∈ trieKeys typ d, toSuffixTrieString key <+: (94 :: domain).reverse) ↔
      (typ = .full ∨ typ = .suffix) ∧ libs.Matches typ d domain := by
  cases typ with
  | full =>
    by_cases hvalid : validPattern d = true
    · rw [trieKeys, if_pos hvalid]
      simp only [List.mem_singleton, exists_eq_left, PatternLibs.Matches, hvalid, true_and, true_or]
      rw [← List.cons_append, toSuffixTrieString_dollar, List.reverse_prefix, caret_suffix_iff h]
    · rw [trieKeys, if_neg hvalid]
      simp [PatternLibs.Matches, hvalid]
  | suffix =>
    by_cases hvalid : validPattern d = true
    · rw [trieKeys, if_pos hvalid]
      by_cases hdot : d.head? = some 46
      · obtain ⟨t, rfl⟩ := List.head?_eq_some_iff.mp hdot
        rw [if_pos hdot]
        simp only [List.mem_singleton, exists_eq_left, PatternLibs.Matches, hvalid, true_and, or_true,
          hdot, if_true]
        rw [toSuffixTrieString_dollar, List.reverse_prefix, dot_suffix_iff]
      · rw [if_neg hdot]
        simp only [List.mem_cons, List.not_mem_nil, or_false, exists_eq_or_imp, exists_eq_left,
          PatternLibs.Matches, hvalid, true_and, or_true, hdot, if_false]
        rw [← List.cons_append, ← List.cons_append, toSuffixTrieString_dollar,
          toSuffixTrieString_dollar, List.reverse_prefix, List.reverse_prefix, dot_suffix_iff,
          caret_suffix_iff h, or_comm]
    · rw [trieKeys, if_neg hvalid]
      simp [PatternLibs.Matches, hvalid]
  | _ => simp [trieKeys]

theorem validDomainChars_letters : validDomainChars.letters.length ≤ 256 := by decide

/-- The keys of valid patterns are over the alphabet. -/
theorem trieKeys_letters {typ : RoutingDomainKey} {key : Bytes} (h : key ∈ trieKeys typ d) :
    ∀ c ∈ toSuffixTrieString key, c ∈ validDomainChars.letters := by
  have hpattern : validPattern d = true → ∀ c ∈ d, c ∈ validDomainChars.letters := by
    intro hvalid c hc
    exact ((alphabet_spec validDomainChars_letters).valid_iff (by decide) c).mp
      (List.all_eq_true.mp hvalid c hc)
  have hcons : ∀ x ∈ validDomainChars.letters, validPattern d = true →
      ∀ c ∈ toSuffixTrieString (x :: (d ++ [36])), c ∈ validDomainChars.letters := by
    intro x hx hvalid c hc
    rw [← List.cons_append, toSuffixTrieString_dollar, List.mem_reverse] at hc
    rcases List.mem_cons.mp hc with rfl | hc
    · exact hx
    · exact hpattern hvalid c hc
  cases typ with
  | full =>
    rw [trieKeys] at h
    split at h
    · cases List.mem_singleton.mp h
      exact hcons 94 (by decide) ‹_›
    · cases h
  | suffix =>
    rw [trieKeys] at h
    split at h
    · split at h
      · cases List.mem_singleton.mp h
        intro c hc
        rw [toSuffixTrieString_dollar, List.mem_reverse] at hc
        exact hpattern ‹_› c hc
      · rcases List.mem_pair.mp h with rfl | rfl
        · exact hcons 46 (by decide) ‹_›
        · exact hcons 94 (by decide) ‹_›
    · cases h
  | _ => cases h

namespace AhocorasickSlimtrie

theorem mem_collect {α : Type} {sets : List PatternSet} {f : RoutingDomainKey → Bytes → List α} {k : Nat}
    {a : α} : a ∈ collect sets f k ↔
      ∃ set ∈ sets, set.bitIndex = k ∧ ∃ d ∈ set.patterns, a ∈ f set.typ d := by
  simp only [collect, List.mem_flatMap]
  constructor
  · rintro ⟨set, hset, ha⟩
    split at ha
    · exact ⟨set, hset, Eq.symm ‹_›, List.mem_flatMap.mp ha⟩
    · cases ha
  · rintro ⟨set, hset, rfl, hd⟩
    exact ⟨set, hset, by rw [if_pos rfl]; exact List.mem_flatMap.mpr hd⟩

theorem getD_replicate_nil {α : Type} (n k : Nat) :
    (List.replicate n ([] : List α)).getD k [] = [] := by
  rw [List.getD_eq_getElem?_getD, List.getElem?_replicate]
  split <;> rfl

/-- What `Build` has made of the sets. -/
structure Built (get : Reader) (libs : PatternLibs Ac Re) (bitLength : Nat) (sets : List PatternSet)
    (n : AhocorasickSlimtrie Ac Re) : Prop where
  length : n.ac.length = bitLength
  small : ∀ k, k ∈ n.validTrieIndexes ∨ k ∈ n.validAcIndexes ∨ k ∈ n.validRegexpIndexes → k < bitLength
  trieIndexes : ∀ k, k ∈ n.validTrieIndexes ↔ collect sets trieKeys k ≠ []
  trie : ∀ k ∈ n.validTrieIndexes, ∃ ss, n.trie[k]? = some ss ∧
    newTrie get ((collect sets trieKeys k).map toSuffixTrieString) validDomainChars = some (.ok ss)
  acIndexes : ∀ k, k ∈ n.validAcIndexes ↔ collect sets acKeys k ≠ []
  ac : ∀ k ∈ n.validAcIndexes, ∃ ac, n.ac[k]? = some (some ac) ∧
    libs.newMatcher (collect sets acKeys k) = .ok ac
  regexpIndexes : ∀ k, k ∈ n.validRegexpIndexes ↔ collect sets (regexps libs) k ≠ []
  regexp : ∀ k ∈ n.validRegexpIndexes, n.regexp[k]? = some (collect sets (regexps libs) k)

theorem build_spec {get : Reader} {libs : PatternLibs Ac Re} {bitLength : Nat} {sets : List PatternSet}
    {m n : AhocorasickSlimtrie Ac Re}
    (hadd : (newAhocorasickSlimtrie bitLength).addSets libs sets = some m)
    (hbuild : m.build get libs = some (.ok n)) : Built get libs bitLength sets n := by
  have herr : m.err = none := by
    rw [build] at hbuild
    cases herr : m.err with
    | none => rfl
    | some e => rw [herr] at hbuild; cases hbuild
  obtain ⟨htrie, hac, hregexp, htl, hal, hrl⟩ := addSets_spec hadd herr
  simp only [newAhocorasickSlimtrie, getD_replicate_nil, List.nil_append, List.length_replicate] at *
  rw [build, herr] at hbuild
  obtain ⟨builtAc, hbuiltAc, hbuild⟩ := Option.bind_eq_some_iff.mp hbuild
  cases builtAc with
  | error e => cases hbuild
  | ok acs =>
    obtain ⟨built, hbuiltTrie, hsome⟩ := Option.bind_eq_some_iff.mp hbuild
    obtain ⟨tries, rfl, rfl⟩ := Except.map_eq_ok (Option.some.inj hsome)
    obtain ⟨hacLength, hacMem, hacs⟩ := buildEach_spec hbuiltAc
    obtain ⟨htrieLength, htrieMem, htries⟩ := buildEach_spec hbuiltTrie
    simp only [Nat.zero_le, true_and, Nat.sub_zero, htrie, hac] at hacMem hacs htrieMem htries
    have hsmall : ∀ {α : Type} {table : List (List α)} {k : Nat}, table.getD k [] ≠ [] →
        k < table.length := by
      intro α table k hne
      by_contra hlt
      rw [List.getD_eq_getElem?_getD, List.getElem?_eq_none (by omega)] at hne
      exact hne rfl
    have hregexpMem : ∀ k, k ∈ (List.range m.regexp.length).filter
        (fun i => m.regexp.getD i [] ≠ []) ↔ collect sets (regexps libs) k ≠ [] := by
      intro k
      rw [List.mem_filter, List.mem_range, decide_eq_true_iff, hregexp]
      constructor
      · exact fun h => h.2
      · intro h
        exact ⟨hsmall (by rw [hregexp]; exact h), h⟩
    refine ⟨by rw [hacLength, hal], ?_, htrieMem, ?_, hacMem, ?_, hregexpMem, ?_⟩
    · rintro k (hk | hk | hk)
      · rw [← htl]
        exact hsmall (by rw [htrie]; exact (htrieMem k).mp hk)
      · rw [← hal]
        exact hsmall (by rw [hac]; exact (hacMem k).mp hk)
      · rw [← hrl]
        exact hsmall (by rw [hregexp]; exact (hregexpMem k).mp hk)
    · intro k hk
      obtain ⟨ss, hmake, hitem⟩ := htries k ((htrieMem k).mp hk)
      obtain ⟨result, hresult, hok⟩ := Option.map_eq_some_iff.mp hmake
      exact ⟨ss, hitem, by rw [hresult, Except.mapError_eq_ok hok]⟩
    · intro k hk
      obtain ⟨item, hmake, hitem⟩ := hacs k ((hacMem k).mp hk)
      obtain ⟨ac, hok, rfl⟩ := Except.map_eq_ok (Option.some.inj hmake)
      exact ⟨ac, hitem, Except.mapError_eq_ok hok⟩
    · intro k hk
      have hne := (hregexpMem k).mp hk
      have hlt : k < m.regexp.length := hsmall (by rw [hregexp]; exact hne)
      have heq := hregexp k
      rw [List.getD_eq_getElem?_getD, List.getElem?_eq_getElem hlt] at heq
      show m.regexp[k]? = _
      rw [List.getElem?_eq_getElem hlt, ← heq]
      rfl

section Hits

variable {get : Reader} {libs : PatternLibs Ac Re} {bitLength : Nat} {sets : List PatternSet}
  {n : AhocorasickSlimtrie Ac Re} {name : Bytes}

/-- The trie of an index finds the keys that end the domain. -/
theorem Built.trie_hit (h : Built get libs bitLength sets n) (hget : get.Sound)
    (hfew : ∀ k, (prefixes ((collect sets trieKeys k).map toSuffixTrieString)).card ≤ 2 ^ 30)
    (word : Bytes) : ∀ k ∈ n.validTrieIndexes, (do
      let ss ← n.trie[k]?
      Trie.hasPrefix get ss word) =
        some (decide (∃ key ∈ (collect sets trieKeys k).map toSuffixTrieString, key <+: word)) := by
  intro k hk
  obtain ⟨ss, hss, hnew⟩ := h.trie k hk
  have hne : (collect sets trieKeys k).map toSuffixTrieString ≠ [] := by
    simpa using (h.trieIndexes k).mp hk
  have hover : ∀ key ∈ (collect sets trieKeys k).map toSuffixTrieString, ∀ c ∈ key,
      c ∈ validDomainChars.letters := by
    intro key hkey
    obtain ⟨raw, hraw, rfl⟩ := List.mem_map.mp hkey
    obtain ⟨set, -, -, d, -, hd⟩ := mem_collect.mp hraw
    exact trieKeys_letters hd
  obtain ⟨ss', nodes, hnew', hencodes, -, hnodes, -⟩ :=
    newTrie_spec hget hne validDomainChars_letters hover (hfew k)
  rw [hnew] at hnew'
  cases hnew'
  rw [hss]
  exact hasPrefix_encodes hget hencodes hnodes word

/-- The matcher of an index finds the keywords of the text. -/
theorem Built.ac_hit (h : Built get libs bitLength sets n) (hlibs : libs.Lawful) (text : Bytes) :
    ∀ k ∈ n.validAcIndexes, (do
      let ac ← n.ac[k]?
      let ac ← ac
      some (libs.contains ac text)) =
        some (decide (∃ d ∈ collect sets acKeys k, d <:+: text)) := by
  intro k hk
  obtain ⟨ac, hac, hnew⟩ := h.ac k hk
  rw [hac]
  show some (libs.contains ac text) = _
  congr 1
  rw [Bool.eq_iff_iff, decide_eq_true_iff]
  exact hlibs.contains _ ac text hnew

theorem Built.regexp_hit (h : Built get libs bitLength sets n) (text : Bytes) :
    ∀ k ∈ n.validRegexpIndexes, (do
      let regexps ← n.regexp[k]?
      some (regexps.any (libs.matchString · text))) =
        some ((collect sets (regexps libs) k).any (libs.matchString · text)) := by
  intro k hk
  rw [h.regexp k hk]
  rfl

/-- The three loops together set the bits of the patterns that match. -/
theorem matches_iff (hcaret : 94 ∉ name) (k : Nat) :
    ((∃ key ∈ (collect sets trieKeys k).map toSuffixTrieString, key <+: (94 :: name).reverse) ∨
      (∃ d ∈ collect sets acKeys k, d <:+: 94 :: (name ++ [36])) ∨
      ∃ r ∈ collect sets (regexps libs) k, libs.matchString r name = true) ↔
    ∃ set ∈ sets, set.bitIndex = k ∧ ∃ d ∈ set.patterns, libs.Matches set.typ d name := by
  constructor
  · rintro (⟨key, hkey, hpre⟩ | ⟨d, hd, hin⟩ | ⟨r, hr, hmatch⟩)
    · obtain ⟨raw, hraw, rfl⟩ := List.mem_map.mp hkey
      obtain ⟨set, hset, hk, d, hd, hkeyd⟩ := mem_collect.mp hraw
      exact ⟨set, hset, hk, d, hd, ((trieKeys_iff libs hcaret set.typ d).mp ⟨raw, hkeyd, hpre⟩).2⟩
    · obtain ⟨set, hset, hk, d', hd', hacd⟩ := mem_collect.mp hd
      refine ⟨set, hset, hk, d', hd', ?_⟩
      cases htyp : set.typ with
      | keyword =>
        rw [htyp] at hacd
        cases List.mem_singleton.mp hacd
        exact hin
      | _ =>
        rw [htyp] at hacd
        cases hacd
    · obtain ⟨set, hset, hk, d, hd, hrd⟩ := mem_collect.mp hr
      refine ⟨set, hset, hk, d, hd, ?_⟩
      cases htyp : set.typ with
      | regex =>
        rw [htyp] at hrd
        exact ⟨r, Option.mem_toList.mp hrd, hmatch⟩
      | _ =>
        rw [htyp] at hrd
        cases hrd
  · rintro ⟨set, hset, hk, d, hd, hmatch⟩
    have htrie : set.typ = .full ∨ set.typ = .suffix →
        ∃ key ∈ (collect sets trieKeys k).map toSuffixTrieString, key <+: (94 :: name).reverse := by
      intro htyp
      obtain ⟨raw, hraw, hpre⟩ := (trieKeys_iff libs hcaret set.typ d).mpr ⟨htyp, hmatch⟩
      exact ⟨_, List.mem_map_of_mem (mem_collect.mpr ⟨set, hset, hk, d, hd, hraw⟩), hpre⟩
    cases htyp : set.typ with
    | full => exact .inl (htrie (.inl htyp))
    | suffix => exact .inl (htrie (.inr htyp))
    | keyword =>
      rw [htyp] at hmatch
      refine .inr (.inl ⟨d, mem_collect.mpr ⟨set, hset, hk, d, hd, ?_⟩, hmatch⟩)
      rw [htyp]
      exact List.mem_singleton_self d
    | regex =>
      rw [htyp] at hmatch
      obtain ⟨r, hr, hmatch⟩ := hmatch
      refine .inr (.inr ⟨r, mem_collect.mpr ⟨set, hset, hk, d, hd, ?_⟩, hmatch⟩)
      rw [htyp]
      exact Option.mem_toList.mpr hr
    | other name =>
      rw [htyp] at hmatch
      cases hmatch

end Hits

/-- **A bit is set exactly when a pattern matches.**  For sets accepted by `Build` whose
trie keys have at most `2 ^ 30` prefixes at every index, and a domain without `^` and `$`,
bit `k` is set exactly when a pattern of a set of index `k` matches the normalized domain. -/
theorem matchDomainBitmap_spec {get : Reader} (hget : get.Known) {libs : PatternLibs Ac Re}
    (hlibs : libs.Lawful) {bitLength : Nat} {sets : List PatternSet} {m n : AhocorasickSlimtrie Ac Re}
    (hadd : (newAhocorasickSlimtrie bitLength).addSets libs sets = some m)
    (hbuild : m.build get libs = some (.ok n))
    (hfew : ∀ k, (prefixes ((collect sets trieKeys k).map toSuffixTrieString)).card ≤ 2 ^ 30)
    {domain : Bytes} (hcaret : 94 ∉ domain) (hdollar : 36 ∉ domain) :
    ∃ bitmap, n.matchDomainBitmap get libs domain = some bitmap ∧
      ∀ k, bit bitmap k = true ↔ ∃ set ∈ sets, set.bitIndex = k ∧ ∃ d ∈ set.patterns,
        libs.Matches set.typ d (libs.normalize domain) := by
  have hbuilt := build_spec hadd hbuild
  have htrim : ∀ c, c ∈ trimSuffix domain 46 → c ∈ domain := by
    intro c hc
    rw [trimSuffix] at hc
    split at hc
    · exact List.mem_of_mem_dropLast hc
    · exact hc
  obtain ⟨hcaret', hdollar'⟩ := hlibs.lower (trimSuffix domain 46) (fun h => hcaret (htrim _ h))
    (fun h => hdollar (htrim _ h))
  change 94 ∉ libs.normalize domain at hcaret'
  have hsuffix : toSuffixTrieString (94 :: libs.normalize domain) =
      (94 :: libs.normalize domain).reverse := by
    refine toSuffixTrieString_plain fun h => ?_
    rcases List.mem_cons.mp h with h | h
    · exact absurd h (by decide)
    · exact hdollar' h
  have hroom : ∀ k, k ∈ n.validTrieIndexes ∨ k ∈ n.validAcIndexes ∨ k ∈ n.validRegexpIndexes →
      k < 32 * (n.ac.length / 32 + if n.ac.length % 32 ≠ 0 then 1 else 0) := by
    intro k hk
    have := hbuilt.small k hk
    rw [← hbuilt.length] at this
    split <;> omega
  obtain ⟨bitmap₁, hloop₁, hlength₁, hbits₁⟩ := matchLoop_spec
    (List.replicate (n.ac.length / 32 + if n.ac.length % 32 ≠ 0 then 1 else 0) 0)
    (hbuilt.trie_hit hget.sound hfew (94 :: libs.normalize domain).reverse) (by
      intro k hk
      rw [List.length_replicate]
      exact hroom k (.inl hk))
  rw [List.length_replicate] at hlength₁
  obtain ⟨bitmap₂, hloop₂, hlength₂, hbits₂⟩ := matchLoop_spec bitmap₁
    (hbuilt.ac_hit hlibs (94 :: (libs.normalize domain ++ [36]))) (by
      intro k hk
      rw [hlength₁]
      exact hroom k (.inr (.inl hk)))
  obtain ⟨bitmap₃, hloop₃, -, hbits₃⟩ := matchLoop_spec bitmap₂
    (hbuilt.regexp_hit (libs.normalize domain)) (by
      intro k hk
      rw [hlength₂, hlength₁]
      exact hroom k (.inr (.inr hk)))
  refine ⟨bitmap₃, ?_, ?_⟩
  · rw [matchDomainBitmap]
    show (matchLoop (fun i => do
      let ss ← n.trie[i]?
      Trie.hasPrefix get ss (toSuffixTrieString (94 :: libs.normalize domain))) _ _).bind _ = _
    rw [hsuffix, hloop₁]
    exact (congrArg (Option.bind · _) hloop₂).trans hloop₃
  · intro k
    rw [hbits₃, hbits₂, hbits₁, bit_zeros, ← matches_iff hcaret']
    simp only [Bool.false_or, Bool.or_eq_true, Bool.and_eq_true, decide_eq_true_iff,
      List.any_eq_true, or_assoc]
    -- an index with a hit is a valid one
    refine or_congr ?_ (or_congr ?_ ?_)
    · refine and_iff_right_of_imp ?_
      rintro ⟨key, hkey, -⟩
      obtain ⟨raw, hraw, -⟩ := List.mem_map.mp hkey
      exact (hbuilt.trieIndexes k).mpr (List.ne_nil_of_mem hraw)
    · refine and_iff_right_of_imp ?_
      rintro ⟨d, hd, -⟩
      exact (hbuilt.acIndexes k).mpr (List.ne_nil_of_mem hd)
    · refine and_iff_right_of_imp ?_
      rintro ⟨r, hr, -⟩
      exact (hbuilt.regexpIndexes k).mpr (List.ne_nil_of_mem hr)

/-- Keywords and expressions that are searched for letter by letter. -/
def sampleLibs : PatternLibs (List Bytes) Bytes where
  newMatcher := .ok
  contains patterns text := patterns.any fun d => decide (d <:+: text)
  compile := some
  matchString d text := decide (d <:+: text)
  toLower s := s.map fun c => if 65 ≤ c.toNat ∧ c.toNat ≤ 90 then c + 32 else c

theorem sampleLibs_lawful : sampleLibs.Lawful where
  contains := by
    rintro patterns ac text ⟨⟩
    simp [sampleLibs]
  lower := by
    have hlower : ∀ x : UInt8, (x = 94 ∨ x = 36) → ∀ c : UInt8,
        (if 65 ≤ c.toNat ∧ c.toNat ≤ 90 then c + 32 else c) = x → c = x := by
      intro x hx c hc
      split at hc
      · rename_i hrange
        have htoNat : (c + 32).toNat = c.toNat + 32 := by
          rw [UInt8.toNat_add]
          show (c.toNat + 32) % 256 = _
          omega
        rw [hc] at htoNat
        have hx' : x.toNat ≤ 94 := by
          rcases hx with rfl | rfl <;> decide
        omega
      · exact hc
    intro s hcaret hdollar
    constructor
    · intro h
      obtain ⟨c, hc, heq⟩ := List.mem_map.mp h
      exact hcaret (hlower 94 (.inl rfl) c heq ▸ hc)
    · intro h
      obtain ⟨c, hc, heq⟩ := List.mem_map.mp h
      exact hdollar (hlower 36 (.inr rfl) c heq ▸ hc)

/-- The suffix `b` at index 0, and at index 33 the keyword `c` and the full name `a`. -/
def sampleSets : List PatternSet :=
  [⟨0, [[98]], .suffix⟩, ⟨33, [[99]], .keyword⟩, ⟨33, [[97]], .full⟩]

theorem matchDomainBitmap_spec_sample : ∃ m n,
    (newAhocorasickSlimtrie 34).addSets sampleLibs sampleSets = some m ∧
      m.build CompactBitList.get sampleLibs = some (.ok n) ∧
      ∃ bitmap, n.matchDomainBitmap CompactBitList.get sampleLibs [65, 46, 66, 46] = some bitmap ∧
        ∀ k, bit bitmap k = true ↔ ∃ set ∈ sampleSets, set.bitIndex = k ∧ ∃ d ∈ set.patterns,
          sampleLibs.Matches set.typ d (sampleLibs.normalize [65, 46, 66, 46]) := by
  obtain ⟨m, n, hadd, hbuild⟩ : ∃ m n,
      (newAhocorasickSlimtrie 34).addSets sampleLibs sampleSets = some m ∧
        m.build CompactBitList.get sampleLibs = some (.ok n) := by
    have hrun : (((newAhocorasickSlimtrie 34).addSets sampleLibs sampleSets).bind fun m =>
        m.build CompactBitList.get sampleLibs).any Except.isOk = true := by decide +kernel
    obtain ⟨result, hresult, hok⟩ := (Option.any_eq_true _ _).mp hrun
    obtain ⟨m, hadd, hbuild⟩ := Option.bind_eq_some_iff.mp hresult
    cases result with
    | ok n => exact ⟨m, n, hadd, hbuild⟩
    | error _ => cases hok
  refine ⟨m, n, hadd, hbuild, matchDomainBitmap_spec (.inl rfl) sampleLibs_lawful hadd hbuild ?_
    (by decide) (by decide)⟩
  intro k
  refine (card_prefixes_le _).trans ?_
  by_cases h0 : k = 0
  · subst h0
    decide
  · by_cases h33 : k = 33
    · subst h33
      decide
    · rw [show collect sampleSets trieKeys k = [] by simp [collect, sampleSets, h0, h33]]
      decide

/-- A full name of `n` letters `a`, at index 0. -/
def longSet (n : Nat) : PatternSet := ⟨0, [List.replicate n 97], .full⟩

theorem matchDomainBitmap_long {n : Nat} (hlong : 2 ^ 30 ≤ n) (hshort : n + 2 < 2 ^ 31) : ∃ m built,
    (newAhocorasickSlimtrie 1).addSets sampleLibs [longSet n] = some m ∧
      m.build CompactBitList.get sampleLibs = some (.ok built) ∧
      built.matchDomainBitmap CompactBitList.get sampleLibs (List.replicate n 97) = none := by
  obtain ⟨name, hname⟩ : ∃ name : Bytes, name = List.replicate n 97 := ⟨_, rfl⟩
  have hletters : ∀ c ∈ name, c = 97 := fun c hc => List.eq_of_mem_replicate (hname ▸ hc)
  have hlength : name.length = n := by rw [hname, List.length_replicate]
  have hvalid : validPattern name = true := by
    refine List.all_eq_true.mpr fun c hc => ?_
    rw [hletters c hc]
    decide
  have hkey : toSuffixTrieString (94 :: (name ++ [36])) = name.reverse ++ [94] := by
    rw [← List.cons_append, toSuffixTrieString_dollar, List.reverse_cons]
  have hnormal : sampleLibs.toLower (trimSuffix name 46) = name := by
    have htrim : trimSuffix name 46 = name := by
      refine if_neg fun hlast => ?_
      exact absurd (hletters 46 (List.mem_of_getLast? hlast)) (by decide)
    rw [htrim]
    refine (List.map_congr_left fun c hc => ?_).trans (List.map_id name)
    rw [hletters c hc]
    rfl
  have hsearch : toSuffixTrieString (94 :: name) = name.reverse ++ [94] := by
    rw [toSuffixTrieString_plain, List.reverse_cons]
    intro h
    rcases List.mem_cons.mp h with h | h
    · exact absurd h (by decide)
    · exact absurd (hletters 36 h) (by decide)
  have hover : ∀ c ∈ name.reverse ++ [94], c ∈ validDomainChars.letters := by
    intro c hc
    rcases List.mem_append.mp hc with hc | hc
    · rw [hletters c (List.mem_reverse.mp hc)]
      decide
    · rw [List.mem_singleton.mp hc]
      decide
  have hsize : (name.reverse ++ [94]).length = n + 1 := by
    rw [List.length_append, List.length_reverse, hlength]
    rfl
  obtain ⟨ss, hnew, hpanic⟩ : ∃ ss,
      newTrie CompactBitList.get [name.reverse ++ [94]] validDomainChars = some (.ok (some ss)) ∧
        Trie.hasPrefix CompactBitList.get (some ss) (name.reverse ++ [94]) = none :=
    hasPrefix_long_key (Reader.Known.sound (.inl rfl)) validDomainChars_letters (by decide) hover
      (by rw [hsize]; exact Nat.lt_succ_of_le hlong) (by rw [hsize]; exact hshort)
  have hadd : (newAhocorasickSlimtrie 1).addSets sampleLibs [longSet n] =
      some { (newAhocorasickSlimtrie 1 : AhocorasickSlimtrie (List Bytes) Bytes) with
        toBuildTrie := [[94 :: (name ++ [36])]] } := by
    rw [longSet, ← hname]
    show (addPatterns sampleLibs 0 .full [name] (newAhocorasickSlimtrie 1)).bind _ = _
    rw [addPatterns, if_pos hvalid]
    rfl
  refine ⟨_, { (newAhocorasickSlimtrie 1 : AhocorasickSlimtrie (List Bytes) Bytes) with
    trie := [some ss], validTrieIndexes := [0], toBuildAc := [], toBuildTrie := [] }, hadd, ?_, ?_⟩
  · have htries : buildTries CompactBitList.get [[94 :: (name ++ [36])]] =
        some (.ok ([some ss], [0])) := by
      rw [buildTries, buildEach, if_neg (List.cons_ne_nil _ _), List.map_singleton, hkey, hnew]
      rfl
    show (buildTries CompactBitList.get [[94 :: (name ++ [36])]]).bind _ = _
    rw [htries]
    rfl
  · rw [← hname, matchDomainBitmap, hnormal, hsearch]
    refine Option.bind_eq_none_iff.mpr fun bitmap hbitmap => ?_
    rw [matchLoop, if_neg (Bool.eq_false_iff.mp (bit_zeros _ _))] at hbitmap
    obtain ⟨hit, hhit, -⟩ := Option.bind_eq_some_iff.mp hbitmap
    cases hpanic.symm.trans hhit

/-- **A long pattern**: `Build` accepts a full name of `2 ^ 30` letters, and matching that
very name panics on a sample of the trie that has left the 32-bit range. -/
theorem long_pattern_panics : ∃ m n,
    (newAhocorasickSlimtrie 1).addSets sampleLibs [longSet (2 ^ 30)] = some m ∧
      m.build CompactBitList.get sampleLibs = some (.ok n) ∧
      n.matchDomainBitmap CompactBitList.get sampleLibs (List.replicate (2 ^ 30) 97) = none :=
  matchDomainBitmap_long le_rfl (Nat.lt_of_sub_pos (by decide))

end AhocorasickSlimtrie

end Dae
