import Dae.Trie.Build

/-!
# Looking up a word

A trie encodes the prefix tree of its keys.  Counting zeros leads from an edge to the
number of the node behind it and selecting a one to where that node's labels start, so
a walk over the bitmaps is a walk over the tree.
-/

namespace Dae

open BitWords PrefixTree LevelOrder

/-- The reader returns what a list holds. -/
def Reader.Sound (get : Reader) : Prop :=
  ∀ m values (i : Nat) v, CompactBitList.Holds m values → 0 < m.unitBitSize →
    values[i]? = some v → get m i = some v

theorem get_sound : Reader.Sound CompactBitList.get :=
  fun _ _ _ _ h hpos hv => (CompactBitList.get_spec h hpos hv).1

theorem getChecked_sound : Reader.Sound CompactBitList.getChecked :=
  fun _ _ _ _ h hpos hv => (CompactBitList.get_spec h hpos hv).2

section Indexes

variable {get : Reader} {bm : List (BitVec 64)} {bits : List Bool} {ranks selects : CompactBitList}

variable {i : Nat}

theorem Packs.word (hi : i < bm.length) : index bm (i : Nat) = some bm[i] := by
  rw [index, if_neg (by omega), Int.toNat_natCast, List.getElem?_eq_getElem hi]

variable {n : Nat}

theorem toInt_sample (h : n < 2 ^ 31) :
    ((BitVec.ofNat 32 n).signExtend 64).toInt = n := by
  have hvalue : (BitVec.ofNat 64 n).toNat = n := by
    rw [BitVec.toNat_ofNat, Nat.mod_eq_of_lt (by omega)]
  rw [signExtend_ofNat h, BitVec.toInt_eq_toNat_of_lt (by omega), hvalue]

/-- A sample beyond 31 bits reads as a negative number. -/
theorem toInt_sample_neg (h : 2 ^ 31 ≤ n) (h' : n < 2 ^ 32) :
    ((BitVec.ofNat 32 n).signExtend 64).toInt < 0 := by
  rw [BitVec.toInt_signExtend_of_le (by omega), BitVec.toInt_neg_iff, BitVec.toNat_ofNat,
    Nat.mod_eq_of_lt h']
  omega

theorem Ranks.read (hget : get.Sound) (h : Ranks ranks bits bm.length)
    (hones : bits.count true < 2 ^ 31) {k : Nat} (hk : k ≤ bm.length) :
    ∃ rank, get ranks k = some rank ∧ rank.toInt = (bits.take (64 * k)).count true := by
  obtain ⟨hpos, values, hholds, hvalues⟩ := h
  refine ⟨_, hget _ _ _ _ hholds hpos (hvalues k hk), toInt_sample ?_⟩
  exact ((List.take_sublist _ bits).count_le true).trans_lt hones

/-- **Counting zeros** before a bit. -/
theorem countZeros_spec (hget : get.Sound) (hbm : Packs bm bits) (hranks : Ranks ranks bits bm.length)
    (hones : bits.count true < 2 ^ 31) (hi : i < 64 * bm.length) :
    countZeros get bm ranks i = some ((i : Int) - (bits.take i).count true) := by
  have hdiv : ((i : Int) / 64) = ((i / 64 : Nat) : Int) := by push_cast; rfl
  have hmod : ((i : Int) % 64).toNat = i % 64 := by omega
  have hword : i / 64 < bm.length := by omega
  obtain ⟨rank, hrank, hvalue⟩ := hranks.read hget hones hword.le
  have hcount := count_bit bm hword.le (Nat.mod_lt i (by omega : 0 < 64)).le
  rw [← count_words bm hword.le, Nat.div_add_mod, hbm.count, hbm.count,
    List.getD_eq_getElem?_getD, List.getElem?_eq_getElem hword, Option.getD_some] at hcount
  rw [countZeros, hdiv, hrank, Packs.word hword, hmod]
  show some (_ - rank.toInt - _) = _
  rw [hvalue, ones_mask _ (Nat.mod_lt i (by omega)), hcount]
  push_cast
  congr 1
  omega

variable {p : Nat}

theorem selectWord_spec (hbm : Packs bm bits) (hp : bits[p]? = some true)
    (hn : 64 * n ≤ p) : selectWord (bm.drop n) n
      (((bits.take p).count true - (bits.take (64 * n)).count true : Nat) : Int) = some p := by
  have hroom := hbm.room p hp
  obtain ⟨d, hd⟩ : ∃ d, p / 64 = n + d := ⟨p / 64 - n, by omega⟩
  induction d generalizing n with
  | zero =>
    have hlt : n < bm.length := by omega
    have hcount := count_bit bm hlt.le (Nat.mod_lt p (by omega : 0 < 64)).le
    rw [← count_words bm hlt.le, show 64 * n + p % 64 = p by omega, hbm.count, hbm.count,
      List.getD_eq_getElem?_getD, List.getElem?_eq_getElem hlt, Option.getD_some] at hcount
    have hbit : bm[n].getLsbD (p % 64) = true := by
      have := hbm.bit p
      rw [BitWords.bit, List.getD_eq_getElem?_getD, List.getD_eq_getElem?_getD, hp,
        show p / 64 = n by omega, List.getElem?_eq_getElem hlt] at this
      exact this
    have hless : Nat.count (fun k => bm[n].getLsbD k = true) (p % 64) < ones bm[n] :=
      Nat.count_strict_mono hbit (Nat.mod_lt p (by omega))
    rw [List.drop_eq_getElem_cons hlt, selectWord, hcount, Nat.add_sub_cancel_left,
      if_neg (by omega), Int.toNat_natCast, trailingZeros_clear hbit rfl]
    congr 1
    omega
  | succ d ih =>
    have hlt : n < bm.length := by omega
    have hword : (bits.take (64 * (n + 1))).count true =
        (bits.take (64 * n)).count true + ones bm[n] := by
      have := count_bit bm hlt.le (le_refl 64)
      rw [← count_words bm hlt.le, hbm.count, ← Nat.mul_succ, hbm.count,
        List.getD_eq_getElem?_getD, List.getElem?_eq_getElem hlt] at this
      exact this
    have hle := count_take_le bits (by omega : 64 * (n + 1) ≤ p)
    rw [List.drop_eq_getElem_cons hlt, selectWord, if_pos (by omega)]
    have hrest := ih (n := n + 1) (by omega) (by omega)
    rw [hword] at hrest hle
    rw [← hrest]
    congr 1
    omega

/-- **Selecting a one** within 31 bits by its number. -/
theorem selectIthOne_spec (hget : get.Sound) (hbm : Packs bm bits)
    (hranks : Ranks ranks bits bm.length) (hselects : Selects selects bits)
    (hones : bits.count true < 2 ^ 31) (hp : bits[p]? = some true)
    (hi : (bits.take p).count true = i) (hplace : p < 2 ^ 31) :
    selectIthOne get bm ranks selects i = some p := by
  have htotal := count_take_lt hp
  obtain ⟨hpos, values, hholds, hvalues⟩ := hselects
  obtain ⟨q, hq, hcount, hvalue⟩ := hvalues (i / 64) (by omega)
  have hqroom := hbm.room q hq
  have hqp : q ≤ p := le_of_count_le hp (by omega)
  have hdiv : ((i : Int) / 64) = ((i / 64 : Nat) : Int) := by push_cast; rfl
  have hbase : (q : Int) - (q : Int) % 64 = ((64 * (q / 64) : Nat) : Int) := by omega
  have hbaseDiv : ((64 * (q / 64) : Nat) : Int) / 64 = ((q / 64 : Nat) : Int) := by omega
  obtain ⟨rank, hrank, hrankValue⟩ := hranks.read hget hones (by omega : q / 64 ≤ bm.length)
  have hle := count_take_le bits (by omega : 64 * (q / 64) ≤ p)
  rw [selectIthOne, hdiv, hget _ _ _ _ hholds hpos hvalue]
  show (get ranks ((((BitVec.ofNat 32 q).signExtend 64).toInt -
    ((BitVec.ofNat 32 q).signExtend 64).toInt % 64) / 64)).bind _ = _
  rw [toInt_sample (by omega), hbase, hbaseDiv, hrank]
  show (if ((64 * (q / 64) : Nat) : Int) < 0 then none else _) = _
  rw [if_neg (by omega), hrankValue, Int.toNat_natCast, ← hi, ← Int.ofNat_sub hle]
  exact selectWord_spec hbm hp (by omega)

/-- A one whose sample lies beyond 31 bits cannot be selected. -/
theorem selectIthOne_none (hget : get.Sound) (hselects : Selects selects bits)
    (hlen : bits.length ≤ 2 ^ 32) (hp : bits[p]? = some true)
    (hi : (bits.take p).count true = 64 * i) (hplace : 2 ^ 31 ≤ p) :
    selectIthOne get bm ranks selects ((64 * i : Nat) : Int) = none := by
  have htotal := count_take_lt hp
  obtain ⟨hpos, values, hholds, hvalues⟩ := hselects
  obtain ⟨q, hq, hcount, hvalue⟩ := hvalues i (by omega)
  obtain rfl : q = p :=
    le_antisymm (le_of_count_le hp (by omega)) (le_of_count_le hq (by omega))
  have hlt := (List.getElem?_eq_some_iff.mp hq).1
  have hneg := toInt_sample_neg hplace (by omega : q < 2 ^ 32)
  have hdiv : (((64 * i : Nat) : Int) / 64) = ((i : Nat) : Int) := by omega
  rw [selectIthOne, hdiv, hget _ _ _ _ hholds hpos hvalue]
  show (get ranks _).bind _ = none
  cases get ranks ((((BitVec.ofNat 32 q).signExtend 64).toInt -
      ((BitVec.ofNat 32 q).signExtend 64).toInt % 64) / 64) with
  | none => rfl
  | some rank =>
    refine if_pos ?_
    have := Int.emod_nonneg ((BitVec.ofNat 32 q).signExtend 64).toInt (by decide : (64 : Int) ≠ 0)
    omega

end Indexes

/-! ### The tree of a trie -/

/-- The letters of the edges below a node. -/
def edgeLetters (S : List Bytes) : Bytes := (branches S).map Prod.fst

def degree (S : List Bytes) : Nat := (branches S).length

theorem length_edgeLetters (S : List Bytes) : (edgeLetters S).length = degree S := List.length_map ..

/-- Every node but the root is a child of one node. -/
theorem length_of_tree {keys : List Bytes} {nodes : List (List Bytes)}
    (h : nodes = keys :: nodes.flatMap kidsOf) : nodes.length = (nodes.map degree).sum + 1 := by
  conv_lhs => rw [h]
  rw [List.length_cons, List.length_flatMap]
  congr 2
  exact List.map_congr_left fun S _ => List.length_map ..

/-- The trie encodes the prefix tree of the keys, whose nodes in level order are `nodes`. -/
structure Trie.Encodes (ss : Trie) (keys : List Bytes) (nodes : List (List Bytes)) : Prop where
  tree : nodes = keys :: nodes.flatMap kidsOf
  last : ∀ S, nodes.getLast? = some S → kidsOf S = []
  sorted : ∀ S ∈ nodes, S.Pairwise (· < ·) ∧ S ≠ []
  few : nodes.length < 2 ^ 31
  alphabet : ss.chars.chars.Numbers ss.chars.letters
  letters : ∀ S ∈ nodes, ∀ c ∈ edgeLetters S, c ∈ ss.chars.letters
  leaves : Packs ss.leaves (nodes.map isLeaf)
  bitmap : Packs ss.labelBitmap (unary (nodes.map degree))
  labels : ss.labels.Holds ((nodes.flatMap edgeLetters).map ss.chars.chars.label)
  unit : ss.labels.unitBitSize = Nat.size ss.chars.chars.size
  ranks : Ranks ss.ranksBL (unary (nodes.map degree)) ss.labelBitmap.length
  selects : Selects ss.selectsBL (unary (nodes.map degree))

namespace Trie.Encodes

variable {ss : Trie} {keys : List Bytes} {nodes : List (List Bytes)} {get : Reader}

theorem length_eq (h : ss.Encodes keys nodes) : nodes.length = (nodes.map degree).sum + 1 :=
  length_of_tree h.tree

theorem ones_lt (h : ss.Encodes keys nodes) : (unary (nodes.map degree)).count true < 2 ^ 31 := by
  rw [count_true_unary, List.length_map]
  exact h.few

/-- The labels of the children of node `n` start within 31 bits. -/
def Near (nodes : List (List Bytes)) (n : Nat) : Prop :=
  start (nodes.map degree) ((nodes.map degree).take (n + 1)).sum ≤ 2 ^ 31

/-- In a trie of at most `2 ^ 30` nodes everything is near. -/
theorem near (h : ss.Encodes keys nodes) (hfew : nodes.length ≤ 2 ^ 30) (n : Nat) :
    Near nodes n := by
  have hlength := h.length_eq
  have hle : ∀ i, ((nodes.map degree).take i).sum ≤ (nodes.map degree).sum :=
    fun i => (List.take_sublist i _).sum_le_sum (fun _ _ => Nat.zero_le _)
  have hnode := hle (n + 1)
  have hchild := hle ((nodes.map degree).take (n + 1)).sum
  rw [Near, start]
  omega

variable {j : Nat}

theorem start_mono (degrees : List Nat) {i : Nat} (h : i ≤ j) : start degrees i ≤ start degrees j := by
  have hsum : (degrees.take i).sum ≤ (degrees.take j).sum :=
    (List.take_sublist_take_left h).sum_le_sum (fun _ _ => Nat.zero_le _)
  rw [start, start]
  omega

variable {n : Nat} {S : List Bytes}

/-- The place of a node among the leaf flags. -/
theorem getBit_leaves (h : ss.Encodes keys nodes)
    (hS : nodes[n]? = some S) : getBit ss.leaves n = some (isLeaf S) := by
  obtain ⟨hn, -⟩ := List.getElem?_eq_some_iff.mp hS
  obtain ⟨T, hT⟩ : ∃ T, nodes[nodes.length - 1]? = some T :=
    ⟨_, List.getElem?_eq_getElem (by omega)⟩
  -- the last node has no edges, so a key ends there
  have hleaf : isLeaf T = true := by
    have hkids := h.last T (by rw [List.getLast?_eq_getElem?, hT])
    obtain ⟨hpair, hne⟩ := h.sorted T (List.mem_of_getElem? hT)
    obtain ⟨s, hs⟩ := List.exists_mem_of_ne_nil T hne
    cases s with
    | nil => exact (isLeaf_eq T).trans (decide_eq_true hs)
    | cons c t =>
      obtain ⟨g, hg, -⟩ := (branches_spec hpair).2.2 c t hs
      rw [kidsOf, List.map_eq_nil_iff] at hkids
      rw [hkids] at hg
      cases hg
  have hroom := h.leaves.room (nodes.length - 1) (by rw [List.getElem?_map, hT, ← hleaf]; rfl)
  rw [h.leaves.getBit (by omega), List.getD_eq_getElem?_getD, List.getElem?_map, hS]
  rfl

theorem degree_getElem? (hS : nodes[n]? = some S) :
    (nodes.map degree)[n]? = some (degree S) := by
  rw [List.getElem?_map, hS]
  rfl

/-- The bits of the degrees lie inside the bitmap. -/
theorem bit_lt (h : ss.Encodes keys nodes) {p : Nat} (hp : p < (unary (nodes.map degree)).length) :
    p < 64 * ss.labelBitmap.length := by
  have hlength := h.length_eq
  obtain ⟨T, hT⟩ : ∃ T, nodes[nodes.length - 1]? = some T :=
    ⟨_, List.getElem?_eq_getElem (by omega)⟩
  have hstop := unary_stop (degree_getElem? hT)
  have hnext := start_succ (degree_getElem? hT)
  have hroom := h.bitmap.room _ hstop
  have hall : start (nodes.map degree) (nodes.length - 1 + 1) =
      (nodes.map degree).sum + nodes.length := by
    rw [start, List.take_of_length_le (by rw [List.length_map]; omega)]
    omega
  rw [length_unary, List.length_map] at hp
  omega

/-- The number of the node behind the `j`-th edge of node `n`. -/
def childOf (nodes : List (List Bytes)) (n j : Nat) : Nat := ((nodes.map degree).take n).sum + j + 1

section Node

variable (h : ss.Encodes keys nodes) (hget : get.Sound) (hS : nodes[n]? = some S)

include h hS

theorem getElem?_childOf (hj : j < degree S) : nodes[childOf nodes n j]? = (kidsOf S)[j]? := by
  have hkids := getElem?_flatMap (f := kidsOf) hS (by rw [kidsOf, List.length_map]; exact hj)
  have hsum : ((nodes.take n).map fun S => (kidsOf S).length).sum =
      ((nodes.map degree).take n).sum := by
    rw [← List.map_take]
    congr 1
    exact List.map_congr_left fun S _ => List.length_map ..
  rw [hsum] at hkids
  rw [childOf]
  generalize ((nodes.map degree).take n).sum + j = i at hkids ⊢
  conv_lhs => rw [h.tree]
  rw [List.getElem?_cons_succ]
  exact hkids

include hget

/-- Counting zeros gives the number of the node behind an edge. -/
theorem countZeros_childOf (hj : j < degree S) :
    countZeros get ss.labelBitmap ss.ranksBL
        (((start (nodes.map degree) n + j : Nat) : Int) + 1) = some ((childOf nodes n j : Nat) : Int) := by
  have hdeg := degree_getElem? hS
  have hstopLt := (List.getElem?_eq_some_iff.mp (unary_stop hdeg)).1
  have hzeros := countZeros_spec hget h.bitmap h.ranks h.ones_lt
    (h.bit_lt (by omega : start (nodes.map degree) n + j + 1 < (unary (nodes.map degree)).length))
  rw [Nat.add_assoc, count_unary hdeg (by omega : j + 1 ≤ degree S)] at hzeros
  rw [show (((start (nodes.map degree) n + j : Nat) : Int) + 1) =
    ((start (nodes.map degree) n + (j + 1) : Nat) : Int) by push_cast; ring, hzeros, start, childOf]
  congr 1
  omega

/-- **The node behind an edge**: its number, its strings and where its labels start. -/
theorem nextLevel_spec (hj : j < degree S) (hnear : Near nodes n) :
    nextLevel get ss ((start (nodes.map degree) n + j : Nat) : Int) =
      some (((childOf nodes n j : Nat) : Int),
        ((start (nodes.map degree) (childOf nodes n j) : Nat) : Int)) := by
  have hchild := h.getElem?_childOf hS hj
  -- the one that closes the node before the child
  obtain ⟨T, hT⟩ : ∃ T, nodes[((nodes.map degree).take n).sum + j]? = some T := by
    have hkid : j < (kidsOf S).length := by rw [kidsOf, List.length_map]; exact hj
    rw [List.getElem?_eq_getElem hkid, childOf] at hchild
    have := (List.getElem?_eq_some_iff.mp hchild).1
    exact ⟨_, List.getElem?_eq_getElem (by omega)⟩
  have hprev := degree_getElem? hT
  have hnext := start_succ hprev
  have hplace : start (nodes.map degree) (((nodes.map degree).take n).sum + j + 1) ≤ 2 ^ 31 := by
    refine le_trans (start_mono _ ?_) hnear
    rw [List.take_add_one, degree_getElem? hS, List.sum_append]
    show _ ≤ _ + (degree S + 0)
    omega
  have hone := selectIthOne_spec hget h.bitmap h.ranks h.selects h.ones_lt (unary_stop hprev)
    (count_unary hprev le_rfl) (by omega)
  rw [nextLevel, h.countZeros_childOf hget hS hj]
  show (selectIthOne get ss.labelBitmap ss.ranksBL ss.selectsBL
    (((((nodes.map degree).take n).sum + j + 1 : Nat) : Int) - 1)).bind _ = _
  rw [show ((((nodes.map degree).take n).sum + j + 1 : Nat) : Int) - 1 =
    ((((nodes.map degree).take n).sum + j : Nat) : Int) by push_cast; ring, hone, childOf, hnext]
  push_cast
  rfl

/-- Reading the labels of a node from the `j`-th on. -/
theorem findLabel_spec (found : BitVec 64 → Bool) {fuel : Nat} (hj : j ≤ degree S)
    (hfuel : degree S - j < fuel) :
    findLabel get ss n found fuel ((start (nodes.map degree) n + j : Nat) : Int) =
      some ((((edgeLetters S).drop j).findIdx? fun c => found (ss.chars.chars.label c)).map
        fun k => ((start (nodes.map degree) n + j + k : Nat) : Int)) := by
  have hdeg := degree_getElem? hS
  induction fuel generalizing j with
  | zero => omega
  | succ fuel ih =>
    rcases Nat.eq_or_lt_of_le hj with rfl | hlt
    · have hstop := unary_stop hdeg
      have hbit := h.bitmap.getBit (h.bit_lt (List.getElem?_eq_some_iff.mp hstop).1)
      rw [List.getD_eq_getElem?_getD, hstop] at hbit
      rw [findLabel, hbit, List.drop_of_length_le (length_edgeLetters S).le]
      rfl
    · have hedge := unary_edge hdeg hlt
      have hbit := h.bitmap.getBit (h.bit_lt (List.getElem?_eq_some_iff.mp hedge).1)
      rw [List.getD_eq_getElem?_getD, hedge] at hbit
      have hlt' : j < (edgeLetters S).length := by rwa [length_edgeLetters]
      have hmem : (edgeLetters S)[j] ∈ ss.chars.letters :=
        h.letters S (List.mem_of_getElem? hS) _ (List.getElem_mem hlt')
      have hunit : 0 < ss.labels.unitBitSize := by
        rw [h.unit, Nat.size_pos, ValidChars.size, h.alphabet.count]
        exact List.length_pos_of_mem hmem
      have hvalue : ((nodes.flatMap edgeLetters).map ss.chars.chars.label)[
          ((nodes.map degree).take n).sum + j]? = some (ss.chars.chars.label (edgeLetters S)[j]) := by
        have hflat := getElem?_flatMap (f := edgeLetters) hS hlt'
        rw [List.getElem?_eq_getElem hlt'] at hflat
        simp only [length_edgeLetters, List.map_take] at hflat
        rw [List.getElem?_map, hflat, Option.map_some]
      have hread := hget _ _ _ _ h.labels hunit hvalue
      have hindex : ((start (nodes.map degree) n + j : Nat) : Int) - (n : Nat) =
          ((((nodes.map degree).take n).sum + j : Nat) : Int) := by
        rw [start]
        omega
      rw [findLabel, hbit, List.drop_eq_getElem_cons hlt', List.findIdx?_cons]
      show (get ss.labels (((start (nodes.map degree) n + j : Nat) : Int) - (n : Nat))).bind _ = _
      rw [hindex, hread]
      show (if found _ = true then _ else findLabel get ss n found fuel _) = _
      by_cases hfound : found (ss.chars.chars.label (edgeLetters S)[j]) = true
      · rw [if_pos hfound, if_pos hfound]
        rfl
      · have hrest := ih hlt (by omega)
        rw [if_neg hfound, if_neg hfound, Option.map_map,
          show ((start (nodes.map degree) n + j : Nat) : Int) + 1 =
            ((start (nodes.map degree) n + (j + 1) : Nat) : Int) by push_cast; ring, hrest]
        congr 2
        funext k
        show _ = ((start (nodes.map degree) n + j + (k + 1) : Nat) : Int)
        congr 1
        omega

/-- **One step of a walk**: the branch of the letter, or no label. -/
theorem step (hnear : Near nodes n) (found : BitVec 64 → Bool) (c : UInt8)
    (hfound : ∀ d ∈ edgeLetters S, found (ss.chars.chars.label d) = decide (d = c)) :
    match (branches S).find? (fun g => g.1 = c) with
    | none => findLabel get ss n found ss.labelFuel (start (nodes.map degree) n : Nat) = some none
    | some g => ∃ bmIdx child,
        findLabel get ss n found ss.labelFuel (start (nodes.map degree) n : Nat) =
          some (some bmIdx) ∧
        nextLevel get ss bmIdx =
          some (((child : Nat) : Int), ((start (nodes.map degree) child : Nat) : Int)) ∧
        nodes[child]? = some g.2 := by
  have hfuel : degree S - 0 < ss.labelFuel := by
    have := h.bit_lt (List.getElem?_eq_some_iff.mp (unary_stop (degree_getElem? hS))).1
    rw [labelFuel]
    omega
  have hlabels := h.findLabel_spec hget hS found (Nat.zero_le _) hfuel
  rw [Nat.add_zero, List.drop_zero] at hlabels
  cases hidx : (edgeLetters S).findIdx? fun c => found (ss.chars.chars.label c) with
  | none =>
    have hnone : (branches S).find? (fun g => g.1 = c) = none := by
      rw [List.find?_eq_none]
      intro g hg hgc
      have hmem : g.1 ∈ edgeLetters S := List.mem_map_of_mem hg
      have := List.findIdx?_eq_none_iff.mp hidx g.1 hmem
      rw [hfound g.1 hmem] at this
      simp_all
    rw [hnone]
    rw [hidx] at hlabels
    exact hlabels
  | some k =>
    obtain ⟨hk, hhit, hbefore⟩ := List.findIdx?_eq_some_iff_getElem.mp hidx
    have hk' : k < (branches S).length := by rwa [edgeLetters, List.length_map] at hk
    have hletter : ∀ i (hi : i < (edgeLetters S).length) (hi' : i < (branches S).length),
        (edgeLetters S)[i] = (branches S)[i].1 := fun _ _ _ => List.getElem_map ..
    have hsome : (branches S).find? (fun g => g.1 = c) = some (branches S)[k] := by
      rw [List.find?_eq_some_iff_getElem]
      refine ⟨?_, k, hk', rfl, ?_⟩
      · rw [hfound _ (List.getElem_mem hk), hletter k hk hk'] at hhit
        exact hhit
      · intro i hi
        have hi' : i < (edgeLetters S).length := by omega
        have := hbefore i hi
        rw [hfound _ (List.getElem_mem hi'), hletter i hi' (by omega)] at this
        simpa using this
    rw [hsome]
    refine ⟨_, _, by rw [hlabels, hidx]; rfl, h.nextLevel_spec hget hS hk' hnear, ?_⟩
    rw [h.getElem?_childOf hS hk', kidsOf, List.getElem?_map, List.getElem?_eq_getElem hk']
    rfl

end Node

/-- **`HasPrefix`** follows the way of the word. -/
theorem hasPrefixLoop_spec (h : ss.Encodes keys nodes) (hget : get.Sound)
    (hfew : nodes.length ≤ 2 ^ 30) (hS : nodes[n]? = some S)
    (word : Bytes) :
    hasPrefixLoop get ss word n (start (nodes.map degree) n : Nat) =
      some ((descend word S).any isLeaf) := by
  induction word generalizing n S with
  | nil => exact h.getBit_leaves hS
  | cons c word ih =>
    rw [hasPrefixLoop, h.getBit_leaves hS]
    by_cases hleaf : [] ∈ S
    · rw [descend_of_mem hleaf, show isLeaf S = true from (isLeaf_eq S).trans (decide_eq_true hleaf)]
      simp [show isLeaf S = true from (isLeaf_eq S).trans (decide_eq_true hleaf)]
    rw [show isLeaf S = false from (isLeaf_eq S).trans (decide_eq_false hleaf)]
    show (if (!ss.chars.chars.isValidChar c) = true then some false else _) = _
    -- a node without a key has an edge, so the alphabet has letters
    obtain ⟨hpair, hne⟩ := h.sorted S (List.mem_of_getElem? hS)
    have hletters : ss.chars.letters ≠ [] := by
      obtain ⟨s, hs⟩ := List.exists_mem_of_ne_nil S hne
      cases s with
      | nil => exact absurd hs hleaf
      | cons d t =>
        obtain ⟨g, hg, -⟩ := (branches_spec hpair).2.2 d t hs
        exact List.ne_nil_of_mem
          (h.letters S (List.mem_of_getElem? hS) g.1 (List.mem_map_of_mem hg))
    have hvalid := h.alphabet.valid_iff hletters c
    rw [descend, if_neg hleaf]
    by_cases hc : c ∈ ss.chars.letters
    · have hfound : ∀ d ∈ edgeLetters S, ((ss.chars.chars.label d).setWidth 8 ==
          (ss.chars.chars.table c).toBitVec) = decide (d = c) := by
        intro d hd
        have hd' := h.letters S (List.mem_of_getElem? hS) d hd
        rw [ValidChars.label, BitVec.setWidth_setWidth_of_le _ (by omega), BitVec.setWidth_eq,
          Bool.eq_iff_iff, beq_iff_eq, decide_eq_true_iff]
        constructor
        · intro heq
          exact h.alphabet.injective d hd' c hc (UInt8.toBitVec_inj.mp heq)
        · rintro rfl
          rfl
      have hstep := h.step hget hS (h.near hfew n)
        (fun label => label.setWidth 8 == (ss.chars.chars.table c).toBitVec) c hfound
      rw [hvalid.mpr hc]
      cases hfind : (branches S).find? (fun g => g.1 = c) with
      | none =>
        rw [hfind] at hstep
        show (findLabel get ss n _ ss.labelFuel _).bind _ = _
        rw [hstep]
        rfl
      | some g =>
        rw [hfind] at hstep
        obtain ⟨bmIdx, child, hlabel, hnext, hchild⟩ := hstep
        show (findLabel get ss n _ ss.labelFuel _).bind _ = _
        rw [hlabel]
        show (nextLevel get ss bmIdx).bind _ = _
        rw [hnext]
        exact ih hchild
    · have hinvalid : ss.chars.chars.isValidChar c = false := by
        rw [Bool.eq_false_iff]
        exact fun hv => hc (hvalid.mp hv)
      have hnone : (branches S).find? (fun g => g.1 = c) = none := by
        rw [List.find?_eq_none]
        intro g hg hgc
        rw [decide_eq_true_iff] at hgc
        exact hc (hgc ▸ h.letters S (List.mem_of_getElem? hS) g.1 (List.mem_map_of_mem hg))
      rw [hinvalid, hnone]
      rfl

/-- Where a cursor stands after a way that may have got lost. -/
def At (nodes : List (List Bytes)) (cursor : IpCursor) : Option (List Bytes) → Prop
  | none => cursor = { node := -1, bitmap := 0 }
  | some S => ∃ n : Nat, cursor = { node := n, bitmap := (start (nodes.map degree) n : Nat) } ∧
      nodes[n]? = some S

theorem found_cidr (x : Bool) {d : UInt8} (hd : d ∈ CharsRef.validCidrChars.letters) :
    (CharsRef.validCidrChars.chars.label d == (BitVec.ofBool x).setWidth 64) =
      decide (d = if x then 49 else 48) := by
  rcases List.mem_pair.mp hd with rfl | rfl <;> cases x <;> decide

/-- **`seekIP`** follows the way of the binary digits. -/
theorem seekIPLoop_spec (h : ss.Encodes keys nodes) (hget : get.Sound)
    (hfew : nodes.length ≤ 2 ^ 30) (hcidr : ss.chars = .validCidrChars) (address : BitVec 128)
    (hS : nodes[n]? = some S) (rounds bit : Nat) :
    ∃ cursor, seekIPLoop get ss address rounds bit
        { node := n, bitmap := (start (nodes.map degree) n : Nat) } = some cursor ∧
      At nodes cursor (descend (bin128Loop address rounds bit) S) := by
  induction rounds generalizing n S bit with
  | zero => exact ⟨_, rfl, n, rfl, hS⟩
  | succ rounds ih =>
    rw [seekIPLoop, h.getBit_leaves hS]
    by_cases hleaf : [] ∈ S
    · rw [descend_of_mem hleaf, show isLeaf S = true from (isLeaf_eq S).trans (decide_eq_true hleaf)]
      exact ⟨_, rfl, n, rfl, hS⟩
    rw [show isLeaf S = false from (isLeaf_eq S).trans (decide_eq_false hleaf), bin128Loop, descend, if_neg hleaf]
    have hstep := h.step hget hS (h.near hfew n)
      (fun label => label == (BitVec.ofBool (address.getMsbD bit)).setWidth 64)
      (if address.getMsbD bit then 49 else 48) (by
        intro d hd
        have hd' := h.letters S (List.mem_of_getElem? hS) d hd
        rw [hcidr] at hd' ⊢
        exact found_cidr _ hd')
    cases hfind : (branches S).find? (fun g => g.1 = if address.getMsbD bit then 49 else 48) with
    | none =>
      rw [hfind] at hstep
      refine ⟨_, ?_, rfl⟩
      show (findLabel get ss n _ ss.labelFuel _).bind _ = _
      rw [hstep]
      rfl
    | some g =>
      rw [hfind] at hstep
      obtain ⟨bmIdx, child, hlabel, hnext, hchild⟩ := hstep
      obtain ⟨cursor, hcursor, hat⟩ := ih hchild (bit + 1)
      refine ⟨cursor, ?_, hat⟩
      show (findLabel get ss n _ ss.labelFuel _).bind _ = _
      rw [hlabel]
      show (nextLevel get ss bmIdx).bind _ = _
      rw [hnext]
      exact hcursor

theorem root (h : ss.Encodes keys nodes) : nodes[0]? = some keys := by
  rw [h.tree]
  rfl

end Trie.Encodes

/-! ### Construction -/

section Construction

variable {keys : List Bytes} {chars : CharsRef}

theorem card_prefixes_le (keys : List Bytes) : (prefixes keys).card ≤ nodeFuel keys := by
  have hlength : (keys.flatMap List.inits).length = nodeFuel keys := by
    rw [List.length_flatMap, nodeFuel]
    simp only [List.length_inits]
  exact hlength ▸ List.toFinset_card_le _

/-- Sorted keys over the alphabet. -/
structure KeysOK (keys : List Bytes) (chars : CharsRef) : Prop where
  sorted : keys.Pairwise (· < ·)
  nonempty : keys ≠ []
  letters : ∀ key ∈ keys, ∀ c ∈ key, c ∈ chars.letters

variable (hkeys : KeysOK keys chars) (halphabet : chars.letters.length ≤ 256)

include hkeys halphabet

theorem labelsFit : LabelsFit chars.chars keys := by
  intro key hkey c hc
  exact (alphabet_spec halphabet).len64_label (hkeys.letters key hkey c hc)

/-- **The loop over the queue visits every node** of the prefix tree of the keys. -/
theorem nodeLoop_keys :
    ∃ st nodes, nodeLoop keys chars.chars (nodeFuel keys) 0
        { queue := [⟨0, keys.length, 0⟩], leaves := [], labelBitmap := [], lIdx := 0
          labels := newCompactBitList (Nat.size chars.chars.size) } = some st ∧
      nodes = keys :: nodes.flatMap kidsOf ∧ (∀ S, nodes.getLast? = some S → kidsOf S = []) ∧
      (∀ S ∈ nodes, KeysOK S chars) ∧ nodes.length = (prefixes keys).card ∧
      st.Holds chars.chars (nodes.map isLeaf) (unary (nodes.map degree))
        (nodes.flatMap edgeLetters) := by
  have hkids : ∀ S, KeysOK S chars → ∀ T ∈ kidsOf S, KeysOK T chars := by
    intro S hS T hT
    obtain ⟨g, hg, rfl⟩ := List.mem_map.mp hT
    obtain ⟨hpair, hne, hmem⟩ := (branches_spec hS.sorted).2.1 g hg
    refine ⟨hpair, hne, ?_⟩
    intro key hkey c hc
    exact hS.letters _ ((hmem key).mp hkey) c (List.mem_cons_of_mem _ hc)
  have hsize : ∀ S, KeysOK S chars → (fun S => (prefixes S).card) S =
      1 + ((kidsOf S).map fun S => (prefixes S).card).sum :=
    fun S hS => card_prefixes hS.sorted hS.nonempty
  obtain ⟨nodes, hwalk, htree, hlength, hall, hlast⟩ :=
    walk_spec hkids hsize (List.forall_mem_singleton.mpr hkeys)
      (by simpa using card_prefixes_le keys)
  have hstart : TrieBuild.Holds chars.chars
      { queue := [⟨0, keys.length, 0⟩], leaves := [], labelBitmap := [], lIdx := 0
        labels := newCompactBitList (Nat.size chars.chars.size) } [] [] [] :=
    ⟨packs_nil, packs_nil, rfl, CompactBitList.holds_new _, rfl⟩
  have hspan : QElt.Spans keys ⟨0, keys.length, 0⟩ keys :=
    ⟨by rw [rests, List.take_length, List.drop_zero]; exact List.map_id keys, le_rfl,
      fun _ _ _ _ _ => Nat.zero_le _⟩
  obtain ⟨st, hst, hholds⟩ := nodeLoop_spec (labelsFit hkeys halphabet) hstart
    (.cons hspan .nil) hwalk fun S hS => ⟨(hall S hS).sorted, (hall S hS).nonempty⟩
  exact ⟨st, nodes, hst, htree, hlast, hall, by simpa using hlength, hholds⟩

/-- The arrays of `NewTrie` encode the prefix tree of keys with fewer than `2 ^ 31` prefixes. -/
theorem encodes_keys (hfew : (prefixes keys).card < 2 ^ 31) :
    ∃ st ranksBL selectsBL nodes, nodeLoop keys chars.chars (nodeFuel keys) 0
        { queue := [⟨0, keys.length, 0⟩], leaves := [], labelBitmap := [], lIdx := 0
          labels := newCompactBitList (Nat.size chars.chars.size) } = some st ∧
      initIndexes st.labelBitmap = some (ranksBL, selectsBL) ∧
      nodes.length = (prefixes keys).card ∧
      ∀ ipv4, Trie.Encodes
        { leaves := st.leaves, labelBitmap := st.labelBitmap, labels := st.labels
          ranksBL, selectsBL, chars, ipv4 } keys nodes := by
  obtain ⟨st, nodes, hst, htree, hlast, hall, hlength, hholds⟩ := nodeLoop_keys hkeys halphabet
  have hsum := length_of_tree htree
  have hones : (unary (nodes.map degree)).count true = nodes.length := by
    rw [count_true_unary, List.length_map]
  obtain ⟨ranksBL, selectsBL, hinit, hranks, hselects⟩ := initIndexes_spec hholds.bitmap
    (by rw [length_unary, List.length_map]; omega) (by omega) (by omega)
  refine ⟨st, ranksBL, selectsBL, nodes, hst, hinit, hlength, fun ipv4 =>
    ⟨htree, hlast, fun S hS => ⟨(hall S hS).sorted, (hall S hS).nonempty⟩, by omega,
      alphabet_spec halphabet, ?_, hholds.leaves, hholds.bitmap, hholds.labels, hholds.unit, hranks,
      hselects⟩⟩
  intro S hS c hc
  obtain ⟨g, hg, rfl⟩ := List.mem_map.mp hc
  obtain ⟨-, hne, hmem⟩ := (branches_spec (hall S hS).sorted).2.1 g hg
  obtain ⟨t, ht⟩ := List.exists_mem_of_ne_nil _ hne
  exact (hall S hS).letters _ ((hmem t).mp ht) _ List.mem_cons_self

/-- Without a cached cursor `NewTrie` ends with the arrays. -/
theorem buildTrie_other (get : Reader) (hfew : (prefixes keys).card < 2 ^ 31)
    (hother : chars ≠ .validCidrChars) :
    ∃ ss nodes, buildTrie get keys chars = some ss ∧ ss.Encodes keys nodes ∧ ss.chars = chars ∧
      nodes.length = (prefixes keys).card := by
  obtain ⟨st, ranksBL, selectsBL, nodes, hst, hinit, hlength, hencodes⟩ :=
    encodes_keys hkeys halphabet hfew
  refine ⟨_, nodes, ?_, hencodes ⟨0, 0⟩, rfl, hlength⟩
  rw [buildTrie, hst]
  show (initIndexes st.labelBitmap).bind _ = _
  rw [hinit]
  exact if_neg hother

/-- **`NewTrie` encodes the prefix tree** of keys with at most `2 ^ 30` prefixes. -/
theorem buildTrie_spec {get : Reader} (hget : get.Sound) (hfew : (prefixes keys).card ≤ 2 ^ 30) :
    ∃ ss nodes, buildTrie get keys chars = some ss ∧ ss.Encodes keys nodes ∧ ss.chars = chars ∧
      nodes.length ≤ 2 ^ 30 ∧ (chars = .validCidrChars →
        Trie.Encodes.At nodes ss.ipv4 (descend (bin128Loop Addr.mappedPrefix 96 0) keys)) := by
  by_cases hcidr : chars = .validCidrChars
  · obtain ⟨st, ranksBL, selectsBL, nodes, hst, hinit, hlength, hencodes⟩ :=
      encodes_keys hkeys halphabet (by omega)
    have hzero := hencodes ⟨0, 0⟩
    obtain ⟨cursor, hcursor, hat⟩ := hzero.seekIPLoop_spec hget (by omega) hcidr Addr.mappedPrefix
      hzero.root 96 0
    refine ⟨{ leaves := st.leaves, labelBitmap := st.labelBitmap, labels := st.labels
              ranksBL, selectsBL, chars, ipv4 := cursor }, nodes, ?_, hencodes cursor, rfl,
      by omega, fun _ => hat⟩
    rw [buildTrie, hst]
    show (initIndexes st.labelBitmap).bind _ = _
    rw [hinit]
    show (if chars = .validCidrChars then _ else _) = _
    rw [if_pos hcidr]
    show (Trie.seekIPLoop get _ Addr.mappedPrefix 96 0 ⟨0, 0⟩).bind _ = _
    have hroot : ({ node := ((0 : Nat) : Int), bitmap := (start (nodes.map degree) 0 : Nat) } : IpCursor) =
        ⟨0, 0⟩ := rfl
    rw [hroot] at hcursor
    rw [hcursor]
    rfl
  · obtain ⟨ss, nodes, hbuild, hencodes, hchars, hlength⟩ :=
      buildTrie_other hkeys halphabet get (by omega) hcidr
    exact ⟨ss, nodes, hbuild, hencodes, hchars, by omega, fun h => absurd h hcidr⟩

end Construction

end Dae
