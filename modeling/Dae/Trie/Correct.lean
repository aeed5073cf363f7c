import Dae.Trie.Lookup

/-!
# What the trie answers

`HasPrefix` on the trie of a list of keys is true exactly when one of them is a prefix
of the word, and `HasPrefixIP` on the trie of a list of prefixes exactly when one of
them contains the address.  Both hold while the keys have at most `2 ^ 30` prefixes:
the rank and select samples pass through 32-bit integers.
-/

namespace Dae

open PrefixTree LevelOrder

/-! ### Sorting the keys -/

/-- The keys in order, each once. -/
def sortKeys (keys : List Bytes) : List Bytes := compact (keys.insertionSort (· ≤ ·))

variable {keys : List Bytes} {key : Bytes}

theorem mem_sortKeys : key ∈ sortKeys keys ↔ key ∈ keys := by
  rw [sortKeys, mem_compact, List.mem_insertionSort]

theorem prefixes_sortKeys (keys : List Bytes) : prefixes (sortKeys keys) = prefixes keys := by
  ext p
  simp only [mem_prefixes, mem_sortKeys]

theorem sortKeys_sorted (keys : List Bytes) : (sortKeys keys).Pairwise (· < ·) := by
  have hsorted := List.pairwise_insertionSort (fun a b : Bytes => a ≤ b) keys
  refine (pairwise_compact hsorted).imp ?_
  rintro a b ⟨hle, hne⟩
  by_contra hlt
  exact hne (List.le_antisymm hle (List.not_lt.mp hlt))

variable {chars : CharsRef}

theorem keysOK_sortKeys (hne : keys ≠ [])
    (hover : ∀ key ∈ keys, ∀ c ∈ key, c ∈ chars.letters) : KeysOK (sortKeys keys) chars := by
  refine ⟨sortKeys_sorted keys, ?_, fun key hkey => hover key (mem_sortKeys.mp hkey)⟩
  obtain ⟨key, hkey⟩ := List.exists_mem_of_ne_nil keys hne
  exact List.ne_nil_of_mem (mem_sortKeys.mpr hkey)

/-- Keys over the alphabet pass the check of their characters. -/
theorem newTrie_eq (get : Reader) (hne : keys ≠ [])
    (halphabet : chars.letters.length ≤ 256)
    (hover : ∀ key ∈ keys, ∀ c ∈ key, c ∈ chars.letters) :
    newTrie get keys chars = (buildTrie get (sortKeys keys) chars).map fun ss => .ok (some ss) := by
  have hvalid : (sortKeys keys).flatten.find? (fun c => !chars.chars.isValidChar c) = none := by
    rw [List.find?_eq_none]
    intro c hc
    obtain ⟨key, hkey, hck⟩ := List.mem_flatten.mp hc
    have hmem := hover key (mem_sortKeys.mp hkey) c hck
    have hok := ((alphabet_spec halphabet).valid_iff (List.ne_nil_of_mem hmem) c).mpr hmem
    rw [show chars.chars = newValidChars chars.letters from rfl, hok]
    decide
  rw [newTrie, if_neg hne]
  unfold sortKeys at hvalid ⊢
  simp only [hvalid]

/-- The program's own reader and the checked one. -/
def Reader.Known (get : Reader) : Prop :=
  get = CompactBitList.get ∨ get = CompactBitList.getChecked

variable {get : Reader}

theorem Reader.Known.sound (h : get.Known) : get.Sound := by
  rcases h with rfl | rfl
  · exact get_sound
  · exact getChecked_sound

/-- The trie of keys over the alphabet encodes the prefix tree of the sorted keys. -/
theorem newTrie_spec (hget : get.Sound)
    (hne : keys ≠ []) (halphabet : chars.letters.length ≤ 256)
    (hover : ∀ key ∈ keys, ∀ c ∈ key, c ∈ chars.letters) (hfew : (prefixes keys).card ≤ 2 ^ 30) :
    ∃ ss nodes, newTrie get keys chars = some (.ok (some ss)) ∧ ss.Encodes (sortKeys keys) nodes ∧
      ss.chars = chars ∧ nodes.length ≤ 2 ^ 30 ∧ (chars = .validCidrChars →
        Trie.Encodes.At nodes ss.ipv4 (descend (bin128Loop Addr.mappedPrefix 96 0) (sortKeys keys))) := by
  obtain ⟨ss, nodes, hbuild, hspec⟩ := buildTrie_spec (keysOK_sortKeys hne hover)
    halphabet hget (by rwa [prefixes_sortKeys])
  exact ⟨ss, nodes, by rw [newTrie_eq get hne halphabet hover, hbuild]; rfl, hspec⟩

theorem hasPrefix_encodes (hget : get.Sound) {ss : Trie}
    {nodes : List (List Bytes)} (h : ss.Encodes (sortKeys keys) nodes) (hfew : nodes.length ≤ 2 ^ 30)
    (word : Bytes) :
    Trie.hasPrefix get (some ss) word = some (decide (∃ key ∈ keys, key <+: word)) := by
  have hloop := h.hasPrefixLoop_spec hget hfew h.root word
  have hzero : ((start (nodes.map degree) 0 : Nat) : Int) = 0 := rfl
  rw [hzero, Int.natCast_zero] at hloop
  refine hloop.trans (congrArg some ?_)
  have hdescend := exists_prefix_iff_descend (sortKeys_sorted keys) word
  simp only [mem_sortKeys] at hdescend
  rw [Bool.eq_iff_iff, decide_eq_true_iff, hdescend]
  cases descend word (sortKeys keys) with
  | none => simp
  | some T => simp [isLeaf_eq]

/-- **Succinct trie correctness.**  For keys over an alphabet of at most 256 letters and
with at most `2 ^ 30` prefixes, `NewTrie` succeeds and `HasPrefix` tells whether a key is
a prefix of the word; the same with the reader that panics outside of what was written. -/
theorem hasPrefix_newTrie {get : Reader} (hget : get.Known) {keys : List Bytes} {chars : CharsRef}
    (hne : keys ≠ []) (halphabet : chars.letters.length ≤ 256)
    (hover : ∀ key ∈ keys, ∀ c ∈ key, c ∈ chars.letters) (hfew : (prefixes keys).card ≤ 2 ^ 30) :
    ∃ ss, newTrie get keys chars = some (.ok (some ss)) ∧
      ∀ word, Trie.hasPrefix get (some ss) word = some (decide (∃ key ∈ keys, key <+: word)) := by
  obtain ⟨ss, nodes, hnew, hencodes, -, hnodes, -⟩ :=
    newTrie_spec hget.sound hne halphabet hover hfew
  exact ⟨ss, hnew, hasPrefix_encodes hget.sound hencodes hnodes⟩

/-- The keys `ba`, `a` and `ba`. -/
def sampleKeys : List Bytes := [[98, 97], [97], [98, 97]]

theorem hasPrefix_newTrie_sample : ∃ ss,
    newTrie CompactBitList.getChecked sampleKeys (.other [97, 98, 99]) = some (.ok (some ss)) ∧
      ∀ word, Trie.hasPrefix CompactBitList.getChecked (some ss) word =
        some (decide (∃ key ∈ sampleKeys, key <+: word)) :=
  hasPrefix_newTrie (.inr rfl) (List.cons_ne_nil _ _) (by decide)
    (by simp [sampleKeys, CharsRef.letters]) (by decide)

/-! ### More prefixes than the samples can count -/

/-- With `2 ^ 32` ones the last rank wraps to zero, and no unit is left for the others. -/
theorem initIndexes_overflows {bm : List (BitVec 64)} {bits : List Bool} (h : Packs bm bits)
    (htotal : bits.count true = 2 ^ 32) : initIndexes bm = none := by
  have hall := h.count_all
  have hex : ∃ k, k ≤ bm.length ∧ 0 < (bits.take (64 * k)).count true :=
    ⟨bm.length, le_rfl, by omega⟩
  obtain ⟨hk, hpos⟩ := Nat.find_spec hex
  have hmin := fun m => Nat.find_min hex (m := m)
  generalize Nat.find hex = k at hk hpos hmin
  -- the first nonzero rank counts the ones of a single word
  have hle : (bits.take (64 * k)).count true ≤ 64 := by
    cases k with
    | zero => exact absurd hpos (by simp)
    | succ k =>
      have hzero : (bits.take (64 * k)).count true = 0 := by
        by_contra hne
        exact hmin k (Nat.lt_succ_self k) ⟨by omega, Nat.pos_of_ne_zero hne⟩
      rw [Nat.mul_succ, List.take_add, List.count_append, hzero, Nat.zero_add]
      exact List.count_le_length.trans (List.length_take_le _ _)
  have hranks := rankSamples_spec h
  have hlast : (rankSamples bm).getLast? = some 0 := by
    rw [hranks, List.range_succ, List.map_append, List.map_singleton, List.getLast?_concat, hall,
      htotal]
    rfl
  have hmem : BitVec.ofNat 64 ((bits.take (64 * k)).count true) ∈
      (rankSamples bm).map (·.signExtend 64) := by
    rw [hranks, List.map_map]
    refine List.mem_map.mpr ⟨k, List.mem_range.mpr (by omega), ?_⟩
    exact signExtend_ofNat (by omega)
  have hbig : (newCompactBitList (len64 ((0 : BitVec 32).signExtend 64))).unitBitSize <
      len64 (BitVec.ofNat 64 ((bits.take (64 * k)).count true)) := by
    have hunit : (newCompactBitList (len64 ((0 : BitVec 32).signExtend 64))).unitBitSize = 0 := by
      decide
    rw [hunit, len64, BitVec.toNat_ofNat, Nat.mod_eq_of_lt (by omega), Nat.size_pos]
    exact hpos
  have hnone := CompactBitList.appendAll_none (CompactBitList.holds_new _) hmem hbig
  rw [initIndexes, hlast]
  show ((selectSamples bm).1.getLast?).bind _ = none
  cases (selectSamples bm).1.getLast? with
  | none => rfl
  | some last =>
    show ((newCompactBitList _).appendAll _).bind _ = none
    rw [hnone]
    rfl

theorem buildTrie_overflows (get : Reader)
    (hkeys : KeysOK keys chars) (halphabet : chars.letters.length ≤ 256)
    (hmany : (prefixes keys).card = 2 ^ 32) : buildTrie get keys chars = none := by
  obtain ⟨st, nodes, hst, -, -, -, hlength, hholds⟩ := nodeLoop_keys hkeys halphabet
  have hones : (unary (nodes.map degree)).count true = 2 ^ 32 := by
    rw [count_true_unary, List.length_map, hlength, hmany]
  rw [buildTrie, hst]
  show (initIndexes st.labelBitmap).bind _ = none
  rw [initIndexes_overflows hholds.bitmap hones]
  rfl

theorem card_prefixes_key (key : Bytes) : (prefixes [key]).card = key.length + 1 := by
  induction key with
  | nil => rfl
  | cons c key ih =>
    rw [card_prefixes (List.pairwise_singleton _ _) (List.cons_ne_nil _ _)]
    show 1 + (([(c, [key])].map Prod.snd).map _).sum = _
    rw [List.map_singleton, List.map_singleton, List.sum_singleton, ih, List.length_cons]
    omega

variable {n : Nat}

theorem newTrie_long_key (get : Reader) (hn : n + 1 = 2 ^ 32) :
    newTrie get [List.replicate n 97] (.other [97]) = none := by
  have hover : ∀ key ∈ [List.replicate n (97 : UInt8)], ∀ c ∈ key, c ∈ (CharsRef.other [97]).letters := by
    intro key hkey c hc
    cases List.mem_singleton.mp hkey
    exact List.mem_singleton.mpr (List.eq_of_mem_replicate hc)
  have halphabet : (CharsRef.other [97]).letters.length ≤ 256 := by decide
  rw [newTrie_eq get (List.cons_ne_nil _ _) halphabet hover,
    buildTrie_overflows get (keysOK_sortKeys (List.cons_ne_nil _ _) hover) halphabet]
  · rfl
  · rw [prefixes_sortKeys, card_prefixes_key, List.length_replicate, hn]

/-- A single key of `2 ^ 32 - 1` letters makes `NewTrie` panic. -/
theorem newTrie_overflows :
    newTrie CompactBitList.get [List.replicate 4294967295 97] (.other [97]) = none :=
  newTrie_long_key _ rfl

/-! ### A key that reaches beyond 31 bits -/

section Long

variable {get : Reader} {ss : Trie} {key : Bytes} {nodes : List (List Bytes)}

variable {k : Nat}

/-- The nodes of a single key stand in one line. -/
theorem nodes_of_key (h : ss.Encodes [key] nodes) (hk : k ≤ key.length) :
    nodes[k]? = some [key.drop k] ∧ ((nodes.map degree).take k).sum = k := by
  induction k with
  | zero => exact ⟨h.root, rfl⟩
  | succ k ih =>
    obtain ⟨hnode, hsum⟩ := ih (by omega)
    have hdrop := List.drop_eq_getElem_cons (by omega : k < key.length)
    rw [hdrop] at hnode
    have hdeg := Trie.Encodes.degree_getElem? hnode
    refine ⟨?_, ?_⟩
    · have hchild := h.getElem?_childOf hnode (j := 0) Nat.one_pos
      rw [Trie.Encodes.childOf, hsum] at hchild
      exact hchild
    · rw [List.take_add_one, hdeg, List.sum_append, hsum]
      rfl

theorem start_of_key (h : ss.Encodes [key] nodes) (hk : k ≤ key.length) :
    start (nodes.map degree) k = 2 * k := by
  rw [start, (nodes_of_key h hk).2]
  omega

/-- One round of `HasPrefix` along the key. -/
theorem hasPrefixLoop_key (h : ss.Encodes [key] nodes) (hget : get.Sound)
    (hk : k < key.length) : ss.hasPrefixLoop get (key.drop k) k (2 * k : Nat) =
      (ss.nextLevel get (2 * k : Nat)).bind fun next =>
        ss.hasPrefixLoop get (key.drop (k + 1)) next.1 next.2 := by
  have hnode := (nodes_of_key h hk.le).1
  have hdrop := List.drop_eq_getElem_cons hk
  rw [hdrop] at hnode ⊢
  generalize key[k] = c at hnode
  have hc : c ∈ ss.chars.letters :=
    h.letters _ (List.mem_of_getElem? hnode) c List.mem_cons_self
  have hvalid := (h.alphabet.valid_iff (List.ne_nil_of_mem hc) c).mpr hc
  have hfuel : degree [c :: key.drop (k + 1)] - 0 < ss.labelFuel := by
    show 1 < 64 * ss.labelBitmap.length + 1
    have := h.bit_lt (List.getElem?_eq_some_iff.mp (unary_stop (Trie.Encodes.degree_getElem? hnode))).1
    omega
  have hlabel := h.findLabel_spec hget hnode
    (fun label => label.setWidth 8 == (ss.chars.chars.table c).toBitVec) (Nat.zero_le _) hfuel
  have hfirst : ((edgeLetters [c :: key.drop (k + 1)]).drop 0).findIdx?
      (fun d => (ss.chars.chars.label d).setWidth 8 == (ss.chars.chars.table c).toBitVec) = some 0 := by
    show List.findIdx? _ [c] = some 0
    rw [List.findIdx?_cons, ValidChars.label, BitVec.setWidth_setWidth_of_le _ (by omega),
      BitVec.setWidth_eq, beq_self_eq_true]
    rfl
  rw [hfirst, start_of_key h hk.le] at hlabel
  rw [Trie.hasPrefixLoop, h.getBit_leaves hnode,
    show isLeaf [c :: key.drop (k + 1)] = false from rfl, hvalid]
  show (Trie.findLabel get ss k _ ss.labelFuel (2 * k + 0 : Nat)).bind _ = _
  rw [hlabel]
  rfl

/-- Along a key of more than `2 ^ 30` letters `HasPrefix` comes to a sample that reads as a
negative number. -/
theorem hasPrefixLoop_none (h : ss.Encodes [key] nodes) (hget : get.Sound)
    (hlong : 2 ^ 30 < key.length) {j : Nat} (hjk : k + j = 2 ^ 30) :
    ss.hasPrefixLoop get (key.drop k) k (2 * k : Nat) = none := by
  have hlength := h.length_eq
  have hfew := h.few
  induction j generalizing k with
  | zero =>
    obtain rfl : k = 2 ^ 30 := by omega
    have hnode := (nodes_of_key h hlong.le).1
    rw [List.drop_eq_getElem_cons hlong] at hnode
    have hdeg := Trie.Encodes.degree_getElem? hnode
    have hzeros := h.countZeros_childOf hget hnode (j := 0) Nat.one_pos
    rw [Trie.Encodes.childOf, (nodes_of_key h hlong.le).2, start_of_key h hlong.le] at hzeros
    have hstop := unary_stop hdeg
    have hcount := count_unary hdeg le_rfl
    rw [start_of_key h hlong.le] at hstop hcount
    have hselect : selectIthOne get ss.labelBitmap ss.ranksBL ss.selectsBL
        ((64 * 2 ^ 24 : Nat) : Int) = none :=
      selectIthOne_none hget h.selects (by rw [length_unary, List.length_map]; omega) hstop
        hcount (by omega)
    rw [hasPrefixLoop_key h hget hlong, Trie.nextLevel]
    show ((countZeros get ss.labelBitmap ss.ranksBL
      (((2 * 2 ^ 30 + 0 : Nat) : Int) + 1)).bind _).bind _ = none
    rw [hzeros]
    show ((selectIthOne get ss.labelBitmap ss.ranksBL ss.selectsBL
      ((64 * 2 ^ 24 : Nat) : Int)).bind _).bind _ = none
    rw [hselect]
    rfl
  | succ j ih =>
    have hk : k < key.length := by omega
    have hnode := (nodes_of_key h hk.le).1
    rw [List.drop_eq_getElem_cons hk] at hnode
    have hnear : Trie.Encodes.Near nodes k := by
      rw [Trie.Encodes.Near, (nodes_of_key h hk).2, start_of_key h hk]
      omega
    have hnext := h.nextLevel_spec hget hnode (j := 0) Nat.one_pos hnear
    rw [Trie.Encodes.childOf, (nodes_of_key h hk.le).2, start_of_key h hk.le,
      start_of_key h (by omega : k + 0 + 1 ≤ key.length)] at hnext
    rw [hasPrefixLoop_key h hget hk]
    show (ss.nextLevel get ((2 * k + 0 : Nat) : Int)).bind _ = none
    rw [hnext]
    exact ih (by omega)

/-- **A key of more than `2 ^ 30` letters** is accepted by `NewTrie` and makes `HasPrefix`
panic on the key itself. -/
theorem hasPrefix_long_key (hget : get.Sound) {chars : CharsRef}
    (halphabet : chars.letters.length ≤ 256) (hother : chars ≠ .validCidrChars)
    (hover : ∀ c ∈ key, c ∈ chars.letters) (hlong : 2 ^ 30 < key.length)
    (hshort : key.length + 1 < 2 ^ 31) :
    ∃ ss, newTrie get [key] chars = some (.ok (some ss)) ∧
      Trie.hasPrefix get (some ss) key = none := by
  have hkeys : ∀ k ∈ [key], ∀ c ∈ k, c ∈ chars.letters := by
    intro k hk
    cases List.mem_singleton.mp hk
    exact hover
  obtain ⟨ss, nodes, hbuild, hencodes, -⟩ := buildTrie_other
    (keysOK_sortKeys (List.cons_ne_nil _ _) hkeys) halphabet get
    (by rw [prefixes_sortKeys, card_prefixes_key]; exact hshort) hother
  refine ⟨ss, by rw [newTrie_eq get (List.cons_ne_nil _ _) halphabet hkeys, hbuild]; rfl, ?_⟩
  exact hasPrefixLoop_none hencodes hget hlong (by omega : 0 + 2 ^ 30 = 2 ^ 30)

end Long

/-! ### Addresses -/

theorem bin128Loop_prefix_iff (x a : BitVec 128) (m n i : Nat) :
    bin128Loop x m i <+: bin128Loop a n i ↔
      m ≤ n ∧ ∀ k, i ≤ k → k < i + m → x.getMsbD k = a.getMsbD k := by
  induction m generalizing n i with
  | zero => exact iff_of_true List.nil_prefix ⟨Nat.zero_le n, fun k h h' => by omega⟩
  | succ m ih =>
    cases n with
    | zero => exact iff_of_false (by simp [bin128Loop]) (by omega)
    | succ n =>
      have hdigit : (if x.getMsbD i = true then (49 : UInt8) else 48) =
          (if a.getMsbD i = true then 49 else 48) ↔ x.getMsbD i = a.getMsbD i := by
        cases x.getMsbD i <;> cases a.getMsbD i <;> decide
      rw [bin128Loop, bin128Loop, List.cons_prefix_cons, hdigit, ih]
      constructor
      · rintro ⟨hi, hmn, hall⟩
        refine ⟨by omega, ?_⟩
        intro k hk hk'
        rcases Nat.eq_or_lt_of_le hk with rfl | hk
        · exact hi
        · exact hall k hk (by omega)
      · rintro ⟨hmn, hall⟩
        exact ⟨hall i le_rfl (by omega), by omega, fun k hk hk' => hall k (by omega) (by omega)⟩

theorem length_bin128Loop (x : BitVec 128) (n i : Nat) : (bin128Loop x n i).length = n := by
  induction n generalizing i with
  | zero => rfl
  | succ n ih => rw [bin128Loop, List.length_cons, ih]

theorem bin128Loop_add (x : BitVec 128) (m n i : Nat) :
    bin128Loop x (m + n) i = bin128Loop x m i ++ bin128Loop x n (i + m) := by
  induction m generalizing i with
  | zero => simp [bin128Loop]
  | succ m ih =>
    rw [Nat.succ_add, bin128Loop, ih, bin128Loop, List.cons_append, Nat.succ_add_eq_add_succ]

/-- The shifted difference vanishes exactly when the leading bits agree. -/
theorem xor_ushiftRight_eq_zero (x a : BitVec 128) (hn : n ≤ 128) :
    (x ^^^ a) >>> (128 - n) = 0 ↔ ∀ k, k < n → x.getMsbD k = a.getMsbD k := by
  constructor
  · intro h k hk
    have hbit := congrArg (fun y : BitVec 128 => y.getLsbD (n - 1 - k)) h
    simp only [BitVec.getLsbD_ushiftRight, BitVec.getLsbD_xor] at hbit
    rw [show 128 - n + (n - 1 - k) = 127 - k by omega] at hbit
    rw [BitVec.getMsbD_eq_getLsbD, BitVec.getMsbD_eq_getLsbD]
    simp only [show k < 128 by omega, decide_true, Bool.true_and]
    rw [show 128 - 1 - k = 127 - k by omega]
    simpa using hbit
  · intro h
    apply BitVec.eq_of_getLsbD_eq
    intro i hi
    rw [BitVec.getLsbD_ushiftRight, BitVec.getLsbD_xor]
    by_cases hin : i < n
    · have hbit := h (n - 1 - i) (by omega)
      rw [BitVec.getMsbD_eq_getLsbD, BitVec.getMsbD_eq_getLsbD] at hbit
      simp only [show n - 1 - i < 128 by omega, decide_true, Bool.true_and] at hbit
      rw [show 128 - 1 - (n - 1 - i) = 128 - n + i by omega] at hbit
      simp [hbit]
    · rw [BitVec.getLsbD_of_ge x _ (by omega), BitVec.getLsbD_of_ge a _ (by omega)]
      simp

theorem len128_le (p : Prefix) : p.len128 ≤ 128 := by
  have hvalid := p.valid
  rw [Prefix.len128]
  cases haddr : p.addr with
  | v4 x => rw [haddr] at hvalid; exact Nat.add_le_add_right hvalid 96
  | v6 x => rw [haddr] at hvalid; exact hvalid

/-- A key is a prefix of the digits exactly when its prefix contains the address. -/
theorem prefix2bin128_prefix (p : Prefix) (address : BitVec 128) :
    prefix2bin128 p <+: bin128Loop address 128 0 ↔ p.contains16 address = true := by
  rw [show prefix2bin128 p = bin128Loop p.addr.as16 p.len128 0 from rfl, bin128Loop_prefix_iff,
    Prefix.contains16, beq_iff_eq, xor_ushiftRight_eq_zero _ _ (len128_le p)]
  constructor
  · rintro ⟨-, hall⟩ k hk
    exact hall k (Nat.zero_le k) (by omega)
  · intro hall
    exact ⟨len128_le p, fun k _ hk => hall k (by omega)⟩

theorem bin128Loop_mapped {address : BitVec 128} (h : (Addr.v6 address).is4In6 = true) :
    bin128Loop Addr.mappedPrefix 96 0 = bin128Loop address 96 0 := by
  have hshift : (Addr.mappedPrefix ^^^ address) >>> (128 - 96) = 0 := by
    rw [Addr.is4In6, beq_iff_eq] at h
    show (Addr.mappedPrefix ^^^ address) >>> 32 = 0
    rw [BitVec.ushiftRight_xor_distrib, h]
    exact BitVec.xor_self
  have hall := (xor_ushiftRight_eq_zero Addr.mappedPrefix address (by omega)).mp hshift
  refine List.IsPrefix.eq_of_length ?_ (by rw [length_bin128Loop, length_bin128Loop])
  exact (bin128Loop_prefix_iff _ _ _ _ _).mpr ⟨le_rfl, fun k _ hk => hall k (by omega)⟩

theorem hasPrefixIP_encodes (hget : get.Sound) {ss : Trie}
    {nodes : List (List Bytes)} (h : ss.Encodes keys nodes) (hfew : nodes.length ≤ 2 ^ 30)
    (hcidr : ss.chars = .validCidrChars)
    (hipv4 : Trie.Encodes.At nodes ss.ipv4 (descend (bin128Loop Addr.mappedPrefix 96 0) keys))
    (address : BitVec 128) : Trie.hasPrefixIP get (some ss) address =
      some ((descend (bin128Loop address 128 0) keys).any isLeaf) := by
  -- both ways to start end where the digits lead
  have hcursor : ∃ cursor, ss.seekIP get address
        (if (Addr.v6 address).is4In6 = true then (ss.ipv4, 96) else ({ node := 0, bitmap := 0 }, 0)).2
        128
        (if (Addr.v6 address).is4In6 = true then (ss.ipv4, 96)
          else ({ node := 0, bitmap := 0 }, 0)).1 = some cursor ∧
      Trie.Encodes.At nodes cursor (descend (bin128Loop address 128 0) keys) := by
    by_cases hmapped : (Addr.v6 address).is4In6 = true
    · rw [if_pos hmapped]
      rw [bin128Loop_mapped hmapped] at hipv4
      rw [show (128 : Nat) = 96 + 32 from rfl, bin128Loop_add, descend_append]
      cases hway : descend (bin128Loop address 96 0) keys with
      | none =>
        rw [hway] at hipv4
        refine ⟨ss.ipv4, ?_, hipv4⟩
        rw [Trie.seekIP, show ss.ipv4 = { node := -1, bitmap := 0 } from hipv4]
        rfl
      | some S =>
        rw [hway] at hipv4
        obtain ⟨n, hn, hS⟩ := hipv4
        obtain ⟨cursor, hcursor, hat⟩ := h.seekIPLoop_spec hget hfew hcidr address hS 32 96
        refine ⟨cursor, ?_, hat⟩
        rw [Trie.seekIP, hn]
        exact (if_neg (by show ¬ ((n : Int) < 0); omega)).trans hcursor
    · rw [if_neg hmapped]
      exact h.seekIPLoop_spec hget hfew hcidr address h.root 128 0
  obtain ⟨cursor, hcursor, hat⟩ := hcursor
  rw [Trie.hasPrefixIP]
  simp only [hcidr, ne_eq, not_true_eq_false, if_false, hcursor, Option.bind_eq_bind, Option.bind_some]
  cases hway : descend (bin128Loop address 128 0) keys with
  | none =>
    rw [hway] at hat
    rw [show cursor = { node := -1, bitmap := 0 } from hat]
    rfl
  | some S =>
    rw [hway] at hat
    obtain ⟨n, rfl, hS⟩ := hat
    rw [if_pos (by show 0 ≤ (n : Int); omega)]
    exact h.getBit_leaves hS

/-- **Lookups of addresses.**  For prefixes whose keys have at most `2 ^ 30` prefixes, both
`HasPrefixIP` of an address and `HasPrefix` of its binary digits tell whether one of the
prefixes contains it. -/
theorem hasPrefixIP_newTrieFromPrefixes {get : Reader} (hget : get.Known) {cidrs : List Prefix}
    (hfew : (prefixes (cidrs.map prefix2bin128)).card ≤ 2 ^ 30) :
    ∃ ss, newTrieFromPrefixes get cidrs = some (.ok ss) ∧ ∀ address,
      Trie.hasPrefixIP get ss address = some (lpmContains cidrs address) ∧
      Trie.hasPrefix get ss (prefix2bin128 (.single (.v6 address))) =
        some (lpmContains cidrs address) := by
  by_cases hnil : cidrs = []
  · subst hnil
    exact ⟨none, rfl, fun address => ⟨rfl, rfl⟩⟩
  have hne : cidrs.map prefix2bin128 ≠ [] := by simpa using hnil
  have hdigits : ∀ (x : BitVec 128) n i, ∀ c ∈ bin128Loop x n i,
      c ∈ CharsRef.validCidrChars.letters := by
    intro x n i
    induction n generalizing i with
    | zero => simp [bin128Loop]
    | succ n ih =>
      intro c hc
      rcases List.mem_cons.mp hc with rfl | hc
      · split <;> decide
      · exact ih (i + 1) c hc
  have hover : ∀ key ∈ cidrs.map prefix2bin128, ∀ c ∈ key, c ∈ CharsRef.validCidrChars.letters := by
    intro key hkey
    obtain ⟨p, -, rfl⟩ := List.mem_map.mp hkey
    exact hdigits _ _ _
  have halphabet : CharsRef.validCidrChars.letters.length ≤ 256 := by decide
  obtain ⟨ss, nodes, hnew, hencodes, hchars, hnodes, hipv4⟩ :=
    newTrie_spec hget.sound hne halphabet hover hfew
  refine ⟨some ss, hnew, ?_⟩
  intro address
  have hword : prefix2bin128 (.single (.v6 address)) = bin128Loop address 128 0 := rfl
  have hprefix := hasPrefix_encodes hget.sound hencodes hnodes (bin128Loop address 128 0)
  have hcontains : decide (∃ key ∈ cidrs.map prefix2bin128,
      key <+: bin128Loop address 128 0) = lpmContains cidrs address := by
    rw [Bool.eq_iff_iff, decide_eq_true_iff, lpmContains, List.any_eq_true]
    simp only [List.mem_map, exists_exists_and_eq_and, prefix2bin128_prefix]
  rw [hcontains] at hprefix
  refine ⟨?_, by rw [hword]; exact hprefix⟩
  have hloop := hencodes.hasPrefixLoop_spec hget.sound hnodes hencodes.root (bin128Loop address 128 0)
  rw [hasPrefixIP_encodes hget.sound hencodes hnodes hchars (hipv4 rfl), ← hloop]
  exact hprefix

/-- `10.0.0.0/8`, `::/16` and `::ffff:0:0/95`. -/
def sampleCidrs : List Prefix :=
  [⟨.v4 0x0a000000, 8, by decide⟩, ⟨.v6 0, 16, by decide⟩, ⟨.v6 0xffff00000000, 95, by decide⟩]

theorem hasPrefixIP_newTrieFromPrefixes_sample : ∃ ss,
    newTrieFromPrefixes CompactBitList.get sampleCidrs = some (.ok ss) ∧ ∀ address,
      Trie.hasPrefixIP CompactBitList.get ss address = some (lpmContains sampleCidrs address) ∧
      Trie.hasPrefix CompactBitList.get ss (prefix2bin128 (.single (.v6 address))) =
        some (lpmContains sampleCidrs address) :=
  hasPrefixIP_newTrieFromPrefixes (.inl rfl) ((card_prefixes_le _).trans (by decide))

/-! ### More prefixes than the samples can count, once more -/

/-- The keys below a zero and below a one. -/
def fork (zero one : List Bytes) : List Bytes := zero.map (48 :: ·) ++ one.map (49 :: ·)

/-- Sorted binary keys of at most so many digits. -/
structure BinaryKeys (keys : List Bytes) (n : Nat) : Prop where
  ok : KeysOK keys .validCidrChars
  short : ∀ key ∈ keys, key.length ≤ n

theorem BinaryKeys.fork {zero one : List Bytes} (hzero : BinaryKeys zero n)
    (hone : BinaryKeys one n) : BinaryKeys (fork zero one) (n + 1) ∧
      (prefixes (fork zero one)).card = 1 + (prefixes zero).card + (prefixes one).card := by
  have hkeys : ∀ key ∈ Dae.fork zero one, ∃ c ∈ CharsRef.validCidrChars.letters, ∃ t,
      key = c :: t ∧ (t ∈ zero ∨ t ∈ one) := by
    intro key hkey
    rcases List.mem_append.mp hkey with hkey | hkey
    · obtain ⟨t, ht, rfl⟩ := List.mem_map.mp hkey
      exact ⟨48, by decide, t, rfl, .inl ht⟩
    · obtain ⟨t, ht, rfl⟩ := List.mem_map.mp hkey
      exact ⟨49, by decide, t, rfl, .inr ht⟩
  have hsorted : (Dae.fork zero one).Pairwise (· < ·) := by
    refine List.pairwise_append.mpr ⟨?_, ?_, ?_⟩
    · exact List.pairwise_map.mpr (hzero.ok.sorted.imp fun hlt => List.cons_lt_cons_self.mpr hlt)
    · exact List.pairwise_map.mpr (hone.ok.sorted.imp fun hlt => List.cons_lt_cons_self.mpr hlt)
    · intro a ha b hb
      obtain ⟨t, -, rfl⟩ := List.mem_map.mp ha
      obtain ⟨u, -, rfl⟩ := List.mem_map.mp hb
      exact List.cons_lt_cons_iff.mpr (.inl (by decide))
  obtain ⟨z, zs, hz⟩ := List.exists_cons_of_ne_nil hzero.ok.nonempty
  obtain ⟨o, os, ho⟩ := List.exists_cons_of_ne_nil hone.ok.nonempty
  have hne : Dae.fork zero one ≠ [] := by
    rw [Dae.fork, hz]
    exact List.cons_ne_nil _ _
  refine ⟨⟨⟨hsorted, hne, ?_⟩, ?_⟩, ?_⟩
  · intro key hkey c hc
    obtain ⟨d, hd, t, rfl, ht⟩ := hkeys key hkey
    rcases List.mem_cons.mp hc with rfl | hc
    · exact hd
    · rcases ht with ht | ht
      · exact hzero.ok.letters t ht c hc
      · exact hone.ok.letters t ht c hc
  · intro key hkey
    obtain ⟨d, -, t, rfl, ht⟩ := hkeys key hkey
    have : t.length ≤ n := ht.elim (hzero.short t) (hone.short t)
    rw [List.length_cons]
    omega
  · have hone' : branches (one.map (49 :: ·)) = [(49, one)] := by
      have hrun : branches ((o :: os).map ((49 : UInt8) :: ·) ++ []) = (49, o :: os) :: branches [] :=
        branches_run (by simp)
      rwa [List.append_nil, ← ho] at hrun
    have hbranches : branches (Dae.fork zero one) = [(48, zero), (49, one)] := by
      rw [Dae.fork, ← hone', hz]
      refine branches_run ?_
      intro s hs
      rw [ho] at hs
      cases hs
      exact ⟨49, o, rfl, by decide⟩
    rw [card_prefixes hsorted hne, hbranches]
    simp
    omega

/-- All keys of `d` digits. -/
def fullKeys : Nat → List Bytes
  | 0 => [[]]
  | d + 1 => fork (fullKeys d) (fullKeys d)

/-- All keys of `d` digits, the first of them with one digit more. -/
def deepKeys : Nat → List Bytes
  | 0 => [[48]]
  | d + 1 => fork (deepKeys d) (fullKeys d)

theorem fullKeys_spec (d : Nat) :
    BinaryKeys (fullKeys d) d ∧ (prefixes (fullKeys d)).card + 1 = 2 ^ (d + 1) := by
  induction d with
  | zero =>
    exact ⟨⟨⟨List.pairwise_singleton _ _, by decide, by simp [fullKeys, CharsRef.letters]⟩, by decide⟩,
      by decide⟩
  | succ d ih =>
    obtain ⟨hkeys, hcard⟩ := ih.1.fork ih.1
    refine ⟨hkeys, ?_⟩
    rw [fullKeys, hcard, pow_succ]
    omega

theorem deepKeys_spec (d : Nat) :
    BinaryKeys (deepKeys d) (d + 1) ∧ (prefixes (deepKeys d)).card = 2 ^ (d + 1) := by
  induction d with
  | zero =>
    exact ⟨⟨⟨List.pairwise_singleton _ _, by decide, by simp [deepKeys, CharsRef.letters]⟩, by decide⟩,
      by decide⟩
  | succ d ih =>
    obtain ⟨hfull, hfullCard⟩ := fullKeys_spec d
    obtain ⟨hkeys, hcard⟩ :=
      ih.1.fork ⟨hfull.ok, fun key hkey => (hfull.short key hkey).trans (Nat.le_succ d)⟩
    refine ⟨hkeys, ?_⟩
    rw [deepKeys, hcard, ih.2, pow_succ 2 (d + 1)]
    omega

/-- The address whose bits from bit `i` on are the digits. -/
def addrOf : Bytes → Nat → BitVec 128
  | [], _ => 0
  | c :: key, i => (if c = 49 then 1#128 <<< (127 - i) else 0) ||| addrOf key (i + 1)

theorem getMsbD_addrOf {i : Nat} (hlen : i + key.length ≤ 128) {k : Nat} (hk : k < 128) :
    (addrOf key i).getMsbD k = decide (i ≤ k ∧ key[k - i]? = some 49) := by
  induction key generalizing i with
  | nil => simp [addrOf]
  | cons c key ih =>
    rw [List.length_cons] at hlen
    have hfirst : (if c = 49 then 1#128 <<< (127 - i) else 0).getMsbD k =
        decide (k = i ∧ c = 49) := by
      by_cases hc : c = 49
      · rw [if_pos hc, BitVec.getMsbD_eq_getLsbD, BitVec.getLsbD_shiftLeft, BitVec.getLsbD_one]
        rw [Bool.eq_iff_iff]
        simp [hc, hk]
        omega
      · rw [if_neg hc]
        simp [hc]
    rw [addrOf, BitVec.getMsbD_or, ih (by omega), hfirst, Bool.eq_iff_iff]
    simp only [Bool.or_eq_true, decide_eq_true_iff]
    rcases Nat.lt_trichotomy k i with hlt | rfl | hgt
    · omega
    · simp
    · rw [show k - i = k - (i + 1) + 1 by omega, List.getElem?_cons_succ]
      simp only [hgt.ne', hgt.le, Nat.succ_le_of_lt hgt, false_and, false_or, true_and]

/-- The IPv6 prefix with these digits. -/
def prefixOf (key : Bytes) : Prefix := ⟨.v6 (addrOf key 0), min key.length 128, min_le_right _ _⟩

theorem bin128Loop_addrOf {x : BitVec 128} {i : Nat}
    (hletters : ∀ c ∈ key, c ∈ CharsRef.validCidrChars.letters)
    (hx : ∀ k, k < key.length → x.getMsbD (i + k) = decide (key[k]? = some 49)) :
    bin128Loop x key.length i = key := by
  induction key generalizing i with
  | nil => rfl
  | cons c key ih =>
    have hfirst := hx 0 (Nat.succ_pos _)
    rw [Nat.add_zero, List.getElem?_cons_zero] at hfirst
    rw [List.length_cons, bin128Loop, hfirst,
      ih (fun d hd => hletters d (List.mem_cons_of_mem c hd)) fun k hk => ?_]
    · congr 1
      rcases List.mem_pair.mp (hletters c List.mem_cons_self) with rfl | rfl <;> decide
    · have := hx (k + 1) (Nat.succ_lt_succ hk)
      rwa [List.getElem?_cons_succ, ← Nat.add_assoc, Nat.add_right_comm] at this

theorem prefix2bin128_prefixOf (hshort : key.length ≤ 128)
    (hletters : ∀ c ∈ key, c ∈ CharsRef.validCidrChars.letters) :
    prefix2bin128 (prefixOf key) = key := by
  show bin128Loop (addrOf key 0) (min key.length 128) 0 = key
  rw [Nat.min_eq_left hshort]
  refine bin128Loop_addrOf hletters fun k hk => ?_
  rw [Nat.zero_add, getMsbD_addrOf (by omega) (by omega)]
  simp

theorem newTrieFromPrefixes_deep (get : Reader) {d : Nat} (hd : d = 31) :
    newTrieFromPrefixes get ((deepKeys d).map prefixOf) = none := by
  obtain ⟨hkeys, hcard⟩ := deepKeys_spec d
  have hmap : ((deepKeys d).map prefixOf).map prefix2bin128 = deepKeys d := by
    rw [List.map_map]
    conv_rhs => rw [← List.map_id (deepKeys d)]
    refine List.map_congr_left fun key hkey => ?_
    have := hkeys.short key hkey
    exact prefix2bin128_prefixOf (by omega) (hkeys.ok.letters key hkey)
  have halphabet : CharsRef.validCidrChars.letters.length ≤ 256 := by decide
  rw [newTrieFromPrefixes, hmap, newTrie_eq get hkeys.ok.nonempty halphabet hkeys.ok.letters,
    buildTrie_overflows get (keysOK_sortKeys hkeys.ok.nonempty hkeys.ok.letters) halphabet]
  · rfl
  · rw [prefixes_sortKeys, hcard, hd]

/-- All prefixes of 31 bits, the first of them with one bit more, make
`NewTrieFromPrefixes` panic. -/
theorem newTrieFromPrefixes_overflows :
    newTrieFromPrefixes CompactBitList.get ((deepKeys 31).map prefixOf) = none :=
  newTrieFromPrefixes_deep _ rfl

end Dae
