import Dae.Lib.LevelOrder
import Dae.Lib.PrefixTree
import Dae.Trie.Trie

/-!
# Building the trie

The loop of `NewTrie` visits the nodes of the prefix tree of the sorted keys in level
order and writes down their degrees, their letters and whether a key ends at them.
-/

namespace Dae

open BitWords PrefixTree LevelOrder

/-! ### Alphabets -/

/-- The numbers an alphabet gives to its letters. -/
structure ValidChars.Numbers (v : ValidChars) (letters : Bytes) : Prop where
  count : v.n.toNat = letters.length
  bound : ∀ c ∈ letters, (v.table c).toNat < letters.length
  other : ∀ c, c ∉ letters → v.table c = 0
  injective : ∀ c ∈ letters, ∀ d ∈ letters, v.table c = v.table d → c = d
  zero : letters ≠ [] → v.zeroChar ∈ letters ∧ ∀ c ∈ letters, v.table c = 0 → c = v.zeroChar

variable {letters : Bytes}

/-- **Alphabets** of at most 256 letters number their letters one to one. -/
theorem alphabet_spec (h : letters.length ≤ 256) :
    (newValidChars letters).Numbers letters := by
  induction letters using List.reverseRecOn with
  | nil => exact ⟨rfl, by simp, fun _ _ => rfl, by simp, fun h => absurd rfl h⟩
  | append_singleton letters c ih =>
    rw [List.length_append, List.length_singleton] at h
    have hv := ih (by omega)
    rw [newValidChars, List.foldl_append, ← newValidChars]
    generalize newValidChars letters = v at hv
    have hcount := hv.count
    have hnew : v.n.toUInt8.toNat = letters.length := by
      rw [UInt16.toNat_toUInt8, hcount, Nat.mod_eq_of_lt (by omega)]
    have hold : ∀ d ∈ letters, v.table d ≠ v.n.toUInt8 := by
      intro d hd heq
      have := hv.bound d hd
      rw [heq, hnew] at this
      omega
    refine ⟨?_, ?_, ?_, ?_, ?_⟩
    · show (v.n + 1).toNat = _
      rw [UInt16.toNat_add, hcount, List.length_append, List.length_singleton]
      show (letters.length + 1) % 2 ^ 16 = _
      exact Nat.mod_eq_of_lt (by omega)
    · intro d hd
      rw [List.length_append, List.length_singleton]
      show (Function.update v.table c v.n.toUInt8 d).toNat < _
      by_cases hdc : d = c
      · rw [hdc, Function.update_self, hnew]
        omega
      · rw [Function.update_of_ne hdc]
        have := hv.bound d (by simpa [hdc] using hd)
        omega
    · intro d hd
      show Function.update v.table c v.n.toUInt8 d = 0
      rw [List.mem_append, List.mem_singleton, not_or] at hd
      rw [Function.update_of_ne hd.2]
      exact hv.other d hd.1
    · intro d hd e he heq
      change Function.update v.table c v.n.toUInt8 d = Function.update v.table c v.n.toUInt8 e at heq
      by_cases hdc : d = c
      · by_cases hec : e = c
        · rw [hdc, hec]
        · rw [hdc, Function.update_self, Function.update_of_ne hec] at heq
          exact absurd heq.symm (hold e (by simpa [hec] using he))
      · rw [Function.update_of_ne hdc] at heq
        by_cases hec : e = c
        · rw [hec, Function.update_self] at heq
          exact absurd heq (hold d (by simpa [hdc] using hd))
        · rw [Function.update_of_ne hec] at heq
          exact hv.injective d (by simpa [hdc] using hd) e (by simpa [hec] using he) heq
    · intro _
      show (if v.n = 0 then c else v.zeroChar) ∈ letters ++ [c] ∧
        ∀ d ∈ letters ++ [c], Function.update v.table c v.n.toUInt8 d = 0 →
          d = if v.n = 0 then c else v.zeroChar
      by_cases hnil : letters = []
      · subst hnil
        have hzero : v.n = 0 := UInt16.toNat_inj.mp hcount
        rw [if_pos hzero]
        simp
      · have hpos : 0 < letters.length := List.length_pos_iff.mpr hnil
        have hzero : v.n ≠ 0 := by
          intro hn
          rw [hn] at hcount
          change 0 = letters.length at hcount
          omega
        obtain ⟨hmem, hunique⟩ := hv.zero hnil
        rw [if_neg hzero]
        refine ⟨List.mem_append_left _ hmem, ?_⟩
        intro d hd htable
        by_cases hdc : d = c
        · rw [hdc, Function.update_self] at htable
          rw [htable] at hnew
          change 0 = letters.length at hnew
          omega
        · rw [Function.update_of_ne hdc] at htable
          exact hunique d (by simpa [hdc] using hd) htable

/-- Exactly the letters are valid. -/
theorem ValidChars.Numbers.valid_iff {v : ValidChars} (h : v.Numbers letters)
    (hne : letters ≠ []) (c : UInt8) : v.isValidChar c = true ↔ c ∈ letters := by
  obtain ⟨hmem, hunique⟩ := h.zero hne
  rw [isValidChar, Bool.or_eq_true, decide_eq_true_iff, beq_iff_eq]
  constructor
  · rintro (hpos | rfl)
    · by_contra hc
      rw [h.other c hc] at hpos
      exact absurd hpos (by decide)
    · exact hmem
  · intro hc
    by_cases hzero : v.table c = 0
    · exact .inr (hunique c hc hzero)
    · left
      rw [UInt8.lt_iff_toNat_lt]
      exact Nat.pos_of_ne_zero fun h0 => hzero (UInt8.toNat_inj.mp h0)

/-- The label of a letter, as the trie stores it. -/
def ValidChars.label (v : ValidChars) (c : UInt8) : BitVec 64 := (v.table c).toBitVec.setWidth 64

theorem ValidChars.toNat_label (v : ValidChars) (c : UInt8) :
    (v.label c).toNat = (v.table c).toNat := by
  rw [label, BitVec.toNat_setWidth]
  exact Nat.mod_eq_of_lt (lt_trans (v.table c).toBitVec.isLt (by decide))

variable {c : UInt8}

theorem ValidChars.Numbers.len64_label {v : ValidChars} (h : v.Numbers letters)
    (hc : c ∈ letters) : len64 (v.label c) ≤ Nat.size v.size := by
  rw [len64, ValidChars.toNat_label]
  refine Nat.size_le_size (Nat.le_of_lt ?_)
  rw [ValidChars.size, h.count]
  exact h.bound c hc

/-! ### Bitmaps -/

/-- The bitmap holds the bits; it need not have room for zeros at the end. -/
structure Packs (bm : List (BitVec 64)) (bits : List Bool) : Prop where
  bit : ∀ p, BitWords.bit bm p = bits.getD p false
  room : ∀ p, bits[p]? = some true → p < 64 * bm.length

theorem packs_nil : Packs [] [] := ⟨fun p => by simp [BitWords.bit], by simp⟩

theorem length_setBit (bm : List (BitVec 64)) (i : Nat) (v : Bool) :
    (setBit bm i v).length = max bm.length (i / 64 + 1) := by
  rw [setBit, List.length_modify, List.length_append, List.length_replicate]
  omega

theorem bit_setBit (bm : List (BitVec 64)) (i : Nat) (v : Bool) (p : Nat) :
    BitWords.bit (setBit bm i v) p = (BitWords.bit bm p || (v && decide (p = i))) := by
  have hp : p % 64 < 64 := Nat.mod_lt p (by omega)
  rw [← bit_append_zeros bm (i / 64 + 1 - bm.length) p, setBit, BitWords.bit, BitWords.bit,
    List.getD_eq_getElem?_getD, List.getD_eq_getElem?_getD, List.getElem?_modify]
  by_cases hword : i / 64 = p / 64
  · have hroom : p / 64 < (bm ++ List.replicate (i / 64 + 1 - bm.length) (0 : BitVec 64)).length := by
      rw [List.length_append, List.length_replicate]
      omega
    rw [List.getElem?_eq_getElem hroom]
    simp only [hword, if_true, Option.map_eq_map, Option.map_some, Option.getD_some,
      BitVec.getLsbD_or, BitVec.getLsbD_shiftLeft, BitVec.getLsbD_setWidth, hp, decide_true,
      Bool.true_and]
    congr 1
    by_cases hpi : p = i
    · subst hpi
      cases v <;> simp
    · have hne : p % 64 < i % 64 ∨ 0 < p % 64 - i % 64 := by omega
      rcases hne with hlt | hgt
      · simp [hpi, hlt]
      · rw [BitVec.getLsbD_of_ge (BitVec.ofBool v) (p % 64 - i % 64) hgt]
        simp [hpi]
  · have hpi : ¬ p = i := by
      rintro rfl
      exact hword rfl
    simp [hword, hpi]

variable {bm : List (BitVec 64)} {bits : List Bool}

/-- The next bit is set. -/
theorem Packs.setBit (h : Packs bm bits) (v : Bool) :
    Packs (setBit bm bits.length v) (bits ++ [v]) := by
  refine ⟨?_, ?_⟩
  · intro p
    rw [bit_setBit, h.bit, List.getD_eq_getElem?_getD, List.getD_eq_getElem?_getD]
    rcases Nat.lt_trichotomy p bits.length with hp | rfl | hp
    · rw [List.getElem?_append_left hp]
      simp [hp.ne]
    · simp
    · rw [List.getElem?_eq_none (by omega : bits.length ≤ p), List.getElem?_eq_none (by simp; omega)]
      simp [hp.ne']
  · intro p hp
    obtain ⟨hlt, -⟩ := List.getElem?_eq_some_iff.mp hp
    rw [List.length_append, List.length_singleton] at hlt
    rw [length_setBit]
    omega

/-- A zero need not be written. -/
theorem Packs.skip (h : Packs bm bits) :
    Packs bm (bits ++ [false]) := by
  refine ⟨?_, ?_⟩
  · intro p
    rw [← (h.setBit false).bit, bit_setBit, Bool.false_and, Bool.or_false]
  · intro p hp
    rw [List.getElem?_append] at hp
    split at hp
    · exact h.room p hp
    · cases List.mem_singleton.mp (List.mem_of_getElem? hp)

variable {p : Nat}

theorem Packs.getBit (h : Packs bm bits)
    (hp : p < 64 * bm.length) : getBit bm p = some (bits.getD p false) := by
  have hdiv : ((p : Int) / 64) = ((p / 64 : Nat) : Int) := by push_cast; rfl
  have hmod : ((p : Int) % 64).toNat = p % 64 := by omega
  have hword : index bm ((p / 64 : Nat) : Int) = some bm[p / 64] := by
    rw [index, if_neg (by omega), Int.toNat_natCast, List.getElem?_eq_getElem]
  rw [Dae.getBit, hdiv, hword, hmod, ← h.bit p, BitWords.bit, List.getD_eq_getElem?_getD,
    List.getElem?_eq_getElem (by omega : p / 64 < bm.length), Option.getD_some]
  exact congrArg some (test_bit _ (Nat.mod_lt p (by omega)))

/-! ### The keys of a node -/

/-- What is left of the keys from `j` to `e` behind column `col`. -/
def rests (keys : List Bytes) (j e col : Nat) : List Bytes :=
  ((keys.take e).drop j).map (List.drop col)

theorem rests_self (keys : List Bytes) (e col : Nat) : rests keys e e col = [] := by
  rw [rests, List.drop_eq_nil_of_le (List.length_take_le e keys), List.map_nil]

variable {keys : List Bytes} {j : Nat}

theorem rests_cons {e : Nat} (col : Nat) (hj : j < e) (he : e ≤ keys.length) :
    ∃ key, keys[j]? = some key ∧ rests keys j e col = key.drop col :: rests keys (j + 1) e col := by
  have hlt : j < (keys.take e).length := by
    rw [List.length_take]
    omega
  refine ⟨keys[j], List.getElem?_eq_getElem (by omega), ?_⟩
  rw [rests, List.drop_eq_getElem_cons hlt, List.map_cons, List.getElem_take]
  rfl

variable {col : Nat}

theorem charAt_eq {key : Bytes} (h : keys[j]? = some key) :
    charAt keys j col = (key.drop col).head? := by
  rw [charAt, h, List.head?_drop]
  rfl

variable {m : Nat}

theorem rests_split {e : Nat} (col : Nat) (hjm : j ≤ m) (hme : m ≤ e)
    (he : e ≤ keys.length) : rests keys j e col = rests keys j m col ++ rests keys m e col := by
  induction hjm using Nat.decreasingInduction with
  | self => rw [rests_self, List.nil_append]
  | of_succ k hk ih =>
    obtain ⟨key, hkey, hrests⟩ := rests_cons col (by omega : k < e) he
    obtain ⟨key', hkey', hrests'⟩ := rests_cons col hk (by omega : m ≤ keys.length)
    rw [hkey] at hkey'
    cases hkey'
    rw [hrests, hrests', ih, List.cons_append]

/-- Behind a common letter stand the rests one column on. -/
theorem map_cons_rests (hjm : j ≤ m)
    (hm : m ≤ keys.length) (h : ∀ k, j ≤ k → k < m → charAt keys k col = some c) :
    rests keys j m col = (rests keys j m (col + 1)).map (c :: ·) := by
  induction hjm using Nat.decreasingInduction with
  | self => rw [rests_self, rests_self, List.map_nil]
  | of_succ k hk ih =>
    obtain ⟨key, hkey, hrests⟩ := rests_cons col hk hm
    obtain ⟨key', hkey', hrests'⟩ := rests_cons (col + 1) hk hm
    rw [hkey] at hkey'
    cases hkey'
    have hc := h k le_rfl hk
    rw [charAt_eq hkey] at hc
    obtain ⟨t, ht⟩ := List.head?_eq_some_iff.mp hc
    have htail : key.drop (col + 1) = t := by
      rw [← List.tail_drop, ht, List.tail_cons]
    rw [hrests, hrests', ih fun k' hk' => h k' (by omega), List.map_cons, ht, htail]

/-- The run of keys with one letter, and what stops it. -/
theorem runEnd_spec {rounds : Nat}
    (hroom : j + rounds ≤ keys.length) (hne : [] ∉ rests keys j (j + rounds) col) :
    ∃ m, runEnd keys col c rounds j = some m ∧ j ≤ m ∧ m ≤ j + rounds ∧
      (∀ k, j ≤ k → k < m → charAt keys k col = some c) ∧
      ∀ s, (rests keys m (j + rounds) col).head? = some s → ∃ d u, s = d :: u ∧ d ≠ c := by
  induction rounds generalizing j with
  | zero =>
    refine ⟨j, rfl, le_rfl, le_rfl, by intro k h h'; omega, ?_⟩
    intro s hs
    rw [Nat.add_zero, rests_self] at hs
    cases hs
  | succ rounds ih =>
    obtain ⟨key, hkey, hrests⟩ := rests_cons col (by omega : j < j + (rounds + 1)) hroom
    rw [hrests, List.mem_cons, not_or] at hne
    obtain ⟨d, u, hd⟩ := List.exists_cons_of_ne_nil (Ne.symm hne.1)
    have hchar : charAt keys j col = some d := by rw [charAt_eq hkey, hd]; rfl
    rw [show j + (rounds + 1) = j + 1 + rounds by omega] at hne hroom hrests ⊢
    by_cases hdc : d = c
    · obtain ⟨m, hm, hle, hle', hall, hstop⟩ := ih hroom hne.2
      refine ⟨m, ?_, by omega, hle', ?_, hstop⟩
      · rw [runEnd, hchar]
        exact (if_pos hdc).trans hm
      · intro k hk hkm
        rcases Nat.eq_or_lt_of_le hk with rfl | hk
        · rw [hchar, hdc]
        · exact hall k hk hkm
    · refine ⟨j, ?_, le_rfl, by omega, by intro k h h'; omega, ?_⟩
      · rw [runEnd, hchar]
        exact if_neg hdc
      · intro s hs
        rw [hrests, hd] at hs
        cases hs
        exact ⟨d, u, rfl, hdc⟩

/-! ### The loops -/

/-- What has been written down so far. -/
structure TrieBuild.Holds (chars : ValidChars) (st : TrieBuild) (flags bits : List Bool)
    (letters : Bytes) : Prop where
  leaves : Packs st.leaves flags
  bitmap : Packs st.labelBitmap bits
  idx : st.lIdx = bits.length
  labels : st.labels.Holds (letters.map chars.label)
  unit : st.labels.unitBitSize = Nat.size chars.size

/-- A queue element stands for the strings below a node. -/
structure QElt.Spans (keys : List Bytes) (elt : QElt) (S : List Bytes) : Prop where
  rests : rests keys elt.s elt.e elt.col = S
  room : elt.e ≤ keys.length
  long : ∀ k key, elt.s ≤ k → k < elt.e → keys[k]? = some key → elt.col ≤ key.length

/-- Every letter of the keys has a label that fits. -/
def LabelsFit (chars : ValidChars) (keys : List Bytes) : Prop :=
  ∀ key ∈ keys, ∀ c ∈ key, len64 (chars.label c) ≤ Nat.size chars.size

section Loops

variable {keys : List Bytes} {chars : ValidChars} {st : TrieBuild} {flags bits : List Bool}
  {letters : Bytes}

theorem addChild_spec (hst : st.Holds chars flags bits letters) (child : QElt) {c : UInt8}
    (hc : len64 (chars.label c) ≤ Nat.size chars.size) :
    ∃ st', st.addChild chars child c = some st' ∧ st'.queue = st.queue ++ [child] ∧
      st'.Holds chars flags (bits ++ [false]) (letters ++ [c]) := by
  obtain ⟨labels, hlabels, hunit, hholds⟩ :=
    CompactBitList.append_spec hst.labels (by rw [hst.unit]; exact hc)
  refine ⟨{ st with queue := st.queue ++ [child], labels := labels
                    labelBitmap := setBit st.labelBitmap st.lIdx false, lIdx := st.lIdx + 1 },
    ?_, rfl, ⟨hst.leaves, ?_, ?_, ?_, hunit.trans hst.unit⟩⟩
  · rw [TrieBuild.addChild, show (chars.table c).toBitVec.setWidth 64 = chars.label c from rfl,
      hlabels]
    rfl
  · rw [hst.idx]
    exact hst.bitmap.setBit false
  · rw [hst.idx, List.length_append, List.length_singleton]
  · rw [List.map_append]
    exact hholds

/-- **The children of a node** are the branches of its strings. -/
theorem childLoop_spec {fuel j e col : Nat} (he : e ≤ keys.length) (hfuel : e - j ≤ fuel) (hj : j ≤ e)
    (hne : [] ∉ rests keys j e col) (hst : st.Holds chars flags bits letters)
    (hfit : LabelsFit chars keys) :
    ∃ st' kids, childLoop keys chars e col fuel j st = some st' ∧ st'.queue = st.queue ++ kids ∧
      List.Forall₂ (QElt.Spans keys) kids ((branches (rests keys j e col)).map Prod.snd) ∧
      st'.Holds chars flags
        (bits ++ List.replicate (branches (rests keys j e col)).length false)
        (letters ++ (branches (rests keys j e col)).map Prod.fst) := by
  induction fuel generalizing j st bits letters with
  | zero =>
    obtain rfl : j = e := by omega
    rw [rests_self]
    exact ⟨st, [], rfl, (List.append_nil _).symm, .nil, by simpa [branches] using hst⟩
  | succ fuel ih =>
    rcases Nat.eq_or_lt_of_le hj with rfl | hlt
    · rw [rests_self]
      refine ⟨st, [], ?_, (List.append_nil _).symm, .nil, by simpa [branches] using hst⟩
      rw [childLoop, if_neg (Nat.lt_irrefl j)]
    obtain ⟨key, hkey, hrests⟩ := rests_cons col hlt he
    obtain ⟨c, u, hcu⟩ : ∃ c u, key.drop col = c :: u := by
      refine List.exists_cons_of_ne_nil ?_
      intro hnil
      rw [hrests, hnil] at hne
      exact hne List.mem_cons_self
    have hchar : charAt keys j col = some c := by rw [charAt_eq hkey, hcu]; rfl
    have hend : j + (e - j) = e := by omega
    obtain ⟨m, hm, hjm, hme, hrun, hstop⟩ := runEnd_spec (c := c) (hend.trans_le he) (by rwa [hend])
    rw [hend] at hme hstop
    -- the run holds at least key `j`
    have hjm : j < m := by
      refine Nat.lt_of_le_of_ne hjm ?_
      rintro rfl
      obtain ⟨d, w, hdw, hdc⟩ := hstop (c :: u) (by rw [hrests, hcu]; rfl)
      cases hdw
      exact hdc rfl
    have hsplit : rests keys j e col =
        (rests keys j m (col + 1)).map (c :: ·) ++ rests keys m e col := by
      rw [rests_split col hjm.le hme he, map_cons_rests hjm.le (hme.trans he) hrun]
    obtain ⟨first, -, hfirst⟩ := rests_cons (col + 1) hjm (hme.trans he)
    have hbranches : branches (rests keys j e col) =
        (c, rests keys j m (col + 1)) :: branches (rests keys m e col) := by
      rw [hsplit, hfirst]
      exact branches_run hstop
    have hmem : c ∈ key := List.mem_of_mem_drop (by rw [hcu]; exact List.mem_cons_self)
    obtain ⟨st₁, hst₁, hqueue₁, hholds₁⟩ :=
      addChild_spec hst ⟨j, m, col + 1⟩ (hfit key (List.mem_of_getElem? hkey) c hmem)
    have hne' : [] ∉ rests keys m e col := by
      intro hnil
      rw [hsplit] at hne
      exact hne (List.mem_append_right _ hnil)
    obtain ⟨st', kids, hst', hqueue, hkids, hholds⟩ := ih (by omega) hme hne' hholds₁
    refine ⟨st', ⟨j, m, col + 1⟩ :: kids, ?_, ?_, ?_, ?_⟩
    · rw [childLoop, if_pos hlt, hchar]
      show (runEnd keys col c (e - j) j).bind _ = _
      rw [hm]
      show (st.addChild chars ⟨j, m, col + 1⟩ c).bind _ = _
      rw [hst₁]
      exact hst'
    · rw [hqueue, hqueue₁, List.append_assoc, List.singleton_append]
    · rw [hbranches, List.map_cons]
      refine .cons ⟨rfl, hme.trans he, ?_⟩ hkids
      intro k key' hk hk' hkey'
      have hc := hrun k hk hk'
      rw [charAt_eq hkey', List.head?_drop] at hc
      exact (List.getElem?_eq_some_iff.mp hc).1
    · rw [hbranches, List.map_cons, List.length_cons, List.replicate_succ]
      rw [List.append_assoc, List.append_assoc] at hholds
      exact hholds

/-- A string ends at the node. -/
def isLeaf (S : List Bytes) : Bool := S.contains []

theorem isLeaf_eq (S : List Bytes) : isLeaf S = decide ([] ∈ S) := by
  simp [isLeaf]

theorem isLeaf_cons {s : Bytes} {rest : List Bytes} (h : (s :: rest).Pairwise (· < ·)) :
    isLeaf (s :: rest) = decide (s = []) ∧ [] ∉ rest := by
  have hrest : [] ∉ rest := by
    intro hnil
    exact List.not_lt_nil s (List.rel_of_pairwise_cons h hnil)
  refine ⟨?_, hrest⟩
  rw [isLeaf_eq]
  simp only [List.mem_cons, hrest, or_false]
  exact decide_eq_decide.mpr eq_comm

/-- The strings of the children of a node. -/
def kidsOf (S : List Bytes) : List (List Bytes) := (branches S).map Prod.snd

/-- **The loop over the queue** writes the flag, the degree and the letters of every
node in level order. -/
theorem nodeLoop_spec {fuel : Nat} {queue nodes : List (List Bytes)}
    (hfit : LabelsFit chars keys) (hst : st.Holds chars flags bits letters)
    (hqueue : List.Forall₂ (QElt.Spans keys) st.queue queue)
    (hwalk : walk kidsOf fuel queue = some nodes)
    (hsorted : ∀ S ∈ nodes, S.Pairwise (· < ·) ∧ S ≠ []) :
    ∃ st', nodeLoop keys chars fuel flags.length st = some st' ∧
      st'.Holds chars (flags ++ nodes.map isLeaf)
        (bits ++ unary (nodes.map fun S => (branches S).length))
        (letters ++ nodes.flatMap fun S => (branches S).map Prod.fst) := by
  induction fuel generalizing queue nodes st flags bits letters with
  | zero =>
    cases hq : queue with
    | nil =>
      rw [hq] at hqueue hwalk
      cases hwalk
      have hempty : st.queue = [] := List.forall₂_nil_right_iff.mp hqueue
      exact ⟨st, by rw [nodeLoop, if_pos hempty], by simpa [unary] using hst⟩
    | cons S rest =>
      rw [hq] at hwalk
      cases hwalk
  | succ fuel ih =>
    cases hq : queue with
    | nil =>
      rw [hq] at hqueue hwalk
      cases hwalk
      have hempty : st.queue = [] := List.forall₂_nil_right_iff.mp hqueue
      exact ⟨st, by rw [nodeLoop, hempty], by simpa [unary] using hst⟩
    | cons S rest =>
      rw [hq] at hqueue hwalk
      obtain ⟨elts, helts⟩ : ∃ elts, st.queue = elts := ⟨_, rfl⟩
      rw [helts] at hqueue
      cases hqueue with
      | @cons elt _ elts _ hspan hrest =>
        obtain ⟨nodes', hwalk', rfl⟩ := Option.map_eq_some_iff.mp hwalk
        obtain ⟨hpair, hneS⟩ := hsorted S List.mem_cons_self
        have hlt : elt.s < elt.e := by
          by_contra hle
          apply hneS
          rw [← hspan.rests, rests, List.drop_eq_nil_of_le
            ((List.length_take_le _ _).trans (by omega)), List.map_nil]
        obtain ⟨key, hkey, hrests⟩ := rests_cons elt.col hlt hspan.room
        have hS := hspan.rests
        rw [hrests] at hS
        have hleaf := isLeaf_cons (hS ▸ hpair)
        have hlong := hspan.long elt.s key le_rfl hlt hkey
        have htest : (elt.col == key.length) = isLeaf S := by
          rw [← hS, hleaf.1, Bool.eq_iff_iff, beq_iff_eq, decide_eq_true_iff,
            List.drop_eq_nil_iff]
          omega
        -- behind the leaf stand the strings that go on
        obtain ⟨hbranches, hnil⟩ :
            branches (rests keys (if isLeaf S then elt.s + 1 else elt.s) elt.e elt.col) =
                branches S ∧
              [] ∉ rests keys (if isLeaf S then elt.s + 1 else elt.s) elt.e elt.col := by
          by_cases hl : isLeaf S = true
          · have hzero : key.drop elt.col = [] := by
              rw [← hS, hleaf.1, decide_eq_true_iff] at hl
              exact hl
            rw [if_pos hl, ← hS, hzero, branches]
            exact ⟨rfl, hleaf.2⟩
          · rw [if_neg hl, hspan.rests]
            refine ⟨rfl, ?_⟩
            intro hmem
            exact hl ((isLeaf_eq S).trans (decide_eq_true hmem))
        have hst₁ : TrieBuild.Holds chars
            { st with
              queue := elts
              leaves := if isLeaf S then setBit st.leaves flags.length true else st.leaves }
            (flags ++ [isLeaf S]) bits letters := by
          refine ⟨?_, hst.bitmap, hst.idx, hst.labels, hst.unit⟩
          cases hl : isLeaf S with
          | true => exact hst.leaves.setBit true
          | false => exact hst.leaves.skip
        obtain ⟨st₂, kids, hst₂, hqueue₂, hkids, hholds₂⟩ :=
          childLoop_spec hspan.room le_rfl (by split <;> omega) hnil hst₁ hfit
        rw [hbranches] at hkids hholds₂
        have hst₃ : TrieBuild.Holds chars
            { st₂ with
              labelBitmap := setBit st₂.labelBitmap st₂.lIdx true, lIdx := st₂.lIdx + 1 }
            (flags ++ [isLeaf S])
            (bits ++ List.replicate (branches S).length false ++ [true])
            (letters ++ (branches S).map Prod.fst) := by
          refine ⟨hholds₂.leaves, ?_, ?_, hholds₂.labels, hholds₂.unit⟩
          · rw [hholds₂.idx]
            exact hholds₂.bitmap.setBit true
          · show st₂.lIdx + 1 = _
            simp [hholds₂.idx, Nat.add_assoc]
        have hnext : List.Forall₂ (QElt.Spans keys) st₂.queue (rest ++ kidsOf S) := by
          rw [hqueue₂]
          exact List.rel_append hrest hkids
        obtain ⟨st', hst', hholds'⟩ := ih hst₃ hnext hwalk'
          fun T hT => hsorted T (List.mem_cons_of_mem _ hT)
        refine ⟨st', ?_, ?_⟩
        · rw [nodeLoop, helts]
          dsimp only
          rw [hkey]
          show (childLoop keys chars elt.e elt.col
            (elt.e - if (elt.col == key.length) = true then elt.s + 1 else elt.s)
            (if (elt.col == key.length) = true then elt.s + 1 else elt.s)
            { st with
              queue := elts
              leaves := if (elt.col == key.length) = true then
                setBit st.leaves flags.length true else st.leaves }).bind _ = _
          rw [htest, hst₂]
          rw [List.length_append, List.length_singleton] at hst'
          exact hst'
        · simpa [unary, List.flatMap_cons, List.append_assoc] using hholds'

end Loops

/-! ### Rank and select samples -/

theorem Packs.count (h : Packs bm bits) (n : Nat) :
    Nat.count (fun k => BitWords.bit bm k = true) n = (bits.take n).count true := by
  induction n with
  | zero => rfl
  | succ n ih =>
    rw [Nat.count_succ, ih, h.bit, List.getD_eq_getElem?_getD, List.take_add_one, List.count_append]
    cases bits[n]? with
    | none => rfl
    | some v => cases v <;> rfl

theorem rankSamples_eq (bm : List (BitVec 64)) : rankSamples bm =
    (List.range (bm.length + 1)).map fun k => BitVec.ofNat 32 ((bm.take k).map ones).sum := by
  induction bm using List.reverseRecOn with
  | nil => rfl
  | append_singleton bm word ih =>
    have hlast : ((List.range (bm.length + 1)).map fun k =>
        BitVec.ofNat 32 ((bm.take k).map ones).sum).getLastD 0 =
          BitVec.ofNat 32 (bm.map ones).sum := by
      rw [List.range_succ, List.map_append, List.map_singleton, List.getLastD_concat,
        List.take_length]
    rw [rankSamples, List.foldl_append, ← rankSamples, ih, List.foldl_cons, List.foldl_nil, hlast,
      List.length_append, List.length_singleton, List.range_succ (n := bm.length + 1),
      List.map_append, List.map_singleton]
    congr 1
    · refine List.map_congr_left fun k hk => ?_
      rw [List.take_append_of_le_length (by rw [List.mem_range] at hk; omega)]
    · rw [List.take_of_length_le (by simp), List.map_append, List.sum_append, BitVec.ofNat_add]
      rfl

theorem selectSamples_spec (h : Packs bm bits) (n : Nat) :
    let samples := (List.range n).foldl (fun (selects, n) i =>
      if BitWords.bit bm i then
        (if n % 64 = 0 then selects ++ [BitVec.ofNat 32 i] else selects, n + 1)
      else (selects, n)) (([] : List (BitVec 32)), 0)
    samples.2 = (bits.take n).count true ∧ samples.1.length = (samples.2 + 63) / 64 ∧
      ∀ k, k < samples.1.length → ∃ p, bits[p]? = some true ∧ (bits.take p).count true = 64 * k ∧
        samples.1[k]? = some (BitVec.ofNat 32 p) := by
  induction n with
  | zero => simp
  | succ n ih =>
    rw [List.range_succ, List.foldl_append]
    generalize (List.range n).foldl _ (([] : List (BitVec 32)), 0) = samples at ih
    obtain ⟨selects, ones⟩ := samples
    obtain ⟨hones, hlength, hsamples⟩ := ih
    dsimp only at hones hlength hsamples
    have hbit := h.bit n
    rw [List.getD_eq_getElem?_getD] at hbit
    rw [List.foldl_cons, List.foldl_nil, List.take_add_one, List.count_append, ← hones]
    by_cases hset : BitWords.bit bm n = true
    · have hn : bits[n]? = some true := by
        cases hb : bits[n]? with
        | none => rw [hset, hb] at hbit; cases hbit
        | some v => rw [hset, hb] at hbit; cases hbit; rfl
      rw [hn]
      simp only [hset, if_true]
      by_cases hzero : ones % 64 = 0
      · rw [if_pos hzero]
        refine ⟨rfl, ?_, ?_⟩
        · rw [List.length_append, List.length_singleton, hlength]
          omega
        · intro k hk
          rw [List.length_append, List.length_singleton] at hk
          rcases Nat.lt_or_ge k selects.length with hlt | hge
          · obtain ⟨p, hp, hcount, hsample⟩ := hsamples k hlt
            exact ⟨p, hp, hcount, by rw [List.getElem?_append_left hlt, hsample]⟩
          · obtain rfl : k = selects.length := by omega
            refine ⟨n, hn, by rw [← hones]; omega, by simp⟩
      · rw [if_neg hzero]
        exact ⟨rfl, by rw [hlength]; omega, hsamples⟩
    · have hn : (bits[n]?.toList).count true = 0 := by
        cases hb : bits[n]? with
        | none => rfl
        | some v =>
          rw [hb] at hbit
          cases v with
          | true => exact absurd hbit hset
          | false => rfl
      rw [hn]
      simp only [hset]
      exact ⟨rfl, hlength, hsamples⟩

theorem CompactBitList.appendAll_spec {m : CompactBitList} {old values : List (BitVec 64)}
    (h : m.Holds old) (hfit : ∀ v ∈ values, len64 v ≤ m.unitBitSize) :
    ∃ m', m.appendAll values = some m' ∧ m'.unitBitSize = m.unitBitSize ∧
      m'.Holds (old ++ values) := by
  induction values generalizing m old with
  | nil => exact ⟨m, rfl, rfl, by rwa [List.append_nil]⟩
  | cons v values ih =>
    obtain ⟨m₁, hm₁, hunit₁, hholds₁⟩ := append_spec h (hfit v List.mem_cons_self)
    obtain ⟨m', hm', hunit', hholds'⟩ := ih hholds₁
      (fun x hx => hunit₁ ▸ hfit x (List.mem_cons_of_mem v hx))
    refine ⟨m', ?_, hunit'.trans hunit₁, by rwa [List.append_assoc] at hholds'⟩
    rw [appendAll, List.foldlM_cons, hm₁]
    exact hm'

/-- A number that does not fit the unit is a panic. -/
theorem CompactBitList.appendAll_none {m : CompactBitList} {old values : List (BitVec 64)}
    (h : m.Holds old) {v : BitVec 64} (hv : v ∈ values) (hbig : m.unitBitSize < len64 v) :
    m.appendAll values = none := by
  induction values generalizing m old with
  | nil => cases hv
  | cons x values ih =>
    rw [appendAll, List.foldlM_cons]
    by_cases hx : m.unitBitSize < len64 x
    · rw [append_none hx]
      rfl
    · obtain ⟨m₁, hm₁, hunit₁, hholds₁⟩ := append_spec h (Nat.le_of_not_lt hx)
      rcases List.mem_cons.mp hv with rfl | hv
      · exact absurd hbig hx
      · rw [hm₁]
        exact ih hholds₁ hv (by rwa [hunit₁])

/-- The rank index of a bitmap of so many words. -/
def Ranks (m : CompactBitList) (bits : List Bool) (words : Nat) : Prop :=
  0 < m.unitBitSize ∧ ∃ values, m.Holds values ∧
    ∀ k ≤ words,
      values[k]? = some ((BitVec.ofNat 32 ((bits.take (64 * k)).count true)).signExtend 64)

/-- The select index: the place of every 64th one. -/
def Selects (m : CompactBitList) (bits : List Bool) : Prop :=
  0 < m.unitBitSize ∧ ∃ values, m.Holds values ∧
    ∀ k, 64 * k < bits.count true → ∃ p, bits[p]? = some true ∧ (bits.take p).count true = 64 * k ∧
      values[k]? = some ((BitVec.ofNat 32 p).signExtend 64)

variable {n : Nat}

theorem signExtend_ofNat (h : n < 2 ^ 31) :
    (BitVec.ofNat 32 n).signExtend 64 = BitVec.ofNat 64 n := by
  have hmsb : (BitVec.ofNat 32 n).msb = false := by
    rw [BitVec.msb_eq_false_iff_two_mul_lt, BitVec.toNat_ofNat, Nat.mod_eq_of_lt (by omega)]
    omega
  rw [BitVec.signExtend_eq_setWidth_of_msb_false hmsb]
  apply BitVec.eq_of_toNat_eq
  rw [BitVec.toNat_setWidth, BitVec.toNat_ofNat, BitVec.toNat_ofNat, Nat.mod_eq_of_lt (by omega : n < 2 ^ 32)]

theorem len64_ofNat_le (hmn : m ≤ n) (hn : n < 2 ^ 64) :
    len64 (BitVec.ofNat 64 m) ≤ len64 (BitVec.ofNat 64 n) := by
  rw [len64, len64, BitVec.toNat_ofNat, BitVec.toNat_ofNat, Nat.mod_eq_of_lt hn,
    Nat.mod_eq_of_lt (by omega)]
  exact Nat.size_le_size hmn

theorem count_take_le (bits : List Bool) (h : m ≤ n) :
    (bits.take m).count true ≤ (bits.take n).count true :=
  (List.take_sublist_take_left h).count_le true

theorem count_take_succ (h : bits[p]? = some true) :
    (bits.take (p + 1)).count true = (bits.take p).count true + 1 := by
  rw [List.take_add_one, h, List.count_append]
  rfl

theorem count_take_lt (h : bits[p]? = some true) : (bits.take p).count true < bits.count true := by
  have := (List.take_sublist (p + 1) bits).count_le true
  rw [count_take_succ h] at this
  omega

/-- Ones stand in the order of their numbers. -/
theorem le_of_count_le {q : Nat} (hq : bits[q]? = some true)
    (h : (bits.take p).count true ≤ (bits.take q).count true) : p ≤ q := by
  by_contra hlt
  have hmono := count_take_le bits (by omega : q + 1 ≤ p)
  rw [count_take_succ hq] at hmono
  omega

theorem Packs.count_all (h : Packs bm bits) :
    (bits.take (64 * bm.length)).count true = bits.count true := by
  have hzero : (bits.drop (64 * bm.length)).count true = 0 := by
    rw [List.count_eq_zero]
    intro hmem
    obtain ⟨k, hk⟩ := List.mem_iff_getElem?.mp hmem
    rw [List.getElem?_drop] at hk
    have := h.room _ hk
    omega
  conv_rhs => rw [← List.take_append_drop (64 * bm.length) bits, List.count_append, hzero]
  rfl

theorem rankSamples_spec (h : Packs bm bits) :
    rankSamples bm = (List.range (bm.length + 1)).map fun k =>
      BitVec.ofNat 32 ((bits.take (64 * k)).count true) := by
  rw [rankSamples_eq]
  refine List.map_congr_left fun k hk => ?_
  rw [← count_words bm (by rw [List.mem_range] at hk; omega), h.count]

theorem len64_negative (h : 2 ^ 31 ≤ n) (h' : n < 2 ^ 32) :
    len64 ((BitVec.ofNat 32 n).signExtend 64) = 64 := by
  have hmsb : (BitVec.ofNat 32 n).msb = true := by
    rw [BitVec.msb_eq_true_iff_two_mul_ge, BitVec.toNat_ofNat, Nat.mod_eq_of_lt h']
    omega
  have hmsb' : ((BitVec.ofNat 32 n).signExtend 64).msb = true := by
    rw [BitVec.msb_signExtend, hmsb]
    simp
  rw [BitVec.msb_eq_true_iff_two_mul_ge] at hmsb'
  refine le_antisymm (Nat.size_le.mpr (BitVec.isLt _)) ?_
  exact Nat.lt_size.mpr (by omega)

/-- **The indexes** are built as long as the positions fit into 32 bits and the number of
ones into 31. -/
theorem initIndexes_spec (h : Packs bm bits)
    (hlen : bits.length ≤ 2 ^ 32) (hones : bits.count true < 2 ^ 31) (hpos : 0 < bits.count true) :
    ∃ ranksBL selectsBL, initIndexes bm = some (ranksBL, selectsBL) ∧
      Ranks ranksBL bits bm.length ∧ Selects selectsBL bits := by
  have hsmall : ∀ n, (bits.take n).count true ≤ bits.count true :=
    fun n => (List.take_sublist n bits).count_le true
  -- ranks
  have hranks := rankSamples_spec h
  have hlastRank : (rankSamples bm).getLast? = some (BitVec.ofNat 32 (bits.count true)) := by
    rw [hranks, List.range_succ, List.map_append, List.map_singleton,
      List.getLast?_concat, h.count_all]
  have hrankFit : ∀ v ∈ (rankSamples bm).map (·.signExtend 64),
      len64 v ≤ len64 ((BitVec.ofNat 32 (bits.count true)).signExtend 64) := by
    intro v hv
    rw [hranks, List.map_map] at hv
    obtain ⟨k, -, rfl⟩ := List.mem_map.mp hv
    rw [signExtend_ofNat hones]
    show len64 ((BitVec.ofNat 32 _).signExtend 64) ≤ _
    rw [signExtend_ofNat ((hsmall _).trans_lt hones)]
    exact len64_ofNat_le (hsmall _) (by omega)
  obtain ⟨ranksBL, hranksBL, hrankUnit, hrankHolds⟩ :=
    CompactBitList.appendAll_spec (CompactBitList.holds_new
      (len64 ((BitVec.ofNat 32 (bits.count true)).signExtend 64))) hrankFit
  -- selects
  obtain ⟨hcount, hlength, hsamples⟩ := selectSamples_spec h (64 * bm.length)
  rw [← selectSamples] at hcount hlength hsamples
  rw [h.count_all] at hcount
  have hplace : ∀ p, bits[p]? = some true → p < 2 ^ 32 := by
    intro p hp
    have := (List.getElem?_eq_some_iff.mp hp).1
    omega
  obtain ⟨last, hlast, hlastCount, hlastSample⟩ :=
    hsamples ((selectSamples bm).1.length - 1) (by omega)
  have hlastSelect : (selectSamples bm).1.getLast? = some (BitVec.ofNat 32 last) := by
    rw [List.getLast?_eq_getElem?, hlastSample]
  have hselectValue : ∀ k, k < (selectSamples bm).1.length → ∃ p, bits[p]? = some true ∧
      (bits.take p).count true = 64 * k ∧
      ((selectSamples bm).1.map (·.signExtend 64))[k]? = some ((BitVec.ofNat 32 p).signExtend 64) := by
    intro k hk
    obtain ⟨p, hp, hcountp, hsample⟩ := hsamples k hk
    refine ⟨p, hp, hcountp, ?_⟩
    rw [List.getElem?_map, hsample, Option.map_some]
  have hselectFit : ∀ v ∈ (selectSamples bm).1.map (·.signExtend 64),
      len64 v ≤ max 1 (len64 ((BitVec.ofNat 32 last).signExtend 64)) := by
    intro v hv
    obtain ⟨k, hk⟩ := List.mem_iff_getElem?.mp hv
    have hlt : k < (selectSamples bm).1.length := by
      have := (List.getElem?_eq_some_iff.mp hk).1
      rwa [List.length_map] at this
    obtain ⟨p, hp, hcountp, hvalue⟩ := hselectValue k hlt
    rw [hk] at hvalue
    cases hvalue
    have hle : p ≤ last := le_of_count_le hlast (by rw [hcountp, hlastCount]; omega)
    refine le_trans ?_ (le_max_right _ _)
    rcases Nat.lt_or_ge last (2 ^ 31) with hsmallLast | hbigLast
    · rw [signExtend_ofNat hsmallLast, signExtend_ofNat (by omega)]
      exact len64_ofNat_le hle (by omega)
    · rw [len64_negative hbigLast (hplace last hlast)]
      exact Nat.size_le.mpr (BitVec.isLt _)
  obtain ⟨selectsBL, hselectsBL, hselectUnit, hselectHolds⟩ :=
    CompactBitList.appendAll_spec (CompactBitList.holds_new
      (max 1 (len64 ((BitVec.ofNat 32 last).signExtend 64)))) hselectFit
  refine ⟨ranksBL, selectsBL, ?_, ⟨?_, _, hrankHolds, ?_⟩, ⟨?_, _, hselectHolds, ?_⟩⟩
  · rw [initIndexes, hlastRank, hlastSelect]
    simp only [Option.bind_eq_bind, Option.bind_some, hranksBL, hselectsBL]
  · rw [hrankUnit, signExtend_ofNat hones]
    show 0 < len64 _
    rw [len64, BitVec.toNat_ofNat, Nat.mod_eq_of_lt (by omega), Nat.size_pos]
    exact hpos
  · intro k hk
    rw [List.nil_append, hranks, List.map_map, List.getElem?_map, List.getElem?_range (by omega)]
    rfl
  · rw [hselectUnit]
    exact lt_of_lt_of_le Nat.one_pos (le_max_left _ _)
  · intro k hk
    rw [List.nil_append]
    exact hselectValue k (by omega)

end Dae
