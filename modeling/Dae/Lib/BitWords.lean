import Mathlib

/-!
# Bits packed into words

A list of words read as one sequence of bits, the lowest bit of the first word
first.  Counting the ones before a position goes word by word, with a mask for the
last one; the ones of a word are found by clearing its lowest one again and again.
-/

namespace BitWords

variable {w : Nat}

/-- Bit `i` of the sequence. -/
def bit (words : List (BitVec w)) (i : Nat) : Bool := (words.getD (i / w) 0).getLsbD (i % w)

/-- The number of ones of a word. -/
def ones (x : BitVec w) : Nat := Nat.count (fun k => x.getLsbD k = true) w

/-- The number of zeros below the lowest one; the width when there is none. -/
def trailingZeros (x : BitVec w) : Nat := ((List.range w).find? fun k => x.getLsbD k).getD w

/-- The word without its lowest one. -/
def clearLowest (x : BitVec w) : BitVec w := x &&& (x - 1)

/-! ### Counting -/

variable {r : Nat}

theorem bit_word (words : List (BitVec w)) (n : Nat) (hr : r < w) :
    bit words (w * n + r) = (words.getD n 0).getLsbD r := by
  rw [bit, Nat.mul_add_div (by omega), Nat.div_eq_of_lt hr, Nat.mul_add_mod, Nat.mod_eq_of_lt hr,
    Nat.add_zero]

/-- Words of zeros at the end change no bit. -/
theorem bit_append_zeros (words : List (BitVec w)) (n p : Nat) :
    bit (words ++ List.replicate n 0) p = bit words p := by
  rw [bit, bit, List.getD_eq_getElem?_getD, List.getD_eq_getElem?_getD, List.getElem?_append]
  split
  · rfl
  next hp =>
    rw [List.getElem?_eq_none (Nat.le_of_not_lt hp), List.getElem?_replicate]
    split <;> rfl

theorem count_word (words : List (BitVec w)) (n : Nat) (hr : r ≤ w) :
    Nat.count (fun k => bit words (w * n + k) = true) r =
      Nat.count (fun k => (words.getD n 0).getLsbD k = true) r := by
  induction r with
  | zero => rfl
  | succ r ih => rw [Nat.count_succ, Nat.count_succ, ih (by omega), bit_word words n (by omega)]

variable {n : Nat}

/-- The ones of whole words. -/
theorem count_words (words : List (BitVec w)) (hn : n ≤ words.length) :
    Nat.count (fun k => bit words k = true) (w * n) = ((words.take n).map ones).sum := by
  induction n with
  | zero => rfl
  | succ n ih =>
    have hn' : n < words.length := hn
    rw [Nat.mul_succ, Nat.count_add, ih (by omega), count_word words n le_rfl, List.take_add_one,
      List.getElem?_eq_getElem hn', List.map_append, List.sum_append]
    simp [ones, hn']

/-- **The ones before a position** are those of the words before it and those of its
own word below it. -/
theorem count_bit (words : List (BitVec w)) (hn : n ≤ words.length) (hr : r ≤ w) :
    Nat.count (fun k => bit words k = true) (w * n + r) =
      ((words.take n).map ones).sum +
        Nat.count (fun k => (words.getD n 0).getLsbD k = true) r := by
  rw [Nat.count_add, count_words words hn, count_word words n hr]

theorem count_congr {p q : Nat → Prop} [DecidablePred p] [DecidablePred q]
    (h : ∀ k < n, p k ↔ q k) : Nat.count p n = Nat.count q n := by
  induction n with
  | zero => rfl
  | succ n ih =>
    rw [Nat.count_succ, Nat.count_succ, ih fun k hk => h k (by omega)]
    simp [h n (Nat.lt_succ_self n)]

theorem getLsbD_mask {k : Nat} (hr : r < w) :
    ((1#w <<< r) - 1#w).getLsbD k = decide (k < r) := by
  have hpow : 2 ^ r < 2 ^ w := Nat.pow_lt_pow_right (by omega) hr
  have hone : (1 : Nat) < 2 ^ w := Nat.one_lt_two_pow (by omega)
  have hmask : ((1#w <<< r) - 1#w).toNat = 2 ^ r - 1 := by
    rw [BitVec.toNat_sub_of_le]
    · rw [BitVec.toNat_shiftLeft, BitVec.toNat_ofNat, Nat.mod_eq_of_lt hone, Nat.shiftLeft_eq,
        Nat.one_mul, Nat.mod_eq_of_lt hpow]
    · rw [BitVec.le_def, BitVec.toNat_shiftLeft, BitVec.toNat_ofNat, Nat.mod_eq_of_lt hone,
        Nat.shiftLeft_eq, Nat.one_mul, Nat.mod_eq_of_lt hpow]
      exact Nat.one_le_two_pow
  rw [← BitVec.testBit_toNat, hmask, Nat.testBit_two_pow_sub_one]

/-- A mask keeps the ones below a bit. -/
theorem ones_mask (x : BitVec w) (hr : r < w) :
    ones (x &&& ((1#w <<< r) - 1#w)) = Nat.count (fun k => x.getLsbD k = true) r := by
  generalize hy : x &&& ((1#w <<< r) - 1#w) = y
  have hbit : ∀ k, y.getLsbD k = (x.getLsbD k && decide (k < r)) := by
    intro k
    rw [← hy, BitVec.getLsbD_and, getLsbD_mask hr]
  have hlow : Nat.count (fun k => y.getLsbD k = true) r =
      Nat.count (fun k => x.getLsbD k = true) r :=
    count_congr fun k hk => by rw [hbit]; simp [hk]
  have hhigh : Nat.count (fun k => y.getLsbD (r + k) = true) (w - r) = 0 := by
    rw [Nat.count_iff_forall_not]
    intro k _
    rw [hbit]
    simp
  have hsplit := Nat.count_add (fun k => y.getLsbD k = true) r (w - r)
  rw [hlow, hhigh, Nat.add_sub_cancel' hr.le] at hsplit
  exact hsplit

/-- A single bit, tested with a mask. -/
theorem test_bit (x : BitVec w) (hr : r < w) :
    (x &&& (1#w <<< r) != 0) = x.getLsbD r := by
  have hbits : ∀ k, (x &&& (1#w <<< r)).getLsbD k = (x.getLsbD r && decide (k = r)) := by
    intro k
    rw [BitVec.getLsbD_and, BitVec.getLsbD_shiftLeft, BitVec.getLsbD_one]
    by_cases hk : k = r
    · subst hk
      have hpos : 0 < w := by omega
      simp [hr, hpos]
    · have : k < r ∨ ¬ k - r = 0 := by omega
      rcases this with hlt | hgt
      · simp [hk, hlt]
      · simp [hk, hgt]
  rw [Bool.eq_iff_iff, bne_iff_ne]
  constructor
  · intro hne
    by_contra hbit
    refine hne (BitVec.eq_of_getLsbD_eq fun k _ => ?_)
    rw [hbits, Bool.eq_false_iff.mpr hbit]
    simp
  · intro hbit heq
    have hzero := hbits r
    rw [heq, hbit] at hzero
    simp at hzero

/-! ### The lowest one -/

variable {x : BitVec w}

theorem trailingZeros_eq {t : Nat} (ht : x.getLsbD t = true)
    (hlow : ∀ k < t, x.getLsbD k = false) : trailingZeros x = t := by
  have hw : t < w := BitVec.lt_of_getLsbD ht
  have hfind : (List.range w).find? (fun k => x.getLsbD k) = some t := by
    rw [List.find?_range_eq_some]
    refine ⟨ht, List.mem_range.mpr hw, ?_⟩
    intro k hk
    rw [hlow k hk]
    rfl
  rw [trailingZeros, hfind, Option.getD_some]

theorem getLsbD_clearLowest {t : Nat} (ht : x.getLsbD t = true)
    (hlow : ∀ k < t, x.getLsbD k = false) (k : Nat) :
    (clearLowest x).getLsbD k = (x.getLsbD k && decide (k ≠ t)) := by
  -- above its lowest one the word is `2 ^ (t + 1) * high`
  obtain ⟨high, hx⟩ : ∃ high, x.toNat = 2 ^ (t + 1) * high + 2 ^ t := by
    refine ⟨x.toNat / 2 ^ (t + 1), ?_⟩
    have hmod : x.toNat % 2 ^ (t + 1) = 2 ^ t := by
      apply Nat.eq_of_testBit_eq
      intro i
      rw [Nat.testBit_mod_two_pow, Nat.testBit_two_pow, BitVec.testBit_toNat]
      rcases Nat.lt_trichotomy i t with hi | rfl | hi
      · simp [hlow i hi, hi.ne']
      · simp [ht]
      · have : ¬ i < t + 1 := by omega
        simp [this, hi.ne]
    rw [← hmod, Nat.div_add_mod]
  have hpred : (x - 1#w).toNat = 2 ^ (t + 1) * high + (2 ^ t - 1) := by
    have hw : t < w := BitVec.lt_of_getLsbD ht
    have hone : (1 : Nat) < 2 ^ w := Nat.one_lt_two_pow (by omega)
    have hpos : 0 < 2 ^ t := Nat.two_pow_pos t
    rw [BitVec.toNat_sub_of_le, BitVec.toNat_ofNat, Nat.mod_eq_of_lt hone, hx]
    · omega
    · rw [BitVec.le_def, BitVec.toNat_ofNat, Nat.mod_eq_of_lt hone, hx]
      omega
  have hlt : 2 ^ t < 2 ^ (t + 1) := Nat.pow_lt_pow_right (by omega) (by omega)
  have hxk : x.getLsbD k = if k < t + 1 then (2 ^ t).testBit k else high.testBit (k - (t + 1)) := by
    rw [← BitVec.testBit_toNat, hx, Nat.testBit_two_pow_mul_add _ hlt]
  have hpk : (x - 1#w).getLsbD k =
      if k < t + 1 then (2 ^ t - 1).testBit k else high.testBit (k - (t + 1)) := by
    rw [← BitVec.testBit_toNat, hpred, Nat.testBit_two_pow_mul_add _ (by omega)]
  show (x &&& (x - 1#w)).getLsbD k = _
  rw [BitVec.getLsbD_and, hpk, hxk, Nat.testBit_two_pow, Nat.testBit_two_pow_sub_one]
  rcases Nat.lt_trichotomy k t with hk | rfl | hk
  · have : k < t + 1 := by omega
    simp [this, hk.ne']
  · simp
  · have : ¬ k < t + 1 := by omega
    simp [this, hk.ne']

theorem exists_lowest {p : Nat} (hp : x.getLsbD p = true) :
    ∃ t ≤ p, x.getLsbD t = true ∧ ∀ k < t, x.getLsbD k = false := by
  have hex : ∃ t, x.getLsbD t = true := ⟨p, hp⟩
  refine ⟨Nat.find hex, Nat.find_min' hex hp, Nat.find_spec hex, ?_⟩
  intro k hk
  exact Bool.eq_false_iff.mpr (Nat.find_min hex hk)

/-- **The `n`-th one** is the lowest one after the `n` lower ones have been cleared. -/
theorem trailingZeros_clear {p : Nat} (hp : x.getLsbD p = true)
    (hn : Nat.count (fun k => x.getLsbD k = true) p = n) :
    trailingZeros (clearLowest^[n] x) = p := by
  induction n generalizing x with
  | zero =>
    rw [Nat.count_iff_forall_not] at hn
    exact trailingZeros_eq hp fun k hk => Bool.eq_false_iff.mpr (hn k hk)
  | succ n ih =>
    obtain ⟨t, hle, ht, hlow⟩ := exists_lowest hp
    have hclear := getLsbD_clearLowest ht hlow
    have htp : t < p := by
      refine Nat.lt_of_le_of_ne hle ?_
      rintro rfl
      rw [(Nat.count_iff_forall_not).mpr fun k hk => Bool.eq_false_iff.mp (hlow k hk)] at hn
      omega
    rw [Function.iterate_succ_apply]
    refine ih (by rw [hclear, hp]; simp [htp.ne']) ?_
    -- one of the ones below `p` is gone
    have hsplit : ∀ y : BitVec w, Nat.count (fun k => y.getLsbD k = true) p =
        Nat.count (fun k => y.getLsbD k = true) t +
          (if y.getLsbD t = true then 1 else 0) +
          Nat.count (fun k => y.getLsbD (t + 1 + k) = true) (p - (t + 1)) := by
      intro y
      rw [← Nat.count_succ, ← Nat.count_add]
      congr 1
      omega
    have hbelow : Nat.count (fun k => (clearLowest x).getLsbD k = true) t =
        Nat.count (fun k => x.getLsbD k = true) t :=
      count_congr fun k hk => by rw [hclear]; simp [hk.ne]
    have habove : Nat.count (fun k => (clearLowest x).getLsbD (t + 1 + k) = true)
        (p - (t + 1)) = Nat.count (fun k => x.getLsbD (t + 1 + k) = true) (p - (t + 1)) :=
      count_congr fun k _ => by rw [hclear]; simp; omega
    have hx := hsplit x
    have hy := hsplit (clearLowest x)
    rw [if_pos ht] at hx
    rw [hbelow, habove, hclear, ht] at hy
    simp only [ne_eq, not_true_eq_false, decide_false, Bool.and_false, Bool.false_eq_true,
      if_false, Nat.add_zero] at hy
    omega

end BitWords
