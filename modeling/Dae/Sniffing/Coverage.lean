import Dae.Lib.BitWords
import Dae.Sniffing.Reassembly

/-!
# The coverage bits

What the operations on the coverage bits do, bit by bit: the bulk path of `retain` sets bytes by
masks and its slow path bits, and both cover exactly the bytes of the data.
-/

namespace Dae

namespace Coverage

variable {c c' : Coverage} {i j n : Nat}

/-- Whether a byte of the window is there. -/
def covers (covered : Coverage) (i : Nat) : Bool :=
  if h : i / 8 < 512 then covered[i / 8].getLsbD (i % 8) else false

theorem shiftRight_three (i : Nat) : i >>> 3 = i / 8 := Nat.shiftRight_eq_div_pow i 3

theorem and_seven (i : Nat) : i &&& 7 = i % 8 := Nat.and_two_pow_sub_one_eq_mod i 3

/-- Consecutive bits of a byte. -/
theorem rangeMask_getLsbD {o w k : Nat} (hw : o + w ≤ 8) (hk : k < 8) :
    (((1#8 <<< w) - 1#8) <<< o).getLsbD k = decide (o ≤ k ∧ k < o + w) := by
  have hall : ∀ o : Fin 9, ∀ w : Fin 9, ∀ k : Fin 8, o.val + w.val ≤ 8 →
      (((1#8 <<< w.val) - 1#8) <<< o.val).getLsbD k.val =
        decide (o.val ≤ k.val ∧ k.val < o.val + w.val) := by
    decide +kernel
  exact hall ⟨o, by omega⟩ ⟨w, by omega⟩ ⟨k, hk⟩ hw

/-- The high bits of a byte. -/
theorem highMask_getLsbD {o k : Nat} (ho : o < 8) (hk : k < 8) :
    (0xff#8 <<< o).getLsbD k = decide (o ≤ k) := by
  have hall : ∀ o : Fin 8, ∀ k : Fin 8,
      (0xff#8 <<< o.val).getLsbD k.val = decide (o.val ≤ k.val) := by
    decide +kernel
  exact hall ⟨o, ho⟩ ⟨k, hk⟩

theorem covers_set {mask : BitVec 8} (hj : j < 512) (i : Nat) :
    covers (c.set j mask) i = if i / 8 = j then mask.getLsbD (i % 8) else c.covers i := by
  unfold covers
  by_cases hi : i / 8 = j
  · subst hi
    simp [hj]
  · by_cases hlt : i / 8 < 512
    · rw [dif_pos hlt, dif_pos hlt, if_neg hi, Vector.getElem_set_ne _ _ (Ne.symm hi)]
    · rw [dif_neg hlt, dif_neg hlt, if_neg hi]

theorem orByte_covers {mask : BitVec 8} (hj : j < 512) :
    ∃ c', c.orByte j mask = some c' ∧
      ∀ i, c'.covers i = (c.covers i || (decide (i / 8 = j) && mask.getLsbD (i % 8))) := by
  refine ⟨c.set j ((c)[j] ||| mask), dif_pos hj, fun i => ?_⟩
  rw [covers_set hj]
  by_cases hi : i / 8 = j
  · subst hi
    simp [covers, hj]
  · simp [hi]

theorem fillBytes_covers (n : Nat) : ∀ (c : Coverage) (i : Nat), i + n ≤ 512 →
    ∃ c', c.fillBytes i n = some c' ∧
      ∀ k, c'.covers k = (c.covers k || decide (i ≤ k / 8 ∧ k / 8 < i + n)) := by
  induction n with
  | zero =>
    intro c i _
    refine ⟨c, rfl, fun k => ?_⟩
    have hempty : ¬ (i ≤ k / 8 ∧ k / 8 < i + 0) := by omega
    rw [decide_eq_false hempty, Bool.or_false]
  | succ n ih =>
    intro c i hi
    have hlt : i < 512 := by omega
    obtain ⟨c', hfill, hcovers⟩ := ih (c.set i 0xff) (i + 1) (by omega)
    refine ⟨c', (dif_pos hlt).trans hfill, fun k => ?_⟩
    have hones : (0xff#8 : BitVec 8).getLsbD (k % 8) = true := by
      have hmask := @highMask_getLsbD 0 (k % 8) (by omega) (by omega)
      rwa [BitVec.shiftLeft_zero, decide_eq_true (Nat.zero_le _)] at hmask
    rw [hcovers, covers_set hlt]
    by_cases hk : k / 8 = i
    · rw [if_pos hk]
      have hin : i ≤ k / 8 ∧ k / 8 < i + (n + 1) := by omega
      simp [hones, hin]
    · rw [if_neg hk]
      congr 1
      exact decide_eq_decide.mpr (by omega)

/-- **The masks of the bulk path** cover the range and nothing else. -/
theorem coverRange_covers {offset last : Nat} (hlt : offset < last) (hlast : last ≤ 4096) :
    ∃ c', c.coverRange offset last = some c' ∧
      ∀ k, c'.covers k = (c.covers k || decide (offset ≤ k ∧ k < last)) := by
  unfold coverRange
  simp only [shiftRight_three, and_seven]
  by_cases hsame : offset / 8 = (last - 1) / 8
  · rw [if_pos hsame]
    obtain ⟨c', hor, hcovers⟩ := @orByte_covers c (offset / 8)
      (((1#8 <<< (last - offset)) - 1#8) <<< (offset % 8)) (by omega)
    refine ⟨c', hor, fun k => ?_⟩
    rw [hcovers, rangeMask_getLsbD (by omega) (by omega), ← Bool.decide_and]
    congr 1
    exact decide_eq_decide.mpr (by omega)
  · rw [if_neg hsame]
    obtain ⟨c₁, hor₁, hcovers₁⟩ := @orByte_covers c (offset / 8) (0xff#8 <<< (offset % 8))
      (by omega)
    obtain ⟨c₂, hfill, hcovers₂⟩ := fillBytes_covers
      ((last - 1) / 8 - (offset / 8 + 1)) c₁ (offset / 8 + 1) (by omega)
    obtain ⟨c₃, hor₂, hcovers₃⟩ := @orByte_covers c₂ ((last - 1) / 8)
      ((1#8 <<< ((last - 1) % 8 + 1)) - 1#8) (by omega)
    refine ⟨c₃, by simp [hor₁, hfill, hor₂], fun k => ?_⟩
    have hlow : ((1#8 <<< ((last - 1) % 8 + 1)) - 1#8).getLsbD (k % 8) =
        decide (k % 8 < (last - 1) % 8 + 1) := by
      have hmask := @rangeMask_getLsbD 0 ((last - 1) % 8 + 1) (k % 8) (by omega) (by omega)
      rw [BitVec.shiftLeft_zero] at hmask
      rw [hmask]
      exact decide_eq_decide.mpr (by omega)
    rw [hcovers₃, hcovers₂, hcovers₁, highMask_getLsbD (by omega) (by omega), hlow,
      Bool.or_assoc, Bool.or_assoc, ← Bool.decide_and, ← Bool.decide_and, ← Bool.decide_or,
      ← Bool.decide_or]
    congr 1
    exact decide_eq_decide.mpr (by omega)

theorem test_eq (hi : i < 4096) : c.test i = some (c.covers i) := by
  have hlt : i / 8 < 512 := by omega
  rw [test, covers, dif_pos hlt, dif_pos (by rwa [shiftRight_three])]
  simp only [shiftRight_three, and_seven]
  exact congrArg some (BitWords.test_bit _ (by omega))

theorem orBit_covers (hi : i < 4096) :
    ∃ c', c.orByte (i >>> 3) (1#8 <<< (i &&& 7)) = some c' ∧
      ∀ k, c'.covers k = (c.covers k || decide (k = i)) := by
  rw [shiftRight_three, and_seven]
  obtain ⟨c', hor, hcovers⟩ := @orByte_covers c (i / 8) (1#8 <<< (i % 8)) (by omega)
  refine ⟨c', hor, fun k => ?_⟩
  have hmask := @rangeMask_getLsbD (i % 8) 1 (k % 8) (by omega) (by omega)
  have hone : (1#8 <<< 1) - 1#8 = 1#8 := by decide
  rw [hone] at hmask
  rw [hcovers, hmask, ← Bool.decide_and]
  congr 1
  exact decide_eq_decide.mpr (by omega)

/-- The covered prefix ends where the loop stops. -/
theorem advance_spec (n : Nat) : ∀ start, start + n ≤ 4096 →
    ∃ m, c.advance n start = some m ∧ start ≤ m ∧ m ≤ start + n ∧
      (∀ i, start ≤ i → i < m → c.covers i = true) ∧
      (m < start + n → c.covers m = false) := by
  induction n with
  | zero =>
    intro start _
    exact ⟨start, rfl, le_rfl, le_rfl, fun i h₁ h₂ => by omega, fun h => by omega⟩
  | succ n ih =>
    intro start hle
    rw [advance, test_eq (by omega)]
    cases hc : c.covers start with
    | false =>
      exact ⟨start, rfl, le_rfl, by omega, fun i h₁ h₂ => by omega, fun _ => hc⟩
    | true =>
      obtain ⟨m, hadvance, hge, hle', hall, hstop⟩ := ih (start + 1) (by omega)
      refine ⟨m, hadvance, by omega, by omega, fun i h₁ h₂ => ?_, fun h => hstop (by omega)⟩
      by_cases hi : i = start
      · exact hi ▸ hc
      · exact hall i (by omega) h₂

end Coverage

namespace CryptoReassembler

/-- **The slow path** writes the bytes that were not there. -/
theorem retainBytes_spec (data : List UInt8) :
    ∀ (r : CryptoReassembler) (position : Nat), position + data.length ≤ 4096 →
      ∃ stored covered, r.retainBytes position data = some { r with data := stored, covered } ∧
        (∀ i, covered.covers i = (r.covered.covers i || (valueAt (position, data) i).isSome)) ∧
        ∀ (i : Nat) (hi : i < 4096), stored[i] =
          if r.covered.covers i then r.data[i] else (valueAt (position, data) i).getD r.data[i] := by
  induction data with
  | nil =>
    intro r position _
    refine ⟨r.data, r.covered, rfl, fun i => ?_, fun i hi => ?_⟩
    · simp [valueAt]
    · simp [valueAt]
  | cons b data ih =>
    intro r position hle
    rw [List.length_cons] at hle
    rw [retainBytes, Coverage.test_eq (by omega)]
    cases hc : r.covered.covers position with
    | true =>
      obtain ⟨stored, covered, hretain, hcovers, hstored⟩ := ih r (position + 1) (by omega)
      refine ⟨stored, covered, hretain, fun i => ?_, fun i hi => ?_⟩
      · rw [hcovers, valueAt_cons]
        split
        next heq => simp [heq, hc]
        next => rfl
      · rw [hstored i hi, valueAt_cons]
        by_cases heq : i = position
        · subst heq
          simp [hc]
        · simp [heq]
    | false =>
      have hlt : position < 4096 := by omega
      obtain ⟨c', hor, hbit⟩ := @Coverage.orBit_covers r.covered position hlt
      obtain ⟨stored, covered, hretain, hcovers, hstored⟩ :=
        ih { r with data := r.data.set position b, covered := c' } (position + 1) (by omega)
      refine ⟨stored, covered, ?_, fun i => ?_, fun i hi => ?_⟩
      · simp [hlt, hor, hretain]
      · rw [hcovers, hbit, valueAt_cons]
        by_cases heq : i = position
        · simp [heq]
        · simp [heq]
      · rw [hstored i hi, hbit, valueAt_cons]
        by_cases heq : i = position
        · subst heq
          simp [hc]
        · simp [heq, Ne.symm heq]

end CryptoReassembler

end Dae
