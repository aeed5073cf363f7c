import Dae.Lib.BitWords
import Dae.Lib.Signed

/-!
# Compact bit lists

`CompactBitList` (`pkg/trie/internal/bitlist`) keeps numbers of one bit size packed
into 16-bit words.  `Set` writes a number bit by bit, `Get` puts it together from
the words it spans.

A run-time panic is `none`; a Go `int` that may become negative is an `Int`.
-/

namespace Dae

open BitWords

/-- Indexing a slice. -/
def index {α : Type} (l : List α) (i : Int) : Option α :=
  if i < 0 then none else l[i.toNat]?

/-- `bits.Len64`. -/
def len64 (v : BitVec 64) : Nat := Nat.size v.toNat

structure CompactBitList where
  unitBitSize : Nat
  b : List (BitVec 16)
  unitNum : Nat
deriving Repr, DecidableEq

def newCompactBitList (unitBitSize : Nat) : CompactBitList := ⟨unitBitSize, [], 0⟩

namespace CompactBitList

def growByUnitIndex (m : CompactBitList) (i : Nat) : CompactBitList :=
  let bitBoundary := (i + 1) * m.unitBitSize
  if m.b.length * 16 < bitBoundary then
    let needBytes := bitBoundary / 16 + if bitBoundary % 16 ≠ 0 then 1 else 0
    { m with b := m.b ++ List.replicate (needBytes - m.b.length) 0 }
  else m

/-- `b[i] &= ^(1 << pos)` and `b[i] |= val`. -/
def writeBit (b : List (BitVec 16)) (i pos : Nat) (val : BitVec 16) : Option (List (BitVec 16)) :=
  if i < b.length then some (b.modify i fun word => (word &&& ~~~(1#16 <<< pos)) ||| val)
  else none

/-- The inner loops of `Set`, which run on while `cond k`. -/
def writeBits (i : Nat) (cond : Nat → Bool) (pos : Nat → Nat) (val : Nat → BitVec 16) :
    Nat → Nat → List (BitVec 16) → Option (Nat × List (BitVec 16))
  | 0, k, b => some (k, b)
  | fuel + 1, k, b =>
    if cond k then do
      let b ← writeBit b i (pos k) (val k)
      writeBits i cond pos val fuel (k + 1) b
    else some (k, b)

/-- The outer loop of `Set`.  No inner loop runs more than 16 rounds. -/
def setLoop : Nat → BitVec 64 → Nat → Nat → Nat → List (BitVec 16) → Option (List (BitVec 16))
  | 0, _, _, _, _, b => some b
  | fuel + 1, v, unitToTravel, i, j, b =>
    if 0 < unitToTravel then do
      let (k, b) ← writeBits i (fun k => decide (k < unitToTravel) && decide (j + k < 16))
        (fun k => k + j) (fun k => ((v &&& (1#64 <<< k)) <<< j).setWidth 16) 16 0 b
      if unitToTravel ≤ k then some b
      else do
        let bakJ := j
        let j := k
        let (_, b) ← writeBits (i + 1) (fun k => decide (k < unitToTravel) && decide (k < 16))
          (fun k => k - j) (fun k => ((v &&& (1#64 <<< k)) >>> j).setWidth 16) 16 k b
        setLoop fuel (v >>> 16) (unitToTravel - 16) (i + 1) ((bakJ + 16) % 16) b
    else some b

def set (m : CompactBitList) (iUnit : Nat) (v : BitVec 64) : Option CompactBitList :=
  if m.unitBitSize < len64 v then none
  else do
    let m := m.growByUnitIndex iUnit
    let i := iUnit * m.unitBitSize / 16
    let j := iUnit * m.unitBitSize % 16
    let b ← setLoop m.unitBitSize v m.unitBitSize i j m.b
    some { m with b, unitNum := max m.unitNum (iUnit + 1) }

def append (m : CompactBitList) (v : BitVec 64) : Option CompactBitList := m.set m.unitNum v

/-- The loop of `Get` over whole words, and the last word. -/
def getLoop (b : List (BitVec 16)) : Nat → BitVec 64 → Nat → Nat → Nat → Option (BitVec 64)
  | 0, _, _, _, _ => none
  | fuel + 1, v, unitToTravel, i, offset =>
    if 16 ≤ unitToTravel then do
      let word ← b[i]?
      getLoop b fuel (v ||| (word.setWidth 64 <<< offset)) (unitToTravel - 16) (i + 1) (offset + 16)
    else if unitToTravel = 0 then some v
    else do
      let word ← b[i]?
      let toTrimLeft := 16 - unitToTravel
      if toTrimLeft < offset then
        some (v ||| ((word <<< toTrimLeft).setWidth 64 <<< (offset - toTrimLeft)))
      else
        some (v ||| ((word <<< toTrimLeft).setWidth 64 >>> (toTrimLeft - offset)))

/-- `Get`; a unit behind the last word reads as zero. -/
def get (m : CompactBitList) (iUnit : Int) : Option (BitVec 64) :=
  let bitBoundary := (iUnit + 1) * m.unitBitSize
  if (m.b.length : Int) * 16 < bitBoundary then some 0
  else do
    let i := (iUnit * m.unitBitSize).tdiv 16
    let j := (iUnit * m.unitBitSize).tmod 16
    let word ← index m.b i
    let byteSpace := 16 - j
    if (m.unitBitSize : Int) < byteSpace then
      let toTrimLeft := byteSpace - m.unitBitSize
      some (((word <<< toTrimLeft.toNat) >>> (toTrimLeft + j).toNat).setWidth 64)
    else
      let offset := byteSpace.toNat
      getLoop m.b (m.unitBitSize + 1) ((word >>> j.toNat).setWidth 64) (m.unitBitSize - offset)
        (i.toNat + 1) offset

/-- `Get` that panics at a unit that was never set. -/
def getChecked (m : CompactBitList) (iUnit : Int) : Option (BitVec 64) :=
  if iUnit < 0 ∨ (m.unitNum : Int) ≤ iUnit then none else m.get iUnit

/-! ### Writing -/

variable {b : List (BitVec 16)} {i : Nat}

theorem writeBit_spec {pos : Nat} {val : BitVec 16} {x : Bool}
    (hi : i < b.length) (hpos : pos < 16)
    (hval : ∀ q < 16, val.getLsbD q = (x && decide (q = pos))) :
    ∃ b', writeBit b i pos val = some b' ∧ b'.length = b.length ∧
      ∀ p, bit b' p = if p = 16 * i + pos then x else bit b p := by
  refine ⟨_, if_pos hi, List.length_modify .., ?_⟩
  intro p
  have hq : p % 16 < 16 := Nat.mod_lt p (by omega)
  rw [bit, bit, List.getD_eq_getElem?_getD, List.getD_eq_getElem?_getD, List.getElem?_modify]
  by_cases hp : p / 16 = i
  · subst hp
    rw [List.getElem?_eq_getElem hi]
    simp only [Option.map_eq_map, Option.map_some, Option.getD_some, if_true, BitVec.getLsbD_or,
      BitVec.getLsbD_and, BitVec.getLsbD_not, BitVec.getLsbD_shiftLeft, hval _ hq]
    by_cases hpp : p % 16 = pos
    · have : p = 16 * (p / 16) + pos := by omega
      rw [if_pos this]
      simp [hpp]
    · have : ¬ p = 16 * (p / 16) + pos := by omega
      rw [if_neg this]
      have hlt : p % 16 < pos ∨ 0 < p % 16 - pos := by omega
      rcases hlt with hlt | hlt
      · simp [hpp, hq, hlt]
      · simp [hpp, hq]
        omega
  · have : ¬ p = 16 * i + pos := by omega
    rw [if_neg this]
    simp [Ne.symm hp]

/-- The bits `start` to `stop` of `v` now stand at the positions from `base` on, and every
other bit is as it was. -/
def Wrote (v : BitVec 64) (base start stop : Nat) (b b' : List (BitVec 16)) : Prop :=
  b'.length = b.length ∧ ∀ p, bit b' p =
    if base + start ≤ p ∧ p < base + stop then v.getLsbD (p - base) else bit b p

theorem Wrote.refl (v : BitVec 64) (base start : Nat) (b : List (BitVec 16)) :
    Wrote v base start start b b := by
  refine ⟨rfl, ?_⟩
  intro p
  rw [if_neg (by omega)]

variable {v : BitVec 64} {base stop : Nat}

theorem Wrote.trans {start mid : Nat} {b₁ b₂ : List (BitVec 16)}
    (h : Wrote v base start mid b b₁) (h' : Wrote v base mid stop b₁ b₂) (hle : start ≤ mid)
    (hle' : mid ≤ stop) : Wrote v base start stop b b₂ := by
  refine ⟨h'.1.trans h.1, ?_⟩
  intro p
  rw [h'.2 p, h.2 p]
  by_cases hp : base + mid ≤ p
  · by_cases hp' : p < base + stop
    · rw [if_pos ⟨hp, hp'⟩, if_pos (by omega)]
    · rw [if_neg (by omega), if_neg (by omega), if_neg (by omega)]
  · rw [if_neg (by omega)]
    by_cases hp' : base + start ≤ p
    · rw [if_pos (by omega), if_pos (by omega)]
    · rw [if_neg (by omega), if_neg (by omega)]

variable {n : Nat}

theorem Wrote.of_shift {b' : List (BitVec 16)}
    (h : Wrote (v >>> n) (base + n) 0 stop b b') : Wrote v base n (n + stop) b b' := by
  refine ⟨h.1, ?_⟩
  intro p
  rw [h.2 p, Nat.add_zero, Nat.add_assoc base n stop, BitVec.getLsbD_ushiftRight]
  by_cases hp : base + n ≤ p ∧ p < base + (n + stop)
  · rw [if_pos hp, if_pos hp]
    congr 1
    omega
  · rw [if_neg hp, if_neg hp]

variable {fuel : Nat}

/-- One of the inner loops writes the bits from `start` to `stop`. -/
theorem writeBits_spec {start : Nat} {cond : Nat → Bool} {pos : Nat → Nat}
    {val : Nat → BitVec 16} (hi : i < b.length)
    (hrun : ∀ k, start ≤ k → k < stop → cond k = true ∧ 16 * i + pos k = base + k ∧ pos k < 16 ∧
      ∀ q < 16, (val k).getLsbD q = (v.getLsbD k && decide (q = pos k)))
    (hstop : cond stop = false) (hle : start ≤ stop) (hfuel : stop ≤ start + fuel) :
    ∃ b', writeBits i cond pos val fuel start b = some (stop, b') ∧ Wrote v base start stop b b' := by
  induction fuel generalizing start b with
  | zero =>
    obtain rfl : start = stop := by omega
    exact ⟨b, rfl, .refl v base start b⟩
  | succ fuel ih =>
    by_cases hlt : start < stop
    · obtain ⟨hcond, hbase, hpos, hval⟩ := hrun start le_rfl hlt
      obtain ⟨b₁, hb₁, hlen₁, hbit₁⟩ := writeBit_spec hi hpos hval
      have hone : Wrote v base start (start + 1) b b₁ := by
        refine ⟨hlen₁, ?_⟩
        intro p
        rw [hbit₁ p]
        by_cases hp : p = base + start
        · rw [if_pos (by omega), if_pos (by omega), hp, Nat.add_sub_cancel_left]
        · rw [if_neg (by omega), if_neg (by omega)]
      have hrest : ∃ b', writeBits i cond pos val fuel (start + 1) b₁ = some (stop, b') ∧
          Wrote v base (start + 1) stop b₁ b' :=
        ih (by omega) (fun k hk => hrun k (by omega)) (by omega) (by omega)
      obtain ⟨b', hb', hwrote⟩ := hrest
      refine ⟨b', ?_, hone.trans hwrote (by omega) (by omega)⟩
      rw [writeBits, if_pos hcond, hb₁]
      exact hb'
    · obtain rfl : start = stop := by omega
      exact ⟨b, by rw [writeBits, hstop]; rfl, .refl v base start b⟩

variable {k j q : Nat}

theorem getLsbD_shifted_up (v : BitVec 64) (hk : k + j < 16) (hq : q < 16) :
    (((v &&& (1#64 <<< k)) <<< j).setWidth 16).getLsbD q =
      (v.getLsbD k && decide (q = k + j)) := by
  rw [BitVec.getLsbD_setWidth, BitVec.getLsbD_shiftLeft, BitVec.getLsbD_and,
    BitVec.getLsbD_shiftLeft, BitVec.getLsbD_one]
  by_cases h : q = k + j
  · subst h
    have : k < 64 := by omega
    have : k + j < 64 := by omega
    simp_all
  · have hne : q < j ∨ q - j < k ∨ 0 < q - j - k := by omega
    rcases hne with hne | hne | hne
    · simp [h, hne]
    · simp [h, hne]
    · simp [h]
      omega

theorem getLsbD_shifted_down (v : BitVec 64) (hk : k < 16) (hj : j ≤ k) (hq : q < 16) :
    (((v &&& (1#64 <<< k)) >>> j).setWidth 16).getLsbD q =
      (v.getLsbD k && decide (q = k - j)) := by
  rw [BitVec.getLsbD_setWidth, BitVec.getLsbD_ushiftRight, BitVec.getLsbD_and,
    BitVec.getLsbD_shiftLeft, BitVec.getLsbD_one]
  by_cases h : q = k - j
  · subst h
    have : j + (k - j) = k := by omega
    have : k < 64 := by omega
    simp_all
  · have hne : j + q < k ∨ 0 < j + q - k := by omega
    rcases hne with hne | hne
    · simp [h, hne]
    · simp [h]
      omega

/-- **`Set` writes the unit** and leaves every other bit alone. -/
theorem setLoop_spec {unitToTravel : Nat}
    (hj : j < 16) (hroom : 16 * i + j + unitToTravel ≤ 16 * b.length) (hfuel : unitToTravel ≤ fuel) :
    ∃ b', setLoop fuel v unitToTravel i j b = some b' ∧
      Wrote v (16 * i + j) 0 unitToTravel b b' := by
  induction fuel generalizing v unitToTravel i b with
  | zero =>
    obtain rfl : unitToTravel = 0 := by omega
    exact ⟨b, rfl, .refl ..⟩
  | succ fuel ih =>
    by_cases hpos : 0 < unitToTravel
    swap
    · obtain rfl : unitToTravel = 0 := by omega
      exact ⟨b, rfl, .refl ..⟩
    -- the rest of word `i`
    have hfirst : ∃ b₁, writeBits i
          (fun k => decide (k < unitToTravel) && decide (j + k < 16)) (fun k => k + j)
          (fun k => ((v &&& (1#64 <<< k)) <<< j).setWidth 16) 16 0 b =
            some (min unitToTravel (16 - j), b₁) ∧
        Wrote v (16 * i + j) 0 (min unitToTravel (16 - j)) b b₁ :=
      writeBits_spec (by omega) (fun k _ hk => ⟨by simp; omega, by omega, by omega,
        fun q hq => getLsbD_shifted_up v (by omega) hq⟩) (by simp; omega) (by omega) (by omega)
    obtain ⟨b₁, hb₁, hwrote₁⟩ := hfirst
    by_cases hlast : unitToTravel ≤ min unitToTravel (16 - j)
    · refine ⟨b₁, ?_, by rwa [Nat.min_eq_left (by omega)] at hwrote₁⟩
      rw [setLoop, if_pos hpos, hb₁]
      exact if_pos hlast
    have hk : min unitToTravel (16 - j) = 16 - j := by omega
    rw [hk] at hb₁ hwrote₁ hlast
    have hlen₁ := hwrote₁.1
    -- the start of word `i + 1`, up to bit 16 of the value
    have hsecond : ∃ b₂, writeBits (i + 1)
          (fun k => decide (k < unitToTravel) && decide (k < 16)) (fun k => k - (16 - j))
          (fun k => ((v &&& (1#64 <<< k)) >>> (16 - j)).setWidth 16) 16 (16 - j) b₁ =
            some (min unitToTravel 16, b₂) ∧
        Wrote v (16 * i + j) (16 - j) (min unitToTravel 16) b₁ b₂ :=
      writeBits_spec (by omega) (fun k hk _ => ⟨by simp; omega, by omega, by omega,
        fun q hq => getLsbD_shifted_down v (by omega) (by omega) hq⟩) (by simp; omega) (by omega)
        (by omega)
    obtain ⟨b₂, hb₂, hwrote₂⟩ := hsecond
    have hlen₂ := hwrote₂.1
    have hrest : ∃ b₃, setLoop fuel (v >>> 16) (unitToTravel - 16) (i + 1) j b₂ = some b₃ ∧
        Wrote (v >>> 16) (16 * (i + 1) + j) 0 (unitToTravel - 16) b₂ b₃ :=
      ih (by omega) (by omega)
    obtain ⟨b₃, hb₃, hwrote₃⟩ := hrest
    refine ⟨b₃, ?_, ?_⟩
    · have hmod : (j + 16) % 16 = j := by omega
      rw [setLoop, if_pos hpos, hb₁]
      show (if unitToTravel ≤ 16 - j then _ else _) = _
      rw [if_neg hlast, hb₂]
      show setLoop fuel (v >>> 16) (unitToTravel - 16) (i + 1) ((j + 16) % 16) b₂ = _
      rw [hmod, hb₃]
    · have hwrote := hwrote₁.trans hwrote₂ (by omega) (by omega)
      by_cases hlong : unitToTravel ≤ 16
      · have hzero : unitToTravel - 16 = 0 := by omega
        rw [hzero] at hb₃
        cases fuel <;> cases hb₃ <;> rwa [Nat.min_eq_left hlong] at hwrote
      · rw [Nat.min_eq_right (by omega)] at hwrote
        rw [show 16 * (i + 1) + j = 16 * i + j + 16 by omega] at hwrote₃
        have hall := hwrote.trans hwrote₃.of_shift (by omega) (by omega)
        rwa [Nat.add_sub_cancel' (by omega)] at hall

/-! ### Reading -/

/-- The low `n` bits of `v` are those of the list from `base` on; it has no others. -/
def Reads (b : List (BitVec 16)) (base n : Nat) (v : BitVec 64) : Prop :=
  ∀ k < 64, v.getLsbD k = (decide (k < n) && bit b (base + k))

theorem bit_getElem {word : BitVec 16} (hword : b[i]? = some word)
    (hq : q < 16) : bit b (16 * i + q) = word.getLsbD q := by
  rw [bit_word b i hq, List.getD_eq_getElem?_getD, hword, Option.getD_some]

theorem Reads.or {m : Nat} {x : BitVec 64} {word : BitVec 16}
    (hv : Reads b base n v) (hword : b[i]? = some word) (hi : 16 * i = base + n) (hm : m ≤ 16)
    (hx : ∀ k < 64, x.getLsbD k = (decide (n ≤ k) && decide (k < n + m) && word.getLsbD (k - n))) :
    Reads b base (n + m) (v ||| x) := by
  intro k hk
  rw [BitVec.getLsbD_or, hv k hk, hx k hk]
  by_cases hkn : n ≤ k
  · by_cases hkm : k < n + m
    · have hbit := bit_getElem hword (q := k - n) (by omega)
      rw [show 16 * i + (k - n) = base + k by omega] at hbit
      simp [hkn, hkm, hbit]
    · simp [hkm]
      omega
  · have hlt : k < n := by omega
    have hlt' : k < n + m := by omega
    simp [hkn, hlt, hlt']

theorem getLoop_spec {offset unitToTravel : Nat}
    (hv : Reads b base offset v) (hi : 16 * i = base + offset)
    (hroom : base + offset + unitToTravel ≤ 16 * b.length) (hfuel : unitToTravel < fuel) :
    ∃ r, getLoop b fuel v unitToTravel i offset = some r ∧
      Reads b base (offset + unitToTravel) r := by
  induction fuel generalizing i offset unitToTravel v with
  | zero => omega
  | succ fuel ih =>
    by_cases hlong : 16 ≤ unitToTravel
    · obtain ⟨word, hword⟩ : ∃ word, b[i]? = some word :=
        ⟨_, List.getElem?_eq_getElem (by omega)⟩
      have hor : Reads b base (offset + 16) (v ||| (word.setWidth 64 <<< offset)) := by
        refine hv.or hword hi le_rfl ?_
        intro k hk
        rw [BitVec.getLsbD_shiftLeft, BitVec.getLsbD_setWidth]
        by_cases hkn : offset ≤ k
        · by_cases hkm : k < offset + 16
          · have : k - offset < 64 := by omega
            simp [hk, hkn, hkm, this]
          · rw [BitVec.getLsbD_of_ge word (k - offset) (by omega)]
            simp
        · simp [hkn]
      obtain ⟨r, hr, hreads⟩ : ∃ r, getLoop b fuel (v ||| (word.setWidth 64 <<< offset))
            (unitToTravel - 16) (i + 1) (offset + 16) = some r ∧
          Reads b base (offset + 16 + (unitToTravel - 16)) r :=
        ih hor (by omega) (by omega) (by omega)
      refine ⟨r, ?_, ?_⟩
      · rw [getLoop, if_pos hlong, hword]
        exact hr
      · rwa [show offset + 16 + (unitToTravel - 16) = offset + unitToTravel by omega] at hreads
    · by_cases hzero : unitToTravel = 0
      · subst hzero
        exact ⟨v, by rw [getLoop, if_neg hlong, if_pos rfl], hv⟩
      · obtain ⟨word, hword⟩ : ∃ word, b[i]? = some word :=
          ⟨_, List.getElem?_eq_getElem (by omega)⟩
        rw [getLoop, if_neg hlong, if_neg hzero, hword]
        by_cases htrim : 16 - unitToTravel < offset
        · refine ⟨_, if_pos htrim, hv.or hword hi (by omega) ?_⟩
          intro k hk
          rw [BitVec.getLsbD_shiftLeft, BitVec.getLsbD_setWidth, BitVec.getLsbD_shiftLeft]
          by_cases hkn : offset ≤ k ∧ k < offset + unitToTravel
          · have h₁ : ¬ k < offset - (16 - unitToTravel) := by omega
            have h₂ : k - (offset - (16 - unitToTravel)) < 16 := by omega
            have h₃ : ¬ k - (offset - (16 - unitToTravel)) < 16 - unitToTravel := by omega
            rw [show k - (offset - (16 - unitToTravel)) - (16 - unitToTravel) = k - offset by omega]
            simp only [hk, h₁, h₂, h₃, hkn, decide_true, decide_false, Bool.not_false, Bool.true_and,
              Nat.lt_trans h₂ (by omega : 16 < 64)]
          · have : k - (offset - (16 - unitToTravel)) < 16 - unitToTravel ∨
                ¬ k - (offset - (16 - unitToTravel)) < 16 := by omega
            rw [Bool.eq_iff_iff]
            simp
            omega
        · refine ⟨_, if_neg htrim, hv.or hword hi (by omega) ?_⟩
          intro k hk
          rw [BitVec.getLsbD_ushiftRight, BitVec.getLsbD_setWidth, BitVec.getLsbD_shiftLeft]
          by_cases hkn : offset ≤ k ∧ k < offset + unitToTravel
          · have h₂ : 16 - unitToTravel - offset + k < 16 := by omega
            have h₃ : ¬ 16 - unitToTravel - offset + k < 16 - unitToTravel := by omega
            rw [show 16 - unitToTravel - offset + k - (16 - unitToTravel) = k - offset by omega]
            simp only [h₂, h₃, hkn, decide_true, decide_false, Bool.not_false, Bool.true_and,
              Nat.lt_trans h₂ (by omega : 16 < 64)]
          · rw [Bool.eq_iff_iff]
            simp
            omega

variable {m : CompactBitList}

/-- `Get` reads the bits of the unit. -/
theorem get_reads (hroom : (n + 1) * m.unitBitSize ≤ 16 * m.b.length) (hpos : 0 < m.unitBitSize) :
    ∃ v, m.get n = some v ∧ Reads m.b (n * m.unitBitSize) m.unitBitSize v := by
  rw [Nat.add_mul, Nat.one_mul] at hroom
  have hdiv : ((n : Int) * m.unitBitSize).tdiv 16 = ((n * m.unitBitSize / 16 : Nat) : Int) := by
    rw [Int.tdiv_eq_ediv_of_nonneg (by positivity)]
    push_cast
    rfl
  have hmod : ((n : Int) * m.unitBitSize).tmod 16 = ((n * m.unitBitSize % 16 : Nat) : Int) := by
    rw [Int.tmod_eq_emod_of_nonneg (by positivity)]
    push_cast
    rfl
  have hbound : ¬ (m.b.length : Int) * 16 < ((n : Int) + 1) * m.unitBitSize := by
    push_cast [Int.add_mul]
    have : ((n * m.unitBitSize : Nat) : Int) = n * m.unitBitSize := by push_cast; rfl
    omega
  obtain ⟨word, hword⟩ : ∃ word, m.b[n * m.unitBitSize / 16]? = some word :=
    ⟨_, List.getElem?_eq_getElem (by omega)⟩
  have hindex : index m.b ((n * m.unitBitSize / 16 : Nat) : Int) = some word := by
    rw [index, if_neg (by omega), Int.toNat_natCast, hword]
  generalize hbase : n * m.unitBitSize = base at *
  have hsplit : 16 * (base / 16) + base % 16 = base := Nat.div_add_mod base 16
  rw [get]
  simp only [hbound, if_false, hdiv, hmod, hindex, Option.bind_eq_bind, Option.bind_some]
  by_cases hshort : (m.unitBitSize : Int) < 16 - ((base % 16 : Nat) : Int)
  · refine ⟨_, if_pos hshort, ?_⟩
    intro k hk
    have htrim : (16 - ((base % 16 : Nat) : Int) - m.unitBitSize).toNat =
        16 - base % 16 - m.unitBitSize := by omega
    have hright : (16 - ((base % 16 : Nat) : Int) - m.unitBitSize + ((base % 16 : Nat) : Int)).toNat =
        16 - m.unitBitSize := by omega
    rw [htrim, hright, BitVec.getLsbD_setWidth, BitVec.getLsbD_ushiftRight, BitVec.getLsbD_shiftLeft]
    by_cases hkn : k < m.unitBitSize
    · have hbit := bit_getElem hword (q := base % 16 + k) (by omega)
      rw [← Nat.add_assoc, hsplit] at hbit
      have h₁ : 16 - m.unitBitSize + k < 16 := by omega
      have h₂ : ¬ 16 - m.unitBitSize + k < 16 - base % 16 - m.unitBitSize := by omega
      rw [show 16 - m.unitBitSize + k - (16 - base % 16 - m.unitBitSize) = base % 16 + k by omega]
      simp only [hk, hkn, h₁, h₂, hbit, decide_true, decide_false, Bool.not_false, Bool.true_and]
    · have : ¬ 16 - m.unitBitSize + k < 16 := by omega
      simp [hkn, this]
  · have hoffset : (16 - ((base % 16 : Nat) : Int)).toNat = 16 - base % 16 := by omega
    have hfirst : Reads m.b base (16 - base % 16) ((word >>> (base % 16)).setWidth 64) := by
      intro k hk
      rw [BitVec.getLsbD_setWidth, BitVec.getLsbD_ushiftRight]
      by_cases hkn : k < 16 - base % 16
      · have hbit := bit_getElem hword (q := base % 16 + k) (by omega)
        rw [← Nat.add_assoc, hsplit] at hbit
        simp [hk, hkn, hbit]
      · rw [BitVec.getLsbD_of_ge word _ (by omega)]
        simp [hkn]
    obtain ⟨v, hv, hreads⟩ : ∃ v, getLoop m.b (m.unitBitSize + 1) ((word >>> (base % 16)).setWidth 64)
          (m.unitBitSize - (16 - base % 16)) (base / 16 + 1) (16 - base % 16) = some v ∧
        Reads m.b base (16 - base % 16 + (m.unitBitSize - (16 - base % 16))) v :=
      getLoop_spec hfirst (by omega) (by omega) (by omega)
    refine ⟨v, ?_, by rwa [Nat.add_sub_cancel' (by omega)] at hreads⟩
    rw [if_neg hshort, hoffset, Int.toNat_natCast, Int.toNat_natCast, hv]

/-! ### Contents -/

/-- The numbers a list holds. -/
structure Holds (m : CompactBitList) (values : List (BitVec 64)) : Prop where
  num : m.unitNum = values.length
  room : values.length * m.unitBitSize ≤ 16 * m.b.length
  bits : ∀ i v, values[i]? = some v → ∀ k < m.unitBitSize,
    bit m.b (i * m.unitBitSize + k) = v.getLsbD k
  fits : ∀ v ∈ values, len64 v ≤ m.unitBitSize

theorem holds_new (unitBitSize : Nat) : (newCompactBitList unitBitSize).Holds [] where
  num := rfl
  room := by rw [List.length_nil, Nat.zero_mul]; exact Nat.zero_le _
  bits := by intro i v hv; cases hv
  fits := by intro v hv; cases hv

theorem growByUnitIndex_spec (m : CompactBitList) (i : Nat) :
    (m.growByUnitIndex i).unitBitSize = m.unitBitSize ∧ (m.growByUnitIndex i).unitNum = m.unitNum ∧
      m.b.length ≤ (m.growByUnitIndex i).b.length ∧
      (i + 1) * m.unitBitSize ≤ 16 * (m.growByUnitIndex i).b.length ∧
      ∀ p, bit (m.growByUnitIndex i).b p = bit m.b p := by
  unfold growByUnitIndex
  dsimp only
  by_cases hgrow : m.b.length * 16 < (i + 1) * m.unitBitSize
  · rw [if_pos hgrow]
    refine ⟨rfl, rfl, ?_, ?_, ?_⟩
    · rw [List.length_append]
      exact Nat.le_add_right _ _
    · rw [List.length_append, List.length_replicate]
      split <;> omega
    · exact bit_append_zeros m.b _
  · rw [if_neg hgrow]
    exact ⟨rfl, rfl, le_rfl, by omega, fun _ => rfl⟩

theorem getLsbD_of_len64 (hv : len64 v ≤ n) (hk : n ≤ k) :
    v.getLsbD k = false := by
  have hlt : v.toNat < 2 ^ n := Nat.size_le.mp hv
  rw [← BitVec.testBit_toNat]
  exact Nat.testBit_lt_two_pow (hlt.trans_le (Nat.pow_le_pow_right (by omega) hk))

theorem append_none (h : m.unitBitSize < len64 v) :
    m.append v = none := if_pos h

/-- A bit of unit `j` lies in unit `i` only if the units are the same. -/
theorem mem_unit_iff {w i j k : Nat} (hk : k < w) :
    (i * w ≤ j * w + k ∧ j * w + k < (i + 1) * w) ↔ j = i := by
  constructor
  · rintro ⟨hlow, hhigh⟩
    have hji : j < i + 1 := Nat.lt_of_mul_lt_mul_right (Nat.lt_of_le_of_lt (Nat.le_add_right _ k) hhigh)
    have hij : i < j + 1 := by
      apply Nat.lt_of_mul_lt_mul_right (a := w)
      rw [Nat.add_mul j]
      omega
    omega
  · rintro rfl
    rw [Nat.add_mul]
    omega

/-- `Set` of a number that fits writes the bits of its unit and no others. -/
theorem set_wrote (m : CompactBitList) (n : Nat) (hv : len64 v ≤ m.unitBitSize) :
    ∃ b', m.set n v = some ⟨m.unitBitSize, b', max m.unitNum (n + 1)⟩ ∧ m.b.length ≤ b'.length ∧
      (n + 1) * m.unitBitSize ≤ 16 * b'.length ∧
      ∀ j, ∀ k < m.unitBitSize, bit b' (j * m.unitBitSize + k) =
        if j = n then v.getLsbD k else bit m.b (j * m.unitBitSize + k) := by
  obtain ⟨hunit, hnum, hlength, hroom, hsame⟩ := growByUnitIndex_spec m n
  have hbase : 16 * (n * m.unitBitSize / 16) + n * m.unitBitSize % 16 = n * m.unitBitSize :=
    Nat.div_add_mod _ 16
  have hstop : (n + 1) * m.unitBitSize = n * m.unitBitSize + m.unitBitSize := Nat.succ_mul _ _
  obtain ⟨b', hb', hwrote⟩ : ∃ b', setLoop m.unitBitSize v m.unitBitSize
        (n * m.unitBitSize / 16) (n * m.unitBitSize % 16) (m.growByUnitIndex n).b = some b' ∧
      Wrote v (16 * (n * m.unitBitSize / 16) + n * m.unitBitSize % 16) 0
        m.unitBitSize (m.growByUnitIndex n).b b' :=
    setLoop_spec (Nat.mod_lt _ (by omega)) (by omega) le_rfl
  rw [hbase] at hwrote
  obtain ⟨hlen, hbit⟩ := hwrote
  refine ⟨b', ?_, hlen ▸ hlength, hlen ▸ hroom, ?_⟩
  · rw [set, if_neg (by omega)]
    simp only [hunit, hnum, hb', Option.bind_eq_bind, Option.bind_some]
  · intro j k hk
    rw [hbit, Nat.add_zero, ← hstop, hsame]
    by_cases hj : j = n
    · rw [if_pos ((mem_unit_iff hk).mpr hj), if_pos hj, hj, Nat.add_sub_cancel_left]
    · rw [if_neg (mt (mem_unit_iff hk).mp hj), if_neg hj]

/-- **Appending** a number that fits the unit. -/
theorem append_spec {values : List (BitVec 64)}
    (h : m.Holds values) (hv : len64 v ≤ m.unitBitSize) :
    ∃ m', m.append v = some m' ∧ m'.unitBitSize = m.unitBitSize ∧ m'.Holds (values ++ [v]) := by
  obtain ⟨b', hset, -, hroom, hbit⟩ := set_wrote m m.unitNum hv
  rw [Nat.max_eq_right (Nat.le_succ _)] at hset
  refine ⟨_, hset, rfl, ?_, ?_, ?_, ?_⟩
  · rw [List.length_append, List.length_singleton, h.num]
  · rw [List.length_append, List.length_singleton, ← h.num]
    exact hroom
  · intro i x hx k hk
    change k < m.unitBitSize at hk
    rw [hbit i k hk, h.num]
    by_cases hlast : i = values.length
    · rw [hlast, List.getElem?_append_right le_rfl, Nat.sub_self] at hx
      cases hx
      rw [if_pos hlast]
    · have hi : i < values.length := by
        have := (List.getElem?_eq_some_iff.mp hx).1
        rw [List.length_append, List.length_singleton] at this
        omega
      rw [List.getElem?_append_left hi] at hx
      rw [if_neg hlast, h.bits i x hx k hk]
  · intro x hx
    rcases List.mem_append.mp hx with hx | hx
    · exact h.fits x hx
    · cases List.mem_singleton.mp hx
      exact hv

/-- A number that fits is known by the bits of its unit. -/
theorem Reads.eq {r : BitVec 64} (hreads : Reads b base n r)
    (hbits : ∀ k < n, bit b (base + k) = v.getLsbD k) (hv : len64 v ≤ n) : r = v := by
  apply BitVec.eq_of_getLsbD_eq
  intro k hk
  rw [hreads k hk]
  by_cases hunit : k < n
  · rw [hbits k hunit]
    simp [hunit]
  · rw [getLsbD_of_len64 hv (by omega : n ≤ k)]
    simp [hunit]

/-- **Reading back** a number of the list. -/
theorem get_spec {values : List (BitVec 64)}
    (h : m.Holds values) (hpos : 0 < m.unitBitSize) (hv : values[i]? = some v) :
    m.get i = some v ∧ m.getChecked i = some v := by
  obtain ⟨hi, -⟩ := List.getElem?_eq_some_iff.mp hv
  have hroom := (Nat.mul_le_mul_right m.unitBitSize (Nat.succ_le_of_lt hi)).trans h.room
  obtain ⟨r, hr, hreads⟩ := get_reads hroom hpos
  obtain rfl : r = v := hreads.eq (h.bits i v hv) (h.fits v (List.mem_of_getElem? hv))
  refine ⟨hr, ?_⟩
  have hnum := h.num
  rw [getChecked, if_neg (by omega), hr]

/-! ### Any writes -/

/-- The words for a number of bits. -/
def growTo (m : CompactBitList) (bitBoundary : Nat) : CompactBitList :=
  if m.b.length * 16 < bitBoundary then
    let needBytes := bitBoundary / 16 + if bitBoundary % 16 ≠ 0 then 1 else 0
    { m with b := m.b ++ List.replicate (needBytes - m.b.length) 0 }
  else m

/-- `Set` with the indexes of a 64-bit `int`, which may be negative or overflow. -/
def setInt (m : CompactBitList) (iUnit : Int) (v : BitVec 64) : Option CompactBitList :=
  let start := Signed.wrap64 (iUnit * m.unitBitSize)
  let bitBoundary := Signed.wrap64 ((iUnit + 1) * m.unitBitSize)
  if m.unitBitSize < len64 v then none
  -- the first bit has a negative index or is moved by a negative count
  else if start < 0 then none
  else do
    let m := m.growTo bitBoundary.toNat
    let b ← setLoop m.unitBitSize v m.unitBitSize (start.toNat / 16) (start.toNat % 16) m.b
    some { m with b, unitNum := max m.unitNum (Signed.wrap64 (iUnit + 1)).toNat }

/-- A call of `Set`, or of `Append` if it names no unit. -/
structure Write where
  iUnit : Option Int := none
  v : BitVec 64

def Write.unit (c : Write) (unitNum : Nat) : Int := c.iUnit.getD unitNum

def write (m : CompactBitList) (c : Write) : Option CompactBitList := m.setInt (c.unit m.unitNum) c.v

/-- The number fits its unit, and the unit lies within the bits that an `int` can count. -/
def Write.Fits (unitBitSize unitNum : Nat) (c : Write) : Prop :=
  0 ≤ c.unit unitNum ∧ (c.unit unitNum + 1) * unitBitSize < 2 ^ 63 ∧ len64 c.v ≤ unitBitSize

/-- Every call fits, from a number of units on. -/
def WritesFit (unitBitSize : Nat) : Nat → List Write → Prop
  | _, [] => True
  | unitNum, c :: rest => c.Fits unitBitSize unitNum ∧
      WritesFit unitBitSize (max unitNum ((c.unit unitNum).toNat + 1)) rest

/-- The number last written to each unit. -/
def lastWritten : Nat → List Write → (Nat → BitVec 64) → Nat → BitVec 64
  | _, [], values => values
  | unitNum, c :: rest, values => lastWritten (max unitNum ((c.unit unitNum).toNat + 1)) rest
      (Function.update values (c.unit unitNum).toNat c.v)

/-- The number in every unit; behind the last one there are zeros. -/
structure Stores (m : CompactBitList) (values : Nat → BitVec 64) : Prop where
  room : m.unitNum * m.unitBitSize ≤ 16 * m.b.length
  bits : ∀ i, ∀ k < m.unitBitSize, bit m.b (i * m.unitBitSize + k) = (values i).getLsbD k
  fits : ∀ i, len64 (values i) ≤ m.unitBitSize
  behind : ∀ i, m.unitNum ≤ i → values i = 0

theorem stores_new (unitBitSize : Nat) : (newCompactBitList unitBitSize).Stores fun _ => 0 where
  room := Nat.zero_mul _ ▸ Nat.zero_le _
  bits _ _ _ := by simp [newCompactBitList, bit]
  fits _ := Nat.zero_le _
  behind _ _ := rfl

variable {values : Nat → BitVec 64}

theorem Stores.get (h : m.Stores values) (hpos : 0 < m.unitBitSize) (n : Nat) :
    m.get n = some (values n) := by
  by_cases hroom : (n + 1) * m.unitBitSize ≤ 16 * m.b.length
  · obtain ⟨r, hr, hreads⟩ := get_reads hroom hpos
    rw [hr, hreads.eq (h.bits n) (h.fits n)]
  · have hbehind : m.unitNum ≤ n := by
      by_contra hlt
      exact hroom ((Nat.mul_le_mul_right _ (not_le.mp hlt)).trans h.room)
    have hbound : (m.b.length : Int) * 16 < ((n : Int) + 1) * m.unitBitSize := by
      have : (16 * m.b.length : Int) < ((n + 1) * m.unitBitSize : Nat) := by
        exact_mod_cast not_le.mp hroom
      push_cast at this
      omega
    rw [CompactBitList.get, h.behind n hbehind]
    exact if_pos hbound

/-- An index in range is the index itself. -/
theorem setInt_eq (hpos : 0 < m.unitBitSize) (hn : (n + 1) * m.unitBitSize < 2 ^ 63) :
    m.setInt n v = m.set n v := by
  have hnat : ∀ x : Nat, x ≤ (n + 1) * m.unitBitSize → Signed.wrap64 x = x :=
    fun x hx => Signed.wrap64_eq (by omega) (by omega)
  have hstart := hnat (n * m.unitBitSize) (Nat.mul_le_mul_right _ (Nat.le_succ n))
  have hboundary := hnat _ le_rfl
  have hnext := hnat _ (Nat.le_mul_of_pos_right (n + 1) hpos)
  have hgrow : m.growTo ((n + 1) * m.unitBitSize) = m.growByUnitIndex n := rfl
  have hunit := (growByUnitIndex_spec m n).1
  rw [setInt, set, ← Int.natCast_mul, ← Int.natCast_succ, ← Int.natCast_mul, hstart, hboundary, hnext]
  simp only [Int.toNat_natCast, hgrow, hunit, Int.natCast_nonneg, not_lt.mpr, if_false]

/-- One write. -/
theorem Stores.write {c : Write} (h : m.Stores values) (hpos : 0 < m.unitBitSize)
    (hc : c.Fits m.unitBitSize m.unitNum) :
    ∃ m', m.write c = some m' ∧ m'.unitBitSize = m.unitBitSize ∧
      m'.unitNum = max m.unitNum ((c.unit m.unitNum).toNat + 1) ∧
      m'.Stores (Function.update values (c.unit m.unitNum).toNat c.v) := by
  obtain ⟨hnonneg, hrange, hv⟩ := hc
  obtain ⟨n, hn⟩ := Int.eq_ofNat_of_zero_le hnonneg
  rw [CompactBitList.write]
  rw [hn] at hrange ⊢
  rw [setInt_eq hpos (by exact_mod_cast hrange), Int.toNat_natCast]
  obtain ⟨b', hset, hlength, hroom, hbit⟩ := set_wrote m n hv
  refine ⟨_, hset, rfl, rfl, ?_, ?_, ?_, ?_⟩
  · show max m.unitNum (n + 1) * m.unitBitSize ≤ 16 * b'.length
    rcases max_choice m.unitNum (n + 1) with hmax | hmax
    · rw [hmax]
      exact h.room.trans (Nat.mul_le_mul_left 16 hlength)
    · rw [hmax]
      exact hroom
  · intro j k hk
    rw [hbit j k hk, Function.update_apply]
    split
    · rfl
    · exact h.bits j k hk
  · intro j
    rw [Function.update_apply]
    split
    · exact hv
    · exact h.fits j
  · intro j hj
    have hj : max m.unitNum (n + 1) ≤ j := hj
    rw [Function.update_of_ne (by omega)]
    exact h.behind j (by omega)

/-- **Units are an array.**  Calls of `Set` and `Append` with numbers that fit return, and `Get`
gives the number last written to a unit, or zero if there is none. -/
theorem units_last_written {unitBitSize : Nat} (hpos : 0 < unitBitSize) {calls : List Write}
    (hfit : WritesFit unitBitSize 0 calls) :
    ∃ m, calls.foldlM CompactBitList.write (newCompactBitList unitBitSize) = some m ∧
      ∀ n : Nat, (n + 1) * unitBitSize < 2 ^ 63 →
        m.get n = some (lastWritten 0 calls (fun _ => 0) n) := by
  suffices hrun : ∀ (m : CompactBitList) values, m.unitBitSize = unitBitSize → m.Stores values →
      WritesFit unitBitSize m.unitNum calls →
      ∃ m', calls.foldlM CompactBitList.write m = some m' ∧ m'.unitBitSize = unitBitSize ∧
        m'.Stores (lastWritten m.unitNum calls values) by
    obtain ⟨m, hm, rfl, hstores⟩ := hrun _ _ rfl (stores_new unitBitSize) hfit
    exact ⟨m, hm, fun n _ => hstores.get hpos n⟩
  clear hfit
  induction calls with
  | nil => exact fun m values hunit h _ => ⟨m, rfl, hunit, h⟩
  | cons c calls ih =>
    rintro m values rfl h ⟨hc, hrest⟩
    obtain ⟨m', hm', hunit, hnum, h'⟩ := h.write hpos hc
    rw [← hnum] at hrest
    obtain ⟨m'', hm'', hstores⟩ := ih m' _ hunit h' hrest
    rw [hnum] at hstores
    refine ⟨m'', ?_, hstores⟩
    rw [List.foldlM_cons, hm']
    exact hm''

theorem units_last_written_sample :
    ∃ m, [⟨some 2, 1⟩, ⟨none, 5⟩, ⟨some 2, 2 ^ 35⟩].foldlM CompactBitList.write
        (newCompactBitList 36) = some m ∧ ∀ n : Nat, (n + 1) * 36 < 2 ^ 63 →
      m.get n = some (lastWritten 0 [⟨some 2, 1⟩, ⟨none, 5⟩, ⟨some 2, 2 ^ 35⟩] (fun _ => 0) n) :=
  units_last_written (by decide) (by simp [WritesFit, Write.Fits, Write.unit]; decide)

/-- A unit whose place overflows is written over the first one. -/
theorem write_overflows :
    ∃ m, (newCompactBitList 64).write ⟨some (2 ^ 58), 1⟩ = some m ∧ m.get 0 = some 1 := by
  refine ⟨⟨64, [1, 0, 0, 0], 2 ^ 58 + 1⟩, ?_, ?_⟩
  · decide +kernel
  · decide +kernel

end CompactBitList

end Dae
