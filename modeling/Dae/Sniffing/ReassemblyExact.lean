import Dae.Sniffing.Coverage

/-!
# QUIC CRYPTO reassembly is exact

What is retained is a function of the values that the first frames gave to the bytes of the window
(`Holds`), and both paths of `retain` only add values where there were none (`retain_spec`).  The
payloads are read in two passes; a payload made of frames adds its CRYPTO frames and any other one
nothing.
-/

namespace Dae

namespace CryptoReassembler

variable {r r' : CryptoReassembler} {value value' : Nat → Option UInt8} {offset : Nat}
  {data : List UInt8}

/-- What is retained when the bytes of the window have these values, if any. -/
structure Holds (r : CryptoReassembler) (value : Nat → Option UInt8) : Prop where
  covered : ∀ i < 4096, r.covered.covers i = (value i).isSome
  data : ∀ (i : Nat) (hi : i < 4096), r.data[i] = (value i).getD 0
  size_le : r.dataSize ≤ 4096
  above : ∀ i < 4096, r.dataSize ≤ i → value i = none
  top : 0 < r.dataSize → (value (r.dataSize - 1)).isSome = true
  contiguous_le : r.contiguousSize ≤ r.dataSize
  contiguous : ∀ i < r.contiguousSize, (value i).isSome = true
  hole : r.contiguousSize < 4096 → value r.contiguousSize = none

theorem Holds.congr (h : Holds r value) (heq : ∀ i < 4096, value i = value' i) :
    Holds r value' where
  covered i hi := heq i hi ▸ h.covered i hi
  data i hi := heq i hi ▸ h.data i hi
  size_le := h.size_le
  above i hi hle := heq i hi ▸ h.above i hi hle
  top hpos := by
    have := h.size_le
    exact heq (r.dataSize - 1) (by omega) ▸ h.top hpos
  contiguous_le := h.contiguous_le
  contiguous i hi := by
    have := h.size_le
    have := h.contiguous_le
    exact heq i (by omega) ▸ h.contiguous i hi
  hole hlt := heq _ hlt ▸ h.hole hlt

theorem holds_empty : Holds {} fun _ => none where
  covered i hi := by
    have hlt : i / 8 < 512 := by omega
    simp [Coverage.covers, hlt]
  data i hi := by simp
  size_le := by simp
  above _ _ _ := rfl
  top hpos := by cases hpos
  contiguous_le := le_rfl
  contiguous i hi := by cases hi
  hole _ := rfl

theorem valueAt_decide (i : Nat) :
    (valueAt (offset, data) i).isSome = decide (offset ≤ i ∧ i < offset + data.length) := by
  rw [Bool.eq_iff_iff, valueAt_isSome, decide_eq_true_eq]

/-- The bulk path, for data above all that is retained. -/
theorem retain_above (h : Holds r value) (hpos : 0 < data.length)
    (hfits : offset + data.length ≤ 4096) (habove : r.dataSize ≤ offset) :
    ∃ r', r.retain offset data = some r' ∧ r'.limitExceeded = r.limitExceeded ∧
      Holds r' fun i => (value i).or (valueAt (offset, data) i) := by
  obtain ⟨covered, hrange, hcovers⟩ := @Coverage.coverRange_covers r.covered offset
    (offset + data.length) (by omega) hfits
  have hcontiguous := h.contiguous_le
  have hretain : r.retain offset data = some { r with
      data := Vector.ofFn fun i => (valueAt (offset, data) i).getD r.data[i]
      covered, dataSize := offset + data.length
      contiguousSize :=
        if r.contiguousSize = offset then offset + data.length else r.contiguousSize } := by
    rw [retain, if_pos habove, copyInto, if_pos hfits]
    simp [hpos, hrange]
  refine ⟨_, hretain, rfl, ?_⟩
  have hnone : ∀ i < 4096, offset ≤ i → value i = none := fun i hi hle =>
    h.above i hi (habove.trans hle)
  refine {
    covered := fun i hi => ?_, data := fun i hi => ?_, size_le := hfits
    above := fun i hi hle => ?_, top := fun _ => ?_, contiguous_le := ?_
    contiguous := fun i hi => ?_, hole := fun hlt => ?_ }
  · rw [hcovers, h.covered i hi, Option.isSome_or, valueAt_decide]
  · simp only [Vector.getElem_ofFn]
    cases hv : valueAt (offset, data) i with
    | none => simpa using h.data i hi
    | some b =>
      have hrange := valueAt_isSome.mp (Option.isSome_of_eq_some hv)
      rw [hnone i hi hrange.1]
      rfl
  · dsimp only at hle
    rw [hnone i hi (by omega), valueAt_eq_none (by dsimp only; omega)]
    rfl
  · rw [Option.isSome_or, valueAt_decide, decide_eq_true (by dsimp only; omega), Bool.or_true]
  · dsimp only
    split <;> omega
  · dsimp only at hi
    rw [Option.isSome_or, valueAt_decide]
    split at hi
    next heq =>
      by_cases hlow : i < offset
      · rw [h.contiguous i (heq ▸ hlow), Bool.true_or]
      · rw [decide_eq_true (by omega), Bool.or_true]
    next => rw [h.contiguous i hi, Bool.true_or]
  · dsimp only at hlt ⊢
    split at hlt
    next heq =>
      rw [if_pos heq, hnone _ hlt (by omega), valueAt_eq_none (by dsimp only; omega)]
      rfl
    next hne =>
      rw [if_neg hne, h.hole hlt, valueAt_eq_none (by dsimp only; omega)]
      rfl

/-- The slow path, for data that overlaps what is retained. -/
theorem retain_overlap (h : Holds r value) (hpos : 0 < data.length)
    (hfits : offset + data.length ≤ 4096) (hbelow : ¬ r.dataSize ≤ offset) :
    ∃ r', r.retain offset data = some r' ∧ r'.limitExceeded = r.limitExceeded ∧
      Holds r' fun i => (value i).or (valueAt (offset, data) i) := by
  have hsize := h.size_le
  have hcontiguous := h.contiguous_le
  obtain ⟨size, hsize_eq⟩ : ∃ size, size =
    if r.dataSize < offset + data.length then offset + data.length else r.dataSize := ⟨_, rfl⟩
  have hge : r.dataSize ≤ size ∧ offset + data.length ≤ size ∧ size ≤ 4096 := by
    split at hsize_eq <;> omega
  obtain ⟨stored, covered, hbytes, hcovers, hstored⟩ :=
    retainBytes_spec data { r with dataSize := size } offset hfits
  obtain ⟨m, hadvance, hfrom, hto, hall, hstop⟩ := @Coverage.advance_spec covered
    (size - r.contiguousSize) r.contiguousSize (by omega)
  have hretain : r.retain offset data = some { r with
      data := stored, covered, dataSize := size, contiguousSize := m } := by
    rw [retain, if_neg hbelow, ← hsize_eq]
    dsimp only
    rw [hbytes]
    exact congrArg (Option.bind · _) hadvance
  have hcovers' : ∀ i < 4096,
      covered.covers i = ((value i).or (valueAt (offset, data) i)).isSome := fun i hi => by
    rw [hcovers, h.covered i hi, Option.isSome_or]
  have habove : ∀ i < 4096, size ≤ i → (value i).or (valueAt (offset, data) i) = none :=
    fun i hi hle => by
      rw [h.above i hi (by omega), valueAt_eq_none (by dsimp only; omega)]
      rfl
  refine ⟨_, hretain, rfl, ?_⟩
  refine {
    covered := hcovers', data := fun i hi => ?_, size_le := hge.2.2, above := habove
    top := fun _ => ?_, contiguous_le := by dsimp only; omega
    contiguous := fun i hi => ?_, hole := fun hlt => ?_ }
  · dsimp only
    rw [hstored i hi]
    dsimp only
    rw [h.covered i hi, h.data i hi]
    cases value i with
    | none => simp
    | some b => simp
  · rw [Option.isSome_or]
    dsimp only
    split at hsize_eq
    next =>
      rw [valueAt_decide, decide_eq_true (by omega), Bool.or_true]
    next =>
      rw [hsize_eq, h.top (by omega), Bool.true_or]
  · dsimp only at hi
    by_cases hlow : i < r.contiguousSize
    · rw [Option.isSome_or, h.contiguous i hlow, Bool.true_or]
    · rw [← hcovers' i (by omega)]
      exact hall i (by omega) hi
  · dsimp only at hlt ⊢
    by_cases hend : m < size
    · have hnot := hstop (by omega)
      rw [hcovers' m hlt] at hnot
      exact Option.not_isSome_iff_eq_none.mp (by simp [hnot])
    · exact habove m hlt (by omega)

/-- **A frame only adds the bytes that were missing**, on both paths of `retain`. -/
theorem retain_spec (h : Holds r value) (hpos : 0 < data.length)
    (hfits : offset + data.length ≤ 4096) :
    ∃ r', r.retain offset data = some r' ∧ r'.limitExceeded = r.limitExceeded ∧
      Holds r' fun i => (value i).or (valueAt (offset, data) i) := by
  by_cases habove : r.dataSize ≤ offset
  · exact retain_above h hpos hfits habove
  · exact retain_overlap h hpos hfits habove

/-- What is retained is determined by the values of the bytes. -/
theorem Holds.unique (h : Holds r value) (h' : Holds r' value)
    (hlimit : r.limitExceeded = r'.limitExceeded) : r = r' := by
  have hsize : r.dataSize = r'.dataSize := by
    have hone : ∀ {a b : CryptoReassembler}, Holds a value → Holds b value →
        ¬ a.dataSize < b.dataSize := by
      intro a b ha hb hlt
      have hle := hb.size_le
      have htop := hb.top (by omega)
      rw [ha.above _ (by omega) (by omega)] at htop
      cases htop
    have h₁ := hone h h'
    have h₂ := hone h' h
    omega
  have hcontiguous : r.contiguousSize = r'.contiguousSize := by
    have hone : ∀ {a b : CryptoReassembler}, Holds a value → Holds b value →
        ¬ a.contiguousSize < b.contiguousSize := by
      intro a b ha hb hlt
      have hle := hb.size_le
      have hle' := hb.contiguous_le
      have hin := hb.contiguous _ hlt
      rw [ha.hole (by omega)] at hin
      cases hin
    have h₁ := hone h h'
    have h₂ := hone h' h
    omega
  have hdata : r.data = r'.data := Vector.ext fun i hi => (h.data i hi).trans (h'.data i hi).symm
  have hcovered : r.covered = r'.covered := by
    refine Vector.ext fun j hj => BitVec.eq_of_getLsbD_eq fun k hk => ?_
    have hbit := (h.covered (8 * j + k) (by omega)).trans (h'.covered (8 * j + k) (by omega)).symm
    have hdiv : (8 * j + k) / 8 = j := by omega
    have hmod : (8 * j + k) % 8 = k := by omega
    simpa [Coverage.covers, hdiv, hmod, hj] using hbit
  cases r
  cases r'
  simp_all

end CryptoReassembler

/-! ### Frames and payloads -/

/-- A frame begins above the window or reaches beyond it. -/
def beyondWindow (frame : Nat × List UInt8) : Bool :=
  decide (4096 ≤ frame.1) || decide (4096 < frame.1 + frame.2.length)

/-- What is retained after some CRYPTO frames, if anything is. -/
structure TracksFrames (r : CryptoReassembler) (frames : List (Nat × List UInt8)) : Prop where
  holds : r.Holds (firstValue frames)
  limit : r.limitExceeded = frames.any beyondWindow

section Frames

variable {r : CryptoReassembler} {frames : List (Nat × List UInt8)} {offset : Nat}
  {data : List UInt8}

/-- Beyond the window nothing of a frame is retained. -/
theorem valueAt_take {i : Nat} (hi : i < 4096) :
    valueAt (offset, data.take (4096 - offset)) i = valueAt (offset, data) i := by
  unfold valueAt
  dsimp only
  split
  next hle => rw [List.getElem?_take_of_lt (by omega)]
  next => rfl

theorem TracksFrames.crypto (h : TracksFrames r frames) (frameSize : Nat) :
    ∃ r', retainFrame (some r) (.ofCrypto offset data frameSize) = some (some r') ∧
      TracksFrames r' (frames ++ [(offset, data)]) := by
  have hvalue : ∀ i, firstValue (frames ++ [(offset, data)]) i =
      (firstValue frames i).or (valueAt (offset, data) i) := firstValue_snoc frames _
  have hlimit : ∀ {flag : Bool}, flag = (frames.any beyondWindow || beyondWindow (offset, data)) →
      flag = (frames ++ [(offset, data)]).any beyondWindow := fun hflag => by
    rw [hflag, List.any_append, List.any_cons, List.any_nil, Bool.or_false]
  unfold ExtractedFrame.ofCrypto
  by_cases hbeyond : maxCryptoReassemblySize ≤ offset
  · rw [if_pos hbeyond]
    unfold maxCryptoReassemblySize at hbeyond
    refine ⟨{ r with limitExceeded := true }, rfl, ?_, hlimit ?_⟩
    · have hsame : r.Holds (firstValue (frames ++ [(offset, data)])) :=
        h.holds.congr fun i hi => by
          rw [hvalue, valueAt_eq_none (by dsimp only; omega), Option.or_none]
      exact { hsame with }
    · simp [beyondWindow, hbeyond]
  · rw [if_neg hbeyond]
    unfold maxCryptoReassemblySize at hbeyond ⊢
    obtain ⟨limited, hlimited⟩ : ∃ limited, limited =
      if decide (4096 - offset < data.length) then { r with limitExceeded := true } else r :=
        ⟨_, rfl⟩
    have hflag : limited.limitExceeded =
        (frames.any beyondWindow || beyondWindow (offset, data)) := by
      by_cases hlong : 4096 - offset < data.length
      · have : 4096 < offset + data.length := by omega
        simp [hlimited, hlong, beyondWindow, this]
      · have : ¬ 4096 < offset + data.length := by omega
        simp [hlimited, hlong, beyondWindow, this, hbeyond, h.limit]
    have hholds : limited.Holds (firstValue frames) := by
      rw [hlimited]
      split
      · exact { h.holds with }
      · exact h.holds
    unfold retainFrame
    dsimp only
    rw [← hlimited]
    by_cases hempty : (data.take (4096 - offset)).length = 0
    · refine ⟨limited, by simp [hempty], hholds.congr fun i hi => ?_, hlimit hflag⟩
      have hnone : valueAt (offset, data) i = none := by
        rw [← valueAt_take hi]
        exact valueAt_eq_none (by dsimp only; omega)
      rw [hvalue, hnone, Option.or_none]
    · have hfits : offset + (data.take (4096 - offset)).length ≤ 4096 := by
        rw [List.length_take]
        omega
      obtain ⟨r', hretain, hsame, hholds'⟩ := CryptoReassembler.retain_spec hholds
        (Nat.pos_of_ne_zero hempty) hfits
      refine ⟨r', ?_, hholds'.congr fun i hi => ?_, hlimit (hsame.trans hflag)⟩
      · rw [hretain, if_pos (by rw [Bool.true_and, bne_iff_ne]; exact hempty)]
        rfl
      · rw [hvalue, valueAt_take hi]

/-- The same for what may be retained, with the frames of an extract. -/
theorem retainFrame_extracts {retained : Option CryptoReassembler} {e : ExtractedFrame}
    {read : List QuicFrame} (h : ∀ r, retained = some r → TracksFrames r frames)
    (hread : Extracts e read) :
    ∃ retained', retainFrame retained e = some retained' ∧
      retained'.isSome = retained.isSome ∧
      ∀ r, retained' = some r → TracksFrames r (frames ++ cryptos read) := by
  cases retained with
  | none => exact ⟨none, rfl, rfl, fun r hr => by cases hr⟩
  | some r =>
    have hr := h r rfl
    cases hread with
    | other hnone =>
      refine ⟨some r, rfl, rfl, fun r' hr' => ?_⟩
      obtain rfl := Option.some.inj hr'
      rwa [hnone, List.append_nil]
    | crypto =>
      obtain ⟨r', hretain, htracks⟩ := hr.crypto _
      refine ⟨some r', hretain, rfl, fun r'' hr'' => ?_⟩
      obtain rfl := Option.some.inj hr''
      exact htracks

theorem extracts_isCrypto {e : ExtractedFrame} {read : List QuicFrame} (h : Extracts e read) :
    e.isCrypto = !(cryptos read).isEmpty := by
  cases h with
  | other hnone => rw [hnone]; rfl
  | crypto =>
    unfold ExtractedFrame.ofCrypto
    split <;> rfl

/-- **The loop over a payload of frames** retains all its CRYPTO frames; its length is fuel enough. -/
theorem processCryptoFrames_payload (fuel : Nat) :
    ∀ {payload : List UInt8} {read : List QuicFrame} {retained : Option CryptoReassembler}
      {frames : List (Nat × List UInt8)} (hasData : Bool),
      Payload payload read → payload.length ≤ fuel → (∀ r, retained = some r → TracksFrames r frames) →
      ∃ retained', processCryptoFrames fuel retained payload hasData =
          some (.ok (hasData || !(cryptos read).isEmpty), retained') ∧
        retained'.isSome = retained.isSome ∧
        ∀ r, retained' = some r → TracksFrames r (frames ++ cryptos read) := by
  induction fuel with
  | zero =>
    intro payload read retained frames hasData hpayload hlen htracks
    cases hpayload with
    | nil =>
      refine ⟨retained, by simp [processCryptoFrames, cryptos], rfl, ?_⟩
      rwa [cryptos, List.append_nil]
    | cons hframe =>
      have := hframe.length_pos
      rw [List.length_append] at hlen
      omega
  | succ fuel ih =>
    intro payload read retained frames hasData hpayload hlen htracks
    cases read with
    | nil =>
      cases hpayload
      refine ⟨retained, by simp [processCryptoFrames, cryptos], rfl, ?_⟩
      rwa [cryptos, List.append_nil]
    | cons frame rest =>
      obtain ⟨e, first, more, hextract, hpos, hfirst, hmore, hsplit⟩ :=
        extractCryptoFrame_payload hpayload
      obtain ⟨kept, hretain, hsome, hkept⟩ := retainFrame_extracts htracks hfirst
      obtain ⟨retained', hrest, hsome', htracks'⟩ := ih (hasData || e.isCrypto) hmore
        (by rw [List.length_drop]; omega) hkept
      refine ⟨retained', ?_, hsome'.trans hsome, ?_⟩
      · cases payload with
        | nil => exact absurd hextract Checked.throw_ne_pure
        | cons b tail =>
          have hrun : (extractCryptoFrame (b :: tail)).run = some (.ok e) := hextract
          rw [processCryptoFrames, hrun]
          dsimp only
          rw [hretain]
          dsimp only
          have happend : (cryptos first ++ cryptos more).isEmpty =
              ((cryptos first).isEmpty && (cryptos more).isEmpty) := by
            cases cryptos first <;> rfl
          rw [hrest, hsplit, extracts_isCrypto hfirst, happend, Bool.not_and, Bool.or_assoc]
      · rwa [hsplit, ← List.append_assoc]

/-- A payload that is not made of frames is rejected in the first pass. -/
theorem processCryptoFrames_reject (fuel : Nat) :
    ∀ {payload : List UInt8} (hasData : Bool), (¬ ∃ read, Payload payload read) →
      payload.length ≤ fuel →
      ∃ err, processCryptoFrames fuel none payload hasData = some (.error err, none) := by
  induction fuel with
  | zero =>
    intro payload hasData hbad hlen
    obtain rfl := List.length_eq_zero_iff.mp (Nat.le_zero.mp hlen)
    exact absurd ⟨[], .nil⟩ hbad
  | succ fuel ih =>
    intro payload hasData hbad hlen
    cases payload with
    | nil => exact absurd ⟨[], .nil⟩ hbad
    | cons b tail =>
      rw [processCryptoFrames]
      rcases extractCryptoFrame_reads (b :: tail) with ⟨err, hextract⟩ |
        ⟨bytes, after, read, e, hsplit, hsize, hpos, hread, -, hextract⟩
      · have hrun : (extractCryptoFrame (b :: tail)).run = some (.error err) := hextract
        rw [hrun]
        exact ⟨err, rfl⟩
      · have hrun : (extractCryptoFrame (b :: tail)).run = some (.ok e) := hextract
        have hafter : (b :: tail).drop e.frameSize = after := by
          rw [hsplit, ← hsize, List.drop_left]
        rw [hrun]
        dsimp only [retainFrame]
        refine ih _ ?_ (by rw [List.length_drop]; omega)
        rintro ⟨more, hmore⟩
        rw [hafter] at hmore
        exact hbad ⟨read ++ more, hsplit ▸ hread.append hmore⟩

end Frames

/-! ### Payload after payload -/

/-- The CRYPTO frames of the payloads that are made of frames. -/
inductive History : List (List UInt8) → List (Nat × List UInt8) → Prop where
  | nil : History [] []
  | accepted {payload payloads read frames} : Payload payload read → History payloads frames →
    History (payload :: payloads) (cryptos read ++ frames)
  | rejected {payload payloads frames} : (¬ ∃ read, Payload payload read) →
    History payloads frames → History (payload :: payloads) frames

/-- What is retained after some frames: nothing, as long as there were none. -/
def Retains : Option CryptoReassembler → List (Nat × List UInt8) → Prop
  | none, frames => frames = []
  | some r, frames => frames ≠ [] ∧ TracksFrames r frames

theorem tracks_empty : TracksFrames {} [] := ⟨CryptoReassembler.holds_empty, rfl⟩

variable {frames : List (Nat × List UInt8)}

theorem reassembleCryptos_payload {retained : Option CryptoReassembler} {payload : List UInt8}
    {read : List QuicFrame} (h : Retains retained frames)
    (hpayload : Payload payload read) :
    ∃ kept retained', reassembleCryptos retained payload = some (kept, .ok retained') ∧
      Retains retained' (frames ++ cryptos read) := by
  obtain ⟨passed, hpass, -, -⟩ := @processCryptoFrames_payload payload.length payload read none []
    false hpayload le_rfl fun r hr => by cases hr
  rw [Bool.false_or] at hpass
  by_cases hnone : cryptos read = []
  · rw [hnone] at hpass
    refine ⟨retained, retained, ?_, ?_⟩
    · rw [reassembleCryptos, hpass]
      rfl
    · rwa [hnone, List.append_nil]
  · have hnonempty : (cryptos read).isEmpty = false := by
      simpa using hnone
    rw [hnonempty] at hpass
    have hstart : TracksFrames (retained.getD {}) frames := by
      cases retained with
      | none =>
        have hempty : frames = [] := h
        rw [hempty]
        exact tracks_empty
      | some r => exact h.2
    obtain ⟨filled, hfill, hsome, hfilled⟩ := @processCryptoFrames_payload payload.length payload
      read (some (retained.getD {})) frames false hpayload le_rfl
      fun r hr => Option.some.inj hr ▸ hstart
    obtain ⟨r, rfl⟩ := Option.isSome_iff_exists.mp hsome
    refine ⟨if retained.isSome then some r else none, some r, ?_, ?_, hfilled r rfl⟩
    · rw [reassembleCryptos, hpass]
      simp only [Bool.not_false]
      rw [hfill]
    · simp [hnone]

theorem reassembleCryptos_reject (retained : Option CryptoReassembler) {payload : List UInt8}
    (hbad : ¬ ∃ read, Payload payload read) :
    ∃ err, reassembleCryptos retained payload = some (retained, .error err) := by
  obtain ⟨err, hpass⟩ := processCryptoFrames_reject payload.length false hbad le_rfl
  exact ⟨err, by rw [reassembleCryptos, hpass]⟩

/-- **The run over all payloads.** -/
theorem reassembleAll_retains {payloads : List (List UInt8)} (h : History payloads frames) :
    ∀ {retained : Option CryptoReassembler} {before : List (Nat × List UInt8)},
      Retains retained before →
      ∃ retained', reassembleAll retained payloads = some retained' ∧
        Retains retained' (before ++ frames) := by
  induction h with
  | nil =>
    intro retained before hretains
    exact ⟨retained, rfl, by rwa [List.append_nil]⟩
  | accepted hpayload _ ih =>
    intro retained before hretains
    obtain ⟨kept, next, hcall, hnext⟩ := reassembleCryptos_payload hretains hpayload
    obtain ⟨last, hrest, hlast⟩ := ih hnext
    refine ⟨last, ?_, ?_⟩
    · rw [reassembleAll, hcall]
      exact hrest
    · rwa [← List.append_assoc]
  | rejected hbad _ ih =>
    intro retained before hretains
    obtain ⟨err, hcall⟩ := reassembleCryptos_reject retained hbad
    obtain ⟨last, hrest, hlast⟩ := ih hretains
    refine ⟨last, ?_, hlast⟩
    rw [reassembleAll, hcall]
    exact hrest

theorem reassembleAll_none {payloads : List (List UInt8)} (h : History payloads frames) :
    ∃ retained, reassembleAll none payloads = some retained ∧ Retains retained frames :=
  reassembleAll_retains h (show Retains none [] from rfl)

/-! ### What the sniffer sees -/

section Result

variable {r : CryptoReassembler} {frames more : List (Nat × List UInt8)}
  {retained retained' : Option CryptoReassembler}

/-- There is no hole exactly if the covered prefix is all there is. -/
theorem TracksFrames.contiguous_iff (h : TracksFrames r frames) :
    r.contiguousSize = r.dataSize ↔ ∀ i < r.dataSize, (firstValue frames i).isSome = true := by
  constructor
  · intro heq i hi
    exact h.holds.contiguous i (heq ▸ hi)
  · intro hall
    by_contra hne
    have hle := h.holds.contiguous_le
    have hsize := h.holds.size_le
    have hin := hall r.contiguousSize (by omega)
    rw [h.holds.hole (by omega)] at hin
    cases hin

/-- Without a hole `Bytes` returns the covered prefix. -/
theorem TracksFrames.bytes (h : TracksFrames r frames)
    (hall : ∀ i < r.dataSize, (firstValue frames i).isSome = true) :
    ∃ bytes, cryptoBytes (some r) = pure bytes ∧ bytes.length = r.dataSize ∧
      ∀ i < r.dataSize, bytes[i]? = firstValue frames i := by
  have hsize := h.holds.size_le
  refine ⟨r.data.toList.take r.dataSize, ?_, ?_, fun i hi => ?_⟩
  · rw [cryptoBytes, if_neg (not_not.mpr (h.contiguous_iff.mpr hall)),
      Checked.slice_eq (Nat.zero_le _) (by rw [Vector.length_toList]; exact hsize), List.drop_zero]
  · rw [List.length_take, Vector.length_toList]
    omega
  · obtain ⟨b, hb⟩ := Option.isSome_iff_exists.mp (hall i hi)
    have hdata := h.holds.data i (by omega)
    rw [List.getElem?_take_of_lt hi, List.getElem?_eq_getElem (by rw [Vector.length_toList]; omega),
      Vector.getElem_toList, hdata, hb]
    rfl

/-- What is retained is determined by the values of the bytes, by whether there was a frame and by
whether one left the window. -/
theorem Retains.unique (h : Retains retained frames) (h' : Retains retained' more)
    (hvalue : firstValue frames = firstValue more) (hnone : frames = [] ↔ more = [])
    (hlimit : frames.any beyondWindow = more.any beyondWindow) : retained = retained' := by
  match retained, retained' with
  | none, none => rfl
  | none, some _ => exact absurd (hnone.mp h) h'.1
  | some _, none => exact absurd (hnone.mpr h') h.1
  | some r, some r' =>
    refine congrArg some (h.2.holds.unique (hvalue ▸ h'.2.holds) ?_)
    rw [h.2.limit, h'.2.limit, hlimit]

/-- Frames with data leave the window if they cover something outside. -/
theorem any_beyond_iff (hdata : ∀ frame ∈ frames, frame.2 ≠ []) :
    frames.any beyondWindow = true ↔ ∃ i, 4096 ≤ i ∧ (firstValue frames i).isSome = true := by
  simp only [List.any_eq_true, firstValue_isSome, beyondWindow, Bool.or_eq_true, decide_eq_true_eq]
  constructor
  · rintro ⟨frame, hframe, hbeyond⟩
    have hpos := List.length_pos_iff.mpr (hdata frame hframe)
    exact ⟨frame.1 + frame.2.length - 1, by omega, frame, hframe, by omega⟩
  · rintro ⟨i, hi, frame, hframe, hin⟩
    exact ⟨frame, hframe, by omega⟩

theorem nil_of_uncovered (hdata : ∀ frame ∈ frames, frame.2 ≠ [])
    (hnone : ∀ i, (firstValue frames i).isSome = false) : frames = [] := by
  refine List.eq_nil_iff_forall_not_mem.mpr fun frame hframe => ?_
  have hpos := List.length_pos_iff.mpr (hdata frame hframe)
  have hsome := firstValue_isSome.mpr ⟨frame, hframe, le_refl frame.1, by omega⟩
  rw [hnone] at hsome
  cases hsome

/-- Frames with data that agree and cover the same bytes. -/
theorem Retains.split_irrelevant (h : Retains retained frames) (h' : Retains retained' more)
    (hagree : AgreeOnOverlaps (frames ++ more))
    (hsame : ∀ i, (firstValue frames i).isSome = (firstValue more i).isSome)
    (hdata : ∀ frame ∈ frames ++ more, frame.2 ≠ []) : retained = retained' := by
  have hvalue := firstValue_eq_of_agree hagree hsame
  have hleft : ∀ frame ∈ frames, frame.2 ≠ [] := fun f hf => hdata f (List.mem_append_left _ hf)
  have hright : ∀ frame ∈ more, frame.2 ≠ [] := fun f hf => hdata f (List.mem_append_right _ hf)
  refine h.unique h' hvalue ⟨fun hnil => ?_, fun hnil => ?_⟩ ?_
  · exact nil_of_uncovered hright fun i => by rw [← hvalue, hnil]; rfl
  · exact nil_of_uncovered hleft fun i => by rw [hvalue, hnil]; rfl
  · rw [Bool.eq_iff_iff, any_beyond_iff hleft, any_beyond_iff hright, hvalue]

/-- The same frames in another order. -/
theorem Retains.order_irrelevant (h : Retains retained frames) (h' : Retains retained' more)
    (hagree : AgreeOnOverlaps frames) (hperm : frames.Perm more) : retained = retained' := by
  have hboth : AgreeOnOverlaps (frames ++ more) := by
    have hmem : ∀ {p : Nat × List UInt8}, p ∈ frames ++ more → p ∈ frames := fun hp => by
      rcases List.mem_append.mp hp with hp | hp
      · exact hp
      · exact hperm.mem_iff.mpr hp
    exact fun p hp q hq => hagree p (hmem hp) q (hmem hq)
  have hsame : ∀ i, (firstValue frames i).isSome = (firstValue more i).isSome := fun i => by
    rw [Bool.eq_iff_iff, firstValue_isSome, firstValue_isSome]
    simp only [hperm.mem_iff]
  refine h.unique h' (firstValue_eq_of_agree hboth hsame) ?_ hperm.any_eq
  exact ⟨fun hnil => (hnil ▸ hperm).nil_eq.symm, fun hnil => (hnil ▸ hperm).eq_nil⟩

end Result

/-- **QUIC CRYPTO reassembly is exact.**  A payload that is not made of frames leaves what is
retained as it was.  After any payloads, with the CRYPTO frames of those that are made of frames,
every byte of the window has the value of the first frame that covers it, the sizes are those of the
covered prefix and of all that is covered, and `Bytes` returns the prefix if there is no hole.  The
result is the same for frames with data that agree and cover the same bytes, and for the same frames
in any order. -/
theorem reassembly_exact :
    (∀ (retained : Option CryptoReassembler) (payload : List UInt8),
      (¬ ∃ read, Payload payload read) →
      ∃ err, reassembleCryptos retained payload = some (retained, .error err)) ∧
    (∀ payloads frames, History payloads frames → ∃ retained,
      reassembleAll none payloads = some retained ∧ (retained = none ↔ frames = []) ∧
      ∀ r, retained = some r → r.Holds (firstValue frames) ∧
        ((∀ i < r.dataSize, (firstValue frames i).isSome = true) →
          ∃ bytes, cryptoBytes (some r) = pure bytes ∧ bytes.length = r.dataSize ∧
            ∀ i < r.dataSize, bytes[i]? = firstValue frames i) ∧
        ((¬ ∀ i < r.dataSize, (firstValue frames i).isSome = true) →
          cryptoBytes (some r) = throw .missingCrypto)) ∧
    (∀ payloads others frames more, History payloads frames → History others more →
      AgreeOnOverlaps (frames ++ more) →
      (∀ i, (firstValue frames i).isSome = (firstValue more i).isSome) →
      (∀ frame ∈ frames ++ more, frame.2 ≠ []) ∨ frames.Perm more →
      reassembleAll none payloads = reassembleAll none others) := by
  refine ⟨fun retained payload => reassembleCryptos_reject retained, fun payloads frames h => ?_,
    fun payloads others frames more h h' hagree hsame hsplit => ?_⟩
  · obtain ⟨retained, hall, hretains⟩ := reassembleAll_none h
    refine ⟨retained, hall, ?_, ?_⟩
    · cases retained with
      | none => exact ⟨fun _ => hretains, fun _ => rfl⟩
      | some r => exact ⟨fun hn => (by cases hn), fun hnil => absurd hnil hretains.1⟩
    · rintro r rfl
      have htracks := hretains.2
      refine ⟨htracks.holds, htracks.bytes, fun hhole => ?_⟩
      rw [cryptoBytes, if_pos fun heq => hhole (htracks.contiguous_iff.mp heq)]
  · obtain ⟨retained, hall, hretains⟩ := reassembleAll_none h
    obtain ⟨retained', hall', hretains'⟩ := reassembleAll_none h'
    rw [hall, hall']
    refine congrArg some ?_
    rcases hsplit with hdata | hperm
    · exact hretains.split_irrelevant hretains' hagree hsame hdata
    · exact hretains.order_irrelevant hretains' (fun p hp q hq =>
        hagree p (List.mem_append_left _ hp) q (List.mem_append_left _ hq)) hperm

/-- A payload with one CRYPTO frame of two bytes. -/
theorem payload_sample : Payload [6, 0, 2, 97, 98] [.crypto 0 [97, 98]] :=
  .single (@Encodes.crypto [6] [0] [2] 0 [97, 98] ⟨6, [], rfl, rfl, rfl⟩ ⟨0, [], rfl, rfl, rfl⟩
    ⟨2, [], rfl, rfl, rfl⟩)

theorem history_sample : History [[6, 0, 2, 97, 98]] [(0, [97, 98])] :=
  .accepted payload_sample .nil

theorem reassembly_exact_sample : ∃ r, reassembleAll none [[6, 0, 2, 97, 98]] = some (some r) ∧
    r.Holds (firstValue [(0, [97, 98])]) := by
  obtain ⟨retained, hall, hnone, hsome⟩ := reassembly_exact.2.1 _ _ history_sample
  cases retained with
  | none => exact absurd (hnone.mp rfl) (by simp)
  | some r => exact ⟨r, hall, (hsome r rfl).1⟩

/-- A CRYPTO frame without data at the end of the window still counts as one that leaves it. -/
theorem empty_frame_matters : ∃ payloads others frames more, History payloads frames ∧
    History others more ∧ AgreeOnOverlaps (frames ++ more) ∧
    (∀ i, (firstValue frames i).isSome = (firstValue more i).isSome) ∧
    reassembleAll none payloads ≠ reassembleAll none others := by
  have hempty : Payload [6, 0x50, 0, 0] [.crypto 4096 []] :=
    .single (@Encodes.crypto [6] [0x50, 0] [0] 4096 [] ⟨6, [], rfl, rfl, rfl⟩
      ⟨0x50, [0], rfl, rfl, rfl⟩ ⟨0, [], rfl, rfl, rfl⟩)
  have hothers : History [[6, 0, 2, 97, 98], [6, 0x50, 0, 0]] [(0, [97, 98]), (4096, [])] :=
    .accepted payload_sample (.accepted hempty .nil)
  have hnothing : ∀ i, valueAt (4096, ([] : List UInt8)) i = none := fun i =>
    valueAt_eq_none (by simp)
  refine ⟨_, _, _, _, history_sample, hothers, ?_, fun i => ?_, fun heq => ?_⟩
  · intro p hp q hq i a b ha hb
    simp only [List.cons_append, List.nil_append, List.mem_cons, List.not_mem_nil, or_false] at hp hq
    rcases hp with rfl | rfl | rfl
    all_goals rcases hq with rfl | rfl | rfl
    all_goals simp_all
  · rw [firstValue, firstValue, List.findSome?_cons, List.findSome?_cons, List.findSome?_cons,
      hnothing]
  · obtain ⟨retained, hall, hretains⟩ := reassembleAll_none history_sample
    obtain ⟨retained', hall', hretains'⟩ := reassembleAll_none hothers
    rw [hall, hall'] at heq
    obtain rfl := Option.some.inj heq
    cases retained with
    | none => cases hretains
    | some r =>
      have hfalse : r.limitExceeded = false := hretains.2.limit
      have htrue : r.limitExceeded = true := hretains'.2.limit
      rw [hfalse] at htrue
      cases htrue

end Dae
