import Dae.Sniffing.Varint

/-!
# The frames of an Initial packet

`extractCryptoFrame` of `component/sniffing/internal/quicutils/reassembly.go`, and the frames that it
reads: `Payload bytes frames` says that a decrypted payload is the concatenation of the encodings of
some frames.
-/

namespace Dae

/-- `MaxCryptoReassemblySize` -/
def maxCryptoReassemblySize : Nat := 4096

/-- What `extractCryptoFrame` returns. -/
structure ExtractedFrame where
  appOffset : Nat := 0
  data : List UInt8 := []
  isCrypto : Bool := false
  frameSize : Nat
  limitExceeded : Bool := false
  deriving DecidableEq, Repr

/-- `readAckVarint`: the value and the next field. -/
def readAckVarint (remainder : List UInt8) (nextField : Nat) : Checked FrameError (Nat × Nat) := do
  let rest ← Checked.sliceFrom remainder nextField
  let (value, n) ← Checked.mapError (fun _ => .ackTruncated) (bigEndianUvarint rest)
  pure (value, nextField + n)

def readAckVarints (remainder : List UInt8) : Nat → Nat → Checked FrameError Nat
  | 0, nextField => pure nextField
  | count + 1, nextField => do
    let (_, nextField) ← readAckVarint remainder nextField
    readAckVarints remainder count nextField

def extractAck (remainder : List UInt8) (nextField : Nat) (ecn : Bool) :
    Checked FrameError ExtractedFrame := do
  let (_, nextField) ← readAckVarint remainder nextField
  let (_, nextField) ← readAckVarint remainder nextField
  let (ackRangeCount, nextField) ← readAckVarint remainder nextField
  let (_, nextField) ← readAckVarint remainder nextField
  let nextField ← readAckVarints remainder (ackRangeCount * 2) nextField
  let nextField ← readAckVarints remainder (if ecn then 3 else 0) nextField
  pure { frameSize := nextField }

def extractCrypto (remainder : List UInt8) (nextField : Nat) : Checked FrameError ExtractedFrame := do
  let rest ← Checked.sliceFrom remainder nextField
  let (offset, n) ← bigEndianUvarint rest
  let nextField := nextField + n
  let rest ← Checked.sliceFrom remainder nextField
  let (length, n) ← bigEndianUvarint rest
  let nextField := nextField + n
  if remainder.length - nextField < length then
    throw .cryptoRange
  else
    let frameSize := nextField + length
    if maxCryptoReassemblySize ≤ offset then
      pure { isCrypto := true, frameSize, limitExceeded := true }
    else
      let limitExceeded := decide (maxCryptoReassemblySize - offset < length)
      let dataLength := if limitExceeded then maxCryptoReassemblySize - offset else length
      let data ← Checked.slice remainder nextField (nextField + dataLength)
      pure { appOffset := offset, data, isCrypto := true, frameSize, limitExceeded }

/-- The `switch` over the type of a frame. -/
def extractFrameOf (remainder : List UInt8) (frameType nextField : Nat) :
    Checked FrameError ExtractedFrame :=
  match frameType with
  | 1 => pure { frameSize := nextField }
  | 0 =>
    -- The loop over the padding stops at the first byte that is not zero.
    pure { frameSize := nextField + ((remainder.drop nextField).takeWhile (· == 0)).length }
  | 2 => extractAck remainder nextField false
  | 3 => extractAck remainder nextField true
  | 6 => extractCrypto remainder nextField
  | 0x1c => throw .connectionClosed
  | 0x1d => throw .connectionClosed
  | _ => throw (.unknownFrameType frameType)

def extractCryptoFrame (remainder : List UInt8) : Checked FrameError ExtractedFrame :=
  if remainder.length = 0 then
    throw .noLength
  else do
    let (frameType, nextField) ← bigEndianUvarint remainder
    extractFrameOf remainder frameType nextField

/-! ### The frames -/

/-- The frames that may stand in an Initial packet, with what matters of them here. -/
inductive QuicFrame where
  | padding
  | ping
  | ack (ecn : Bool) (fields : List Nat)
  | crypto (offset : Nat) (data : List UInt8)

/-- Integers one after the other. -/
inductive Varints : List UInt8 → List Nat → Prop where
  | nil : Varints [] []
  | cons {bytes rest value values} : Varint bytes value → Varints rest values →
    Varints (bytes ++ rest) (value :: values)

/-- How many fields an ACK frame has. -/
def ackFields (ecn : Bool) (count : Nat) : Nat := 4 + count * 2 + if ecn then 3 else 0

/-- The encodings of a frame. -/
inductive Encodes : QuicFrame → List UInt8 → Prop where
  | padding {bytes} : Varint bytes 0 → Encodes .padding bytes
  | ping {bytes} : Varint bytes 1 → Encodes .ping bytes
  | ack {ecn typ bytes fields count} : Varint typ (if ecn then 3 else 2) → Varints bytes fields →
    fields[2]? = some count → fields.length = ackFields ecn count →
    Encodes (.ack ecn fields) (typ ++ bytes)
  | crypto {typ first length offset data} : Varint typ 6 → Varint first offset →
    Varint length data.length → Encodes (.crypto offset data) (typ ++ (first ++ (length ++ data)))

/-- A payload made of frames. -/
inductive Payload : List UInt8 → List QuicFrame → Prop where
  | nil : Payload [] []
  | cons {bytes rest frame frames} : Encodes frame bytes → Payload rest frames →
    Payload (bytes ++ rest) (frame :: frames)

/-- The offsets and data of the CRYPTO frames. -/
def cryptos : List QuicFrame → List (Nat × List UInt8)
  | [] => []
  | .crypto offset data :: frames => (offset, data) :: cryptos frames
  | _ :: frames => cryptos frames

variable {bytes : List UInt8}

theorem Payload.append {rest : List UInt8} {frames more : List QuicFrame}
    (h : Payload bytes frames) (hrest : Payload rest more) :
    Payload (bytes ++ rest) (frames ++ more) := by
  induction h with
  | nil => exact hrest
  | cons hframe _ ih =>
    rw [List.append_assoc]
    exact .cons hframe ih

theorem Varints.append {rest : List UInt8} {values more : List Nat}
    (h : Varints bytes values) (hrest : Varints rest more) :
    Varints (bytes ++ rest) (values ++ more) := by
  induction h with
  | nil => exact hrest
  | cons hvalue _ ih =>
    rw [List.append_assoc]
    exact .cons hvalue ih

theorem Varints.split {values more : List Nat} :
    ∀ {bytes : List UInt8}, Varints bytes (values ++ more) →
      ∃ first last, bytes = first ++ last ∧ Varints first values ∧ Varints last more := by
  induction values with
  | nil =>
    intro bytes h
    exact ⟨[], bytes, rfl, .nil, h⟩
  | cons value values ih =>
    intro bytes h
    cases h with
    | cons hvalue hrest =>
      obtain ⟨first, last, rfl, hfirst, hlast⟩ := ih hrest
      exact ⟨_, last, (List.append_assoc _ _ _).symm, .cons hvalue hfirst, hlast⟩

/-! ### The fields of an ACK frame -/

section Ack

variable {pre rest bytes : List UInt8} {value m : Nat}

theorem sliceFrom_append (pre rest : List UInt8) :
    (Checked.sliceFrom (pre ++ rest) pre.length : Checked FrameError (List UInt8)) = pure rest := by
  rw [Checked.sliceFrom_eq (by simp), List.drop_left]

theorem readAckVarint_append (h : Varint bytes value) :
    readAckVarint (pre ++ (bytes ++ rest)) pre.length =
      pure (value, (pre ++ bytes).length) := by
  rw [readAckVarint, sliceFrom_append, pure_bind, bigEndianUvarint_append h,
    Checked.mapError_pure, pure_bind, List.length_append]

theorem readAckVarint_gives (pre rest : List UInt8) :
    Checked.Gives (readAckVarint (pre ++ rest) pre.length) fun r =>
      ∃ bytes after, rest = bytes ++ after ∧ r.2 = (pre ++ bytes).length ∧ Varint bytes r.1 := by
  rw [readAckVarint, sliceFrom_append, pure_bind]
  refine (bigEndianUvarint_gives rest).mapError.bind ?_
  rintro ⟨value, _⟩ ⟨bytes, after, rfl, rfl, hv⟩
  exact .pure ⟨bytes, after, rfl, List.length_append.symm, hv⟩

theorem readAckVarints_append {values : List Nat} :
    ∀ {pre bytes : List UInt8}, Varints bytes values →
      readAckVarints (pre ++ (bytes ++ rest)) values.length pre.length =
        pure (pre ++ bytes).length := by
  induction values with
  | nil =>
    intro pre bytes h
    cases h
    simp [readAckVarints]
  | cons value values ih =>
    intro pre bytes h
    cases h with
    | @cons first last _ _ hvalue hlast =>
      rw [List.length_cons, readAckVarints, List.append_assoc, readAckVarint_append hvalue,
        pure_bind, ← List.append_assoc]
      dsimp only
      rw [ih hlast, List.append_assoc]

theorem readAckVarints_gives (count : Nat) (pre rest : List UInt8) :
    Checked.Gives (readAckVarints (pre ++ rest) count pre.length) fun m =>
      ∃ bytes after values, rest = bytes ++ after ∧ m = (pre ++ bytes).length ∧
        Varints bytes values ∧ values.length = count := by
  induction count generalizing pre rest with
  | zero => exact .pure ⟨[], rest, [], rfl, by simp, .nil, rfl⟩
  | succ count ih =>
    refine (readAckVarint_gives pre rest).bind ?_
    rintro ⟨value, _⟩ ⟨first, after, rfl, rfl, hvalue⟩
    rw [← List.append_assoc]
    refine (ih _ _).imp ?_
    rintro m ⟨bytes, last, values, rfl, rfl, hvalues, hcount⟩
    refine ⟨first ++ bytes, last, value :: values, (List.append_assoc _ _ _).symm, ?_,
      .cons hvalue hvalues, congrArg (· + 1) hcount⟩
    rw [List.append_assoc]

theorem extractAck_gives (pre rest : List UInt8) (ecn : Bool) :
    Checked.Gives (extractAck (pre ++ rest) pre.length ecn) fun e =>
      ∃ bytes after fields count, rest = bytes ++ after ∧ Varints bytes fields ∧
        fields[2]? = some count ∧ fields.length = ackFields ecn count ∧
        e = { frameSize := (pre ++ bytes).length } := by
  refine (readAckVarint_gives _ _).bind ?_
  rintro ⟨largest, _⟩ ⟨b₁, after, rfl, rfl, hv₁⟩
  rw [← List.append_assoc]
  refine (readAckVarint_gives _ _).bind ?_
  rintro ⟨delay, _⟩ ⟨b₂, after, rfl, rfl, hv₂⟩
  rw [← List.append_assoc]
  refine (readAckVarint_gives _ _).bind ?_
  rintro ⟨count, _⟩ ⟨b₃, after, rfl, rfl, hv₃⟩
  rw [← List.append_assoc]
  refine (readAckVarint_gives _ _).bind ?_
  rintro ⟨range, _⟩ ⟨b₄, after, rfl, rfl, hv₄⟩
  rw [← List.append_assoc]
  refine (readAckVarints_gives _ _ _).bind ?_
  rintro _ ⟨ranges, after, values, rfl, rfl, hranges, hlen⟩
  rw [← List.append_assoc]
  refine (readAckVarints_gives _ _ _).bind ?_
  rintro _ ⟨counts, after, ecns, rfl, rfl, hcounts, hecns⟩
  refine .pure ⟨b₁ ++ (b₂ ++ (b₃ ++ (b₄ ++ (ranges ++ counts)))), after,
    largest :: delay :: count :: range :: (values ++ ecns), count, by simp,
    .cons hv₁ (.cons hv₂ (.cons hv₃ (.cons hv₄ (hranges.append hcounts)))), rfl, ?_, by simp⟩
  simp only [List.length_cons, List.length_append, hlen, hecns, ackFields]
  omega

theorem extractAck_append {ecn : Bool} {fields : List Nat} {count : Nat}
    (h : Varints bytes fields) (hcount : fields[2]? = some count)
    (hlen : fields.length = ackFields ecn count) :
    extractAck (pre ++ (bytes ++ rest)) pre.length ecn =
      pure { frameSize := (pre ++ bytes).length } := by
  match fields with
  | [] => cases hcount
  | [_] => cases hcount
  | [_, _] => cases hcount
  | [_, _, _] =>
    simp only [ackFields, List.length_cons, List.length_nil] at hlen
    omega
  | largest :: delay :: ranges :: range :: fields =>
    obtain rfl := Option.some.inj hcount
    obtain ⟨values, ecns, rfl, hvalues, hecns⟩ : ∃ values ecns, fields = values ++ ecns ∧
        values.length = ranges * 2 ∧ ecns.length = if ecn then 3 else 0 := by
      refine ⟨fields.take (ranges * 2), fields.drop (ranges * 2),
        (List.take_append_drop _ _).symm, ?_, ?_⟩
      all_goals
        simp only [ackFields, List.length_cons] at hlen
        simp only [List.length_take, List.length_drop]
        omega
    cases h with
    | cons hv₁ h => cases h with
      | cons hv₂ h => cases h with
        | cons hv₃ h => cases h with
          | cons hv₄ h =>
            obtain ⟨first, last, rfl, hfirst, hlast⟩ := h.split
            simp only [extractAck, List.append_assoc]
            rw [readAckVarint_append hv₁, pure_bind, ← List.append_assoc]
            dsimp only
            rw [readAckVarint_append hv₂, pure_bind, ← List.append_assoc]
            dsimp only
            rw [readAckVarint_append hv₃, pure_bind, ← List.append_assoc]
            dsimp only
            rw [readAckVarint_append hv₄, pure_bind, ← List.append_assoc]
            dsimp only
            rw [← hvalues, readAckVarints_append hfirst, pure_bind, ← List.append_assoc, ← hecns,
              readAckVarints_append hlast, pure_bind]
            simp only [List.append_assoc]

end Ack

/-! ### CRYPTO frames -/

/-- What is extracted of a CRYPTO frame: its data within the window. -/
def ExtractedFrame.ofCrypto (offset : Nat) (data : List UInt8) (frameSize : Nat) : ExtractedFrame :=
  if maxCryptoReassemblySize ≤ offset then
    { isCrypto := true, frameSize, limitExceeded := true }
  else
    { appOffset := offset, data := data.take (maxCryptoReassemblySize - offset), isCrypto := true
      frameSize, limitExceeded := decide (maxCryptoReassemblySize - offset < data.length) }

section Crypto

variable {pre rest first length : List UInt8} {offset n : Nat}

/-- The data of a CRYPTO frame must be there as a whole. -/
theorem extractCrypto_eq (hoffset : Varint first offset) (hlength : Varint length n) :
    extractCrypto (pre ++ (first ++ (length ++ rest))) pre.length =
      if rest.length < n then throw .cryptoRange
      else pure (.ofCrypto offset (rest.take n) ((pre ++ (first ++ length)).length + n)) := by
  rw [extractCrypto, sliceFrom_append, pure_bind, bigEndianUvarint_append hoffset, pure_bind]
  dsimp only
  rw [← List.length_append, ← List.append_assoc, sliceFrom_append, pure_bind,
    bigEndianUvarint_append hlength, pure_bind]
  dsimp only
  rw [← List.length_append, ← List.append_assoc, @List.length_append _ (pre ++ first ++ length) rest,
    Nat.add_sub_cancel_left]
  split
  next => rfl
  next hlong =>
    unfold ExtractedFrame.ofCrypto
    rw [← List.append_assoc]
    split
    next => rfl
    next hoff =>
      have hdata : ∀ k ≤ n, (Checked.slice (pre ++ first ++ length ++ rest)
          (pre ++ first ++ length).length ((pre ++ first ++ length).length + k) :
            Checked FrameError (List UInt8)) = pure (rest.take k) := by
        intro k hk
        rw [Checked.slice_eq (Nat.le_add_right _ _)
          (by rw [@List.length_append _ _ rest]; omega), List.take_length_add_append,
          List.drop_left]
      have htake : (rest.take n).length = n := by
        rw [List.length_take]
        omega
      rw [htake]
      by_cases hexceeds : maxCryptoReassemblySize - offset < n
      · rw [decide_eq_true hexceeds]
        simp only [if_true]
        rw [hdata _ (by omega), pure_bind, List.take_take, Nat.min_eq_left (by omega)]
      · rw [decide_eq_false hexceeds]
        simp only [Bool.false_eq_true, if_false]
        rw [hdata _ le_rfl, pure_bind, List.take_take, Nat.min_eq_right (by omega)]

theorem extractCrypto_append {data : List UInt8} (hoffset : Varint first offset)
    (hlength : Varint length data.length) :
    extractCrypto (pre ++ (first ++ (length ++ (data ++ rest)))) pre.length =
      pure (.ofCrypto offset data (pre ++ (first ++ (length ++ data))).length) := by
  rw [extractCrypto_eq hoffset hlength, if_neg (by simp), List.take_left]
  simp only [List.length_append, Nat.add_assoc]

theorem extractCrypto_cases (pre rest : List UInt8) :
    (∃ e, extractCrypto (pre ++ rest) pre.length = throw e) ∨
      ∃ first length offset data after, rest = first ++ (length ++ (data ++ after)) ∧
        Varint first offset ∧ Varint length data.length ∧
        extractCrypto (pre ++ rest) pre.length =
          pure (.ofCrypto offset data (pre ++ (first ++ (length ++ data))).length) := by
  rcases (bigEndianUvarint_gives rest).cases with
    ⟨⟨offset, _⟩, -, first, tail, rfl, rfl, hoffset⟩ | ⟨e, hread⟩
  · rcases (bigEndianUvarint_gives tail).cases with
      ⟨⟨n, _⟩, -, length, tail, rfl, rfl, hlength⟩ | ⟨e, hread'⟩
    · rw [extractCrypto_eq hoffset hlength]
      by_cases hlong : tail.length < n
      · exact .inl ⟨_, if_pos hlong⟩
      · have htake : (tail.take n).length = n := by
          rw [List.length_take]
          omega
        refine .inr ⟨first, length, offset, tail.take n, tail.drop n, ?_, hoffset,
          htake.symm ▸ hlength, ?_⟩
        · rw [List.take_append_drop]
        · rw [if_neg hlong]
          simp only [List.length_append, htake, Nat.add_assoc]
    · refine .inl ⟨e, ?_⟩
      rw [extractCrypto, sliceFrom_append, pure_bind, bigEndianUvarint_append hoffset, pure_bind]
      dsimp only
      rw [← List.length_append, ← List.append_assoc, sliceFrom_append, pure_bind, hread']
      rfl
  · refine .inl ⟨e, ?_⟩
    rw [extractCrypto, sliceFrom_append, pure_bind, hread]
    rfl

end Crypto

/-! ### Any frame -/

/-- What `extractCryptoFrame` returns for some frames: nothing, or one CRYPTO frame. -/
inductive Extracts : ExtractedFrame → List QuicFrame → Prop where
  | other {frameSize frames} : cryptos frames = [] → Extracts { frameSize } frames
  | crypto {frameSize offset data} :
    Extracts (.ofCrypto offset data frameSize) [.crypto offset data]

theorem varint_zero : Varint [0] 0 := ⟨0, [], rfl, rfl, rfl⟩

theorem payload_zeros (n : Nat) :
    Payload (List.replicate n 0) (List.replicate n .padding) := by
  induction n with
  | zero => exact .nil
  | succ n ih => exact .cons (.padding varint_zero) ih

theorem cryptos_padding (n : Nat) : cryptos (List.replicate n .padding) = [] := by
  induction n with
  | zero => rfl
  | succ n ih => exact ih

theorem takeWhile_zero (l : List UInt8) :
    l.takeWhile (· == 0) = List.replicate (l.takeWhile (· == 0)).length 0 := by
  refine List.eq_replicate_of_mem fun b hb => ?_
  simpa using List.all_eq_true.mp List.all_takeWhile b hb

/-- The type of the frame is read first. -/
theorem extractCryptoFrame_of_type {typ : List UInt8} {frameType : Nat} (h : Varint typ frameType)
    (rest : List UInt8) :
    extractCryptoFrame (typ ++ rest) = extractFrameOf (typ ++ rest) frameType typ.length := by
  have hpos := h.length_pos
  rw [extractCryptoFrame, if_neg (by rw [List.length_append]; omega), bigEndianUvarint_append h,
    pure_bind]

theorem Payload.single {frame : QuicFrame} (h : Encodes frame bytes) :
    Payload bytes [frame] := by
  have hpayload := Payload.cons h .nil
  rwa [List.append_nil] at hpayload

theorem ofCrypto_frameSize (offset : Nat) (data : List UInt8) (frameSize : Nat) :
    (ExtractedFrame.ofCrypto offset data frameSize).frameSize = frameSize := by
  unfold ExtractedFrame.ofCrypto
  split <;> rfl

/-- The computation fails, or returns what some frames at the start of the bytes encode. -/
def Reads (remainder : List UInt8) (x : Checked FrameError ExtractedFrame) : Prop :=
  (∃ err, x = throw err) ∨
    ∃ bytes after frames e, remainder = bytes ++ after ∧ bytes.length = e.frameSize ∧
      0 < e.frameSize ∧ Payload bytes frames ∧ Extracts e frames ∧ x = pure e

section Any

variable {typ : List UInt8}

theorem extractAck_reads (ecn : Bool) (htype : Varint typ (if ecn then 3 else 2))
    (rest : List UInt8) : Reads (typ ++ rest) (extractAck (typ ++ rest) typ.length ecn) := by
  have hpos := htype.length_pos
  rcases (extractAck_gives typ rest ecn).cases with
    ⟨_, hextract, bytes, after, fields, count, rfl, hfields, hcount, hlen, rfl⟩ | ⟨err, hextract⟩
  · refine .inr ⟨typ ++ bytes, after, [.ack ecn fields], _, (List.append_assoc _ _ _).symm, rfl,
      ?_, .single (.ack htype hfields hcount hlen), .other rfl, hextract⟩
    simp only [List.length_append]
    omega
  · exact .inl ⟨err, hextract⟩

theorem extractCrypto_reads (htype : Varint typ 6) (rest : List UInt8) :
    Reads (typ ++ rest) (extractCrypto (typ ++ rest) typ.length) := by
  have hpos := htype.length_pos
  rcases extractCrypto_cases typ rest with ⟨err, hextract⟩ |
    ⟨first, length, offset, data, after, rfl, hoffset, hlength, hextract⟩
  · exact .inl ⟨err, hextract⟩
  · refine .inr ⟨typ ++ (first ++ (length ++ data)), after, [.crypto offset data], _, ?_, ?_, ?_,
      .single (.crypto htype hoffset hlength), .crypto, hextract⟩
    · simp only [List.append_assoc]
    · rw [ofCrypto_frameSize]
    · rw [ofCrypto_frameSize]
      simp only [List.length_append]
      omega

/-- The zeros after a PADDING frame are more of them. -/
theorem padding_reads (htype : Varint typ 0) (rest : List UInt8) :
    Reads (typ ++ rest) (pure { frameSize := typ.length + (rest.takeWhile (· == 0)).length }) := by
  have hpos := htype.length_pos
  have hzeros := payload_zeros (rest.takeWhile (· == 0)).length
  rw [← takeWhile_zero] at hzeros
  refine .inr ⟨typ ++ rest.takeWhile (· == 0), rest.dropWhile (· == 0), _, _, ?_,
    List.length_append, ?_, .cons (.padding htype) hzeros, .other (cryptos_padding _), rfl⟩
  · rw [List.append_assoc, List.takeWhile_append_dropWhile]
  · dsimp only
    omega

/-- **What is accepted is the encoding of frames**, and no access is out of range. -/
theorem extractCryptoFrame_reads (remainder : List UInt8) :
    Reads remainder (extractCryptoFrame remainder) := by
  by_cases hempty : remainder.length = 0
  · exact .inl ⟨_, if_pos hempty⟩
  rcases (bigEndianUvarint_gives remainder).cases with
    ⟨⟨frameType, _⟩, -, typ, rest, rfl, rfl, htype⟩ | ⟨err, hread⟩
  · dsimp only at htype
    rw [extractCryptoFrame_of_type htype]
    revert htype
    unfold extractFrameOf
    split
    · intro htype
      exact .inr ⟨typ, rest, [.ping], _, rfl, rfl, htype.length_pos, .single (.ping htype),
        .other rfl, rfl⟩
    · intro htype
      rw [List.drop_left]
      exact padding_reads htype rest
    · exact fun htype => extractAck_reads false htype rest
    · exact fun htype => extractAck_reads true htype rest
    · exact fun htype => extractCrypto_reads htype rest
    all_goals exact fun _ => .inl ⟨_, rfl⟩
  · refine .inl ⟨err, ?_⟩
    rw [extractCryptoFrame, if_neg hempty, hread]
    rfl

variable {frame : QuicFrame} {bytes : List UInt8}

/-- A byte zero at the start of a payload is a PADDING frame. -/
theorem Encodes.padding_of_zero {tail : List UInt8}
    (h : Encodes frame bytes) (hzero : bytes = 0 :: tail) : frame = .padding ∧ tail = [] := by
  have hvarint : ∀ {typ after : List UInt8} {frameType : Nat}, Varint typ frameType →
      typ ++ after = 0 :: tail → frameType = 0 ∧ after = tail := by
    intro typ after frameType htype heq
    obtain ⟨first, rest, rfl, hlen, rfl⟩ := htype
    obtain ⟨rfl, hrest⟩ := List.cons.inj heq
    obtain rfl : rest = [] := List.length_eq_zero_iff.mp (Nat.succ.inj hlen)
    exact ⟨rfl, hrest⟩
  cases h with
  | padding htype => exact ⟨rfl, (hvarint htype ((List.append_nil _).trans hzero)).2.symm⟩
  | ping htype => cases (hvarint htype ((List.append_nil _).trans hzero)).1
  | @ack ecn _ _ _ _ htype => cases ecn <;> cases (hvarint htype hzero).1
  | crypto htype => cases (hvarint htype hzero).1

theorem Encodes.length_pos (h : Encodes frame bytes) :
    0 < bytes.length := by
  cases h with
  | padding htype => exact htype.length_pos
  | ping htype => exact htype.length_pos
  | ack htype | crypto htype => exact List.length_append ▸ Nat.add_pos_left htype.length_pos _

/-- Without the zeros at its start, a payload has the same CRYPTO frames. -/
theorem Payload.dropZeros {frames : List QuicFrame} (h : Payload bytes frames) :
    ∃ more, Payload (bytes.dropWhile (· == 0)) more ∧ cryptos more = cryptos frames := by
  induction h with
  | nil => exact ⟨[], .nil, rfl⟩
  | @cons bytes rest frame frames hframe hrest ih =>
    cases bytes with
    | nil => exact absurd hframe.length_pos (lt_irrefl 0)
    | cons first tail =>
      by_cases hzero : first = 0
      · subst hzero
        obtain ⟨rfl, rfl⟩ := hframe.padding_of_zero rfl
        exact ih
      · refine ⟨frame :: frames, ?_, rfl⟩
        rw [List.cons_append, List.dropWhile_cons_of_neg (by simpa using hzero)]
        exact .cons hframe hrest

/-- **Every encoding of frames is accepted**: something is extracted of the first ones, and the rest
of the payload has the other CRYPTO frames. -/
theorem extractCryptoFrame_payload
    {frames : List QuicFrame} (h : Payload bytes (frame :: frames)) :
    ∃ e first more, extractCryptoFrame bytes = pure e ∧ 0 < e.frameSize ∧ Extracts e first ∧
      Payload (bytes.drop e.frameSize) more ∧
      cryptos (frame :: frames) = cryptos first ++ cryptos more := by
  cases h with
  | @cons bytes rest _ _ hframe hrest =>
    cases hframe with
    | padding htype =>
      obtain ⟨more, hmore, hsame⟩ := hrest.dropZeros
      refine ⟨{ frameSize := bytes.length + (rest.takeWhile (· == 0)).length }, [], more, ?_, ?_,
        .other rfl, ?_, hsame.symm⟩
      · rw [extractCryptoFrame_of_type htype, extractFrameOf, List.drop_left]
      · exact Nat.add_pos_left htype.length_pos _
      · have hdrop : (bytes ++ rest).drop (bytes.length + (rest.takeWhile (· == 0)).length) =
            rest.dropWhile (· == 0) := by
          have hrest : (rest.takeWhile (· == 0) ++ rest.dropWhile (· == 0)).drop
              (rest.takeWhile (· == 0)).length = rest.dropWhile (· == 0) := List.drop_left
          rw [List.takeWhile_append_dropWhile] at hrest
          rw [← List.drop_drop, List.drop_left, hrest]
        exact hdrop ▸ hmore
    | ping htype =>
      refine ⟨_, [.ping], frames, extractCryptoFrame_of_type htype rest, htype.length_pos,
        .other rfl, ?_, rfl⟩
      rw [List.drop_left]
      exact hrest
    | @ack ecn typ fields values count htype hfields hcount hlen =>
      refine ⟨{ frameSize := (typ ++ fields).length }, [.ack ecn values], frames, ?_, ?_,
        .other rfl, ?_, rfl⟩
      · rw [List.append_assoc, extractCryptoFrame_of_type htype]
        cases ecn <;> exact extractAck_append hfields hcount hlen
      · exact List.length_append ▸ Nat.add_pos_left htype.length_pos _
      · rw [List.drop_left]
        exact hrest
    | @crypto typ first length offset data htype hoffset hlength =>
      refine ⟨.ofCrypto offset data (typ ++ (first ++ (length ++ data))).length,
        [.crypto offset data], frames, ?_, ?_, .crypto, ?_, rfl⟩
      · rw [List.append_assoc, List.append_assoc, List.append_assoc,
          extractCryptoFrame_of_type htype]
        exact extractCrypto_append hoffset hlength
      · rw [ofCrypto_frameSize, List.length_append]
        exact Nat.add_pos_left htype.length_pos _
      · rw [ofCrypto_frameSize, List.drop_left]
        exact hrest

end Any

end Dae
