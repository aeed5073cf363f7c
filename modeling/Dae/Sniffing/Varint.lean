import Dae.Lib.Checked

/-!
# Variable-length integers

`component/sniffing/internal/quicutils/binary.go`.  The first byte of a QUIC integer has the length
in its two highest bits and the highest bits of the value in the others.
-/

namespace Dae

/-- The errors of the decoders of frames. -/
inductive FrameError where
  | unexpectedEOF
  | noLength
  | ackTruncated
  | cryptoRange
  | connectionClosed
  | unknownFrameType (frameType : Nat)
  deriving DecidableEq, Repr

def FrameError.text : FrameError → String
  | .unexpectedEOF => "unexpected EOF"
  | .noLength => "frame has no length: index out of range"
  | .ackTruncated => "ACK frame field is truncated: unexpected EOF: index out of range"
  | .cryptoRange => "crypto frame data out of range: index out of range"
  | .connectionClosed => "connection closed: file already closed"
  | .unknownFrameType frameType => "unknown frame type: " ++ toString frameType

/-- `BigEndianUvarint`: the value and the number of bytes read. -/
def bigEndianUvarint (buf : List UInt8) : Checked FrameError (Nat × Nat) :=
  if buf.length = 0 then
    throw .unexpectedEOF
  else do
    let first ← Checked.index buf 0
    let length := 1 <<< (first.toNat >>> 6)
    if buf.length < length then
      throw .unexpectedEOF
    else
      let x ← (List.range' 1 (length - 1)).foldlM (fun x i => do
        let b ← Checked.index buf i
        pure (x <<< 8 ||| b.toNat)) (first.toNat &&& 0x3f)
      pure (x, length)

/-- The value that the bytes after the first add to. -/
def bigEndian (x : Nat) (bytes : List UInt8) : Nat :=
  bytes.foldl (fun x b => x * 256 + b.toNat) x

/-- The bytes encode the value. -/
def Varint (bytes : List UInt8) (value : Nat) : Prop :=
  ∃ first rest, bytes = first :: rest ∧ bytes.length = 2 ^ (first.toNat / 64) ∧
    value = bigEndian (first.toNat % 64) rest

theorem shift_or_byte (x : Nat) (b : UInt8) : x <<< 8 ||| b.toNat = x * 256 + b.toNat := by
  rw [← Nat.shiftLeft_add_eq_or_of_lt (by simpa using b.toNat_lt), Nat.shiftLeft_eq]

variable {buf : List UInt8}

/-- The loop of the decoder. -/
theorem foldlM_index (n : Nat) :
    ∀ (k x : Nat), k + n ≤ buf.length →
      (List.range' k n).foldlM (fun x i => do
        let b ← Checked.index buf i
        pure (x <<< 8 ||| b.toNat)) x =
          (pure (bigEndian x ((buf.drop k).take n)) : Checked FrameError Nat) := by
  induction n with
  | zero =>
    intro k x _
    rfl
  | succ n ih =>
    intro k x hk
    have hlt : k < buf.length := by omega
    rw [List.range'_succ, List.foldlM_cons, Checked.index_eq (List.getElem?_eq_getElem hlt)]
    simp only [pure_bind]
    rw [ih (k + 1) _ (by omega), shift_or_byte, List.drop_eq_getElem_cons hlt, List.take_succ_cons]
    rfl

/-- The decoder as a function of the first byte. -/
theorem bigEndianUvarint_cons (first : UInt8) (rest : List UInt8) :
    bigEndianUvarint (first :: rest) =
      if (first :: rest).length < 2 ^ (first.toNat / 64) then throw .unexpectedEOF
      else pure (bigEndian (first.toNat % 64) (rest.take (2 ^ (first.toNat / 64) - 1)),
        2 ^ (first.toNat / 64)) := by
  have hlen : 1 <<< (first.toNat >>> 6) = 2 ^ (first.toNat / 64) := by
    rw [Nat.shiftRight_eq_div_pow, Nat.one_shiftLeft]
  have hmask : first.toNat &&& 0x3f = first.toNat % 64 := Nat.and_two_pow_sub_one_eq_mod _ 6
  rw [bigEndianUvarint, if_neg (by simp), Checked.index_eq (a := first) (by simp), pure_bind]
  dsimp only
  rw [hlen, hmask]
  split
  next => rfl
  next hlong =>
    have hpos := Nat.two_pow_pos (first.toNat / 64)
    rw [foldlM_index _ _ _ (by omega), pure_bind]
    rfl

variable {value : Nat}

theorem Varint.length_pos {bytes : List UInt8} (h : Varint bytes value) :
    0 < bytes.length := by
  obtain ⟨first, rest, rfl, -⟩ := h
  exact Nat.succ_pos _

/-- **The decoder reads an encoded value** and no more. -/
theorem bigEndianUvarint_append {bytes : List UInt8} (h : Varint bytes value)
    (rest : List UInt8) : bigEndianUvarint (bytes ++ rest) = pure (value, bytes.length) := by
  obtain ⟨first, tail, rfl, hlen, rfl⟩ := h
  rw [List.cons_append, bigEndianUvarint_cons, if_neg]
  · rw [← hlen, List.length_cons, Nat.add_sub_cancel, List.take_left]
  · rw [List.length_cons, List.length_append]
    rw [List.length_cons] at hlen
    omega

/-- **What the decoder accepts begins with an encoded value.** -/
theorem bigEndianUvarint_gives (buf : List UInt8) : Checked.Gives (bigEndianUvarint buf) fun r =>
    ∃ bytes rest, buf = bytes ++ rest ∧ bytes.length = r.2 ∧ Varint bytes r.1 := by
  cases buf with
  | nil => exact .throw _
  | cons first tail =>
    rw [bigEndianUvarint_cons]
    refine .ite (fun _ => .throw _) fun hlong => .pure ?_
    have hpos := Nat.two_pow_pos (first.toNat / 64)
    rw [List.length_cons] at hlong
    have hlen : (first :: tail.take (2 ^ (first.toNat / 64) - 1)).length =
        2 ^ (first.toNat / 64) := by
      rw [List.length_cons, List.length_take]
      omega
    refine ⟨first :: tail.take (2 ^ (first.toNat / 64) - 1), tail.drop (2 ^ (first.toNat / 64) - 1),
      ?_, hlen, first, _, rfl, hlen, rfl⟩
    rw [List.cons_append, List.take_append_drop]

/-- The bytes that are read are there. -/
theorem bigEndianUvarint_le (buf : List UInt8) :
    Checked.Gives (bigEndianUvarint buf) fun r => r.2 ≤ buf.length := by
  refine (bigEndianUvarint_gives buf).imp ?_
  rintro r ⟨bytes, rest, rfl, hlen, -⟩
  rw [List.length_append]
  omega

end Dae
