import Dae.Lib.FirstWrite
import Dae.Sniffing.CryptoFrames

/-!
# Reassembling CRYPTO frames

`component/sniffing/internal/quicutils/reassembly.go`: the bytes that CRYPTO frames carry within a
window, with a bit for every byte that is there.  An access out of range has no result.
-/

namespace Dae

/-- The coverage of the window, a bit for a byte. -/
abbrev Coverage := Vector (BitVec 8) 512

/-- `CryptoReassembler`.  The sizes are at most that of the window. -/
structure CryptoReassembler where
  data : Vector UInt8 4096 := Vector.replicate 4096 0
  covered : Coverage := Vector.replicate 512 0
  dataSize : Nat := 0
  contiguousSize : Nat := 0
  limitExceeded : Bool := false

namespace Coverage

/-- `covered[j] |= mask` -/
def orByte (covered : Coverage) (j : Nat) (mask : BitVec 8) : Option Coverage :=
  if h : j < 512 then some (covered.set j (covered[j] ||| mask)) else none

/-- `for ; i < lastByte; i++ { covered[i] = 0xff }`, for as many bytes. -/
def fillBytes (covered : Coverage) (i : Nat) : Nat → Option Coverage
  | 0 => some covered
  | n + 1 => if h : i < 512 then fillBytes (covered.set i 0xff) (i + 1) n else none

/-- Covers the bytes from `offset` to before `last`, by masks. -/
def coverRange (covered : Coverage) (offset last : Nat) : Option Coverage :=
  let firstByte := offset >>> 3
  let lastByte := (last - 1) >>> 3
  if firstByte = lastByte then
    let width := last - offset
    covered.orByte firstByte (((1#8 <<< width) - 1#8) <<< (offset &&& 7))
  else do
    let covered ← covered.orByte firstByte (0xff#8 <<< (offset &&& 7))
    let covered ← covered.fillBytes (firstByte + 1) (lastByte - (firstByte + 1))
    let lastWidth := ((last - 1) &&& 7) + 1
    covered.orByte lastByte ((1#8 <<< lastWidth) - 1#8)

/-- `covered[position>>3] & (1<<(position&7)) != 0` -/
def test (covered : Coverage) (position : Nat) : Option Bool :=
  if h : position >>> 3 < 512 then
    some (covered[position >>> 3] &&& (1#8 <<< (position &&& 7)) != 0#8)
  else
    none

/-- The loop of `retain` that moves `contiguousSize`, for at most `n` bytes. -/
def advance (covered : Coverage) : Nat → Nat → Option Nat
  | 0, contiguousSize => some contiguousSize
  | n + 1, contiguousSize => do
    if ← covered.test contiguousSize then
      advance covered n (contiguousSize + 1)
    else
      some contiguousSize

end Coverage

namespace CryptoReassembler

/-- `copy(r.data[offset:end], data)` -/
def copyInto (stored : Vector UInt8 4096) (offset : Nat) (data : List UInt8) :
    Option (Vector UInt8 4096) :=
  if offset + data.length ≤ 4096 then
    some (Vector.ofFn fun i => (valueAt (offset, data) i).getD stored[i])
  else
    none

/-- The loop of `retain` over the bytes that may be there already. -/
def retainBytes (r : CryptoReassembler) (position : Nat) : List UInt8 → Option CryptoReassembler
  | [] => some r
  | b :: data => do
    if ← r.covered.test position then
      r.retainBytes (position + 1) data
    else if h : position < 4096 then
      let covered ← r.covered.orByte (position >>> 3) (1#8 <<< (position &&& 7))
      retainBytes { r with data := r.data.set position b, covered } (position + 1) data
    else
      none

def retain (r : CryptoReassembler) (offset : Nat) (data : List UInt8) :
    Option CryptoReassembler :=
  let last := offset + data.length
  if r.dataSize ≤ offset then do
    let stored ← copyInto r.data offset data
    let covered ← if offset < last then r.covered.coverRange offset last else some r.covered
    some { r with
      data := stored, covered, dataSize := last
      contiguousSize := if r.contiguousSize = offset then last else r.contiguousSize }
  else do
    let r := { r with dataSize := if r.dataSize < last then last else r.dataSize }
    let r ← r.retainBytes offset data
    let contiguousSize ← r.covered.advance (r.dataSize - r.contiguousSize) r.contiguousSize
    some { r with contiguousSize }

end CryptoReassembler

/-- The errors of `Bytes`. -/
inductive CryptoError where
  | missingCrypto

/-- `Bytes` -/
def cryptoBytes : Option CryptoReassembler → Checked CryptoError (List UInt8)
  | none => throw .missingCrypto
  | some r =>
    if r.contiguousSize ≠ r.dataSize then
      throw .missingCrypto
    else
      Checked.slice r.data.toList 0 r.dataSize

/-- What the loop of `processCryptoFrames` does with a frame. -/
def retainFrame (retained : Option CryptoReassembler) (e : ExtractedFrame) :
    Option (Option CryptoReassembler) :=
  match retained with
  | none => some none
  | some r =>
    let r := if e.limitExceeded then { r with limitExceeded := true } else r
    if e.isCrypto && e.data.length != 0 then (r.retain e.appOffset e.data).map some else some (some r)

/-- `processCryptoFrames` from a frame on: whether there was data, and what is retained.  It has no
result if it takes more than `fuel` frames. -/
def processCryptoFrames : Nat → Option CryptoReassembler → List UInt8 → Bool →
    Option (Except FrameError Bool × Option CryptoReassembler)
  | _, retained, [], hasData => some (.ok hasData, retained)
  | 0, _, _ :: _, _ => none
  | fuel + 1, retained, payload@(_ :: _), hasData =>
    match (extractCryptoFrame payload).run with
    | none => none
    | some (.error err) => some (.error err, retained)
    | some (.ok e) =>
      match retainFrame retained e with
      | none => none
      | some retained =>
        processCryptoFrames fuel retained (payload.drop e.frameSize) (hasData || e.isCrypto)

/-- `ReassembleCryptos`: what was retained is then in this state, and what is returned.  The pool has
only cleared reassemblers. -/
def reassembleCryptos (retained : Option CryptoReassembler) (newPayload : List UInt8) :
    Option (Option CryptoReassembler × Except FrameError (Option CryptoReassembler)) :=
  match processCryptoFrames newPayload.length none newPayload false with
  | none => none
  | some (.error err, _) => some (retained, .error err)
  | some (.ok false, _) => some (retained, .ok retained)
  | some (.ok true, _) =>
    match processCryptoFrames newPayload.length (some (retained.getD {})) newPayload false with
    | none => none
    | some (_, filled) => some (if retained.isSome then filled else none, .ok filled)

/-- The payloads one after the other; after an error the caller has what was retained. -/
def reassembleAll (retained : Option CryptoReassembler) :
    List (List UInt8) → Option (Option CryptoReassembler)
  | [] => some retained
  | payload :: payloads =>
    match reassembleCryptos retained payload with
    | none => none
    | some (_, .ok retained) => reassembleAll retained payloads
    | some (kept, .error _) => reassembleAll kept payloads

end Dae
