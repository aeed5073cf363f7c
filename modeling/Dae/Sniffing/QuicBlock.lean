import Dae.Lib.Buffer
import Dae.Sniffing.ReassemblyExact

/-!
# The packets of a QUIC datagram

`component/sniffing/quic.go` and `DecryptQuic_` of `internal/quicutils/cipher.go`.  A datagram holds
coalesced packets.  The header protection of an Initial packet is removed in the datagram itself,
which is forwarded afterwards, and put back by deferred calls.

The keys, the mask and the decryption are any functions that may fail.  They work on memory of their
own: the datagram is the only buffer here, and an access outside of it has no result.
-/

namespace Dae

inductive QuicVersion where
  | draft
  | v1
  | v2
  deriving DecidableEq

def parseVersion (version : Nat) : Option QuicVersion :=
  if version = 0x6b3343cf then
    some .v2
  else if version = 1 then
    some .v1
  else if version &&& 0xff000000 = 0xff000000 then
    some .draft
  else
    none

/-- `QuicFlag_LongPacketType_Initial` of the version. -/
def QuicVersion.initialType : QuicVersion → UInt8
  | .v2 => 1
  | _ => 0

def maxPacketNumberLength : Nat := 4

def sampleSize : Nat := 16

/-- What `parseQuicInitialHeader` returns if it is ok; the connection id is `buf[6:connIdEnd]`. -/
structure InitialHeader where
  connIdEnd : Nat
  destConnId : List UInt8
  headerEnd : Nat
  packetEnd : Nat

def parseQuicInitialHeader (buf : List UInt8) : Checked Unit InitialHeader := do
  Checked.require () (6 ≤ buf.length)
  let protectedFlag ← Checked.index buf 0
  Checked.require () ((protectedFlag >>> 7) &&& 3 = 1)
  let versionBytes ← Checked.slice buf 1 5
  let version ← Checked.ofOption () (parseVersion (bigEndian 0 versionBytes))
  Checked.require () ((protectedFlag >>> 4) &&& 3 = version.initialType)
  let destConnIdLength ← Checked.index buf 5
  Checked.require () (destConnIdLength.toNat ≤ buf.length - 6)
  let connIdEnd := 6 + destConnIdLength.toNat
  let destConnId ← Checked.slice buf 6 connIdEnd
  Checked.require () (connIdEnd < buf.length)
  let srcConnIdLength ← Checked.index buf connIdEnd
  Checked.require () (srcConnIdLength.toNat ≤ buf.length - (connIdEnd + 1))
  let cursor := connIdEnd + 1 + srcConnIdLength.toNat
  let rest ← Checked.sliceFrom buf cursor
  let (tokenLength, n) ← Checked.mapError (fun _ => ()) (bigEndianUvarint rest)
  let cursor := cursor + n
  Checked.require () (tokenLength ≤ buf.length - cursor)
  let cursor := cursor + tokenLength
  let rest ← Checked.sliceFrom buf cursor
  let (length, n) ← Checked.mapError (fun _ => ()) (bigEndianUvarint rest)
  let cursor := cursor + n
  Checked.require () (length ≤ buf.length - cursor ∧ maxPacketNumberLength ≤ length)
  pure {
    connIdEnd, destConnId, headerEnd := cursor + maxPacketNumberLength
    packetEnd := cursor + length }

/-- The keys of a connection, the mask of the header protection and the decryption. -/
structure QuicCipher (K : Type) where
  newKeys : List UInt8 → QuicVersion → Option K
  mask : K → List UInt8 → Option (Vector UInt8 16)
  openPayload : K → (packetNumber payload header : List UInt8) → Option (List UInt8)

section Decrypt

open Buffer

/-- `packetNumber[i] ^= mask[1+i]`, from the `i`-th byte on. -/
def xorBytes {ε : Type} (mask : Vector UInt8 16) (start : Nat) : Nat → Nat → Run (List UInt8) ε Unit
  | _, 0 => pure ()
  | i, n + 1 => do
    let b ← readAt (start + i)
    let m ← Run.lift (mask[1 + i]?.map .ok)
    writeAt (start + i) (b ^^^ m)
    xorBytes mask start (i + 1) n

/-- `HeaderProtection_` of a long header: the length of the packet number. -/
def headerProtection {ε : Type} (mask : Vector UInt8 16) (start : Nat) :
    Run (List UInt8) ε Nat := do
  let firstByte ← readAt 0
  let firstByte := firstByte ^^^ (mask[0] &&& 0x0f)
  writeAt 0 firstByte
  let packetNumberLength := (firstByte &&& 3).toNat + 1
  xorBytes mask start 0 packetNumberLength
  pure packetNumberLength

/-- `binary.BigEndian.Uint32` -/
def uint32 (bytes : List UInt8) : Option Nat :=
  if 4 ≤ bytes.length then some (bigEndian 0 (bytes.take 4)) else none

/-- `DecryptQuic_` of the header `buf[:headerEnd]`. -/
def decryptQuic {K : Type} (cipher : QuicCipher K) (headerEnd blockEnd : Nat)
    (destConnId : List UInt8) : Run (List UInt8) Unit (List UInt8) := do
  let bytes ← readSlice 1 headerEnd
  let version ← Run.lift ((uint32 bytes).map .ok)
  let version ← ofOption () (parseVersion version)
  let keys ← ofOption () (cipher.newKeys destConnId version)
  ofOption () (if blockEnd - headerEnd < sampleSize then none else some ())
  let sample ← readSlice headerEnd (headerEnd + sampleSize)
  let mask ← ofOption () (cipher.mask keys sample)
  let start := headerEnd - maxPacketNumberLength
  let packetNumberLength ← headerProtection mask start
  let packetNumber ← readSlice start (start + packetNumberLength)
  let header ← readSlice 0 (start + packetNumberLength)
  let payload ← readSlice (start + packetNumberLength) blockEnd
  ofOption () (cipher.openPayload keys packetNumber payload header)

/-- `copy` of all bytes to a position. -/
def writeAll {ε : Type} : Nat → List UInt8 → Run (List UInt8) ε Unit
  | _, [] => pure ()
  | i, b :: bytes => do
    writeAt i b
    writeAll (i + 1) bytes

/-- The deferred call of `sniffQuicBlock`. -/
def restoreHeader (headerEnd : Nat) (originalFirstByte : UInt8)
    (originalPacketNumber : List UInt8) : Run (List UInt8) Unit Unit := do
  writeAt 0 originalFirstByte
  writeAll (headerEnd - maxPacketNumberLength) originalPacketNumber

end Decrypt

inductive BlockError where
  | notApplicable
  | closed
  deriving DecidableEq

/-- What `sniffQuicBlock` returns; the next block is `buf[next:]`. -/
structure BlockResult where
  cryptos : Option CryptoReassembler
  next : Option Nat
  err : Option BlockError

/-- The last lines of `sniffQuicBlock`. -/
def BlockResult.ofReassembly (kept : Option CryptoReassembler) (packetEnd : Nat) :
    Except FrameError (Option CryptoReassembler) → BlockResult
  | .error .connectionClosed => ⟨kept, none, some .closed⟩
  | .error _ => ⟨kept, some packetEnd, some .notApplicable⟩
  | .ok filled => ⟨filled, some packetEnd, none⟩

/-- `sniffQuicBlock`, with the buffer as it leaves it. -/
def sniffQuicBlock {K : Type} (cipher : QuicCipher K) (cryptos : Option CryptoReassembler)
    (buf : List UInt8) : Option (BlockResult × List UInt8) := do
  match ← (parseQuicInitialHeader buf).run with
  | .error _ => some (⟨cryptos, none, some .notApplicable⟩, buf)
  | .ok h =>
    let originalFirstByte ← buf[0]?
    let originalPacketNumber := (buf.take h.headerEnd).drop (h.headerEnd - maxPacketNumberLength)
    let (result, changed) ← decryptQuic cipher h.headerEnd h.packetEnd h.destConnId buf
    let (_, restored) ← restoreHeader h.headerEnd originalFirstByte originalPacketNumber changed
    match result with
    | .error _ => some (⟨cryptos, none, some .notApplicable⟩, restored)
    | .ok plaintext =>
      let (kept, result) ← reassembleCryptos cryptos plaintext
      some (.ofReassembly kept h.packetEnd result, restored)

/-- How the loop of `sniffQuicLocked` over the blocks of a datagram ends: what it retains, whether it
fails, the datagram as it leaves it, and the packets it has read. -/
structure SniffedBlocks where
  cryptos : Option CryptoReassembler
  err : Option BlockError
  datagram : List UInt8
  packets : List (List UInt8)

/-- The loop of `sniffQuicLocked`, for at most `fuel` more blocks after the first. -/
def sniffBlocks {K : Type} (cipher : QuicCipher K) : Nat → Option CryptoReassembler → Bool →
    List UInt8 → Option SniffedBlocks
  | fuel, cryptos, parsedInitial, remaining =>
    match sniffQuicBlock cipher cryptos remaining with
    | none => none
    | some (⟨cryptos, next, none⟩, buf) =>
      let packetEnd := next.getD buf.length
      let packet := buf.take packetEnd
      if (buf.drop packetEnd).length = 0 then
        some ⟨cryptos, none, buf, [packet]⟩
      else
        match fuel with
        | 0 => none
        | fuel + 1 => (sniffBlocks cipher fuel cryptos true (buf.drop packetEnd)).map fun rest =>
          { rest with datagram := packet ++ rest.datagram, packets := packet :: rest.packets }
    | some (⟨cryptos, _, some .notApplicable⟩, buf) =>
      -- An unexpected block after a valid Initial is ignored.
      some ⟨cryptos, if parsedInitial then none else some .notApplicable, buf, []⟩
    | some (⟨cryptos, _, some .closed⟩, buf) => some ⟨cryptos, some .closed, buf, []⟩

/-- The packets that the headers say a datagram is made of. -/
def coalescedPackets : Nat → List UInt8 → List (List UInt8)
  | 0, _ => []
  | fuel + 1, buf =>
    match (parseQuicInitialHeader buf).run with
    | some (.ok header) =>
      buf.take header.packetEnd :: coalescedPackets fuel (buf.drop header.packetEnd)
    | _ => []

end Dae
