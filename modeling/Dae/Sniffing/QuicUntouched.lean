import Dae.Sniffing.QuicBlock

/-!
# QUIC sniffing leaves the packet untouched

The header of an Initial packet has its parts in order within the buffer
(`parseQuicInitialHeader_gives`), and its first byte is not part of the packet number.  Decrypting
changes at most these five bytes (`decryptQuic_within`), which the deferred call writes back
(`restoreHeader_spec`).
-/

namespace Dae

/-! ### The header -/

section Header

variable {buf : List UInt8} {header : InitialHeader}

/-- Where the parts of an Initial packet are. -/
structure InitialHeader.Fits (header : InitialHeader) (buf : List UInt8) : Prop where
  connId : 6 ≤ header.connIdEnd ∧ header.connIdEnd ≤ buf.length ∧
    header.destConnId = (buf.take header.connIdEnd).drop 6
  headerStart : 10 ≤ header.headerEnd
  header_le : header.headerEnd ≤ header.packetEnd
  packet_le : header.packetEnd ≤ buf.length

theorem parseQuicInitialHeader_gives (buf : List UInt8) :
    Checked.Gives (parseQuicInitialHeader buf) (·.Fits buf) := by
  refine (Checked.Gives.require _ _).bind fun _ hlong => ?_
  refine (Checked.Gives.index (by omega)).bind fun flag _ => ?_
  refine (Checked.Gives.require _ _).bind fun _ _ => ?_
  refine (Checked.Gives.slice (by omega) (by omega)).bind fun _ _ => ?_
  refine (Checked.Gives.ofOption _ _).bind fun _ _ => ?_
  refine (Checked.Gives.require _ _).bind fun _ _ => ?_
  refine (Checked.Gives.index (by omega)).bind fun destConnIdLength _ => ?_
  refine (Checked.Gives.require _ _).bind fun _ hdest => ?_
  refine (Checked.Gives.slice (by omega) (by omega)).bind fun destConnId hconnId => ?_
  refine (Checked.Gives.require _ _).bind fun _ hsrc => ?_
  refine (Checked.Gives.index hsrc).bind fun srcConnIdLength _ => ?_
  refine (Checked.Gives.require _ _).bind fun _ hsrc_le => ?_
  refine (Checked.Gives.sliceFrom (by omega)).bind fun rest hrest => ?_
  refine (bigEndianUvarint_le rest).mapError.bind fun ⟨tokenLength, n⟩ hn => ?_
  rw [hrest, List.length_drop] at hn
  refine (Checked.Gives.require _ _).bind fun _ htoken_le => ?_
  refine (Checked.Gives.sliceFrom (by omega)).bind fun rest' hrest' => ?_
  refine (bigEndianUvarint_le rest').mapError.bind fun ⟨length, m⟩ hm => ?_
  rw [hrest', List.length_drop] at hm
  refine (Checked.Gives.require _ _).bind fun _ hfits => .pure ?_
  obtain ⟨hlength_le, hfour⟩ := hfits
  unfold maxPacketNumberLength at hfour
  refine ⟨⟨Nat.le_add_right _ _, by dsimp only; omega, hconnId⟩, ?_, ?_, ?_⟩
  all_goals
    dsimp only [maxPacketNumberLength]
    omega

end Header

/-! ### Removing the header protection -/

section Decrypt

open Buffer

variable {ε : Type} {N start headerEnd blockEnd : Nat}

/-- The positions that the header protection touches: the first byte and the packet number. -/
def Protected (start i : Nat) : Prop := i = 0 ∨ start ≤ i ∧ i < start + 4

theorem xorBytes_within {mask : Vector UInt8 16} (n : Nat) :
    ∀ i, i + n ≤ 4 → start + 4 ≤ N →
      Within N (Protected start) (xorBytes mask start i n : Run (List UInt8) ε Unit)
        fun _ => True := by
  induction n with
  | zero =>
    intro i _ _
    exact Within.pure trivial
  | succ n ih =>
    intro i hi hN
    refine (Within.readAt (by omega)).bind fun b _ => ?_
    have hmask : mask[1 + i]? = some mask[1 + i] := Vector.getElem?_eq_getElem (by omega)
    rw [hmask]
    refine Within.lift.bind fun m _ => ?_
    refine (Within.writeAt (by omega) (.inr (by omega))).bind fun _ _ => ?_
    exact ih (i + 1) (by omega) hN

theorem packetNumberLength_le (b : UInt8) : (b &&& 3).toNat + 1 ≤ 4 := by
  have hle : b.toNat &&& 3 ≤ 3 := Nat.and_le_right
  rw [UInt8.toNat_and]
  exact Nat.succ_le_succ hle

theorem headerProtection_within {mask : Vector UInt8 16} (hN : start + 4 ≤ N) :
    Within N (Protected start) (headerProtection mask start : Run (List UInt8) ε Nat)
      fun length => length ≤ 4 := by
  refine (Within.readAt (by omega)).bind fun b _ => ?_
  refine (Within.writeAt (by omega) (.inl rfl)).bind fun _ _ => ?_
  have hle := packetNumberLength_le (b ^^^ (mask[0] &&& 0x0f))
  exact (xorBytes_within _ 0 (by omega) hN).bind fun _ _ => Within.pure hle

/-- **Decrypting touches nothing but the protected bytes** and stays within the packet. -/
theorem decryptQuic_within {K : Type} (cipher : QuicCipher K) (destConnId : List UInt8)
    (hstart : 10 ≤ headerEnd) (hheader : headerEnd ≤ blockEnd) (hblock : blockEnd ≤ N) :
    Within N (Protected (headerEnd - 4)) (decryptQuic cipher headerEnd blockEnd destConnId)
      fun _ => True := by
  refine (Within.readSlice (by omega) (by omega)).bind fun bytes hbytes => ?_
  have huint : uint32 bytes = some (bigEndian 0 (bytes.take 4)) := if_pos (by omega)
  rw [huint]
  refine Within.lift.bind fun version _ => ?_
  refine (Within.ofOption _).bind fun version _ => ?_
  refine (Within.ofOption _).bind fun keys _ => ?_
  refine (Within.ofOption _).bind fun _ hsample => ?_
  have hlong : headerEnd + sampleSize ≤ blockEnd := by
    split at hsample
    next => cases hsample
    next hlong => omega
  refine (Within.readSlice (by omega) (by omega)).bind fun sample _ => ?_
  refine (Within.ofOption _).bind fun mask _ => ?_
  have hprotected : headerEnd - maxPacketNumberLength + 4 ≤ N := by
    unfold maxPacketNumberLength
    omega
  refine (headerProtection_within hprotected).bind fun length hlength => ?_
  have hend : headerEnd - maxPacketNumberLength + length ≤ blockEnd := by
    unfold maxPacketNumberLength
    omega
  refine (Within.readSlice (by omega) (by omega)).bind fun packetNumber _ => ?_
  refine (Within.readSlice (by omega) (by omega)).bind fun header _ => ?_
  refine (Within.readSlice hend hblock).bind fun payload _ => ?_
  exact (Within.ofOption _).mono (fun _ h => h) fun _ _ => trivial

/-- The bytes are written one after the other. -/
theorem writeAll_spec (bytes : List UInt8) :
    ∀ (i : Nat) (buf : List UInt8), i + bytes.length ≤ buf.length →
      ∃ buf', (writeAll i bytes : Run (List UInt8) ε Unit) buf = some (.ok (), buf') ∧
        buf'.length = buf.length ∧
        ∀ j, buf'[j]? = if i ≤ j ∧ j < i + bytes.length then bytes[j - i]? else buf[j]? := by
  induction bytes with
  | nil =>
    intro i buf _
    refine ⟨buf, rfl, rfl, fun j => ?_⟩
    rw [if_neg (by simp)]
  | cons b bytes ih =>
    intro i buf hle
    rw [List.length_cons] at hle
    have hlt : i < buf.length := by omega
    obtain ⟨buf', hrun, hlen, hget⟩ := ih (i + 1) (buf.set i b) (by rw [List.length_set]; omega)
    refine ⟨buf', ?_, hlen.trans List.length_set, fun j => ?_⟩
    · change Run.bind (writeAt i b) (fun _ => writeAll (i + 1) bytes) buf = _
      rw [Run.bind, writeAt, if_pos hlt]
      exact hrun
    · rw [hget, List.length_cons]
      by_cases hj : j = i
      · subst hj
        rw [if_neg (by omega), if_pos (by omega), List.getElem?_set_self hlt, Nat.sub_self]
        rfl
      · by_cases hin : i + 1 ≤ j ∧ j < i + 1 + bytes.length
        · have hsub : j - i = j - (i + 1) + 1 := by omega
          rw [if_pos hin, if_pos (by omega), hsub, List.getElem?_cons_succ]
        · rw [if_neg hin, if_neg (by omega), List.getElem?_set_ne (Ne.symm hj)]

/-- **The deferred call puts the header back.** -/
theorem restoreHeader_spec {buf changed : List UInt8} {first : UInt8} (hfirst : buf[0]? = some first)
    (hstart : 10 ≤ headerEnd) (hheader : headerEnd ≤ buf.length)
    (hlen : changed.length = buf.length)
    (hkeep : ∀ i, ¬ Protected (headerEnd - 4) i → changed[i]? = buf[i]?) :
    restoreHeader headerEnd first
      ((buf.take headerEnd).drop (headerEnd - maxPacketNumberLength)) changed =
        some (.ok (), buf) := by
  have hsaved : ((buf.take headerEnd).drop (headerEnd - maxPacketNumberLength)).length = 4 := by
    unfold maxPacketNumberLength
    rw [List.length_drop, List.length_take]
    omega
  obtain ⟨buf', hrun, hlen', hget⟩ := @writeAll_spec Unit
    ((buf.take headerEnd).drop (headerEnd - maxPacketNumberLength))
    (headerEnd - maxPacketNumberLength) (changed.set 0 first) (by
      rw [hsaved, List.length_set]
      unfold maxPacketNumberLength
      omega)
  have hsame : buf' = buf := by
    refine List.ext_getElem? fun j => ?_
    rw [hget, hsaved]
    unfold maxPacketNumberLength
    by_cases hj : headerEnd - 4 ≤ j ∧ j < headerEnd - 4 + 4
    · rw [if_pos hj, List.getElem?_drop, List.getElem?_take_of_lt (by omega)]
      congr 1
      omega
    · rw [if_neg hj]
      by_cases hzero : j = 0
      · subst hzero
        rw [List.getElem?_set_self (by omega), hfirst]
      · rw [List.getElem?_set_ne (Ne.symm hzero)]
        exact hkeep j fun hp => hp.elim hzero hj
  change Run.bind (writeAt 0 first) _ changed = _
  rw [Run.bind, writeAt, if_pos (by omega)]
  exact hsame ▸ hrun

end Decrypt

/-! ### A block, and all blocks -/

section Block

variable {K : Type} (cipher : QuicCipher K) {cryptos : Option CryptoReassembler}
  {frames : List (Nat × List UInt8)}

theorem reassembleCryptos_cases (h : Retains cryptos frames) (payload : List UInt8) :
    (∃ err, reassembleCryptos cryptos payload = some (cryptos, .error err)) ∨
      ∃ kept filled more, reassembleCryptos cryptos payload = some (kept, .ok filled) ∧
        Retains filled more := by
  by_cases hgood : ∃ read, Payload payload read
  · obtain ⟨read, hread⟩ := hgood
    obtain ⟨kept, filled, hcall, hfilled⟩ := reassembleCryptos_payload h hread
    exact .inr ⟨kept, filled, _, hcall, hfilled⟩
  · exact .inl (reassembleCryptos_reject cryptos hgood)

/-- What `sniffQuicBlock` leaves behind and reports. -/
structure BlockOk (buf : List UInt8) (block : BlockResult) : Prop where
  retains : ∃ frames, Retains block.cryptos frames
  next : ∀ next, block.next = some next →
    ∃ header, parseQuicInitialHeader buf = pure header ∧ next = header.packetEnd
  last : block.err = none → block.next ≠ none

omit cipher in
theorem BlockOk.notApplicable (h : Retains cryptos frames) (buf : List UInt8) :
    BlockOk buf ⟨cryptos, none, some .notApplicable⟩ :=
  ⟨⟨frames, h⟩, fun _ hn => (by cases hn), fun hn => by cases hn⟩

omit cipher in
theorem BlockOk.ofReassembly {buf : List UInt8} {header : InitialHeader}
    (hparse : parseQuicInitialHeader buf = pure header)
    (h : Retains cryptos frames) (payload : List UInt8) :
    ∃ kept result, reassembleCryptos cryptos payload = some (kept, result) ∧
      BlockOk buf (.ofReassembly kept header.packetEnd result) := by
  have hnext : ∀ next, some header.packetEnd = some next →
      ∃ header, parseQuicInitialHeader buf = pure header ∧ next = header.packetEnd :=
    fun next hn => ⟨header, hparse, (Option.some.inj hn).symm⟩
  rcases reassembleCryptos_cases h payload with
    ⟨err, hcall⟩ | ⟨kept, filled, more, hcall, hfilled⟩
  · refine ⟨cryptos, .error err, hcall, ?_⟩
    cases err with
    | connectionClosed => exact ⟨⟨frames, h⟩, fun _ hn => (by cases hn), fun hn => by cases hn⟩
    | _ => exact ⟨⟨frames, h⟩, hnext, fun hn => by cases hn⟩
  · exact ⟨kept, .ok filled, hcall, ⟨more, hfilled⟩, hnext, fun _ hn => by cases hn⟩

/-- **`sniffQuicBlock` returns and leaves the buffer as it was**, on every path. -/
theorem sniffQuicBlock_spec (h : Retains cryptos frames) (buf : List UInt8) :
    ∃ block, sniffQuicBlock cipher cryptos buf = some (block, buf) ∧ BlockOk buf block := by
  rcases (parseQuicInitialHeader_gives buf).cases with ⟨header, hparse, hfits⟩ | ⟨err, hparse⟩
  · have hrun : (parseQuicInitialHeader buf).run = some (.ok header) := hparse
    have hpos : 0 < buf.length := by
      have := hfits.connId
      omega
    have hfirst : buf[0]? = some buf[0] := List.getElem?_eq_getElem hpos
    obtain ⟨result, changed, hdecrypt, hlen, hkeep, -⟩ := decryptQuic_within cipher
      header.destConnId hfits.headerStart hfits.header_le hfits.packet_le buf rfl
    have hrestore := restoreHeader_spec hfirst hfits.headerStart
      (hfits.header_le.trans hfits.packet_le) hlen hkeep
    cases result with
    | error err =>
      refine ⟨_, ?_, .notApplicable h buf⟩
      simp [sniffQuicBlock, hrun, hfirst, hdecrypt, hrestore]
    | ok plaintext =>
      obtain ⟨kept, result, hcall, hok⟩ := BlockOk.ofReassembly hparse h plaintext
      refine ⟨_, ?_, hok⟩
      simp [sniffQuicBlock, hrun, hfirst, hdecrypt, hrestore, hcall]
  · have hrun : (parseQuicInitialHeader buf).run = some (.error err) := hparse
    refine ⟨_, ?_, .notApplicable h buf⟩
    simp [sniffQuicBlock, hrun]

/-- One turn of the loop over the blocks: it ends there, or goes on after the packet. -/
theorem sniffBlocks_turn (h : Retains cryptos frames) (parsedInitial : Bool)
    (remaining : List UInt8) :
    (∃ result, (∀ fuel, sniffBlocks cipher fuel cryptos parsedInitial remaining = some result) ∧
        result.datagram = remaining ∧ ∀ fuel, result.packets <+: coalescedPackets (fuel + 1) remaining) ∨
      ∃ header cryptos' more, parseQuicInitialHeader remaining = pure header ∧
        Retains cryptos' more ∧ remaining.length - header.packetEnd ≠ 0 ∧
        ∀ fuel, sniffBlocks cipher (fuel + 1) cryptos parsedInitial remaining =
          (sniffBlocks cipher fuel cryptos' true (remaining.drop header.packetEnd)).map fun rest =>
            { rest with
              datagram := remaining.take header.packetEnd ++ rest.datagram
              packets := remaining.take header.packetEnd :: rest.packets } := by
  obtain ⟨⟨cryptos', next, err⟩, hblock, hok⟩ := sniffQuicBlock_spec cipher h remaining
  match err with
  | some .notApplicable =>
    refine .inl ⟨⟨cryptos', if parsedInitial then none else some .notApplicable, remaining, []⟩,
      fun fuel => ?_, rfl, fun _ => List.nil_prefix⟩
    rw [sniffBlocks, hblock]
  | some .closed =>
    refine .inl ⟨⟨cryptos', some .closed, remaining, []⟩, fun fuel => ?_, rfl,
      fun _ => List.nil_prefix⟩
    rw [sniffBlocks, hblock]
  | none =>
    obtain ⟨packetEnd, rfl⟩ := Option.ne_none_iff_exists'.mp (hok.last rfl)
    obtain ⟨header, hparse, rfl⟩ := hok.next _ rfl
    by_cases hlast : remaining.length - header.packetEnd = 0
    · refine .inl ⟨⟨cryptos', none, remaining, [remaining.take header.packetEnd]⟩, fun fuel => ?_,
        rfl, fun fuel => ?_⟩
      · rw [sniffBlocks, hblock]
        simp only [Option.getD_some, List.length_drop, hlast, if_true]
      · have hrun : (parseQuicInitialHeader remaining).run = some (.ok header) := hparse
        rw [coalescedPackets, hrun]
        exact ⟨_, rfl⟩
    · obtain ⟨more, hmore⟩ := hok.retains
      refine .inr ⟨header, cryptos', more, hparse, hmore, hlast, fun fuel => ?_⟩
      rw [sniffBlocks, hblock]
      simp only [Option.getD_some, List.length_drop, hlast, if_false]

/-- The loop over the blocks, whose packets are those that the headers say. -/
theorem sniffBlocks_spec (fuel : Nat) :
    ∀ {cryptos : Option CryptoReassembler} {frames : List (Nat × List UInt8)} (parsedInitial : Bool)
      (remaining : List UInt8), Retains cryptos frames → remaining.length ≤ fuel →
      ∃ result, sniffBlocks cipher fuel cryptos parsedInitial remaining = some result ∧
        result.datagram = remaining ∧
        result.packets <+: coalescedPackets (fuel + 1) remaining := by
  induction fuel with
  | zero =>
    intro cryptos frames parsedInitial remaining h hlen
    rcases sniffBlocks_turn cipher h parsedInitial remaining with
      ⟨result, hend, hdatagram, hpackets⟩ | ⟨header, _, _, _, _, hlong, _⟩
    · exact ⟨result, hend 0, hdatagram, hpackets 0⟩
    · omega
  | succ fuel ih =>
    intro cryptos frames parsedInitial remaining h hlen
    rcases sniffBlocks_turn cipher h parsedInitial remaining with
      ⟨result, hend, hdatagram, hpackets⟩ | ⟨header, cryptos', more, hparse, hmore, hlong, hturn⟩
    · exact ⟨result, hend _, hdatagram, hpackets _⟩
    · have hfits := (parseQuicInitialHeader_gives remaining).2 header hparse
      have hpos := hfits.headerStart.trans hfits.header_le
      obtain ⟨rest, hrest, hdatagram, hpackets⟩ := ih true (remaining.drop header.packetEnd) hmore
        (by rw [List.length_drop]; omega)
      have hloop := hturn fuel
      rw [hrest, Option.map_some] at hloop
      refine ⟨_, hloop, ?_, ?_⟩
      · dsimp only
        rw [hdatagram, List.take_append_drop]
      · have hrun : (parseQuicInitialHeader remaining).run = some (.ok header) := hparse
        rw [coalescedPackets, hrun]
        exact List.cons_prefix_cons.mpr ⟨rfl, hpackets⟩

end Block

/-- **QUIC sniffing leaves the packet untouched.**  For every buffer, every cipher and whatever is
retained: a header that is accepted has its parts in order within the buffer; `sniffQuicBlock` does
not leave the buffer, returns it as it was, and reports the rest behind the packet as the next block;
and the loop over a datagram returns it as it was, having read the packets that the headers say, or
the first of them. -/
theorem quic_untouched {K : Type} (cipher : QuicCipher K) {cryptos : Option CryptoReassembler}
    {frames : List (Nat × List UInt8)} (h : Retains cryptos frames) (buf : List UInt8) :
    (∃ result, (parseQuicInitialHeader buf).run = some result ∧
      ∀ header, result = .ok header → 0 < header.headerEnd ∧ header.headerEnd ≤ header.packetEnd ∧
        header.packetEnd ≤ buf.length ∧ 6 ≤ header.connIdEnd ∧ header.connIdEnd ≤ buf.length ∧
        header.destConnId = (buf.take header.connIdEnd).drop 6) ∧
    (∃ block, sniffQuicBlock cipher cryptos buf = some (block, buf) ∧
      ∀ next, block.next = some next →
        ∃ header, parseQuicInitialHeader buf = pure header ∧ next = header.packetEnd) ∧
    ∀ parsedInitial, ∃ result,
      sniffBlocks cipher buf.length cryptos parsedInitial buf = some result ∧
      result.datagram = buf ∧ result.packets <+: coalescedPackets (buf.length + 1) buf := by
  refine ⟨?_, ?_, fun parsedInitial => sniffBlocks_spec cipher _ parsedInitial buf h le_rfl⟩
  · obtain ⟨result, hrun⟩ := Option.ne_none_iff_exists'.mp (parseQuicInitialHeader_gives buf).1
    refine ⟨result, hrun, fun header hresult => ?_⟩
    have hfits := (parseQuicInitialHeader_gives buf).2 header (hrun.trans (congrArg _ hresult))
    have hstart := hfits.headerStart
    obtain ⟨hlow, hhigh, hid⟩ := hfits.connId
    exact ⟨by omega, hfits.header_le, hfits.packet_le, hlow, hhigh, hid⟩
  · obtain ⟨block, hblock, hok⟩ := sniffQuicBlock_spec cipher h buf
    exact ⟨block, hblock, hok.next⟩

/-- A cipher that masks all bits and finds one CRYPTO frame. -/
def sampleCipher : QuicCipher Unit where
  newKeys _ _ := some ()
  mask _ _ := some (Vector.replicate 16 0xff)
  openPayload _ _ _ _ := some [6, 0, 2, 97, 98]

/-- An Initial packet without connection ids and token, and two more bytes. -/
def sampleDatagram : List UInt8 :=
  [0xc0, 0, 0, 0, 1, 0, 0, 0, 20] ++ List.replicate 20 7 ++ [1, 2]

theorem quic_untouched_sample :
    (∃ block, sniffQuicBlock sampleCipher none sampleDatagram = some (block, sampleDatagram)) ∧
      (sniffQuicBlock sampleCipher none sampleDatagram).map (·.1.next) = some (some 29) := by
  obtain ⟨block, hblock, -⟩ :=
    (quic_untouched sampleCipher (show Retains none [] from rfl) sampleDatagram).2.1
  exact ⟨⟨block, hblock⟩, by decide +kernel⟩

end Dae
