import Dae.Lib.Bytes
import Dae.Lib.Result
import Dae.Lib.Signed

/-!
# Datagrams of Hysteria2

`hysteria2/internal/frag/frag.go` and the messages of `hysteria2/internal/protocol/proxy.go`.  A
message that does not fit into a datagram is cut into pieces, which the other side puts together
again; it keeps the pieces of one message at a time.
-/

namespace Dae.Hysteria2

open Bytes
open Signed (wrap64 wrap64_eq)

structure UDPMessage where
  sessionID : UInt32
  packetID : UInt16
  fragID : UInt8
  fragCount : UInt8
  addr : List UInt8
  data : List UInt8
  deriving DecidableEq, Repr

/-- The package `quicvarint`. -/
structure QuicVarint where
  len : Nat → Nat
  append : Nat → List UInt8
  read : List UInt8 → Option (Nat × List UInt8)

/-- A value that was appended is read back, and takes the announced number of bytes. -/
structure QuicVarint.RoundTrips (q : QuicVarint) : Prop where
  length_append : ∀ n, (q.append n).length = q.len n
  read_append : ∀ n rest, n < 2 ^ 62 → q.read (q.append n ++ rest) = some (n, rest)

/-! ### Messages -/

def UDPMessage.headerSize (q : QuicVarint) (m : UDPMessage) : Nat :=
  4 + 2 + 1 + 1 + q.len m.addr.length + m.addr.length

def UDPMessage.size (q : QuicVarint) (m : UDPMessage) : Nat := m.headerSize q + m.data.length

def UDPMessage.appendTo (q : QuicVarint) (m : UDPMessage) : List UInt8 :=
  bigEndian m.sessionID.toNat 4 ++ bigEndian m.packetID.toNat 2 ++ [m.fragID, m.fragCount] ++
    q.append m.addr.length ++ m.addr ++ m.data

inductive ParseError where
  | unexpectedEOF
  | varint
  | invalidLength
  deriving DecidableEq, Repr

def maxAddressLength : Nat := 2048

def parseUDPMessage (q : QuicVarint) (msg : List UInt8) : Except ParseError UDPMessage :=
  if msg.length < 9 then
    .error .unexpectedEOF
  else
    match q.read (msg.drop 8) with
    | none => .error .varint
    | some (addrLen, rest) =>
      if addrLen = 0 ∨ maxAddressLength < addrLen ∨ rest.length ≤ addrLen then
        .error .invalidLength
      else
        let offset := msg.length - rest.length
        .ok {
          sessionID := .ofNat (ofBigEndian (msg.take 4))
          packetID := .ofNat (ofBigEndian ((msg.drop 4).take 2))
          fragID := msg.getD 6 0
          fragCount := msg.getD 7 0
          addr := (msg.drop offset).take addrLen
          data := msg.drop (offset + addrLen) }

/-! ### Cutting -/

/-- The loop of `FragUDPMessage`, with `rest` the payload from `off` on; an index out of range and
running out of rounds are `none`. -/
def fragLoop (m : UDPMessage) (maxPayloadSize : Nat) (fragCount : UInt8) :
    Nat → (rest : List UInt8) → (fragID : UInt8) → (frags : List UDPMessage) →
      Option (List UDPMessage)
  | 0, _, _, _ => none
  | rounds + 1, rest, fragID, frags =>
    if rest = [] then
      some frags
    else if fragID.toNat < frags.length then
      let payloadSize := min rest.length maxPayloadSize
      fragLoop m maxPayloadSize fragCount rounds (rest.drop payloadSize) (fragID + 1)
        (frags.set fragID.toNat { m with fragID, fragCount, data := rest.take payloadSize })
    else none

/-- The zero value that `make` fills a slice with. -/
def UDPMessage.zero : UDPMessage := ⟨0, 0, 0, 0, [], []⟩

/-- `FragUDPMessage`; the `nil` slice is the empty list. -/
def fragUDPMessage (q : QuicVarint) (m : UDPMessage) (maxSize : Int) : Option (List UDPMessage) :=
  if (m.size q : Int) ≤ maxSize then
    some [m]
  else
    let maxPayloadSize := wrap64 (maxSize - m.headerSize q)
    let needed := (wrap64 (m.data.length + maxPayloadSize - 1)).tdiv maxPayloadSize
    if maxPayloadSize ≤ 0 ∨ 255 < needed then
      some []
    else
      let fragCount := UInt8.ofNat (needed % 256).toNat
      fragLoop m maxPayloadSize.toNat fragCount (m.data.length + 1) m.data 0
        (List.replicate fragCount.toNat .zero)

/-- The fragments of a message that carry the pieces, numbered from `i` on. -/
def fragments (m : UDPMessage) (fragCount : UInt8) : Nat → List (List UInt8) → List UDPMessage
  | _, [] => []
  | i, piece :: pieces =>
    { m with fragID := .ofNat i, fragCount, data := piece } :: fragments m fragCount (i + 1) pieces

/-! ### Putting together -/

structure Defragger where
  pktID : UInt16 := 0
  frags : List (Option UDPMessage) := []
  count : UInt8 := 0
  size : Nat := 0
  deriving DecidableEq, Repr

/-- The loop that copies the fragments into a slice of `size` bytes, of which `data` are written;
`none` is the access to a fragment that is missing. -/
def assemble (size : Nat) : List (Option UDPMessage) → (data : List UInt8) → Option (List UInt8)
  | [], data => some (data ++ List.replicate (size - data.length) 0)
  | none :: _, _ => none
  | some frag :: frags, data => assemble size frags (data ++ frag.data.take (size - data.length))

/-- The state after the first fragment of a message. -/
def Defragger.start (m : UDPMessage) : Defragger where
  pktID := m.packetID
  frags := (List.replicate m.fragCount.toNat none).set m.fragID.toNat (some m)
  count := 1
  size := m.data.length

/-- The state with one more fragment. -/
def Defragger.store (d : Defragger) (m : UDPMessage) : Defragger :=
  { d with
    frags := d.frags.set m.fragID.toNat (some m)
    count := d.count + 1
    size := d.size + m.data.length }

/-- What follows when a fragment has been stored.  The last fragment is overwritten with the whole
message, also where the state refers to it. -/
def Defragger.complete (d : Defragger) (m : UDPMessage) :
    Option (Option UDPMessage × Defragger) :=
  if 65535 < d.size then
    some (none, { d with frags := [], count := 0, size := 0 })
  else if d.count.toNat = d.frags.length then
    (assemble d.size d.frags []).map fun data =>
      let whole := { m with data, fragID := 0, fragCount := 1 }
      (some whole, { d with frags := d.frags.set m.fragID.toNat (some whole) })
  else
    some (none, d)

/-- `Feed`; `none` is a panic. -/
def Defragger.feed (d : Defragger) (m : UDPMessage) : Option (Option UDPMessage × Defragger) :=
  if m.fragCount ≤ 1 then
    some (some m, d)
  else if m.fragCount ≤ m.fragID then
    some (none, d)
  else if m.packetID ≠ d.pktID ∨ m.fragCount ≠ UInt8.ofNat d.frags.length then
    some (none, .start m)
  else
    match d.frags[m.fragID.toNat]? with
    | none => none
    | some (some _) => some (none, d)
    | some none => (d.store m).complete m

/-- The messages that `Feed` returns for the fragments, one after another. -/
def Defragger.feedAll (d : Defragger) : List UDPMessage → Option (List UDPMessage × Defragger)
  | [] => some ([], d)
  | m :: ms => do
    let (out, d) ← d.feed m
    let (outs, d) ← d.feedAll ms
    pure (out.toList ++ outs, d)

/-! ### The encoding -/

theorem ofBigEndian_four (n : UInt32) : UInt32.ofNat (ofBigEndian (bigEndian n.toNat 4)) = n := by
  rw [ofBigEndian_bigEndian n.toNat_lt, UInt32.ofNat_toNat]

theorem ofBigEndian_two (n : UInt16) : UInt16.ofNat (ofBigEndian (bigEndian n.toNat 2)) = n := by
  rw [ofBigEndian_bigEndian n.toNat_lt, UInt16.ofNat_toNat]

section Encoding

variable {q : QuicVarint} (hq : q.RoundTrips)
include hq

/-- A message takes as many bytes as `Size` says. -/
theorem length_appendTo (m : UDPMessage) : (m.appendTo q).length = m.size q := by
  simp only [UDPMessage.appendTo, List.length_append, length_bigEndian, List.length_cons,
    List.length_nil, hq.length_append, UDPMessage.size, UDPMessage.headerSize]

theorem parseUDPMessage_appendTo {m : UDPMessage} (haddr : 1 ≤ m.addr.length)
    (hmax : m.addr.length ≤ maxAddressLength) (hdata : m.data ≠ []) :
    parseUDPMessage q (m.appendTo q) = .ok m := by
  have hpos : 0 < m.data.length := List.length_pos_iff.mpr hdata
  have hlt : m.addr.length < 2 ^ 62 := lt_of_le_of_lt hmax (by decide)
  -- the first eight bytes, and what the reader sees behind them
  have hbytes : m.appendTo q = (bigEndian m.sessionID.toNat 4 ++ bigEndian m.packetID.toNat 2 ++
      [m.fragID, m.fragCount]) ++ (q.append m.addr.length ++ (m.addr ++ m.data)) := by
    simp only [UDPMessage.appendTo, List.append_assoc]
  have hread : q.read ((m.appendTo q).drop 8) = some (m.addr.length, m.addr ++ m.data) := by
    rw [hbytes, List.drop_left' (by simp [length_bigEndian])]
    exact hq.read_append _ _ hlt
  have hrest : (m.appendTo q).drop ((m.appendTo q).length - (m.addr ++ m.data).length) =
      m.addr ++ m.data := by
    rw [hbytes, ← List.append_assoc, List.drop_left']
    simp only [List.length_append]
    omega
  have hlength : ¬(m.appendTo q).length < 9 := by
    rw [length_appendTo hq, UDPMessage.size, UDPMessage.headerSize]
    omega
  have hvalid : ¬(m.addr.length = 0 ∨ maxAddressLength < m.addr.length ∨
      (m.addr ++ m.data).length ≤ m.addr.length) := by
    rw [List.length_append]
    omega
  rw [parseUDPMessage, if_neg hlength, hread]
  simp only [if_neg hvalid, ← List.drop_drop, hrest, List.take_left, List.drop_left]
  congr 1
  have hsession := ofBigEndian_four m.sessionID
  have hpacket := ofBigEndian_two m.packetID
  obtain ⟨sessionID, packetID, fragID, fragCount, addr, data⟩ := m
  simp only [UDPMessage.mk.injEq, and_true]
  exact ⟨hsession, hpacket, rfl, rfl⟩

end Encoding

/-! ### What is cut off -/

/-- The number of pieces of at most `size` bytes. -/
theorem div_step {n size : Nat} (hn : 0 < n) (hsize : 0 < size) :
    (n + size - 1) / size = (n - min n size + size - 1) / size + 1 := by
  rcases Nat.le_total n size with h | h
  · rw [Nat.min_eq_left h, Nat.sub_self, Nat.zero_add, Nat.div_eq_of_lt (by omega : size - 1 < size)]
    exact Nat.div_eq_of_lt_le (by omega) (by omega)
  · rw [Nat.min_eq_right h, ← Nat.add_div_right _ hsize]
    congr 1
    omega

/-- The loop cuts the rest of the payload into pieces, and fills the remaining slots with them. -/
theorem fragLoop_spec (m : UDPMessage) {maxPayloadSize : Nat} (fragCount : UInt8)
    (hsize : 0 < maxPayloadSize) :
    ∀ (rounds : Nat) (rest : List UInt8) (fragID : UInt8) (frags : List UDPMessage),
      rest.length < rounds → frags.length ≤ 255 →
      frags.length = fragID.toNat + (rest.length + maxPayloadSize - 1) / maxPayloadSize →
      ∃ pieces, fragLoop m maxPayloadSize fragCount rounds rest fragID frags =
          some (frags.take fragID.toNat ++ fragments m fragCount fragID.toNat pieces) ∧
        pieces.length = (rest.length + maxPayloadSize - 1) / maxPayloadSize ∧
        pieces.flatten = rest ∧ ∀ piece ∈ pieces, piece.length ≤ maxPayloadSize := by
  intro rounds
  induction rounds with
  | zero => exact fun _ _ _ h => absurd h (Nat.not_lt_zero _)
  | succ rounds ih =>
    intro rest fragID frags hrounds hle hlength
    rw [fragLoop]
    by_cases hrest : rest = []
    · subst hrest
      have hzero : (([] : List UInt8).length + maxPayloadSize - 1) / maxPayloadSize = 0 :=
        Nat.div_eq_of_lt (by simp only [List.length_nil]; omega)
      rw [hzero, Nat.add_zero] at hlength
      refine ⟨[], ?_, hzero.symm, rfl, fun _ h => absurd h List.not_mem_nil⟩
      rw [if_pos rfl, fragments, List.append_nil, ← hlength, List.take_length]
    · have hpos : 0 < rest.length := List.length_pos_iff.mpr hrest
      have hstep := div_step hpos hsize
      have hindex : fragID.toNat < frags.length := by
        rw [hlength, hstep]
        exact Nat.lt_add_of_pos_right (Nat.succ_pos _)
      have hnext : (fragID + 1).toNat = fragID.toNat + 1 := by
        rw [UInt8.toNat_add, UInt8.toNat_one, Nat.mod_eq_of_lt (by omega)]
      rw [if_neg hrest, if_pos hindex]
      set payloadSize := min rest.length maxPayloadSize with hpayload
      have hdrop : (rest.drop payloadSize).length = rest.length - payloadSize := List.length_drop
      obtain ⟨pieces, hrun, hcount, hflat, hshort⟩ := ih (rest.drop payloadSize) (fragID + 1)
        (frags.set fragID.toNat { m with fragID, fragCount, data := rest.take payloadSize })
        (by omega) (by rw [List.length_set]; exact hle)
        (by rw [List.length_set, hnext, hdrop, hlength, hstep, Nat.add_assoc, Nat.add_comm 1])
      refine ⟨rest.take payloadSize :: pieces, ?_, ?_, ?_, ?_⟩
      · rw [hrun, hnext, fragments, UInt8.ofNat_toNat, List.take_set, List.take_succ_eq_append_getElem hindex,
          List.set_append_right _ _ (by rw [List.length_take]; omega), List.length_take,
          Nat.min_eq_left hindex.le, Nat.sub_self, List.set_cons_zero, List.append_assoc]
        rfl
      · rw [List.length_cons, hcount, hdrop, hstep]
      · rw [List.flatten_cons, hflat, List.take_append_drop]
      · rintro piece (_ | ⟨_, hpiece⟩)
        · rw [List.length_take]
          omega
        · exact hshort piece hpiece

/-- A message that was cut: two to 255 pieces of its data. -/
structure Sent where
  message : UDPMessage
  pieces : List (List UInt8)
  two_le : 2 ≤ pieces.length
  length_le : pieces.length ≤ 255
  flatten_eq : pieces.flatten = message.data
  data_le : message.data.length ≤ 65535

def Sent.fragCount (s : Sent) : UInt8 := .ofNat s.pieces.length

def Sent.fragments (s : Sent) : List UDPMessage :=
  Hysteria2.fragments s.message s.fragCount 0 s.pieces

/-- The message as `Feed` returns it. -/
def Sent.whole (s : Sent) : UDPMessage := { s.message with fragID := 0, fragCount := 1 }

theorem Sent.toNat_fragCount (s : Sent) : s.fragCount.toNat = s.pieces.length := by
  have h := s.length_le
  rw [Sent.fragCount, UInt8.toNat_ofNat', Nat.mod_eq_of_lt (by omega)]

theorem length_fragments (m : UDPMessage) (c : UInt8) (i : Nat) (pieces : List (List UInt8)) :
    (fragments m c i pieces).length = pieces.length := by
  induction pieces generalizing i with
  | nil => rfl
  | cons piece pieces ih => rw [fragments, List.length_cons, ih, List.length_cons]

theorem flatMap_fragments (m : UDPMessage) (c : UInt8) (i : Nat) (pieces : List (List UInt8)) :
    (fragments m c i pieces).flatMap (·.data) = pieces.flatten := by
  induction pieces generalizing i with
  | nil => rfl
  | cons piece pieces ih => rw [fragments, List.flatMap_cons, ih, List.flatten_cons]

theorem getElem?_fragments (m : UDPMessage) (c : UInt8) (i j : Nat) (pieces : List (List UInt8)) :
    (fragments m c i pieces)[j]? =
      pieces[j]?.map fun piece => { m with fragID := .ofNat (i + j), fragCount := c, data := piece } := by
  induction pieces generalizing i j with
  | nil => rfl
  | cons piece pieces ih =>
    cases j with
    | zero => rfl
    | succ j =>
      rw [fragments, List.getElem?_cons_succ, ih, List.getElem?_cons_succ, Nat.succ_add_eq_add_succ]

/-- What `FragUDPMessage` returns, unless the subtraction of the header overflows. -/
theorem fragUDPMessage_spec {q : QuicVarint} (m : UDPMessage) (hdata : m.data.length ≤ 65535)
    {maxSize : Int} (hmin : -2 ^ 63 ≤ maxSize - m.headerSize q) :
    fragUDPMessage q m maxSize = some [] ∧
        (maxSize ≤ m.headerSize q ∨ 255 * (maxSize - m.headerSize q) < m.data.length) ∨
      fragUDPMessage q m maxSize = some [m] ∧ m.size q ≤ maxSize ∨
      ∃ s : Sent, s.message = m ∧ fragUDPMessage q m maxSize = some s.fragments ∧
        ∀ f ∈ s.fragments, f.size q ≤ maxSize := by
  unfold fragUDPMessage
  by_cases hfits : (m.size q : Int) ≤ maxSize
  · exact .inr (.inl ⟨if_pos hfits, hfits⟩)
  rw [if_neg hfits]
  have hsize : (m.size q : Int) = m.headerSize q + m.data.length := by
    rw [UDPMessage.size, Nat.cast_add]
  have hwrap : wrap64 (maxSize - m.headerSize q) = maxSize - m.headerSize q :=
    wrap64_eq hmin (by omega)
  simp only [hwrap]
  by_cases hroom : maxSize - m.headerSize q ≤ 0
  · exact .inl ⟨if_pos (.inl hroom), .inl (by omega)⟩
  obtain ⟨p, hp⟩ : ∃ p : Nat, maxSize - m.headerSize q = p := ⟨_, (Int.toNat_of_nonneg (by omega)).symm⟩
  have hpos : 0 < p := by omega
  have hneeded : (wrap64 (m.data.length + (p : Int) - 1)).tdiv p =
      ((m.data.length + p - 1) / p : Nat) := by
    have hcast : (m.data.length : Int) + p - 1 = ((m.data.length + p - 1 : Nat) : Int) := by omega
    rw [wrap64_eq (by omega) (by omega), hcast, Int.ofNat_tdiv]
  rw [hp, hneeded]
  by_cases hmany : 255 < (m.data.length + p - 1) / p
  · refine .inl ⟨if_pos (.inr (by exact_mod_cast hmany)), .inr ?_⟩
    have hlt : 255 * p < m.data.length := by
      by_contra hge
      have := Nat.div_lt_of_lt_mul (show m.data.length + p - 1 < p * 256 by omega)
      omega
    exact_mod_cast hlt
  rw [if_neg (by push Not; exact ⟨by omega, by exact_mod_cast Nat.le_of_not_lt hmany⟩)]
  generalize hn : (m.data.length + p - 1) / p = n at hmany ⊢
  have hcast : ((n : Int) % 256).toNat = n := by omega
  have hcount : (UInt8.ofNat n).toNat = n := by
    rw [UInt8.toNat_ofNat', Nat.mod_eq_of_lt (by omega)]
  rw [hcast, hcount]
  obtain ⟨pieces, hrun, hlength, hflat, hshort⟩ := fragLoop_spec m (.ofNat n) hpos
    (m.data.length + 1) m.data 0 (List.replicate n .zero) (Nat.lt_succ_self _)
    (by rw [List.length_replicate]; omega)
    (by rw [List.length_replicate, hn, UInt8.toNat_zero, Nat.zero_add])
  -- the data does not fit into one piece, since the message does not fit
  have htwo : 2 ≤ pieces.length := by
    rw [hlength, Nat.le_div_iff_mul_le hpos]
    omega
  rw [hn] at hlength
  have hle : pieces.length ≤ 255 := by omega
  refine .inr (.inr ⟨⟨m, pieces, htwo, hle, hflat, hdata⟩, rfl, ?_, ?_⟩)
  · rw [Int.toNat_natCast, hrun, UInt8.toNat_zero, List.take_zero, List.nil_append, ← hlength]
    rfl
  · intro f hf
    obtain ⟨j, hj⟩ := List.mem_iff_getElem?.mp hf
    rw [Sent.fragments, getElem?_fragments, Option.map_eq_some_iff] at hj
    obtain ⟨piece, hpiece, rfl⟩ := hj
    have := hshort piece (List.mem_of_getElem? hpiece)
    simp only [UDPMessage.size, UDPMessage.headerSize] at hp ⊢
    omega

/-! ### Any fragments -/

def slotSize : Option UDPMessage → Nat
  | none => 0
  | some m => m.data.length

/-- The fragments received are counted, and while one is missing their sizes are added up. -/
structure Defragger.Sound (d : Defragger) : Prop where
  length_le : d.frags.length ≤ 255
  count_eq : d.count.toNat = d.frags.countP Option.isSome
  size_eq : none ∈ d.frags → d.size = (d.frags.map slotSize).sum

/-- A slot that counts for nothing is replaced. -/
theorem sum_map_set {α : Type*} {f : α → Nat} {l : List α} {i : Nat} {a b : α} (hi : l[i]? = some a)
    (ha : f a = 0) : ((l.set i b).map f).sum = (l.map f).sum + f b := by
  have hsum := List.sum_map_set f b hi
  omega

theorem countP_isSome {l : List (Option UDPMessage)} :
    l.countP Option.isSome = (l.map fun slot => if slot.isSome then 1 else 0).sum := by
  induction l with
  | nil => rfl
  | cons slot l ih =>
    rw [List.countP_cons, ih, List.map_cons, List.sum_cons, Nat.add_comm]

/-- Storing a fragment in a free slot. -/
theorem Defragger.Sound.store {d : Defragger} (h : d.Sound) {m : UDPMessage}
    (hslot : d.frags[m.fragID.toNat]? = some none) :
    (d.store m).count.toNat = (d.store m).frags.countP Option.isSome ∧
      (d.store m).size = ((d.store m).frags.map slotSize).sum := by
  have hmem : none ∈ d.frags := List.mem_of_getElem? hslot
  have hfree : d.frags.countP Option.isSome < d.frags.length :=
    lt_of_le_of_ne List.countP_le_length fun heq =>
      absurd (List.countP_eq_length.mp heq none hmem) Bool.false_ne_true
  have hle := h.length_le
  constructor
  · have hcount : (d.count + 1).toNat = d.count.toNat + 1 := by
      rw [UInt8.toNat_add, UInt8.toNat_one, Nat.mod_eq_of_lt (by rw [h.count_eq]; omega)]
    show (d.count + 1).toNat = (d.frags.set _ _).countP _
    rw [hcount, h.count_eq, countP_isSome, countP_isSome,
      sum_map_set (f := fun slot => if slot.isSome then 1 else 0) hslot rfl]
    rfl
  · show d.size + m.data.length = _
    rw [h.size_eq hmem]
    exact (sum_map_set (f := slotSize) (b := some m) hslot rfl).symm

theorem assemble_length {size : Nat} : ∀ {frags : List (Option UDPMessage)} (data : List UInt8),
    (∀ slot ∈ frags, slot.isSome) → data.length ≤ size →
      ∃ whole, assemble size frags data = some whole ∧ whole.length = size
  | [], data, _, hle => by
    refine ⟨_, rfl, ?_⟩
    rw [List.length_append, List.length_replicate]
    omega
  | none :: _, _, h, _ => absurd (h none List.mem_cons_self) Bool.false_ne_true
  | some frag :: frags, data, h, hle => by
    refine assemble_length (data ++ frag.data.take (size - data.length))
      (fun slot hslot => h slot (List.mem_cons_of_mem _ hslot)) ?_
    rw [List.length_append, List.length_take]
    omega

theorem assemble_exact {size : Nat} {frags : List UDPMessage} {data : List UInt8}
    (h : data.length + (frags.flatMap (·.data)).length = size) :
    assemble size (frags.map some) data = some (data ++ frags.flatMap (·.data)) := by
  induction frags generalizing data with
  | nil =>
    have hzero : size - data.length = 0 := by
      rw [List.flatMap_nil, List.length_nil] at h
      omega
    rw [List.map_nil, assemble, hzero, List.replicate_zero, List.flatMap_nil]
  | cons frag frags ih =>
    rw [List.flatMap_cons, List.length_append] at h
    rw [List.map_cons, assemble, List.take_of_length_le (by omega), ih, List.flatMap_cons,
      List.append_assoc]
    rw [List.length_append]
    omega

theorem Defragger.sound_start {m : UDPMessage} (hid : m.fragID.toNat < m.fragCount.toNat) :
    (Defragger.start m).Sound := by
  have hslot : (List.replicate m.fragCount.toNat (none : Option UDPMessage))[m.fragID.toNat]? =
      some none := by
    rw [List.getElem?_replicate, if_pos hid]
  refine ⟨?_, ?_, fun _ => ?_⟩
  · have := m.fragCount.toNat_lt
    show ((List.replicate _ _).set _ _).length ≤ 255
    rw [List.length_set, List.length_replicate]
    omega
  · show 1 = ((List.replicate _ _).set _ _).countP _
    rw [countP_isSome, sum_map_set hslot rfl]
    simp
  · show m.data.length = (((List.replicate _ _).set _ _).map slotSize).sum
    rw [sum_map_set hslot rfl]
    simp [slotSize]

/-- After a fragment has been stored, nothing that is missing is accessed. -/
theorem Defragger.sound_complete {d : Defragger} (m : UDPMessage) (hle : d.frags.length ≤ 255)
    (hcount : d.count.toNat = d.frags.countP Option.isSome)
    (hsize : d.size = (d.frags.map slotSize).sum) :
    ∃ out d', d.complete m = some (out, d') ∧ d'.Sound ∧ ∀ r ∈ out, r.data.length ≤ 65535 := by
  unfold Defragger.complete
  by_cases hbig : 65535 < d.size
  · refine ⟨none, _, if_pos hbig, ⟨Nat.zero_le _, rfl, fun h => absurd h List.not_mem_nil⟩, ?_⟩
    exact fun r hr => nomatch hr
  rw [if_neg hbig]
  by_cases hfull : d.count.toNat = d.frags.length
  · have hall := List.countP_eq_length.mp (hcount.symm.trans hfull)
    obtain ⟨data, hdata, hlength⟩ := assemble_length [] hall (Nat.zero_le d.size)
    rw [if_pos hfull, hdata]
    refine ⟨_, _, rfl, ⟨?_, ?_, ?_⟩, ?_⟩
    · exact (List.length_set ..).trans_le hle
    · -- the slot that is overwritten was taken before
      have hset : ∀ slot ∈ d.frags.set m.fragID.toNat
          (some { m with data, fragID := 0, fragCount := 1 }), slot.isSome = true := by
        intro slot hslot
        rcases List.mem_or_eq_of_mem_set hslot with h | rfl
        · exact hall slot h
        · rfl
      rw [hfull, List.countP_eq_length.mpr hset, List.length_set]
    · intro hnone
      rcases List.mem_or_eq_of_mem_set hnone with h | h
      · exact absurd (hall none h) Bool.false_ne_true
      · cases h
    · rintro r ⟨⟩
      exact hlength.trans_le (Nat.le_of_not_lt hbig)
  · exact ⟨none, d, if_neg hfull, ⟨hle, hcount, fun _ => hsize⟩, fun r hr => nomatch hr⟩

/-- **`Feed` does not panic**, and what it puts together has at most 65535 bytes. -/
theorem Defragger.Sound.feed {d : Defragger} (h : d.Sound) (m : UDPMessage) :
    ∃ out d', d.feed m = some (out, d') ∧ d'.Sound ∧
      ∀ r ∈ out, r = m ∧ m.fragCount ≤ 1 ∨ r.data.length ≤ 65535 := by
  unfold Defragger.feed
  by_cases hone : m.fragCount ≤ 1
  · refine ⟨some m, d, if_pos hone, h, ?_⟩
    rintro r ⟨⟩
    exact .inl ⟨rfl, hone⟩
  rw [if_neg hone]
  by_cases hid : m.fragCount ≤ m.fragID
  · exact ⟨none, d, if_pos hid, h, fun r hr => nomatch hr⟩
  rw [if_neg hid]
  have hlt : m.fragID.toNat < m.fragCount.toNat := UInt8.lt_iff_toNat_lt.mp (UInt8.not_le.mp hid)
  by_cases hnew : m.packetID ≠ d.pktID ∨ m.fragCount ≠ UInt8.ofNat d.frags.length
  · exact ⟨none, _, if_pos hnew, sound_start hlt, fun r hr => nomatch hr⟩
  rw [if_neg hnew]
  push Not at hnew
  have hlength : m.fragCount.toNat = d.frags.length := by
    have := h.length_le
    rw [hnew.2, UInt8.toNat_ofNat', Nat.mod_eq_of_lt (by omega)]
  rcases hslot : d.frags[m.fragID.toNat]? with _ | _ | f
  · have := List.getElem?_eq_none_iff.mp hslot
    omega
  · obtain ⟨hcount, hsize⟩ := h.store hslot
    obtain ⟨out, d', hrun, hsound, hout⟩ :=
      sound_complete (d := d.store m) m ((List.length_set ..).trans_le h.length_le) hcount hsize
    exact ⟨out, d', hrun, hsound, fun r hr => .inr (hout r hr)⟩
  · exact ⟨none, d, rfl, h, fun r hr => nomatch hr⟩

theorem Defragger.feedAll_cons {d d' d'' : Defragger} {m : UDPMessage} {out : Option UDPMessage}
    {ms outs : List UDPMessage} (hfeed : d.feed m = some (out, d'))
    (hrun : d'.feedAll ms = some (outs, d'')) :
    d.feedAll (m :: ms) = some (out.toList ++ outs, d'') := by
  simp only [Defragger.feedAll, hfeed, Option.bind_eq_bind, Option.bind_some, hrun]
  rfl

theorem Defragger.feedAll_append (d : Defragger) (ms ms' : List UDPMessage) :
    d.feedAll (ms ++ ms') = (d.feedAll ms).bind fun (outs, d) =>
      (d.feedAll ms').map fun (outs', d) => (outs ++ outs', d) := by
  induction ms generalizing d with
  | nil => cases h : d.feedAll ms' <;> simp [feedAll, h]
  | cons m ms ih =>
    rw [List.cons_append, feedAll, feedAll]
    cases d.feed m with
    | none => rfl
    | some r =>
      obtain ⟨out, d⟩ := r
      simp only [Option.bind_eq_bind, Option.bind_some, ih]
      cases d.feedAll ms with
      | none => rfl
      | some r =>
        obtain ⟨outs, d⟩ := r
        simp only [Option.bind_some, Option.pure_def]
        cases d.feedAll ms' <;> simp

/-- Every run from a sound state returns messages that were not cut or have at most 65535 bytes. -/
theorem Defragger.Sound.feedAll {d : Defragger} (h : d.Sound) (ms : List UDPMessage) :
    ∃ outs d', d.feedAll ms = some (outs, d') ∧ d'.Sound ∧
      ∀ r ∈ outs, r ∈ ms ∧ r.fragCount ≤ 1 ∨ r.data.length ≤ 65535 := by
  induction ms generalizing d with
  | nil => exact ⟨[], d, rfl, h, fun r hr => absurd hr List.not_mem_nil⟩
  | cons m ms ih =>
    obtain ⟨out, d₁, hstep, hsound, hout⟩ := h.feed m
    obtain ⟨outs, d₂, hrun, hsound', houts⟩ := ih hsound
    refine ⟨out.toList ++ outs, d₂, feedAll_cons hstep hrun, hsound', fun r hr => ?_⟩
    rcases List.mem_append.mp hr with hr | hr
    · rcases hout r (Option.mem_toList.mp hr) with ⟨rfl, hone⟩ | hle
      · exact .inl ⟨List.mem_cons_self, hone⟩
      · exact .inr hle
    · rcases houts r hr with ⟨hmem, hone⟩ | hle
      · exact .inl ⟨List.mem_cons_of_mem _ hmem, hone⟩
      · exact .inr hle

/-! ### The fragments of one message -/

namespace Sent

variable {s : Sent} {f : UDPMessage} {seen : List UDPMessage} {d : Defragger}

theorem fragID_of_getElem? {j : Nat} (h : s.fragments[j]? = some f) :
    f.fragID.toNat = j ∧ j < s.pieces.length ∧ f.packetID = s.message.packetID ∧
      f.fragCount = s.fragCount ∧
      { f with data := s.message.data, fragID := 0, fragCount := 1 } = s.whole := by
  rw [Sent.fragments, getElem?_fragments, Option.map_eq_some_iff] at h
  obtain ⟨piece, hpiece, rfl⟩ := h
  have hj := (List.getElem?_eq_some_iff.mp hpiece).1
  have hle := s.length_le
  refine ⟨?_, hj, rfl, rfl, rfl⟩
  show (UInt8.ofNat (0 + j)).toNat = j
  rw [UInt8.toNat_ofNat', Nat.zero_add, Nat.mod_eq_of_lt (by omega)]

theorem getElem?_fragID (hf : f ∈ s.fragments) : s.fragments[f.fragID.toNat]? = some f := by
  obtain ⟨j, hj⟩ := List.mem_iff_getElem?.mp hf
  rw [(fragID_of_getElem? hj).1, hj]

/-- A fragment of a message that was cut starts anew or goes to its slot. -/
theorem feed_fragment (hf : f ∈ s.fragments) (d : Defragger) :
    d.feed f = if f.packetID ≠ d.pktID ∨ f.fragCount ≠ UInt8.ofNat d.frags.length then
      some (none, .start f)
    else
      match d.frags[f.fragID.toNat]? with
      | none => none
      | some (some _) => some (none, d)
      | some none => (d.store f).complete f := by
  obtain ⟨-, hlt, -, hcount, -⟩ := fragID_of_getElem? (getElem?_fragID hf)
  have htwo := s.two_le
  have hone : ¬f.fragCount ≤ 1 := by
    rw [UInt8.le_iff_toNat_le, hcount, s.toNat_fragCount, UInt8.toNat_one]
    omega
  have hid : ¬f.fragCount ≤ f.fragID := by
    rw [UInt8.le_iff_toNat_le, hcount, s.toNat_fragCount]
    omega
  rw [Defragger.feed, if_neg hone, if_neg hid]

theorem feed_first (hf : f ∈ s.fragments) (hd : d.Sound)
    (hnew : d.pktID ≠ s.message.packetID ∨ d.frags.length ≠ s.pieces.length) :
    d.feed f = some (none, .start f) := by
  obtain ⟨-, -, hpacket, hcount, -⟩ := fragID_of_getElem? (getElem?_fragID hf)
  have hle := hd.length_le
  rw [feed_fragment hf, if_pos]
  rcases hnew with h | h
  · exact .inl (hpacket ▸ h.symm)
  · refine .inr fun heq => h ?_
    rw [← s.toNat_fragCount, ← hcount, heq, UInt8.toNat_ofNat', Nat.mod_eq_of_lt (by omega)]

theorem feed_same (hf : f ∈ s.fragments) (hpacket : d.pktID = s.message.packetID)
    (hlength : d.frags.length = s.pieces.length) :
    d.feed f = match d.frags[f.fragID.toNat]? with
      | none => none
      | some (some _) => some (none, d)
      | some none => (d.store f).complete f := by
  obtain ⟨-, -, hpacket', hcount, -⟩ := fragID_of_getElem? (getElem?_fragID hf)
  rw [feed_fragment hf, if_neg]
  rw [hpacket, hpacket', hcount, hlength]
  exact fun h => h.elim (absurd rfl) (absurd rfl)

/-- The slots when the fragments `seen` have arrived. -/
def slots (s : Sent) (seen : List UDPMessage) : List (Option UDPMessage) :=
  s.fragments.map fun f => if f ∈ seen then some f else none

theorem length_slots : (s.slots seen).length = s.pieces.length := by
  rw [slots, List.length_map, Sent.fragments, length_fragments]

theorem getElem?_slots (hf : f ∈ s.fragments) :
    (s.slots seen)[f.fragID.toNat]? = some (if f ∈ seen then some f else none) := by
  rw [slots, List.getElem?_map, getElem?_fragID hf]
  rfl

theorem set_slots (hf : f ∈ s.fragments) :
    (s.slots seen).set f.fragID.toNat (some f) = s.slots (f :: seen) := by
  apply List.ext_getElem?
  intro j
  by_cases hj : f.fragID.toNat = j
  · subst hj
    rw [List.getElem?_set_self (by
      rw [length_slots]
      exact (fragID_of_getElem? (getElem?_fragID hf)).2.1), getElem?_slots hf,
      if_pos List.mem_cons_self]
  · rw [List.getElem?_set_ne hj, slots, slots, List.getElem?_map, List.getElem?_map]
    rcases hg : s.fragments[j]? with _ | g
    · rfl
    · have hne : g ≠ f := by
        rintro rfl
        exact hj (fragID_of_getElem? hg).1
      simp only [Option.map_some, List.mem_cons, hne, false_or]

/-- The slots do not hold more than the message. -/
theorem sum_slots_le : ((s.slots seen).map slotSize).sum ≤ 65535 := by
  have hwhole : (s.fragments.map (·.data.length)).sum = s.message.data.length := by
    rw [← s.flatten_eq, ← flatMap_fragments s.message s.fragCount 0, List.length_flatMap]
    rfl
  have hslots : ((s.slots seen).map slotSize).sum ≤ (s.fragments.map (·.data.length)).sum := by
    rw [slots, List.map_map]
    refine List.sum_le_sum fun g _ => ?_
    show slotSize (if g ∈ seen then some g else none) ≤ _
    split
    · exact Nat.le_refl _
    · exact Nat.zero_le _
  exact hslots.trans (hwhole.trans_le s.data_le)

/-- The slots when every fragment has arrived. -/
theorem slots_all (h : ∀ g ∈ s.fragments, g ∈ seen) : s.slots seen = s.fragments.map some :=
  List.map_congr_left fun g hg => if_pos (h g hg)

/-- Some fragments of the message have arrived. -/
structure Collecting (s : Sent) (seen : List UDPMessage) (d : Defragger) : Prop where
  sound : d.Sound
  pktID : d.pktID = s.message.packetID
  frags : d.frags = s.slots seen
  missing : ∃ g ∈ s.fragments, g ∉ seen

/-- The message has been returned. -/
structure Done (s : Sent) (d : Defragger) : Prop where
  sound : d.Sound
  pktID : d.pktID = s.message.packetID
  length : d.frags.length = s.pieces.length
  full : none ∉ d.frags

theorem Collecting.step (h : Collecting s seen d) (hf : f ∈ s.fragments) :
    (∃ d', d.feed f = some (none, d') ∧ Collecting s (f :: seen) d') ∨
      ∃ d', d.feed f = some (some s.whole, d') ∧ Done s d' := by
  have hfeed := feed_same hf h.pktID (by rw [h.frags, length_slots])
  have hslot : d.frags[f.fragID.toNat]? = some (if f ∈ seen then some f else none) := by
    rw [h.frags, getElem?_slots hf]
  by_cases hseen : f ∈ seen
  · -- a duplicate
    rw [hslot, if_pos hseen] at hfeed
    have hsame : s.slots (f :: seen) = s.slots seen := by
      refine List.map_congr_left fun g _ => ?_
      have : g ∈ f :: seen ↔ g ∈ seen := by grind
      simp only [this]
    obtain ⟨g, hg, hmissing⟩ := h.missing
    exact .inl ⟨d, hfeed, h.sound, h.pktID, h.frags.trans hsame.symm, g, hg, by grind⟩
  rw [if_neg hseen] at hslot
  rw [hslot] at hfeed
  obtain ⟨hcount, hsize⟩ := h.sound.store hslot
  have hfrags : (d.store f).frags = s.slots (f :: seen) := by
    show d.frags.set _ _ = _
    rw [h.frags, set_slots hf]
  have hlength : (d.store f).frags.length = s.pieces.length := by rw [hfrags, length_slots]
  have hbig : ¬65535 < (d.store f).size := by
    rw [hsize, hfrags]
    exact Nat.not_lt.mpr sum_slots_le
  have hle : (d.store f).frags.length ≤ 255 := hlength.trans_le s.length_le
  obtain ⟨out, d', hrun, hsound, -⟩ := Defragger.sound_complete f hle hcount hsize
  have hcomplete := hrun
  rw [Defragger.complete, if_neg hbig] at hrun
  by_cases hall : ∀ g ∈ s.fragments, g ∈ f :: seen
  · -- the last one
    have hfull : (d.store f).frags = s.fragments.map some := hfrags.trans (slots_all hall)
    have hdata : assemble (d.store f).size (d.store f).frags [] = some s.message.data := by
      rw [hfull, assemble_exact, List.nil_append, Sent.fragments, flatMap_fragments, s.flatten_eq]
      rw [hsize, hfull, List.map_map, List.length_nil, Nat.zero_add, List.length_flatMap]
      rfl
    rw [if_pos (by
      rw [hcount, List.countP_eq_length, hfull]
      exact List.forall_mem_map.mpr fun _ _ => rfl), hdata,
      Option.map_some] at hrun
    cases hrun
    rw [(fragID_of_getElem? (getElem?_fragID hf)).2.2.2.2] at hcomplete hsound
    refine .inr ⟨_, hfeed.trans hcomplete, hsound, h.pktID, (List.length_set ..).trans hlength, ?_⟩
    intro hnone
    rcases List.mem_or_eq_of_mem_set hnone with hnone | hnone
    · rw [hfull] at hnone
      simp at hnone
    · cases hnone
  · push Not at hall
    obtain ⟨g, hg, hmissing⟩ := hall
    have hnone : none ∈ (d.store f).frags := by
      rw [hfrags, slots, List.mem_map]
      exact ⟨g, hg, if_neg hmissing⟩
    rw [if_neg (by
      rw [hcount]
      exact fun heq => absurd (List.countP_eq_length.mp heq none hnone) Bool.false_ne_true)] at hrun
    cases hrun
    exact .inl ⟨_, hfeed.trans hcomplete, hsound, h.pktID, hfrags, g, hg, hmissing⟩

theorem Done.step (h : Done s d) (hf : f ∈ s.fragments) : d.feed f = some (none, d) := by
  have hlt := (fragID_of_getElem? (getElem?_fragID hf)).2.1
  rw [feed_same hf h.pktID h.length]
  rcases hslot : d.frags[f.fragID.toNat]? with _ | _ | g
  · have := List.getElem?_eq_none_iff.mp hslot
    have := h.length
    omega
  · exact absurd (List.mem_of_getElem? hslot) h.full
  · rfl

theorem Done.run (h : Done s d) {arrivals : List UDPMessage}
    (harrivals : ∀ g ∈ arrivals, g ∈ s.fragments) : d.feedAll arrivals = some ([], d) := by
  induction arrivals with
  | nil => rfl
  | cons g arrivals ih =>
    exact Defragger.feedAll_cons (h.step (harrivals g List.mem_cons_self))
      (ih fun g hg => harrivals g (List.mem_cons_of_mem _ hg))

theorem Collecting.run (h : Collecting s seen d) {arrivals : List UDPMessage}
    (harrivals : ∀ g ∈ arrivals, g ∈ s.fragments)
    (hall : ∀ g ∈ s.fragments, g ∈ arrivals ∨ g ∈ seen) :
    ∃ d', d.feedAll arrivals = some ([s.whole], d') ∧ Done s d' := by
  induction arrivals generalizing seen d with
  | nil =>
    obtain ⟨g, hg, hmissing⟩ := h.missing
    exact absurd ((hall g hg).resolve_left List.not_mem_nil) hmissing
  | cons g arrivals ih =>
    have hrest : ∀ g ∈ arrivals, g ∈ s.fragments := fun g hg =>
      harrivals g (List.mem_cons_of_mem _ hg)
    rcases h.step (harrivals g List.mem_cons_self) with ⟨d₁, hfeed, h₁⟩ | ⟨d₁, hfeed, h₁⟩
    · obtain ⟨d₂, hrun, hdone⟩ := ih h₁ hrest fun x hx => by
        have := hall x hx
        grind
      exact ⟨d₂, Defragger.feedAll_cons hfeed hrun, hdone⟩
    · exact ⟨d₁, Defragger.feedAll_cons hfeed (h₁.run hrest), h₁⟩

/-- The first fragment of a message that differs from the last one. -/
theorem collecting_start (hf : f ∈ s.fragments) : Collecting s [f] (.start f) := by
  obtain ⟨-, hlt, hpacket, hcount, -⟩ := fragID_of_getElem? (getElem?_fragID hf)
  have hnone : List.replicate f.fragCount.toNat none = s.slots [] := by
    rw [hcount, s.toNat_fragCount, slots, ← length_fragments s.message s.fragCount 0]
    exact (List.map_const ..).symm
  have hsound : (Defragger.start f).Sound :=
    Defragger.sound_start (by rwa [hcount, s.toNat_fragCount])
  refine ⟨hsound, hpacket, ?_, ?_⟩
  · rw [← set_slots hf, ← hnone]
    rfl
  · -- of the first two fragments one has another number
    have htwo := s.two_le
    obtain ⟨g, hg⟩ : ∃ g, s.fragments[if f.fragID.toNat = 0 then 1 else 0]? = some g := by
      refine ⟨_, List.getElem?_eq_getElem ?_⟩
      rw [Sent.fragments, length_fragments]
      split <;> omega
    refine ⟨g, List.mem_of_getElem? hg, fun hmem => ?_⟩
    have hid := (fragID_of_getElem? hg).1
    rw [List.mem_singleton.mp hmem] at hid
    split at hid <;> omega

/-- **The fragments of a message**, in any order and any number of times, give it back once. -/
theorem feedAll_sent (hd : d.Sound)
    (hnew : d.pktID ≠ s.message.packetID ∨ d.frags.length ≠ s.pieces.length)
    {arrivals : List UDPMessage} (harrivals : ∀ g, g ∈ arrivals ↔ g ∈ s.fragments) :
    ∃ d', d.feedAll arrivals = some ([s.whole], d') ∧ Done s d' := by
  cases arrivals with
  | nil =>
    have hpos : 0 < s.fragments.length := by
      rw [Sent.fragments, length_fragments]
      exact Nat.lt_of_lt_of_le Nat.two_pos s.two_le
    exact absurd ((harrivals _).mpr (List.getElem_mem hpos)) List.not_mem_nil
  | cons f arrivals =>
    have hf := (harrivals f).mp List.mem_cons_self
    obtain ⟨d', hrun, hdone⟩ := (collecting_start hf).run
      (fun g hg => (harrivals g).mp (List.mem_cons_of_mem _ hg))
      (fun g hg => by
        have := (harrivals g).mpr hg
        grind)
    exact ⟨d', Defragger.feedAll_cons (feed_first hf hd hnew) hrun, hdone⟩

/-- The messages differ in the packet id or in the number of fragments. -/
def Differs (s t : Sent) : Prop :=
  s.message.packetID ≠ t.message.packetID ∨ s.pieces.length ≠ t.pieces.length

/-- One message after another. -/
theorem feedAll_session (hd : d.Sound) {session : List (Sent × List UDPMessage)}
    (hfirst : ∀ x ∈ session.head?, d.pktID ≠ x.1.message.packetID ∨
      d.frags.length ≠ x.1.pieces.length)
    (harrivals : ∀ x ∈ session, ∀ g, g ∈ x.2 ↔ g ∈ x.1.fragments)
    (hdiffers : session.IsChain fun x y => Differs x.1 y.1) :
    ∃ d', d.feedAll (session.flatMap (·.2)) = some (session.map (·.1.whole), d') := by
  induction session generalizing d with
  | nil => exact ⟨d, rfl⟩
  | cons x session ih =>
    obtain ⟨d₁, hrun, hdone⟩ := feedAll_sent hd (hfirst x rfl) (harrivals x List.mem_cons_self)
    obtain ⟨d₂, hrest⟩ := ih hdone.sound
      (fun y hy => by
        rw [hdone.pktID, hdone.length]
        exact hdiffers.rel_head? hy)
      (fun y hy => harrivals y (List.mem_cons_of_mem _ hy)) hdiffers.tail
    refine ⟨d₂, ?_⟩
    rw [List.flatMap_cons, Defragger.feedAll_append, hrun]
    simp only [Option.bind_some, hrest]
    rfl

end Sent

/-- The integers of eight bytes. -/
def longVarint : QuicVarint where
  len _ := 8
  append n := bigEndian n 8
  read bytes := if bytes.length < 8 then none else some (ofBigEndian (bytes.take 8), bytes.drop 8)

theorem longVarint_roundTrips : longVarint.RoundTrips where
  length_append n := length_bigEndian n 8
  read_append n rest hn := by
    have hlength : (bigEndian n 8).length = 8 := length_bigEndian n 8
    have hvalue : ofBigEndian (bigEndian n 8) = n := ofBigEndian_bigEndian (by omega)
    have hlong : ¬(bigEndian n 8 ++ rest).length < 8 := by
      rw [List.length_append, hlength]
      omega
    show (if (bigEndian n 8 ++ rest).length < 8 then none
      else some (ofBigEndian ((bigEndian n 8 ++ rest).take 8), (bigEndian n 8 ++ rest).drop 8)) = _
    rw [if_neg hlong, List.take_left' hlength, List.drop_left' hlength, hvalue]

def sampleMessage : UDPMessage := ⟨7, 3, 0, 1, [97], [1, 2, 3, 4, 5]⟩

end Dae.Hysteria2
