import Dae.Lib.Signed
import Dae.Lib.Text

/-!
# Fragmented TLS records

`transport/tls/fragment.go`.  The first record of a handshake is cut into records of random
lengths, each built in a scratch buffer of 1024 bytes.  The range of the lengths is configured as
text, and not every range that is accepted is safe.
-/

namespace Dae.TlsFragment

open Signed (wrap64 wrap64_eq)
open Text (split parseInt not_mem_split parseInt_nonneg)

/-! ### The configuration -/

/-- `parseRange` -/
def parseRange (str : String) : Option (Int × Int) :=
  match split '-' str.toList with
  | [low, high] => do
    let min ← parseInt low
    let max ← parseInt high
    pure (min, max)
  | _ => none

structure FragmentConn where
  minLength : Int
  maxLength : Int
  minInterval : Int
  maxInterval : Int
  deriving DecidableEq, Repr

/-- What `randBetween` may return: a failing random source gives `left`. -/
def Sampled (left right value : Int) : Prop :=
  if right ≤ left then value = left else left ≤ value ∧ value < right

/-- The largest length that may be drawn. -/
def FragmentConn.longest (f : FragmentConn) : Int :=
  if f.maxLength ≤ f.minLength then f.minLength else f.maxLength - 1

theorem sampled_iff {f : FragmentConn} {value : Int} :
    Sampled f.minLength f.maxLength value ↔ f.minLength ≤ value ∧ value ≤ f.longest := by
  unfold Sampled FragmentConn.longest
  split <;> omega

/-! ### `Write` -/

/-- How the loop ends: not within the rounds that are counted, with an access out of range, or
with the byte slices that are written. -/
inductive Outcome where
  | running
  | panic
  | done (writes : List (List UInt8))
  deriving DecidableEq, Repr

/-- A record with the type and version of `b`. -/
def record (b chunk : List UInt8) : List UInt8 :=
  b.take 3 ++ [.ofNat (chunk.length / 256), .ofNat chunk.length] ++ chunk

def Outcome.cons (write : List UInt8) : Outcome → Outcome
  | .done writes => .done (write :: writes)
  | o => o

/-- The loop from round `k` on, where `data[from:]` is left; `lengths k` is the length drawn in
that round.  `buf[:5+l]` exceeds the scratch buffer if `5 + l` exceeds 1024. -/
def writeLoop (b data : List UInt8) (lengths : Nat → Int) : Nat → (k start : Nat) → Outcome
  | 0, _, _ => .running
  | rounds + 1, k, start =>
    let stop := min (data.length : Int) (wrap64 (start + lengths k))
    if stop < start then
      .panic
    else
      let chunk := (data.take stop.toNat).drop start
      if 1024 < 5 + chunk.length then
        .panic
      else if stop.toNat = data.length then
        .done [record b chunk]
      else
        (writeLoop b data lengths rounds (k + 1) stop.toNat).cons (record b chunk)

/-- The length of the first record with its header. -/
def recordLen (b : List UInt8) : Nat := 5 + ((b.getD 3 0).toNat * 256 + (b.getD 4 0).toNat)

/-- The buffer starts with a whole handshake record. -/
def Cuts (b : List UInt8) : Prop := ¬(b.length ≤ 5 ∨ b.getD 0 0 ≠ 22) ∧ ¬b.length < recordLen b

instance (b : List UInt8) : Decidable (Cuts b) := inferInstanceAs (Decidable (_ ∧ _))

/-- The payload of the first record. -/
def payload (b : List UInt8) : List UInt8 := (b.take (recordLen b)).drop 5

/-- `Write`, as the slices passed to the connection below. -/
def FragmentConn.write (f : FragmentConn) (lengths : Nat → Int) (rounds : Nat) (b : List UInt8) :
    Outcome :=
  if Cuts b then
    match writeLoop b (payload b) lengths rounds 0 0 with
    | .done records =>
      let hello := if f.maxInterval = 0 then [records.flatten].filter (· ≠ []) else records
      .done (hello ++ if recordLen b < b.length then [b.drop (recordLen b)] else [])
    | o => o
  else
    .done [b]

/-- The bytes sent are the buffer, or its first record in pieces and the rest. -/
def Transparent (b sent : List UInt8) : Prop :=
  sent = b ∨ ∃ pieces : List (List UInt8), pieces.flatten = payload b ∧
    (∀ piece ∈ pieces, piece.length < 65536) ∧ sent = pieces.flatMap (record b) ++ b.drop (recordLen b)

/-- Whatever lengths are drawn, `Write` ends and sends the right bytes. -/
def FragmentConn.Safe (f : FragmentConn) (b : List UInt8) : Prop :=
  ∀ lengths : Nat → Int, (∀ k, Sampled f.minLength f.maxLength (lengths k)) →
    ∃ rounds writes, f.write lengths rounds b = .done writes ∧ Transparent b writes.flatten

/-- When a payload of `size` bytes can be cut. -/
def FragmentConn.Fits (f : FragmentConn) (size : Nat) : Prop :=
  0 < f.minLength ∧ min (size : Int) f.longest ≤ 1019 ∧
    (f.minLength < size → size - 1 + f.longest < 2 ^ 63)

/-! ### What is accepted -/

theorem parseRange_nonneg {str : String} {low high : Int} (h : parseRange str = some (low, high)) :
    (0 ≤ low ∧ low < 2 ^ 63) ∧ 0 ≤ high ∧ high < 2 ^ 63 := by
  unfold parseRange at h
  split at h
  · next a b hsplit =>
    have ha : '-' ∉ a := not_mem_split (show a ∈ split '-' str.toList by simp [hsplit])
    have hb : '-' ∉ b := not_mem_split (show b ∈ split '-' str.toList by simp [hsplit])
    simp only [Option.bind_eq_bind, Option.bind_eq_some_iff] at h
    obtain ⟨low', hlow, high', hhigh, heq⟩ := h
    cases heq
    exact ⟨parseInt_nonneg ha hlow, parseInt_nonneg hb hhigh⟩
  · cases h

/-! ### Lengths that are safe -/

section Loop

variable {b data : List UInt8} {lengths : Nat → Int}

/-- The loop ends with the rest of the payload in pieces.  After the first round `start` is at
least one of the lengths. -/
theorem writeLoop_done (hpos : ∀ k, 1 ≤ lengths k)
    (hshort : ∀ k, min (data.length : Int) (lengths k) ≤ 1019)
    (hsum : ∀ k start : Nat, start < data.length → (start = 0 ∨ ∃ j, lengths j ≤ start) →
      start + lengths k < 2 ^ 63) (k start : Nat) (hstart : start < data.length)
    (hreached : start = 0 ∨ ∃ j, lengths j ≤ start) :
    ∃ (rounds : Nat) (pieces : List (List UInt8)),
      writeLoop b data lengths rounds k start = .done (pieces.map (record b)) ∧
      pieces.flatten = data.drop start ∧ ∀ piece ∈ pieces, piece.length ≤ 1019 := by
  induction hn : data.length - start using Nat.strong_induction_on generalizing k start with
  | _ n ih =>
    have hlen := hpos k
    have hwrap : wrap64 (start + lengths k) = start + lengths k :=
      wrap64_eq (by omega) (hsum k start hstart hreached)
    obtain ⟨stop, hstop⟩ : ∃ stop : Nat, min (data.length : Int) (start + lengths k) = stop :=
      ⟨_, (Int.toNat_of_nonneg (by omega)).symm⟩
    have hchunk : ((data.take stop).drop start).length = stop - start := by
      rw [List.length_drop, List.length_take]
      omega
    have hfits : ((data.take stop).drop start).length ≤ 1019 := by
      have := hshort k
      omega
    have hstep : ∀ rounds, writeLoop b data lengths (rounds + 1) k start =
        if stop = data.length then .done [record b ((data.take stop).drop start)]
        else (writeLoop b data lengths rounds (k + 1) stop).cons
          (record b ((data.take stop).drop start)) := by
      intro rounds
      simp only [writeLoop, hwrap, hstop, Int.toNat_natCast]
      rw [if_neg (by omega), if_neg (by omega)]
    by_cases hend : stop = data.length
    · refine ⟨1, [data.drop start], ?_, by simp, ?_⟩
      · rw [hstep, if_pos hend, hend, List.take_length]
        rfl
      · rw [hend, List.take_length] at hfits
        simpa using hfits
    · obtain ⟨rounds, pieces, hrun, hflat, hle⟩ :=
        ih (data.length - stop) (by omega) (k + 1) stop (by omega) (.inr ⟨k, by omega⟩) rfl
      refine ⟨rounds + 1, (data.take stop).drop start :: pieces, ?_, ?_, ?_⟩
      · rw [hstep, if_neg hend, hrun]
        rfl
      · rw [List.flatten_cons, hflat, List.drop_take,
          ← Nat.add_sub_cancel' (show start ≤ stop by omega), ← List.drop_drop,
          Nat.add_sub_cancel_left, List.take_append_drop]
      · rintro piece (_ | ⟨_, hpiece⟩)
        · exact hfits
        · exact hle piece hpiece

/-- A length of zero makes no progress. -/
theorem writeLoop_zero (hdata : data ≠ []) (rounds k : Nat) :
    writeLoop b data (fun _ => 0) rounds k 0 = .running := by
  induction rounds generalizing k with
  | zero => rfl
  | succ rounds ih =>
    have hlength := List.length_pos_iff.mpr hdata
    simp [writeLoop, wrap64_eq, ih, Outcome.cons, hlength.ne]

/-- A length that exceeds the scratch buffer. -/
theorem writeLoop_long {length : Int} (hlength : length < 2 ^ 63)
    (hlong : 1019 < min (data.length : Int) length) (rounds k : Nat) :
    writeLoop b data (fun _ => length) (rounds + 1) k 0 = .panic := by
  obtain ⟨stop, hstop⟩ : ∃ stop : Nat, min (data.length : Int) length = stop :=
    ⟨_, (Int.toNat_of_nonneg (by omega)).symm⟩
  have hchunk : (data.take stop).length = stop := by
    rw [List.length_take]
    omega
  simp only [writeLoop, Nat.cast_zero, zero_add, wrap64_eq (show -2 ^ 63 ≤ length by omega) hlength,
    hstop, Int.toNat_natCast, List.drop_zero, hchunk]
  rw [if_neg (by omega), if_pos (by omega)]

/-- Where the sum with the length overflows, the slice bounds are inverted. -/
theorem writeLoop_overflow {k start : Nat} (hlow : 2 ^ 63 ≤ start + lengths k)
    (hhigh : start + lengths k < 2 ^ 64) (rounds : Nat) :
    writeLoop b data lengths (rounds + 1) k start = .panic := by
  have hwrap : wrap64 (start + lengths k) < 0 := by
    rw [wrap64, Int.bmod_def]
    split <;> omega
  rw [writeLoop, if_pos (by omega)]

end Loop

theorem payload_length_lt (b : List UInt8) : (payload b).length < 65536 := by
  have h3 := (b.getD 3 0).toNat_lt
  have h4 := (b.getD 4 0).toNat_lt
  simp only [payload, recordLen, List.length_drop, List.length_take]
  omega

/-- What `Write` makes of the records of the loop. -/
theorem write_done (f : FragmentConn) {b : List UInt8} (hcuts : Cuts b) {lengths : Nat → Int}
    {rounds : Nat} {pieces : List (List UInt8)}
    (hloop : writeLoop b (payload b) lengths rounds 0 0 = .done (pieces.map (record b)))
    (hflat : pieces.flatten = payload b) (hshort : ∀ piece ∈ pieces, piece.length ≤ 1019) :
    ∃ rounds writes, f.write lengths rounds b = .done writes ∧ Transparent b writes.flatten := by
  refine ⟨rounds, _, by rw [FragmentConn.write, if_pos hcuts, hloop], .inr ⟨pieces, hflat, ?_, ?_⟩⟩
  · exact fun piece hpiece => by
      have := hshort piece hpiece
      omega
  · have hhello : (if f.maxInterval = 0 then [(pieces.map (record b)).flatten].filter (· ≠ [])
        else pieces.map (record b)).flatten = pieces.flatMap (record b) := by
      rw [List.flatMap_def]
      split
      · by_cases hnil : (pieces.map (record b)).flatten = [] <;> simp_all
      · rfl
    have hrest : (if recordLen b < b.length then [b.drop (recordLen b)] else []).flatten =
        b.drop (recordLen b) := by
      split
      · simp
      · rw [List.drop_of_length_le (by omega), List.flatten_nil]
    rw [List.flatten_append, hhello, hrest]

theorem FragmentConn.Fits.safe {f : FragmentConn} {b : List UInt8} (hlong : f.longest < 2 ^ 63)
    (h : f.Fits (payload b).length) (hcuts : Cuts b) (hdata : payload b ≠ []) : f.Safe b := by
  obtain ⟨hmin, hscratch, hsum⟩ := h
  intro lengths hlengths
  have hbounds := fun k => sampled_iff.mp (hlengths k)
  obtain ⟨rounds, pieces, hloop, hflat, hshort⟩ := @writeLoop_done b (payload b) lengths
    (fun k => by have := hbounds k; omega)
    (fun k => by have := hbounds k; omega)
    (fun k start hstart hreached => by
      have := hbounds k
      rcases hreached with rfl | ⟨j, hj⟩
      · omega
      · have := hbounds j
        have := hsum (by omega)
        omega)
    0 0 (List.length_pos_iff.mpr hdata) (.inl rfl)
  exact write_done f hcuts hloop hflat hshort

/-- Each part of the condition is needed. -/
theorem FragmentConn.Safe.fits {f : FragmentConn} {b : List UInt8} (hmin : 0 ≤ f.minLength)
    (hlong : f.longest < 2 ^ 63) (h : f.Safe b) (hcuts : Cuts b) (hdata : payload b ≠ []) :
    f.Fits (payload b).length := by
  have hle : f.minLength ≤ f.longest := by
    unfold FragmentConn.longest
    split <;> omega
  have hsize := payload_length_lt b
  -- a run of the loop that is safe is not stuck and does not panic
  have hrun : ∀ lengths : Nat → Int, (∀ k, f.minLength ≤ lengths k ∧ lengths k ≤ f.longest) →
      ∃ rounds records, writeLoop b (payload b) lengths rounds 0 0 = .done records := by
    intro lengths hbounds
    obtain ⟨rounds, writes, hwrite, -⟩ := h lengths fun k => sampled_iff.mpr (hbounds k)
    refine ⟨rounds, ?_⟩
    rw [FragmentConn.write, if_pos hcuts] at hwrite
    cases hloop : writeLoop b (payload b) lengths rounds 0 0 with
    | done records => exact ⟨records, rfl⟩
    | running => simp [hloop] at hwrite
    | panic => simp [hloop] at hwrite
  have hpos : 0 < f.minLength := by
    by_contra hzero
    obtain ⟨rounds, records, hdone⟩ := hrun (fun _ => 0) fun _ => by omega
    rw [writeLoop_zero hdata] at hdone
    cases hdone
  have hscratch : min ((payload b).length : Int) f.longest ≤ 1019 := by
    by_contra hlarge
    obtain ⟨_ | rounds, records, hdone⟩ := hrun (fun _ => f.longest) fun _ => ⟨hle, Int.le_refl _⟩
    · cases hdone
    · rw [writeLoop_long hlong (by omega)] at hdone
      cases hdone
  refine ⟨hpos, hscratch, fun hlt => ?_⟩
  by_contra hover
  -- all but the last byte first, then the longest length
  obtain ⟨rounds, records, hdone⟩ := hrun
    (fun k => if k = 0 then (payload b).length - 1 else f.longest) fun k => by split <;> omega
  obtain ⟨last, hlast⟩ : ∃ last : Nat, ((payload b).length : Int) - 1 = last :=
    ⟨_, (Int.toNat_of_nonneg (by omega)).symm⟩
  have hstop : min ((payload b).length : Int) (wrap64 last) = last := by
    rw [wrap64_eq (by omega) (by omega)]
    omega
  match rounds with
  | 0 => cases hdone
  | 1 =>
    simp [writeLoop, hlast, hstop, Outcome.cons] at hdone
    grind
  | rounds + 2 =>
    have hsecond := fun lengths => @writeLoop_overflow b (payload b) lengths 1 last
    rw [writeLoop] at hdone
    simp only [if_true, Nat.cast_zero, zero_add, hlast, hstop, Int.toNat_natCast] at hdone
    rw [hsecond _ (by simp; omega) (by simp; omega)] at hdone
    grind [Outcome.cons]

/-- **When fragmentation is safe.**  For ranges that `parseRange` accepts, `Write` ends without a
panic and sends the right bytes for all lengths that may be drawn if and only if the buffer is
passed on as it is, or the record is empty, or every length is positive, fits the scratch buffer
and cannot overflow. -/
theorem safe_iff (lengthRange intervalRange : String) (f : FragmentConn)
    (hlength : parseRange lengthRange = some (f.minLength, f.maxLength))
    (_hinterval : parseRange intervalRange = some (f.minInterval, f.maxInterval))
    (b : List UInt8) :
    f.Safe b ↔ ¬Cuts b ∨ payload b = [] ∨ f.Fits (payload b).length := by
  obtain ⟨⟨hmin, hmin'⟩, -, hmax⟩ := parseRange_nonneg hlength
  have hlong : f.longest < 2 ^ 63 := by
    unfold FragmentConn.longest
    split <;> omega
  constructor
  · intro h
    by_cases hcuts : Cuts b
    · by_cases hdata : payload b = []
      · exact .inr (.inl hdata)
      · exact .inr (.inr (h.fits hmin hlong hcuts hdata))
    · exact .inl hcuts
  · by_cases hcuts : Cuts b
    · intro h
      by_cases hdata : payload b = []
      · -- one record without payload
        intro lengths hlengths
        have hbounds := sampled_iff.mp (hlengths 0)
        have hwrap := wrap64_eq (n := lengths 0) (by omega) (by omega)
        refine @write_done f b hcuts lengths 1 [[]] ?_ hdata.symm (by simp)
        simp [writeLoop, hdata, hwrap]
        omega
      · exact ((h.resolve_left (not_not_intro hcuts)).resolve_left hdata).safe hlong hcuts hdata
    · intro _ lengths _
      exact ⟨0, [b], by rw [FragmentConn.write, if_neg hcuts], .inl (by simp)⟩

/-- A handshake record of six bytes and the start of another one. -/
def sampleHello : List UInt8 := [22, 3, 1, 0, 6, 1, 2, 3, 4, 5, 6, 22, 3]

theorem safe_iff_sample : (⟨4, 8, 0, 0⟩ : FragmentConn).Safe sampleHello :=
  (safe_iff "4-8" "0-0" ⟨4, 8, 0, 0⟩ (by decide +kernel) (by decide +kernel) sampleHello).mpr
    (.inr (.inr ⟨by decide, by decide, by decide⟩))

/-- With the range `0-0` the loop never ends, and with `2000-2000` a long record exceeds the
scratch buffer. -/
theorem accepted_not_safe :
    (parseRange "0-0" = some (0, 0) ∧
      ∀ rounds, (⟨0, 0, 0, 0⟩ : FragmentConn).write (fun _ => 0) rounds sampleHello = .running) ∧
    parseRange "2000-2000" = some (2000, 2000) ∧
      (⟨2000, 2000, 0, 0⟩ : FragmentConn).write (fun _ => 2000) 1
        ([22, 3, 1, 4, 0] ++ List.replicate 1024 0) = .panic := by
  refine ⟨⟨by decide +kernel, fun rounds => ?_⟩, by decide +kernel, by decide +kernel⟩
  have hcuts : Cuts sampleHello := by decide
  rw [FragmentConn.write, if_pos hcuts, writeLoop_zero (by decide)]

end Dae.TlsFragment
