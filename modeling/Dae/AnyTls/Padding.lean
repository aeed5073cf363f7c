import Dae.Lib.Bytes
import Dae.Lib.Text

/-!
# Padding of AnyTLS sessions

`protocol/anytls`: the padding schemes of `padding.go`, the frames of `anytls.go` and the writes of
`session.go`.  The first writes of a session are cut into records whose sizes follow a scheme that
the server may replace; a record with room left is filled up with a Waste frame.
-/

namespace Dae.AnyTls

open Bytes Text

/-! ### Padding schemes -/

def checkMark : Int := -1

/-- `stringMapFromBytes`, as the assignments to the map in their order.  A text is a list of
characters, one for each byte. -/
def stringMapFromBytes (b : List Char) : List (List Char × List Char) :=
  (split '\n' b).filterMap fun line =>
    match line.span (· ≠ '=') with
    | (key, _ :: value) => some (key, value)
    | _ => none

/-- An element of the map: the last assignment to the key. -/
def lookup (scheme : List (List Char × List Char)) (key : List Char) : Option (List Char) :=
  scheme.reverse.lookup key

structure PaddingFactory where
  scheme : List (List Char × List Char)
  stop : UInt32
  md5 : Vector UInt8 32

/-- `NewPaddingFactory`; `md5` is the checksum of a text in hexadecimal digits. -/
def newPaddingFactory (md5 : List Char → Vector UInt8 32) (rawScheme : List Char) :
    Option PaddingFactory :=
  let scheme := stringMapFromBytes rawScheme
  if scheme = [] then
    none
  else
    match parseUint 32 ((lookup scheme "stop".toList).getD []) with
    | some stop => some ⟨scheme, .ofNat stop, md5 rawScheme⟩
    | none => none

/-- One element of a list of sizes; `draw` is the number that the random source gives. -/
def rangeSize (draw : Nat) (sRange : List Char) : Option Int :=
  match split '-' sRange with
  | [first, second] => do
    let first ← parseInt first
    let second ← parseInt second
    let low := min first second
    let high := max first second
    if low ≤ 0 ∨ 65535 < high then none
    else if low = high then some low
    else some (draw % (high - low) + low)
  | _ => if sRange = ['c'] then some checkMark else none

def PaddingFactory.generateRecordPayloadSizes (p : PaddingFactory) (draws : Nat → Nat)
    (pkt : UInt32) : List Int :=
  match lookup p.scheme (Nat.toDigits 10 pkt.toNat) with
  | some s => (split ',' s).zipIdx.filterMap fun (sRange, i) => rangeSize (draws i) sRange
  | none => []

/-- The padding of the first message in `createSession`. -/
def handshakePadding (sizes : List Int) : Int := max 0 (sizes.headD 0)

theorem rangeSize_bounds {draw : Nat} {sRange : List Char} {size : Int}
    (h : rangeSize draw sRange = some size) : size = checkMark ∨ 0 < size ∧ size < 65536 := by
  rw [rangeSize] at h
  split at h
  · next first second _ =>
    right
    obtain ⟨a, -, h⟩ := Option.bind_eq_some_iff.mp h
    obtain ⟨b, -, h⟩ := Option.bind_eq_some_iff.mp h
    dsimp only at h
    split_ifs at h with hrange hsame
    · cases h
      omega
    · -- the random source gives less than the width of the range
      have hwidth : 0 < max a b - min a b := by omega
      have hlow := Int.emod_nonneg (draw : Int) hwidth.ne'
      have hhigh := Int.emod_lt_of_pos (draw : Int) hwidth
      cases h
      omega
  · split at h
    · cases h
      exact .inl rfl
    · cases h

theorem mem_generateRecordPayloadSizes {p : PaddingFactory} {draws : Nat → Nat} {pkt : UInt32}
    {size : Int} (h : size ∈ p.generateRecordPayloadSizes draws pkt) :
    size = checkMark ∨ 0 < size ∧ size < 65536 := by
  rw [PaddingFactory.generateRecordPayloadSizes] at h
  split at h
  · obtain ⟨_, -, hsize⟩ := List.mem_filterMap.mp h
    exact rangeSize_bounds hsize
  · cases h

theorem handshakePadding_bounds {sizes : List Int}
    (h : ∀ size ∈ sizes, size = checkMark ∨ 0 < size ∧ size < 65536) :
    0 ≤ handshakePadding sizes ∧ handshakePadding sizes < 65536 := by
  cases sizes with
  | nil => decide
  | cons size sizes =>
    have hsize := h size (List.mem_cons_self ..)
    simp only [handshakePadding, List.headD_cons, checkMark] at hsize ⊢
    omega

/-! ### Frames -/

def cmdWaste : UInt8 := 0
def cmdSYN : UInt8 := 1
def cmdPSH : UInt8 := 2
def cmdFIN : UInt8 := 3
def cmdSettings : UInt8 := 4
def cmdHeartResponse : UInt8 := 9

structure Frame where
  command : UInt8
  id : UInt32
  data : List UInt8
  deriving DecidableEq, Repr

/-- `appendFrame`: the length is converted to 16 bits. -/
def Frame.bytes (f : Frame) : List UInt8 :=
  f.command :: bigEndian f.id.toNat 4 ++ bigEndian (f.data.length % 2 ^ 16) 2 ++ f.data

def Frame.waste (size : Nat) : Frame := ⟨cmdWaste, 0, List.replicate size 0⟩

def headerOverHeadSize : Nat := 1 + 4 + 2

/-- The header and the body of one frame, as the loop of `run` reads them. -/
def readFrame (stream : List UInt8) : Option (Frame × List UInt8) :=
  if stream.length < headerOverHeadSize then
    none
  else
    let length := ofBigEndian ((stream.drop 5).take 2)
    let body := stream.drop headerOverHeadSize
    if body.length < length then
      none
    else
      some (⟨stream.headD 0, .ofNat (ofBigEndian ((stream.drop 1).take 4)), body.take length⟩,
        body.drop length)

theorem readFrame_shorter {stream rest : List UInt8} {f : Frame}
    (h : readFrame stream = some (f, rest)) : rest.length < stream.length := by
  rw [readFrame] at h
  split at h
  · cases h
  · next hlong =>
    dsimp only at h
    split at h
    · cases h
    · cases h
      rw [List.length_drop, List.length_drop]
      simp only [headerOverHeadSize] at hlong ⊢
      omega

/-- A stream that ends with a frame. -/
def readFrames (stream : List UInt8) : Option (List Frame) :=
  if stream = [] then
    some []
  else
    match _h : readFrame stream with
    | some (f, rest) => (readFrames rest).map (f :: ·)
    | none => none
termination_by stream.length
decreasing_by exact readFrame_shorter _h

theorem readFrame_bytes {f : Frame} (hf : f.data.length < 65536) (rest : List UInt8) :
    readFrame (f.bytes ++ rest) = some (f, rest) := by
  obtain ⟨command, id, data⟩ := f
  replace hf : data.length < 65536 := hf
  have hid : ofBigEndian (bigEndian id.toNat 4) = id.toNat := ofBigEndian_bigEndian id.toNat_lt
  have hlength : ofBigEndian (bigEndian (data.length % 2 ^ 16) 2) = data.length := by
    rw [Nat.mod_eq_of_lt (show data.length < 2 ^ 16 from hf)]
    exact ofBigEndian_bigEndian hf
  have hlong : ¬((Frame.mk command id data).bytes ++ rest).length < headerOverHeadSize := by
    simp only [Frame.bytes, headerOverHeadSize, List.length_append, List.length_cons,
      length_bigEndian]
    omega
  rw [readFrame, if_neg hlong]
  show (if (data ++ rest).length < ofBigEndian (bigEndian (data.length % 2 ^ 16) 2) then none
    else some ((⟨command, .ofNat (ofBigEndian (bigEndian id.toNat 4)),
      (data ++ rest).take (ofBigEndian (bigEndian (data.length % 2 ^ 16) 2))⟩ : Frame),
      (data ++ rest).drop (ofBigEndian (bigEndian (data.length % 2 ^ 16) 2)))) = _
  rw [hid, hlength, List.take_left, List.drop_left, UInt32.ofNat_toNat, if_neg]
  rw [List.length_append]
  omega

/-- Frames that fit their length fields are read back from their bytes. -/
theorem readFrames_bytes {frames : List Frame} (h : ∀ f ∈ frames, f.data.length < 65536) :
    readFrames (frames.flatMap Frame.bytes) = some frames := by
  induction frames with
  | nil => rw [List.flatMap_nil, readFrames, if_pos rfl]
  | cons f frames ih =>
    have hread := readFrame_bytes (h f (List.mem_cons_self ..)) (frames.flatMap Frame.bytes)
    rw [List.flatMap_cons, readFrames, if_neg (by simp [Frame.bytes])]
    split
    · next f' rest hread' =>
      obtain ⟨rfl, rfl⟩ := Prod.mk.inj (Option.some.inj (hread.symm.trans hread'))
      rw [ih fun f hf => h f (List.mem_cons_of_mem _ hf), Option.map_some]
    · next hnone => exact absurd (hread.symm.trans hnone) (Option.some_ne_none _)

/-! ### Writing -/

/-- The loop of `writeLocked` over the sizes: what is written, and what is left of the buffer. -/
def padLoop : List Int → List UInt8 → List (List UInt8) × List UInt8
  | [], b => ([], b)
  | size :: sizes, b =>
    if size = checkMark then
      if b = [] then ([], b) else padLoop sizes b
    else
      let count := min size b.length
      let waste := size - count - headerOverHeadSize
      let record := b.take count.toNat ++
        if 0 ≤ waste then (Frame.waste waste.toNat).bytes else []
      let (writes, rest) := padLoop sizes (b.drop count.toNat)
      (record :: writes, rest)

structure Session where
  padding : PaddingFactory
  sendPadding : Bool
  pktCounter : UInt32
  settingsSent : Bool

/-- `newSession`; the padding is the one of the dialer. -/
def newSession (padding : PaddingFactory) : Session := ⟨padding, true, 0, false⟩

/-- A received `cmdUpdatePaddingScheme`. -/
def Session.update (md5 : List Char → Vector UInt8 32) (s : Session) (data : List Char) : Session :=
  match newPaddingFactory md5 data with
  | some padding => { s with padding }
  | none => s

/-- `writeLocked`, as the slices passed to the connection. -/
def Session.writeLocked (s : Session) (draws : Nat → Nat) (b : List UInt8) :
    List (List UInt8) × Session :=
  let last (b : List UInt8) := if b ≠ [] then [b] else []
  if s.sendPadding then
    let s := { s with pktCounter := s.pktCounter + 1 }
    if s.padding.stop ≤ s.pktCounter then
      (last b, { s with sendPadding := false })
    else
      let (writes, rest) := padLoop (s.padding.generateRecordPayloadSizes draws s.pktCounter) b
      (writes ++ last rest, s)
  else
    (last b, s)

def settingsBytes (padding : PaddingFactory) : List UInt8 :=
  "v=2\nclient=dae\npadding-md5=".toUTF8.data.toList ++ padding.md5.toList

/-- The frames of `cmdPSH`: application writes may exceed the 16 bits of a length. -/
def pushFrames (id : UInt32) (remaining : List UInt8) : List Frame :=
  if remaining = [] then
    []
  else
    let count := min remaining.length 65535
    ⟨cmdPSH, id, remaining.take count⟩ :: pushFrames id (remaining.drop count)
termination_by remaining.length
decreasing_by
  have := List.length_pos_of_ne_nil ‹_›
  rw [List.length_drop]
  omega

/-- The frames that `writeFrame` puts into its buffer. -/
def Session.frames (s : Session) (command : UInt8) (id : UInt32) (data : List UInt8) :
    List Frame :=
  if command = cmdSYN then
    (if s.settingsSent then [] else [⟨cmdSettings, 0, settingsBytes s.padding⟩]) ++
      [⟨cmdSYN, id, []⟩, ⟨cmdPSH, id, data⟩]
  else if command = cmdPSH then
    pushFrames id data
  else
    [⟨command, id, data⟩]

/-- What `socks.ParseAddr` returns: a type, at most 256 bytes of a host and a port. -/
abbrev SocksAddr := { addr : List UInt8 // addr.length ≤ 1 + 256 + 2 }

/-- The calls of `writeFrame`. -/
inductive Call where
  | newStream (sid : UInt32) (target : SocksAddr)
  | write (id : UInt32) (payload : List UInt8)
  | flushFIN (id : UInt32)
  | heartResponse (id : UInt32)

/-- The command, the stream and the data of a call. -/
def Call.args : Call → UInt8 × UInt32 × List UInt8
  | .newStream sid target => (cmdSYN, sid, target)
  | .write id payload => (cmdPSH, id, payload)
  | .flushFIN id => (cmdFIN, id, [])
  | .heartResponse id => (cmdHeartResponse, id, [])

inductive Event where
  | update (data : List Char)
  /-- The scheme is read for the settings and again for the padding, and may be updated in
  between. -/
  | call (c : Call) (updates : List (List Char)) (draws : Nat → Nat)

/-- One event: the session after it, the frames that are written and the bytes that are sent. -/
def Session.step (md5 : List Char → Vector UInt8 32) (s : Session) :
    Event → Session × List Frame × List UInt8
  | .update data => (s.update md5 data, [], [])
  | .call c updates draws =>
    let (command, id, data) := c.args
    let frames := s.frames command id data
    let (writes, s) :=
      (updates.foldl (Session.update md5) s).writeLocked draws (frames.flatMap Frame.bytes)
    ({ s with settingsSent := s.settingsSent || command == cmdSYN }, frames, writes.flatten)

/-- The frames written and the bytes sent along a run. -/
def Session.run (md5 : List Char → Vector UInt8 32) (s : Session) :
    List Event → List Frame × List UInt8
  | [] => ([], [])
  | e :: events =>
    let (s, frames, bytes) := s.step md5 e
    let (frames', bytes') := s.run md5 events
    (frames ++ frames', bytes ++ bytes')

/-! ### What is written -/

/-- The sent frames are the written ones, with Waste frames among them. -/
inductive Padded : (written sent : List Frame) → Prop where
  | nil : Padded [] []
  | frame {f : Frame} {written sent : List Frame} : Padded written sent →
      Padded (f :: written) (f :: sent)
  | waste {size : Nat} {written sent : List Frame} : Padded written sent →
      Padded written (Frame.waste size :: sent)

theorem Padded.append {written sent written' sent' : List Frame} (h : Padded written sent)
    (h' : Padded written' sent') : Padded (written ++ written') (sent ++ sent') := by
  induction h with
  | nil => exact h'
  | frame _ ih => exact .frame ih
  | waste _ ih => exact .waste ih

theorem Padded.followed (frames : List Frame) (wastes : List Nat) :
    Padded frames (frames ++ wastes.map Frame.waste) := by
  induction frames with
  | cons f frames ih => exact .frame ih
  | nil =>
    induction wastes with
    | nil => exact .nil
    | cons size wastes ih => exact .waste ih

/-- The loop keeps the buffer: a record is filled up only once the buffer is empty. -/
theorem padLoop_spec {sizes : List Int}
    (hsizes : ∀ size ∈ sizes, size = checkMark ∨ 0 < size ∧ size < 65536) (b : List UInt8) :
    ∃ wastes : List Nat, (∀ size ∈ wastes, size < 65536) ∧
      (padLoop sizes b).1.flatten ++ (padLoop sizes b).2 =
        b ++ (wastes.map Frame.waste).flatMap Frame.bytes := by
  induction sizes generalizing b with
  | nil => exact ⟨[], nofun, by simp [padLoop]⟩
  | cons size sizes ih =>
    replace ih := ih fun size hsize => hsizes size (List.mem_cons_of_mem _ hsize)
    rw [padLoop]
    split
    · split
      · exact ⟨[], nofun, by simp⟩
      · exact ih b
    · next hmark =>
      have hsize := (hsizes size (List.mem_cons_self ..)).resolve_left hmark
      dsimp only
      split
      · next hwaste =>
        -- the size exceeds the buffer, which is taken as a whole
        have hcount : (min size b.length).toNat = b.length := by
          simp only [headerOverHeadSize] at hwaste
          omega
        obtain ⟨wastes, hfit, hsent⟩ := ih []
        refine ⟨(size - min size b.length - headerOverHeadSize).toNat :: wastes, ?_, ?_⟩
        · rintro waste (_ | ⟨_, hmem⟩)
          · simp only [headerOverHeadSize]
            omega
          · exact hfit waste hmem
        · rw [hcount, List.take_length, List.drop_length, List.flatten_cons, List.append_assoc,
            hsent, List.map_cons, List.flatMap_cons, List.nil_append, List.append_assoc]
      · obtain ⟨wastes, hfit, hsent⟩ := ih (b.drop (min size b.length).toNat)
        refine ⟨wastes, hfit, ?_⟩
        rw [List.flatten_cons, List.append_nil, List.append_assoc, hsent, ← List.append_assoc,
          List.take_append_drop]

theorem length_padLoop_le (sizes : List Int) (b : List UInt8) :
    (padLoop sizes b).1.length ≤ sizes.length := by
  induction sizes generalizing b with
  | nil => rfl
  | cons size sizes ih =>
    rw [padLoop]
    split
    · split
      · exact Nat.zero_le _
      · exact (ih b).trans (Nat.le_succ _)
    · exact Nat.succ_le_succ (ih _)

/-- A buffer is sent as it is, with Waste frames after it. -/
theorem Session.writeLocked_spec (s : Session) (draws : Nat → Nat) (b : List UInt8) :
    ∃ wastes : List Nat, (∀ size ∈ wastes, size < 65536) ∧
      (s.writeLocked draws b).1.flatten = b ++ (wastes.map Frame.waste).flatMap Frame.bytes := by
  have hlast : ∀ b : List UInt8, (if b ≠ [] then [b] else []).flatten = b := by
    intro b
    cases b <;> simp
  simp only [Session.writeLocked]
  split
  · split
    · exact ⟨[], nofun, by simpa using hlast b⟩
    · obtain ⟨wastes, hfit, hsent⟩ := padLoop_spec (fun _ h => mem_generateRecordPayloadSizes h) b
      exact ⟨wastes, hfit, by rw [List.flatten_append, hlast]; exact hsent⟩
  · exact ⟨[], nofun, by simpa using hlast b⟩

theorem pushFrames_spec (id : UInt32) (remaining : List UInt8) :
    (∀ f ∈ pushFrames id remaining, f.command = cmdPSH ∧ f.id = id ∧ f.data.length < 65536) ∧
      (pushFrames id remaining).flatMap Frame.data = remaining := by
  fun_induction pushFrames id remaining with
  | case1 => exact ⟨nofun, rfl⟩
  | case2 remaining hne count ih =>
    refine ⟨?_, by rw [List.flatMap_cons, ih.2, List.take_append_drop]⟩
    rintro f (_ | ⟨_, hf⟩)
    · refine ⟨rfl, rfl, ?_⟩
      rw [List.length_take]
      omega
    · exact ih.1 f hf

/-- Every frame of a call fits its length field. -/
theorem Session.frames_fit (s : Session) (c : Call) :
    ∀ f ∈ s.frames c.args.1 c.args.2.1 c.args.2.2, f.data.length < 65536 := by
  intro f hf
  cases c with
  | newStream sid target =>
    have htarget := target.2
    have hsettings : (settingsBytes s.padding).length < 65536 := by
      have htext : "v=2\nclient=dae\npadding-md5=".toUTF8.data.toList.length = 27 := by decide +kernel
      rw [settingsBytes, List.length_append, htext, Vector.length_toList]
      omega
    simp only [Call.args, Session.frames, if_true] at hf
    split at hf <;> grind
  | write id payload => exact ((pushFrames_spec id payload).1 f hf).2.2
  | flushFIN id | heartResponse id =>
    cases List.mem_singleton.mp hf
    exact Nat.zero_lt_succ _

/-- One event sends the frames it writes, whole and in order, and Waste frames after them. -/
theorem Session.step_spec (md5 : List Char → Vector UInt8 32) (s : Session) (e : Event) :
    ∃ sent : List Frame, (s.step md5 e).2.2 = sent.flatMap Frame.bytes ∧
      Padded (s.step md5 e).2.1 sent ∧ ∀ f ∈ sent, f.data.length < 65536 := by
  cases e with
  | update data => exact ⟨[], rfl, .nil, nofun⟩
  | call c updates draws =>
    have hframes := s.frames_fit c
    generalize hwritten : s.frames c.args.1 c.args.2.1 c.args.2.2 = frames at hframes
    obtain ⟨wastes, hfit, hsent⟩ := (updates.foldl (Session.update md5) s).writeLocked_spec draws
      (frames.flatMap Frame.bytes)
    refine ⟨frames ++ wastes.map Frame.waste, ?_, ?_, ?_⟩
    · rw [List.flatMap_append, ← hsent, ← hwritten]
      rfl
    · rw [← hwritten]
      exact .followed _ wastes
    · intro f hf
      rcases List.mem_append.mp hf with hf | hf
      · exact hframes f hf
      · obtain ⟨size, hsize, rfl⟩ := List.mem_map.mp hf
        simpa [Frame.waste] using hfit size hsize

theorem Session.run_spec (md5 : List Char → Vector UInt8 32) (s : Session) (events : List Event) :
    ∃ sent : List Frame, (s.run md5 events).2 = sent.flatMap Frame.bytes ∧
      Padded (s.run md5 events).1 sent ∧ ∀ f ∈ sent, f.data.length < 65536 := by
  induction events generalizing s with
  | nil => exact ⟨[], rfl, .nil, nofun⟩
  | cons e events ih =>
    obtain ⟨first, hfirst, hpadded, hfit⟩ := s.step_spec md5 e
    obtain ⟨sent, hsent, hpadded', hfit'⟩ := ih (s.step md5 e).1
    refine ⟨first ++ sent, ?_, hpadded.append hpadded', ?_⟩
    · rw [List.flatMap_append, ← hfirst, ← hsent]
      rfl
    · intro f hf
      exact (List.mem_append.mp hf).elim (hfit f) (hfit' f)

/-- Padding is transparent: in every run of a session, with whatever schemes it starts and the
server sends, the bytes are read as the written frames and Waste frames among them. -/
theorem padding_transparent (md5 : List Char → Vector UInt8 32) (padding : PaddingFactory) :
    (∀ events : List Event, ∃ sent : List Frame,
      readFrames ((newSession padding).run md5 events).2 = some sent ∧
      Padded ((newSession padding).run md5 events).1 sent ∧
      ∀ f ∈ sent, f.data.length < 65536) ∧
    (∀ id payload, (pushFrames id payload).flatMap Frame.data = payload) ∧
    (∀ draws pkt,
      (∀ size ∈ padding.generateRecordPayloadSizes draws pkt,
        size = checkMark ∨ 0 < size ∧ size < 65536) ∧
      0 ≤ handshakePadding (padding.generateRecordPayloadSizes draws pkt) ∧
      handshakePadding (padding.generateRecordPayloadSizes draws pkt) < 65536 ∧
      ∀ b, (padLoop (padding.generateRecordPayloadSizes draws pkt) b).1.length ≤
        (padding.generateRecordPayloadSizes draws pkt).length) := by
  refine ⟨fun events => ?_, fun id payload => (pushFrames_spec id payload).2, fun draws pkt => ?_⟩
  · obtain ⟨sent, hbytes, hpadded, hfit⟩ := (newSession padding).run_spec md5 events
    exact ⟨sent, by rw [hbytes, readFrames_bytes hfit], hpadded, hfit⟩
  · have hsizes : ∀ size ∈ padding.generateRecordPayloadSizes draws pkt,
        size = checkMark ∨ 0 < size ∧ size < 65536 := fun _ => mem_generateRecordPayloadSizes
    have hpadding := handshakePadding_bounds hsizes
    exact ⟨hsizes, hpadding.1, hpadding.2, length_padLoop_le _⟩

end Dae.AnyTls
