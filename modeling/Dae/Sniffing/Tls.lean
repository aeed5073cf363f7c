import Dae.Lib.Incremental
import Dae.Sniffing.Varint

/-!
# The server name of a TLS stream

`component/sniffing/tls.go`.  Reads and TLS records may both split a ClientHello.  The records that
are complete are joined until the ClientHello is.
-/

namespace Dae

inductive SniffError where
  | notApplicable
  | needMore
  | notFound
  deriving DecidableEq, Repr

def SniffError.text : SniffError → String
  | .notApplicable => "sniffing error: not applicable"
  | .needMore => "sniffing error: need more"
  | .notFound => "sniffing error: not found"

abbrev Sniffed := Except SniffError (List UInt8)

instance : DecidableEq Sniffed
  | .ok d, .ok d' => if h : d = d' then isTrue (h ▸ rfl) else isFalse (by simp [h])
  | .error e, .error e' => if h : e = e' then isTrue (h ▸ rfl) else isFalse (by simp [h])
  | .ok _, .error _ => isFalse (by simp)
  | .error _, .ok _ => isFalse (by simp)

def streamSniffingMaxBytes : Nat := 64 * 1024

/-! ### Reading with `cryptobyte` -/

/-- `ReadBytes`, and `Skip` if the bytes are not used. -/
def readBytes (n : Nat) (input : List UInt8) : Option (List UInt8 × List UInt8) :=
  if n ≤ input.length then some (input.take n, input.drop n) else none

/-- `ReadUint8`, `ReadUint16` and `ReadUint24`. -/
def readUint (n : Nat) (input : List UInt8) : Option (Nat × List UInt8) :=
  (readBytes n input).map fun (bytes, rest) => (bigEndian 0 bytes, rest)

/-- `ReadUint8LengthPrefixed`, `ReadUint16LengthPrefixed` and `ReadUint24LengthPrefixed`. -/
def readLengthPrefixed (n : Nat) (input : List UInt8) : Option (List UInt8 × List UInt8) := do
  let (length, rest) ← readUint n input
  readBytes length rest

variable {n : Nat} {input rest : List UInt8}

theorem readBytes_length {bytes : List UInt8}
    (h : readBytes n input = some (bytes, rest)) : rest.length + n = input.length := by
  unfold readBytes at h
  split at h
  next hn =>
    cases h
    simp [hn]
  next => cases h

theorem readUint_length {value : Nat}
    (h : readUint n input = some (value, rest)) : rest.length + n = input.length := by
  obtain ⟨⟨bytes, rest'⟩, hread, heq⟩ := Option.map_eq_some_iff.mp h
  cases heq
  exact readBytes_length hread

theorem readLengthPrefixed_length {bytes : List UInt8}
    (h : readLengthPrefixed n input = some (bytes, rest)) : rest.length + n ≤ input.length := by
  obtain ⟨⟨length, rest'⟩, hlength, hbytes⟩ := Option.bind_eq_some_iff.mp h
  have hfirst := readUint_length hlength
  have hsecond := readBytes_length hbytes
  omega

/-! ### The ClientHello -/

def handShakeTypeHello : Nat := 1

/-- `clientHelloExtensions` of one complete ClientHello; no result is `ErrNotApplicable`. -/
def clientHelloExtensions (hello : List UInt8) : Option (List UInt8) := do
  let (kind, input) ← readUint 1 hello
  guard (kind = handShakeTypeHello)
  let (body, input) ← readLengthPrefixed 3 input
  guard (input = [])
  let (version, body) ← readUint 2 body
  guard (version = 0x0303)
  let (_, body) ← readBytes 32 body
  -- the session id, the cipher suites and the compression methods
  let (_, body) ← readLengthPrefixed 1 body
  let (_, body) ← readLengthPrefixed 2 body
  let (_, body) ← readLengthPrefixed 1 body
  let (extensions, body) ← readLengthPrefixed 2 body
  guard (body = [])
  pure extensions

def findTLSExtension (want : Nat) (input : List UInt8) : Sniffed :=
  if input = [] then
    .error .notFound
  else
    match hkind : readUint 2 input with
    | none => .error .notApplicable
    | some (kind, rest) =>
      match hdata : readLengthPrefixed 2 rest with
      | none => .error .notApplicable
      | some (data, rest') =>
        if kind = want then .ok data else findTLSExtension want rest'
  termination_by input.length
  decreasing_by
    have hfirst := readUint_length hkind
    have hsecond := readLengthPrefixed_length hdata
    omega

/-- `strings.TrimSuffix(name, ".")`. -/
def trimSuffixDot (name : List UInt8) : List UInt8 :=
  if name.getLast? = some '.'.toUInt8 then name.dropLast else name

/-- The loop over the names of a server name extension. -/
def findHostName (names : List UInt8) : Sniffed :=
  if names = [] then
    .error .notFound
  else
    match hkind : readUint 1 names with
    | none => .error .notApplicable
    | some (kind, rest) =>
      match hname : readLengthPrefixed 2 rest with
      | none => .error .notApplicable
      | some (name, rest') =>
        if name = [] then
          .error .notApplicable
        else if kind = 0 then
          .ok (trimSuffixDot name)
        else
          findHostName rest'
  termination_by names.length
  decreasing_by
    have hfirst := readUint_length hkind
    have hsecond := readLengthPrefixed_length hname
    omega

def findSniExtension (extensions : List UInt8) : Sniffed :=
  match findTLSExtension 0 extensions with
  | .error e => .error e
  | .ok data =>
    match readLengthPrefixed 2 data with
    | some (name :: names, []) => findHostName (name :: names)
    | _ => .error .notApplicable

/-! ### The records -/

/-- The bytes there are of a header cannot be those of a handshake record. -/
def recordRefused (records : List UInt8) : Bool :=
  records[0]?.any (· != 22) || records[1]?.any (· != 3) ||
    records[2]?.any fun minor => minor < 1 || minor > 3

/-- The payload of the first record and the bytes after it. -/
def readRecord (records : List UInt8) : Except SniffError (List UInt8 × List UInt8) :=
  if recordRefused records then
    .error .notApplicable
  else if records.length < 5 then
    .error .needMore
  else
    let length := bigEndian 0 ((records.drop 3).take 2)
    if records.length < 5 + length then
      .error .needMore
    else
      .ok ((records.drop 5).take length, records.drop (5 + length))

variable {records payload : List UInt8}

theorem readRecord_ok (h : readRecord records = .ok (payload, rest)) :
    recordRefused records = false ∧
      ∃ length, length = bigEndian 0 ((records.drop 3).take 2) ∧ 5 + length ≤ records.length ∧
        payload = (records.drop 5).take length ∧ rest = records.drop (5 + length) := by
  unfold readRecord at h
  split at h
  next => cases h
  next hrefused =>
    split at h
    next => cases h
    next =>
      dsimp only at h
      split at h
      next => cases h
      next hlength =>
        cases h
        exact ⟨by simpa using hrefused, _, rfl, by omega, rfl, rfl⟩

theorem readRecord_length
    (h : readRecord records = .ok (payload, rest)) : rest.length < records.length := by
  obtain ⟨-, length, -, hlength, -, rfl⟩ := readRecord_ok h
  rw [List.length_drop]
  omega

/-- What the bytes of the handshake so far give: the result and what is assigned to `tcpTLS`, if
anything.  There is no result before the ClientHello is complete. -/
def sniffHello (hello : List UInt8) : Option (Sniffed × Option Bool) :=
  if hello.length < 4 then
    none
  else
    let size := 4 + bigEndian 0 ((hello.drop 1).take 3)
    if bigEndian 0 (hello.take 1) ≠ handShakeTypeHello ∨ streamSniffingMaxBytes < size then
      some (.error .notApplicable, none)
    else if size ≤ hello.length then
      match clientHelloExtensions (hello.take size) with
      | none => some (.error .notApplicable, none)
      | some extensions =>
        match findSniExtension extensions with
        | .ok d => some (.ok d, some true)
        | .error e => some (.error e, some (e = .notFound))
    else
      none

/-- `sniffTlsLocked` at the records that are left, with the payloads of the others joined. -/
def sniffTlsFrom (hello records : List UInt8) : Sniffed × Option Bool :=
  match hread : readRecord records with
  | .error e => (.error e, none)
  | .ok (payload, rest) =>
    match sniffHello (hello ++ payload) with
    | some result => result
    | none => sniffTlsFrom (hello ++ payload) rest
  termination_by records.length
  decreasing_by exact readRecord_length hread

def sniffTls (buf : List UInt8) : Sniffed × Option Bool :=
  sniffTlsFrom [] buf

theorem sniffTlsFrom_error {hello : List UInt8} {e : SniffError}
    (h : readRecord records = .error e) : sniffTlsFrom hello records = (.error e, none) := by
  unfold sniffTlsFrom
  split
  next e' h' =>
    cases h.symm.trans h'
    rfl
  next h' => cases h.symm.trans h'

theorem sniffTlsFrom_ok {hello : List UInt8} (h : readRecord records = .ok (payload, rest)) :
    sniffTlsFrom hello records =
      (sniffHello (hello ++ payload)).getD (sniffTlsFrom (hello ++ payload) rest) := by
  rw [sniffTlsFrom]
  split
  next h' => cases h.symm.trans h'
  next h' =>
    cases h.symm.trans h'
    cases sniffHello (hello ++ payload) <;> rfl

theorem getElem?_any_append {i : Nat} {refuses : UInt8 → Bool}
    (later : List UInt8) (h : records[i]?.any refuses = true) :
    (records ++ later)[i]?.any refuses = true := by
  obtain ⟨b, hb, hrefuses⟩ := (Option.any_eq_true _ _).mp h
  rw [List.getElem?_append_left (List.getElem?_eq_some_iff.mp hb).1, hb]
  exact hrefuses

theorem recordRefused_append (later : List UInt8)
    (h : recordRefused records = true) : recordRefused (records ++ later) = true := by
  simp only [recordRefused, Bool.or_eq_true] at h ⊢
  rcases h with (h | h) | h
  · exact .inl (.inl (getElem?_any_append later h))
  · exact .inl (.inr (getElem?_any_append later h))
  · exact .inr (getElem?_any_append later h)

theorem recordRefused_append_of_length (later : List UInt8)
    (h : 5 ≤ records.length) : recordRefused (records ++ later) = recordRefused records := by
  unfold recordRefused
  rw [List.getElem?_append_left (by omega), List.getElem?_append_left (by omega),
    List.getElem?_append_left (by omega)]

theorem readRecord_refused (later : List UInt8)
    (h : readRecord records = .error .notApplicable) :
    readRecord (records ++ later) = .error .notApplicable := by
  unfold readRecord at h
  split at h
  next hrefused =>
    rw [readRecord, if_pos (recordRefused_append later hrefused)]
  next =>
    dsimp only at h
    split_ifs at h <;> cases h

theorem readRecord_append (later : List UInt8)
    (h : readRecord records = .ok (payload, rest)) :
    readRecord (records ++ later) = .ok (payload, rest ++ later) := by
  obtain ⟨hrefused, length, hlength, hle, rfl, rfl⟩ := readRecord_ok h
  have hheader : ((records ++ later).drop 3).take 2 = (records.drop 3).take 2 := by
    rw [List.drop_append_of_le_length (by omega), List.take_append_of_le_length (by simp; omega)]
  have hrefused' : recordRefused (records ++ later) = false := by
    rw [recordRefused_append_of_length later (by omega)]
    exact hrefused
  unfold readRecord
  rw [hrefused', if_neg (by simp), if_neg (by simp; omega), hheader, ← hlength,
    if_neg (by simp; omega)]
  rw [List.drop_append_of_le_length (by omega), List.drop_append_of_le_length (by omega),
    List.take_append_of_le_length (by simp; omega)]

theorem readRecord_error {e : SniffError}
    (h : readRecord records = .error e) : e = .notApplicable ∨ e = .needMore := by
  unfold readRecord at h
  dsimp only at h
  split_ifs at h <;> cases h <;> simp

/-- The induction is on the records of the start: each of them is read the same way with the rest
of the stream behind it. -/
theorem sniffTlsFrom_append (hello records later : List UInt8)
    (h : (sniffTlsFrom hello records).1 ≠ .error .needMore) :
    sniffTlsFrom hello (records ++ later) = sniffTlsFrom hello records := by
  induction hello, records using sniffTlsFrom.induct with
  | case1 hello records e hread =>
    rw [sniffTlsFrom_error hread] at h ⊢
    rcases readRecord_error hread with rfl | rfl
    · exact sniffTlsFrom_error (readRecord_refused later hread)
    · exact absurd rfl h
  | case2 hello records payload rest hread result hresult =>
    rw [sniffTlsFrom_ok hread, sniffTlsFrom_ok (readRecord_append later hread), hresult]
    rfl
  | case3 hello records payload rest hread hresult ih =>
    rw [sniffTlsFrom_ok hread, hresult] at h
    rw [sniffTlsFrom_ok hread, sniffTlsFrom_ok (readRecord_append later hread), hresult]
    exact ih h

theorem sniffTls_stable :
    Incremental.Stable sniffTls (fun result => result.1 = .error .needMore) :=
  fun read later h => sniffTlsFrom_append [] read later h

theorem sniffTls_nil : sniffTls [] = (.error .needMore, none) :=
  sniffTlsFrom_error (by decide)

end Dae
