import Dae.Sniffing.Http

/-!
# Sniffing a stream

`component/sniffing/sniffer.go`.  `SniffTcp` reads until the parsers settle, and `Read` gives back
what was read before it goes on with the stream.

The stream is a list of bytes and the error after it.  How many bytes a read of it returns, and
whether the error comes with the last of them or after them, is chosen for each read; no read times
out.  `NormalizeDomain` is any function.
-/

namespace Dae

def sniffGroup (normalizeDomain : List UInt8 → List UInt8) : List Sniffed → Sniffed
  | [] => .error .notApplicable
  | .ok d :: _ => .ok (normalizeDomain d)
  | .error .notApplicable :: sniffs => sniffGroup normalizeDomain sniffs
  | .error e :: _ => .error e

/-- The group that `SniffTcp` runs on the buffer. -/
def sniffBuffer (normalizeDomain : List UInt8 → List UInt8) (buf : List UInt8) : Sniffed :=
  sniffGroup normalizeDomain [(sniffTls buf).1, sniffHttp buf]

def NeedsMore (result : Sniffed) : Prop := result = .error .needMore

instance : DecidablePred NeedsMore := fun _ => inferInstanceAs (Decidable (_ = _))

theorem sniffBuffer_nil (normalizeDomain : List UInt8 → List UInt8) :
    sniffBuffer normalizeDomain [] = .error .needMore := by
  rw [sniffBuffer, sniffTls_nil]
  rfl

/-- The first parser settles before the second one is asked, so both settle together. -/
theorem sniffBuffer_stable (normalizeDomain : List UInt8 → List UInt8) :
    Incremental.Stable (sniffBuffer normalizeDomain) NeedsMore := by
  intro read later h
  have hread : read ≠ [] := by
    rintro rfl
    exact h (sniffBuffer_nil normalizeDomain)
  unfold sniffBuffer at h ⊢
  by_cases htls : (sniffTls read).1 = .error .needMore
  · rw [htls] at h
    exact absurd rfl h
  · rw [sniffTls_stable read later htls]
    generalize (sniffTls read).1 = result at h htls ⊢
    rcases result with (_ | _ | _) | d
    · -- not TLS: the same holds of the second parser
      by_cases hhttp : sniffHttp read = .error .needMore
      · rw [hhttp] at h
        exact absurd rfl h
      · rw [sniffHttp_append later hread hhttp]
    · rfl
    · rfl
    · rfl

/-! ### The sniffer -/

/-- How a read of the stream comes out: how many bytes it returns at most, and whether the error
comes with the last bytes. -/
structure ReadChoice where
  size : Nat
  withError : Bool

structure StreamSniffer (E : Type) where
  /-- What the reader has not returned yet, and its error after that. -/
  rest : List UInt8
  terminal : E
  buf : Option (List UInt8)
  dataError : Option E
  dataReady : Bool
  tcpTLS : Bool

def ethernetMtu : Nat := 1500

inductive TcpError (E : Type) where
  | sniff (e : SniffError)
  | read (e : E)
  deriving DecidableEq

/-- The error of `SniffTcp`: its kind, and whether it is wrapped in an earlier `ErrNeedMore`. -/
structure TcpFailure (E : Type) where
  needMore : Bool
  kind : TcpError E

namespace StreamSniffer

variable {E : Type}

/-- `NewStreamSniffer`. -/
def new (stream : List UInt8) (terminal : E) : StreamSniffer E where
  rest := stream
  terminal := terminal
  buf := some []
  dataError := none
  dataReady := false
  tcpTLS := false

/-- A `Read` of the reader into a buffer. -/
def readUnder (choice : ReadChoice) (room : Nat) (s : StreamSniffer E) :
    (List UInt8 × Option E) × StreamSniffer E :=
  if s.rest = [] then
    (([], some s.terminal), s)
  else
    let n := min (max 1 choice.size) room
    let rest := s.rest.drop n
    ((s.rest.take n, if rest = [] ∧ choice.withError then some s.terminal else none),
      { s with rest })

def readStreamOnce (choice : ReadChoice) (s : StreamSniffer E) : Option E × StreamSniffer E :=
  match s.dataError with
  | some e => (some e, { s with dataReady := true })
  | none =>
    match s.readUnder choice ethernetMtu with
    | ((data, err), s) =>
      (if data = [] then err else none,
        { s with buf := s.buf.map (· ++ data), dataError := err, dataReady := true })

/-- The loop of `SniffTcp`, the read of number `i` being the next one. -/
def sniffTcpFrom (normalizeDomain : List UInt8 → List UInt8) (choices : Nat → ReadChoice) :
    Nat → Nat → Bool → StreamSniffer E →
      Option (Except (TcpFailure E) (List UInt8) × StreamSniffer E)
  | 0, _, _, _ => none
  | fuel + 1, i, oerr, s =>
    match s.readStreamOnce (choices i) with
    | (some e, s) => some (.error ⟨oerr, .read e⟩, s)
    | (none, s) =>
      let buf := s.buf.getD []
      if buf = [] then
        some (.error ⟨oerr, .sniff .notApplicable⟩, s)
      else
        let s := { s with tcpTLS := (sniffTls buf).2.getD s.tcpTLS }
        match sniffBuffer normalizeDomain buf with
        | .ok d => some (.ok d, s)
        | .error .needMore =>
          if streamSniffingMaxBytes ≤ buf.length then
            some (.error ⟨oerr, .sniff .notFound⟩, s)
          else
            sniffTcpFrom normalizeDomain choices fuel (i + 1) true
              { s with dataReady := false }
        | .error e => some (.error ⟨oerr, .sniff e⟩, s)

def sniffTcp (normalizeDomain : List UInt8 → List UInt8) (choices : Nat → ReadChoice)
    (fuel : Nat) (s : StreamSniffer E) :
    Option (Except (TcpFailure E) (List UInt8) × StreamSniffer E) :=
  sniffTcpFrom normalizeDomain choices fuel 0 false s

/-- The end of `Read`: the buffer is gone. -/
def readOn (choice : ReadChoice) (room : Nat) (s : StreamSniffer E) :
    (List UInt8 × Option E) × StreamSniffer E :=
  match s.dataError with
  | some e => (([], some e), s)
  | none => s.readUnder choice room

/-- `Read`; it has no result while it waits for the data to be ready. -/
def read (choice : ReadChoice) (room : Nat) (s : StreamSniffer E) :
    Option ((List UInt8 × Option E) × StreamSniffer E) :=
  if s.dataReady then
    match s.buf with
    | none => some (s.readOn choice room)
    | some buf =>
      if buf.drop room ≠ [] then
        some ((buf.take room, none), { s with buf := some (buf.drop room) })
      else if buf.take room ≠ [] then
        some ((buf.take room, s.dataError), { s with buf := none })
      else
        some ({ s with buf := none }.readOn choice room)
  else
    none

/-- `Read` calls one after the other: what each of them returned. -/
def reads (s : StreamSniffer E) : List (Nat × ReadChoice) → Option (List (List UInt8 × Option E))
  | [] => some []
  | (room, choice) :: rest => do
      let (out, s) ← s.read choice room
      let outs ← s.reads rest
      pure (out :: outs)

/-! ### What is left of the stream -/

/-- What `Read` has not returned yet. -/
def pending (s : StreamSniffer E) : List UInt8 := s.buf.getD [] ++ s.rest

/-- An error that is kept is that of the stream, at its end. -/
def ErrorAtEnd (s : StreamSniffer E) : Prop :=
  ∀ e, s.dataError = some e → e = s.terminal ∧ s.rest = []

/-- One read of the reader: its bytes are the next ones, and an error comes at the end. -/
structure Takes (s : StreamSniffer E) (out : List UInt8 × Option E) (s' : StreamSniffer E) :
    Prop where
  bytes : out.1 ++ s'.rest = s.rest
  error : ∀ e, out.2 = some e → e = s.terminal ∧ s'.rest = []
  only : ∃ rest, s' = { s with rest }

theorem readUnder_takes (choice : ReadChoice) (room : Nat) (s : StreamSniffer E) :
    Takes s (s.readUnder choice room).1 (s.readUnder choice room).2 := by
  unfold readUnder
  split
  next hrest =>
    refine ⟨rfl, ?_, s.rest, rfl⟩
    intro e he
    cases he
    exact ⟨rfl, hrest⟩
  next hrest =>
    refine ⟨List.take_append_drop .., ?_, _, rfl⟩
    intro e he
    dsimp only at he ⊢
    split at he
    next hend =>
      cases he
      exact ⟨rfl, hend.1⟩
    next => cases he

theorem readUnder_progress {choice : ReadChoice} {room : Nat} {s : StreamSniffer E}
    (hroom : 0 < room) (hrest : s.rest ≠ []) : (s.readUnder choice room).1.1 ≠ [] := by
  unfold readUnder
  rw [if_neg hrest]
  intro hnil
  rcases List.take_eq_nil_iff.mp hnil with hzero | hnil
  · omega
  · exact hrest hnil

theorem readUnder_end {choice : ReadChoice} {room : Nat} {s : StreamSniffer E}
    (hrest : s.rest = []) : s.readUnder choice room = (([], some s.terminal), s) :=
  if_pos hrest

/-- The buffer has what was read of the stream. -/
structure Buffered (stream : List UInt8) (terminal : E) (buf : List UInt8)
    (s : StreamSniffer E) : Prop where
  buffer : s.buf = some buf
  stream_eq : buf ++ s.rest = stream
  terminal_eq : s.terminal = terminal
  atEnd : s.ErrorAtEnd

variable {stream buf : List UInt8} {terminal : E} {s : StreamSniffer E}
  {normalizeDomain : List UInt8 → List UInt8} {first : Nat}

theorem Buffered.take (h : Buffered stream terminal buf s) : stream.take buf.length = buf := by
  rw [← h.stream_eq]
  exact List.take_left

theorem Buffered.new (stream : List UInt8) (terminal : E) :
    Buffered stream terminal [] (new stream terminal) where
  buffer := rfl
  stream_eq := rfl
  terminal_eq := rfl
  atEnd := fun _ he => nomatch he

theorem Buffered.readStreamOnce (h : Buffered stream terminal buf s) (choice : ReadChoice)
    (hmore : buf.length < stream.length) :
    ∃ data s', s.readStreamOnce choice = (none, s') ∧ data ≠ [] ∧
      Buffered stream terminal (buf ++ data) s' ∧ s'.dataReady = true := by
  have hrest : s.rest ≠ [] := by
    intro hrest
    rw [← h.stream_eq, hrest, List.append_nil] at hmore
    exact Nat.lt_irrefl _ hmore
  have herror : s.dataError = none := by
    rw [Option.eq_none_iff_forall_not_mem]
    intro e he
    exact hrest (h.atEnd e he).2
  have htakes := readUnder_takes choice ethernetMtu s
  have hdata := @readUnder_progress E choice ethernetMtu s (by decide) hrest
  unfold StreamSniffer.readStreamOnce
  rw [herror]
  generalize s.readUnder choice ethernetMtu = taken at htakes hdata
  obtain ⟨⟨data, err⟩, s₁⟩ := taken
  obtain ⟨hbytes, hend, rest, rfl⟩ := htakes
  dsimp only at hdata ⊢
  rw [if_neg hdata]
  refine ⟨data, _, rfl, hdata, ⟨?_, ?_, h.terminal_eq, hend⟩, rfl⟩
  · rw [h.buffer, Option.map_some]
  · rw [List.append_assoc]
    exact (congrArg (buf ++ ·) hbytes).trans h.stream_eq

/-- One round of the loop either settles or reads on with a longer buffer: the reads cannot end
before the parsers settle, and what they settle on does not depend on where the reads end. -/
theorem sniffTcpFrom_settles (choices : Nat → ReadChoice)
    (hfirst : Incremental.SettledAt (sniffBuffer normalizeDomain) NeedsMore stream first)
    (hmax : first < streamSniffingMaxBytes) (fuel : Nat) :
    ∀ {i : Nat} {oerr : Bool} {s : StreamSniffer E} {buf : List UInt8},
      Buffered stream terminal buf s → buf.length < first → first ≤ buf.length + fuel →
      ∃ result s' buf', sniffTcpFrom normalizeDomain choices fuel i oerr s = some (result, s') ∧
        result.mapError TcpFailure.kind =
          (sniffBuffer normalizeDomain (stream.take first)).mapError TcpError.sniff ∧
        Buffered stream terminal buf' s' ∧ s'.dataReady = true := by
  induction fuel with
  | zero =>
    intro i oerr s buf _ hlt hfuel
    omega
  | succ fuel ih =>
    intro i oerr s buf h hlt hfuel
    obtain ⟨data, s₁, hread, hdata, hbuffered, hready⟩ :=
      h.readStreamOnce (choices i) (hlt.trans_le hfirst.le_length)
    have hlength : 0 < data.length := List.length_pos_iff.mpr hdata
    have hne : buf ++ data ≠ [] := by simp [hdata]
    have hbuf : s₁.buf.getD [] = buf ++ data := by rw [hbuffered.buffer, Option.getD_some]
    rw [sniffTcpFrom, hread]
    dsimp only
    rw [hbuf, if_neg hne]
    by_cases hmore : (buf ++ data).length < first
    · -- still too short
      have hneeds : sniffBuffer normalizeDomain (buf ++ data) = .error .needMore := by
        have hneeds := hfirst.more_of_lt hmore
        rw [hbuffered.take] at hneeds
        exact hneeds
      rw [hneeds]
      dsimp only
      rw [if_neg (by omega)]
      refine ih { hbuffered with } hmore ?_
      rw [List.length_append]
      omega
    · have hsettled := (sniffBuffer_stable normalizeDomain).eq_of_le hfirst (Nat.not_lt.mp hmore)
      rw [hbuffered.take] at hsettled
      have hneeds := hfirst.settled
      rw [← hsettled] at hneeds ⊢
      generalize sniffBuffer normalizeDomain (buf ++ data) = result at hneeds ⊢
      rcases result with (_ | _ | _) | d
      · exact ⟨_, _, _, rfl, rfl, { hbuffered with }, hready⟩
      · exact absurd rfl hneeds
      · exact ⟨_, _, _, rfl, rfl, { hbuffered with }, hready⟩
      · exact ⟨_, _, _, rfl, rfl, { hbuffered with }, hready⟩

theorem sniffTcp_settles (choices : Nat → ReadChoice)
    (hfirst : Incremental.SettledAt (sniffBuffer normalizeDomain) NeedsMore stream first)
    (hmax : first < streamSniffingMaxBytes) {fuel : Nat} (hfuel : first ≤ fuel) :
    ∃ result s' buf',
      sniffTcp normalizeDomain choices fuel (new stream terminal) = some (result, s') ∧
      result.mapError TcpFailure.kind =
        (sniffBuffer normalizeDomain (stream.take first)).mapError TcpError.sniff ∧
      Buffered stream terminal buf' s' ∧ s'.dataReady = true := by
  have hpos : 0 < first := by
    rw [Nat.pos_iff_ne_zero]
    rintro rfl
    exact hfirst.settled (sniffBuffer_nil normalizeDomain)
  exact sniffTcpFrom_settles choices hfirst hmax fuel (.new stream terminal) hpos (by simpa)

/-! ### Reading the stream back -/

/-- One `Read`: its bytes are the next ones that are pending, and its error comes after the last. -/
structure Returns (s : StreamSniffer E) (room : Nat) (out : List UInt8 × Option E)
    (s' : StreamSniffer E) : Prop where
  bytes : out.1 ++ s'.pending = s.pending
  error : ∀ e, out.2 = some e → e = s.terminal ∧ s'.pending = []
  progress : 0 < room → s.pending ≠ [] → out.1 ≠ []
  after : s.pending = [] → out = ([], some s.terminal)
  terminal_eq : s'.terminal = s.terminal
  ready : s'.dataReady = s.dataReady
  atEnd : s'.ErrorAtEnd

theorem readOn_returns (choice : ReadChoice) (room : Nat) (hbuf : s.buf = none)
    (hend : s.ErrorAtEnd) :
    Returns s room (s.readOn choice room).1 (s.readOn choice room).2 := by
  have hpending : s.pending = s.rest := by
    rw [pending, hbuf]
    rfl
  unfold readOn
  cases herror : s.dataError with
  | some e =>
    obtain ⟨rfl, hrest⟩ := hend e herror
    refine ⟨rfl, ?_, ?_, fun _ => rfl, rfl, rfl, hend⟩
    · intro e he
      cases he
      exact ⟨rfl, hpending.trans hrest⟩
    · intro _ hne
      exact absurd (hpending.trans hrest) hne
  | none =>
    have htakes := readUnder_takes choice room s
    have hprogress := @readUnder_progress E choice room s
    have hafter := @readUnder_end E choice room s
    dsimp only
    generalize s.readUnder choice room = taken at htakes hprogress hafter ⊢
    obtain ⟨out, s'⟩ := taken
    obtain ⟨hbytes, herr, rest, rfl⟩ := htakes
    have hleft : pending { s with rest } = rest := by
      rw [pending, hbuf]
      rfl
    refine ⟨?_, ?_, ?_, ?_, rfl, rfl, ?_⟩
    · rw [hleft, hpending]
      exact hbytes
    · rw [hleft]
      exact herr
    · rw [hpending]
      exact hprogress
    · rw [hpending]
      intro hrest
      exact congrArg Prod.fst (hafter hrest)
    · intro e he
      cases herror.symm.trans he

theorem read_returns (choice : ReadChoice) (room : Nat) (hready : s.dataReady = true)
    (hend : s.ErrorAtEnd) :
    ∃ out s', s.read choice room = some (out, s') ∧ Returns s room out s' := by
  unfold read
  rw [if_pos hready]
  cases hbuf : s.buf with
  | none => exact ⟨_, _, rfl, readOn_returns choice room hbuf hend⟩
  | some buf =>
    have hpending : s.pending = buf ++ s.rest := by
      rw [pending, hbuf]
      rfl
    have hsplit := List.take_append_drop room buf
    dsimp only
    by_cases hleft : buf.drop room ≠ []
    · rw [if_pos hleft]
      have hne : buf ≠ [] := by
        rintro rfl
        exact hleft List.drop_nil
      refine ⟨_, _, rfl, ?_, (fun _ he => nomatch he), ?_, ?_, rfl, rfl, hend⟩
      · rw [hpending, pending, Option.getD_some, ← List.append_assoc, hsplit]
      · intro hroom _ hnil
        rcases List.take_eq_nil_iff.mp hnil with hzero | hnil
        · omega
        · exact hne hnil
      · intro hnil
        rw [hpending] at hnil
        exact absurd (List.append_eq_nil_iff.mp hnil).1 hne
    · rw [if_neg hleft]
      rw [not_not.mp hleft, List.append_nil] at hsplit
      rw [hsplit]
      by_cases hdata : buf ≠ []
      · rw [if_pos hdata]
        refine ⟨_, _, rfl, hpending.symm, hend, fun _ _ => hdata, ?_, rfl, rfl, hend⟩
        intro hnil
        rw [hpending] at hnil
        exact absurd (List.append_eq_nil_iff.mp hnil).1 hdata
      · rw [if_neg hdata]
        have hsame : pending { s with buf := none } = s.pending := by
          rw [hpending, not_not.mp hdata]
          rfl
        have hreturns := @readOn_returns E { s with buf := none } choice room rfl hend
        exact ⟨_, _, rfl, {
          bytes := hreturns.bytes.trans hsame
          error := hreturns.error
          progress := hsame ▸ hreturns.progress
          after := hsame ▸ hreturns.after
          terminal_eq := hreturns.terminal_eq
          ready := hreturns.ready
          atEnd := hreturns.atEnd }⟩

/-- What `Read` calls return of a stream: its bytes in pieces, then its error for good. -/
inductive Replays (terminal : E) : List UInt8 → List (List UInt8 × Option E) → Prop where
  | nil (left : List UInt8) : Replays terminal left []
  | data {left : List UInt8} {outs : List (List UInt8 × Option E)} (data : List UInt8)
      (h : Replays terminal left outs) : Replays terminal (data ++ left) ((data, none) :: outs)
  | error {outs : List (List UInt8 × Option E)} (data : List UInt8)
      (h : ∀ out ∈ outs, out = ([], some terminal)) :
      Replays terminal data ((data, some terminal) :: outs)

theorem reads_cons {call : Nat × ReadChoice} {calls : List (Nat × ReadChoice)}
    {out : List UInt8 × Option E} {outs : List (List UInt8 × Option E)} {s' : StreamSniffer E}
    (hread : s.read call.2 call.1 = some (out, s')) (houts : s'.reads calls = some outs) :
    s.reads (call :: calls) = some (out :: outs) := by
  simp only [reads, hread, houts, Option.bind_eq_bind, Option.bind_some, Option.pure_def]

theorem reads_at_end (calls : List (Nat × ReadChoice)) (hready : s.dataReady = true)
    (hend : s.ErrorAtEnd) (hpending : s.pending = []) :
    ∃ outs, s.reads calls = some outs ∧ ∀ out ∈ outs, out = ([], some s.terminal) := by
  induction calls generalizing s with
  | nil => exact ⟨[], rfl, fun _ hout => nomatch hout⟩
  | cons call calls ih =>
    obtain ⟨out, s', hread, hreturns⟩ := read_returns call.2 call.1 hready hend
    have hnil : s'.pending = [] := by
      have hbytes := hreturns.bytes
      rw [hpending] at hbytes
      exact (List.append_eq_nil_iff.mp hbytes).2
    obtain ⟨outs, houts, hall⟩ := ih (hreturns.ready.trans hready) hreturns.atEnd hnil
    rw [hreturns.terminal_eq] at hall
    exact ⟨_, reads_cons hread houts,
      List.forall_mem_cons.mpr ⟨hreturns.after hpending, hall⟩⟩

/-- The induction is on the calls: the next one takes its bytes off the front of what is pending.
Reads into buffers that are not empty come to the error. -/
theorem reads_replay (calls : List (Nat × ReadChoice)) (hready : s.dataReady = true)
    (hend : s.ErrorAtEnd) :
    ∃ outs, s.reads calls = some outs ∧ Replays s.terminal s.pending outs ∧
      ((∀ call ∈ calls, 0 < call.1) → s.pending.length < calls.length →
        ∃ out ∈ outs, out.2 = some s.terminal) := by
  induction calls generalizing s with
  | nil => exact ⟨[], rfl, .nil _, fun _ hcalls => absurd hcalls (Nat.not_lt_zero _)⟩
  | cons call calls ih =>
    obtain ⟨⟨data, err⟩, s', hread, hreturns⟩ := read_returns call.2 call.1 hready hend
    have hready' := hreturns.ready.trans hready
    have hbytes := hreturns.bytes
    cases err with
    | none =>
      obtain ⟨outs, houts, hreplays, hcomplete⟩ := ih hready' hreturns.atEnd
      rw [hreturns.terminal_eq] at hreplays hcomplete
      refine ⟨_, reads_cons hread houts, hbytes ▸ .data data hreplays, fun hroom hcalls => ?_⟩
      obtain ⟨hfirst, hrest⟩ := List.forall_mem_cons.mp hroom
      have hpending : s.pending ≠ [] := fun hnil => by cases hreturns.after hnil
      have hdata := List.length_pos_iff.mpr (hreturns.progress hfirst hpending)
      rw [← hbytes, List.length_append, List.length_cons] at hcalls
      obtain ⟨out, hout, herror⟩ := hcomplete hrest (by omega)
      exact ⟨out, List.mem_cons_of_mem _ hout, herror⟩
    | some e =>
      obtain ⟨heq, hnil⟩ := hreturns.error e rfl
      obtain ⟨outs, houts, hall⟩ := reads_at_end calls hready' hreturns.atEnd hnil
      rw [hreturns.terminal_eq] at hall
      rw [hnil, List.append_nil] at hbytes
      dsimp only at heq hbytes
      rw [heq] at hread
      refine ⟨_, reads_cons hread houts, ?_, fun _ _ => ⟨_, List.mem_cons_self, rfl⟩⟩
      rw [← hbytes]
      exact .error data hall

theorem Replays.whole {left : List UInt8} {outs : List (List UInt8 × Option E)}
    {out : List UInt8 × Option E} {e : E} (h : Replays terminal left outs) (hout : out ∈ outs)
    (herror : out.2 = some e) : (outs.map Prod.fst).flatten = left := by
  induction h with
  | nil => cases hout
  | @data left outs data _ ih =>
    rcases List.mem_cons.mp hout with rfl | hout
    · cases herror
    · rw [List.map_cons, List.flatten_cons, ih hout]
  | @error outs data hall =>
    have hnil : (outs.map Prod.fst).flatten = [] := by
      rw [List.flatten_eq_nil_iff, List.forall_mem_map]
      intro out hout
      rw [hall out hout]
    rw [List.map_cons, List.flatten_cons, hnil, List.append_nil]

/-- The result of sniffing does not depend on how the stream is cut into reads, it is that of the
shortest start on which the parsers settle, and the stream is read back as it was. -/
theorem stream_intact (normalizeDomain : List UInt8 → List UInt8) (stream : List UInt8)
    (terminal : E) (first : Nat)
    (hfirst : Incremental.SettledAt (sniffBuffer normalizeDomain) NeedsMore stream first)
    (hmax : first < streamSniffingMaxBytes) :
    (∀ k, first ≤ k → sniffBuffer normalizeDomain (stream.take k) =
        sniffBuffer normalizeDomain (stream.take first)) ∧
      ∀ choices fuel, first ≤ fuel → ∃ result s',
        sniffTcp normalizeDomain choices fuel (new stream terminal) = some (result, s') ∧
        result.mapError TcpFailure.kind =
          (sniffBuffer normalizeDomain (stream.take first)).mapError TcpError.sniff ∧
        ∀ calls, ∃ outs, s'.reads calls = some outs ∧ Replays terminal stream outs ∧
          ((∀ call ∈ calls, 0 < call.1) → stream.length < calls.length →
            (∃ out ∈ outs, out.2 = some terminal) ∧ (outs.map Prod.fst).flatten = stream) := by
  refine ⟨fun k hk => (sniffBuffer_stable normalizeDomain).eq_of_le hfirst hk, ?_⟩
  intro choices fuel hfuel
  obtain ⟨result, s', buf, hrun, hresult, hbuffered, hready⟩ :=
    @sniffTcp_settles E stream terminal normalizeDomain first choices hfirst hmax fuel hfuel
  refine ⟨result, s', hrun, hresult, ?_⟩
  intro calls
  have hpending : s'.pending = stream := by
    rw [pending, hbuffered.buffer]
    exact hbuffered.stream_eq
  obtain ⟨outs, houts, hreplays, hcomplete⟩ := reads_replay calls hready hbuffered.atEnd
  rw [hpending, hbuffered.terminal_eq] at hreplays hcomplete
  refine ⟨outs, houts, hreplays, ?_⟩
  intro hroom hcalls
  obtain ⟨out, hout, herror⟩ := hcomplete hroom hcalls
  exact ⟨⟨out, hout, herror⟩, hreplays.whole hout herror⟩

/-- A request whose host line ends with its last byte. -/
def sampleRequest : List UInt8 := asciiBytes "GET /\r\nHost:a\r\n"

theorem sampleRequest_settled :
    Incremental.SettledAt (sniffBuffer id) NeedsMore sampleRequest 15 :=
  (sniffBuffer_stable id).settledAt_succ (by decide) (by decide +kernel) (by decide +kernel)

theorem stream_intact_sample :
    (∀ k, 15 ≤ k → sniffBuffer id (sampleRequest.take k) =
        sniffBuffer id (sampleRequest.take 15)) ∧
      ∀ choices fuel, 15 ≤ fuel → ∃ result s',
        sniffTcp id choices fuel (new sampleRequest "EOF") = some (result, s') ∧
        result.mapError TcpFailure.kind =
          (sniffBuffer id (sampleRequest.take 15)).mapError TcpError.sniff ∧
        ∀ calls, ∃ outs, s'.reads calls = some outs ∧ Replays "EOF" sampleRequest outs ∧
          ((∀ call ∈ calls, 0 < call.1) → sampleRequest.length < calls.length →
            (∃ out ∈ outs, out.2 = some "EOF") ∧
              (outs.map Prod.fst).flatten = sampleRequest) :=
  stream_intact id sampleRequest "EOF" 15 sampleRequest_settled (by decide)

/-! ### Sniffing that fails -/

/-- A read fits into its buffer, and one without bytes has an error. -/
theorem readUnder_fits (choice : ReadChoice) {room : Nat} (hroom : 0 < room)
    (s : StreamSniffer E) :
    (s.readUnder choice room).1.1.length ≤ room ∧
      ((s.readUnder choice room).1.2 = none → (s.readUnder choice room).1.1 ≠ []) := by
  by_cases hrest : s.rest = []
  · rw [readUnder_end hrest]
    exact ⟨Nat.zero_le _, by simp⟩
  · refine ⟨?_, fun _ => readUnder_progress hroom hrest⟩
    rw [readUnder, if_neg hrest]
    exact (List.length_take_le ..).trans (min_le_right ..)

theorem Buffered.readStreamOnce_any (h : Buffered stream terminal buf s) (choice : ReadChoice) :
    ∃ err data s', s.readStreamOnce choice = (err, s') ∧
      Buffered stream terminal (buf ++ data) s' ∧ s'.dataReady = true ∧
      data.length ≤ ethernetMtu ∧ (err = none → data ≠ []) := by
  unfold StreamSniffer.readStreamOnce
  split
  next e _ =>
    refine ⟨some e, [], _, rfl, ?_, rfl, Nat.zero_le _, by simp⟩
    rw [List.append_nil]
    exact { h with }
  next =>
    have htakes := readUnder_takes choice ethernetMtu s
    have hfits := readUnder_fits choice (by decide : 0 < ethernetMtu) s
    generalize s.readUnder choice ethernetMtu = taken at htakes hfits ⊢
    obtain ⟨⟨data, err⟩, s₁⟩ := taken
    obtain ⟨hbytes, hend, rest, rfl⟩ := htakes
    refine ⟨_, data, _, rfl, ⟨?_, ?_, h.terminal_eq, hend⟩, rfl, hfits.1, fun hnone hnil => ?_⟩
    · rw [h.buffer, Option.map_some]
    · rw [List.append_assoc]
      exact (congrArg (buf ++ ·) hbytes).trans h.stream_eq
    · rw [if_pos hnil] at hnone
      exact hfits.2 hnone hnil

/-- Every way out of the loop keeps what was read, and a round that reads on has a longer
buffer. -/
theorem sniffTcpFrom_keeps (choices : Nat → ReadChoice) (fuel : Nat) :
    ∀ {i : Nat} {oerr : Bool} {s : StreamSniffer E} {buf : List UInt8},
      Buffered stream terminal buf s → buf.length < streamSniffingMaxBytes →
      streamSniffingMaxBytes < buf.length + fuel →
      ∃ result s' buf', sniffTcpFrom normalizeDomain choices fuel i oerr s = some (result, s') ∧
        Buffered stream terminal buf' s' ∧ s'.dataReady = true ∧
        buf'.length < streamSniffingMaxBytes + ethernetMtu := by
  induction fuel with
  | zero =>
    intro i oerr s buf _ hlt hfuel
    omega
  | succ fuel ih =>
    intro i oerr s buf h hlt hfuel
    obtain ⟨err, data, s₁, hread, hbuffered, hready, hlength, hdata⟩ :=
      h.readStreamOnce_any (choices i)
    have hbound : (buf ++ data).length < streamSniffingMaxBytes + ethernetMtu := by
      rw [List.length_append]
      omega
    have hbuf : s₁.buf.getD [] = buf ++ data := by rw [hbuffered.buffer, Option.getD_some]
    rw [sniffTcpFrom, hread]
    cases err with
    | some e => exact ⟨_, _, _, rfl, hbuffered, hready, hbound⟩
    | none =>
      dsimp only
      rw [hbuf]
      split
      · exact ⟨_, _, _, rfl, hbuffered, hready, hbound⟩
      · split
        · exact ⟨_, _, _, rfl, { hbuffered with }, hready, hbound⟩
        · split
          · exact ⟨_, _, _, rfl, { hbuffered with }, hready, hbound⟩
          · have hmore := List.length_pos_iff.mpr (hdata rfl)
            refine ih { hbuffered with } (by omega) ?_
            rw [List.length_append]
            omega
        · exact ⟨_, _, _, rfl, { hbuffered with }, hready, hbound⟩

end StreamSniffer

end Dae
