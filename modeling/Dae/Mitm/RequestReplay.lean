import Dae.Lib.Actions

/-!
# Replaying a request body

`component/mitm/request_replay.go`: the body of a request is recorded while the first attempt sends
it, so that a later attempt can send it again.

The source is a reader with a content and a terminal condition.  A read hands out any number of the
bytes that are left, and the terminal condition together with the last of them or afterwards.  A
source that is being closed may also fail, but it does not then report a regular end.

Every body is read by one goroutine.  A read of a recording body takes three actions: the section
under the lock that begins it, the read of the source, and the section that records what was read.
Closing a body, opening one for the next attempt and releasing the recording happen at any time in
between; a body is closed before the next one is opened.
-/

namespace Dae

/-- The errors that the code tells apart. -/
inductive BodyError (E : Type) where
  | eof
  | closedPipe
  | incompleteUpload
  | tooLarge
  | budgetExhausted
  | other (error : E)
  deriving DecidableEq

/-- `membuffer.View`, with what it holds until it is closed. -/
inductive ReplayView (α : Type) where
  | absent
  | live (data : List α)
  | closed

/-- Where the read of a body is. -/
inductive ReadPoint (α E : Type) where
  | idle
  | reading
  | recording (chunk : List α) (err : Option (BodyError E))

/-- What a body reads: the source, recording it, or a complete recording. -/
inductive BodyKind (α : Type) where
  | recording
  | cursor (data : List α)

/-- A body, with what its reads have returned: the bytes, and the error that ended them. -/
structure AttemptBody (α E : Type) where
  kind : BodyKind α
  started : Bool := false
  closed : Bool := false
  point : ReadPoint α E := .idle
  got : List α := []
  ended : Option (BodyError E) := none

/-- `requestReplay`, with its source: `taken` of it is handed out and `rest` is left, `closing` calls
of its `Close` are under way and `closes` are over. -/
structure RequestReplay (α E : Type) where
  rest : List α
  taken : List α := []
  recorded : List α := []
  view : ReplayView α := .absent
  err : Option (BodyError E) := none
  sourceHeld : Bool := true
  readers : Int := 1
  closing : Nat := 0
  closes : Nat := 0
  released : Bool := false
  panicked : Bool := false
  bodies : List (AttemptBody α E) := [{ kind := .recording }]

/-- What a read of the source returns beside its bytes. -/
inductive SourceError (E : Type) where
  | none
  | terminal
  | broken (err : BodyError E)

inductive ReplayAction (E : Type) where
  | beginRead (i : Nat)
  | readSource (i n : Nat) (err : SourceError E)
  | record (i : Nat) (memory : Bool)
  | readCursor (i n : Nat)
  | closeBody (i : Nat)
  | closeSource
  | openBody
  | release

def requestReplayLimit : Nat := 65536

namespace RequestReplay

variable {α E : Type}

def setBody (s : RequestReplay α E) (i : Nat) (b : AttemptBody α E) : RequestReplay α E :=
  { s with bodies := s.bodies.set i b }

/-- A recording that was unread is incomplete from now on. -/
def startedError (s : RequestReplay α E) : Option (BodyError E) :=
  match s.err, s.view with
  | none, .absent => some .incompleteUpload
  | err, _ => err

/-- The first section of `recordingRequestBody.Read`. -/
def beginRead (s : RequestReplay α E) (i : Nat) (b : AttemptBody α E) : RequestReplay α E :=
  if b.closed then
    s.setBody i { b with ended := some .closedPipe }
  else
    -- The read goes on with the source it finds here.
    let s := { s with err := s.startedError, panicked := s.panicked || !s.sourceHeld }
    s.setBody i { b with started := true, point := .reading }

/-- A read of the source returns `n` bytes, or those that are left. -/
def readSource (s : RequestReplay α E) (i : Nat) (b : AttemptBody α E) (n : Nat)
    (err : Option (BodyError E)) : RequestReplay α E :=
  let chunk := s.rest.take n
  let s := { s with rest := s.rest.drop n, taken := s.taken ++ chunk }
  s.setBody i { b with point := .recording chunk err }

/-- `buffer.Write`: why it fails, if it does. -/
def writeError (s : RequestReplay α E) (chunk : List α) (memory : Bool) : Option (BodyError E) :=
  if requestReplayLimit < s.recorded.length + chunk.length then
    some .tooLarge
  else if memory then
    none
  else
    some .budgetExhausted

/-- `record` without its lock. -/
def recordChunk [DecidableEq E] (s : RequestReplay α E) (chunk : List α)
    (err : Option (BodyError E)) (memory : Bool) : RequestReplay α E :=
  if s.err ≠ some .incompleteUpload then
    s
  else
    match s.writeError chunk memory with
    | some failure => { s with recorded := [], err := some failure }
    | none =>
      let s := { s with recorded := s.recorded ++ chunk }
      match err with
      | none => s
      | some .eof => { s with view := .live s.recorded, recorded := [], err := none }
      | some failure => { s with recorded := [], err := some failure }

/-- The last section of `recordingRequestBody.Read`, after which it returns. -/
def record [DecidableEq E] (s : RequestReplay α E) (i : Nat) (b : AttemptBody α E)
    (chunk : List α) (err : Option (BodyError E)) (memory : Bool) : RequestReplay α E :=
  (s.recordChunk chunk err memory).setBody i
    { b with point := .idle, got := b.got ++ chunk, ended := err }

/-- `membuffer.Reader.Read` with room for `n` bytes. -/
def readCursor (s : RequestReplay α E) (i : Nat) (b : AttemptBody α E) (data : List α) (n : Nat) :
    RequestReplay α E :=
  if b.closed then
    s.setBody i { b with ended := some .closedPipe }
  else
    let got := data.take (b.got.length + n)
    s.setBody i { b with got, ended := if got.length < data.length then none else some .eof }

/-- The source is taken to be closed. -/
def takeSource (s : RequestReplay α E) : RequestReplay α E :=
  if s.sourceHeld then { s with sourceHeld := false, closing := s.closing + 1 } else s

/-- `recordingRequestBody.Close`, up to the call of the source's `Close`. -/
def closeRecording [DecidableEq E] (s : RequestReplay α E) (i : Nat) (b : AttemptBody α E) :
    RequestReplay α E :=
  if b.closed then
    s
  else
    let s := { s with readers := s.readers - 1 }.setBody i { b with closed := true }
    if b.started || (s.err == some .closedPipe && s.readers == 0) then s.takeSource else s

/-- `open`: an error, or what the body reads.  The view of a recording is not open any more when it
is closed. -/
def getBody (s : RequestReplay α E) : Option (Except (BodyError E) (BodyKind α)) :=
  match s.err, s.view with
  | some err, _ => some (.error err)
  | none, .live data => some (.ok (.cursor data))
  | none, .absent => some (.ok .recording)
  | none, .closed => none

def openBody (s : RequestReplay α E) : RequestReplay α E :=
  match s.getBody with
  | some (.error _) => s
  | some (.ok .recording) =>
    { s with readers := s.readers + 1, bodies := s.bodies ++ [{ kind := .recording }] }
  | some (.ok (.cursor data)) => { s with bodies := s.bodies ++ [{ kind := .cursor data }] }
  | none => { s with panicked := true }

/-- `release`, up to the call of the source's `Close`. -/
def release (s : RequestReplay α E) : RequestReplay α E :=
  let view := match s.view with
    | .absent => .absent
    | _ => .closed
  let s := { s with err := some .closedPipe, recorded := [], view, released := true }
  if s.readers = 0 then s.takeSource else s

/-- The error of a read of the source with `n` bytes of room, if the source can return it. -/
def sourceError [DecidableEq E] (terminal : BodyError E) (s : RequestReplay α E) (n : Nat) :
    SourceError E → Option (Option (BodyError E))
  | .none => some none
  | .terminal => if s.rest.length ≤ n then some (some terminal) else none
  | .broken err => if 0 < s.closing + s.closes && err != .eof then some (some err) else none

/-- What an action does, if it is possible, for a source that ends with `terminal`. -/
def act [DecidableEq E] (terminal : BodyError E) (s : RequestReplay α E) :
    ReplayAction E → Option (RequestReplay α E)
  | .beginRead i => match s.bodies[i]? with
    | some ⟨.recording, started, closed, .idle, got, ended⟩ =>
      some (s.beginRead i ⟨.recording, started, closed, .idle, got, ended⟩)
    | _ => none
  | .readSource i n err => match s.bodies[i]? with
    | some ⟨.recording, started, closed, .reading, got, ended⟩ =>
      (s.sourceError terminal n err).map
        (s.readSource i ⟨.recording, started, closed, .reading, got, ended⟩ n)
    | _ => none
  | .record i memory => match s.bodies[i]? with
    | some ⟨.recording, started, closed, .recording chunk err, got, ended⟩ =>
      some (s.record i ⟨.recording, started, closed, .recording chunk err, got, ended⟩ chunk err
        memory)
    | _ => none
  | .readCursor i n => match s.bodies[i]? with
    | some ⟨.cursor data, started, closed, point, got, ended⟩ =>
      some (s.readCursor i ⟨.cursor data, started, closed, point, got, ended⟩ data n)
    | _ => none
  | .closeBody i => match s.bodies[i]? with
    | some ⟨.recording, started, closed, point, got, ended⟩ =>
      some (s.closeRecording i ⟨.recording, started, closed, point, got, ended⟩)
    | some ⟨.cursor data, started, _, point, got, ended⟩ =>
      some (s.setBody i ⟨.cursor data, started, true, point, got, ended⟩)
    | none => none
  | .closeSource =>
    if 0 < s.closing then
      some { s with closing := s.closing - 1, closes := s.closes + 1 }
    else
      none
  | .openBody => if s.bodies.all (·.closed) then some s.openBody else none
  | .release => some s.release

/-- The state that `prepareRequestReplay` sets up for a body of unknown or small length. -/
def start (content : List α) : RequestReplay α E := { rest := content }

/-- What any interleaving reaches. -/
abbrev Reachable [DecidableEq E] (content : List α) (terminal : BodyError E)
    (s : RequestReplay α E) : Prop :=
  Actions.Reaches (act terminal) (start content) s

end RequestReplay

end Dae
