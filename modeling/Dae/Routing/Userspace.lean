import Dae.Lib.Kleene
import Dae.Routing.Instruction

/-!
# The userspace routing walk

`routing_predicate.go`, `routing_cursor.go`, `routing_profile.go` and the
interpreter of `routing_matcher_userspace.go`.  The program is a list of spans
over one physical instruction pool, and a cursor walks it in execution order.

The trace of a diagnostic request is left out: it never changes execution.  The
domain matcher, the admission and the liveness functions are fields of the
matcher, as they are in the source.
-/

namespace Dae

open Kleene

/-! ### Spans and the cursor -/

inductive RoutingPhase where
  | route | ingress | flow
  deriving DecidableEq, Repr

/-- `routingSpan`; the field names `Start` and `End` are `first` and `last`. -/
structure RoutingSpan where
  first : Nat
  last : Nat
  phase : RoutingPhase := .route
  isGlobal : Bool := false
  deriving DecidableEq, Repr

def RoutingSpan.len (s : RoutingSpan) : Nat := s.last - s.first

/-- `appendSpan`: an empty span vanishes, an adjacent one is merged. -/
def appendSpan : List RoutingSpan → RoutingSpan → List RoutingSpan
  | [], span => if span.first = span.last then [] else [span]
  | [s], span =>
    if span.first = span.last then [s]
    else if s.last = span.first ∧ s.phase = span.phase ∧ s.isGlobal = span.isGlobal then
      [{ s with last := span.last }]
    else [s, span]
  | s :: s' :: rest, span => s :: appendSpan (s' :: rest) span

def spanExecutionLen (spans : List RoutingSpan) : Nat := (spans.map (·.len)).sum

/-- `routingCursor`, without the spans and their length. -/
structure RoutingCursor where
  span : Nat := 0
  instruction : Nat := 0
  position : Nat := 0
  deriving DecidableEq, Repr

/-- The loop of `routingCursor.advance`, over the spans from `c.span` on. -/
def RoutingCursor.skip (c : RoutingCursor) (distance : Nat) : List RoutingSpan → RoutingCursor
  | [] => c
  | s :: rest =>
    let instruction := max c.instruction s.first
    if distance < s.last - instruction then { c with instruction := instruction + distance }
    else
      RoutingCursor.skip { c with span := c.span + 1, instruction := 0 }
        (distance - (s.last - instruction)) rest

/-- `routingCursor.advance`. -/
def RoutingCursor.advance (spans : List RoutingSpan) (c : RoutingCursor) (distance : Nat) :
    Option RoutingCursor :=
  if spanExecutionLen spans - c.position < distance then none
  else
    some (RoutingCursor.skip { c with position := c.position + distance } distance
      (spans.drop c.span))

/-- `newRoutingCursor`. -/
def newRoutingCursor (spans : List RoutingSpan) : RoutingCursor :=
  (RoutingCursor.advance spans {} 0).getD {}

/-! ### Inputs -/

inductive RoutingStage where
  | routeFromIngress | routeAfterTarget
  deriving DecidableEq, Repr

/-- `routingInput`.  A bitmap is absent or has its full length: that is what the
domain matcher and the registry produce. -/
structure RoutingInput (lim : Limits) where
  src : AddrPort
  dst : AddrPort
  l4proto : BitVec 8
  domain : String := ""
  processName : BitVec 128 := 0
  ifindex : BitVec 32 := 0
  profileID : BitVec 32 := 0
  physinif : BitVec 32 := 0
  dscp : BitVec 8 := 0
  mac : Mac := 0
  domainBitmap : Option (BitVec lim.maxMatchSetLen) := none
  domainBumpBitmap : Option (BitVec lim.maxMatchSetLen) := none
  kernel : Bool := false
  stage : RoutingStage := .routeFromIngress

/-- The part of `RoutingMatcher` that evaluation reads. -/
structure RoutingMatcher (lim : Limits) where
  pool : List MatchSet
  lpmMatcher : List (List Prefix)
  profiles : List (BitVec 32 × List RoutingSpan)
  defaultProfileID : BitVec 32
  matchDomainBitmap : String → BitVec lim.maxMatchSetLen
  httpClientAllowed : Option (Addr → Mac → Bool)
  outboundUsable : Option (BitVec 8 → BitVec 8 → BitVec 8 → Bool)

/-- `consts.IpVersionFromAddr`. -/
def ipVersionFromAddr (addr : Addr) : BitVec 8 :=
  if addr.is4 || addr.is4In6 then ipVersion4
  else if addr.is6 then ipVersion6
  else ipVersionX

/-- The numeric value of a match type, for messages. -/
def MatchType.code : MatchType → Nat
  | .domainSet => 0 | .ipSet => 1 | .sourceIpSet => 2 | .port => 3 | .sourcePort => 4
  | .l4Proto => 5 | .ipVersion => 6 | .mac => 7 | .processName => 8 | .ifIndex => 9
  | .dscp => 10 | .fallback => 11 | .httpClient => 12 | .mustRules => 13 | .upstream => 14
  | .qType => 15

/-! ### Predicates -/

variable {lim : Limits}

/-- A bit of a bitmap that may be absent. -/
def bitmapHas (bitmap : Option (BitVec lim.maxMatchSetLen)) (id : Nat) : Bool :=
  match bitmap with
  | none => false
  | some words => words.getLsbD id

/-- The domain bitmap in effect: a given one, else that of the domain name. -/
def RoutingMatcher.loadedBitmap (m : RoutingMatcher lim) (p : RoutingInput lim) :
    Option (BitVec lim.maxMatchSetLen) :=
  if p.domainBitmap.isNone && p.domain != "" then some (m.matchDomainBitmap p.domain)
  else p.domainBitmap

/-- The trie lookup of `routingPredicates.match`; an index past the tries is a
run-time panic. -/
def RoutingMatcher.hasPrefixIP (m : RoutingMatcher lim) (index : Nat) (key : BitVec 128) :
    Except String Truth :=
  match m.lpmMatcher[index]? with
  | none => .error "index out of range"
  | some lpm => .ok (Truth.ofBool (lpmContains lpm key))

/-- `routingPredicates.match`, for a valid address pair. -/
def RoutingMatcher.predicate (m : RoutingMatcher lim) (p : RoutingInput lim) (src dst : Addr)
    (ins : MatchSet) : Except String Truth :=
  match ins.type with
  | .httpClient =>
    match m.httpClientAllowed with
    | none => .ok .hit
    | some allowed => .ok (Truth.ofBool (allowed src p.mac))
  | .ipSet => m.hasPrefixIP ins.index.toNat dst.as16
  | .sourceIpSet => m.hasPrefixIP ins.index.toNat src.as16
  | .mac => m.hasPrefixIP ins.index.toNat (p.mac.setWidth 128)
  | .domainSet =>
    .ok (Truth.ofBounds (bitmapHas (m.loadedBitmap p) ins.index.toNat)
      (bitmapHas p.domainBumpBitmap ins.index.toNat))
  | .port => .ok (Truth.ofBool (ins.portStart ≤ p.dst.port && p.dst.port ≤ ins.portEnd))
  | .sourcePort => .ok (Truth.ofBool (ins.portStart ≤ p.src.port && p.src.port ≤ ins.portEnd))
  | .ipVersion => .ok (Truth.ofBool (ipVersionFromAddr dst &&& ins.byte != 0))
  | .l4Proto => .ok (Truth.ofBool (p.l4proto &&& ins.byte != 0))
  | .processName =>
    .ok (Truth.ofBool (p.processName.setWidth 8 != 0 && ins.value == p.processName))
  | .ifIndex =>
    .ok (Truth.ofBool (ins.index != 0 && (p.ifindex == ins.index || p.physinif == ins.index)))
  | .dscp => .ok (Truth.ofBool (p.dscp == ins.byte))
  | .fallback => .ok .hit
  | .mustRules => .error s!"unknown match type: {ins.type.code}"
  | .upstream => .error s!"unknown match type: {ins.type.code}"
  | .qType => .error s!"unknown match type: {ins.type.code}"

/-! ### The walk -/

/-- `routingEvaluation`. -/
structure RoutingEvaluation where
  outbound : BitVec 8 := 0
  mark : BitVec 32 := 0
  must : Bool := false
  captureFlags : BitVec 8 := 0
  matched : Bool := false
  deriving DecidableEq, Repr

/-- The local variables of `evaluateSpans`. -/
structure EvalState where
  cursor : RoutingCursor
  subrule : Truth := .miss
  must : Truth := .miss
  ruleUnknown : Bool := false
  flowBump : Bool := false
  uncertainUntil : Nat := 0
  captureFlags : BitVec 8 := 0
  deriving DecidableEq, Repr

/-- One round of the loop goes on, or returns from `evaluateSpans`. -/
abbrev EvalStep := EvalState ⊕ Except String RoutingEvaluation

/-- The evaluation that leaves the decision to the control plane. -/
def EvalState.controlPlane (st : EvalState) (must : Bool) : EvalStep :=
  .inr (.ok { outbound := outboundControlPlaneRouting, must, captureFlags := st.captureFlags })

/-- The liveness answer for an outbound; without an answering function every
outbound is usable. -/
def RoutingMatcher.usable (m : RoutingMatcher lim) (p : RoutingInput lim) (dst : Addr)
    (outbound : BitVec 8) : Bool :=
  match m.outboundUsable with
  | none => true
  | some usable => usable outbound p.l4proto (ipVersionFromAddr dst)

/-- The `switch` on the terminal action; the round goes on at `nextRule`. -/
def RoutingMatcher.evaluateAction (m : RoutingMatcher lim) (p : RoutingInput lim) (dst : Addr)
    (simulateKernel : Bool) (st : EvalState) (ins : MatchSet) : EvalStep :=
  match ins.action with
  | .must =>
    if !st.ruleUnknown then .inl { st with must := .hit }
    else .inl { st with must := st.must.or .maybe }
  | .bump => .inl { st with flowBump := true }
  | .capture =>
    let st := { st with captureFlags := st.captureFlags ||| ins.captureFlags }
    if simulateKernel && st.captureFlags &&& captureExit != 0 then st.controlPlane false
    else .inl st
  | .flowEnd =>
    if (simulateKernel && st.flowBump) || decide (st.must = .maybe) then
      st.controlPlane (decide (st.must = .hit))
    else .inl st
  | .matchHit => .inr (.ok { matched := true })
  | .miss => .inr (.ok {})
  | .route =>
    if ins.has matchFlagSkipNoalive && !m.usable p dst ins.outbound then .inl st
    else if st.ruleUnknown then st.controlPlane (decide (st.must = .hit))
    else
      let forced := decide (st.must = .hit) || ins.has matchFlagMust
      let captureFlags :=
        if simulateKernel && !forced && p.dst.port == 53 && !ins.has matchFlagBypass then
          st.captureFlags ||| captureDNS
        else st.captureFlags
      .inr (.ok { outbound := ins.outbound, mark := ins.mark, must := forced, captureFlags })
  | .or => .inl st
  | .and => .inl st
  | .conditionalJump => .inl st

/-- The `advance` label. -/
def evaluateAdvance (spans : List RoutingSpan) (st : EvalState) (i distance : Nat) : EvalStep :=
  if distance = 0 then .inr (.error s!"invalid routing jump at {i}: {distance}")
  else
    match RoutingCursor.advance spans st.cursor distance with
    | none => .inr (.error s!"invalid routing jump at {i}: {distance}")
    | some cursor => .inl { st with cursor }

/-- A matched terminal of `evaluateSpans`, up to `nextRule`. -/
def RoutingMatcher.evaluateTerminal (m : RoutingMatcher lim) (p : RoutingInput lim)
    (dst : Addr) (simulateKernel : Bool) (spans : List RoutingSpan) (st : EvalState) (i : Nat)
    (ins : MatchSet) : EvalStep :=
  let st := { st with
    ruleUnknown := st.ruleUnknown || decide (st.cursor.position < st.uncertainUntil) }
  match m.evaluateAction p dst simulateKernel st ins with
  | .inr result => .inr result
  | .inl st => evaluateAdvance spans { st with ruleUnknown := false } i 1

/-- `evaluateSpans` after the clause is complete and its negation applied. -/
def RoutingMatcher.evaluateClause (m : RoutingMatcher lim) (p : RoutingInput lim)
    (dst : Addr) (simulateKernel : Bool) (spans : List RoutingSpan) (st : EvalState) (i : Nat)
    (ins : MatchSet) (clause : Truth) : EvalStep :=
  if clause = .miss then
    evaluateAdvance spans { st with ruleUnknown := false } i
      (if ins.action = .and ∨ ins.action = .conditionalJump then ins.mark.toNat else 1)
  else
    let st := { st with ruleUnknown := st.ruleUnknown || decide (clause = .maybe) }
    if ins.action = .and then evaluateAdvance spans st i 1
    else if ins.action = .conditionalJump then
      if ins.mark.toNat = 0 ∨
          spanExecutionLen spans - st.cursor.position < ins.mark.toNat then
        .inr (.error s!"invalid conditional routing jump at {i}: {ins.mark.toNat}")
      else
        let st :=
          if st.ruleUnknown then
            let jump := st.cursor.position + ins.mark.toNat
            { st with uncertainUntil := max st.uncertainUntil jump }
          else st
        evaluateAdvance spans { st with ruleUnknown := false } i 1
    else m.evaluateTerminal p dst simulateKernel spans st i ins

/-- One round of `evaluateSpans` at an instruction of the pool. -/
def RoutingMatcher.evaluateInstruction (m : RoutingMatcher lim) (p : RoutingInput lim)
    (src dst : Addr) (simulateKernel : Bool) (spans : List RoutingSpan) (st : EvalState)
    (i : Nat) (ins : MatchSet) : EvalStep :=
  match if st.subrule = .hit then .ok .hit else m.predicate p src dst ins with
  | .error err => .inr (.error err)
  | .ok result =>
    let subrule := st.subrule.or result
    if ins.action = .or then
      evaluateAdvance spans { st with subrule } i (if subrule = .hit then ins.mark.toNat else 1)
    else
      m.evaluateClause p dst simulateKernel spans { st with subrule := .miss } i ins
        (subrule.xor (ins.has matchFlagNot))

/-- One round of the loop of `evaluateSpans`. -/
def RoutingMatcher.evaluateStep (m : RoutingMatcher lim) (p : RoutingInput lim)
    (src dst : Addr) (simulateKernel : Bool) (spans : List RoutingSpan) (st : EvalState) :
    EvalStep :=
  match spans[st.cursor.span]? with
  | none => .inr (.error "no match set hit")
  | some span =>
    let i := st.cursor.instruction
    if p.stage = .routeAfterTarget ∧ span.phase = .ingress then
      -- The result of this advance is not checked.
      let cursor := RoutingCursor.advance spans st.cursor (span.last - i)
      .inl { st with cursor := cursor.getD st.cursor }
    else
      match m.pool[i]? with
      | none => .inr (.error "index out of range")
      | some ins => m.evaluateInstruction p src dst simulateKernel spans st i ins

/-- The loop of `evaluateSpans`, for at most `fuel` rounds. -/
def RoutingMatcher.evaluateLoop (m : RoutingMatcher lim) (p : RoutingInput lim)
    (src dst : Addr) (simulateKernel : Bool) (spans : List RoutingSpan) :
    Nat → EvalState → Except String RoutingEvaluation
  | 0, _ => .error "out of fuel"
  | fuel + 1, st =>
    match m.evaluateStep p src dst simulateKernel spans st with
    | .inl st => evaluateLoop m p src dst simulateKernel spans fuel st
    | .inr result => result

/-- `simulateKernel` of `evaluateSpans`. -/
def RoutingInput.simulateKernel (p : RoutingInput lim) : Bool :=
  (p.kernel || p.domainBumpBitmap.isSome) && p.stage != .routeAfterTarget

/-- `evaluateSpans`.  Every round moves the cursor forward, so one round more
than there are instructions is enough. -/
def RoutingMatcher.evaluateSpans (m : RoutingMatcher lim) (spans : List RoutingSpan)
    (p : RoutingInput lim) : Except String RoutingEvaluation :=
  match p.src.addr, p.dst.addr with
  | some src, some dst =>
    m.evaluateLoop p src dst p.simulateKernel spans (spanExecutionLen spans + 1)
      { cursor := newRoutingCursor spans }
  | _, _ => .error "invalid routing address"

/-- `match`: the profile of the input, or the default one. -/
def RoutingMatcher.route (m : RoutingMatcher lim) (p : RoutingInput lim) :
    Except String (BitVec 8 × BitVec 32 × Bool) :=
  let id := if p.profileID = 0 then m.defaultProfileID else p.profileID
  match m.profiles.lookup id with
  | none => .error s!"unknown routing profile {id.toNat}"
  | some spans => (m.evaluateSpans spans p).map fun e => (e.outbound, e.mark, e.must)

end Dae
