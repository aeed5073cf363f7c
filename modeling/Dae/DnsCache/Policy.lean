import Dae.DnsCache.Store

/-!
# How long DNS answers live

`pkg/dnscache/policy.go`, `cache.go` and `edns.go`, and the replay of `plugins/dns-cache/cache.go`.
An answer is stored with the smallest of its times to live, and what is replayed has been aged by
the whole seconds since its receipt.  `Cache.Put` and `Cache.Get` are calls on the store.
-/

namespace Dae.DnsCache

/-- What `Prepare` reads of the data of a record. -/
inductive RData where
  | soa (minttl : Nat)
  | other (rrtype : Nat)
  deriving DecidableEq, Repr

structure RR where
  data : RData
  ttl : Nat
  deriving DecidableEq, Repr

def typeOPT : Nat := 41
def typeANY : Nat := 255
def rcodeNameError : Nat := 3

def RR.rrtype (r : RR) : Nat :=
  match r.data with
  | .soa _ => 6
  | .other rrtype => rrtype

def RR.isOPT (r : RR) : Bool := r.rrtype == typeOPT

structure Msg where
  response : Bool
  truncated : Bool
  rcode : Nat
  answer : List RR
  ns : List RR
  extra : List RR
  deriving DecidableEq, Repr

/-- The records of all sections. -/
def Msg.rrs (m : Msg) : List RR := m.answer ++ m.ns ++ m.extra

def Msg.map (f : RR → RR) (m : Msg) : Msg :=
  { m with answer := m.answer.map f, ns := m.ns.map f, extra := m.extra.map f }

/-- `Signed`: RRSIG, TSIG and SIG records. -/
def signed (m : Msg) : Bool := m.rrs.any fun r => r.rrtype == 46 || r.rrtype == 250 || r.rrtype == 24

def negative (qtype : Nat) (m : Msg) : Bool :=
  m.answer.all (fun r => r.rrtype != qtype && qtype != typeANY) || m.rcode == rcodeNameError

/-- The `MINIMUM` fields of the SOA records of the authority section. -/
def minimums (m : Msg) : List Nat :=
  m.ns.filterMap fun r =>
    match r.data with
    | .soa minttl => some minttl
    | .other _ => none

/-- The times that bound the lifetime: those of the records other than OPT, and for a negative
answer the minimums. -/
def bounds (qtype : Nat) (m : Msg) : List Nat :=
  (if negative qtype m then minimums m else []) ++ (m.rrs.filter (!·.isOPT)).map (·.ttl)

/-- The record with its time clamped, if it is an SOA record. -/
def RR.clamp (ttl : Nat) (r : RR) : RR :=
  match r.data with
  | .soa _ => { r with ttl := min r.ttl ttl }
  | .other _ => r

/-- `Prepare`: the lifetime in seconds, or zero, and the message with the negative SOA records
clamped.  A time with the highest bit set makes it zero. -/
def prepare (qtype : Nat) (m : Msg) : Nat × Msg :=
  if !m.response || m.truncated || signed m || (m.rcode != 0 && m.rcode != rcodeNameError) then
    (0, m)
  else if (bounds qtype m).any (2 ^ 31 ≤ ·) then
    (0, m)
  else
    let ttl := (bounds qtype m).foldl min (2 ^ 32 - 1)
    if ttl = 2 ^ 32 - 1 ∨ ttl = 0 ∨ negative qtype m ∧ minimums m = [] then
      (0, m)
    else
      (ttl, if negative qtype m then { m with ns := m.ns.map (RR.clamp ttl) } else m)

/-- `Age` -/
def age (m : Msg) (elapsed : Nat) : Msg :=
  m.map fun r => if r.isOPT then r else { r with ttl := r.ttl - min r.ttl elapsed }

/-- `StripOPT` -/
def stripOPT (m : Msg) : Msg := { m with extra := m.extra.filter (!·.isOPT) }

/-- `Replay`, with the flags of the OPT record for the query if it has one. -/
def replay (m : Msg) (edns : Option Nat) : Msg :=
  { m with extra := (stripOPT m).extra ++ edns.toList.map fun flags => ⟨.other typeOPT, flags⟩ }

/-- Nanoseconds. -/
def second : Int := 1000000000

/-- `uint32(max(0, now.Sub(receivedAt)/time.Second))` -/
def elapsed (receivedAt now : Int) : Nat := ((now - receivedAt).tdiv second).toNat % 2 ^ 32

/-- `Cache.Get`: packed messages are unpacked as they were. -/
def cacheGet {K : Type} [DecidableEq K] (store : Store K Msg Int) (key : K) (now : Int) :
    Option Msg × Store K Msg Int :=
  let (hit, store) := store.get key now
  (hit.map fun r => age r.value (elapsed r.receivedAt now), store)

/-- `replayResponse` -/
def replayResponse (entry : Record Msg Int) (edns : Option Nat) (now : Int) : Msg :=
  replay (age entry.value (elapsed entry.receivedAt now)) edns

/-! ### The lifetime -/

theorem foldl_min_spec (l : List Nat) (a : Nat) :
    l.foldl min a ≤ a ∧ (∀ x ∈ l, l.foldl min a ≤ x) ∧ (l.foldl min a = a ∨ l.foldl min a ∈ l) := by
  induction l generalizing a with
  | nil => simp
  | cons b l ih =>
    obtain ⟨hle, hall, hmem⟩ := ih (min a b)
    rw [List.foldl_cons]
    grind

theorem RR.isOPT_clamp (ttl : Nat) (r : RR) : (r.clamp ttl).isOPT = r.isOPT := by
  rcases r with ⟨_ | _, _⟩ <;> rfl

theorem RR.ttl_clamp {ttl : Nat} {r : RR} (h : ttl ≤ r.ttl) :
    ttl ≤ (r.clamp ttl).ttl ∧ (r.ttl = ttl → (r.clamp ttl).ttl = ttl) := by
  rcases r with ⟨_ | _, _⟩ <;> simp_all [RR.clamp]

/-- The stored records: none has less than the lifetime, and one has no more. -/
structure Msg.Lives (m : Msg) (ttl : Nat) : Prop where
  short : ttl < 2 ^ 31
  le : ∀ r ∈ m.rrs, r.isOPT = false → ttl ≤ r.ttl
  attained : ∃ r ∈ m.rrs, r.isOPT = false ∧ r.ttl = ttl

/-- **The lifetime** is positive and the smallest of the times that bound it, also of the records
as they are stored. -/
theorem prepare_spec {qtype ttl : Nat} {m stored : Msg} (h : prepare qtype m = (ttl, stored))
    (hpos : ttl ≠ 0) :
    (∀ r ∈ m.rrs, r.isOPT = false → ttl ≤ r.ttl) ∧
      (negative qtype m = true → ∀ minimum ∈ minimums m, ttl ≤ minimum) ∧ stored.Lives ttl := by
  unfold prepare at h
  split at h
  · cases h
    exact absurd rfl hpos
  split at h
  · cases h
    exact absurd rfl hpos
  next hhigh =>
  obtain ⟨-, hall, hmem⟩ := foldl_min_spec (bounds qtype m) (2 ^ 32 - 1)
  generalize (bounds qtype m).foldl min (2 ^ 32 - 1) = least at h hall hmem
  dsimp only at h
  split at h
  · cases h
    exact absurd rfl hpos
  next hbound =>
  push Not at hbound
  obtain ⟨rfl, rfl⟩ := Prod.mk.inj h
  have hle : ∀ r ∈ m.rrs, r.isOPT = false → least ≤ r.ttl := fun r hr hopt =>
    hall _ (List.mem_append_right _ (List.mem_map_of_mem (List.mem_filter.mpr ⟨hr, by simp [hopt]⟩)))
  have hminimum : negative qtype m = true → ∀ minimum ∈ minimums m, least ≤ minimum :=
    fun hneg minimum hin => hall _ (List.mem_append_left _ (by simpa [hneg] using hin))
  refine ⟨hle, hminimum, ?_⟩
  have hattained := hmem.resolve_left hbound.1
  have hshort : least < 2 ^ 31 := Nat.lt_of_not_le fun hle =>
    hhigh (List.any_eq_true.mpr ⟨least, hattained, decide_eq_true hle⟩)
  rw [bounds, List.mem_append] at hattained
  by_cases hneg : negative qtype m = true
  · -- the SOA records have been clamped
    rw [if_pos hneg]
    have hrrs : ∀ r ∈ m.rrs, r ∈ Msg.rrs { m with ns := m.ns.map (RR.clamp least) } ∨
        r.clamp least ∈ Msg.rrs { m with ns := m.ns.map (RR.clamp least) } := by
      intro r hr
      simp only [Msg.rrs, List.mem_append] at hr ⊢
      rcases hr with (hr | hr) | hr
      · exact .inl (.inl (.inl hr))
      · exact .inr (.inl (.inr (List.mem_map_of_mem hr)))
      · exact .inl (.inr hr)
    refine ⟨hshort, ?_, ?_⟩
    · intro r hr hopt
      simp only [Msg.rrs, List.mem_append, List.mem_map] at hr hle
      rcases hr with (hr | ⟨r, hr, rfl⟩) | hr
      · exact hle r (.inl (.inl hr)) hopt
      · rw [RR.isOPT_clamp] at hopt
        exact (RR.ttl_clamp (hle r (.inl (.inr hr)) hopt)).1
      · exact hle r (.inr hr) hopt
    · rcases hattained with hmin | httl
      · rw [if_pos hneg, minimums, List.mem_filterMap] at hmin
        obtain ⟨⟨_ | _, ttl⟩, hr, hsoa⟩ := hmin
        · cases hsoa
          have hin : (⟨.soa least, ttl⟩ : RR) ∈ m.rrs := by simp [Msg.rrs, hr]
          have hclamped : (⟨.soa least, ttl⟩ : RR).clamp least = ⟨.soa least, least⟩ := by
            simpa [RR.clamp] using hle _ hin rfl
          refine ⟨⟨.soa least, least⟩, ?_, rfl, rfl⟩
          simp only [Msg.rrs, List.mem_append, List.mem_map]
          exact .inl (.inr ⟨_, hr, hclamped⟩)
        · cases hsoa
      · obtain ⟨r, hr, rfl⟩ := List.mem_map.mp httl
        obtain ⟨hr, hopt⟩ := List.mem_filter.mp hr
        have hopt : r.isOPT = false := by simpa using hopt
        rcases hrrs r hr with hin | hin
        · exact ⟨r, hin, hopt, rfl⟩
        · exact ⟨_, hin, by rw [RR.isOPT_clamp, hopt], (RR.ttl_clamp (Nat.le_refl _)).2 rfl⟩
  · rw [if_neg hneg]
    refine ⟨hshort, hle, ?_⟩
    rw [if_neg hneg] at hattained
    obtain ⟨r, hr, httl⟩ := List.mem_map.mp (hattained.resolve_left List.not_mem_nil)
    obtain ⟨hr, hopt⟩ := List.mem_filter.mp hr
    exact ⟨r, hr, by simpa using hopt, httl⟩

/-! ### Replay -/

/-- The records other than OPT that are replayed are the stored ones, aged. -/
theorem mem_rrs_age {m : Msg} {elapsed : Nat} {r : RR} (hopt : r.isOPT = false) :
    r ∈ (age m elapsed).rrs ↔
      ∃ stored ∈ m.rrs, stored.isOPT = false ∧ r = { stored with ttl := stored.ttl - elapsed } := by
  have hmap : (age m elapsed).rrs = m.rrs.map fun r =>
      if r.isOPT then r else { r with ttl := r.ttl - min r.ttl elapsed } := by
    simp [age, Msg.map, Msg.rrs]
  rw [hmap, List.mem_map]
  constructor
  · rintro ⟨stored, hin, rfl⟩
    refine ⟨stored, hin, ?_⟩
    split at hopt
    · simp_all
    · next h => exact ⟨by simpa using h, by simp [h]; omega⟩
  · rintro ⟨stored, hin, hstored, rfl⟩
    refine ⟨stored, hin, ?_⟩
    simp [hstored]
    omega

theorem mem_rrs_stripOPT {m : Msg} {r : RR} (hopt : r.isOPT = false) :
    r ∈ (stripOPT m).rrs ↔ r ∈ m.rrs := by
  simp only [stripOPT, Msg.rrs, List.mem_append, List.mem_filter, hopt, Bool.not_false, and_true]

theorem mem_rrs_replay {m : Msg} {edns : Option Nat} {r : RR} (hopt : r.isOPT = false) :
    r ∈ (replay m edns).rrs ↔ r ∈ m.rrs := by
  have hnew : ∀ flags, r ≠ ⟨.other typeOPT, flags⟩ := by
    rintro flags rfl
    cases hopt
  rw [← mem_rrs_stripOPT hopt]
  simp only [replay, stripOPT, Msg.rrs, List.mem_append]
  grind

/-- The whole seconds that have passed at a hit are fewer than the lifetime, and less than a
second short of the time. -/
theorem elapsed_spec {received now : Int} {ttl : Nat} (httl : ttl < 2 ^ 31) (hnow : received ≤ now)
    (hlive : now < received + ttl * second) :
    elapsed received now < ttl ∧ now - received < (elapsed received now + 1) * second := by
  obtain ⟨n, hn⟩ : ∃ n : Nat, now - received = n := ⟨_, (Int.toNat_of_nonneg (by omega)).symm⟩
  have hdiv : (now - received).tdiv second = (n / 1000000000 : Nat) := by
    rw [hn, second]
    exact (Int.ofNat_tdiv n 1000000000).symm
  rw [elapsed, hdiv, Int.toNat_natCast]
  unfold second at *
  omega

/-- An answer in a cache. -/
structure Entry where
  message : Msg
  received : Int
  ttl : Nat

def Entry.expires (e : Entry) : Int := e.received + e.ttl * second

def Entry.record (e : Entry) : Record Msg Int := ⟨e.message, e.received, e.expires⟩

/-- The response has been accepted and stored, by `Cache.Put` or by `storeResponse`, which strips
it first. -/
def Entry.Accepted (qtype : Nat) (m : Msg) (e : Entry) : Prop :=
  e.ttl ≠ 0 ∧ ∃ stored, prepare qtype m = (e.ttl, stored) ∧
    (e.message = stored ∨ e.message = stripOPT stored)

/-- A hit at the time `now` returns the message: `Cache.Get` as it is, and the plugin with a replay
for the query. -/
def Entry.Returns (e : Entry) (now : Int) (msg : Msg) : Prop :=
  e.received ≤ now ∧ now < e.expires ∧
    (msg = age e.message (elapsed e.received now) ∨ ∃ edns, msg = replayResponse e.record edns now)

/-- Another cache stores what this one returned at the time `now`. -/
def Entry.Hop (e : Entry) (now : Int) (e' : Entry) : Prop :=
  ∃ qtype msg, e.Returns now msg ∧ Entry.Accepted qtype msg e'

/-- A chain of caches, with the number of hops and the time that the answers spent on the way. -/
inductive Chain (e : Entry) : (hops : Nat) → (transit : Int) → Entry → Prop where
  | start : Chain e 0 0 e
  | hop {hops : Nat} {transit now : Int} {last next : Entry} : Chain e hops transit last →
      last.Hop now next → Chain e (hops + 1) (transit + (next.received - now)) next

theorem Entry.Accepted.lives {qtype : Nat} {m : Msg} {e : Entry} (h : Entry.Accepted qtype m e) :
    e.message.Lives e.ttl := by
  obtain ⟨hpos, stored, hprepare, hmessage⟩ := h
  obtain ⟨-, -, hlives⟩ := prepare_spec hprepare hpos
  rcases hmessage with hmessage | hmessage
  · rw [hmessage]
    exact hlives
  · rw [hmessage]
    obtain ⟨r, hr, hopt, httl⟩ := hlives.attained
    exact ⟨hlives.short, fun r hr hopt => hlives.le r ((mem_rrs_stripOPT hopt).mp hr) hopt,
      r, (mem_rrs_stripOPT hopt).mpr hr, hopt, httl⟩

theorem Entry.Returns.mem_rrs {e : Entry} {now : Int} {msg : Msg} (h : e.Returns now msg) {r : RR}
    (hopt : r.isOPT = false) : r ∈ msg.rrs ↔ ∃ stored ∈ e.message.rrs, stored.isOPT = false ∧
      r = { stored with ttl := stored.ttl - elapsed e.received now } := by
  rcases h.2.2 with rfl | ⟨edns, rfl⟩
  · exact mem_rrs_age hopt
  · exact (mem_rrs_replay hopt).trans (mem_rrs_age hopt)

/-- One hop extends the lifetime by less than a second. -/
theorem Entry.Hop.expires_le {e e' : Entry} {now : Int} (hlives : e.message.Lives e.ttl)
    (h : e.Hop now e') :
    e'.expires ≤ e.expires + (second - 1) + (e'.received - now) ∧ e'.message.Lives e'.ttl := by
  obtain ⟨qtype, msg, hreturns, haccepted⟩ := h
  refine ⟨?_, haccepted.lives⟩
  obtain ⟨hpos, stored, hprepare, -⟩ := haccepted
  obtain ⟨r, hr, hopt, httl⟩ := hlives.attained
  -- the record that attained the lifetime has been aged, and bounds the new one
  have haged : (⟨r.data, r.ttl - elapsed e.received now⟩ : RR) ∈ msg.rrs :=
    (hreturns.mem_rrs (show RR.isOPT ⟨r.data, r.ttl - _⟩ = false from hopt)).mpr ⟨r, hr, hopt, rfl⟩
  have hbound : e'.ttl ≤ r.ttl - elapsed e.received now := (prepare_spec hprepare hpos).1 _ haged hopt
  obtain ⟨hlt, hround⟩ := elapsed_spec hlives.short hreturns.1 hreturns.2.1
  unfold Entry.expires second at *
  omega

theorem Chain.expires_le {e last : Entry} {hops : Nat} {transit : Int}
    (hlives : e.message.Lives e.ttl) (h : Chain e hops transit last) :
    last.expires ≤ e.expires + hops * (second - 1) + transit ∧ last.message.Lives last.ttl := by
  induction h with
  | start => exact ⟨by omega, hlives⟩
  | hop _ hhop ih =>
    obtain ⟨hle, hlast⟩ := hhop.expires_le ih.2
    have := ih.1
    refine ⟨?_, hlast⟩
    unfold second at *
    push_cast
    omega

/-- **Answers do not live longer because they were cached.**  A hit on a stored answer leaves the
entry as it is and comes before the receipt plus every time that bounds it; every record but OPT
is aged by the whole seconds since the receipt and has at least one second left; and along a chain
of caches the lifetime grows by less than a second a hop, apart from the time on the way. -/
theorem answers_keep_lifetime {K : Type} [DecidableEq K] (qtype : Nat) (m : Msg) (e : Entry)
    (haccepted : Entry.Accepted qtype m e) :
    (∀ (store : Store K Msg Int) (key : K) (now : Int), store.peek key = some e.record →
      (store.get key now).1 = (if now < e.expires then some e.record else none) ∧
      ((store.get key now).1.isSome → (store.get key now).2.peek key = store.peek key) ∧
      (e.received ≤ now → ∀ msg, (cacheGet store key now).1 = some msg → e.Returns now msg) ∧
      (e.received ≤ now → ∀ edns, ∀ hit ∈ (store.get key now).1,
        e.Returns now (replayResponse hit edns now))) ∧
    (∀ now msg, e.Returns now msg →
      (∀ r ∈ m.rrs, r.isOPT = false → now < e.received + r.ttl * second) ∧
      (negative qtype m = true → ∀ minimum ∈ minimums m, now < e.received + minimum * second) ∧
      (∀ r, r.isOPT = false → (r ∈ msg.rrs ↔ ∃ stored ∈ e.message.rrs, stored.isOPT = false ∧
        r = { stored with ttl := stored.ttl - elapsed e.received now })) ∧
      (∀ r ∈ msg.rrs, r.isOPT = false → 1 ≤ r.ttl)) ∧
    ∀ hops transit last, Chain e hops transit last →
      last.expires ≤ e.expires + hops * (second - 1) + transit := by
  have hlives := haccepted.lives
  refine ⟨?_, ?_, fun hops transit last hchain => (hchain.expires_le hlives).1⟩
  · intro store key now hpeek
    obtain ⟨x, hfind, hx⟩ := Option.map_eq_some_iff.mp hpeek
    have hgot : store.get key now = if now < e.expires then
        (some e.record, { store with lru := x :: store.lru.filter (·.id ≠ x.id) })
        else (none, store.remove x) := by
      rw [Store.get, hfind, ← hx]
      simp only [hx]
      rfl
    by_cases hlive : now < e.expires
    · rw [cacheGet, hgot, if_pos hlive, if_pos hlive]
      refine ⟨rfl, fun _ => rfl, ?_, ?_⟩
      · intro hnow msg hmsg
        cases hmsg
        exact ⟨hnow, hlive, .inl rfl⟩
      · intro hnow edns hit hhit
        cases hhit
        exact ⟨hnow, hlive, .inr ⟨edns, rfl⟩⟩
    · rw [cacheGet, hgot, if_neg hlive, if_neg hlive]
      refine ⟨rfl, fun h => ?_, fun _ msg h => ?_, fun _ edns hit h => ?_⟩ <;> cases h
  · intro now msg hreturns
    obtain ⟨hpos, stored, hprepare, -⟩ := haccepted
    obtain ⟨hle, hminimum, -⟩ := prepare_spec hprepare hpos
    obtain ⟨hnow, hlive, -⟩ := id hreturns
    obtain ⟨hlt, -⟩ := elapsed_spec hlives.short hnow hlive
    refine ⟨fun r hr hopt => ?_, fun hneg minimum hin => ?_, fun r hopt => hreturns.mem_rrs hopt,
      fun r hr hopt => ?_⟩
    · have := hle r hr hopt
      unfold Entry.expires second at *
      omega
    · have := hminimum hneg minimum hin
      unfold Entry.expires second at *
      omega
    · obtain ⟨stored, hin, hstored, rfl⟩ := (hreturns.mem_rrs hopt).mp hr
      have := hlives.le stored hin hstored
      exact Nat.sub_pos_of_lt (by omega)

/-- A negative answer: it may be kept for the minimum of its SOA record. -/
def sampleNegative : Msg := ⟨true, false, rcodeNameError, [], [⟨.soa 60, 300⟩], []⟩

/-- The same after the lifetime has been prepared. -/
def sampleEntry : Entry := ⟨⟨true, false, rcodeNameError, [], [⟨.soa 60, 60⟩], []⟩, 0, 60⟩

theorem answers_keep_lifetime_sample :
    prepare 1 sampleNegative = (60, sampleEntry.message) ∧
      (sampleEntry.Returns (30 * second) (age sampleEntry.message 30) →
        ∀ r ∈ (age sampleEntry.message 30).rrs, r.isOPT = false → 1 ≤ r.ttl) :=
  have hprepare : prepare 1 sampleNegative = (60, sampleEntry.message) := by decide +kernel
  ⟨hprepare, fun h => ((answers_keep_lifetime (K := Nat) 1 sampleNegative sampleEntry
    ⟨by decide, _, hprepare, .inl rfl⟩).2.1 _ _ h).2.2.2⟩

/-! ### The cache of messages -/

/-- `New`; without memory the cache is off. -/
def newCache (K : Type) (entries memoryBytes : Int) : Store K Msg Int :=
  { limit := if memoryBytes ≤ 0 then 0 else entries, memoryLimit := memoryBytes }

/-- The answer as `Cache.Put` stores it. -/
def prepared (qtype : Nat) (m : Msg) (received : Int) : Entry :=
  ⟨(prepare qtype m).2, received, (prepare qtype m).1⟩

inductive CacheCall (K : Type) where
  | put (key : K) (qtype : Nat) (m : Msg) (received : Int) (weight : Option Int)
  | get (key : K) (now : Int)

/-- The cache, with the question type, the answer and the receipt that were last stored for a
key. -/
structure Answers (K : Type) where
  store : Store K Msg Int
  last : K → Option (Nat × Msg × Int) := fun _ => none

section Answers

variable {K : Type} [DecidableEq K] {a : Answers K} {store store' : Store K Msg Int} {key : K}
  {qtype : Nat} {m : Msg} {received now : Int} {weight : Option Int}

/-- `Cache.Put`, with the weight of the key and the packed message, if it can be packed. -/
def cachePut (store : Store K Msg Int) (key : K) (qtype : Nat) (m : Msg) (received : Int)
    (weight : Option Int) : Option (Bool × Store K Msg Int) :=
  if store.limit ≤ 0 ∨ store.memoryLimit ≤ 0 ∨ (prepare qtype m).1 = 0 then
    some (false, store)
  else
    match weight with
    | none => some (false, store)
    | some bytes =>
      if store.memoryLimit < bytes then some (false, store)
      else store.put key (prepared qtype m received).record bytes

def Answers.act (a : Answers K) : CacheCall K → Option (Answers K)
  | .put key qtype m received weight =>
    (cachePut a.store key qtype m received weight).map fun result =>
      ⟨result.2, if result.1 then Function.update a.last key (some (qtype, m, received)) else a.last⟩
  | .get key now => some { a with store := (cacheGet a.store key now).2 }

/-- `Put` refuses, or the answer stands in front of those for other keys. -/
theorem cachePut_spec (h : store.Inv) (key : K) (qtype : Nat) (m : Msg) (received : Int)
    (weight : Option Int) :
    cachePut store key qtype m received weight = some (false, store) ∨
      ∃ s x kept, cachePut store key qtype m received weight = some (true, s) ∧ s.Inv ∧
        s.lru = x :: kept ∧ kept ⊆ Store.others key store.lru ∧ x.key = key ∧
        x.record = (prepared qtype m received).record ∧ (prepare qtype m).1 ≠ 0 := by
  unfold cachePut
  split
  · exact .inl rfl
  next hopen =>
  cases weight with
  | none => exact .inl rfl
  | some bytes =>
    dsimp only
    split
    · exact .inl rfl
    by_cases hrefuse : store.Refuses bytes
    · exact .inl (by rw [Store.put, if_pos hrefuse])
    obtain ⟨s, kept, hput, hinv, hlru, hpre, -⟩ :=
      h.put key (prepared qtype m received).record hrefuse
    exact .inr ⟨s, _, kept, hput, hinv, hlru, hpre.subset, rfl, rfl,
      fun hzero => hopen (.inr (.inr hzero))⟩

theorem cacheGet_cachePut (h : store.Inv)
    (hput : cachePut store key qtype m received weight = some (true, store'))
    (hnow : now < (prepared qtype m received).expires) :
    (cacheGet store' key now).1 = some (age (prepare qtype m).2 (elapsed received now)) := by
  obtain hrefused | ⟨s, x, kept, hstored, hinv, hlru, -, hkey, hrecord, -⟩ :=
    cachePut_spec h key qtype m received weight
  · cases hput.symm.trans hrefused
  cases hput.symm.trans hstored
  have hfind : store'.find key = some x := hinv.find_eq.mpr ⟨by simp [hlru], hkey⟩
  have hget : (store'.get key now).1 = some x.record := by
    rw [Store.get, hfind]
    exact congrArg Prod.fst (if_pos (hrecord ▸ hnow))
  change Option.map _ (store'.get key now).1 = _
  rw [hget, hrecord]
  rfl

/-- What is stored for a key is what was last put for it. -/
structure Answers.Kept (a : Answers K) : Prop where
  inv : a.store.Inv
  last : ∀ x ∈ a.store.lru, ∃ qtype m received, a.last x.key = some (qtype, m, received) ∧
    x.record = (prepared qtype m received).record ∧ (prepare qtype m).1 ≠ 0

theorem Answers.Kept.act (h : a.Kept) (call : CacheCall K) : ∃ a', a.act call = some a' ∧ a'.Kept := by
  cases call with
  | put key qtype m received weight =>
    rw [Answers.act]
    obtain hput | ⟨s, new, kept, hput, hinv, hlru, hkept, rfl, hnew⟩ :=
      cachePut_spec h.inv key qtype m received weight
    · exact ⟨a, by rw [hput]; rfl, h⟩
    rw [hput]
    refine ⟨_, rfl, hinv, fun x hx => ?_⟩
    rcases List.mem_cons.mp (hlru ▸ hx) with rfl | hx
    · exact ⟨qtype, m, received, Function.update_self .., hnew⟩
    · obtain ⟨hmem, hne⟩ := List.mem_filter.mp (hkept hx)
      obtain ⟨_, _, _, hlast, hx⟩ := h.last x hmem
      exact ⟨_, _, _, (Function.update_of_ne (by simpa using hne) ..).trans hlast, hx⟩
  | get key now =>
    obtain ⟨hinv, hcases⟩ := h.inv.get key now
    refine ⟨_, rfl, hinv, fun x hx => h.last x ?_⟩
    change x ∈ (a.store.get key now).2.lru at hx
    rcases hcases with ⟨e, he, -, -, -, hlru⟩ | ⟨-, hlru⟩
    · rcases List.mem_cons.mp (hlru ▸ hx) with rfl | hx
      · exact he
      · exact (List.mem_filter.mp hx).1
    · exact (List.mem_filter.mp (hlru ▸ hx)).1

theorem Answers.Kept.play (h : a.Kept) (calls : List (CacheCall K)) :
    ∃ a', Actions.play Answers.act a calls = some a' ∧ a'.Kept := by
  induction calls generalizing a with
  | nil => exact ⟨a, rfl, h⟩
  | cons call calls ih =>
    obtain ⟨a₁, hact, h₁⟩ := h.act call
    obtain ⟨a₂, hplay, h₂⟩ := ih h₁
    exact ⟨a₂, by rw [Actions.play, hact, Option.bind_some, hplay], h₂⟩

end Answers

end Dae.DnsCache
