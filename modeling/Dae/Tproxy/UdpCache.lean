import Dae.Lib.Threads
import Dae.Tproxy.Flows

/-!
# The cached decision of a UDP source, section by section

`read_udp_route`, `save_udp_route` and `expire_udp_route` of `control/kern/tproxy.c` and
`bindUDPSource` of `control/udp_binding.go`, for one source and its device, at the granularity at
which they interleave: every map operation, clock read and spin-lock section is a section of its
own.  Packets, timer callbacks and userspace bindings are threads.

An entry of the map is named by a number, since a pointer to it outlives its removal.  What the
results speak about is recorded on the side: the time at which an entry was inserted, and the
history of uses, changes and releases.
-/

namespace Dae.UdpCache

/-- What the history records, with the generation and the epoch at that time. -/
inductive Event where
  | hit (result : RoutingResult) (time : Nat) (generation : BitVec 32) (epoch : BitVec 64)
  | changed
  | released
  deriving DecidableEq, Repr

structure Shared where
  now : Nat
  routingGeneration : BitVec 32
  device : Option DeviceRouteState
  binding : Option (BitVec 64) := none
  slot : Option Nat := none
  entries : Nat → UdpRoutingCacheValue
  size : Nat := 0
  born : Nat → Nat
  history : List Event := []

/-- What a packet has read before it looks at the cache. -/
structure Context where
  generation : BitVec 32
  routeEpoch : BitVec 64
  deriving DecidableEq, Repr

/-- What a thread does next.  `saving` is set when `read_udp_route` is called by
`save_udp_route`. -/
inductive Job where
  | packet
  | lookupDevice (generation : BitVec 32)
  | lookupBinding (ctx : Context)
  | lookupRoute (ctx : Context) (saving : Bool)
  | sampleNow (ctx : Context) (saving : Bool) (id : Nat)
  | checkDevice (ctx : Context) (saving : Bool) (id now : Nat)
  | checkGeneration (ctx : Context) (saving : Bool) (id now : Nat) (stale : Bool)
  | lockRoute (ctx : Context) (saving : Bool) (id now : Nat) (stale : Bool)
  | deleteRoute (ctx : Context) (saving : Bool) (id : Nat)
  | route (ctx : Context)
  | stamp (ctx : Context) (result : RoutingResult)
  | insert (ctx : Context) (result : RoutingResult) (cachedUntil : Nat)
  | arm (ctx : Context)
  | selected (ctx : Context) (result : RoutingResult)
  | expire (id : Nat)
  | expireLock (id now : Nat)
  | expireDelete (id : Nat)
  | releaseDecision
  | releaseBinding
  deriving DecidableEq, Repr

namespace Shared

/-- After `read_udp_route` found no decision: a packet is routed; one that saves is dropped. -/
def missed (ctx : Context) (saving : Bool) : List Job := if saving then [] else [.route ctx]

def close (s : Shared) (id : Nat) : Shared :=
  { s with entries := Function.update s.entries id { s.entries id with closing := true } }

/-- The entry is used, and its lifetime starts again. -/
def use (s : Shared) (id now : Nat) : Shared :=
  let value := s.entries id
  { s with
    entries := Function.update s.entries id { value with cachedUntil := now + udpRoutingCacheTtlNs }
    history := .hit value.result now s.routingGeneration (KernelState.epochOf s.device) ::
      s.history }

/-- The spin-lock section of `read_udp_route`. -/
def lockRoute (s : Shared) (ctx : Context) (saving : Bool) (id now : Nat) (stale : Bool) :
    Shared × List Job :=
  let value := s.entries id
  if value.closing then (s, [])
  else if stale || value.cachedUntil ≤ now then (s.close id, [.deleteRoute ctx saving id])
  else (s.use id now, [.selected ctx value.result])

/-- The insertion of `save_udp_route`, which an existing entry refuses. -/
def insert (s : Shared) (ctx : Context) (result : RoutingResult) (cachedUntil : Nat) :
    Shared × List Job :=
  match s.slot with
  | some _ => (s, [.lookupRoute ctx true])
  | none =>
    ({ s with
        slot := some s.size
        entries := Function.update s.entries s.size { result, cachedUntil }
        born := Function.update s.born s.size s.now
        size := s.size + 1 },
      [.arm ctx])

/-- One section.  The choice is the decision of the routing program, none if it drops. -/
def exec (s : Shared) (job : Job) (choice : Option RoutingResult) : Shared × List Job :=
  match job with
  | .packet => (s, [.lookupDevice s.routingGeneration])
  | .lookupDevice generation =>
    if KernelState.isUpdating s.device then (s, [])
    else (s, [.lookupBinding ⟨generation, KernelState.epochOf s.device⟩])
  | .lookupBinding ctx =>
    match s.binding with
    | some _ => (s, [])
    | none => (s, [.lookupRoute ctx false])
  | .lookupRoute ctx saving =>
    match s.slot with
    | none => (s, missed ctx saving)
    | some id => (s, [.sampleNow ctx saving id])
  | .sampleNow ctx saving id => (s, [.checkDevice ctx saving id s.now])
  | .checkDevice ctx saving id now =>
    if KernelState.isUpdating s.device then (s, [])
    else
      (s, [.checkGeneration ctx saving id now
        (s.device.any (·.epoch ≠ (s.entries id).result.routeEpoch))])
  | .checkGeneration ctx saving id now stale =>
    (s, [.lockRoute ctx saving id now
      (stale || (s.entries id).result.generation ≠ s.routingGeneration)])
  | .lockRoute ctx saving id now stale => s.lockRoute ctx saving id now stale
  | .deleteRoute ctx saving _ => ({ s with slot := none }, missed ctx saving)
  | .route ctx =>
    match choice with
    | none => (s, [])
    | some result =>
      (s, [.stamp ctx
        { result with generation := ctx.generation, routeEpoch := ctx.routeEpoch }])
  | .stamp ctx result => (s, [.insert ctx result (s.now + udpRoutingCacheTtlNs)])
  | .insert ctx result cachedUntil => s.insert ctx result cachedUntil
  | .arm ctx =>
    match s.slot with
    | none => (s, [])
    | some _ => (s, [.lookupRoute ctx true])
  -- The packet goes on, or is dropped after a second look at the device.
  | .selected _ _ => (s, [])
  | .expire id => (s, [.expireLock id s.now])
  | .expireLock id now =>
    if (s.entries id).closing then (s, [])
    -- The timer starts again.
    else if now < (s.entries id).cachedUntil then (s, [])
    else (s.close id, [.expireDelete id])
  | .expireDelete _ => ({ s with slot := none }, [])
  | .releaseDecision => ({ s with slot := none, history := .released :: s.history }, [])
  | .releaseBinding => ({ s with binding := none, history := .released :: s.history }, [])

/-- What begins: a packet, a timer callback of some entry, a binding, which is released later, the
passing of time, and changes of the generation and the device. -/
inductive Call where
  | packet
  | timer (id : Nat)
  | bind (routeEpoch : BitVec 64)
  | pass (ns : Nat)
  | setGeneration (generation : BitVec 32)
  | setDevice (device : Option DeviceRouteState)
  deriving DecidableEq, Repr

def call (s : Shared) : Call → Shared × List Job
  | .packet => (s, [.packet])
  | .timer id => (s, if id < s.size then [.expire id] else [])
  | .bind routeEpoch =>
    match s.binding with
    | some _ => (s, [])
    | none => ({ s with binding := some routeEpoch }, [.releaseDecision, .releaseBinding])
  | .pass ns => ({ s with now := s.now + ns }, [])
  | .setGeneration generation =>
    ({ s with
        routingGeneration := generation
        history := if generation = s.routingGeneration then s.history
          else .changed :: s.history },
      [])
  | .setDevice device =>
    ({ s with
        device
        history := if KernelState.epochOf device = KernelState.epochOf s.device then s.history
          else .changed :: s.history },
      [])

end Shared

/-! ### One thread alone -/

namespace Shared

/-- A thread that makes `n` sections while no other does. -/
def alone : Nat → Shared × List Job → Shared × List Job
  | n + 1, (s, job :: rest) => alone n ((s.exec job none).1, (s.exec job none).2 ++ rest)
  | _, c => c

/-- The maps of the classifier, as far as they concern the source `key`. -/
structure Shows {lim : Limits} (s : Shared) (k : KernelState lim) (key : UdpSource) : Prop where
  now : k.now = s.now
  generation : k.routingGeneration = s.routingGeneration
  cache : k.udpRoutingCacheMap key = s.slot.map s.entries
  device : ∀ id, s.slot = some id → k.deviceRoutes (s.entries id).result.mac = s.device

/-- What a packet does after `read_udp_route`. -/
def afterRead (ctx : Context) : KernelState.UdpRead → List Job
  | .hit result => [.selected ctx result]
  | .fresh => [.route ctx]
  | .ending => []

/-- A decision that is about to expire. -/
def sampleCached : Shared where
  now := 5000000000
  routingGeneration := 1
  device := some { epoch := 3 }
  slot := some 0
  entries _ := ⟨{ generation := 1, routeEpoch := 3, outbound := 2 }, 5000000001, false⟩
  born _ := 0

end Shared

def program : Threads.Program Shared Job Shared.Call (Option RoutingResult) :=
  ⟨Shared.call, Shared.exec⟩

end Dae.UdpCache
