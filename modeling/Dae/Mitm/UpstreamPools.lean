import Dae.Lib.Actions
import Dae.Lib.Result

/-!
# Upstream pools

`component/mitm/planned_transport.go`: the pools that `plannedTransport` caches by the key of a plan,
with a reference for the cache and one for each lease, and a callback that closes a pool.

All methods work on the state under one lock and run the callbacks they took after it.  A callback is
taken with the pool and with what took it, is `running` from then on, and has `ran` in the end.
`leases` are those that callers obtained and have not given back; a caller gives back only those.
The serial numbers count the calls, and are not taken to wrap around; the connections that a pool
prepares have no part in its lifetime.
-/

namespace Dae

structure RoutePool where
  used : Nat := 0
  refs : Int := 0

/-- Who takes the callback of a pool. -/
inductive ClosedBy where
  | evict
  | release
  | close
  deriving DecidableEq

/-- `plannedTransport`.  A pool is known by the number of pools made before it; `owned` are the pools
whose callbacks nobody has taken. -/
structure PlannedTransport (κ : Type) where
  closed : Bool := false
  serial : Nat := 0
  pools : List (κ × Nat) := []
  owned : List Nat := []
  pool : Nat → RoutePool := fun _ => {}
  made : Nat := 0
  leases : List Nat := []
  running : List (Nat × ClosedBy) := []
  ran : List (Nat × ClosedBy) := []
  panicked : Bool := false

/-- A call of a method, or the end of a callback.  A map is iterated in any `order`. -/
inductive TransportAction (κ : Type) where
  | acquire (key : κ) (valid : Bool) (order : List (κ × Nat))
  | retain (i : Nat)
  | release (i : Nat)
  | close
  | callback (i : Nat) (cause : ClosedBy)

namespace PlannedTransport

variable {κ : Type} [DecidableEq κ] [Inhabited κ]

def setPool (s : PlannedTransport κ) (i : Nat) (pool : RoutePool) : PlannedTransport κ :=
  { s with pool := Function.update s.pool i pool }

/-- `releaseLocked`: whether the callback was taken, and the state. -/
def releaseLocked (s : PlannedTransport κ) (i : Nat) : Bool × PlannedTransport κ :=
  let s := s.setPool i { s.pool i with refs := (s.pool i).refs - 1 }
  if (s.pool i).refs ≠ 0 then
    (false, s)
  else
    (decide (i ∈ s.owned), { s with owned := s.owned.erase i })

/-- The callback that `releaseLocked` returned runs after the lock. -/
def releaseBy (s : PlannedTransport κ) (i : Nat) (cause : ClosedBy) : PlannedTransport κ :=
  match s.releaseLocked i with
  | (true, s) => { s with running := (i, cause) :: s.running }
  | (false, s) => s

/-- The loop of `acquire` over the cache. -/
def oldestKey (s : PlannedTransport κ) (order : List (κ × Nat)) : κ :=
  (order.foldl (fun (acc : κ × Nat) entry =>
    if (s.pool entry.2).used < acc.2 then (entry.1, (s.pool entry.2).used) else acc)
    (default, s.serial)).1

def evict (s : PlannedTransport κ) (order : List (κ × Nat)) : PlannedTransport κ :=
  let key := s.oldestKey order
  match s.pools.lookup key with
  | some i => { s with pools := s.pools.filter (·.1 ≠ key) }.releaseBy i .evict
  | none => { s with panicked := true }

/-- The last lines of `acquire` under the lock. -/
def lease (s : PlannedTransport κ) (i : Nat) : PlannedTransport κ :=
  { s.setPool i { used := s.serial, refs := (s.pool i).refs + 1 } with leases := i :: s.leases }

def makePool (s : PlannedTransport κ) (key : κ) : PlannedTransport κ :=
  { s.setPool s.made { refs := 1 } with
    made := s.made + 1, pools := (key, s.made) :: s.pools, owned := s.made :: s.owned }

/-- `acquire`: the pool that it leases, if it does not fail. -/
def acquire (s : PlannedTransport κ) (key : κ) (valid : Bool) (order : List (κ × Nat)) :
    Option Nat × PlannedTransport κ :=
  if !valid then
    (none, s)
  else if s.closed then
    (none, s)
  else
    let s := { s with serial := s.serial + 1 }
    match s.pools.lookup key with
    | some i => (some i, s.lease i)
    | none =>
      let s := if 32 ≤ s.pools.length then s.evict order else s
      (some s.made, (s.makePool key).lease s.made)

def retain (s : PlannedTransport κ) (i : Nat) : Bool × PlannedTransport κ :=
  if s.closed || decide (i ∉ s.owned) then
    (false, s)
  else
    (true, { s with serial := s.serial + 1 }.lease i)

/-- `release` of a lease. -/
def release (s : PlannedTransport κ) (i : Nat) : PlannedTransport κ :=
  { s with leases := s.leases.erase i }.releaseBy i .release

def close (s : PlannedTransport κ) : PlannedTransport κ :=
  let dropped := s.pools.foldl (fun s entry =>
    s.setPool entry.2 { s.pool entry.2 with refs := (s.pool entry.2).refs - 1 }) s
  { dropped with
    closed := true, pools := [], owned := []
    running := s.owned.map (·, .close) ++ s.running }

/-- What an action does, if it is possible. -/
def act (s : PlannedTransport κ) : TransportAction κ → Option (PlannedTransport κ)
  | .acquire key valid order =>
    if order.Perm s.pools then some (s.acquire key valid order).2 else none
  | .retain i => some (s.retain i).2
  | .release i => if i ∈ s.leases then some (s.release i) else none
  | .close => some s.close
  | .callback i cause =>
    if (i, cause) ∈ s.running then
      some { s with running := s.running.erase (i, cause), ran := (i, cause) :: s.ran }
    else
      none

/-- What any interleaving reaches. -/
abbrev Reachable (s : PlannedTransport κ) : Prop := Actions.Reaches act {} s

/-! ### The references -/

section

omit [DecidableEq κ] [Inhabited κ]

/-- The references to a pool: its cache entry and its leases. -/
def holders (s : PlannedTransport κ) (i : Nat) : Nat :=
  (s.pools.map (·.2)).count i + s.leases.count i

/-- How many callbacks of a pool were taken. -/
def callbacks (s : PlannedTransport κ) (i : Nat) : Nat :=
  (s.running.map (·.1)).count i + (s.ran.map (·.1)).count i

/-- The callback of a pool is owned as long as the pool has references, until all are taken. -/
structure Inv (s : PlannedTransport κ) : Prop where
  counted : ∀ i, (s.pool i).refs = s.holders i
  keys : (s.pools.map (·.1)).Nodup
  cached : (s.pools.map (·.2)).Nodup
  few : s.pools.length ≤ 32
  recent : ∀ i, (s.pool i).used ≤ s.serial
  fate : ∀ i, s.owned.count i + s.callbacks i = if i < s.made then 1 else 0
  fresh : ∀ i, s.made ≤ i → s.holders i = 0
  owned : s.closed = false → ∀ i, i ∈ s.owned ↔ 0 < s.holders i
  shut : s.closed = true → s.pools = [] ∧ s.owned = []
  idle : ∀ e, e ∈ s.running ∨ e ∈ s.ran → e.2 ≠ .close → s.holders e.1 = 0
  safe : s.panicked = false

variable {s : PlannedTransport κ} {i : Nat}

theorem Inv.owned_count (h : Inv s) (hi : i ∈ s.owned) : s.owned.count i = 1 ∧ s.callbacks i = 0 := by
  have hfate := h.fate i
  have hpos := List.count_pos_iff.mpr hi
  split at hfate <;> omega

variable {key : κ}

theorem holders_pos_of_cached (hmem : (key, i) ∈ s.pools) : 0 < s.holders i := by
  have hpos : 0 < (s.pools.map (·.2)).count i :=
    List.count_pos_iff.mpr (List.mem_map_of_mem (f := (·.2)) hmem)
  unfold holders
  omega

theorem Inv.made_of_holders (h : Inv s) (hi : 0 < s.holders i) : i < s.made := by
  by_contra hn
  have := h.fresh i (by omega)
  omega

variable {e : Nat × ClosedBy}

theorem callbacks_pos (he : e ∈ s.running ∨ e ∈ s.ran) :
    0 < s.callbacks e.1 := by
  unfold callbacks
  rcases he with he | he
  · have := List.count_pos_iff.mpr (List.mem_map_of_mem (f := (·.1)) he)
    omega
  · have := List.count_pos_iff.mpr (List.mem_map_of_mem (f := (·.1)) he)
    omega

/-- A callback that was taken is that of a pool, and not owned. -/
theorem Inv.of_taken (h : Inv s) (he : e ∈ s.running ∨ e ∈ s.ran) :
    e.1 < s.made ∧ e.1 ∉ s.owned := by
  have hpos := callbacks_pos he
  have hfate := h.fate e.1
  refine ⟨?_, fun hi => ?_⟩
  · by_contra hn
    rw [if_neg hn] at hfate
    omega
  · have := (h.owned_count hi).2
    omega

theorem Inv.tick (h : Inv s) : Inv { s with serial := s.serial + 1 } :=
  { h with recent := fun i => (h.recent i).trans (Nat.le_succ _) }

theorem lease_holders (j : Nat) :
    (s.lease i).holders j = s.holders j + if i = j then 1 else 0 := by
  simp only [lease, setPool, holders, List.count_cons, beq_iff_eq, Nat.add_assoc]

theorem lease_inv (h : Inv s) (hopen : s.closed = false) (hi : i ∈ s.owned) : Inv (s.lease i) := by
  have hpos := (h.owned hopen i).mp hi
  refine {
    h with
    counted := fun j => ?_, recent := fun j => ?_, fresh := fun j hj => ?_
    owned := fun _ j => ?_, idle := fun e he hne => ?_ }
  · rw [lease_holders]
    by_cases hj : j = i
    · subst hj
      simp [lease, setPool, h.counted j]
    · simp [lease, setPool, h.counted j, hj, Ne.symm hj]
  · by_cases hj : j = i
    · subst hj
      simp [lease, setPool]
    · simpa [lease, setPool, hj] using h.recent j
  · have hlt := h.made_of_holders hpos
    have hle : s.made ≤ j := hj
    rw [lease_holders, h.fresh j hj, if_neg (by omega)]
  · rw [lease_holders]
    change j ∈ s.owned ↔ _
    rw [h.owned hopen j]
    split
    next hj =>
      subst hj
      exact ⟨fun _ => by omega, fun _ => hpos⟩
    next => exact Iff.rfl
  · have hne' : i ≠ e.1 := fun heq => (h.of_taken he).2 (heq ▸ hi)
    rw [lease_holders, if_neg hne']
    exact h.idle e he hne

theorem makePool_inv [DecidableEq κ] (h : Inv s) (hopen : s.closed = false)
    (hkey : s.pools.lookup key = none) (hfew : s.pools.length < 32) :
    Inv (s.makePool key) ∧ s.made ∈ (s.makePool key).owned := by
  have hnone := h.fresh s.made le_rfl
  have hholders : ∀ j, (s.makePool key).holders j = s.holders j + if s.made = j then 1 else 0 := by
    intro j
    simp only [makePool, setPool, holders, List.map_cons, List.count_cons, beq_iff_eq]
    omega
  refine ⟨?_, List.mem_cons_self⟩
  refine {
    h with
    counted := fun j => ?_, keys := ?_, cached := ?_, few := hfew, recent := fun j => ?_
    fate := fun j => ?_, fresh := fun j hj => ?_, owned := fun _ j => ?_
    shut := fun hc => absurd (hopen.symm.trans hc) (by simp), idle := fun e he hne => ?_ }
  · rw [hholders]
    by_cases hj : j = s.made
    · subst hj
      simp [makePool, setPool, hnone]
    · simp [makePool, setPool, h.counted j, hj, Ne.symm hj]
  · refine List.nodup_cons.mpr ⟨fun hmem => ?_, h.keys⟩
    obtain ⟨entry, hentry, heq⟩ := List.mem_map.mp hmem
    have := List.lookup_eq_none_iff.mp hkey entry hentry
    simp [heq] at this
  · refine List.nodup_cons.mpr ⟨fun hmem => ?_, h.cached⟩
    have hpos : 0 < (s.pools.map (·.2)).count s.made := List.count_pos_iff.mpr hmem
    unfold holders at hnone
    omega
  · by_cases hj : j = s.made
    · subst hj
      simp [makePool, setPool]
    · simpa [makePool, setPool, hj] using h.recent j
  · have hfate := h.fate j
    change (s.made :: s.owned).count j + s.callbacks j = if j < s.made + 1 then 1 else 0
    rw [List.count_cons]
    by_cases hj : s.made = j
    · subst hj
      rw [if_neg (lt_irrefl _)] at hfate
      simp only [beq_self_eq_true, if_true]
      rw [if_pos (by omega)]
      omega
    · rw [if_neg (by simpa using hj), Nat.add_zero, hfate]
      exact if_congr (by omega) rfl rfl
  · have hle : s.made + 1 ≤ j := hj
    rw [hholders, h.fresh j (by omega), if_neg (by omega)]
  · rw [hholders]
    change j ∈ s.made :: s.owned ↔ _
    rw [List.mem_cons, h.owned hopen j]
    by_cases hj : j = s.made
    · simp [hj]
    · simp [hj, Ne.symm hj]
  · rw [hholders, h.idle e he hne, if_neg]
    have hlt := (h.of_taken he).1
    omega

/-! ### Giving a reference back -/

/-- `releaseLocked` takes one reference; with the last one goes the callback, if it is owned. -/
theorem releaseBy_cases (s : PlannedTransport κ) (i : Nat) (cause : ClosedBy) :
    (s.pool i).refs - 1 ≠ 0 ∧
        s.releaseBy i cause = s.setPool i { s.pool i with refs := (s.pool i).refs - 1 } ∨
      (s.pool i).refs - 1 = 0 ∧ i ∉ s.owned ∧
        s.releaseBy i cause = s.setPool i { s.pool i with refs := (s.pool i).refs - 1 } ∨
      (s.pool i).refs - 1 = 0 ∧ i ∈ s.owned ∧
        s.releaseBy i cause = { s.setPool i { s.pool i with refs := (s.pool i).refs - 1 } with
          owned := s.owned.erase i, running := (i, cause) :: s.running } := by
  unfold releaseBy releaseLocked
  by_cases hrefs : (s.pool i).refs - 1 = 0
  · refine .inr ?_
    by_cases hi : i ∈ s.owned
    · refine .inr ⟨hrefs, hi, ?_⟩
      simp [setPool, hrefs, hi]
    · refine .inl ⟨hrefs, hi, ?_⟩
      simp [setPool, hrefs, hi, List.erase_of_not_mem hi]
  · refine .inl ⟨hrefs, ?_⟩
    simp [setPool, hrefs]

section Drop

variable {pools : List (κ × Nat)} {leases : List Nat} {cause : ClosedBy}

/-- A reference to a pool goes; the references are then right whatever becomes of the callback. -/
theorem Inv.drop (h : Inv s) (hsub : pools.Sublist s.pools)
    (hdrop : ∀ j, (pools.map (·.2)).count j + leases.count j + (if i = j then 1 else 0) =
      s.holders j)
    {owned : List Nat} {running : List (Nat × ClosedBy)}
    (hfate : ∀ j, owned.count j + ((running.map (·.1)).count j + (s.ran.map (·.1)).count j) =
      s.owned.count j + s.callbacks j)
    (howned : s.closed = false →
      ∀ j, j ∈ owned ↔ 0 < (pools.map (·.2)).count j + leases.count j)
    (hrunning : ∀ e ∈ running,
      e ∈ s.running ∨ (pools.map (·.2)).count e.1 + leases.count e.1 = 0)
    (hnone : s.owned = [] → owned = []) :
    Inv { s with
      pools, leases, owned, running
      pool := Function.update s.pool i { s.pool i with refs := (s.pool i).refs - 1 } } := by
  have hle : ∀ j, (pools.map (·.2)).count j + leases.count j ≤ s.holders j := fun j => by
    have := hdrop j
    omega
  refine {
    h with
    counted := fun j => ?_, keys := h.keys.sublist (hsub.map _)
    cached := h.cached.sublist (hsub.map _), few := hsub.length_le.trans h.few
    recent := fun j => ?_, fate := fun j => (hfate j).trans (h.fate j)
    fresh := fun j hj => Nat.eq_zero_of_le_zero ((hle j).trans_eq (h.fresh j hj)), owned := howned
    shut := fun hc => ⟨List.sublist_nil.mp ((h.shut hc).1 ▸ hsub), hnone (h.shut hc).2⟩
    idle := fun e he hne => ?_ }
  · have hcount := h.counted j
    have hj := hdrop j
    change _ = (((pools.map (·.2)).count j + leases.count j : Nat) : Int)
    by_cases heq : j = i
    · subst heq
      simp only [Function.update_self, if_true] at hj ⊢
      omega
    · rw [if_neg (Ne.symm heq)] at hj
      simp only [Function.update_of_ne heq]
      omega
  · by_cases heq : j = i
    · subst heq
      simpa using h.recent j
    · simpa [heq] using h.recent j
  · have hold : e ∈ s.running ∨ e ∈ s.ran →
        (pools.map (·.2)).count e.1 + leases.count e.1 = 0 := fun ht =>
      Nat.eq_zero_of_le_zero ((hle e.1).trans_eq (h.idle e ht hne))
    rcases he with he | he
    · rcases hrunning e he with hrun | hzero
      · exact hold (.inl hrun)
      · exact hzero
    · exact hold (.inr he)

/-- A cache entry or a lease of a pool goes, and with the last one the callback. -/
theorem releaseBy_inv (h : Inv s) (hsub : pools.Sublist s.pools)
    (hdrop : ∀ j, (pools.map (·.2)).count j + leases.count j + (if i = j then 1 else 0) =
      s.holders j) :
    Inv ({ s with pools, leases }.releaseBy i cause) := by
  have hless : (pools.map (·.2)).count i + leases.count i + 1 = s.holders i := by
    simpa using hdrop i
  have hother : s.closed = false → ∀ j, j ≠ i →
      (j ∈ s.owned ↔ 0 < (pools.map (·.2)).count j + leases.count j) := fun hopen j hj => by
    have hsame := hdrop j
    rw [if_neg (Ne.symm hj), Nat.add_zero] at hsame
    rw [h.owned hopen j, hsame]
  have hcount := h.counted i
  rcases releaseBy_cases { s with pools, leases } i cause with
    ⟨hrefs, heq⟩ | ⟨-, hi, heq⟩ | ⟨hrefs, hi, heq⟩
  · rw [heq]
    refine h.drop hsub hdrop (fun j => rfl) (fun hopen j => ?_) (fun e he => .inl he) id
    by_cases hj : j = i
    · subst hj
      change (s.pool j).refs - 1 ≠ 0 at hrefs
      rw [h.owned hopen j]
      omega
    · exact hother hopen j hj
  · rw [heq]
    refine h.drop hsub hdrop (fun j => rfl) (fun hopen j => ?_) (fun e he => .inl he) id
    exact absurd ((h.owned hopen i).mpr (by omega)) hi
  · rw [heq]
    change i ∈ s.owned at hi
    change (s.pool i).refs - 1 = 0 at hrefs
    have honce := (h.owned_count hi).1
    have herased : (s.owned.erase i).count i = 0 := by rw [List.count_erase_self, honce]
    have hgone : (pools.map (·.2)).count i + leases.count i = 0 := by omega
    refine h.drop hsub hdrop (fun j => ?_) (fun hopen j => ?_) (fun e he => ?_) fun hn => ?_
    · simp only [List.map_cons, callbacks]
      by_cases hj : j = i
      · subst hj
        rw [herased, honce, List.count_cons_self]
        omega
      · rw [List.count_erase_of_ne hj, List.count_cons_of_ne (Ne.symm hj)]
    · by_cases hj : j = i
      · subst hj
        exact ⟨fun hmem => absurd hmem (List.count_eq_zero.mp herased), fun hpos => by omega⟩
      · rw [List.mem_erase_of_ne hj]
        exact hother hopen j hj
    · rcases List.mem_cons.mp he with rfl | he
      · exact .inr hgone
      · exact .inl he
    · rw [hn] at hi
      cases hi

end Drop

theorem release_inv (h : Inv s) (hi : i ∈ s.leases) : Inv (s.release i) := by
  refine releaseBy_inv h (List.Sublist.refl _) fun j => ?_
  unfold holders
  by_cases hj : i = j
  · subst hj
    have hpos := List.count_pos_iff.mpr hi
    rw [List.count_erase_self, if_pos rfl]
    omega
  · rw [List.count_erase_of_ne (Ne.symm hj), if_neg hj, Nat.add_zero]

/-! ### Evicting the oldest pool -/

section Evict

variable {order : List (κ × Nat)}

/-- The loop keeps what it began with, if no entry is older, or ends with the key of an entry. -/
theorem oldest_fold (used : Nat → Nat) (order : List (κ × Nat)) (acc : κ × Nat) :
    order.foldl (fun acc entry => if used entry.2 < acc.2 then (entry.1, used entry.2) else acc)
        acc = acc ∧ (∀ entry ∈ order, acc.2 ≤ used entry.2) ∨
      ∃ entry ∈ order, (order.foldl
        (fun acc entry => if used entry.2 < acc.2 then (entry.1, used entry.2) else acc) acc).1 =
          entry.1 := by
  induction order generalizing acc with
  | nil => exact .inl ⟨rfl, fun _ hentry => by cases hentry⟩
  | cons entry order ih =>
    rw [List.foldl_cons]
    split
    next hlt =>
      refine .inr ?_
      rcases ih (entry.1, used entry.2) with ⟨heq, -⟩ | ⟨other, hother, heq⟩
      · exact ⟨entry, List.mem_cons_self, by rw [heq]⟩
      · exact ⟨other, List.mem_cons_of_mem _ hother, heq⟩
    next hge =>
      rcases ih acc with ⟨heq, hall⟩ | ⟨other, hother, heq⟩
      · refine .inl ⟨heq, fun other hother => ?_⟩
        rcases List.mem_cons.mp hother with rfl | htail
        · exact not_lt.mp hge
        · exact hall other htail
      · exact .inr ⟨other, List.mem_cons_of_mem _ hother, heq⟩

/-- The loop finds an entry of the cache, since all are older than the call. -/
theorem oldestKey_mem [Inhabited κ] (hperm : order.Perm s.pools) (hfull : 0 < s.pools.length)
    (hold : ∀ i, (s.pool i).used < s.serial) : s.oldestKey order ∈ s.pools.map (·.1) := by
  rcases oldest_fold (fun i => (s.pool i).used) order (default, s.serial) with
    ⟨-, hall⟩ | ⟨entry, hentry, heq⟩
  · obtain ⟨entry, hentry⟩ := List.exists_mem_of_length_pos (hperm.length_eq.symm ▸ hfull)
    have hle := hall entry hentry
    have hlt := hold entry.2
    exact absurd hle (not_le.mpr hlt)
  · exact List.mem_map.mpr ⟨entry, hperm.mem_iff.mp hentry, heq.symm⟩

theorem lookup_of_mem [DecidableEq κ] {pools : List (κ × Nat)} {key : κ}
    (hkey : key ∈ pools.map (·.1)) : ∃ i, pools.lookup key = some i ∧ (key, i) ∈ pools := by
  cases hlookup : pools.lookup key with
  | some i => exact ⟨i, rfl, List.mem_of_lookup hlookup⟩
  | none =>
    obtain ⟨entry, hentry, rfl⟩ := List.mem_map.mp hkey
    simpa using List.lookup_eq_none_iff.mp hlookup entry hentry

/-- Without the entry of a key, the cache has one reference to its pool less. -/
theorem filter_count [DecidableEq κ] {pools : List (κ × Nat)} {key : κ} (hnodup : (pools.map (·.1)).Nodup)
    (hmem : (key, i) ∈ pools) (j : Nat) :
    ((pools.filter (·.1 ≠ key)).map (·.2)).count j + (if i = j then 1 else 0) =
      (pools.map (·.2)).count j := by
  induction pools with
  | nil => cases hmem
  | cons entry pools ih =>
    obtain ⟨hnot, hnodup⟩ := List.nodup_cons.mp hnodup
    rcases List.mem_cons.mp hmem with rfl | hmem
    · have hkeep : pools.filter (·.1 ≠ key) = pools := by
        refine List.filter_eq_self.mpr fun other hother => ?_
        have hne : other.1 ≠ key := fun heq => hnot (heq ▸ List.mem_map_of_mem (f := (·.1)) hother)
        simpa using hne
      simp only [ne_eq, not_true_eq_false, decide_false, Bool.false_eq_true, not_false_eq_true,
        List.filter_cons_of_neg, List.map_cons, List.count_cons, beq_iff_eq]
      rw [hkeep]
    · have hkey : key ∈ pools.map (·.1) := List.mem_map.mpr ⟨_, hmem, rfl⟩
      have hne : entry.1 ≠ key := by
        rintro rfl
        exact hnot hkey
      have ih := ih hnodup hmem
      rw [List.filter_cons_of_pos (by simpa using hne)]
      simp only [List.map_cons, List.count_cons]
      omega

omit s i in
/-- `releaseLocked` leaves the cache alone. -/
theorem releaseBy_frame (s : PlannedTransport κ) (i : Nat) (cause : ClosedBy) :
    (s.releaseBy i cause).pools = s.pools ∧ (s.releaseBy i cause).closed = s.closed := by
  rcases releaseBy_cases s i cause with ⟨-, heq⟩ | ⟨-, -, heq⟩ | ⟨-, -, heq⟩
  all_goals
    rw [heq]
    exact ⟨rfl, rfl⟩

/-- The cache without the oldest entry. -/
theorem evict_inv [DecidableEq κ] [Inhabited κ] (h : Inv s) (hperm : order.Perm s.pools)
    (hfull : 0 < s.pools.length) (hold : ∀ i, (s.pool i).used < s.serial) :
    Inv (s.evict order) ∧ (s.evict order).pools.Sublist s.pools ∧
      (s.evict order).pools.length < s.pools.length ∧ (s.evict order).closed = s.closed := by
  obtain ⟨i, hlookup, hmem⟩ := lookup_of_mem (oldestKey_mem hperm hfull hold)
  have hevict : s.evict order =
      { s with pools := s.pools.filter (·.1 ≠ s.oldestKey order) }.releaseBy i .evict := by
    unfold evict
    dsimp only
    rw [hlookup]
  obtain ⟨hpools, hclosed⟩ := releaseBy_frame
    { s with pools := s.pools.filter (·.1 ≠ s.oldestKey order) } i .evict
  rw [hevict, hpools, hclosed]
  refine ⟨releaseBy_inv h List.filter_sublist fun j => ?_, List.filter_sublist, ?_, rfl⟩
  · have := filter_count h.keys hmem j
    unfold holders
    omega
  · exact List.length_filter_lt_length_iff_exists.mpr ⟨_, hmem, by simp⟩

end Evict

/-! ### The calls -/

theorem acquire_inv [DecidableEq κ] [Inhabited κ] (h : Inv s) {valid : Bool}
    {order : List (κ × Nat)} (hperm : order.Perm s.pools) : Inv (s.acquire key valid order).2 := by
  unfold acquire
  split
  next => exact h
  split
  next => exact h
  next hopen =>
    have hopen : s.closed = false := by simpa using hopen
    have htick := h.tick
    dsimp only
    split
    next i hlookup =>
      exact lease_inv htick hopen
        ((htick.owned hopen i).mpr (holders_pos_of_cached (List.mem_of_lookup hlookup)))
    next hlookup =>
      split
      next hfull =>
        obtain ⟨hevict, hsub, hlen, hclosed⟩ := evict_inv htick hperm
          (by dsimp only; omega) fun i => Nat.lt_succ_of_le (h.recent i)
        have hfew := h.few
        obtain ⟨hmade, howned⟩ := makePool_inv hevict (hclosed.trans hopen)
          (List.lookup_eq_none_iff.mpr fun entry hentry =>
            List.lookup_eq_none_iff.mp hlookup entry (hsub.subset hentry))
          (by dsimp only at hlen; omega)
        exact lease_inv hmade (hclosed.trans hopen) howned
      next hfew =>
        obtain ⟨hmade, howned⟩ := makePool_inv htick hopen hlookup (by dsimp only at hfew ⊢; omega)
        exact lease_inv hmade hopen howned

theorem retain_inv (h : Inv s) : Inv (s.retain i).2 := by
  unfold retain
  split
  next => exact h
  next hkeep =>
    simp only [Bool.or_eq_true, decide_eq_true_eq, not_or, Bool.not_eq_true, not_not] at hkeep
    exact lease_inv h.tick hkeep.1 hkeep.2

/-- The references of the cache go. -/
theorem dropAll_eq (s : PlannedTransport κ) (pools : List (κ × Nat)) :
    pools.foldl (fun s entry =>
        s.setPool entry.2 { s.pool entry.2 with refs := (s.pool entry.2).refs - 1 }) s =
      { s with pool := fun j =>
        { s.pool j with refs := (s.pool j).refs - (pools.map (·.2)).count j } } := by
  induction pools generalizing s with
  | nil => simp
  | cons entry pools ih =>
    rw [List.foldl_cons, ih]
    simp only [setPool, List.map_cons, List.count_cons]
    congr 1
    funext j
    by_cases hj : j = entry.2
    · subst hj
      simp
      omega
    · simp [hj, Ne.symm hj]

theorem close_inv (h : Inv s) : Inv s.close := by
  unfold close
  dsimp only
  rw [dropAll_eq]
  refine {
    h with
    counted := fun j => ?_, keys := List.nodup_nil, cached := List.nodup_nil, few := by simp
    recent := h.recent, fate := fun j => ?_, fresh := fun j hj => ?_
    owned := fun hc => by cases hc
    shut := fun _ => ⟨rfl, rfl⟩, idle := fun e he hne => ?_ }
  · have := h.counted j
    unfold holders at this ⊢
    simp only [List.map_nil, List.count_nil]
    omega
  · have hfate := h.fate j
    unfold callbacks at hfate ⊢
    have hmap : (s.owned.map fun i => (i, ClosedBy.close)).map (·.1) = s.owned := by
      rw [List.map_map]
      exact List.map_id _
    simp only [List.map_append, List.count_append, hmap, List.count_nil]
    omega
  · have := h.fresh j hj
    unfold holders at this ⊢
    simp only [List.map_nil, List.count_nil]
    omega
  · have hold : e ∈ s.running ∨ e ∈ s.ran := by
      refine he.imp_left fun he => (List.mem_append.mp he).resolve_left fun hnew => hne ?_
      obtain ⟨i, -, rfl⟩ := List.mem_map.mp hnew
      rfl
    have := h.idle e hold hne
    unfold holders at this ⊢
    simp only [List.map_nil, List.count_nil]
    omega

theorem callback_inv (h : Inv s) (he : e ∈ s.running) :
    Inv { s with running := s.running.erase e, ran := e :: s.ran } := by
  have hperm := List.perm_cons_erase he
  refine { h with fate := fun j => ?_, idle := fun x hx hne => h.idle x ?_ hne }
  · have hcount := (hperm.map (·.1)).count_eq j
    have hfate := h.fate j
    unfold callbacks at hfate ⊢
    simp only [List.map_cons, List.count_cons] at hcount ⊢
    omega
  · rcases hx with hx | hx
    · exact .inl (List.mem_of_mem_erase hx)
    · rcases List.mem_cons.mp hx with rfl | hx
      · exact .inl he
      · exact .inr hx

theorem start_inv : Inv ({} : PlannedTransport κ) where
  counted _ := rfl
  keys := List.nodup_nil
  cached := List.nodup_nil
  few := by simp
  recent _ := le_rfl
  fate i := by simp [callbacks]
  fresh _ _ := rfl
  owned _ i := by simp [holders]
  shut hc := by cases hc
  idle e he := by simp at he
  safe := rfl

theorem act_inv [DecidableEq κ] [Inhabited κ] {s' : PlannedTransport κ}
    {action : TransportAction κ} (h : Inv s) (hact : s.act action = some s') : Inv s' := by
  cases action with
  | acquire key valid order =>
    obtain ⟨hperm, heq⟩ := Option.ite_none_right_eq_some.mp hact
    cases heq
    exact acquire_inv h hperm
  | retain i =>
    cases hact
    exact retain_inv h
  | release i =>
    obtain ⟨hi, heq⟩ := Option.ite_none_right_eq_some.mp hact
    cases heq
    exact release_inv h hi
  | close =>
    cases hact
    exact close_inv h
  | callback i cause =>
    obtain ⟨he, heq⟩ := Option.ite_none_right_eq_some.mp hact
    cases heq
    exact callback_inv h he

theorem reachable_inv [DecidableEq κ] [Inhabited κ] (h : Reachable s) : Inv s :=
  h.invariant start_inv fun hs hact => act_inv hs hact

end

/-! ### What the callers rely on -/

/-- Whether a pool is in the cache. -/
def Cached (s : PlannedTransport κ) (i : Nat) : Prop := i ∈ s.pools.map (·.2)

instance (s : PlannedTransport κ) (i : Nat) : Decidable (s.Cached i) :=
  inferInstanceAs (Decidable (_ ∈ _))

/-- The lifetimes of the pools that were made. -/
structure PoolsKept (s : PlannedTransport κ) : Prop where
  /-- The references of a pool. -/
  counted : ∀ i < s.made, (s.pool i).refs = (if s.Cached i then 1 else 0) + s.leases.count i
  /-- A callback is taken once. -/
  once : ∀ i, s.callbacks i ≤ 1
  /-- A callback that was not taken by `close` is that of a pool without leases. -/
  idle : ∀ e, e ∈ s.running ∨ e ∈ s.ran → e.2 ≠ .close → s.leases.count e.1 = 0
  /-- A pool that nobody refers to is closed. -/
  gone : s.closed = false → ∀ i < s.made, ¬ s.Cached i → s.leases.count i = 0 → s.callbacks i = 1
  /-- After `close` all pools are closed, and nothing can be leased. -/
  shut : s.closed = true → (∀ i < s.made, s.callbacks i = 1) ∧
    (∀ key valid order, s.acquire key valid order = (none, s)) ∧ ∀ i, s.retain i = (false, s)
  few : s.pools.length ≤ 32
  safe : s.panicked = false

/-- **Upstream pools are closed exactly once and never under a live exchange**, in every state that
any interleaving of the calls and of the callbacks reaches. -/
theorem pools_kept {s : PlannedTransport κ} (h : Reachable s) : PoolsKept s := by
  have hinv := reachable_inv h
  have hcached : ∀ i, ((s.pools.map (·.2)).count i : Int) = if s.Cached i then 1 else 0 := by
    intro i
    split
    next hi => rw [List.count_eq_one_of_mem hinv.cached hi]; rfl
    next hi => rw [List.count_eq_zero_of_not_mem hi]; rfl
  refine {
    counted := fun i _ => ?_, once := fun i => ?_, idle := fun e he hne => ?_
    gone := fun hopen i hi hnot hnone => ?_, shut := fun hclosed => ⟨fun i hi => ?_, ?_, ?_⟩
    few := hinv.few, safe := hinv.safe }
  · rw [hinv.counted i, ← hcached i, holders, Nat.cast_add]
  · have hfate := hinv.fate i
    split at hfate <;> omega
  · have hidle := hinv.idle e he hne
    unfold holders at hidle
    omega
  · have hfree : s.holders i = 0 := by
      rw [holders, List.count_eq_zero_of_not_mem hnot, hnone]
    have hnotowned : i ∉ s.owned := fun howned => by
      have := (hinv.owned hopen i).mp howned
      omega
    have hfate := hinv.fate i
    rwa [List.count_eq_zero_of_not_mem hnotowned, if_pos hi, Nat.zero_add] at hfate
  · have hfate := hinv.fate i
    rwa [(hinv.shut hclosed).2, List.count_nil, if_pos hi, Nat.zero_add] at hfate
  · intro key valid order
    simp [acquire, hclosed]
  · intro i
    simp [retain, hclosed]

/-- A pool that is leased when the transport closes. -/
def sampleCalls : List (TransportAction Nat) :=
  [.acquire 5 true [], .acquire 6 true [(5, 0)], .release 0, .retain 1, .close, .callback 0 .close,
    .release 1]

theorem sampleCalls_possible : (Actions.play act {} sampleCalls).isSome = true := by
  decide +kernel

def sampleTransport : PlannedTransport Nat :=
  (Actions.play act {} sampleCalls).get sampleCalls_possible

theorem pools_kept_sample : sampleTransport.running = [(1, .close)] ∧
    sampleTransport.leases = [1] ∧ PoolsKept sampleTransport :=
  ⟨by decide +kernel, by decide +kernel,
    pools_kept (Actions.play_reaches (Option.some_get sampleCalls_possible).symm)⟩

end PlannedTransport

end Dae
