import Dae.Lib.Actions
import Dae.Lib.Signed

/-!
# The store of the DNS caches

`pkg/dnscache/store.go`: a map into a list of elements, the last one put or hit in front.  Two
limits bound the number of entries and the sum of their weights; an insertion removes elements
from the back of the list until it fits.
-/

namespace Dae.DnsCache

open Signed (wrap64 wrap64_eq)

/-- The record of an entry; `T` are the times. -/
structure Record (V T : Type) where
  value : V
  receivedAt : T
  expires : T

/-- An element of the list with what is stored in it.  Elements are told apart by identity. -/
structure Element (K V T : Type) where
  id : Nat
  key : K
  record : Record V T
  bytes : Int

/-- The store, without its counters of hits and misses; `fresh` is the identity of the next
element. -/
structure Store (K V T : Type) where
  limit : Int
  memoryLimit : Int
  bytes : Int := 0
  entries : List (K × Element K V T) := []
  lru : List (Element K V T) := []
  fresh : Nat := 0

variable {K V T : Type}

namespace Store

variable {s : Store K V T} {e : Element K V T} {bytes : Int} {key : K}

def weight (l : List (Element K V T)) : Int := (l.map (·.bytes)).sum

theorem weight_cons (l : List (Element K V T)) : weight (e :: l) = e.bytes + weight l := by
  simp [weight]

theorem weight_nonneg {l : List (Element K V T)} (h : ∀ e ∈ l, 0 ≤ e.bytes) : 0 ≤ weight l :=
  List.sum_nonneg (by simpa using h)

theorem weight_perm {l l' : List (Element K V T)} (h : l.Perm l') : weight l = weight l' :=
  (h.map _).sum_eq

variable [DecidableEq K]

def remove (s : Store K V T) (e : Element K V T) : Store K V T :=
  { s with
    entries := s.entries.filter (·.1 ≠ e.key)
    bytes := wrap64 (s.bytes - e.bytes)
    lru := s.lru.filter (·.id ≠ e.id) }

/-- `entries[key]` -/
def find (s : Store K V T) (key : K) : Option (Element K V T) :=
  (s.entries.find? (·.1 = key)).map (·.2)

/-- `get`, for `Get` and for `GetIfPresent`, which differ in the counters only. -/
def get [LinearOrder T] (s : Store K V T) (key : K) (now : T) : Option (Record V T) × Store K V T :=
  match s.find key with
  | none => (none, s)
  | some e =>
    if now < e.record.expires then
      (some e.record, { s with lru := e :: s.lru.filter (·.id ≠ e.id) })
    else
      (none, s.remove e)

/-- `Peek` -/
def peek (s : Store K V T) (key : K) : Option (Record V T) := (s.find key).map (·.record)

/-- The condition of the loop of `Put`. -/
def Full (s : Store K V T) (bytes : Int) : Prop :=
  s.limit ≤ s.entries.length ∨ 0 < s.memoryLimit ∧ wrap64 (s.memoryLimit - s.bytes) < bytes

instance : Decidable (s.Full bytes) := inferInstanceAs (Decidable (_ ∨ _))

/-- The loop of `Put`; the back of an empty list is a panic, and so is running out of rounds. -/
def evict (bytes : Int) : Nat → Store K V T → Option (Store K V T)
  | 0, _ => none
  | rounds + 1, s => if s.Full bytes then s.lru.getLast?.bind fun e => evict bytes rounds (s.remove e)
      else some s

/-- The map assignment and `PushFront`. -/
def insert (s : Store K V T) (key : K) (record : Record V T) (bytes : Int) : Store K V T :=
  let e := ⟨s.fresh, key, record, bytes⟩
  { s with
    entries := (key, e) :: s.entries.filter (·.1 ≠ key)
    lru := e :: s.lru
    bytes := wrap64 (s.bytes + bytes)
    fresh := s.fresh + 1 }

def limits (s : Store K V T) : Int × Int := (s.limit, s.memoryLimit)

/-- What `Put` refuses. -/
def Refuses (s : Store K V T) (bytes : Int) : Prop :=
  s.limit ≤ 0 ∨ bytes < 0 ∨ 0 < s.memoryLimit ∧ s.memoryLimit < bytes

instance : Decidable (s.Refuses bytes) := inferInstanceAs (Decidable (_ ∨ _ ∨ _))

def put (s : Store K V T) (key : K) (record : Record V T) (bytes : Int) :
    Option (Bool × Store K V T) :=
  if s.Refuses bytes then
    some (false, s)
  else
    let s := match s.find key with
      | none => s
      | some old => s.remove old
    (s.evict bytes (s.lru.length + 1)).map fun s => (true, s.insert key record bytes)

/-- `Expire`, over the entries in the order in which the map yields them. -/
def expire [LinearOrder T] (s : Store K V T) (now : T) (order : List (K × Element K V T)) : Store K V T :=
  order.foldl (fun s x => if now < x.2.record.expires then s else s.remove x.2) s

/-! ### The invariant -/

/-- The map and the list hold the same elements, one for a key, within the limits. -/
structure Inv (s : Store K V T) : Prop where
  entries : s.entries.Perm (s.lru.map fun e => (e.key, e))
  keys : (s.lru.map (·.key)).Nodup
  ids : (s.lru.map (·.id)).Nodup
  fresh : ∀ e ∈ s.lru, e.id < s.fresh
  nonneg : ∀ e ∈ s.lru, 0 ≤ e.bytes
  bytes : s.bytes = wrap64 (weight s.lru)
  length_le : (s.lru.length : Int) ≤ max s.limit 0
  weight_le : 0 < s.memoryLimit → weight s.lru ≤ s.memoryLimit
  memory_lt : s.memoryLimit < 2 ^ 63

/-- The elements for other keys. -/
def others (key : K) (l : List (Element K V T)) : List (Element K V T) := l.filter (·.key ≠ key)

/-- Of a list with distinct keys, one element and those for other keys. -/
theorem perm_others {l : List (Element K V T)} (hkeys : (l.map (·.key)).Nodup) (he : e ∈ l) :
    l.Perm (e :: others e.key l) := by
  induction l with
  | nil => cases he
  | cons x l ih =>
    rw [List.map_cons, List.nodup_cons] at hkeys
    rcases List.mem_cons.mp he with rfl | he
    · have hrest : others e.key l = l := List.filter_eq_self.mpr fun y hy => by
        have := List.mem_map_of_mem (f := (·.key)) hy
        grind
      simp [others] at hrest ⊢
      rw [List.filter_eq_self.mpr (by simpa using hrest)]
    · have hne : x.key ≠ e.key := fun heq => hkeys.1 (heq ▸ List.mem_map_of_mem he)
      have hcons : others e.key (x :: l) = x :: others e.key l := by simp [others, hne]
      rw [hcons]
      exact ((ih hkeys.2 he).cons x).trans (List.Perm.swap ..)

namespace Inv

theorem find_eq (h : s.Inv) : s.find key = some e ↔ e ∈ s.lru ∧ e.key = key := by
  have hkeys : (s.entries.map (·.1)).Nodup := by
    have hperm := h.entries.map (·.1)
    rw [List.map_map] at hperm
    exact hperm.nodup_iff.mpr h.keys
  have hmem : (key, e) ∈ s.entries ↔ e ∈ s.lru ∧ e.key = key := by
    rw [h.entries.mem_iff, List.mem_map]
    grind
  rw [← hmem, find, Option.map_eq_some_iff]
  constructor
  · rintro ⟨⟨k, x⟩, hfind, rfl⟩
    have hk : k = key := by simpa using List.find?_some hfind
    exact hk ▸ List.mem_of_find?_eq_some hfind
  · intro hin
    obtain ⟨x, hx⟩ := Option.isSome_iff_exists.mp
      ((List.find?_isSome (p := fun x : K × Element K V T => decide (x.1 = key))).mpr
        ⟨(key, e), hin, decide_eq_true rfl⟩)
    have hkey : x.1 = key := by simpa using List.find?_some hx
    have hsame := List.inj_on_of_nodup_map hkeys (List.mem_of_find?_eq_some hx) hin hkey
    exact ⟨x, hx, congrArg (·.2) hsame⟩

/-- Within a list of distinct keys and identities, both tell the elements apart. -/
theorem filter_id (h : s.Inv) (he : e ∈ s.lru) :
    s.lru.filter (·.id ≠ e.id) = others e.key s.lru := by
  refine List.filter_congr fun x hx => ?_
  have hid : x.id = e.id ↔ x = e := ⟨List.inj_on_of_nodup_map h.ids hx he, congrArg _⟩
  have hkey : x.key = e.key ↔ x = e := ⟨List.inj_on_of_nodup_map h.keys hx he, congrArg _⟩
  simp [hid, hkey]

omit [DecidableEq K] in
theorem bytes_eq (h : s.Inv) (hlimit : 0 < s.memoryLimit) : s.bytes = weight s.lru := by
  have := h.memory_lt
  have := h.weight_le hlimit
  have := weight_nonneg h.nonneg
  rw [h.bytes, wrap64_eq (by omega) (by omega)]

omit [DecidableEq K] in
/-- The invariant does not depend on the order of the list. -/
theorem of_perm (h : s.Inv) {lru : List (Element K V T)} (hperm : lru.Perm s.lru) :
    Inv { s with lru } where
  entries := h.entries.trans (hperm.map _).symm
  keys := (hperm.map _).nodup_iff.mpr h.keys
  ids := (hperm.map _).nodup_iff.mpr h.ids
  fresh e he := h.fresh e (hperm.mem_iff.mp he)
  nonneg e he := h.nonneg e (hperm.mem_iff.mp he)
  bytes := by rw [h.bytes, weight_perm hperm]
  length_le := by rw [hperm.length_eq]; exact h.length_le
  weight_le hlimit := by rw [weight_perm hperm]; exact h.weight_le hlimit
  memory_lt := h.memory_lt

theorem remove (h : s.Inv) (he : e ∈ s.lru) :
    (s.remove e).Inv ∧ (s.remove e).lru = others e.key s.lru := by
  have hlru : (s.remove e).lru = others e.key s.lru := h.filter_id he
  have hperm := perm_others h.keys he
  have hsub : (others e.key s.lru).Sublist s.lru := List.filter_sublist
  refine ⟨⟨?_, ?_, ?_, ?_, ?_, ?_, ?_, ?_, h.memory_lt⟩, hlru⟩
  · rw [hlru]
    refine (h.entries.filter _).trans (List.Perm.of_eq ?_)
    rw [List.filter_map]
    rfl
  · rw [hlru]
    exact h.keys.sublist (hsub.map _)
  · rw [hlru]
    exact h.ids.sublist (hsub.map _)
  · rw [hlru]
    exact fun x hx => h.fresh x (hsub.subset hx)
  · rw [hlru]
    exact fun x hx => h.nonneg x (hsub.subset hx)
  · rw [hlru]
    show wrap64 (s.bytes - e.bytes) = _
    rw [h.bytes, weight_perm hperm, weight_cons]
    simp [wrap64]
  · rw [hlru]
    have := h.length_le
    have := hsub.length_le
    show ((others e.key s.lru).length : Int) ≤ max s.limit 0
    omega
  · rw [hlru]
    intro hlimit
    have hweight := h.weight_le hlimit
    have hpos := h.nonneg e he
    rw [weight_perm hperm, weight_cons] at hweight
    show weight (others e.key s.lru) ≤ s.memoryLimit
    omega

end Inv

/-- The list does not leave room for the weight. -/
def Overfull (s : Store K V T) (bytes : Int) (l : List (Element K V T)) : Prop :=
  s.limit ≤ l.length ∨ 0 < s.memoryLimit ∧ s.memoryLimit - weight l < bytes

omit [DecidableEq K] in
theorem Inv.full_iff (h : s.Inv) : s.Full bytes ↔ s.Overfull bytes s.lru := by
  have hlength : s.entries.length = s.lru.length := by rw [h.entries.length_eq, List.length_map]
  unfold Full Overfull
  rw [hlength]
  refine or_congr_right (and_congr_right fun hlimit => ?_)
  have := h.memory_lt
  have := h.weight_le hlimit
  have := weight_nonneg h.nonneg
  rw [h.bytes_eq hlimit, wrap64_eq (by omega) (by omega)]

/-- The loop of `Put` ends, and removes from the back as little as it has to. -/
theorem Inv.evict (h : s.Inv) (hbytes : ¬s.Refuses bytes) {rounds : Nat}
    (hrounds : s.lru.length < rounds) :
    ∃ s', s.evict bytes rounds = some s' ∧ s'.Inv ∧ s'.lru <+: s.lru ∧ ¬s.Overfull bytes s'.lru ∧
      (∀ l, l <+: s.lru → s'.lru.length < l.length → s.Overfull bytes l) ∧
      (s'.limit, s'.memoryLimit, s'.fresh) = (s.limit, s.memoryLimit, s.fresh) := by
  induction rounds generalizing s with
  | zero => omega
  | succ rounds ih =>
    rw [Store.evict]
    by_cases hfull : s.Full bytes
    · rw [if_pos hfull]
      rw [h.full_iff] at hfull
      rcases List.eq_nil_or_concat s.lru with hnil | ⟨front, e, hlru⟩
      · -- an empty list has room
        simp only [hnil, Overfull, weight, Refuses] at hfull hbytes
        simp at hfull
        omega
      rw [List.concat_eq_append] at hlru
      have he : e ∈ s.lru := by simp [hlru]
      obtain ⟨hinv, hothers⟩ := h.remove he
      have hfront : others e.key s.lru = front := by
        have hne : ∀ x ∈ front, x.key ≠ e.key := by
          intro x hx heq
          have hkeys := h.keys
          rw [hlru, List.map_append, List.nodup_append] at hkeys
          exact hkeys.2.2 x.key (List.mem_map_of_mem hx) e.key (by simp) heq
        simpa [others, hlru, List.filter_eq_self] using hne
      rw [hfront] at hothers
      obtain ⟨s', hrun, hinv', hpre, hroom, hneeded, hframe⟩ :=
        ih hinv hbytes (by rw [hothers]; rw [hlru] at hrounds; simp at hrounds; omega)
      rw [hothers] at hpre hneeded
      refine ⟨s', by simp [hlru, hrun], hinv', ?_, hroom, ?_, hframe⟩
      · exact hpre.trans (hlru ▸ List.prefix_append ..)
      · intro l hl hlong
        rw [hlru] at hl hfull
        rcases List.prefix_concat_iff.mp hl with rfl | hl
        · exact hfull
        · exact hneeded l hl hlong
    · rw [if_neg hfull]
      rw [h.full_iff] at hfull
      exact ⟨s, rfl, h, List.prefix_rfl, hfull, fun l hl hlong =>
        absurd hl.length_le (Nat.not_le.mpr hlong), rfl⟩

/-- **`Put` ends**, and keeps the longest part of the list that leaves room for the new element. -/
theorem Inv.put (h : s.Inv) (key : K) (record : Record V T) (hbytes : ¬s.Refuses bytes) :
    ∃ s' kept, s.put key record bytes = some (true, s') ∧ s'.Inv ∧
      s'.lru = ⟨s.fresh, key, record, bytes⟩ :: kept ∧ kept <+: others key s.lru ∧
      ¬s.Overfull bytes kept ∧
      (∀ l, l <+: others key s.lru → kept.length < l.length → s.Overfull bytes l) ∧
      s'.limits = s.limits := by
  -- the store without an old element
  obtain ⟨t, ht, hinv, hlru, hframe⟩ : ∃ t, (match s.find key with
      | none => s
      | some old => s.remove old) = t ∧ t.Inv ∧ t.lru = others key s.lru ∧
      (t.limit, t.memoryLimit, t.fresh) = (s.limit, s.memoryLimit, s.fresh) := by
    cases hfind : s.find key with
    | none =>
      refine ⟨s, rfl, h, (List.filter_eq_self.mpr fun e he => ?_).symm, rfl⟩
      have : e.key ≠ key := fun heq => by
        rw [h.find_eq.mpr ⟨he, heq⟩] at hfind
        cases hfind
      simpa using this
    | some old =>
      obtain ⟨hmem, rfl⟩ := h.find_eq.mp hfind
      obtain ⟨hinv, hlru⟩ := h.remove hmem
      exact ⟨_, rfl, hinv, hlru, rfl⟩
  simp only [Prod.mk.injEq] at hframe
  obtain ⟨hlimit, hmemory, hfresh⟩ := hframe
  have hover : ∀ l, t.Overfull bytes l ↔ s.Overfull bytes l := by simp [Overfull, hlimit, hmemory]
  have haccepts : ¬t.Refuses bytes := by simpa [Refuses, hlimit, hmemory] using hbytes
  obtain ⟨u, hrun, hu, hpre, hroom, hneeded, hframe⟩ := hinv.evict haccepts (Nat.lt_succ_self _)
  rw [hlru] at hpre hneeded
  simp only [hover] at hroom hneeded
  simp only [Prod.mk.injEq, hlimit, hmemory, hfresh] at hframe
  refine ⟨u.insert key record bytes, u.lru, ?_, ?_, ?_, hpre, hroom, hneeded,
    Prod.ext hframe.1 hframe.2.1⟩
  · rw [Store.put, if_neg hbytes, ht]
    show Option.map _ (Store.evict bytes t.lru.length.succ t) = _
    rw [hrun]
    rfl
  · have hnew : ∀ e ∈ u.lru, e.key ≠ key := fun e he => by
      simpa [others] using (List.mem_filter.mp (hpre.subset he)).2
    simp only [Refuses] at hbytes
    simp only [Overfull] at hroom
    refine ⟨?_, ?_, ?_, ?_, ?_, ?_, ?_, ?_, hu.memory_lt⟩
    · have hsame : u.entries.filter (·.1 ≠ key) = u.entries := List.filter_eq_self.mpr fun x hx => by
        obtain ⟨e, he, rfl⟩ := List.mem_map.mp (hu.entries.mem_iff.mp hx)
        simpa using hnew e he
      show (_ :: u.entries.filter _).Perm _
      rw [hsame]
      exact hu.entries.cons _
    · refine List.nodup_cons.mpr ⟨?_, hu.keys⟩
      simpa using fun e he => hnew e he
    · refine List.nodup_cons.mpr ⟨?_, hu.ids⟩
      simpa using fun e he => (hu.fresh e he).ne
    · rintro e (_ | ⟨_, he⟩)
      · exact Nat.lt_succ_self _
      · exact (hu.fresh e he).trans (Nat.lt_succ_self _)
    · rintro e (_ | ⟨_, he⟩)
      · show 0 ≤ bytes
        omega
      · exact hu.nonneg e he
    · show wrap64 (u.bytes + bytes) = wrap64 (weight (_ :: u.lru))
      rw [hu.bytes, weight_cons]
      simp [wrap64, add_comm]
    · show ((u.lru.length + 1 : Nat) : Int) ≤ max u.limit 0
      omega
    · intro hlimit
      show weight (_ :: u.lru) ≤ u.memoryLimit
      rw [weight_cons]
      show bytes + weight u.lru ≤ u.memoryLimit
      change 0 < u.memoryLimit at hlimit
      omega
  · rw [← hframe.2.2]
    rfl

variable [LinearOrder T]

theorem Inv.expire_aux (h : s.Inv) (now : T) {order : List (K × Element K V T)}
    (hmem : ∀ x ∈ order, x.2 ∈ s.lru) (hkeys : (order.map (·.2.key)).Nodup) :
    (s.expire now order).Inv ∧ (s.expire now order).lru =
      s.lru.filter fun e => now < e.record.expires ∨ e.key ∉ order.map (·.2.key) := by
  induction order generalizing s with
  | nil => exact ⟨h, by simp [expire]⟩
  | cons x order ih =>
    rw [List.map_cons, List.nodup_cons] at hkeys
    have hx := hmem x List.mem_cons_self
    by_cases hlive : now < x.2.record.expires
    · obtain ⟨hinv, hlru⟩ := ih h (fun y hy => hmem y (List.mem_cons_of_mem _ hy)) hkeys.2
      have hstep : s.expire now (x :: order) = s.expire now order := by simp [expire, hlive]
      refine ⟨hstep ▸ hinv, ?_⟩
      rw [hstep, hlru]
      refine List.filter_congr fun e he => ?_
      have : e.key = x.2.key → e = x.2 := List.inj_on_of_nodup_map h.keys he hx
      grind
    · obtain ⟨hremove, hothers⟩ := h.remove hx
      obtain ⟨hinv, hlru⟩ := ih hremove (fun y hy => by
        have hne : y.2.key ≠ x.2.key := fun heq =>
          hkeys.1 (heq ▸ List.mem_map_of_mem (f := (·.2.key)) hy)
        rw [hothers]
        exact List.mem_filter.mpr ⟨hmem y (List.mem_cons_of_mem _ hy), by simpa using hne⟩) hkeys.2
      have hstep : s.expire now (x :: order) = (s.remove x.2).expire now order := by
        simp [expire, hlive]
      refine ⟨hstep ▸ hinv, ?_⟩
      rw [hstep, hlru, hothers, others, List.filter_filter]
      refine List.filter_congr fun e he => ?_
      have : e.key = x.2.key → e = x.2 := List.inj_on_of_nodup_map h.keys he hx
      grind

/-- `Expire` keeps the elements that have not expired, in whatever order the map is walked. -/
theorem Inv.expire (h : s.Inv) (now : T) {order : List (K × Element K V T)}
    (horder : order.Perm s.entries) :
    (s.expire now order).Inv ∧
      (s.expire now order).lru = s.lru.filter fun e => now < e.record.expires := by
  have hperm := horder.trans h.entries
  have hkeys : (order.map (·.2.key)).Perm (s.lru.map (·.key)) := by
    have hmap := hperm.map (·.2.key)
    rwa [List.map_map] at hmap
  obtain ⟨hinv, hlru⟩ := h.expire_aux now (fun x hx => by
    obtain ⟨e, he, rfl⟩ := List.mem_map.mp (hperm.mem_iff.mp hx)
    exact he) (hkeys.nodup_iff.mpr h.keys)
  refine ⟨hinv, hlru.trans (List.filter_congr fun e he => ?_)⟩
  have : e.key ∈ order.map (·.2.key) := hkeys.mem_iff.mpr (List.mem_map_of_mem he)
  simp [this]

theorem limits_expire (now : T) (order : List (K × Element K V T)) :
    (s.expire now order).limits = s.limits := by
  induction order generalizing s with
  | nil => rfl
  | cons x order ih =>
    refine (ih (s := if now < x.2.record.expires then s else s.remove x.2)).trans ?_
    split <;> rfl

theorem limits_get (key : K) (now : T) : (s.get key now).2.limits = s.limits := by
  unfold Store.get
  split
  · rfl
  · split <;> rfl

/-- A hit moves its element to the front; an element that has expired is removed. -/
theorem Inv.get (h : s.Inv) (key : K) (now : T) :
    (s.get key now).2.Inv ∧
      ((∃ e ∈ s.lru, e.key = key ∧ now < e.record.expires ∧ (s.get key now).1 = some e.record ∧
          (s.get key now).2.lru = e :: others key s.lru) ∨
        (s.get key now).1 = none ∧ (s.get key now).2.lru =
          s.lru.filter fun e => now < e.record.expires ∨ e.key ≠ key) := by
  unfold Store.get
  cases hfind : s.find key with
  | none =>
    have hnone : ∀ e ∈ s.lru, e.key ≠ key := fun e he heq => by
      rw [h.find_eq.mpr ⟨he, heq⟩] at hfind
      cases hfind
    exact ⟨h, .inr ⟨rfl, (List.filter_eq_self.mpr (by simpa using fun e he => .inr (hnone e he))).symm⟩⟩
  | some e =>
    obtain ⟨he, rfl⟩ := h.find_eq.mp hfind
    by_cases hlive : now < e.record.expires
    · simp only [if_pos hlive, h.filter_id he]
      exact ⟨h.of_perm (perm_others h.keys he).symm, .inl ⟨e, he, rfl, hlive, rfl, rfl⟩⟩
    · obtain ⟨hinv, hlru⟩ := h.remove he
      simp only [if_neg hlive]
      refine ⟨hinv, .inr ⟨trivial, hlru.trans (List.filter_congr fun x hx => ?_)⟩⟩
      have : x.key = e.key → x = e := List.inj_on_of_nodup_map h.keys hx he
      grind

end Store

/-! ### Runs -/

/-- The operations; the order in which `Expire` walks the map is any. -/
inductive Op (K V T : Type) where
  | put (key : K) (record : Record V T) (bytes : Int)
  | get (key : K) (now : T)
  | peek (key : K)
  | expire (now : T) (order : List (K × Element K V T) → List (K × Element K V T))

def Op.Valid : Op K V T → Prop
  | .expire _ order => ∀ l, (order l).Perm l
  | _ => True

/-- The store with what has happened: when each key was last put or hit, and the record that was
last put for it. -/
structure History (K V T : Type) where
  store : Store K V T
  clock : Nat := 0
  touched : K → Nat := fun _ => 0
  last : K → Option (Record V T) := fun _ => none

variable [DecidableEq K]

/-- A key is put or hit. -/
def History.touch (h : History K V T) (store : Store K V T) (key : K)
    (last : K → Option (Record V T)) : History K V T :=
  { store, last, clock := h.clock + 1, touched := Function.update h.touched key (h.clock + 1) }

/-- One operation; `none` is a panic. -/
def History.act [LinearOrder T] (h : History K V T) : Op K V T → Option (History K V T)
  | .put key record bytes => (h.store.put key record bytes).map fun
    | (true, store) => h.touch store key (Function.update h.last key (some record))
    | (false, store) => { h with store }
  | .get key now =>
    match h.store.get key now with
    | (some _, store) => some (h.touch store key h.last)
    | (none, store) => some { h with store }
  | .peek _ => some h
  | .expire now order => some { h with store := h.store.expire now (order h.store.entries) }

/-- The list is in the order of the last hit or insertion, and each element has the record that
was last put for its key. -/
structure History.Tracked (h : History K V T) : Prop where
  inv : h.store.Inv
  touched_le : ∀ e ∈ h.store.lru, h.touched e.key ≤ h.clock
  sorted : h.store.lru.Pairwise fun e e' => h.touched e'.key < h.touched e.key
  last_eq : ∀ e ∈ h.store.lru, h.last e.key = some e.record

section Tracked

variable {h : History K V T} {s : Store K V T}

omit [DecidableEq K] in
theorem History.Tracked.keep (ht : h.Tracked) (hs : s.Inv) (hsub : s.lru.Sublist h.store.lru) :
    History.Tracked { h with store := s } :=
  ⟨hs, fun e he => ht.touched_le e (hsub.subset he), ht.sorted.sublist hsub,
    fun e he => ht.last_eq e (hsub.subset he)⟩

theorem History.Tracked.touch (ht : h.Tracked) (hs : s.Inv) {e : Element K V T}
    {rest : List (Element K V T)} (hlru : s.lru = e :: rest) (hsub : rest.Sublist h.store.lru)
    {last : K → Option (Record V T)} (he : last e.key = some e.record)
    (hlast : ∀ x ∈ rest, last x.key = h.last x.key) : (h.touch s e.key last).Tracked := by
  have hkeys := hs.keys
  rw [hlru, List.map_cons, List.nodup_cons] at hkeys
  have hne : ∀ x ∈ rest, x.key ≠ e.key := fun x hx heq =>
    hkeys.1 (heq ▸ List.mem_map_of_mem hx)
  have hrest : ∀ x ∈ rest, h.touched x.key ≤ h.clock := fun x hx =>
    ht.touched_le x (hsub.subset hx)
  refine ⟨hs, ?_, ?_, ?_⟩
  · intro x hx
    simp only [History.touch, hlru, Function.update_apply] at hx ⊢
    grind
  · simp only [History.touch, hlru, List.pairwise_cons]
    refine ⟨fun x hx => ?_, (ht.sorted.sublist hsub).imp_of_mem fun {x y} hx hy hlt => ?_⟩
    · simpa [hne x hx] using Nat.lt_succ_of_le (hrest x hx)
    · simpa [hne x hx, hne y hy] using hlt
  · intro x hx
    simp only [History.touch, hlru] at hx ⊢
    rcases List.mem_cons.mp hx with rfl | hx
    · exact he
    · rw [hlast x hx, ht.last_eq x (hsub.subset hx)]

end Tracked

variable [LinearOrder T]

/-- Why an element may leave the store: its time is over, or no part of the list down to it leaves
room for a new element. -/
def Op.Removes (s : Store K V T) (e : Element K V T) : Op K V T → Prop
  | .put key _ bytes => ∀ l, l <+: Store.others key s.lru → e ∈ l → s.Overfull bytes l
  | .get key now => e.key = key ∧ ¬now < e.record.expires
  | .peek _ => False
  | .expire now _ => ¬now < e.record.expires

/-- One operation does not panic; it keeps the order, and every element that it has no reason to
remove. -/
theorem History.Tracked.act {h : History K V T} (ht : h.Tracked) {op : Op K V T}
    (hop : op.Valid) :
    ∃ h', h.act op = some h' ∧ h'.Tracked ∧ h'.store.limits = h.store.limits ∧
      ∀ e ∈ h.store.lru, (∃ e' ∈ h'.store.lru, e'.key = e.key) ∨ op.Removes h.store e := by
  cases op with
  | put key record bytes =>
    by_cases hrefuse : h.store.Refuses bytes
    · exact ⟨h, by simp [History.act, Store.put, hrefuse], ht, rfl, fun e he => .inl ⟨e, he, rfl⟩⟩
    obtain ⟨s, kept, hput, hinv, hlru, hpre, -, hneeded, hlimits⟩ :=
      ht.inv.put key record hrefuse
    have hother : ∀ x ∈ kept, x.key ≠ key := fun x hx => by
      simpa [Store.others] using (List.mem_filter.mp (hpre.subset hx)).2
    refine ⟨_, by rw [History.act, hput]; rfl,
      ht.touch hinv hlru (hpre.sublist.trans List.filter_sublist) (Function.update_self ..)
        fun x hx => Function.update_of_ne (hother x hx) .., hlimits, fun e he => ?_⟩
    show (∃ e' ∈ s.lru, e'.key = e.key) ∨ _
    rw [hlru]
    by_cases hkey : e.key = key
    · exact .inl ⟨_, List.mem_cons_self, hkey.symm⟩
    by_cases hmem : e ∈ kept
    · exact .inl ⟨e, List.mem_cons_of_mem _ hmem, rfl⟩
    refine .inr fun l hl hin => hneeded l hl (Nat.lt_of_not_le fun hshort => hmem ?_)
    exact (List.prefix_of_prefix_length_le hl hpre hshort).subset hin
  | get key now =>
    obtain ⟨hinv, hcases⟩ := ht.inv.get key now
    have hlimits := Store.limits_get (s := h.store) key now
    rw [History.act]
    generalize h.store.get key now = result at hinv hcases hlimits ⊢
    obtain ⟨hit, s⟩ := result
    rcases hcases with ⟨x, hx, rfl, -, rfl, hlru⟩ | ⟨rfl, hlru⟩
    · refine ⟨_, rfl, ht.touch hinv hlru List.filter_sublist (ht.last_eq x hx) fun _ _ => rfl,
        hlimits, fun e he => .inl ?_⟩
      show ∃ e' ∈ s.lru, e'.key = e.key
      rw [show s.lru = _ from hlru]
      by_cases hkey : e.key = x.key
      · exact ⟨x, List.mem_cons_self, hkey.symm⟩
      · exact ⟨e, List.mem_cons_of_mem _ (List.mem_filter.mpr ⟨he, by simpa using hkey⟩), rfl⟩
    · change s.lru = _ at hlru
      refine ⟨_, rfl, ht.keep hinv (hlru ▸ List.filter_sublist), hlimits, fun e he => ?_⟩
      by_cases hkept : now < e.record.expires ∨ e.key ≠ key
      · exact .inl ⟨e, hlru ▸ List.mem_filter.mpr ⟨he, decide_eq_true hkept⟩, rfl⟩
      · exact .inr (by simpa [Op.Removes, and_comm] using hkept)
  | peek key => exact ⟨h, rfl, ht, rfl, fun e he => .inl ⟨e, he, rfl⟩⟩
  | expire now order =>
    obtain ⟨hinv, hlru⟩ := ht.inv.expire now (hop h.store.entries)
    refine ⟨_, rfl, ht.keep hinv (hlru ▸ List.filter_sublist), Store.limits_expire now _,
      fun e he => ?_⟩
    by_cases hlive : now < e.record.expires
    · exact .inl ⟨e, hlru ▸ List.mem_filter.mpr ⟨he, decide_eq_true hlive⟩, rfl⟩
    · exact .inr hlive

theorem History.Tracked.play {h : History K V T} (ht : h.Tracked) {ops : List (Op K V T)}
    (hops : ∀ op ∈ ops, op.Valid) :
    ∃ h', Actions.play History.act h ops = some h' ∧ h'.Tracked ∧
      h'.store.limits = h.store.limits := by
  induction ops generalizing h with
  | nil => exact ⟨h, rfl, ht, rfl⟩
  | cons op ops ih =>
    obtain ⟨h₁, hact, ht₁, hlimits, -⟩ := ht.act (hops op List.mem_cons_self)
    obtain ⟨h₂, hplay, ht₂, hlimits'⟩ := ih ht₁ fun op hop => hops op (List.mem_cons_of_mem _ hop)
    exact ⟨h₂, by rw [Actions.play, hact, Option.bind_some, hplay], ht₂, hlimits'.trans hlimits⟩

/-- `Get` returns the record of the last `Put` while it has neither expired nor been removed. -/
theorem History.Tracked.get_iff {h : History K V T} (ht : h.Tracked) {key : K} {now : T}
    {r : Record V T} : (h.store.get key now).1 = some r ↔
      (∃ e ∈ h.store.lru, e.key = key) ∧ h.last key = some r ∧ now < r.expires := by
  obtain ⟨-, ⟨e, he, rfl, hlive, hhit, -⟩ | ⟨hmiss, hlru⟩⟩ := ht.inv.get key now
  · have hlast := ht.last_eq e he
    constructor
    · intro hget
      cases hhit.symm.trans hget
      exact ⟨⟨e, he, rfl⟩, hlast, hlive⟩
    · rintro ⟨-, hr, -⟩
      rw [hhit, ← hlast, hr]
  · constructor
    · intro hget
      cases hmiss.symm.trans hget
    · rintro ⟨⟨e, he, rfl⟩, hr, hlive⟩
      cases (ht.last_eq e he).symm.trans hr
      exact absurd hmiss (by
        rw [Store.get, ht.inv.find_eq.mpr ⟨he, rfl⟩]
        simp [hlive])

end Dae.DnsCache
