import Mathlib

/-!
# Prefix trees over sorted lists

A node of a prefix tree is the list of the strings below it, in strict order.  Its
branches are the groups of neighbours with the same first letter; in a sorted list
these are all strings with that letter.

* `exists_prefix_iff_descend` — a string is a prefix of a word exactly when the way of
  the word down the tree meets the end of a string;
* `card_prefixes` — the nodes of the tree are the prefixes of its strings.
-/

namespace PrefixTree

variable {β : Type} [DecidableEq β]

/-- The groups of neighbours with the same first letter, without that letter. -/
def branches : List (List β) → List (β × List (List β))
  | [] => []
  | [] :: rest => branches rest
  | (c :: t) :: rest =>
    match branches rest with
    | [] => [(c, [t])]
    | (d, ts) :: groups =>
      if c = d then (c, t :: ts) :: groups else (c, [t]) :: (d, ts) :: groups

theorem branches_cons_cons (c : β) (t : List β) (rest : List (List β)) :
    ∃ ts groups, branches ((c :: t) :: rest) = (c, t :: ts) :: groups := by
  rw [branches]
  split
  · exact ⟨_, _, rfl⟩
  · split
    · exact ⟨_, _, rfl⟩
    · exact ⟨_, _, rfl⟩

/-- A run of strings with one first letter is the first branch. -/
theorem branches_run {c : β} {t : List β} {ts rest : List (List β)}
    (h : ∀ s, rest.head? = some s → ∃ d u, s = d :: u ∧ d ≠ c) :
    branches ((t :: ts).map (c :: ·) ++ rest) = (c, t :: ts) :: branches rest := by
  induction ts generalizing t with
  | nil =>
    show branches ((c :: t) :: rest) = _
    cases rest with
    | nil => rfl
    | cons s rest =>
      obtain ⟨d, u, rfl, hne⟩ := h s rfl
      obtain ⟨us, groups, hd⟩ := branches_cons_cons d u rest
      rw [branches, hd]
      exact if_neg (Ne.symm hne)
  | cons t' ts ih =>
    rw [List.map_cons, List.cons_append, branches, ih]
    exact if_pos rfl

/-- The way of a word down the tree: it stops where a string ends, and gets lost where
its letter has no branch. -/
def descend : List β → List (List β) → Option (List (List β))
  | [], S => some S
  | c :: word, S =>
    if [] ∈ S then some S
    else
      match (branches S).find? (fun g => g.1 = c) with
      | none => none
      | some g => descend word g.2

theorem descend_of_mem {S : List (List β)} (h : [] ∈ S) (word : List β) :
    descend word S = some S := by
  cases word with
  | nil => rfl
  | cons c word => rw [descend, if_pos h]

/-- A way can be interrupted. -/
theorem descend_append (word word' : List β) (S : List (List β)) :
    descend (word ++ word') S = (descend word S).bind (descend word') := by
  induction word generalizing S with
  | nil => rfl
  | cons c word ih =>
    rw [List.cons_append, descend, descend]
    by_cases hnil : [] ∈ S
    · rw [if_pos hnil, if_pos hnil, Option.bind_some, descend_of_mem hnil]
    · rw [if_neg hnil, if_neg hnil]
      cases (branches S).find? (fun g => g.1 = c) with
      | none => rfl
      | some g => exact ih g.2

section Sorted

variable [LT β] [Std.Irrefl (fun a b : β => a < b)] [IsTrans β (fun a b => a < b)]

variable {S : List (List β)}

/-- **The branches of a sorted list**: their letters ascend, and each holds the sorted
rests of the strings that start with its letter. -/
theorem branches_spec (h : S.Pairwise (· < ·)) :
    ((branches S).map Prod.fst).Pairwise (· < ·) ∧
      (∀ g ∈ branches S, g.2.Pairwise (· < ·) ∧ g.2 ≠ [] ∧ ∀ t, t ∈ g.2 ↔ g.1 :: t ∈ S) ∧
      ∀ c t, c :: t ∈ S → ∃ g ∈ branches S, g.1 = c := by
  fun_induction branches S with
  | case1 => exact ⟨.nil, by simp, by simp⟩
  | case2 rest ih =>
    obtain ⟨hletters, hgroups, hall⟩ := ih h.of_cons
    refine ⟨hletters, ?_, ?_⟩
    · intro g hg
      obtain ⟨hsorted, hne, hmem⟩ := hgroups g hg
      exact ⟨hsorted, hne, by simpa using hmem⟩
    · intro c t ht
      exact hall c t (by simpa using ht)
  | case3 c t rest hnone ih =>
    obtain ⟨-, -, hall⟩ := ih h.of_cons
    have hrest : ∀ d u, d :: u ∉ rest := by
      intro d u hu
      obtain ⟨g, hg, -⟩ := hall d u hu
      rw [hnone] at hg
      cases hg
    refine ⟨List.pairwise_singleton _ _, ?_, ?_⟩
    · intro g hg
      cases List.mem_singleton.mp hg
      refine ⟨List.pairwise_singleton _ _, List.cons_ne_nil _ _, ?_⟩
      intro u
      simp [hrest]
    · intro d u hu
      rcases List.mem_cons.mp hu with hu | hu
      · cases hu
        exact ⟨_, List.mem_singleton_self _, rfl⟩
      · exact absurd hu (hrest d u)
  | case4 t rest d ts groups hsome ih =>
    obtain ⟨hletters, hgroups, hall⟩ := ih h.of_cons
    rw [hsome] at hletters hgroups hall
    obtain ⟨hsorted, hne, hmem⟩ := hgroups (d, ts) List.mem_cons_self
    have hlater : ∀ g ∈ groups, d < g.1 := by
      intro g hg
      exact List.rel_of_pairwise_cons hletters (List.mem_map_of_mem hg)
    refine ⟨hletters, ?_, ?_⟩
    · intro g hg
      rcases List.mem_cons.mp hg with rfl | hg
      · refine ⟨List.pairwise_cons.mpr ⟨?_, hsorted⟩, List.cons_ne_nil _ _, ?_⟩
        · intro u hu
          exact List.cons_lt_cons_self.mp (List.rel_of_pairwise_cons h ((hmem u).mp hu))
        · intro u
          rw [List.mem_cons, List.mem_cons, hmem u]
          simp
      · obtain ⟨hsorted', hne', hmem'⟩ := hgroups g (List.mem_cons_of_mem _ hg)
        have hlt := hlater g hg
        refine ⟨hsorted', hne', ?_⟩
        intro u
        have hnot : g.1 :: u ≠ d :: t := by
          intro heq
          rw [(List.cons.inj heq).1] at hlt
          exact Std.Irrefl.irrefl _ hlt
        rw [hmem' u, List.mem_cons]
        simp [hnot]
    · intro c u hu
      rcases List.mem_cons.mp hu with hu | hu
      · cases hu
        exact ⟨_, List.mem_cons_self, rfl⟩
      · obtain ⟨g, hg, hgc⟩ := hall c u hu
        rcases List.mem_cons.mp hg with rfl | hg
        · exact ⟨_, List.mem_cons_self, hgc⟩
        · exact ⟨g, List.mem_cons_of_mem _ hg, hgc⟩
  | case5 c t rest d ts groups hsome hcd ih =>
    obtain ⟨hletters, hgroups, hall⟩ := ih h.of_cons
    rw [hsome] at hletters hgroups hall
    obtain ⟨-, hne, hmem⟩ := hgroups (d, ts) List.mem_cons_self
    -- the first rest of the group below stands behind `c :: t`
    have hlt : c < d := by
      obtain ⟨u, hu⟩ := List.exists_mem_of_ne_nil ts hne
      rcases List.cons_lt_cons_iff.mp (List.rel_of_pairwise_cons h ((hmem u).mp hu)) with hlt | hlt
      · exact hlt
      · exact absurd hlt.1 hcd
    have hlater : ∀ g ∈ (d, ts) :: groups, c < g.1 := by
      intro g hg
      rcases List.mem_cons.mp hg with rfl | hg
      · exact hlt
      · exact IsTrans.trans _ _ _ hlt
          (List.rel_of_pairwise_cons hletters (List.mem_map_of_mem hg))
    have hfirst : ∀ u, c :: u ∉ rest := by
      intro u hu
      obtain ⟨g, hg, hgc⟩ := hall c u hu
      exact Std.Irrefl.irrefl c (hgc ▸ hlater g hg)
    refine ⟨List.pairwise_cons.mpr ⟨?_, hletters⟩, ?_, ?_⟩
    · intro e he
      obtain ⟨g, hg, rfl⟩ := List.mem_map.mp he
      exact hlater g hg
    · intro g hg
      rcases List.mem_cons.mp hg with rfl | hg
      · refine ⟨List.pairwise_singleton _ _, List.cons_ne_nil _ _, ?_⟩
        intro u
        simp [hfirst]
      · obtain ⟨hsorted', hne', hmem'⟩ := hgroups g hg
        have hlt' := hlater g hg
        refine ⟨hsorted', hne', ?_⟩
        intro u
        have hnot : g.1 :: u ≠ c :: t := by
          intro heq
          rw [(List.cons.inj heq).1] at hlt'
          exact Std.Irrefl.irrefl _ hlt'
        rw [hmem' u, List.mem_cons]
        simp [hnot]
    · intro e u hu
      rcases List.mem_cons.mp hu with hu | hu
      · cases hu
        exact ⟨_, List.mem_cons_self, rfl⟩
      · obtain ⟨g, hg, hge⟩ := hall e u hu
        exact ⟨g, List.mem_cons_of_mem _ hg, hge⟩

/-- **Asking for a prefix** of a word goes down the branch of its first letter. -/
theorem exists_prefix_cons (h : S.Pairwise (· < ·)) (hnil : [] ∉ S) (c : β)
    (word : List β) : (∃ k ∈ S, k <+: c :: word) ↔
      ∃ g ∈ branches S, g.1 = c ∧ ∃ k ∈ g.2, k <+: word := by
  obtain ⟨-, hgroups, hall⟩ := branches_spec h
  constructor
  · rintro ⟨k, hk, hpre⟩
    cases k with
    | nil => exact absurd hk hnil
    | cons d t =>
      obtain ⟨rfl, hrest⟩ := List.cons_prefix_cons.mp hpre
      obtain ⟨g, hg, rfl⟩ := hall d t hk
      exact ⟨g, hg, rfl, t, ((hgroups g hg).2.2 t).mpr hk, hrest⟩
  · rintro ⟨g, hg, rfl, t, ht, hpre⟩
    exact ⟨g.1 :: t, ((hgroups g hg).2.2 t).mp ht, List.cons_prefix_cons.mpr ⟨rfl, hpre⟩⟩

/-- **The way of a word** meets the end of a string exactly when that string is a prefix
of the word. -/
theorem exists_prefix_iff_descend (h : S.Pairwise (· < ·)) (word : List β) :
    (∃ k ∈ S, k <+: word) ↔ ∃ T, descend word S = some T ∧ [] ∈ T := by
  induction word generalizing S with
  | nil =>
    constructor
    · rintro ⟨k, hk, hpre⟩
      cases List.prefix_nil.mp hpre
      exact ⟨S, rfl, hk⟩
    · rintro ⟨T, hT, hnil⟩
      cases hT
      exact ⟨[], hnil, List.nil_prefix⟩
  | cons c word ih =>
    by_cases hnil : [] ∈ S
    · exact iff_of_true ⟨[], hnil, List.nil_prefix⟩ ⟨S, descend_of_mem hnil _, hnil⟩
    obtain ⟨hletters, hgroups, -⟩ := branches_spec h
    rw [exists_prefix_cons h hnil, descend, if_neg hnil]
    cases hfind : (branches S).find? (fun g => g.1 = c) with
    | none =>
      rw [List.find?_eq_none] at hfind
      constructor
      · rintro ⟨g, hg, hgc, -⟩
        exact absurd (decide_eq_true hgc) (hfind g hg)
      · rintro ⟨T, hT, -⟩
        cases hT
    | some g =>
      have hg := List.mem_of_find?_eq_some hfind
      have hgc : g.1 = c := by simpa using List.find?_some hfind
      rw [← ih (hgroups g hg).1]
      constructor
      · rintro ⟨g', hg', hgc', hk⟩
        -- the letters are distinct, so it is the same branch
        have hnodup : ((branches S).map Prod.fst).Nodup := by
          refine List.Pairwise.imp ?_ hletters
          rintro a b hlt rfl
          exact Std.Irrefl.irrefl _ hlt
        obtain rfl : g' = g := List.inj_on_of_nodup_map hnodup hg' hg (hgc'.trans hgc.symm)
        exact hk
      · rintro hk
        exact ⟨g, hg, hgc, hk⟩

/-! ### The number of nodes -/

/-- The prefixes of the strings of a list. -/
def prefixes (S : List (List β)) : Finset (List β) := (S.flatMap List.inits).toFinset

omit [LT β] [Std.Irrefl (fun a b : β => a < b)] [IsTrans β (fun a b => a < b)] in
theorem mem_prefixes {p : List β} : p ∈ prefixes S ↔ ∃ k ∈ S, p <+: k := by
  rw [prefixes, List.mem_toFinset, List.mem_flatMap]
  simp only [List.mem_inits]

/-- The prefixes below a list of branches. -/
def below (groups : List (β × List (List β))) : Finset (List β) :=
  groups.foldr (fun g rest => (prefixes g.2).image (g.1 :: ·) ∪ rest) ∅

omit [LT β] [Std.Irrefl (fun a b : β => a < b)] [IsTrans β (fun a b => a < b)] in
theorem mem_below {groups : List (β × List (List β))} {p : List β} :
    p ∈ below groups ↔ ∃ g ∈ groups, ∃ q ∈ prefixes g.2, g.1 :: q = p := by
  induction groups with
  | nil => simp [below]
  | cons g groups ih =>
    rw [below, List.foldr_cons, ← below, Finset.mem_union, ih, Finset.mem_image]
    simp

omit [IsTrans β (fun a b => a < b)] in
theorem card_below {groups : List (β × List (List β))}
    (h : (groups.map Prod.fst).Pairwise (· < ·)) :
    (below groups).card = (groups.map fun g => (prefixes g.2).card).sum := by
  induction groups with
  | nil => rfl
  | cons g groups ih =>
    have hdisjoint : Disjoint ((prefixes g.2).image (g.1 :: ·)) (below groups) := by
      rw [Finset.disjoint_left]
      intro p hp hp'
      obtain ⟨q, -, rfl⟩ := Finset.mem_image.mp hp
      obtain ⟨g', hg', q', -, heq⟩ := mem_below.mp hp'
      have hlt := List.rel_of_pairwise_cons h (List.mem_map_of_mem hg')
      rw [(List.cons.inj heq).1] at hlt
      exact Std.Irrefl.irrefl _ hlt
    rw [below, List.foldr_cons, ← below, Finset.card_union_of_disjoint hdisjoint,
      ih h.of_cons, Finset.card_image_of_injective _ List.cons_injective, List.map_cons,
      List.sum_cons]

/-- **The prefixes of a node** are the empty one and those below its branches. -/
theorem card_prefixes (h : S.Pairwise (· < ·)) (hne : S ≠ []) :
    (prefixes S).card = 1 + (((branches S).map Prod.snd).map fun T => (prefixes T).card).sum := by
  obtain ⟨hletters, hgroups, hall⟩ := branches_spec h
  have hsplit : prefixes S = insert [] (below (branches S)) := by
    ext p
    rw [Finset.mem_insert, mem_below, mem_prefixes]
    constructor
    · rintro ⟨k, hk, hpre⟩
      cases p with
      | nil => exact .inl rfl
      | cons c q =>
        obtain ⟨t, rfl⟩ : ∃ t, k = c :: t := by
          obtain ⟨u, rfl⟩ := hpre
          exact ⟨q ++ u, rfl⟩
        obtain ⟨g, hg, rfl⟩ := hall c t hk
        exact .inr ⟨g, hg, q, mem_prefixes.mpr
          ⟨t, ((hgroups g hg).2.2 t).mpr hk, (List.cons_prefix_cons.mp hpre).2⟩, rfl⟩
    · rintro (rfl | ⟨g, hg, q, hq, rfl⟩)
      · obtain ⟨k, hk⟩ := List.exists_mem_of_ne_nil S hne
        exact ⟨k, hk, List.nil_prefix⟩
      · obtain ⟨t, ht, hpre⟩ := mem_prefixes.mp hq
        exact ⟨g.1 :: t, ((hgroups g hg).2.2 t).mp ht, List.cons_prefix_cons.mpr ⟨rfl, hpre⟩⟩
  have hnil : [] ∉ below (branches S) := by
    rw [mem_below]
    rintro ⟨g, -, q, -, heq⟩
    cases heq
  rw [hsplit, Finset.card_insert_of_notMem hnil, card_below hletters, List.map_map, Nat.add_comm]
  rfl

end Sorted

end PrefixTree
