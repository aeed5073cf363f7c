import Dae.Lib.Glob

/-!
# Globs of plugin scopes

`component/plugin/scope.go`: the hosts of a scope are compared by a glob over their bytes, a loop
with one place to go back to.  A star of the pattern is compared as a letter before it is tried
as a star, so a value that holds a star can be missed.
-/

namespace Dae

open Glob (Item accepts)

/-- The bytes `*` and `?`. -/
def starByte : UInt8 := 42

def markByte : UInt8 := 63

/-- `p < len(pattern) && test(pattern[p])`; a byte read out of range is a panic, `none`. -/
def whenInside (pattern : List UInt8) (p : Nat) (test : UInt8 → Option Bool) : Option Bool :=
  if p < pattern.length then pattern[p]?.bind test else some false

/-- The main loop of `glob`, with `star` the place of the last star and `back` the place in
the value up to which it has been stretched.  A loop still running is `none`, a panic
`some none`. -/
def globLoop (pattern value : List UInt8) :
    Nat → (p v : Nat) → (star : Option Nat) → (back : Nat) → Option (Option Bool)
  | 0, _, _, _, _ => none
  | fuel + 1, p, v, star, back =>
    if v < value.length then
      match whenInside pattern p fun a =>
          if a = markByte then some true else value[v]?.map (a == ·) with
      | none => some none
      | some true => globLoop pattern value fuel (p + 1) (v + 1) star back
      | some false =>
        match whenInside pattern p fun a => some (a == starByte) with
        | none => some none
        | some true => globLoop pattern value fuel (p + 1) v (some p) v
        | some false =>
          match star with
          | none => some (some false)
          | some star => globLoop pattern value fuel (star + 1) (back + 1) (some star) (back + 1)
    else some (some ((pattern.drop p).all (· == starByte)))

/-- The rounds of the loop are bounded: every star is stretched at most to the end. -/
def globFuel (pattern value : List UInt8) : Nat :=
  (value.length + 1) * (pattern.length + 1) + 1

def glob (pattern value : List UInt8) : Bool :=
  ((globLoop pattern value (globFuel pattern value) 0 0 none 0).getD none).getD false

/-- What a byte of a pattern stands for. -/
def globItem (b : UInt8) : Item UInt8 :=
  if b = starByte then .many else if b = markByte then .any else .lit b

/-! ### The loop of `glob` -/

section Loop

variable {pattern value : List UInt8}

/-- The byte of the pattern at `p` fits the byte of the value at `v`. -/
def GlobFits (pattern value : List UInt8) (p v : Nat) : Prop :=
  p < pattern.length ∧ (pattern[p]? = some markByte ∨ pattern[p]? = value[v]?)

section Round

variable {fuel p v : Nat} {star : Option Nat} {back : Nat}

theorem whenInside_fits (hv : v < value.length) [Decidable (GlobFits pattern value p v)] :
    (whenInside pattern p fun a => if a = markByte then some true else value[v]?.map (a == ·)) =
      some (decide (GlobFits pattern value p v)) := by
  unfold whenInside
  by_cases hp : p < pattern.length
  · rw [if_pos hp, List.getElem?_eq_getElem hp, List.getElem?_eq_getElem hv, Option.bind_some]
    by_cases hmark : pattern[p] = markByte
    · simp [GlobFits, hp, hmark]
    · simp [GlobFits, hp, hv, hmark, beq_eq_decide]
  · simp [GlobFits, hp]

theorem whenInside_star :
    (whenInside pattern p fun a => some (a == starByte)) =
      some (decide (pattern[p]? = some starByte)) := by
  unfold whenInside
  by_cases hp : p < pattern.length
  · simp [hp, beq_eq_decide]
  · simp [hp]

/-- A round whose bytes fit. -/
theorem globLoop_fits (hv : v < value.length) (h : GlobFits pattern value p v) :
    globLoop pattern value (fuel + 1) p v star back =
      globLoop pattern value fuel (p + 1) (v + 1) star back := by
  classical
  conv_lhs => unfold globLoop
  rw [if_pos hv, whenInside_fits hv, decide_eq_true h]

/-- A round that meets a star. -/
theorem globLoop_star (hv : v < value.length) (h : ¬GlobFits pattern value p v)
    (hstar : pattern[p]? = some starByte) :
    globLoop pattern value (fuel + 1) p v star back =
      globLoop pattern value fuel (p + 1) v (some p) v := by
  classical
  conv_lhs => unfold globLoop
  rw [if_pos hv, whenInside_fits hv, decide_eq_false h, whenInside_star,
    decide_eq_true hstar]

/-- A round that fails goes back to the last star. -/
theorem globLoop_back (hv : v < value.length) (h : ¬GlobFits pattern value p v)
    (hstar : ¬pattern[p]? = some starByte) :
    globLoop pattern value (fuel + 1) p v star back =
      match star with
      | none => some (some false)
      | some star => globLoop pattern value fuel (star + 1) (back + 1) (some star) (back + 1) := by
  classical
  conv_lhs => unfold globLoop
  rw [if_pos hv, whenInside_fits hv, decide_eq_false h, whenInside_star,
    decide_eq_false hstar]

theorem globLoop_end (hv : ¬v < value.length) :
    globLoop pattern value (fuel + 1) p v star back =
      some (some ((pattern.drop p).all (· == starByte))) := by
  conv_lhs => unfold globLoop
  rw [if_neg hv]

end Round

/-- What the loop has still to answer: the rest of the pattern accepts the rest of the
value, or what follows the last star does so from a later place. -/
def GlobAnswer (pattern value : List UInt8) (p v : Nat) (star : Option Nat) (back : Nat) : Prop :=
  accepts ((pattern.drop p).map globItem) (value.drop v) = true ∨
    ∃ s, star = some s ∧ ∃ k, back < k ∧ k ≤ value.length ∧
      accepts ((pattern.drop (s + 1)).map globItem) (value.drop k) = true

/-- The bytes since the last star have been compared one by one, and none was a star. -/
structure GlobInv (pattern value : List UInt8) (p v : Nat) (star : Option Nat) (back : Nat) : Prop where
  pattern_le : p ≤ pattern.length
  value_le : v ≤ value.length
  aligned : ∀ s, star = some s → s + 1 ≤ p ∧ back ≤ v ∧ p + back = s + 1 + v
  fixed : ∀ s, star = some s → ∀ i, s < i → i < p → pattern[i]? ≠ some starByte

theorem globItem_star : globItem starByte = .many := rfl

theorem globItem_eq_many {b : UInt8} (h : globItem b = .many) : b = starByte := by
  unfold globItem at h
  split at h
  · assumption
  · split at h <;> cases h

/-- What follows the last star has to accept the bytes compared since, one by one. -/
theorem GlobInv.behind {p v : Nat} {star : Option Nat} {back : Nat}
    (hinv : GlobInv pattern value p v star back) {s k : Nat} (hs : star = some s)
    (hk : k ≤ value.length)
    (h : accepts ((pattern.drop (s + 1)).map globItem) (value.drop k) = true) :
    k + v ≤ value.length + back ∧
      accepts ((pattern.drop p).map globItem) (value.drop (k + (v - back))) = true := by
  obtain ⟨hsp, hbv, halign⟩ := hinv.aligned s hs
  have hsplit : pattern.drop (s + 1) =
      (pattern.drop (s + 1)).take (v - back) ++ pattern.drop p := by
    conv_lhs => rw [← List.take_append_drop (v - back) (pattern.drop (s + 1))]
    rw [List.drop_drop, show s + 1 + (v - back) = p by omega]
  have hfixed : ∀ item ∈ ((pattern.drop (s + 1)).take (v - back)).map globItem, item ≠ .many := by
    intro item hitem hmany
    obtain ⟨b, hb, rfl⟩ := List.mem_map.mp hitem
    obtain rfl := globItem_eq_many hmany
    obtain ⟨i, hi, hget⟩ := List.mem_iff_getElem.mp hb
    rw [List.length_take, List.length_drop] at hi
    rw [List.getElem_take, List.getElem_drop] at hget
    refine hinv.fixed s hs (s + 1 + i) (by omega) (by omega) ?_
    rw [← hget]
    exact List.getElem?_eq_getElem _
  have htaken : (((pattern.drop (s + 1)).take (v - back)).map globItem).length = v - back := by
    have := hinv.pattern_le
    rw [List.length_map, List.length_take, List.length_drop]
    omega
  rw [hsplit, List.map_append] at h
  obtain ⟨hlength, h⟩ := Glob.accepts_append hfixed h
  rw [htaken, List.length_drop] at hlength
  rw [htaken, List.drop_drop] at h
  exact ⟨by omega, h⟩

theorem drop_map_globItem {p : Nat} {b : UInt8} (h : pattern[p]? = some b) :
    (pattern.drop p).map globItem = globItem b :: (pattern.drop (p + 1)).map globItem := by
  obtain ⟨hlt, rfl⟩ := List.getElem?_eq_some_iff.mp h
  rw [List.drop_eq_getElem_cons hlt, List.map_cons]

theorem accepts_globItem {b c : UInt8} {items : List (Item UInt8)} {word : List UInt8}
    (hb : b ≠ starByte) :
    accepts (globItem b :: items) (c :: word) = true ↔
      (b = markByte ∨ b = c) ∧ accepts items word = true := by
  unfold globItem
  rw [if_neg hb]
  by_cases hmark : b = markByte
  · rw [if_pos hmark, accepts]
    exact ⟨fun h => ⟨.inl hmark, h⟩, fun h => h.2⟩
  · rw [if_neg hmark, accepts, Bool.and_eq_true, beq_iff_eq]
    exact and_congr_left fun _ => ⟨.inr, fun h => h.resolve_left hmark⟩

section Step

variable {p v : Nat} {star : Option Nat} {back : Nat}

/-- A byte that fits is passed over. -/
theorem GlobInv.equal (hinv : GlobInv pattern value p v star back) (hstar : starByte ∉ value)
    (hv : v < value.length) (hfits : GlobFits pattern value p v) :
    GlobInv pattern value (p + 1) (v + 1) star back ∧
      (GlobAnswer pattern value (p + 1) (v + 1) star back ↔
        GlobAnswer pattern value p v star back) := by
  obtain ⟨hp, h⟩ := hfits
  rw [List.getElem?_eq_getElem hp, List.getElem?_eq_getElem hv, Option.some_inj,
    Option.some_inj] at h
  have hne : pattern[p] ≠ starByte := by
    rcases h with h | h
    · rw [h]
      decide
    · exact fun heq => hstar (heq ▸ h ▸ List.getElem_mem hv)
  refine ⟨⟨hp, hv, ?_, ?_⟩, or_congr_left ?_⟩
  · intro s hs
    have := hinv.aligned s hs
    omega
  · intro s hs i hsi hip
    by_cases hi : i = p
    · rw [hi, List.getElem?_eq_getElem hp, ne_eq, Option.some_inj]
      exact hne
    · exact hinv.fixed s hs i hsi (by omega)
  · rw [drop_map_globItem (List.getElem?_eq_getElem hp), List.drop_eq_getElem_cons hv,
      accepts_globItem hne]
    exact ⟨fun hrest => ⟨h, hrest⟩, fun hrest => hrest.2⟩

/-- A star that is met makes every earlier star superfluous. -/
theorem GlobInv.meet_star (hinv : GlobInv pattern value p v star back)
    (h : pattern[p]? = some starByte) :
    GlobInv pattern value (p + 1) v (some p) v ∧
      (GlobAnswer pattern value (p + 1) v (some p) v ↔
        GlobAnswer pattern value p v star back) := by
  obtain ⟨hp, -⟩ := List.getElem?_eq_some_iff.mp h
  have hv := hinv.value_le
  refine ⟨⟨hp, hv, ?_, ?_⟩, ?_⟩
  · intro s hs
    obtain rfl := Option.some_inj.mp hs
    omega
  · intro s hs i hsi hip
    obtain rfl := Option.some_inj.mp hs
    omega
  · unfold GlobAnswer
    rw [drop_map_globItem h, globItem_star]
    have hmany : accepts (.many :: (pattern.drop (p + 1)).map globItem) (value.drop v) = true ↔
        ∃ k, v ≤ k ∧ k ≤ value.length ∧
          accepts ((pattern.drop (p + 1)).map globItem) (value.drop k) = true := by
      rw [Glob.accepts_many]
      constructor
      · rintro ⟨k, hk, hrest⟩
        rw [List.length_drop] at hk
        rw [List.drop_drop] at hrest
        exact ⟨v + k, by omega, by omega, hrest⟩
      · rintro ⟨k, hvk, hk, hrest⟩
        refine ⟨k - v, ?_, ?_⟩
        · rw [List.length_drop]
          omega
        · rwa [List.drop_drop, show v + (k - v) = k by omega]
    constructor
    · rintro (hrest | ⟨s, hs, k, hvk, hk, hrest⟩)
      · exact .inl (hmany.mpr ⟨v, le_rfl, hv, hrest⟩)
      · obtain rfl := Option.some_inj.mp hs
        exact .inl (hmany.mpr ⟨k, hvk.le, hk, hrest⟩)
    · intro hanswer
      have hstretched : accepts (.many :: (pattern.drop (p + 1)).map globItem) (value.drop v) = true := by
        rcases hanswer with hrest | ⟨s, hs, k, hbk, hk, hrest⟩
        · exact hrest
        · obtain ⟨hle, hrest⟩ := hinv.behind hs hk hrest
          obtain ⟨-, hbv, -⟩ := hinv.aligned s hs
          rw [drop_map_globItem h, globItem_star] at hrest
          refine Glob.accepts_many_drop (k := k - back) ?_ ?_
          · rw [List.length_drop]
            omega
          · rwa [List.drop_drop, show v + (k - back) = k + (v - back) by omega]
      obtain ⟨k, hvk, hk, hrest⟩ := hmany.mp hstretched
      rcases hvk.eq_or_lt with rfl | hlt
      · exact .inl hrest
      · exact .inr ⟨p, rfl, k, hlt, hk, hrest⟩

/-- A byte that does not fit refutes the current comparison. -/
theorem GlobInv.mismatch (hv : v < value.length) (hne : ¬GlobFits pattern value p v)
    (hstar : ¬pattern[p]? = some starByte) :
    ¬accepts ((pattern.drop p).map globItem) (value.drop v) = true := by
  intro h
  by_cases hp : p < pattern.length
  · rw [GlobFits, List.getElem?_eq_getElem hp, List.getElem?_eq_getElem hv, Option.some_inj,
      Option.some_inj] at hne
    rw [List.getElem?_eq_getElem hp, Option.some_inj] at hstar
    rw [drop_map_globItem (List.getElem?_eq_getElem hp), List.drop_eq_getElem_cons hv,
      accepts_globItem hstar] at h
    exact hne ⟨hp, h.1⟩
  · rw [List.drop_of_length_le (not_lt.mp hp), List.drop_eq_getElem_cons hv] at h
    cases h

/-- The last star is stretched by one byte. -/
theorem GlobInv.stretch {s : Nat} (hinv : GlobInv pattern value p v (some s) back)
    (hv : v < value.length)
    (hrefuted : ¬accepts ((pattern.drop p).map globItem) (value.drop v) = true) :
    GlobInv pattern value (s + 1) (back + 1) (some s) (back + 1) ∧
      (GlobAnswer pattern value (s + 1) (back + 1) (some s) (back + 1) ↔
        GlobAnswer pattern value p v (some s) back) := by
  obtain ⟨hsp, hbv, halign⟩ := hinv.aligned s rfl
  have hp := hinv.pattern_le
  refine ⟨⟨by omega, by omega, ?_, ?_⟩, ?_⟩
  · intro t ht
    obtain rfl := Option.some_inj.mp ht
    omega
  · intro t ht i hti hip
    obtain rfl := Option.some_inj.mp ht
    omega
  · constructor
    · rintro (hrest | ⟨t, ht, k, hbk, hk, hrest⟩)
      · exact .inr ⟨s, rfl, back + 1, by omega, by omega, hrest⟩
      · exact .inr ⟨t, ht, k, by omega, hk, hrest⟩
    · rintro (hrest | ⟨t, ht, k, hbk, hk, hrest⟩)
      · exact absurd hrest hrefuted
      · obtain rfl := Option.some_inj.mp ht
        rcases Nat.eq_or_lt_of_le (show back + 1 ≤ k from hbk) with rfl | hlt
        · exact .inl hrest
        · exact .inr ⟨s, rfl, k, hlt, hk, hrest⟩

/-- At the end of the value only stars may be left. -/
theorem GlobInv.finish (hinv : GlobInv pattern value p v star back) (hv : ¬v < value.length) :
    (pattern.drop p).all (· == starByte) = true ↔ GlobAnswer pattern value p v star back := by
  have hend : v = value.length := le_antisymm hinv.value_le (not_lt.mp hv)
  have hall : (pattern.drop p).all (· == starByte) = true ↔
      accepts ((pattern.drop p).map globItem) (value.drop v) = true := by
    rw [hend, List.drop_length, Glob.accepts_nil, List.all_eq_true, List.forall_mem_map]
    refine forall₂_congr fun b _ => ?_
    rw [beq_iff_eq]
    exact ⟨fun h => h ▸ globItem_star, globItem_eq_many⟩
  rw [hall]
  refine ⟨.inl, fun h => h.elim id ?_⟩
  rintro ⟨s, hs, k, hbk, hk, hrest⟩
  obtain ⟨hle, -⟩ := hinv.behind hs hk hrest
  omega

end Step

/-- A measure that every round lowers. -/
def globMeasure (pattern value : List UInt8) (p : Nat) (star : Option Nat) (back : Nat) : Nat :=
  match star with
  | none => (value.length + 1) * (pattern.length + 1) - p
  | some _ => (value.length - back) * (pattern.length + 1) + (pattern.length - p)

theorem globMeasure_equal {p back : Nat} {star : Option Nat} (hp : p < pattern.length) :
    globMeasure pattern value (p + 1) star back < globMeasure pattern value p star back := by
  cases star with
  | none =>
    have : pattern.length + 1 ≤ (value.length + 1) * (pattern.length + 1) :=
      Nat.le_mul_of_pos_left _ (Nat.succ_pos _)
    simp only [globMeasure]
    omega
  | some s =>
    simp only [globMeasure]
    omega

theorem globMeasure_star {p v back : Nat} {star : Option Nat} (hp : p < pattern.length)
    (hback : ∀ s, star = some s → back ≤ v) :
    globMeasure pattern value (p + 1) (some p) v < globMeasure pattern value p star back := by
  cases star with
  | none =>
    have hle : (value.length - v) * (pattern.length + 1) ≤ value.length * (pattern.length + 1) :=
      Nat.mul_le_mul_right _ (Nat.sub_le _ _)
    simp only [globMeasure, Nat.add_mul, Nat.one_mul]
    simp only [Nat.mul_add, Nat.mul_one] at hle ⊢
    omega
  | some s =>
    have hle : (value.length - v) * (pattern.length + 1) ≤
        (value.length - back) * (pattern.length + 1) :=
      Nat.mul_le_mul_right _ (Nat.sub_le_sub_left (hback s rfl) _)
    simp only [globMeasure]
    omega

theorem globMeasure_stretch {p s back : Nat} (hback : back < value.length) :
    globMeasure pattern value (s + 1) (some s) (back + 1) <
      globMeasure pattern value p (some s) back := by
  have hsplit : value.length - back = value.length - (back + 1) + 1 := by omega
  simp only [globMeasure, hsplit, Nat.add_mul, Nat.one_mul]
  omega

/-- With enough fuel the loop returns and reads no byte out of range; over a value without a
star it answers its question. -/
theorem globLoop_spec {fuel p v : Nat} {star : Option Nat} {back : Nat}
    (hback : ∀ s, star = some s → back ≤ v)
    (hfuel : globMeasure pattern value p star back < fuel) :
    ∃ found, globLoop pattern value fuel p v star back = some (some found) ∧
      (starByte ∉ value → GlobInv pattern value p v star back →
        (found = true ↔ GlobAnswer pattern value p v star back)) := by
  induction fuel generalizing p v star back with
  | zero => exact absurd hfuel (Nat.not_lt_zero _)
  | succ fuel ih =>
    by_cases hv : v < value.length
    swap
    · exact ⟨_, globLoop_end hv, fun _ hinv => hinv.finish hv⟩
    by_cases hfits : GlobFits pattern value p v
    · rw [globLoop_fits hv hfits]
      have hless := @globMeasure_equal pattern value p back star hfits.1
      obtain ⟨found, hrun, hfound⟩ :=
        ih (fun s hs => (hback s hs).trans (Nat.le_succ v)) (hless.trans_le (Nat.le_of_lt_succ hfuel))
      refine ⟨found, hrun, fun hstar hinv => ?_⟩
      obtain ⟨hnext, hanswer⟩ := hinv.equal hstar hv hfits
      exact (hfound hstar hnext).trans hanswer
    by_cases hmeet : pattern[p]? = some starByte
    · rw [globLoop_star hv hfits hmeet]
      have hless := @globMeasure_star pattern value p v back star
        (List.getElem?_eq_some_iff.mp hmeet).1 hback
      obtain ⟨found, hrun, hfound⟩ :=
        ih (fun _ _ => le_rfl) (hless.trans_le (Nat.le_of_lt_succ hfuel))
      refine ⟨found, hrun, fun hstar hinv => ?_⟩
      obtain ⟨hnext, hanswer⟩ := hinv.meet_star hmeet
      exact (hfound hstar hnext).trans hanswer
    have hrefuted := GlobInv.mismatch hv hfits hmeet
    rw [globLoop_back hv hfits hmeet]
    cases star with
    | none =>
      refine ⟨false, rfl, fun _ _ => ⟨fun h => absurd h Bool.false_ne_true, ?_⟩⟩
      rintro (h | ⟨s, hs, -⟩)
      · exact absurd h hrefuted
      · cases hs
    | some s =>
      have hless := @globMeasure_stretch pattern value p s back ((hback s rfl).trans_lt hv)
      obtain ⟨found, hrun, hfound⟩ :=
        ih (fun _ _ => le_rfl) (hless.trans_le (Nat.le_of_lt_succ hfuel))
      refine ⟨found, hrun, fun hstar hinv => ?_⟩
      obtain ⟨hnext, hanswer⟩ := hinv.stretch hv hrefuted
      exact (hfound hstar hnext).trans hanswer

/-- The loop from its start. -/
theorem globLoop_start {fuel : Nat} (hfuel : globFuel pattern value ≤ fuel) :
    ∃ found, globLoop pattern value fuel 0 0 none 0 = some (some found) ∧
      (starByte ∉ value → GlobInv pattern value 0 0 none 0 →
        (found = true ↔ GlobAnswer pattern value 0 0 none 0)) :=
  globLoop_spec (fun _ hs => by cases hs) (Nat.lt_of_lt_of_le (Nat.lt_succ_self _) hfuel)

/-- **The loop decides the glob.** -/
theorem glob_spec (hstar : starByte ∉ value) :
    glob pattern value = accepts (pattern.map globItem) value := by
  have hinv : GlobInv pattern value 0 0 none 0 :=
    ⟨Nat.zero_le _, Nat.zero_le _, fun _ hs => (nomatch hs), fun _ hs => (nomatch hs)⟩
  obtain ⟨found, hrun, hfound⟩ := @globLoop_start pattern value _ le_rfl
  rw [glob, hrun, Option.getD_some, Option.getD_some, Bool.eq_iff_iff, hfound hstar hinv]
  constructor
  · rintro (h | ⟨s, hs, -⟩)
    · exact h
    · cases hs
  · exact .inl

/-! ### Values with a star -/

/-- The loop passes over bytes that fit. -/
theorem globLoop_march {fuel p v n : Nat} {star : Option Nat} {back : Nat}
    (hn : v + n ≤ value.length) (hfits : ∀ i < n, GlobFits pattern value (p + i) (v + i)) :
    globLoop pattern value (fuel + n) p v star back =
      globLoop pattern value fuel (p + n) (v + n) star back := by
  induction n generalizing p v with
  | zero => rfl
  | succ n ih =>
    have hfirst : GlobFits pattern value p v := hfits 0 (Nat.succ_pos n)
    rw [← Nat.add_assoc, globLoop_fits (by omega) hfirst, ih (by omega)]
    · rw [Nat.add_right_comm p, Nat.add_right_comm v]
      rfl
    · intro i hi
      rw [Nat.add_right_comm p, Nat.add_right_comm v]
      exact hfits (i + 1) (by omega)

/-- As many marks as there are bytes take one byte each. -/
theorem parts_marks (word : List UInt8) :
    (word.map fun c => [c]).flatten = word ∧
      List.Forall₂ (fun b part => (globItem b).Takes part) (List.replicate word.length markByte)
        (word.map fun c => [c]) := by
  induction word with
  | nil => exact ⟨rfl, .nil⟩
  | cons c word ih => exact ⟨congrArg (c :: ·) ih.1, .cons rfl ih.2⟩

/-- A pattern that needs its star, over a value with a star in the same place. -/
def missedPattern (before after : List UInt8) : List UInt8 :=
  List.replicate before.length markByte ++ starByte :: List.replicate (after.length + 1) markByte

/-- The star of the value is taken for the star of the pattern, which is then gone. -/
theorem glob_missed (before after : List UInt8) :
    glob (missedPattern before after) (before ++ starByte :: after) = false := by
  generalize hpattern : missedPattern before after = pattern
  generalize hvalue : before ++ starByte :: after = value
  have hlength : value.length = before.length + (after.length + 1) := by
    simp [← hvalue]
  have hplength : pattern.length = value.length + 1 := by
    simp [← hpattern, hlength, missedPattern]
    omega
  have hmark : ∀ i ≤ value.length, i ≠ before.length → pattern[i]? = some markByte := by
    intro i hi hne
    rw [← hpattern, missedPattern]
    rcases Nat.lt_or_ge i before.length with hlt | hge
    · simp [List.getElem?_append_left, hlt]
    · obtain ⟨k, rfl⟩ : ∃ k, i = before.length + (k + 1) := ⟨i - before.length - 1, by omega⟩
      have hk : k < after.length + 1 := by omega
      rw [List.getElem?_append_right (by simp)]
      simp [hk]
  have hfits : ∀ i < value.length, GlobFits pattern value (0 + i) (0 + i) := by
    intro i hi
    rw [Nat.zero_add]
    refine ⟨by omega, ?_⟩
    by_cases hne : i = before.length
    · exact .inr (by simp [hne, ← hpattern, ← hvalue, missedPattern])
    · exact .inl (hmark i hi.le hne)
  obtain ⟨k, hk⟩ : ∃ k, globFuel pattern value = k + 1 + value.length := by
    refine ⟨(value.length + 1) * pattern.length + 1, ?_⟩
    rw [globFuel, Nat.mul_succ]
    omega
  have hrest : pattern.drop value.length = [markByte] := by
    rw [List.drop_eq_getElem?_toList_append, hmark _ le_rfl (by omega),
      List.drop_of_length_le (by omega)]
    rfl
  rw [glob, hk, globLoop_march (by omega) hfits, globLoop_end (by omega), Nat.zero_add, hrest]
  rfl

end Loop

end Dae
