import Mathlib

/-!
# Globs

A pattern is a list of items: a letter, any letter, or any number of letters.

* `accepts_append` — the items before a star match a fixed part of the word;
* `accepts_many_drop` — a star also covers what stands before a place where it matches;
* `accepts_iff_parts` — a pattern accepts the words that split into a part for each item.
-/

namespace Glob

variable {α : Type*}

inductive Item (α : Type*) where
  | lit (a : α)
  | any
  | many
  deriving DecidableEq, Repr

variable [DecidableEq α]

/-- The pattern accepts the word. -/
def accepts : List (Item α) → List α → Bool
  | [], word => word.isEmpty
  | .lit _ :: _, [] => false
  | .lit a :: items, b :: word => a == b && accepts items word
  | .any :: _, [] => false
  | .any :: items, _ :: word => accepts items word
  | .many :: items, word => word.tails.any (accepts items)

variable {items : List (Item α)} {word : List α}

theorem accepts_many :
    accepts (.many :: items) word = true ↔ ∃ k ≤ word.length, accepts items (word.drop k) = true := by
  rw [accepts, List.any_eq_true]
  constructor
  · rintro ⟨tail, htail, h⟩
    have hsuffix := (List.mem_tails _ _).mp htail
    refine ⟨word.length - tail.length, Nat.sub_le _ _, ?_⟩
    rwa [← List.suffix_iff_eq_drop.mp hsuffix]
  · rintro ⟨k, -, h⟩
    exact ⟨word.drop k, (List.mem_tails _ _).mpr (List.drop_suffix k word), h⟩

/-- What a star accepts at some place it accepts from any place before. -/
theorem accepts_many_drop {k : Nat} (hk : k ≤ word.length)
    (h : accepts (.many :: items) (word.drop k) = true) : accepts (.many :: items) word = true := by
  obtain ⟨j, hj, h⟩ := accepts_many.mp h
  rw [List.length_drop] at hj
  rw [List.drop_drop] at h
  exact accepts_many.mpr ⟨k + j, by omega, h⟩

/-- Items without a star take one letter each. -/
theorem accepts_append {fixed : List (Item α)}
    (hfixed : ∀ i ∈ fixed, i ≠ .many) (h : accepts (fixed ++ items) word = true) :
    fixed.length ≤ word.length ∧ accepts items (word.drop fixed.length) = true := by
  induction fixed generalizing word with
  | nil => exact ⟨Nat.zero_le _, h⟩
  | cons item fixed ih =>
    have hrest : ∀ i ∈ fixed, i ≠ .many := fun i hi => hfixed i (List.mem_cons_of_mem item hi)
    cases item with
    | lit a =>
      cases word with
      | nil => cases h
      | cons b word =>
        rw [List.cons_append, accepts, Bool.and_eq_true] at h
        obtain ⟨hlength, h⟩ := ih hrest h.2
        exact ⟨Nat.succ_le_succ hlength, h⟩
    | any =>
      cases word with
      | nil => cases h
      | cons b word =>
        obtain ⟨hlength, h⟩ := ih hrest h
        exact ⟨Nat.succ_le_succ hlength, h⟩
    | many => exact absurd rfl (hfixed .many List.mem_cons_self)

/-- At the end of the word only stars may be left. -/
theorem accepts_nil :
    accepts items ([] : List α) = true ↔ ∀ i ∈ items, i = .many := by
  induction items with
  | nil => exact ⟨fun _ i hi => (nomatch hi), fun _ => rfl⟩
  | cons item items ih =>
    cases item with
    | lit a | any =>
      exact ⟨fun h => absurd h Bool.false_ne_true, fun h => nomatch h _ List.mem_cons_self⟩
    | many =>
      rw [accepts_many, List.forall_mem_cons, ← ih]
      constructor
      · rintro ⟨k, -, h⟩
        rw [List.drop_nil] at h
        exact ⟨rfl, h⟩
      · rintro ⟨-, h⟩
        exact ⟨0, le_rfl, h⟩

/-- What one item takes of a word. -/
def Item.Takes : Item α → List α → Prop
  | .lit a, part => part = [a]
  | .any, part => part.length = 1
  | .many, _ => True

omit [DecidableEq α] in
/-- The parts of a word, for an item and the items after it. -/
theorem parts_cons {item : Item α} :
    (∃ parts, parts.flatten = word ∧ List.Forall₂ Item.Takes (item :: items) parts) ↔
      ∃ part rest, part ++ rest = word ∧ item.Takes part ∧
        ∃ parts, parts.flatten = rest ∧ List.Forall₂ Item.Takes items parts := by
  constructor
  · rintro ⟨parts, hword, hparts⟩
    obtain ⟨part, rest, htakes, hrest, rfl⟩ := List.forall₂_cons_left_iff.mp hparts
    exact ⟨part, rest.flatten, hword, htakes, rest, rfl, hrest⟩
  · rintro ⟨part, rest, hword, htakes, parts, rfl, hparts⟩
    exact ⟨part :: parts, hword, .cons htakes hparts⟩

/-- **What a pattern accepts**: the words that split into one part for each item. -/
theorem accepts_iff_parts :
    accepts items word = true ↔
      ∃ parts, parts.flatten = word ∧ List.Forall₂ Item.Takes items parts := by
  induction items generalizing word with
  | nil =>
    rw [accepts, List.isEmpty_iff]
    constructor
    · rintro rfl
      exact ⟨[], rfl, .nil⟩
    · rintro ⟨parts, hword, hparts⟩
      rw [← hword, List.forall₂_nil_left_iff.mp hparts, List.flatten_nil]
  | cons item items ih =>
    rw [parts_cons]
    simp only [← ih]
    cases item with
    | lit a =>
      cases word with
      | nil => simp [accepts, Item.Takes]
      | cons b word =>
        rw [accepts, Bool.and_eq_true, beq_iff_eq]
        constructor
        · rintro ⟨rfl, h⟩
          exact ⟨[a], word, rfl, rfl, h⟩
        · rintro ⟨part, rest, hword, rfl, h⟩
          obtain ⟨rfl, rfl⟩ := List.cons.inj hword
          exact ⟨rfl, h⟩
    | any =>
      cases word with
      | nil => simp [accepts, Item.Takes]
      | cons b word =>
        rw [accepts]
        constructor
        · intro h
          exact ⟨[b], word, rfl, rfl, h⟩
        · rintro ⟨part, rest, hword, hpart, h⟩
          obtain ⟨c, rfl⟩ := List.length_eq_one_iff.mp hpart
          obtain ⟨rfl, rfl⟩ := List.cons.inj hword
          exact h
    | many =>
      rw [accepts_many]
      constructor
      · rintro ⟨k, -, h⟩
        exact ⟨word.take k, word.drop k, List.take_append_drop k word, trivial, h⟩
      · rintro ⟨part, rest, rfl, -, h⟩
        exact ⟨part.length, by simp, by simpa using h⟩

end Glob
