import Mathlib

/-!
# Decimal numbers in text

Text is split at a separator, and its parts are read as decimal numbers of 64 bits.
-/

namespace Text

/-- The parts of a text between the separators. -/
def split (sep : Char) : List Char → List (List Char)
  | [] => [[]]
  | c :: cs =>
    match split sep cs with
    | [] => [[c]]
    | word :: words => if c = sep then [] :: word :: words else (c :: word) :: words

/-- The value of decimal digits. -/
def digitsValue (digits : List Char) : Nat := digits.foldl (fun n c => 10 * n + (c.toNat - 48)) 0

/-- A decimal number of at most `bits` bits. -/
def parseUint (bits : Nat) (s : List Char) : Option Nat :=
  if s ≠ [] ∧ s.all Char.isDigit ∧ digitsValue s < 2 ^ bits then some (digitsValue s) else none

/-- A decimal number of 64 bits with an optional sign. -/
def parseInt (s : List Char) : Option Int :=
  let negative := s.head? = some '-'
  let digits := if negative ∨ s.head? = some '+' then s.tail else s
  let value : Int := if negative then -digitsValue digits else digitsValue digits
  if digits ≠ [] ∧ digits.all Char.isDigit ∧ -2 ^ 63 ≤ value ∧ value < 2 ^ 63 then some value
  else none

theorem not_mem_split {sep : Char} {cs word : List Char} (h : word ∈ split sep cs) :
    sep ∉ word := by
  induction cs generalizing word with
  | nil => simp_all [split]
  | cons c cs ih =>
    rw [split] at h
    split at h
    · next hnil =>
      -- there is always a word
      have : split sep cs ≠ [] := by cases cs <;> grind [split]
      exact absurd hnil this
    · next first words hsplit =>
      rw [hsplit] at ih
      grind

theorem parseInt_nonneg {s : List Char} {v : Int} (hs : '-' ∉ s) (h : parseInt s = some v) :
    0 ≤ v ∧ v < 2 ^ 63 := by
  have hhead : s.head? ≠ some '-' := fun heq => hs (List.mem_of_mem_head? heq)
  simp only [parseInt, hhead, if_false] at h
  grind

end Text
