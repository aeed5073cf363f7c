import Dae.Routing.Config

/-!
# Marshalled strings

`config/marshal.go` writes strings with `strconv.Quote`, and a fallback with the quoting of the
configuration language; `pkg/config_parser/decoder.go` reads the literals.  The lexer reads
characters, so a text is a list of them; quotes and backslashes are single bytes.
-/

namespace Dae

/-! ### Literals -/

/-- The loop of `getValueFromQuoteLiteral`. -/
def decodeContent (quote : Char) : List Char → List Char
  | c :: d :: rest =>
    if c = '\\' ∧ (d = quote ∨ d = '\\') then d :: decodeContent quote rest
    else c :: decodeContent quote (d :: rest)
  | content => content

def getValueFromQuoteLiteral : List Char → List Char
  | [] => []
  | quote :: rest => if rest.isEmpty then [quote] else decodeContent quote rest.dropLast

/-- Bare literals do not start with a quote. -/
def getValueFromLiteral (text : List Char) : List Char :=
  if text.head? = some '"' ∨ text.head? = some '\'' then getValueFromQuoteLiteral text else text

/-! ### `strconv.Quote` -/

def lowerHex (digits n : Nat) : List Char :=
  (List.range digits).reverse.map fun k => Nat.digitChar (n / 16 ^ k % 16)

/-- The escape of a character that is not printable, behind the backslash. -/
def escapeRune (c : Char) : List Char :=
  match c.toNat with
  | 7 => ['a']
  | 8 => ['b']
  | 9 => ['t']
  | 10 => ['n']
  | 11 => ['v']
  | 12 => ['f']
  | 13 => ['r']
  | n =>
    if n < 32 ∨ n = 127 then 'x' :: lowerHex 2 n
    else if n < 65536 then 'u' :: lowerHex 4 n else 'U' :: lowerHex 8 n

def quoteRune (isPrint : Char → Bool) (c : Char) : List Char :=
  if c = '"' ∨ c = '\\' then ['\\', c] else if isPrint c then [c] else '\\' :: escapeRune c

/-- `strconv.Quote`, where `isPrint` is `strconv.IsPrint`. -/
def goQuote (isPrint : Char → Bool) (s : List Char) : List Char :=
  '"' :: s.flatMap (quoteRune isPrint) ++ ['"']

section Quote

variable {isPrint : Char → Bool} {quote c : Char} {rest : List Char}

theorem decodeContent_cons (hc : c ≠ '\\') :
    decodeContent quote (c :: rest) = c :: decodeContent quote rest := by
  cases rest with
  | nil => rfl
  | cons d rest => rw [decodeContent, if_neg fun h => hc h.1]

theorem decodeContent_append {plain : List Char} (hplain : '\\' ∉ plain) :
    decodeContent quote (plain ++ rest) = plain ++ decodeContent quote rest := by
  induction plain with
  | nil => rfl
  | cons c plain ih =>
    rw [List.mem_cons, not_or] at hplain
    rw [List.cons_append, decodeContent_cons (Ne.symm hplain.1), ih hplain.2, List.cons_append]

theorem lowerHex_plain (digits n : Nat) : '\\' ∉ lowerHex digits n := by
  have hdigit : ∀ m < 16, Nat.digitChar m ≠ '\\' := by decide
  intro h
  obtain ⟨k, -, hk⟩ := List.mem_map.mp h
  exact hdigit _ (Nat.mod_lt _ (by omega)) hk

theorem escapeRune_spec (c : Char) :
    ∃ e rest, escapeRune c = e :: rest ∧ e ≠ '"' ∧ e ≠ '\\' ∧ '\\' ∉ rest := by
  unfold escapeRune
  split
  case h_8 =>
    split
    · exact ⟨_, _, rfl, by decide, by decide, lowerHex_plain 2 _⟩
    split
    · exact ⟨_, _, rfl, by decide, by decide, lowerHex_plain 4 _⟩
    · exact ⟨_, _, rfl, by decide, by decide, lowerHex_plain 8 _⟩
  all_goals exact ⟨_, [], rfl, by decide, by decide, List.not_mem_nil⟩

/-- The decoder knows no other escapes, and keeps them. -/
theorem decodeContent_escapeRune (c : Char) (rest : List Char) :
    decodeContent '"' ('\\' :: escapeRune c ++ rest) =
      '\\' :: escapeRune c ++ decodeContent '"' rest := by
  obtain ⟨e, more, hescape, hquote, hslash, hplain⟩ := escapeRune_spec c
  rw [hescape, List.cons_append, List.cons_append, decodeContent,
    if_neg fun h => h.2.elim hquote hslash, decodeContent_cons hslash, decodeContent_append hplain]
  rfl

/-- A character that is written as it is, or with an escape that is undone. -/
def Plain (isPrint : Char → Bool) (c : Char) : Bool := c == '"' || c == '\\' || isPrint c

/-- **What is read back**: the escapes of the other characters stay. -/
theorem getValueFromLiteral_goQuote (isPrint : Char → Bool) (s : List Char) :
    getValueFromLiteral (goQuote isPrint s) =
      s.flatMap fun c => if Plain isPrint c then [c] else '\\' :: escapeRune c := by
  have hcontent : getValueFromLiteral (goQuote isPrint s) =
      decodeContent '"' (s.flatMap (quoteRune isPrint)) := by
    simp [getValueFromLiteral, goQuote, getValueFromQuoteLiteral]
  rw [hcontent]
  clear hcontent
  induction s with
  | nil => rfl
  | cons c s ih =>
    rw [List.flatMap_cons, List.flatMap_cons, ← ih, quoteRune, Plain]
    by_cases hescaped : c = '"' ∨ c = '\\'
    · rw [if_pos hescaped, if_pos (by rcases hescaped with h | h <;> simp [h]),
        List.cons_append, List.cons_append, decodeContent, if_pos ⟨rfl, hescaped⟩]
      rfl
    · obtain ⟨hquote, hslash⟩ := not_or.mp hescaped
      rw [if_neg hescaped]
      by_cases hprint : isPrint c = true
      · rw [if_pos hprint, if_pos (by simp [hprint])]
        exact decodeContent_cons hslash
      · rw [if_neg hprint, if_neg (by simp [hprint, hquote, hslash])]
        exact decodeContent_escapeRune c _

theorem getValueFromLiteral_goQuote_iff (s : List Char) :
    getValueFromLiteral (goQuote isPrint s) = s ↔ s.all (Plain isPrint) = true := by
  rw [getValueFromLiteral_goQuote]
  induction s with
  | nil => exact ⟨fun _ => rfl, fun _ => rfl⟩
  | cons c s ih =>
    rw [List.flatMap_cons, List.all_cons, Bool.and_eq_true, ← ih]
    by_cases hplain : Plain isPrint c = true
    · rw [if_pos hplain]
      exact ⟨fun h => ⟨hplain, (List.cons.inj h).2⟩, fun h => congrArg _ h.2⟩
    · -- what is read starts with a backslash, which is plain
      rw [if_neg hplain]
      refine ⟨fun h => absurd ?_ hplain, fun h => absurd h.1 hplain⟩
      rw [← (List.cons.inj h).1]
      rfl

end Quote

/-! ### Leaves -/

/-- The string settings of a configuration, as the parser makes them: those of a list have no
commas in them.  A link of a node is written like a quoted string. -/
inductive StringLeaf where
  | string (key : String) (val : List Char)
  | quotedString (val : List Char)
  | stringList (vals : List (List Char)) (parsed : vals ≠ [] ∧ ∀ val ∈ vals, ',' ∉ val)

namespace StringLeaf

def values : StringLeaf → List (List Char)
  | .string _ val => [val]
  | .quotedString val => [val]
  | .stringList vals _ => vals

/-- `marshalLeaf`, behind the key. -/
def marshalLeaf (isPrint : Char → Bool) : StringLeaf → List Char
  | .string key val =>
    if key = "fallback" then ({ name := .ofList val } : Function).string true true true
    else goQuote isPrint val
  | .quotedString val => goQuote isPrint val
  | .stringList vals _ => goQuote isPrint (List.intercalate [','] vals)

/-- The case of `ParamParser` for the field. -/
def parse (literal : List Char) : StringLeaf → List (List Char)
  | .stringList _ _ => (getValueFromLiteral literal).splitOn ','
  | _ => [getValueFromLiteral literal]

/-- What is written by the rules of the Go language. -/
def quoted : StringLeaf → List Char
  | .string key val => if key = "fallback" then [] else val
  | .quotedString val => val
  | .stringList vals _ => List.intercalate [','] vals

/-- The configuration language's own quoting is undone. -/
theorem getValueFromLiteral_formatFunctionName (val : List Char) :
    getValueFromLiteral (formatFunctionName val false) = val := by
  unfold formatFunctionName
  cases hbare : isBareLiteral val with
  | false =>
    have hquote : quoteLiteral val = goQuote (fun _ => true) val := rfl
    rw [if_pos (by decide), hquote]
    exact (getValueFromLiteral_goQuote_iff val).mpr (by simp [Plain])
  | true =>
    rw [if_neg (by decide), getValueFromLiteral, if_neg]
    cases val with
    | nil => simp
    | cons c cs =>
      have hhead : c ∈ bareHead := List.contains_iff_mem.mp (Bool.and_eq_true_iff.mp hbare).1
      have hquotes : '"' ∉ bareHead ∧ '\'' ∉ bareHead := by decide +kernel
      rintro (h | h)
      · exact hquotes.1 (Option.some.inj h ▸ hhead)
      · exact hquotes.2 (Option.some.inj h ▸ hhead)

/-- **String settings survive** marshalling exactly when all that is written by the rules of the Go
language is printable. -/
theorem leaf_survives_iff (isPrint : Char → Bool) (leaf : StringLeaf) :
    leaf.parse (leaf.marshalLeaf isPrint) = leaf.values ↔
      leaf.quoted.all (Plain isPrint) = true := by
  have hone : ∀ val, [getValueFromLiteral (goQuote isPrint val)] = [val] ↔
      val.all (Plain isPrint) = true := fun val => by
    rw [List.singleton_inj, getValueFromLiteral_goQuote_iff]
  cases leaf with
  | string key val =>
    by_cases hkey : key = "fallback"
    · have hread := getValueFromLiteral_formatFunctionName val
      simp [parse, marshalLeaf, values, quoted, hkey, Function.string, hread]
    · simpa [parse, marshalLeaf, values, quoted, hkey] using hone val
  | quotedString val => exact hone val
  | stringList vals parsed =>
    rw [quoted, ← getValueFromLiteral_goQuote_iff]
    constructor
    · intro h
      have hjoined := congrArg (List.intercalate [',']) h
      rwa [parse, List.intercalate_splitOn] at hjoined
    · intro h
      rw [parse, marshalLeaf, h, List.splitOn_intercalate ',' parsed.2 parsed.1]
      rfl

/-- A line break comes back as a backslash and a letter. -/
theorem leaf_loses_line_break : ∃ leaf : StringLeaf, leaf.values = [['\n']] ∧
    ∀ isPrint : Char → Bool, isPrint '\n' = false →
      leaf.parse (leaf.marshalLeaf isPrint) = [['\\', 'n']] := by
  refine ⟨.quotedString ['\n'], rfl, fun isPrint hprint => ?_⟩
  have hplain : Plain isPrint '\n' = false := by simp [Plain, hprint]
  simp only [parse, marshalLeaf, getValueFromLiteral_goQuote, List.flatMap_singleton, hplain]
  rfl

end StringLeaf

end Dae
