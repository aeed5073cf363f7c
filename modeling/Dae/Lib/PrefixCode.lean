import Mathlib

/-!
# Prefix codes

A printer is a prefix code up to a relation when what follows a printed value never
matters for reading it back: equal texts start with related values and go on with
equal rests.  Codes are put together from smaller ones.

* `quoted` — a quoted string with escapes is a prefix code;
* `terminated` — so is any text followed by a character it does not contain;
* `concat`, `separated` — lists of printed values, up to the relation between their
  elements.
-/

namespace PrefixCode

variable {α β : Type*}

/-- What is printed can be read back, whatever follows. -/
def IsCode (rel : α → α → Prop) (print : α → List Char) : Prop :=
  ∀ a b s t, print a ++ s = print b ++ t → rel a b ∧ s = t

/-- A quoted text, where quotes and backslashes are escaped. -/
def escape (c : Char) : List Char := if c = '"' ∨ c = '\\' then ['\\', c] else [c]

variable {s t : List Char}

theorem escape_append_inj {c d : Char} (h : escape c ++ s = escape d ++ t) : c = d ∧ s = t := by
  unfold escape at h
  by_cases hc : c = '"' ∨ c = '\\'
  · by_cases hd : d = '"' ∨ d = '\\'
    · rw [if_pos hc, if_pos hd] at h
      simpa using h
    · rw [if_pos hc, if_neg hd] at h
      have hd' : '\\' = d := by
        simp only [List.cons_append, List.nil_append, List.cons.injEq] at h
        exact h.1
      exact absurd (.inr hd'.symm) hd
  · by_cases hd : d = '"' ∨ d = '\\'
    · rw [if_neg hc, if_pos hd] at h
      have hc' : c = '\\' := by
        simp only [List.cons_append, List.nil_append, List.cons.injEq] at h
        exact h.1
      exact absurd (.inr hc') hc
    · rw [if_neg hc, if_neg hd] at h
      simpa using h

/-- No escaped character starts with a quote. -/
theorem escape_ne_quote {c : Char} : escape c ++ s ≠ '"' :: t := by
  intro h
  unfold escape at h
  by_cases hc : c = '"' ∨ c = '\\'
  · rw [if_pos hc] at h
    simp at h
  · rw [if_neg hc] at h
    simp only [List.cons_append, List.nil_append, List.cons.injEq] at h
    exact hc (.inl h.1)

theorem quoted (v v' s t : List Char)
    (h : v.flatMap escape ++ '"' :: s = v'.flatMap escape ++ '"' :: t) : v = v' ∧ s = t := by
  induction v generalizing v' with
  | nil =>
    cases v' with
    | nil => simpa using h
    | cons d v' =>
      rw [List.flatMap_cons, List.append_assoc] at h
      exact absurd h.symm escape_ne_quote
  | cons c v ih =>
    cases v' with
    | nil =>
      rw [List.flatMap_cons, List.append_assoc] at h
      exact absurd h escape_ne_quote
    | cons d v' =>
      rw [List.flatMap_cons, List.flatMap_cons, List.append_assoc, List.append_assoc] at h
      obtain ⟨rfl, hrest⟩ := escape_append_inj h
      obtain ⟨rfl, hs⟩ := ih v' hrest
      exact ⟨rfl, hs⟩

/-- A text is read up to a character that it does not contain. -/
theorem terminated {x : Char} {u v : List Char} (hu : x ∉ u) (hv : x ∉ v)
    (h : u ++ x :: s = v ++ x :: t) : u = v ∧ s = t := by
  induction u generalizing v with
  | nil =>
    cases v with
    | nil => simpa using h
    | cons d v =>
      simp only [List.nil_append, List.cons_append, List.cons.injEq] at h
      exact absurd (h.1 ▸ List.mem_cons_self) hv
  | cons c u ih =>
    cases v with
    | nil =>
      simp only [List.nil_append, List.cons_append, List.cons.injEq] at h
      exact absurd (h.1 ▸ List.mem_cons_self) hu
    | cons d v =>
      simp only [List.cons_append, List.cons.injEq] at h
      obtain ⟨rfl, hs⟩ := ih (fun hm => hu (List.mem_cons_of_mem _ hm))
        (fun hm => hv (List.mem_cons_of_mem _ hm)) h.2
      exact ⟨by rw [h.1], hs⟩

variable {rel : α → α → Prop} {print : α → List Char} {l l' : List α}

/-- A list of codes with nonempty texts, up to its end. -/
theorem concat (hcode : IsCode rel print)
    (hne : ∀ a, print a ≠ []) (h : l.flatMap print = l'.flatMap print) :
    List.Forall₂ rel l l' := by
  induction l generalizing l' with
  | nil =>
    cases l' with
    | nil => exact .nil
    | cons b l' =>
      have hnil : print b ++ l'.flatMap print = [] := h.symm
      exact absurd (List.append_eq_nil_iff.mp hnil).1 (hne b)
  | cons a l ih =>
    cases l' with
    | nil =>
      have hnil : print a ++ l.flatMap print = [] := h
      exact absurd (List.append_eq_nil_iff.mp hnil).1 (hne a)
    | cons b l' =>
      obtain ⟨hab, hrest⟩ := hcode a b _ _ h
      exact .cons hab (ih hrest)

/-- Codes, each after a comma, up to a closing character. -/
theorem commaList (hcode : IsCode rel print)
    {comma close : Char} (hcomma : comma ≠ close)
    (h : (l.flatMap fun a => comma :: print a) ++ close :: s =
      (l'.flatMap fun a => comma :: print a) ++ close :: t) :
    List.Forall₂ rel l l' ∧ s = t := by
  induction l generalizing l' with
  | nil =>
    cases l' with
    | nil => exact ⟨.nil, (List.cons.inj h).2⟩
    | cons b l' => exact absurd (List.cons.inj h).1.symm hcomma
  | cons a l ih =>
    cases l' with
    | nil => exact absurd (List.cons.inj h).1 hcomma
    | cons b l' =>
      rw [List.flatMap_cons, List.flatMap_cons, List.append_assoc, List.append_assoc,
        List.cons_append, List.cons_append] at h
      obtain ⟨hrel, hrest⟩ := hcode a b _ _ (List.cons.inj h).2
      obtain ⟨hl, hs⟩ := ih hrest
      exact ⟨.cons hrel hl, hs⟩

theorem intercalate_cons (comma : Char) (a : List Char) (rest : List (List Char)) :
    List.intercalate [comma] (a :: rest) = a ++ rest.flatMap (comma :: ·) := by
  induction rest generalizing a with
  | nil => simp
  | cons p ps ih => rw [List.intercalate_cons_cons, ih p, List.flatMap_cons, List.append_assoc]; rfl

/-- A separated list of codes up to a closing character that none of them starts
with. -/
theorem separated (hcode : IsCode rel print)
    {comma close : Char} (hcomma : comma ≠ close)
    (hstart : ∀ a (s t : List Char), print a ++ s ≠ close :: t)
    (h : List.intercalate [comma] (l.map print) ++ close :: s =
      List.intercalate [comma] (l'.map print) ++ close :: t) :
    List.Forall₂ rel l l' ∧ s = t := by
  cases l with
  | nil =>
    cases l' with
    | nil => exact ⟨.nil, (List.cons.inj h).2⟩
    | cons b l' =>
      rw [List.map_cons, intercalate_cons, List.append_assoc] at h
      exact absurd h.symm (hstart b _ s)
  | cons a l =>
    cases l' with
    | nil =>
      rw [List.map_cons, intercalate_cons, List.append_assoc] at h
      exact absurd h (hstart a _ t)
    | cons b l' =>
      rw [List.map_cons, List.map_cons, intercalate_cons, intercalate_cons, List.append_assoc,
        List.append_assoc, List.flatMap_map, List.flatMap_map] at h
      obtain ⟨hab, hrest⟩ := hcode a b _ _ h
      obtain ⟨hl, hs⟩ := commaList hcode hcomma hrest
      exact ⟨.cons hab hl, hs⟩

end PrefixCode
