import Dae.Routing.Userspace

/-!
# Spans and the program they spell

A list of spans spells a program: the pool indices in execution order
(`expand`).  `appendSpan` appends to that program whether or not it merges, and
the cursor's span and instruction are always those of its position
(`CursorAt`).
-/

namespace Dae

/-- The pool indices of a span. -/
def RoutingSpan.indices (s : RoutingSpan) : List Nat := List.range' s.first s.len

/-- The pool indices of a program, in execution order. -/
def expand (spans : List RoutingSpan) : List Nat := spans.flatMap (·.indices)

@[simp] theorem expand_nil : expand [] = [] := rfl

@[simp] theorem expand_cons (s : RoutingSpan) (spans : List RoutingSpan) :
    expand (s :: spans) = s.indices ++ expand spans := rfl

@[simp] theorem expand_append (l₁ l₂ : List RoutingSpan) :
    expand (l₁ ++ l₂) = expand l₁ ++ expand l₂ := by
  simp [expand]

@[simp] theorem RoutingSpan.indices_length (s : RoutingSpan) : s.indices.length = s.len := by
  simp [RoutingSpan.indices]

@[simp] theorem spanExecutionLen_nil : spanExecutionLen [] = 0 := rfl

@[simp] theorem spanExecutionLen_cons (s : RoutingSpan) (spans : List RoutingSpan) :
    spanExecutionLen (s :: spans) = s.len + spanExecutionLen spans := by
  simp [spanExecutionLen]

@[simp] theorem spanExecutionLen_append (l₁ l₂ : List RoutingSpan) :
    spanExecutionLen (l₁ ++ l₂) = spanExecutionLen l₁ + spanExecutionLen l₂ := by
  simp [spanExecutionLen]

@[simp] theorem expand_length (spans : List RoutingSpan) :
    (expand spans).length = spanExecutionLen spans := by
  induction spans with
  | nil => rfl
  | cons s spans ih => simp [ih]

/-! ### Appending -/

/-- A span that ends where it starts, or later. -/
def RoutingSpan.Ordered (s : RoutingSpan) : Prop := s.first ≤ s.last

/-- Merging two adjacent spans keeps their indices. -/
theorem indices_merge {s t : RoutingSpan} (hs : s.Ordered) (ht : t.Ordered)
    (hadj : s.last = t.first) :
    ({ s with last := t.last } : RoutingSpan).indices = s.indices ++ t.indices := by
  unfold RoutingSpan.Ordered at hs ht
  have hlen : t.last - s.first = (s.last - s.first) + (t.last - t.first) := by omega
  have hfirst : t.first = s.first + 1 * (s.last - s.first) := by omega
  simp only [RoutingSpan.indices, RoutingSpan.len]
  rw [hlen, hfirst, List.range'_append]

variable {spans : List RoutingSpan} {span : RoutingSpan}

/-- **Appending a span appends its instructions**, merged or not. -/
theorem expand_appendSpan (hspans : ∀ s ∈ spans, s.Ordered) (hspan : span.Ordered) :
    expand (appendSpan spans span) = expand spans ++ span.indices := by
  have hempty : span.first = span.last → span.indices = [] := by
    intro h
    simp [RoutingSpan.indices, RoutingSpan.len, h]
  induction spans with
  | nil =>
    simp only [appendSpan]
    split
    · rename_i h
      simp [hempty h]
    · simp
  | cons s spans ih =>
    cases spans with
    | nil =>
      simp only [appendSpan]
      split
      · rename_i h
        simp [hempty h]
      · split
        · rename_i hadj
          simp [indices_merge (hspans s (by simp)) hspan hadj.1]
        · simp
    | cons s' rest =>
      have := ih (fun x hx => hspans x (by simp [hx]))
      simp only [appendSpan, expand_cons, this, List.append_assoc]

/-- Appending keeps spans ordered, and every span that results has the phase of
one that went in. -/
theorem forall_appendSpan {P : RoutingSpan → Prop}
    (hspans : ∀ s ∈ spans, P s) (hspan : span.first ≠ span.last → P span)
    (hmerge : ∀ s ∈ spans, s.last = span.first → s.phase = span.phase →
      P { s with last := span.last }) :
    ∀ s ∈ appendSpan spans span, P s := by
  induction spans with
  | nil =>
    intro s hs
    simp only [appendSpan] at hs
    split at hs
    · simp at hs
    · rename_i hne
      simp only [List.mem_singleton] at hs
      exact hs ▸ hspan hne
  | cons x spans ih =>
    cases spans with
    | nil =>
      intro s hs
      simp only [appendSpan] at hs
      split at hs
      · exact hspans s hs
      · rename_i hne
        split at hs
        · rename_i hadj
          simp only [List.mem_singleton] at hs
          exact hs ▸ hmerge x (by simp) hadj.1 hadj.2.1
        · simp only [List.mem_cons, List.not_mem_nil, or_false] at hs
          rcases hs with rfl | rfl
          · exact hspans s (by simp)
          · exact hspan hne
    | cons x' rest =>
      intro s hs
      simp only [appendSpan, List.mem_cons] at hs
      rcases hs with rfl | hs
      · exact hspans s (by simp)
      · exact ih (fun y hy => hspans y (List.mem_cons_of_mem _ hy))
          (fun y hy => hmerge y (List.mem_cons_of_mem _ hy)) s hs

theorem ordered_appendSpan (hspans : ∀ s ∈ spans, s.Ordered) (hspan : span.Ordered) :
    ∀ s ∈ appendSpan spans span, s.Ordered := by
  refine forall_appendSpan hspans (fun _ => hspan) ?_
  intro s hs hadj _
  have hs' : s.first ≤ s.last := hspans s hs
  have hspan' : span.first ≤ span.last := hspan
  show s.first ≤ span.last
  omega

/-! ### The cursor -/

/-- The cursor's span and instruction are those of its position. -/
inductive CursorAt (spans : List RoutingSpan) (c : RoutingCursor) : Prop
  | inside (before after : List RoutingSpan) (s : RoutingSpan)
      (hspans : spans = before ++ s :: after) (hspan : c.span = before.length)
      (hfirst : s.first ≤ c.instruction) (hlast : c.instruction < s.last)
      (hpos : c.position = spanExecutionLen before + (c.instruction - s.first))
  | finished (hspan : c.span = spans.length) (hpos : c.position = spanExecutionLen spans)

/-- The loop of an advance, from the start of a span or from inside the first. -/
theorem cursorAt_skip :
    ∀ (rest before : List RoutingSpan) (c : RoutingCursor) (distance offset : Nat),
      spans = before ++ rest → c.span = before.length →
      (offset = 0 ∧ c.instruction = 0 ∨
        ∃ s after, rest = s :: after ∧ c.instruction = s.first + offset ∧
          c.instruction ≤ s.last) →
      c.position = spanExecutionLen before + offset + distance →
      offset + distance ≤ spanExecutionLen rest →
      CursorAt spans (RoutingCursor.skip c distance rest) := by
  intro rest
  induction rest with
  | nil =>
    intro before c distance offset hspans hspan hstart hpos hfit
    simp only [spanExecutionLen_nil] at hfit
    refine .finished ?_ ?_
    · simpa [RoutingCursor.skip, hspans] using hspan
    · simp only [RoutingCursor.skip, hspans, List.append_nil, hpos]
      omega
  | cons s after ih =>
    intro before c distance offset hspans hspan hstart hpos hfit
    -- Where the walk stands in this span, and how much of it is left.
    have hinstr : max c.instruction s.first = s.first + offset := by
      rcases hstart with ⟨h0, hi⟩ | ⟨s', after', heq, hi, _⟩
      · omega
      · cases heq
        omega
    have hleft : offset + (s.last - (s.first + offset)) = s.len := by
      rcases hstart with ⟨h0, hi⟩ | ⟨s', after', heq, hi, hle⟩
      · simp [RoutingSpan.len, h0]
      · cases heq
        simp only [RoutingSpan.len]
        omega
    simp only [RoutingCursor.skip, hinstr]
    by_cases hin : distance < s.last - (s.first + offset)
    · rw [if_pos hin]
      refine .inside before after s hspans hspan (by simp only; omega) (by simp only; omega) ?_
      simp only [hpos]
      omega
    · rw [if_neg hin]
      simp only [spanExecutionLen_cons] at hfit
      refine ih (before ++ [s]) _ _ 0 (by simp [hspans]) (by simp [hspan]) (.inl ⟨rfl, rfl⟩)
        ?_ (by omega)
      simp only [spanExecutionLen_append, spanExecutionLen_cons, spanExecutionLen_nil, hpos]
      omega

variable {c : RoutingCursor}

theorem CursorAt.position_le (h : CursorAt spans c) : c.position ≤ spanExecutionLen spans := by
  cases h with
  | inside before after s hspans hspan hfirst hlast hpos =>
    simp only [hspans, spanExecutionLen_append, spanExecutionLen_cons, RoutingSpan.len, hpos]
    omega
  | finished hspan hpos => exact hpos.le

@[simp] theorem skip_position (rest : List RoutingSpan) (c : RoutingCursor) (d : Nat) :
    (RoutingCursor.skip c d rest).position = c.position := by
  induction rest generalizing c d with
  | nil => rfl
  | cons s rest ih =>
    simp only [RoutingCursor.skip]
    split
    · rfl
    · rw [ih]

/-- **An advance that fits lands where its position says.** -/
theorem CursorAt.advance (h : CursorAt spans c)
    {distance : Nat} (hfit : c.position + distance ≤ spanExecutionLen spans) :
    ∃ c', RoutingCursor.advance spans c distance = some c' ∧ CursorAt spans c' ∧
      c'.position = c.position + distance := by
  have hok : ¬spanExecutionLen spans - c.position < distance := by
    have := h.position_le
    omega
  refine ⟨_, by rw [RoutingCursor.advance, if_neg hok], ?_, skip_position _ _ _⟩
  cases h with
  | inside before after s hspans hspan hfirst hlast hpos =>
    have hdrop : spans.drop c.span = s :: after := by simp [hspans, hspan]
    rw [hdrop]
    refine cursorAt_skip (s :: after) before _ distance (c.instruction - s.first) hspans hspan
      (.inr ⟨s, after, rfl, by simp only; omega, by simp only; omega⟩) (by simp only; omega) ?_
    simp only [hspans, spanExecutionLen_append] at hfit
    omega
  | finished hspan hpos =>
    have hdrop : spans.drop c.span = [] := by simp [hspan]
    rw [hdrop]
    refine .finished hspan ?_
    simp only [RoutingCursor.skip, hpos] at hfit ⊢
    omega

/-- A new cursor stands at the first instruction. -/
theorem cursorAt_new (spans : List RoutingSpan) :
    CursorAt spans (newRoutingCursor spans) ∧ (newRoutingCursor spans).position = 0 := by
  have hnew : newRoutingCursor spans = RoutingCursor.skip {} 0 spans := by
    simp [newRoutingCursor, RoutingCursor.advance]
  rw [hnew]
  exact ⟨cursorAt_skip spans [] {} 0 0 rfl rfl (.inl ⟨rfl, rfl⟩) rfl (by simp), by simp⟩

/-- The instruction under the cursor. -/
theorem CursorAt.getElem (h : CursorAt spans c)
    (hlt : c.position < spanExecutionLen spans) :
    ∃ s ∈ spans, spans[c.span]? = some s ∧ s.first ≤ c.instruction ∧ c.instruction < s.last ∧
      (expand spans)[c.position]? = some c.instruction := by
  cases h with
  | finished hspan hpos => omega
  | inside before after s hspans hspan hfirst hlast hpos =>
    refine ⟨s, by simp [hspans], by simp [hspans, hspan], hfirst, hlast, ?_⟩
    have hin : c.instruction - s.first < s.len := by
      simp only [RoutingSpan.len]
      omega
    rw [hspans, expand_append, expand_cons, hpos, List.getElem?_append_right (by simp),
      List.getElem?_append_left (by simpa using hin)]
    simp only [expand_length, Nat.add_sub_cancel_left, RoutingSpan.indices]
    rw [List.getElem?_range' hin]
    simp only [Option.some.injEq]
    omega

/-- A finished cursor is past the last span. -/
theorem CursorAt.getElem_none
    (h : CursorAt spans c) (hend : c.position = spanExecutionLen spans) :
    spans[c.span]? = none := by
  cases h with
  | finished hspan _ => simp [hspan]
  | inside before after s hspans hspan hfirst hlast hpos =>
    simp only [hspans, spanExecutionLen_append, spanExecutionLen_cons, RoutingSpan.len] at hend
    omega

/-- The span of a cursor in a list of two parts: one of the first part, up to the end of
which the rest of the span reaches at most, or one of the second. -/
theorem CursorAt.split {first rest : List RoutingSpan}
    (h : CursorAt (first ++ rest) c) {s : RoutingSpan}
    (hs : (first ++ rest)[c.span]? = some s) :
    (c.position < spanExecutionLen first ∧ s ∈ first ∧ c.instruction < s.last ∧
        c.position + (s.last - c.instruction) ≤ spanExecutionLen first) ∨
      spanExecutionLen first ≤ c.position ∧ s ∈ rest := by
  cases h with
  | finished hspan _ =>
    rw [hspan, List.getElem?_eq_none (Nat.le_refl _)] at hs
    cases hs
  | inside before after s' hspans hspan hfirst hlast hpos =>
    have hsame : s = s' := by
      rw [hspans, hspan, List.getElem?_append_right (Nat.le_refl _), Nat.sub_self] at hs
      exact (Option.some.inj hs).symm
    subst hsame
    rcases List.append_eq_append_iff.mp hspans with ⟨mid, hbefore, hrest⟩ | ⟨mid, hfirst', hafter⟩
    · refine .inr ⟨?_, ?_⟩
      · rw [hpos, hbefore, spanExecutionLen_append]
        omega
      · rw [hrest]
        exact List.mem_append_right _ List.mem_cons_self
    · cases mid with
      | nil =>
        rw [List.append_nil] at hfirst'
        refine .inr ⟨?_, ?_⟩
        · rw [hpos, hfirst']
          omega
        · rw [← List.nil_append rest, ← hafter]
          exact List.mem_cons_self
      | cons x mid =>
        obtain ⟨rfl, -⟩ := List.cons.inj hafter
        have hlen : spanExecutionLen first =
            spanExecutionLen before + (s.last - s.first + spanExecutionLen mid) := by
          rw [hfirst', spanExecutionLen_append, spanExecutionLen_cons, RoutingSpan.len]
        refine .inl ⟨by omega, ?_, hlast, by omega⟩
        rw [hfirst']
        exact List.mem_append_right _ List.mem_cons_self

end Dae
