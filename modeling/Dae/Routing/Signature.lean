import Dae.Lib.PrefixCode
import Dae.Routing.Config

/-!
# Condition signatures

The compiler caches a conditional variant of a rule set under the printed text of
its condition.  Two conditions with the same text ask the same thing: they agree in
every function's name, negation and parameters.  Only the quoting of a function's
name is lost, where the name is quoted anyway, and compilation never reads it.
-/

namespace Dae

open PrefixCode

/-- The functions agree in all that compilation reads. -/
def Function.Same (f g : Function) : Prop :=
  f.name = g.name ∧ f.not = g.not ∧ f.params = g.params

/-- The functions also agree in the quoting of a name that can be written bare. -/
def Function.Alike (f g : Function) : Prop :=
  f.Same g ∧ (isBareLiteral f.name.toList = true → f.quoted = g.quoted)

/-! ### Characters -/

/-- Characters with a meaning in printed conditions are not bare. -/
theorem not_mem_bareRest : '"' ∉ bareRest ∧ ':' ∉ bareRest ∧ '(' ∉ bareRest ∧ ')' ∉ bareRest := by
  decide +kernel

theorem bang_not_mem_bareHead : '!' ∉ bareHead := by decide +kernel

theorem isBareLiteral_head {c : Char} {cs : List Char} (h : isBareLiteral (c :: cs) = true) :
    c ∈ bareHead := by
  rw [isBareLiteral, Bool.and_eq_true] at h
  exact List.contains_iff_mem.mp h.1

theorem isBareLiteral_mem {name : List Char} (h : isBareLiteral name = true) {c : Char}
    (hc : c ∈ name) : c ∈ bareRest := by
  cases name with
  | nil => cases hc
  | cons d cs =>
    rcases List.mem_cons.mp hc with rfl | hrest
    · exact List.mem_append_left _ (isBareLiteral_head h)
    · rw [isBareLiteral, Bool.and_eq_true, List.all_eq_true] at h
      exact List.contains_iff_mem.mp (h.2 c hrest)

/-! ### Literals and names -/

theorem quoteLiteral_eq (v s : List Char) :
    quoteLiteral v ++ s = '"' :: (v.flatMap escape ++ '"' :: s) := by
  have hescape : (fun c => if c = '"' ∨ c = '\\' then ['\\', c] else [c]) = escape := rfl
  simp [quoteLiteral, hescape]

theorem quoteLiteral_isCode : IsCode Eq quoteLiteral := by
  intro v v' s t h
  rw [quoteLiteral_eq, quoteLiteral_eq] at h
  exact quoted v v' s t (List.cons.inj h).2

/-- A printed name starts with a quote or with the first character of a bare word. -/
theorem formatFunctionName_start (name : List Char) (isQuoted : Bool) :
    ∃ c rest, formatFunctionName name isQuoted = c :: rest ∧ (c = '"' ∨ c ∈ bareHead) := by
  unfold formatFunctionName
  by_cases hq : (isQuoted || !isBareLiteral name) = true
  · rw [if_pos hq]
    exact ⟨'"', _, rfl, .inl rfl⟩
  · rw [if_neg hq]
    have hbare : isBareLiteral name = true := by
      by_contra hn
      exact hq (by simp [hn])
    cases name with
    | nil => cases hbare
    | cons c cs => exact ⟨c, cs, rfl, .inr (isBareLiteral_head hbare)⟩

/-- A printed name is read up to the parenthesis. -/
theorem formatFunctionName_inj {name name' : List Char} {isQuoted isQuoted' : Bool}
    {s t : List Char}
    (h : formatFunctionName name isQuoted ++ '(' :: s =
      formatFunctionName name' isQuoted' ++ '(' :: t) :
    (name = name' ∧ (isBareLiteral name = true → isQuoted = isQuoted')) ∧ s = t := by
  obtain ⟨hquote, -, hparen, -⟩ := not_mem_bareRest
  -- A bare word neither starts like a quoted one nor contains a parenthesis.
  have hbare : ∀ n : List Char, ∀ q : Bool, ¬(q || !isBareLiteral n) = true →
      '(' ∉ n ∧ ∀ u v, n ++ '(' :: u ≠ '"' :: v := by
    intro n q hn
    have hlit : isBareLiteral n = true := by
      by_contra hno
      exact hn (by simp [hno])
    refine ⟨fun hm => hparen (isBareLiteral_mem hlit hm), ?_⟩
    intro u v huv
    cases n with
    | nil => cases hlit
    | cons c cs =>
      rw [List.cons_append, List.cons.injEq] at huv
      exact hquote (huv.1 ▸ List.mem_append_left _ (isBareLiteral_head hlit))
  unfold formatFunctionName at h
  by_cases hq : (isQuoted || !isBareLiteral name) = true
  · by_cases hq' : (isQuoted' || !isBareLiteral name') = true
    · rw [if_pos hq, if_pos hq'] at h
      obtain ⟨rfl, hrest⟩ := quoteLiteral_isCode _ _ _ _ h
      exact ⟨⟨rfl, fun hlit => by simp_all⟩, (List.cons.inj hrest).2⟩
    · rw [if_pos hq, if_neg hq', quoteLiteral_eq] at h
      exact absurd h.symm ((hbare name' isQuoted' hq').2 _ _)
  · by_cases hq' : (isQuoted' || !isBareLiteral name') = true
    · rw [if_neg hq, if_pos hq', quoteLiteral_eq] at h
      exact absurd h ((hbare name isQuoted hq).2 _ _)
    · rw [if_neg hq, if_neg hq'] at h
      obtain ⟨rfl, hrest⟩ := terminated (hbare name isQuoted hq).1 (hbare name' isQuoted' hq').1 h
      exact ⟨⟨rfl, fun _ => by simp_all⟩, hrest⟩

/-! ### Parameters -/

theorem Param.string_eq (p : Param) : p.string true true =
    if p.key ≠ "" then p.key.toList ++ ':' :: quoteLiteral p.val.toList
    else quoteLiteral p.val.toList := by
  unfold Param.string
  by_cases hk : p.key ≠ ""
  · simp [hk]
  · simp [hk]

/-- A nonempty key is a bare word. -/
theorem Param.key_bare {p : Param} (hk : p.key ≠ "") : isBareLiteral p.key.toList = true := by
  have hgrammar := p.grammar
  unfold isParamKey at hgrammar
  rcases Bool.or_eq_true _ _ ▸ hgrammar with hempty | hbare
  · rw [List.isEmpty_iff, String.toList_eq_nil_iff] at hempty
    exact absurd hempty hk
  · exact hbare

theorem Param.string_start (p : Param) (s : List Char) :
    ∃ c rest, p.string true true ++ s = c :: rest ∧
      (p.key = "" ∧ c = '"' ∨ p.key ≠ "" ∧ c ∈ bareRest) := by
  rw [p.string_eq]
  by_cases hk : p.key ≠ ""
  · rw [if_pos hk]
    have hbare := p.key_bare hk
    cases hkey : p.key.toList with
    | nil =>
      rw [hkey] at hbare
      cases hbare
    | cons c cs =>
      rw [hkey] at hbare
      exact ⟨c, _, rfl, .inr ⟨hk, List.mem_append_left _ (isBareLiteral_head hbare)⟩⟩
  · rw [if_neg hk, quoteLiteral_eq]
    exact ⟨'"', _, rfl, .inl ⟨not_not.mp hk, rfl⟩⟩

theorem Param.ext' {p q : Param} (hkey : p.key = q.key) (hval : p.val = q.val) : p = q := by
  cases p
  cases q
  cases hkey
  cases hval
  rfl

theorem Param.string_isCode : IsCode Eq (Param.string true true) := by
  intro p q s t h
  obtain ⟨hquote, hcolon, -, -⟩ := not_mem_bareRest
  obtain ⟨c, u, hp, hcp⟩ := p.string_start s
  obtain ⟨d, v, hq, hdq⟩ := q.string_start t
  have hcd : c = d := by
    rw [hp, hq] at h
    exact (List.cons.inj h).1
  subst hcd
  rw [p.string_eq, q.string_eq] at h
  by_cases hk : p.key = ""
  · have hk' : q.key = "" := by
      rcases hdq with ⟨hq', -⟩ | ⟨-, hmem⟩
      · exact hq'
      · have hc : c = '"' := by
          rcases hcp with ⟨-, hc⟩ | ⟨hno, -⟩
          · exact hc
          · exact absurd hk hno
        exact absurd (hc ▸ hmem) hquote
    rw [if_neg (not_not.mpr hk), if_neg (not_not.mpr hk')] at h
    obtain ⟨hval, hrest⟩ := quoteLiteral_isCode _ _ _ _ h
    exact ⟨Param.ext' (hk.trans hk'.symm) (String.toList_inj.mp hval), hrest⟩
  · have hk' : q.key ≠ "" := by
      intro hq'
      have hc : c = '"' := by
        rcases hdq with ⟨-, hc⟩ | ⟨hno, -⟩
        · exact hc
        · exact absurd hq' hno
      rcases hcp with ⟨hp', -⟩ | ⟨-, hmem⟩
      · exact hk hp'
      · exact hquote (hc ▸ hmem)
    rw [if_pos hk, if_pos hk', List.append_assoc, List.append_assoc, List.cons_append,
      List.cons_append] at h
    obtain ⟨hkey, hrest⟩ := terminated
      (fun hm => hcolon (isBareLiteral_mem (p.key_bare hk) hm))
      (fun hm => hcolon (isBareLiteral_mem (q.key_bare hk') hm)) h
    obtain ⟨hval, hrest⟩ := quoteLiteral_isCode _ _ _ _ hrest
    exact ⟨Param.ext' (String.toList_inj.mp hkey) (String.toList_inj.mp hval), hrest⟩

/-! ### Functions and conditions -/

theorem Function.string_eq (f : Function) (s : List Char) :
    f.string true true false ++ s =
      (if f.not then ['!'] else []) ++ (formatFunctionName f.name.toList f.quoted ++ '(' ::
        (List.intercalate [','] (f.params.map (Param.string true true)) ++ ')' :: s)) := by
  simp [Function.string]

theorem Function.string_isCode : IsCode Function.Alike (Function.string true true false) := by
  intro f g s t h
  rw [f.string_eq, g.string_eq] at h
  obtain ⟨hquote, -, -, hclose⟩ := not_mem_bareRest
  -- The negation mark is not the start of a name.
  have hbang : ∀ (k : Function) (u v : List Char),
      formatFunctionName k.name.toList k.quoted ++ u ≠ '!' :: v := by
    intro k u v huv
    obtain ⟨c, rest, heq, hc⟩ := formatFunctionName_start k.name.toList k.quoted
    rw [heq, List.cons_append, List.cons.injEq] at huv
    rcases hc with hc | hc
    · rw [hc] at huv
      exact absurd huv.1 (by decide)
    · exact bang_not_mem_bareHead (huv.1 ▸ hc)
  have hnot : f.not = g.not ∧ formatFunctionName f.name.toList f.quoted ++ '(' ::
        (List.intercalate [','] (f.params.map (Param.string true true)) ++ ')' :: s) =
      formatFunctionName g.name.toList g.quoted ++ '(' ::
        (List.intercalate [','] (g.params.map (Param.string true true)) ++ ')' :: t) := by
    cases hf : f.not with
    | true =>
      cases hg : g.not with
      | true =>
        rw [hf, hg] at h
        exact ⟨rfl, (List.cons.inj h).2⟩
      | false =>
        rw [hf, hg] at h
        exact absurd h.symm (hbang g _ _)
    | false =>
      cases hg : g.not with
      | true =>
        rw [hf, hg] at h
        exact absurd h (hbang f _ _)
      | false =>
        rw [hf, hg] at h
        exact ⟨rfl, h⟩
  obtain ⟨⟨hname, hquoted⟩, hrest⟩ := formatFunctionName_inj hnot.2
  have hstart : ∀ (p : Param) (u v : List Char), p.string true true ++ u ≠ ')' :: v := by
    intro p u v huv
    obtain ⟨c, rest, heq, hc⟩ := p.string_start u
    rw [heq, List.cons.injEq] at huv
    rcases hc with ⟨-, hc⟩ | ⟨-, hc⟩
    · rw [hc] at huv
      exact absurd huv.1 (by decide)
    · exact hclose (huv.1 ▸ hc)
  obtain ⟨hparams, hs⟩ := separated Param.string_isCode (by decide) hstart hrest
  exact ⟨⟨⟨String.toList_inj.mp hname, hnot.1, List.forall₂_eq_eq_eq ▸ hparams⟩, hquoted⟩, hs⟩

/-- Equal printed conditions agree, function by function. -/
theorem condition_alike {name name' : String} {condition condition' : List Function}
    (h : routingSetKey name condition = routingSetKey name' condition') :
    List.Forall₂ Function.Alike condition condition' := by
  refine concat ?_ ?_ (congrArg RoutingRuleSetKey.condition h)
  · intro f g s t hfg
    rw [List.append_assoc, List.append_assoc] at hfg
    obtain ⟨halike, hrest⟩ := Function.string_isCode f g _ _ hfg
    exact ⟨halike, by simpa using hrest⟩
  · intro f
    exact List.append_ne_nil_of_right_ne_nil _ (by simp)

/-- **Signatures are injective.**  Equal keys belong to equal names and to conditions
that agree, function by function. -/
theorem routingSetKey_inj {name name' : String} {condition condition' : List Function}
    (h : routingSetKey name condition = routingSetKey name' condition') :
    name = name' ∧ List.Forall₂ Function.Same condition condition' :=
  ⟨congrArg RoutingRuleSetKey.name h, (condition_alike h).imp fun _ _ halike => halike.1⟩

/-- Functions that are alike are printed alike. -/
theorem Function.Alike.string_eq {f g : Function} (h : f.Alike g) (compact quoteVal omitEmpty : Bool) :
    f.string compact quoteVal omitEmpty = g.string compact quoteVal omitEmpty := by
  obtain ⟨⟨hname, hnot, hparams⟩, hquoted⟩ := h
  have hprinted : formatFunctionName f.name.toList f.quoted =
      formatFunctionName g.name.toList g.quoted := by
    unfold formatFunctionName
    rw [← hname]
    by_cases hbare : isBareLiteral f.name.toList = true
    · rw [hquoted hbare]
    · simp [hbare]
  rw [Function.string, Function.string, hprinted, hnot, hparams]

/-- **Equal keys.**  Two keys are equal exactly when the names are and the conditions have, in
the same order, functions of the same name, negation and parameters, and of the same quoting
where the name is a bare literal. -/
theorem routingSetKey_eq_iff (name name' : String) (condition condition' : List Function) :
    routingSetKey name condition = routingSetKey name' condition' ↔
      name = name' ∧ List.Forall₂ Function.Alike condition condition' := by
  constructor
  · intro h
    exact ⟨congrArg RoutingRuleSetKey.name h, condition_alike h⟩
  · rintro ⟨rfl, halike⟩
    unfold routingSetKey
    congr 1
    induction halike with
    | nil => rfl
    | cons hfg _ ih => rw [List.flatMap_cons, List.flatMap_cons, hfg.string_eq, ih]

/-- The quoting of a name with a blank is lost. -/
theorem routingSetKey_loses_quoting :
    ∃ f g : Function, routingSetKey "home" [f] = routingSetKey "home" [g] ∧ f.quoted ≠ g.quoted :=
  ⟨{ name := "a b" }, { name := "a b", quoted := true }, by decide, by decide⟩

end Dae
