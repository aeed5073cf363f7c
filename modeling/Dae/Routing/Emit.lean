import Dae.Lib.Result
import Dae.Routing.World

/-!
# What emission appends

Every function parser appends the instructions of one clause to the pool and grows
the tables, and nothing else.  `Emits` says so for a single step, and it composes;
the specification of each parser adds what the new clause asks.

The pool is read as it is loaded, with every interface instruction patched to the
current index of its interface (`RoutingMatcherBuilder.loaded`), because that is
what both interpreters see.
-/

namespace Dae

open RuleMachine

/-! ### The loaded pool -/

/-- `updateIfindex`: the first four value bytes. -/
def MatchSet.setIfindex (ifindex : BitVec 32) (m : MatchSet) : MatchSet :=
  { m with value := m.value >>> 32 <<< 32 ||| ifindex.setWidth 128 }

/-- The pool after `activateInterfaceRulePatches`. -/
def loadRules (ifindexOf : String → BitVec 32) (patches : List RoutingInterfaceRulePatch)
    (rules : List MatchSet) : List MatchSet :=
  patches.foldl
    (fun rules patch => rules.modify patch.matchIndex (MatchSet.setIfindex (ifindexOf patch.ifname)))
    rules

def RoutingMatcherBuilder.loaded (ifindexOf : String → BitVec 32) (b : RoutingMatcherBuilder) :
    List MatchSet :=
  loadRules ifindexOf b.interfaceRulePatches b.rules

theorem loadRules_length (ifindexOf : String → BitVec 32)
    (patches : List RoutingInterfaceRulePatch) (rules : List MatchSet) :
    (loadRules ifindexOf patches rules).length = rules.length := by
  unfold loadRules
  induction patches generalizing rules with
  | nil => rfl
  | cons patch patches ih => rw [List.foldl_cons, ih, List.length_modify]

/-- Patches of old instructions leave new ones alone. -/
theorem loadRules_append (ifindexOf : String → BitVec 32)
    {patches : List RoutingInterfaceRulePatch} {rules : List MatchSet}
    (h : ∀ patch ∈ patches, patch.matchIndex < rules.length) (more : List MatchSet) :
    loadRules ifindexOf patches (rules ++ more) = loadRules ifindexOf patches rules ++ more := by
  unfold loadRules
  induction patches generalizing rules with
  | nil => rfl
  | cons patch patches ih =>
    rw [List.foldl_cons, List.foldl_cons, List.modify_append_left _ (h patch List.mem_cons_self)]
    refine ih ?_
    intro p hp
    rw [List.length_modify]
    exact h p (List.mem_cons_of_mem _ hp)

theorem loadRules_patches_append (ifindexOf : String → BitVec 32)
    (patches more : List RoutingInterfaceRulePatch) (rules : List MatchSet) :
    loadRules ifindexOf (patches ++ more) rules =
      loadRules ifindexOf more (loadRules ifindexOf patches rules) := by
  unfold loadRules
  rw [List.foldl_append]

theorem RoutingMatcherBuilder.loaded_length (ifindexOf : String → BitVec 32)
    (b : RoutingMatcherBuilder) : (b.loaded ifindexOf).length = b.rules.length :=
  loadRules_length ifindexOf _ _

/-! ### Instructions of conditions -/

/-- An alternative of a clause. -/
def orSet (not : Bool) (a : Atom) : MatchSet :=
  { type := a.type, value := a.value, action := .or, flags := routingMatchFlags not false false }

/-- The tail of a clause. -/
def tailSet (a : Atom) (t : Terminal) : MatchSet :=
  { type := a.type, value := a.value, action := t.action, outbound := t.outbound, mark := t.mark,
    flags := t.flags }

/-- The terminals of logical instructions. -/
def orTerminal (not : Bool) : Terminal :=
  { action := .or, flags := routingMatchFlags not false false }

def andTerminal (not : Bool) : Terminal :=
  { action := .and, flags := routingMatchFlags not false false }

/-- The instructions of a clause before the jumps are filled in. -/
def clauseSets (c : Clause Atom) (t : Terminal) : List MatchSet :=
  c.alternatives.map (orSet c.not) ++ [tailSet c.last t]

/-- The instructions of a condition before the jumps are filled in. -/
def condSets (p : Cond Atom) (t : Terminal) : List MatchSet :=
  (p.init.flatMap fun c => clauseSets c (andTerminal c.not)) ++ clauseSets p.last t

/-- The atoms of a clause. -/
def clauseAtoms (c : Clause Atom) : List Atom := c.alternatives ++ [c.last]

@[simp] theorem tailSet_atom (a : Atom) (t : Terminal) : (tailSet a t).atom = a := rfl

theorem tailSet_orTerminal (not : Bool) (a : Atom) : tailSet a (orTerminal not) = orSet not a :=
  rfl

theorem clauseSets_length (c : Clause Atom) (t : Terminal) :
    (clauseSets c t).length = c.size := by
  simp [clauseSets, Clause.size]

theorem condSets_length (p : Cond Atom) (t : Terminal) : (condSets p t).length = p.size := by
  obtain ⟨init, last⟩ := p
  unfold condSets Cond.size
  induction init with
  | nil => simp [clausesSize, clauseSets_length]
  | cons c cs ih =>
    simp only [List.flatMap_cons, List.append_assoc, List.length_append, clausesSize,
      clauseSets_length] at ih ⊢
    rw [ih]

theorem mem_clauseSets {c : Clause Atom} {t : Terminal} {m : MatchSet}
    (h : m ∈ clauseSets c t) : m.atom ∈ clauseAtoms c ∧ (m.action = .or ∨ m = tailSet c.last t) := by
  unfold clauseSets at h
  rcases List.mem_append.mp h with hor | htail
  · obtain ⟨a, ha, rfl⟩ := List.mem_map.mp hor
    exact ⟨List.mem_append_left _ ha, .inl rfl⟩
  · rw [List.mem_singleton.mp htail]
    exact ⟨List.mem_append_right _ (List.mem_singleton.mpr rfl), .inr rfl⟩

/-- An instruction of a condition is logical or the tail. -/
theorem mem_condSets {p : Cond Atom} {t : Terminal} {m : MatchSet} (h : m ∈ condSets p t) :
    m.action = .or ∨ m.action = .and ∨ m = tailSet p.last.last t := by
  unfold condSets at h
  rcases List.mem_append.mp h with hinit | hlast
  · obtain ⟨c, -, hm⟩ := List.mem_flatMap.mp hinit
    rcases (mem_clauseSets hm).2 with hor | rfl
    · exact .inl hor
    · exact .inr (.inl rfl)
  · rcases (mem_clauseSets hlast).2 with hor | htail
    · exact .inl hor
    · exact .inr (.inr htail)

/-! ### Growth -/

/-- The index of an instruction points into its table. -/
def AtomOK (lim : Limits) (lpmLen : Nat) (a : Atom) : Prop :=
  match a.type with
  | .domainSet => a.matchSet.index.toNat < lim.maxMatchSetLen
  | .ipSet | .sourceIpSet | .mac => a.matchSet.index.toNat < lpmLen
  | .mustRules | .upstream | .qType => False
  | _ => True

theorem AtomOK.mono {lim : Limits} {n n' : Nat} {a : Atom} (h : AtomOK lim n a) (hn : n ≤ n') :
    AtomOK lim n' a := by
  unfold AtomOK at h ⊢
  cases ht : a.type <;> simp only [ht] at h ⊢ <;> first | exact h | omega

section Growth

variable (lim : Limits) (ifindexOf : String → BitVec 32)

/-- The tables and the loaded pool only grow. -/
structure Extends (b b' : RoutingMatcherBuilder) : Prop where
  outbounds : b'.outboundName2Id = b.outboundName2Id
  tries : b.simulatedLpmTries <+: b'.simulatedLpmTries
  statics : b.staticLpmIDs <+: b'.staticLpmIDs
  clients : b.clientSetSlots <+: b'.clientSetSlots
  domains : b.simulatedDomainSet <+: b'.simulatedDomainSet
  pool : b.loaded ifindexOf <+: b'.loaded ifindexOf

/-- The builder's own bookkeeping is in range. -/
structure WellFormed (b : RoutingMatcherBuilder) : Prop where
  patches : ∀ patch ∈ b.interfaceRulePatches, patch.matchIndex < b.rules.length
  domains : b.simulatedDomainSet.length ≤ lim.maxMatchSetLen
  clients : ∀ name slot, (name, slot) ∈ b.clientSetSlots → slot < b.simulatedLpmTries.length
  statics : ∀ id ∈ b.staticLpmIDs, id < b.simulatedLpmTries.length
  atoms : ∀ m ∈ b.loaded ifindexOf, AtomOK lim b.simulatedLpmTries.length m.atom
  slots : b.simulatedLpmTries.length ≤ b.rules.length

/-- The fields that emission does not touch. -/
structure SameProfiles (b b' : RoutingMatcherBuilder) : Prop where
  profiles : b'.profiles = b.profiles
  fallbackSpans : b'.fallbackSpans = b.fallbackSpans
  kernelLpmLen : b'.kernelLpmLen = b.kernelLpmLen
  programEnd : b'.programEnd = b.programEnd
  defaultProfileID : b'.defaultProfileID = b.defaultProfileID

/-- A step that appends `added` to the loaded pool. -/
structure Emits (b b' : RoutingMatcherBuilder) (added : List MatchSet) : Prop where
  grows : Extends ifindexOf b b'
  loaded : b'.loaded ifindexOf = b.loaded ifindexOf ++ added
  wellFormed : WellFormed lim ifindexOf b'
  same : SameProfiles b b'

variable {lim ifindexOf}

theorem Extends.refl (b : RoutingMatcherBuilder) : Extends ifindexOf b b :=
  ⟨rfl, List.prefix_rfl, List.prefix_rfl, List.prefix_rfl, List.prefix_rfl, List.prefix_rfl⟩

variable {b b' b'' : RoutingMatcherBuilder}

theorem Extends.trans (h : Extends ifindexOf b b')
    (h' : Extends ifindexOf b' b'') : Extends ifindexOf b b'' :=
  ⟨h'.outbounds.trans h.outbounds, h.tries.trans h'.tries, h.statics.trans h'.statics,
    h.clients.trans h'.clients, h.domains.trans h'.domains, h.pool.trans h'.pool⟩

theorem SameProfiles.refl (b : RoutingMatcherBuilder) : SameProfiles b b :=
  ⟨rfl, rfl, rfl, rfl, rfl⟩

theorem SameProfiles.trans (h : SameProfiles b b')
    (h' : SameProfiles b' b'') : SameProfiles b b'' :=
  ⟨h'.profiles.trans h.profiles, h'.fallbackSpans.trans h.fallbackSpans,
    h'.kernelLpmLen.trans h.kernelLpmLen, h'.programEnd.trans h.programEnd,
    h'.defaultProfileID.trans h.defaultProfileID⟩

theorem Emits.refl (h : WellFormed lim ifindexOf b) :
    Emits lim ifindexOf b b [] :=
  ⟨Extends.refl b, (List.append_nil _).symm, h, SameProfiles.refl b⟩

theorem Emits.trans {added added' : List MatchSet}
    (h : Emits lim ifindexOf b b' added) (h' : Emits lim ifindexOf b' b'' added') :
    Emits lim ifindexOf b b'' (added ++ added') := by
  refine ⟨h.grows.trans h'.grows, ?_, h'.wellFormed, h.same.trans h'.same⟩
  rw [h'.loaded, h.loaded, List.append_assoc]

/-- Tables that fit a builder fit every builder it grew from. -/
theorem World.Fits.of_extends {w : World} (h : w.Fits b')
    (he : Extends ifindexOf b b') (hwf : WellFormed lim ifindexOf b) : w.Fits b where
  addressable := he.tries.length_le.trans h.addressable
  static := by
    intro id hid
    have hlt := hwf.statics id hid
    have hsome : b.simulatedLpmTries[id]? = some (b.simulatedLpmTries[id]) :=
      List.getElem?_eq_getElem hlt
    have hext := he.tries.getElem?_eq_some hsome
    rw [h.static id (he.statics.subset hid)] at hext
    rw [hsome, ← hext]
  client := fun name slot hmem => h.client name slot (he.clients.subset hmem)
  domain := fun i set hset => h.domain i set (he.domains.getElem?_eq_some hset)

/-- Tables that have grown for an instruction still to come. -/
structure Grown (lim : Limits) (b b' : RoutingMatcherBuilder) : Prop where
  rules : b'.rules = b.rules
  patches : b'.interfaceRulePatches = b.interfaceRulePatches
  outbounds : b'.outboundName2Id = b.outboundName2Id
  tries : b.simulatedLpmTries <+: b'.simulatedLpmTries
  statics : b.staticLpmIDs <+: b'.staticLpmIDs
  clients : b.clientSetSlots <+: b'.clientSetSlots
  domains : b.simulatedDomainSet <+: b'.simulatedDomainSet
  domainsLe : b'.simulatedDomainSet.length ≤ lim.maxMatchSetLen
  clientsLt : ∀ name slot, (name, slot) ∈ b'.clientSetSlots → slot < b'.simulatedLpmTries.length
  staticsLt : ∀ id ∈ b'.staticLpmIDs, id < b'.simulatedLpmTries.length
  slots : b'.simulatedLpmTries.length ≤ b.simulatedLpmTries.length + 1
  same : SameProfiles b b'

theorem Grown.refl (h : WellFormed lim ifindexOf b) :
    Grown lim b b where
  rules := rfl
  patches := rfl
  outbounds := rfl
  tries := List.prefix_rfl
  statics := List.prefix_rfl
  clients := List.prefix_rfl
  domains := List.prefix_rfl
  domainsLe := h.domains
  clientsLt := h.clients
  staticsLt := h.statics
  slots := Nat.le_succ _
  same := SameProfiles.refl b

/-- Appending instructions whose atoms are in range, with patches for the new
instructions only, is an emission. -/
theorem emits_append {b₁ : RoutingMatcherBuilder} (hwf : WellFormed lim ifindexOf b)
    (hg : Grown lim b b₁) (rules : List MatchSet) (patches : List RoutingInterfaceRulePatch)
    {added : List MatchSet} (hne : rules ≠ [])
    (hb' : b' = { b₁ with
      rules := b₁.rules ++ rules
      interfaceRulePatches := b₁.interfaceRulePatches ++ patches })
    (hpatches : ∀ patch ∈ patches, patch.matchIndex < b.rules.length + rules.length)
    (hload : ∀ pre : List MatchSet, pre.length = b.rules.length →
      loadRules ifindexOf patches (pre ++ rules) = pre ++ added)
    (hok : ∀ m ∈ added, AtomOK lim b₁.simulatedLpmTries.length m.atom) :
    Emits lim ifindexOf b b' added := by
  subst hb'
  have hloaded : RoutingMatcherBuilder.loaded ifindexOf { b₁ with
      rules := b₁.rules ++ rules
      interfaceRulePatches := b₁.interfaceRulePatches ++ patches } =
      b.loaded ifindexOf ++ added := by
    show loadRules ifindexOf (b₁.interfaceRulePatches ++ patches) (b₁.rules ++ rules) = _
    rw [hg.rules, hg.patches, loadRules_patches_append, loadRules_append _ hwf.patches]
    exact hload _ (loadRules_length _ _ _)
  refine ⟨⟨hg.outbounds, hg.tries, hg.statics, hg.clients, hg.domains, ?_⟩, hloaded, ?_,
    ⟨hg.same.profiles, hg.same.fallbackSpans, hg.same.kernelLpmLen, hg.same.programEnd,
      hg.same.defaultProfileID⟩⟩
  · rw [hloaded]
    exact List.prefix_append _ _
  · refine ⟨?_, hg.domainsLe, hg.clientsLt, hg.staticsLt, ?_, ?_⟩
    · intro patch hp
      show patch.matchIndex < (b₁.rules ++ rules).length
      rw [List.length_append, hg.rules]
      rcases List.mem_append.mp hp with hold | hnew
      · rw [hg.patches] at hold
        exact Nat.lt_add_right _ (hwf.patches patch hold)
      · exact hpatches patch hnew
    · intro m hm
      rw [hloaded] at hm
      rcases List.mem_append.mp hm with hold | hnew
      · exact (hwf.atoms m hold).mono hg.tries.length_le
      · exact hok m hnew
    · show b₁.simulatedLpmTries.length ≤ (b₁.rules ++ rules).length
      have hpos : 0 < rules.length := List.length_pos_iff.mpr hne
      have := hg.slots
      have := hwf.slots
      rw [List.length_append, hg.rules]
      omega

end Growth

/-! ### Single matches -/

/-- The terminal that `matchSet` gives to an instruction. -/
def tailTerminal (outbounds : String → Option (BitVec 8)) (not : Bool) (out : Outbound) :
    Terminal :=
  if out.name = logicalOr then orTerminal not
  else if out.name = logicalAnd then andTerminal not
  else
    { action := .route
      outbound := (outbounds out.name).getD 0
      mark := out.mark
      flags := routingMatchFlags not out.must out.skipWhileNoalive }

theorem matchSet_spec {env : CompileEnv} {b : RoutingMatcherBuilder} {kind : MatchType}
    {not : Bool} {out : Outbound} {set : MatchSet} (h : b.matchSet env kind not out = .ok set) :
    set = tailSet ⟨kind, 0⟩ (tailTerminal b.outboundName2Id not out) := by
  unfold RoutingMatcherBuilder.matchSet at h
  unfold tailTerminal
  by_cases hor : out.name = logicalOr
  · rw [if_pos hor] at h ⊢
    cases h
    rfl
  by_cases hand : out.name = logicalAnd
  · rw [if_neg hor, if_pos hand] at h ⊢
    cases h
    rfl
  rw [if_neg hor, if_neg hand] at h ⊢
  cases hid : b.outboundName2Id out.name with
  | none =>
    rw [hid] at h
    cases h
  | some id =>
    simp only [hid] at h
    obtain ⟨-, h⟩ := Except.ite_error_eq_ok h
    obtain ⟨-, h⟩ := Except.ite_error_eq_ok h
    cases h
    rfl

/-- A logical target, or a name that has an outbound. -/
def Outbound.Known (outbounds : String → Option (BitVec 8)) (out : Outbound) : Prop :=
  out.name = logicalOr ∨ out.name = logicalAnd ∨ ∃ id, outbounds out.name = some id

theorem matchSet_known {env : CompileEnv} {b : RoutingMatcherBuilder} {kind : MatchType}
    {not : Bool} {out : Outbound} {set : MatchSet} (h : b.matchSet env kind not out = .ok set) :
    out.Known b.outboundName2Id := by
  unfold RoutingMatcherBuilder.matchSet at h
  by_cases hor : out.name = logicalOr
  · exact .inl hor
  by_cases hand : out.name = logicalAnd
  · exact .inr (.inl hand)
  rw [if_neg hor, if_neg hand] at h
  cases hid : b.outboundName2Id out.name with
  | none =>
    rw [hid] at h
    cases h
  | some id => exact .inr (.inr ⟨id, hid⟩)

section Parsers

variable {env : CompileEnv} {ifindexOf : String → BitVec 32} {b b₁ b' : RoutingMatcherBuilder}

variable {f : Function} {kind : MatchType} {out : Outbound}

/-- A single instruction. -/
theorem addMatch_emits {value : BitVec 128}
    (hwf : WellFormed env.lim ifindexOf b) (hg : Grown env.lim b b₁)
    (h : b₁.addMatch env f kind value out = .ok b')
    (hok : AtomOK env.lim b₁.simulatedLpmTries.length ⟨kind, value⟩) :
    Emits env.lim ifindexOf b b'
      (clauseSets ⟨[], ⟨kind, value⟩, f.not⟩ (tailTerminal b.outboundName2Id f.not out)) := by
  unfold RoutingMatcherBuilder.addMatch at h
  obtain ⟨set, hset, h⟩ := Except.bind_eq_ok h
  have hspec := matchSet_spec hset
  rw [hg.outbounds] at hspec
  cases h
  refine emits_append hwf hg [{ set with value }] [] (by simp) ?_ ?_ ?_ ?_
  · simp
  · simp
  · intro pre _
    subst hspec
    rfl
  · intro m hm
    rw [List.mem_singleton.mp hm]
    exact hok

theorem addMatch_known {value : BitVec 128}
    (hg : Grown env.lim b b₁) (h : b₁.addMatch env f kind value out = .ok b') :
    out.Known b.outboundName2Id := by
  obtain ⟨set, hset, -⟩ := Except.bind_eq_ok h
  rw [← hg.outbounds]
  exact matchSet_known hset

variable {values : List (BitVec 128)}

theorem addMatches_known (h : b.addMatches env f kind values out = .ok b') :
    out.Known b.outboundName2Id := by
  obtain ⟨set, hset, -⟩ := Except.bind_eq_ok h
  exact matchSet_known hset

/-- The clause of several values of one kind. -/
def valuesClause (not : Bool) (kind : MatchType) (values : List (BitVec 128)) : Clause Atom where
  alternatives := values.dropLast.map (Atom.mk kind)
  last := ⟨kind, values.getLast?.getD 0⟩
  not

theorem clauseAtoms_valuesClause (not : Bool) (kind : MatchType)
    (hne : values ≠ []) : clauseAtoms (valuesClause not kind values) = values.map (Atom.mk kind) := by
  have hlast : values.getLast?.getD 0 = values.getLast hne := by
    rw [List.getLast?_eq_getLast_of_ne_nil hne, Option.getD_some]
  have hsplit := List.dropLast_append_getLast hne
  calc clauseAtoms (valuesClause not kind values)
      = values.dropLast.map (Atom.mk kind) ++ [⟨kind, values.getLast hne⟩] := by
        rw [clauseAtoms, valuesClause, hlast]
    _ = (values.dropLast ++ [values.getLast hne]).map (Atom.mk kind) := by
        rw [List.map_append, List.map_singleton]
    _ = values.map (Atom.mk kind) := by rw [hsplit]

theorem matchSets_eq (not : Bool) (kind : MatchType) (t : Terminal)
    (hne : values ≠ []) :
    matchSets not kind (tailSet ⟨kind, 0⟩ t) values = clauseSets (valuesClause not kind values) t := by
  induction values with
  | nil => exact absurd rfl hne
  | cons v rest ih =>
    cases rest with
    | nil => rfl
    | cons v' rest =>
      have hrest := ih (List.cons_ne_nil v' rest)
      rw [matchSets, hrest]
      simp only [clauseSets, valuesClause, List.dropLast_cons_cons, List.map_cons,
        List.cons_append, List.getLast?_cons_cons]
      rfl

/-- Several values of one kind. -/
theorem addMatches_emits (hwf : WellFormed env.lim ifindexOf b) (hne : values ≠ [])
    (h : b.addMatches env f kind values out = .ok b')
    (hok : ∀ value, AtomOK env.lim b.simulatedLpmTries.length ⟨kind, value⟩) :
    Emits env.lim ifindexOf b b'
      (clauseSets (valuesClause f.not kind values) (tailTerminal b.outboundName2Id f.not out)) := by
  unfold RoutingMatcherBuilder.addMatches at h
  obtain ⟨tail, htail, h⟩ := Except.bind_eq_ok h
  rw [matchSet_spec htail, matchSets_eq _ _ _ hne] at h
  cases h
  refine emits_append hwf (Grown.refl hwf)
    (clauseSets (valuesClause f.not kind values) (tailTerminal b.outboundName2Id f.not out)) []
    ?_ ?_ ?_ ?_ ?_
  · exact List.append_ne_nil_of_right_ne_nil _ (List.cons_ne_nil _ _)
  · simp
  · simp
  · intro pre _
    rfl
  · intro m hm
    have hatom := (mem_clauseSets hm).1
    rw [clauseAtoms_valuesClause _ _ hne] at hatom
    obtain ⟨value, -, hvalue⟩ := List.mem_map.mp hatom
    rw [← hvalue]
    exact hok value

end Parsers

end Dae
