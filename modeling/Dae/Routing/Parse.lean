import Dae.Routing.Emit

/-!
# The function parsers

One specification for each registered parser: it appends the instructions of one
clause, and in every world that fits the tables the clause holds exactly when one
of the configured values does.
-/

namespace Dae

open RuleMachine

/-- In every world that fits, one atom of the clause holds exactly when one of the
values of the function does. -/
def ClauseMeans (text : GoText) (ifindexOf : String → BitVec 32) (b : RoutingMatcherBuilder)
    (name : String) (values : List (String × String)) (c : Clause Atom) : Prop :=
  ∀ w : World, w.ifindexOf = ifindexOf → w.Fits b →
    (clauseAtoms c).any w.atomHolds = values.any fun v => w.valueHolds text name v.1 v.2

section Specs

variable {env : CompileEnv} {ifindexOf : String → BitVec 32} {b b₁ b' : RoutingMatcherBuilder}
  {f : Function} {out : Outbound}

variable {text : GoText} {name : String} {c : Clause Atom}

theorem ClauseMeans.of_extends {values : List (String × String)}
    (h : ClauseMeans text ifindexOf b name values c)
    (hwf : WellFormed env.lim ifindexOf b) (he : Extends ifindexOf b b') :
    ClauseMeans text ifindexOf b' name values c :=
  fun w hw hfits => h w hw (hfits.of_extends he hwf)

/-- What one parser call does for the function `name`. -/
def Parses (env : CompileEnv) (ifindexOf : String → BitVec 32) (b b' : RoutingMatcherBuilder)
    (f : Function) (out : Outbound) (name : String) (values : List (String × String)) : Prop :=
  ∃ c : Clause Atom, c.not = f.not ∧ out.Known b.outboundName2Id ∧
    Emits env.lim ifindexOf b b' (clauseSets c (tailTerminal b.outboundName2Id f.not out)) ∧
    ClauseMeans env.text ifindexOf b' name values c

variable {kind : MatchType}

/-- A single match changes the pool only. -/
theorem addMatch_eq {value : BitVec 128} (h : b₁.addMatch env f kind value out = .ok b') :
    ∃ set, b' = { b₁ with rules := b₁.rules ++ [set] } := by
  unfold RoutingMatcherBuilder.addMatch at h
  obtain ⟨m, -, hm⟩ := Except.bind_eq_ok h
  cases hm
  exact ⟨_, rfl⟩

/-! ### Indexes -/

theorem index_indexValue (kind : MatchType) (i : Nat) :
    (Atom.matchSet ⟨kind, indexValue i⟩).index.toNat = i % 2 ^ 32 := by
  simp [Atom.matchSet, MatchSet.index, indexValue]

theorem index_indexValue_of_lt (kind : MatchType) {i : Nat} (h : i < 2 ^ 32) :
    (Atom.matchSet ⟨kind, indexValue i⟩).index.toNat = i := by
  rw [index_indexValue, Nat.mod_eq_of_lt h]

theorem index_indexValue_le (kind : MatchType) (i : Nat) :
    (Atom.matchSet ⟨kind, indexValue i⟩).index.toNat ≤ i := by
  rw [index_indexValue]
  exact Nat.mod_le _ _

theorem and_or_ne_zero (x y z : BitVec 8) :
    (x &&& (y ||| z) != 0) = ((x &&& y != 0) || (x &&& z != 0)) := by
  have hzero : x &&& (y ||| z) = 0#8 ↔ x &&& y = 0#8 ∧ x &&& z = 0#8 := by
    rw [BitVec.and_or_distrib_left, BitVec.or_eq_zero_iff]
  rw [Bool.eq_iff_iff, Bool.or_eq_true, bne_iff_ne, bne_iff_ne, bne_iff_ne]
  exact (not_congr hzero).trans not_and_or

theorem and_zero_ne_zero (x : BitVec 8) : (x &&& 0 != 0) = false := by simp

/-! ### Domains -/

theorem grown_domain (hwf : WellFormed env.lim ifindexOf b) (set : DomainSet)
    (hroom : b.simulatedDomainSet.length < env.lim.maxMatchSetLen) :
    Grown env.lim b { b with simulatedDomainSet := b.simulatedDomainSet ++ [set] } where
  rules := rfl
  patches := rfl
  outbounds := rfl
  tries := List.prefix_rfl
  statics := List.prefix_rfl
  clients := List.prefix_rfl
  domains := List.prefix_append _ _
  domainsLe := by
    rw [List.length_append, List.length_singleton]
    omega
  clientsLt := hwf.clients
  staticsLt := hwf.statics
  slots := Nat.le_succ _
  same := ⟨rfl, rfl, rfl, rfl, rfl⟩

variable {values : List String} {key : String}

theorem addDomain_spec (hwf : WellFormed env.lim ifindexOf b)
    (h : RoutingMatcherBuilder.addDomain env f key values out b = .ok b') :
    Parses env ifindexOf b b' f out "domain" (values.map (key, ·)) := by
  unfold RoutingMatcherBuilder.addDomain at h
  obtain ⟨-, h⟩ := Except.ite_error_eq_ok h
  simp only at h
  generalize hset : DomainSet.mk key (compact (values.insertionSort (· ≤ ·))) = set at h
  have hmax : env.lim.maxMatchSetLen < 2 ^ 32 := lt_of_le_of_lt env.lim.le (by norm_num)
  have hany : ∀ w : World, set.domains.any (w.domainMatches set.key) =
      (values.map (key, ·)).any fun v => w.valueHolds env.text "domain" v.1 v.2 := by
    intro w
    subst hset
    have hmem : ∀ a, a ∈ compact (values.insertionSort (· ≤ ·)) ↔ a ∈ values := by
      intro a
      rw [mem_compact, List.mem_insertionSort]
    rw [List.any_map, List.any_congr_mem hmem]
    rfl
  -- The clause asks for the set's own bit, wherever the set is stored.
  have finish : ∀ (b₁ : RoutingMatcherBuilder) (i : Nat), Grown env.lim b b₁ →
      b₁.simulatedDomainSet[i]? = some set →
      b₁.addMatch env f .domainSet (indexValue i) out = .ok b' →
      Parses env ifindexOf b b' f out "domain" (values.map (key, ·)) := by
    intro b₁ i hg hi hadd
    have hlt : i < env.lim.maxMatchSetLen :=
      lt_of_lt_of_le (List.getElem?_eq_some_iff.mp hi).1 hg.domainsLe
    have hindex : (Atom.matchSet ⟨.domainSet, indexValue i⟩).index.toNat = i :=
      index_indexValue_of_lt _ (by omega)
    refine ⟨_, rfl, addMatch_known hg hadd, addMatch_emits hwf hg hadd ?_, ?_⟩
    · show (Atom.matchSet ⟨.domainSet, indexValue i⟩).index.toNat < _
      omega
    · intro w hw hfits
      obtain ⟨_, rfl⟩ := addMatch_eq hadd
      have hbit := hfits.domain i set hi
      rw [← hany w, ← hbit]
      show (w.atomHolds ⟨.domainSet, indexValue i⟩ || false) = _
      rw [Bool.or_false]
      show w.domainBit (Atom.matchSet ⟨.domainSet, indexValue i⟩).index.toNat = _
      rw [hindex]
  by_cases hmem : set ∈ b.simulatedDomainSet
  · rw [if_pos hmem] at h
    exact finish b _ (Grown.refl hwf) (List.getElem?_idxOf hmem) h
  · rw [if_neg hmem] at h
    obtain ⟨hroom, h⟩ := Except.ite_error_eq_ok h
    refine finish { b with simulatedDomainSet := b.simulatedDomainSet ++ [set] } _ ?_ ?_ h
    · exact grown_domain hwf set (by omega)
    · exact List.getElem?_concat_length

/-! ### Static LPM sets -/

/-- A new slot, which is static or belongs to a client set. -/
theorem grown_trie (hwf : WellFormed env.lim ifindexOf b) (values : List Prefix)
    (statics : List Nat) (clients : List (String × Nat))
    (hstatics : ∀ id ∈ statics, id = b.simulatedLpmTries.length)
    (hclients : ∀ name slot, (name, slot) ∈ clients → slot = b.simulatedLpmTries.length) :
    Grown env.lim b { b with
      staticLpmIDs := b.staticLpmIDs ++ statics
      clientSetSlots := b.clientSetSlots ++ clients
      simulatedLpmTries := b.simulatedLpmTries ++ [values] } where
  rules := rfl
  patches := rfl
  outbounds := rfl
  tries := List.prefix_append _ _
  statics := List.prefix_append _ _
  clients := List.prefix_append _ _
  domains := List.prefix_rfl
  domainsLe := hwf.domains
  clientsLt := by
    intro name slot hmem
    rw [List.length_append, List.length_singleton]
    rcases List.mem_append.mp hmem with hold | hnew
    · have := hwf.clients name slot hold
      omega
    · have := hclients name slot hnew
      omega
  staticsLt := by
    intro id hmem
    rw [List.length_append, List.length_singleton]
    rcases List.mem_append.mp hmem with hold | hnew
    · have := hwf.statics id hold
      omega
    · have := hstatics id hnew
      omega
  slots := by rw [List.length_append, List.length_singleton]
  same := ⟨rfl, rfl, rfl, rfl, rfl⟩

theorem internLPM_spec (hwf : WellFormed env.lim ifindexOf b) (values : List Prefix) :
    Grown env.lim b (b.internLPM env values).2 ∧
      (b.internLPM env values).1 ∈ (b.internLPM env values).2.staticLpmIDs ∧
      (b.internLPM env values).2.simulatedLpmTries[(b.internLPM env values).1]? =
        some (canonicalPrefixes env.text values) := by
  unfold RoutingMatcherBuilder.internLPM
  simp only
  split
  case _ found hfind =>
      have hentry := List.find?_some hfind
      exact ⟨Grown.refl hwf, List.mem_of_find?_eq_some hfind, by simpa using hentry⟩
  case _ hfind =>
      have hg := grown_trie hwf (canonicalPrefixes env.text values)
        [b.simulatedLpmTries.length] [] (by simp) (by simp)
      rw [List.append_nil] at hg
      refine ⟨hg, List.mem_append_right _ (List.mem_singleton.mpr rfl), ?_⟩
      exact List.getElem?_concat_length

theorem lpmContains_canonical (text : GoText) (values : List Prefix) (key : BitVec 128) :
    lpmContains (canonicalPrefixes text values) key = values.any (·.contains16 key) := by
  have hmem : ∀ p, p ∈ canonicalPrefixes text values ↔ p ∈ values.map Prefix.masked := by
    intro p
    unfold canonicalPrefixes
    rw [mem_compact, List.mem_insertionSort]
  unfold lpmContains
  rw [List.any_congr_mem hmem, List.any_map]
  simp [Function.comp_def]

/-- The key with which an LPM instruction is looked up. -/
def World.lpmKey (w : World) (kind : MatchType) : BitVec 128 :=
  match kind with
  | .ipSet => w.dst.as16
  | .sourceIpSet => w.src.as16
  | _ => w.mac.setWidth 128

def isLpmKind (kind : MatchType) : Prop := kind = .ipSet ∨ kind = .sourceIpSet ∨ kind = .mac

theorem atomHolds_lpm (hkind : isLpmKind kind) (w : World) (value : BitVec 128) :
    w.atomHolds ⟨kind, value⟩ =
      lpmContains (w.lpm (Atom.matchSet ⟨kind, value⟩).index.toNat) (w.lpmKey kind) := by
  rcases hkind with rfl | rfl | rfl <;> rfl

theorem atomOK_lpm (hkind : isLpmKind kind) {lpmLen i : Nat} (hi : i < lpmLen) :
    AtomOK env.lim lpmLen ⟨kind, indexValue i⟩ := by
  have hle := index_indexValue_le kind i
  rcases hkind with rfl | rfl | rfl <;> exact lt_of_le_of_lt hle hi

/-- A match against a slot, for a clause that the contents of the slot decide. -/
theorem addSlot_spec (hkind : isLpmKind kind) {slot : Nat}
    {values : List (String × String)} (hwf : WellFormed env.lim ifindexOf b)
    (hg : Grown env.lim b b₁) (hslot : slot < b₁.simulatedLpmTries.length)
    (h : b₁.addMatch env f kind (indexValue slot) out = .ok b')
    (hmeans : ∀ w : World, w.Fits b' → lpmContains (w.lpm slot) (w.lpmKey kind) =
      values.any fun v => w.valueHolds env.text name v.1 v.2) :
    Parses env ifindexOf b b' f out name values := by
  have hemits := addMatch_emits hwf hg h (atomOK_lpm hkind hslot)
  refine ⟨_, rfl, addMatch_known hg h, hemits, ?_⟩
  intro w hw hfits
  have hlt : slot < 2 ^ 32 := by
    obtain ⟨_, rfl⟩ := addMatch_eq h
    exact lt_of_lt_of_le hslot hfits.addressable
  rw [← hmeans w hfits]
  show (w.atomHolds ⟨kind, indexValue slot⟩ || false) = _
  rw [Bool.or_false, atomHolds_lpm hkind, index_indexValue_of_lt kind hlt]

theorem addLPM_spec (hkind : isLpmKind kind) {prefixes : List Prefix}
    {values : List (String × String)} (hwf : WellFormed env.lim ifindexOf b)
    (h : RoutingMatcherBuilder.addLPM env kind f prefixes out b = .ok b')
    (hmeans : ∀ w : World, prefixes.any (·.contains16 (w.lpmKey kind)) =
      values.any fun v => w.valueHolds env.text name v.1 v.2) :
    Parses env ifindexOf b b' f out name values := by
  unfold RoutingMatcherBuilder.addLPM at h
  obtain ⟨hg, hstatic, hentry⟩ := internLPM_spec hwf prefixes
  generalize b.internLPM env prefixes = interned at h hg hstatic hentry
  obtain ⟨id, b₁⟩ := interned
  have hslot := (List.getElem?_eq_some_iff.mp hentry).1
  refine addSlot_spec hkind hwf hg hslot h ?_
  intro w hfits
  obtain ⟨_, rfl⟩ := addMatch_eq h
  have hlpm : b₁.simulatedLpmTries[id]? = some (w.lpm id) := hfits.static id hstatic
  rw [hentry] at hlpm
  rw [← Option.some.inj hlpm, lpmContains_canonical, hmeans]

theorem emptyKeyParser_ok {callback : Function → List String → Outbound →
      RoutingMatcherBuilder → Except String RoutingMatcherBuilder}
    (h : emptyKeyParser callback f key values out b = .ok b') :
    key = "" ∧ callback f values out b = .ok b' := by
  obtain ⟨hkey, h⟩ := Except.ite_error_eq_ok h
  exact ⟨not_not.mp hkey, h⟩

/-! ### Client sets -/

theorem addClient_spec (hwf : WellFormed env.lim ifindexOf b)
    (h : RoutingMatcherBuilder.addClient env f [name] out b = .ok b') :
    Parses env ifindexOf b b' f out "client" [("", name)] := by
  unfold RoutingMatcherBuilder.addClient at h
  obtain ⟨_, -, h⟩ := Except.bind_eq_ok h
  -- Whatever slot the set has, its contents are the set's members.
  have finish : ∀ (b₁ : RoutingMatcherBuilder) (slot : Nat), Grown env.lim b b₁ →
      (name, slot) ∈ b₁.clientSetSlots →
      b₁.addMatch env f .mac (indexValue slot) out = .ok b' →
      Parses env ifindexOf b b' f out "client" [("", name)] := by
    intro b₁ slot hg hmem hadd
    refine addSlot_spec (.inr (.inr rfl)) hwf hg (hg.clientsLt name slot hmem) hadd ?_
    intro w hfits
    obtain ⟨_, rfl⟩ := addMatch_eq hadd
    have hclient := hfits.client name slot hmem
    rw [List.any_cons, List.any_nil, Bool.or_false]
    exact hclient
  cases hlookup : b.clientSetSlots.lookup name with
  | some slot =>
    simp only [List.headD_cons, hlookup] at h
    exact finish b slot (Grown.refl hwf) (List.mem_of_lookup hlookup) h
  | none =>
    simp only [List.headD_cons, hlookup] at h
    have hg := grown_trie hwf [] [] [(name, b.simulatedLpmTries.length)] (by simp) (by simp)
    rw [List.append_nil] at hg
    exact finish _ _ hg (List.mem_append_right _ (List.mem_singleton.mpr rfl)) h

/-! ### Encoded values -/

variable {α : Type} {parse : String → Except String α} {parsed : List α}

theorem parseValues_length (h : parseValues parse values = .ok parsed) :
    parsed.length = values.length := by
  induction values generalizing parsed with
  | nil =>
    cases h
    rfl
  | cons value rest ih =>
    obtain ⟨p, -, h⟩ := Except.bind_eq_ok h
    obtain ⟨more, hmore, h⟩ := Except.bind_eq_ok h
    cases h
    rw [List.length_cons, List.length_cons, ih hmore]

/-- Parsed values hold exactly when the texts do. -/
theorem any_parseValues (h : parseValues parse values = .ok parsed) {holds : α → Bool}
    {textHolds : String → Bool}
    (heq : ∀ value p, parse value = .ok p → textHolds value = holds p) :
    parsed.any holds = values.any textHolds := by
  induction values generalizing parsed with
  | nil =>
    cases h
    rfl
  | cons value rest ih =>
    obtain ⟨p, hp, h⟩ := Except.bind_eq_ok h
    obtain ⟨more, hmore, h⟩ := Except.bind_eq_ok h
    cases h
    rw [List.any_cons, List.any_cons, ih hmore, heq value p hp]

/-- The kinds of instruction whose value is not an index. -/
def isPlainKind (kind : MatchType) : Prop := ∀ lim lpmLen value, AtomOK lim lpmLen ⟨kind, value⟩

theorem addEncoded_spec (hkind : isPlainKind kind)
    {encode : α → BitVec 128} {values : List (String × String)}
    (hne : parsed ≠ []) (hwf : WellFormed env.lim ifindexOf b)
    (h : RoutingMatcherBuilder.addEncoded env kind encode f parsed out b = .ok b')
    (hmeans : ∀ w : World, (parsed.any fun v => w.atomHolds ⟨kind, encode v⟩) =
      values.any fun v => w.valueHolds env.text name v.1 v.2) :
    Parses env ifindexOf b b' f out name values := by
  have hne' : parsed.map encode ≠ [] := by simpa using hne
  refine ⟨_, rfl, addMatches_known h, addMatches_emits hwf hne' h (fun value => hkind _ _ value),
    ?_⟩
  intro w hw hfits
  rw [clauseAtoms_valuesClause _ _ hne', List.map_map, List.any_map, ← hmeans w]
  rfl

/-! ### Interfaces -/

variable {names : List String}

/-- The new instructions take the current indexes of their interfaces. -/
theorem loadRules_interfaces (ifindexOf : String → BitVec 32) (not : Bool) (t : Terminal)
    (hne : names ≠ []) (pre : List MatchSet) :
    loadRules ifindexOf (interfacePatches pre.length names)
        (pre ++ clauseSets (valuesClause not .ifIndex (names.map fun _ => 0)) t) =
      pre ++ clauseSets
        (valuesClause not .ifIndex (names.map fun name => (ifindexOf name).setWidth 128)) t := by
  rw [← matchSets_eq not .ifIndex t (by simpa using hne),
    ← matchSets_eq not .ifIndex t (by simpa using hne)]
  clear hne
  induction names generalizing pre with
  | nil => rfl
  | cons name rest ih =>
    have hset : ∀ m : MatchSet, m.value = 0 → m.setIfindex (ifindexOf name) =
        { m with value := (ifindexOf name).setWidth 128 } := by
      intro m hm
      simp [MatchSet.setIfindex, hm]
    cases rest with
    | nil =>
      show (pre ++ [_]).modify pre.length _ = pre ++ [_]
      rw [List.modify_append_length, hset _ rfl]
    | cons next rest =>
      rw [interfacePatches, loadRules, List.foldl_cons]
      simp only [List.map_cons, matchSets]
      rw [List.modify_append_length, hset _ rfl]
      have hrest := ih (pre ++ [{ type := .ifIndex, action := .or
                                  flags := routingMatchFlags not false false
                                  value := (ifindexOf name).setWidth 128 }])
      simp only [List.length_append, List.length_singleton, List.append_assoc,
        List.singleton_append] at hrest
      exact hrest

theorem mem_interfacePatches {start : Nat}
    {patch : RoutingInterfaceRulePatch} (h : patch ∈ interfacePatches start names) :
    patch.matchIndex < start + names.length := by
  induction names generalizing start with
  | nil => cases h
  | cons name rest ih =>
    rw [List.length_cons]
    rcases List.mem_cons.mp h with rfl | hrest
    · show start < _
      omega
    · have := ih hrest
      omega

theorem addInterface_spec (hne : names ≠ [])
    (hwf : WellFormed env.lim ifindexOf b)
    (h : RoutingMatcherBuilder.addInterface env f names out b = .ok b') :
    Parses env ifindexOf b b' f out "interface" (names.map ("", ·)) := by
  unfold RoutingMatcherBuilder.addInterface at h
  obtain ⟨_, -, h⟩ := Except.bind_eq_ok h
  obtain ⟨added, hadded, h⟩ := Except.bind_eq_ok h
  unfold RoutingMatcherBuilder.addMatches at hadded
  obtain ⟨tail, htail, hadded⟩ := Except.bind_eq_ok hadded
  rw [matchSet_spec htail, matchSets_eq _ _ _ (by simpa using hne)] at hadded
  cases hadded
  cases h
  have hne' : (names.map fun name => (ifindexOf name).setWidth 128) ≠ [] := by simpa using hne
  refine ⟨valuesClause f.not .ifIndex (names.map fun name => (ifindexOf name).setWidth 128), rfl,
    matchSet_known htail,
    emits_append hwf (Grown.refl hwf) _ (interfacePatches b.rules.length names) ?_ rfl ?_ ?_ ?_,
    ?_⟩
  · exact List.append_ne_nil_of_right_ne_nil _ (List.cons_ne_nil _ _)
  · intro patch hpatch
    have := mem_interfacePatches hpatch
    rw [clauseSets_length]
    simp only [valuesClause, Clause.size, List.length_map, List.length_dropLast]
    omega
  · intro pre hpre
    rw [← hpre]
    exact loadRules_interfaces ifindexOf f.not _ hne pre
  · intro m hm
    have hatom := (mem_clauseSets hm).1
    rw [clauseAtoms_valuesClause _ _ hne'] at hatom
    obtain ⟨value, -, hvalue⟩ := List.mem_map.mp hatom
    rw [← hvalue]
    exact trivial
  · intro w hw hfits
    rw [clauseAtoms_valuesClause _ _ hne', List.map_map, List.any_map, List.any_map]
    congr 1
    funext name
    subst hw
    have hindex : (Atom.matchSet ⟨.ifIndex, (w.ifindexOf name).setWidth 128⟩).index =
        w.ifindexOf name := by
      simp [Atom.matchSet, MatchSet.index]
    show w.onInterface (Atom.matchSet ⟨.ifIndex, (w.ifindexOf name).setWidth 128⟩).index =
      w.onInterface (w.ifindexOf name)
    rw [hindex]

/-! ### Bytes of alternatives -/

/-- A parser that adds the bits of each value. -/
theorem parseBits_spec {parse : List String → BitVec 8 → Except String (BitVec 8)}
    {bitsOf : String → BitVec 8} (hnil : ∀ bits, parse [] bits = .ok bits)
    (hcons : ∀ {v rest bits result}, parse (v :: rest) bits = .ok result →
      parse rest (bits ||| bitsOf v) = .ok result)
    {bits result : BitVec 8} (h : parse values bits = .ok result) (x : BitVec 8) :
    (x &&& result != 0) = ((x &&& bits != 0) || values.any fun v => x &&& bitsOf v != 0) := by
  induction values generalizing bits with
  | nil =>
    cases (hnil bits).symm.trans h
    rw [List.any_nil, Bool.or_false]
  | cons v rest ih => rw [ih (hcons h), and_or_ne_zero, List.any_cons, Bool.or_assoc]

theorem parseL4Proto_cons {v : String} {bits result : BitVec 8}
    (h : parseL4Proto text (v :: values) bits = .ok result) :
    parseL4Proto text values (bits ||| World.l4ProtoBits v) = .ok result := by
  unfold parseL4Proto at h
  unfold World.l4ProtoBits
  split_ifs at h ⊢ <;> exact h

theorem parseIpVersion_cons {v : String} {bits result : BitVec 8}
    (h : parseIpVersion text (v :: values) bits = .ok result) :
    parseIpVersion text values (bits ||| World.ipVersionBits v) = .ok result := by
  unfold parseIpVersion at h
  unfold World.ipVersionBits
  split_ifs at h ⊢ <;> exact h

/-- The parsers of one byte. -/
theorem byteParser_spec {parse : List String → BitVec 8 → Except String (BitVec 8)}
    (hkind : isPlainKind kind)
    (hwf : WellFormed env.lim ifindexOf b)
    (h : byteParser parse env kind f key values out b = .ok b')
    (hmeans : ∀ (w : World) (bits : BitVec 8), parse values 0 = .ok bits →
      w.atomHolds ⟨kind, bits.setWidth 128⟩ =
        values.any fun v => w.valueHolds env.text name "" v) :
    Parses env ifindexOf b b' f out name (values.map (key, ·)) := by
  obtain ⟨rfl, h⟩ := emptyKeyParser_ok h
  obtain ⟨bits, hbits, h⟩ := Except.bind_eq_ok h
  have hg := Grown.refl hwf
  refine ⟨_, rfl, addMatch_known hg h, addMatch_emits hwf hg h (hkind _ _ _), ?_⟩
  intro w hw hfits
  rw [List.any_map]
  show (w.atomHolds ⟨kind, bits.setWidth 128⟩ || false) = _
  rw [Bool.or_false, hmeans w bits hbits]
  rfl

/-! ### The registered parsers -/

/-- A parser that parses each value and adds one instruction for each. -/
theorem valuesParser_encoded_spec (hkind : isPlainKind kind) {encode : α → BitVec 128}
    (hne : values ≠ []) (hwf : WellFormed env.lim ifindexOf b)
    (h : valuesParser parse (RoutingMatcherBuilder.addEncoded env kind encode) f key values out b =
      .ok b')
    (hmeans : ∀ (w : World) value p, parse value = .ok p →
      w.valueHolds env.text name "" value = w.atomHolds ⟨kind, encode p⟩) :
    Parses env ifindexOf b b' f out name (values.map (key, ·)) := by
  obtain ⟨rfl, h⟩ := emptyKeyParser_ok h
  obtain ⟨parsed, hparsed, h⟩ := Except.bind_eq_ok h
  have hlen := parseValues_length hparsed
  have hne' : parsed ≠ [] := by
    intro hnil
    rw [hnil] at hlen
    exact hne (List.length_eq_zero_iff.mp hlen.symm)
  refine addEncoded_spec hkind hne' hwf h ?_
  intro w
  rw [List.any_map]
  exact any_parseValues hparsed (hmeans w)

/-- A parser that parses each value into prefixes of one LPM set. -/
theorem valuesParser_lpm_spec (hkind : isLpmKind kind) (toPrefix : α → Prefix)
    (hwf : WellFormed env.lim ifindexOf b)
    {callback : Function → List α → Outbound → RoutingMatcherBuilder →
      Except String RoutingMatcherBuilder}
    (hcallback : ∀ f parsed, callback f parsed =
      RoutingMatcherBuilder.addLPM env kind f (parsed.map toPrefix))
    (h : valuesParser parse callback f key values out b = .ok b')
    (hmeans : ∀ (w : World) value p, parse value = .ok p →
      w.valueHolds env.text name "" value = (toPrefix p).contains16 (w.lpmKey kind)) :
    Parses env ifindexOf b b' f out name (values.map (key, ·)) := by
  obtain ⟨rfl, h⟩ := emptyKeyParser_ok h
  obtain ⟨parsed, hparsed, h⟩ := Except.bind_eq_ok h
  rw [hcallback] at h
  refine addLPM_spec hkind hwf h ?_
  intro w
  rw [List.any_map, List.any_map]
  exact any_parseValues hparsed (hmeans w)

theorem contains16_sourceMacPrefix (mac mac' : Mac) :
    (sourceMacPrefix mac).contains16 (mac'.setWidth 128) = (mac == mac') := by
  unfold sourceMacPrefix
  rw [Prefix.contains16_single, Addr.as16, Bool.eq_iff_iff, beq_iff_eq, beq_iff_eq]
  constructor
  · intro h
    have := congrArg (BitVec.setWidth 48) h
    simpa using this
  · intro h
    rw [h]

theorem portStart_encodePortRange (kind : MatchType) (range : BitVec 16 × BitVec 16) :
    (Atom.matchSet ⟨kind, encodePortRange range⟩).portStart = range.1 := by
  apply BitVec.eq_of_getLsbD_eq
  intro i hi
  simp [Atom.matchSet, MatchSet.portStart, encodePortRange, hi]

theorem portEnd_encodePortRange (kind : MatchType) (range : BitVec 16 × BitVec 16) :
    (Atom.matchSet ⟨kind, encodePortRange range⟩).portEnd = range.2 := by
  apply BitVec.eq_of_getLsbD_eq
  intro i hi
  have hhigh : range.1.getLsbD (16 + i) = false := BitVec.getLsbD_of_ge _ _ (by omega)
  have hbit : 16 + i < 128 := by omega
  simp only [Atom.matchSet, MatchSet.portEnd, encodePortRange, BitVec.getLsbD_setWidth,
    BitVec.getLsbD_ushiftRight, BitVec.getLsbD_or, BitVec.getLsbD_shiftLeft, hhigh, hi, hbit]
  simp
  omega

theorem byte_setWidth (kind : MatchType) (x : BitVec 8) :
    (Atom.matchSet ⟨kind, x.setWidth 128⟩).byte = x := by
  simp [Atom.matchSet, MatchSet.byte]

theorem plain_kinds : isPlainKind .port ∧ isPlainKind .sourcePort ∧ isPlainKind .l4Proto ∧
    isPlainKind .processName ∧ isPlainKind .dscp ∧ isPlainKind .ipVersion :=
  ⟨fun _ _ _ => trivial, fun _ _ _ => trivial, fun _ _ _ => trivial, fun _ _ _ => trivial,
    fun _ _ _ => trivial, fun _ _ _ => trivial⟩

theorem portHolds_encoded {value : String} {range : BitVec 16 × BitVec 16}
    (h : parsePortRange text value = .ok range) (kind : MatchType) (port : BitVec 16) :
    World.portHolds text value port =
      (decide ((Atom.matchSet ⟨kind, encodePortRange range⟩).portStart ≤ port) &&
        decide (port ≤ (Atom.matchSet ⟨kind, encodePortRange range⟩).portEnd)) := by
  rw [World.portHolds, h, portStart_encodePortRange, portEnd_encodePortRange]

/-- **One parser call** appends a clause that means the values. -/
theorem functionParser_spec {parser : FunctionParser}
    (hparser : functionParser env name = some parser) (hne : values ≠ [])
    (hclient : name = "client" → values.length = 1) (hwf : WellFormed env.lim ifindexOf b)
    (h : parser f key values out b = .ok b') :
    Parses env ifindexOf b b' f out name (values.map (key, ·)) := by
  have hmem := List.mem_of_lookup hparser
  simp only [registeredParsers, List.mem_cons, Prod.mk.injEq, List.not_mem_nil, or_false] at hmem
  obtain ⟨hport, hsport, hl4, hpname, hdscp, hipv⟩ := plain_kinds
  rcases hmem with ⟨rfl, rfl⟩ | ⟨rfl, rfl⟩ | ⟨rfl, rfl⟩ | ⟨rfl, rfl⟩ | ⟨rfl, rfl⟩ | ⟨rfl, rfl⟩ |
    ⟨rfl, rfl⟩ | ⟨rfl, rfl⟩ | ⟨rfl, rfl⟩ | ⟨rfl, rfl⟩ | ⟨rfl, rfl⟩ | ⟨rfl, rfl⟩
  · exact addDomain_spec hwf h
  · refine valuesParser_lpm_spec (.inl rfl) id hwf (fun f parsed => ?_) h ?_
    · rw [List.map_id]
      rfl
    · intro w value p hp
      show World.prefixHolds env.text value w.dst.as16 = _
      rw [World.prefixHolds, hp]
      rfl
  · refine valuesParser_lpm_spec (.inr (.inl rfl)) id hwf (fun f parsed => ?_) h ?_
    · rw [List.map_id]
      rfl
    · intro w value p hp
      show World.prefixHolds env.text value w.src.as16 = _
      rw [World.prefixHolds, hp]
      rfl
  · refine valuesParser_encoded_spec hport hne hwf h ?_
    intro w value p hp
    exact portHolds_encoded hp .port w.dport
  · refine valuesParser_encoded_spec hsport hne hwf h ?_
    intro w value p hp
    exact portHolds_encoded hp .sourcePort w.sport
  · refine byteParser_spec hl4 hwf h ?_
    intro w bits hbits
    have hspec := parseBits_spec (fun _ => rfl) parseL4Proto_cons hbits w.l4proto
    rw [and_zero_ne_zero, Bool.false_or] at hspec
    show (w.l4proto &&& (Atom.matchSet ⟨.l4Proto, bits.setWidth 128⟩).byte != 0) = _
    rw [byte_setWidth, hspec]
    rfl
  · refine valuesParser_lpm_spec (.inr (.inr rfl)) sourceMacPrefix hwf (fun f parsed => rfl) h ?_
    intro w value mac hmac
    have hvalue : World.valueHolds env.text w "mac" key value = (mac == w.mac) := by
      simp [World.valueHolds, hmac]
    exact hvalue.trans (contains16_sourceMacPrefix mac w.mac).symm
  · obtain ⟨rfl, h⟩ := emptyKeyParser_ok h
    obtain ⟨value, rfl⟩ := List.length_eq_one_iff.mp (hclient rfl)
    exact addClient_spec hwf h
  · refine valuesParser_encoded_spec hpname hne hwf h ?_
    intro w value p hp
    cases hp
    rfl
  · obtain ⟨rfl, h⟩ := emptyKeyParser_ok h
    exact addInterface_spec hne hwf h
  · refine valuesParser_encoded_spec hdscp hne hwf h ?_
    intro w value p hp
    have hvalue : World.valueHolds env.text w "dscp" key value = (p == w.dscp) := by
      simp [World.valueHolds, hp]
    refine hvalue.trans ?_
    show (p == w.dscp) = (w.dscp == (Atom.matchSet ⟨.dscp, p.setWidth 128⟩).byte)
    rw [byte_setWidth, Bool.beq_comm]
  · refine byteParser_spec hipv hwf h ?_
    intro w bits hbits
    have hspec := parseBits_spec (fun _ => rfl) parseIpVersion_cons hbits (ipVersionFromAddr w.dst)
    rw [and_zero_ne_zero, Bool.false_or] at hspec
    show (ipVersionFromAddr w.dst &&& (Atom.matchSet ⟨.ipVersion, bits.setWidth 128⟩).byte != 0) = _
    rw [byte_setWidth, hspec]
    rfl

/-! ### Functions and predicates -/

/-- The clause stands for the function. -/
def FunctionMeans (text : GoText) (ifindexOf : String → BitVec 32) (b : RoutingMatcherBuilder)
    (f : Function) (c : Clause Atom) : Prop :=
  c.not = f.not ∧ ClauseMeans text ifindexOf b f.name (f.params.map fun p => (p.key, p.val)) c

/-- The condition stands for the predicate, function by function. -/
def CondMeans (text : GoText) (ifindexOf : String → BitVec 32) (b : RoutingMatcherBuilder)
    (functions : List Function) (p : Cond Atom) : Prop :=
  List.Forall₂ (FunctionMeans text ifindexOf b) functions (p.init ++ [p.last])

theorem FunctionMeans.of_extends
    (h : FunctionMeans text ifindexOf b f c) (hwf : WellFormed env.lim ifindexOf b)
    (he : Extends ifindexOf b b') : FunctionMeans text ifindexOf b' f c :=
  ⟨h.1, h.2.of_extends hwf he⟩

variable {functions : List Function}

theorem CondMeans.of_extends {p : Cond Atom}
    (h : CondMeans text ifindexOf b functions p) (hwf : WellFormed env.lim ifindexOf b)
    (he : Extends ifindexOf b b') : CondMeans text ifindexOf b' functions p :=
  List.Forall₂.imp (fun _ _ hf => hf.of_extends hwf he) h

/-- An alternative clause runs into the next one. -/
theorem clauseSets_append {c' : Clause Atom} (hnot : c.not = c'.not) (t : Terminal) :
    clauseSets c (orTerminal c.not) ++ clauseSets c' t =
      clauseSets ⟨c.alternatives ++ c.last :: c'.alternatives, c'.last, c'.not⟩ t := by
  simp [clauseSets, tailSet_orTerminal, hnot]

theorem tailTerminal_or (outbounds : String → Option (BitVec 8)) (not : Bool) (out : Outbound) :
    tailTerminal outbounds not { out with name := logicalOr } = orTerminal not := rfl

theorem tailTerminal_and (outbounds : String → Option (BitVec 8)) (not : Bool) (out : Outbound) :
    tailTerminal outbounds not { out with name := logicalAnd } = andTerminal not := rfl

/-- The values of the groups of the keys. -/
def groupPairs (params : List Param) (keys : List String) : List (String × String) :=
  keys.flatMap fun key => (paramValueGroup params key).map (key, ·)

theorem applyGroups_spec {parser : FunctionParser} {tailName : String} {keys : List String}
    (hparser : functionParser env f.name = some parser) (hne : keys ≠ [])
    (hgroups : ∀ key ∈ keys, paramValueGroup f.params key ≠ [] ∧
      (f.name = "client" → (paramValueGroup f.params key).length = 1))
    (hwf : WellFormed env.lim ifindexOf b)
    (h : applyGroups parser f out tailName keys b = .ok b') :
    Parses env ifindexOf b b' f { out with name := tailName } f.name
      (groupPairs f.params keys) := by
  induction keys generalizing b with
  | nil => exact absurd rfl hne
  | cons key rest ih =>
    obtain ⟨b₁, hb₁, h⟩ := Except.bind_eq_ok h
    have hcall := Except.mapError_eq_ok hb₁
    obtain ⟨hvalues, hclient⟩ := hgroups key List.mem_cons_self
    have hfirst := functionParser_spec hparser hvalues hclient hwf hcall
    cases rest with
    | nil =>
      cases h
      simpa [groupPairs] using hfirst
    | cons next rest =>
      -- All groups but the last are alternatives of the same clause.
      rw [if_neg (List.cons_ne_nil next rest)] at hfirst
      obtain ⟨c, hnot, -, hemits, hmeans⟩ := hfirst
      rw [tailTerminal_or] at hemits
      obtain ⟨c', hnot', hknown, hemits', hmeans'⟩ := ih (List.cons_ne_nil next rest)
        (fun k hk => hgroups k (List.mem_cons_of_mem _ hk)) hemits.wellFormed h
      rw [hemits.grows.outbounds] at hknown hemits'
      refine ⟨⟨c.alternatives ++ c.last :: c'.alternatives, c'.last, c'.not⟩, hnot', hknown, ?_,
        ?_⟩
      · rw [← clauseSets_append (hnot.trans hnot'.symm), hnot]
        exact hemits.trans hemits'
      · intro w hw hfits
        have hold := hmeans w hw (hfits.of_extends hemits'.grows hemits.wellFormed)
        have hnew := hmeans' w hw hfits
        have hatoms : clauseAtoms ⟨c.alternatives ++ c.last :: c'.alternatives, c'.last, c'.not⟩ =
            clauseAtoms c ++ clauseAtoms c' := by
          simp [clauseAtoms]
        rw [hatoms, List.any_append, hold, hnew]
        simp [groupPairs, List.any_append]

theorem mem_keyOrder (params : List Param) (seen : List String) :
    key ∈ keyOrder params seen ↔ key ∈ seen ∨ ∃ p ∈ params, p.key = key := by
  induction params generalizing seen with
  | nil => simp [keyOrder]
  | cons p rest ih =>
    have hhead : key ∈ (if p.key ∈ seen then seen else seen ++ [p.key]) ↔
        key ∈ seen ∨ p.key = key := by
      split
      next hseen => exact ⟨.inl, fun h => h.elim id fun heq => heq ▸ hseen⟩
      · rw [List.mem_append, List.mem_singleton, eq_comm]
    rw [keyOrder, ih, hhead, List.exists_mem_cons_iff, or_assoc]

theorem mem_paramValueGroup {params : List Param} {val : String} :
    val ∈ paramValueGroup params key ↔ ∃ p ∈ params, p.key = key ∧ p.val = val := by
  simp [paramValueGroup, and_assoc]

/-- Grouping by key keeps every parameter. -/
theorem mem_groupPairs {params : List Param} {v : String × String} :
    v ∈ groupPairs params (keyOrder params []) ↔ v ∈ params.map fun p => (p.key, p.val) := by
  obtain ⟨key, val⟩ := v
  unfold groupPairs
  rw [List.mem_flatMap, List.mem_map]
  constructor
  · rintro ⟨k, -, hk⟩
    obtain ⟨u, hu, heq⟩ := List.mem_map.mp hk
    obtain ⟨p, hp, hkey, hval⟩ := mem_paramValueGroup.mp hu
    cases heq
    exact ⟨p, hp, by rw [hkey, hval]⟩
  · rintro ⟨p, hp, heq⟩
    cases heq
    exact ⟨p.key, (mem_keyOrder params []).mpr (.inr ⟨p, hp, rfl⟩),
      List.mem_map.mpr ⟨p.val, mem_paramValueGroup.mpr ⟨p, hp, rfl, rfl⟩, rfl⟩⟩

/-- **One function** becomes one clause that means it. -/
theorem applyFunction_spec {tailName : String} (hwf : WellFormed env.lim ifindexOf b)
    (h : applyFunction env f out tailName b = .ok b') :
    ({ out with name := tailName } : Outbound).Known b.outboundName2Id ∧
    ∃ c, FunctionMeans env.text ifindexOf b' f c ∧
      Emits env.lim ifindexOf b b'
        (clauseSets c (tailTerminal b.outboundName2Id f.not { out with name := tailName })) := by
  unfold applyFunction at h
  obtain ⟨hparams, h⟩ := Except.ite_error_eq_ok h
  cases hparser : functionParser env f.name with
  | none =>
    rw [hparser] at h
    cases h
  | some parser =>
    simp only [hparser] at h
    obtain ⟨hclient, h⟩ := Except.ite_error_eq_ok h
    have hkeys : keyOrder f.params [] ≠ [] := by
      obtain ⟨p, rest, hp⟩ := List.exists_cons_of_ne_nil hparams
      have hmem : p.key ∈ keyOrder f.params [] :=
        (mem_keyOrder f.params []).mpr (.inr ⟨p, by rw [hp]; exact List.mem_cons_self, rfl⟩)
      exact List.ne_nil_of_mem hmem
    have hgroups : ∀ key ∈ keyOrder f.params [], paramValueGroup f.params key ≠ [] ∧
        (f.name = "client" → (paramValueGroup f.params key).length = 1) := by
      intro key hkey
      obtain ⟨p, hp, rfl⟩ := ((mem_keyOrder f.params []).mp hkey).resolve_left
        (List.not_mem_nil)
      refine ⟨List.ne_nil_of_mem (mem_paramValueGroup.mpr ⟨p, hp, rfl, rfl⟩), ?_⟩
      intro hname
      have hone : f.params.length = 1 := by
        by_contra hlen
        exact hclient ⟨hname, hlen⟩
      obtain ⟨q, hq⟩ := List.length_eq_one_iff.mp hone
      rw [hq, List.mem_singleton] at hp
      rw [hq, hp]
      simp [paramValueGroup]
    obtain ⟨c, hnot, hknown, hemits, hmeans⟩ := applyGroups_spec hparser hkeys hgroups hwf h
    refine ⟨hknown, c, ⟨hnot, ?_⟩, hemits⟩
    intro w hw hfits
    rw [hmeans w hw hfits]
    exact List.any_congr_mem (fun v => mem_groupPairs) _

/-- **A predicate** becomes a condition whose clauses mean its functions. -/
theorem applyFunctions_spec (hne : functions ≠ [])
    (hwf : WellFormed env.lim ifindexOf b) (h : applyFunctions env out functions b = .ok b') :
    out.Known b.outboundName2Id ∧ ∃ p, CondMeans env.text ifindexOf b' functions p ∧
      Emits env.lim ifindexOf b b'
        (condSets p (tailTerminal b.outboundName2Id p.last.not out)) := by
  induction functions generalizing b with
  | nil => exact absurd rfl hne
  | cons f rest ih =>
    obtain ⟨b₁, hb₁, h⟩ := Except.bind_eq_ok h
    obtain ⟨hknown, c, hmeans, hemits⟩ := applyFunction_spec hwf hb₁
    cases rest with
    | nil =>
      cases h
      refine ⟨hknown, ⟨[], c⟩, .cons hmeans .nil, ?_⟩
      rw [← hmeans.1] at hemits
      exact hemits
    | cons g rest =>
      rw [if_neg (List.cons_ne_nil g rest), tailTerminal_and] at hemits
      obtain ⟨hknown', p, hmeans', hemits'⟩ := ih (List.cons_ne_nil g rest) hemits.wellFormed h
      rw [hemits.grows.outbounds] at hknown'
      refine ⟨hknown', ⟨c :: p.init, p.last⟩,
        .cons (hmeans.of_extends hemits.wellFormed hemits'.grows) hmeans', ?_⟩
      rw [hemits.grows.outbounds] at hemits'
      have hsets : condSets ⟨c :: p.init, p.last⟩
          (tailTerminal b.outboundName2Id p.last.not out) =
          clauseSets c (andTerminal f.not) ++
            condSets p (tailTerminal b.outboundName2Id p.last.not out) := by
        rw [← hmeans.1]
        simp [condSets]
      rw [hsets]
      exact hemits.trans hemits'

theorem applyPredicate_spec (hwf : WellFormed env.lim ifindexOf b)
    (h : applyPredicate env functions out b = .ok b') :
    out.Known b.outboundName2Id ∧ ∃ p, CondMeans env.text ifindexOf b' functions p ∧
      Emits env.lim ifindexOf b b'
        (condSets p (tailTerminal b.outboundName2Id p.last.not out)) := by
  obtain ⟨hne, h⟩ := Except.ite_error_eq_ok h
  exact applyFunctions_spec hne hwf h

theorem FunctionMeans.holds (h : FunctionMeans env.text ifindexOf b f c)
    {w : World} (hw : w.ifindexOf = ifindexOf) (hfits : w.Fits b) :
    c.holds w.atomHolds = w.functionHolds env.text f := by
  have hany := h.2 w hw hfits
  rw [clauseAtoms, List.any_append, List.any_cons, List.any_nil, Bool.or_false, List.any_map] at hany
  rw [Clause.holds, World.functionHolds, hany, h.1, Bool.xor_comm]
  rfl

/-- In a world that fits, a condition holds exactly when its predicate does. -/
theorem CondMeans.holds {p : Cond Atom}
    (h : CondMeans env.text ifindexOf b functions p) {w : World} (hw : w.ifindexOf = ifindexOf)
    (hfits : w.Fits b) : p.holds w.atomHolds = w.predicateHolds env.text functions := by
  have hall : ∀ (fs : List Function) (cs : List (Clause Atom)),
      List.Forall₂ (FunctionMeans env.text ifindexOf b) fs cs →
      cs.all (·.holds w.atomHolds) = fs.all (w.functionHolds env.text) := by
    intro fs cs hfs
    induction hfs with
    | nil => rfl
    | cons hf _ ih => rw [List.all_cons, List.all_cons, ih, hf.holds hw hfits]
  have hp := hall functions (p.init ++ [p.last]) h
  rw [List.all_append, List.all_cons, List.all_nil, Bool.and_true] at hp
  exact hp

end Specs

end Dae
