import Mathlib

/-!
# Trees in level order

A queue that yields a node and takes in its children lists a tree level by level.
The list is a fixed point: the nodes are the roots followed by the children of all
nodes.  A child is therefore found by counting, and the degrees of the nodes,
written in unary, are all that has to be stored of the tree's shape.
-/

namespace LevelOrder

variable {α β : Type}

section Walk

variable (kids : α → List α)

/-- The nodes in the order a queue yields them; `none` when the fuel runs out. -/
def walk : Nat → List α → Option (List α)
  | _, [] => some []
  | 0, _ :: _ => none
  | fuel + 1, a :: queue => (walk fuel (queue ++ kids a)).map (a :: ·)

/-- **The queue runs empty** when the fuel covers the trees in it, and what it has
yielded is closed under children. -/
theorem walk_spec {kids} {P : α → Prop} {size : α → Nat} (hkids : ∀ a, P a → ∀ c ∈ kids a, P c)
    (hsize : ∀ a, P a → size a = 1 + ((kids a).map size).sum) {fuel : Nat} {queue : List α}
    (hqueue : ∀ a ∈ queue, P a) (hfuel : (queue.map size).sum ≤ fuel) :
    ∃ nodes, walk kids fuel queue = some nodes ∧ nodes = queue ++ nodes.flatMap kids ∧
      nodes.length = (queue.map size).sum ∧ (∀ a ∈ nodes, P a) ∧
      ∀ a, nodes.getLast? = some a → kids a = [] := by
  induction fuel generalizing queue with
  | zero =>
    cases queue with
    | nil => exact ⟨[], rfl, rfl, rfl, hqueue, by simp⟩
    | cons a queue =>
      have ha := hsize a (hqueue a List.mem_cons_self)
      rw [List.map_cons, List.sum_cons] at hfuel
      omega
  | succ fuel ih =>
    cases queue with
    | nil => exact ⟨[], rfl, rfl, rfl, hqueue, by simp⟩
    | cons a queue =>
      have hPa := hqueue a List.mem_cons_self
      have ha := hsize a hPa
      have hnext : ((queue ++ kids a).map size).sum + 1 = ((a :: queue).map size).sum := by
        rw [List.map_append, List.sum_append, List.map_cons, List.sum_cons, ha]
        omega
      have hP : ∀ c ∈ queue ++ kids a, P c := by
        intro c hc
        rcases List.mem_append.mp hc with hc | hc
        · exact hqueue c (List.mem_cons_of_mem a hc)
        · exact hkids a hPa c hc
      obtain ⟨nodes, hwalk, hnodes, hlength, hall, hlast⟩ := ih hP (by omega)
      refine ⟨a :: nodes, by rw [walk, hwalk]; rfl, ?_, ?_, ?_, ?_⟩
      · rw [List.flatMap_cons, List.cons_append, ← List.append_assoc]
        exact congrArg (a :: ·) hnodes
      · rw [List.length_cons, hlength, hnext]
      · intro c hc
        rcases List.mem_cons.mp hc with rfl | hc
        · exact hPa
        · exact hall c hc
      · intro c hc
        cases hn : nodes with
        | nil =>
          rw [hn] at hc hnodes
          cases hc
          exact (List.append_eq_nil_iff.mp (List.append_eq_nil_iff.mp hnodes.symm).1).2
        | cons b rest =>
          rw [hn, List.getLast?_cons_cons, ← hn] at hc
          exact hlast c hc

end Walk

variable {i j : Nat}

/-- The items of the `i`-th entry stand behind those of the entries before it. -/
theorem getElem?_flatMap {f : α → List β} {l : List α} {a : α} (ha : l[i]? = some a)
    (hj : j < (f a).length) :
    (l.flatMap f)[((l.take i).map fun a => (f a).length).sum + j]? = (f a)[j]? := by
  obtain ⟨hi, rfl⟩ := List.getElem?_eq_some_iff.mp ha
  have hsplit : l.flatMap f = (l.take i).flatMap f ++ (f l[i] ++ (l.drop (i + 1)).flatMap f) := by
    rw [← List.flatMap_cons, ← List.flatMap_append, List.cons_getElem_drop_succ,
      List.take_append_drop]
  rw [hsplit, ← List.length_flatMap, List.getElem?_append_right (Nat.le_add_right _ _),
    Nat.add_sub_cancel_left, List.getElem?_append_left hj]

/-! ### Degrees in unary -/

/-- Each degree as so many zeros, closed by a one. -/
def unary (degrees : List Nat) : List Bool :=
  degrees.flatMap fun d => List.replicate d false ++ [true]

/-- Where the code of the `i`-th degree starts. -/
def start (degrees : List Nat) (i : Nat) : Nat := (degrees.take i).sum + i

theorem unary_append (l l' : List Nat) : unary (l ++ l') = unary l ++ unary l' :=
  List.flatMap_append

theorem length_unary (degrees : List Nat) : (unary degrees).length = degrees.sum + degrees.length := by
  induction degrees with
  | nil => rfl
  | cons d degrees ih =>
    rw [← List.singleton_append, unary_append, List.length_append, ih]
    simp [unary]
    omega

theorem count_true_unary (degrees : List Nat) : (unary degrees).count true = degrees.length := by
  induction degrees with
  | nil => rfl
  | cons d degrees ih =>
    rw [← List.singleton_append, unary_append, List.count_append, ih]
    simp [unary, List.count_replicate]
    omega

variable {degrees : List Nat} {d : Nat}

theorem unary_split (h : degrees[i]? = some d) :
    unary degrees = unary (degrees.take i) ++
      (List.replicate d false ++ true :: unary (degrees.drop (i + 1))) ∧
      (unary (degrees.take i)).length = start degrees i := by
  obtain ⟨hi, rfl⟩ := List.getElem?_eq_some_iff.mp h
  constructor
  · have hcode : List.replicate degrees[i] false ++ true :: unary (degrees.drop (i + 1)) =
        unary (degrees.drop i) := by
      rw [List.drop_eq_getElem_cons hi, unary, unary, List.flatMap_cons, List.append_assoc]
      rfl
    rw [hcode, ← unary_append, List.take_append_drop]
  · rw [length_unary, List.length_take, start, Nat.min_eq_left hi.le]

/-- The children of a node are zeros. -/
theorem unary_edge (h : degrees[i]? = some d) (hj : j < d) :
    (unary degrees)[start degrees i + j]? = some false := by
  obtain ⟨hsplit, hlength⟩ := unary_split h
  rw [hsplit, ← hlength, List.getElem?_append_right (Nat.le_add_right _ _),
    Nat.add_sub_cancel_left, List.getElem?_append_left (by rwa [List.length_replicate]),
    List.getElem?_replicate_of_lt hj]

/-- Behind the last child of a node stands a one. -/
theorem unary_stop (h : degrees[i]? = some d) :
    (unary degrees)[start degrees i + d]? = some true := by
  obtain ⟨hsplit, hlength⟩ := unary_split h
  rw [hsplit, ← hlength, List.getElem?_append_right (Nat.le_add_right _ _),
    Nat.add_sub_cancel_left, List.getElem?_append_right (by rw [List.length_replicate]),
    List.length_replicate, Nat.sub_self]
  rfl

/-- Before a child of node `i`, and before its closing one, stand `i` ones. -/
theorem count_unary (h : degrees[i]? = some d) (hj : j ≤ d) :
    ((unary degrees).take (start degrees i + j)).count true = i := by
  obtain ⟨hsplit, hlength⟩ := unary_split h
  obtain ⟨hi, -⟩ := List.getElem?_eq_some_iff.mp h
  rw [hsplit, ← hlength, List.take_length_add_append, List.count_append, count_true_unary,
    List.take_append_of_le_length (by rwa [List.length_replicate]), List.take_replicate,
    List.length_take, Nat.min_eq_left hi.le]
  simp [List.count_replicate]

/-- The code of the next degree starts behind the closing one. -/
theorem start_succ (h : degrees[i]? = some d) :
    start degrees (i + 1) = start degrees i + d + 1 := by
  obtain ⟨hi, rfl⟩ := List.getElem?_eq_some_iff.mp h
  rw [start, start, List.take_add_one, List.getElem?_eq_getElem hi, List.sum_append]
  simp
  omega

end LevelOrder
