import Mathlib.Logic.ExistsUnique
import NodeCatalog.Proofs.After.Arena

/-!
# The numbers of the nodes

Nodes are numbered as they are made, and a node is made as a child of one that is there already.  So
each number but the root's stands among the children of one node, and this node has a smaller number:
`Numbered` says so of a forest that grows, and it needs neither ids nor a comparison.

To read the forest is to walk over its nodes: the first number on an agenda is taken off, and the
children of its node are put on in its place.  `Walk` is this loop without a bound on its rounds.
What has been taken and what is on the agenda are together the children of the root and of all that
has been taken (`Underway`), so that no number comes twice, the walk ends, and nothing is left out
(`exists_walk`).
-/

namespace NodeCatalog.After.Forest

open scoped List

variable {α : Type u} {nodes : List (Node α)}

/-- The numbers of the children of the node with a number; none if there is no such node. -/
def childrenAt (nodes : List (Node α)) (number : Nat) : List Nat :=
  nodes[number]?.elim [] Node.children

theorem childrenAt_of_getElem? {n : Nat} {node : Node α} (h : nodes[n]? = some node) :
    childrenAt nodes n = node.children := by
  rw [childrenAt, h, Option.elim_some]

theorem rootChildren_eq (f : Forest α) : f.rootChildren = childrenAt f.nodes 0 := by
  rw [rootChildren, childrenAt]
  cases f.nodes <;> rfl

/-- How the nodes of a forest are numbered. -/
structure Numbered (nodes : List (Node α)) : Prop where
  /-- Node 0 is there. -/
  pos : 0 < nodes.length
  /-- It is the only node without an item. -/
  item_eq_none_iff : ∀ n node, nodes[n]? = some node → (node.item = none ↔ n = 0)
  /-- A child has a greater number than the node that it hangs below. -/
  lt_of_mem : ∀ p n, n ∈ childrenAt nodes p → p < n ∧ n < nodes.length
  /-- Each node but the root hangs below exactly one node. -/
  existsUnique_parent : ∀ n, 0 < n → n < nodes.length → ∃! p, n ∈ childrenAt nodes p
  /-- The children of a node have consecutive numbers. -/
  consecutive : ∀ p, ∃ first count, childrenAt nodes p = List.range' first count

/-- The open nodes are there, they are different, and nothing hangs below them yet. -/
structure Opened (nodes : List (Node α)) (opened : List Nat) : Prop where
  lt : ∀ n ∈ opened, n < nodes.length
  nodup : opened.Nodup
  childless : ∀ n ∈ opened, childrenAt nodes n = []

/-! ### Growing -/

section Hang

variable {number : Nat} {opened : List Nat}

/-- What hangs below the nodes when one of them gets children. -/
theorem childrenAt_hang (hnumber : number < nodes.length) (claimed : List α) (n : Nat) :
    childrenAt (hang nodes number claimed) n =
      if number = n then List.range' nodes.length claimed.length else childrenAt nodes n := by
  rcases Nat.lt_or_ge n nodes.length with hlt | hge
  · rw [childrenAt, getElem?_hang_of_lt hlt, childrenAt, List.getElem?_eq_getElem hlt]
    simp only [Option.map_some, Option.elim_some]
    split <;> rfl
  · -- the new nodes have no children, and there are no others
    rw [if_neg (by omega), childrenAt, getElem?_hang_of_ge hge, childrenAt,
      List.getElem?_eq_none hge]
    cases claimed[n - nodes.length]? <;> rfl

theorem mem_childrenAt_hang (hopened : Opened nodes (number :: opened)) (claimed : List α)
    (p n : Nat) :
    n ∈ childrenAt (hang nodes number claimed) p ↔
      n ∈ childrenAt nodes p ∨
        number = p ∧ nodes.length ≤ n ∧ n < nodes.length + claimed.length := by
  rw [childrenAt_hang (hopened.lt number List.mem_cons_self)]
  split
  · rename_i heq
    rw [← heq, hopened.childless number List.mem_cons_self, List.mem_range'_1]
    simp
  · rename_i hne
    simp [hne]

/-- The new nodes are open in the place of the one that they hang below. -/
theorem Opened.hang (h : Opened nodes (number :: opened)) (claimed : List α) :
    Opened (hang nodes number claimed)
      ((List.range' nodes.length claimed.length).reverse ++ opened) where
  lt := lt_length_hang h.lt claimed
  nodup := nodup_hang h.lt h.nodup claimed.length
  childless n hn := by
    have hnumber := h.lt number List.mem_cons_self
    rw [childrenAt_hang hnumber]
    rcases List.mem_append.mp hn with hn | hn
    · rw [List.mem_reverse, List.mem_range'_1] at hn
      rw [if_neg (by omega), childrenAt, List.getElem?_eq_none hn.1, Option.elim_none]
    · have hne : number ≠ n := fun heq => (List.nodup_cons.mp h.nodup).1 (heq ▸ hn)
      rw [if_neg hne]
      exact h.childless n (List.mem_cons_of_mem _ hn)

/-- The nodes stay numbered when an open one gets children. -/
theorem Numbered.hang (h : Numbered nodes) (hopened : Opened nodes (number :: opened))
    (claimed : List α) : Numbered (hang nodes number claimed) := by
  have hnumber := hopened.lt number List.mem_cons_self
  have hmem := mem_childrenAt_hang hopened claimed
  refine
    { pos := ?pos
      item_eq_none_iff := ?item_eq_none_iff
      lt_of_mem := ?lt_of_mem
      existsUnique_parent := ?existsUnique_parent
      consecutive := ?consecutive }
  case pos =>
    rw [length_hang]
    exact Nat.add_pos_left h.pos _
  case item_eq_none_iff =>
    intro n node hnode
    rcases Nat.lt_or_ge n nodes.length with hlt | hge
    · rw [getElem?_hang_of_lt hlt] at hnode
      obtain ⟨old, hold, rfl⟩ := Option.map_eq_some_iff.mp hnode
      rw [← h.item_eq_none_iff n old hold]
      split <;> rfl
    · rw [getElem?_hang_of_ge hge] at hnode
      obtain ⟨a, -, rfl⟩ := Option.map_eq_some_iff.mp hnode
      have hn : n ≠ 0 := Nat.ne_of_gt (Nat.lt_of_lt_of_le h.pos hge)
      simp [leaf, hn]
  case lt_of_mem =>
    intro p n hn
    rw [length_hang]
    rcases (hmem p n).mp hn with hn | ⟨rfl, hge, hlt⟩
    · exact ⟨(h.lt_of_mem p n hn).1, Nat.lt_add_right _ (h.lt_of_mem p n hn).2⟩
    · exact ⟨Nat.lt_of_lt_of_le hnumber hge, hlt⟩
  case existsUnique_parent =>
    intro n hpos hn
    rw [length_hang] at hn
    rcases Nat.lt_or_ge n nodes.length with hlt | hge
    · obtain ⟨p, hp, hunique⟩ := h.existsUnique_parent n hpos hlt
      refine ⟨p, (hmem p n).mpr (.inl hp), fun q hq => ?_⟩
      rcases (hmem q n).mp hq with hq | ⟨-, hge, -⟩
      · exact hunique q hq
      · exact absurd hlt (Nat.not_lt.mpr hge)
    · refine ⟨number, (hmem number n).mpr (.inr ⟨rfl, hge, hn⟩), fun q hq => ?_⟩
      rcases (hmem q n).mp hq with hq | ⟨heq, -, -⟩
      · exact absurd (h.lt_of_mem q n hq).2 (Nat.not_lt.mpr hge)
      · exact heq.symm
  case consecutive =>
    intro p
    rw [childrenAt_hang hnumber]
    split
    · exact ⟨_, _, rfl⟩
    · exact h.consecutive p

end Hang

/-- While the forest grows, its nodes stay numbered. -/
theorem Numbered.grow (v : View α) (nodes : List (Node α)) (stack : List (Nat × String))
    (pool : List α) (h : Numbered nodes) (hopened : Opened nodes (stack.map Prod.fst)) :
    Numbered (grow v nodes stack pool).1 := by
  fun_induction Forest.grow v nodes stack pool with
  | case1 nodes pool => exact h
  | case2 nodes number id stack pool taken numbers grown ih =>
    refine ih (h.hang hopened taken) ?_
    rw [map_fst_zip_append]
    exact hopened.hang taken

theorem numbered_root : Numbered [(⟨none, []⟩ : Node α)] where
  pos := Nat.one_pos
  item_eq_none_iff n node hnode := by
    obtain ⟨hn, rfl⟩ := List.getElem?_eq_some_iff.mp hnode
    simpa using hn
  lt_of_mem p n hn := by
    cases p with
    | zero => exact absurd hn List.not_mem_nil
    | succ p => exact absurd hn List.not_mem_nil
  existsUnique_parent n hpos hn := absurd hn (Nat.not_lt.mpr hpos)
  consecutive p := ⟨0, 0, by cases p <;> rfl⟩

theorem opened_root : Opened [(⟨none, []⟩ : Node α)] [0] where
  lt n hn := by simpa using hn
  nodup := List.nodup_singleton 0
  childless n hn := by
    rw [List.mem_singleton.mp hn]
    rfl

/-- However items follow one another, the nodes of their forest are numbered. -/
theorem numbered_build (v : View α) (items : List α) : Numbered (build v items).nodes :=
  numbered_root.grow v _ [(0, rootId)] items opened_root

/-! ### Walking -/

/-- The walk over the nodes on an agenda ends, and it takes the second numbers in this order. -/
inductive Walk (f : Forest α) : List Nat → List Nat → Prop where
  /-- Nothing is left to take. -/
  | done : Walk f [] []
  /-- The first number is taken, and the children of its node come next. -/
  | take {number : Nat} {node : Node α} {agenda numbers : List Nat} :
      f.nodes[number]? = some node → Walk f (node.children ++ agenda) numbers →
      Walk f (number :: agenda) (number :: numbers)

/-- As many rounds as numbers are taken suffice to visit all nodes. -/
theorem Walk.visit_eq {f : Forest α} {agenda numbers : List Nat} (h : Walk f agenda numbers) :
    ∀ {rounds : Nat}, numbers.length ≤ rounds →
      f.visit rounds agenda = numbers.filterMap (itemAt f.nodes) := by
  induction h with
  | done =>
    intro rounds _
    cases rounds <;> rfl
  | @take number node agenda numbers hnode _ ih =>
    intro rounds hrounds
    cases rounds with
    | zero => exact absurd hrounds (Nat.not_succ_le_zero _)
    | succ rounds =>
      have hitem : itemAt f.nodes number = node.item := by rw [itemAt, hnode, Option.bind_some]
      rw [visit]
      simp only [hnode]
      rw [ih (Nat.le_of_succ_le_succ hrounds), List.filterMap_cons, hitem]
      cases node.item <;> rfl

/-- Where a walk from the root stands: the numbers that it has taken but the root's, and those that
it has not. -/
structure Underway (nodes : List (Node α)) (taken agenda : List Nat) : Prop where
  nodup : (0 :: taken).Nodup
  /-- A number is known as soon as its parent is taken. -/
  perm : (taken ++ agenda).Perm ((0 :: taken).flatMap (childrenAt nodes))

theorem underway_root (nodes : List (Node α)) : Underway nodes [] (childrenAt nodes 0) where
  nodup := List.nodup_singleton 0
  perm := by
    rw [List.nil_append, List.flatMap_singleton]

namespace Underway

variable {taken agenda : List Nat}

/-- Only numbers of nodes are known, and not the root's. -/
theorem lt_of_mem (hnumbered : Numbered nodes) (h : Underway nodes taken agenda) {n : Nat}
    (hn : n ∈ taken ++ agenda) : 0 < n ∧ n < nodes.length := by
  obtain ⟨p, -, hp⟩ := List.mem_flatMap.mp (h.perm.mem_iff.mp hn)
  obtain ⟨hlt, hlen⟩ := hnumbered.lt_of_mem p n hp
  exact ⟨Nat.zero_lt_of_lt hlt, hlen⟩

/-- No number is known twice, as it has one parent only. -/
theorem nodup_append (hnumbered : Numbered nodes) (h : Underway nodes taken agenda) :
    (taken ++ agenda).Nodup := by
  rw [h.perm.nodup_iff, List.nodup_flatMap]
  refine ⟨fun p _ => ?_, h.nodup.imp fun {p q} hne n hp hq => hne ?_⟩
  · obtain ⟨first, count, hchildren⟩ := hnumbered.consecutive p
    exact hchildren ▸ List.nodup_range'
  · obtain ⟨hlt, hlen⟩ := hnumbered.lt_of_mem p n hp
    exact (hnumbered.existsUnique_parent n (Nat.zero_lt_of_lt hlt) hlen).unique hp hq

/-- The first number on the agenda is taken, and its children come to stand there. -/
theorem take {n : Nat} (hnumbered : Numbered nodes) (h : Underway nodes taken (n :: agenda)) :
    Underway nodes (taken ++ [n]) (childrenAt nodes n ++ agenda) where
  nodup := by
    have hsub : (taken ++ [n]).Sublist (taken ++ n :: agenda) :=
      ((List.nil_sublist agenda).cons_cons n).append_left taken
    refine List.nodup_cons.mpr ⟨fun hzero => ?_, (h.nodup_append hnumbered).sublist hsub⟩
    exact Nat.lt_irrefl 0 (h.lt_of_mem hnumbered (hsub.subset hzero)).1
  perm := by
    calc taken ++ [n] ++ (childrenAt nodes n ++ agenda)
      _ = taken ++ n :: (childrenAt nodes n ++ agenda) := by simp
      _ ~ taken ++ n :: (agenda ++ childrenAt nodes n) :=
        (List.perm_append_comm.cons n).append_left taken
      _ = taken ++ n :: agenda ++ childrenAt nodes n := by simp
      _ ~ (0 :: taken).flatMap (childrenAt nodes) ++ childrenAt nodes n := h.perm.append_right _
      _ = (0 :: (taken ++ [n])).flatMap (childrenAt nodes) := by simp

/-- When the agenda is empty, each number has been taken. -/
theorem perm_range (hnumbered : Numbered nodes) (h : Underway nodes taken []) :
    (0 :: taken).Perm (List.range nodes.length) := by
  refine (List.perm_ext_iff_of_nodup h.nodup List.nodup_range).mpr fun n => ?_
  rw [List.mem_range]
  constructor
  · intro hn
    rcases List.mem_cons.mp hn with rfl | hn
    · exact hnumbered.pos
    · exact (h.lt_of_mem hnumbered (List.mem_append_left _ hn)).2
  · -- the parent has been taken, because it has a smaller number
    induction n using Nat.strongRecOn with
    | ind n ih =>
    intro hn
    rcases Nat.eq_zero_or_pos n with rfl | hpos
    · exact List.mem_cons_self
    · obtain ⟨p, hp, -⟩ := hnumbered.existsUnique_parent n hpos hn
      obtain ⟨hlt, -⟩ := hnumbered.lt_of_mem p n hp
      have hchild : n ∈ (0 :: taken).flatMap (childrenAt nodes) :=
        List.mem_flatMap.mpr ⟨p, ih p hlt (Nat.lt_trans hlt hn), hp⟩
      have htaken := h.perm.mem_iff.mpr hchild
      rw [List.append_nil] at htaken
      exact List.mem_cons_of_mem _ htaken

/-- A walk that is under way ends, and by then each number has been taken once. -/
theorem exists_walk {f : Forest α} (hnumbered : Numbered f.nodes) {taken agenda : List Nat}
    (h : Underway f.nodes taken agenda) :
    ∃ numbers, Walk f agenda numbers ∧
      (0 :: (taken ++ numbers)).Perm (List.range f.nodes.length) := by
  match agenda with
  | [] => exact ⟨[], .done, by simpa using h.perm_range hnumbered⟩
  | n :: agenda =>
    have hmem : n ∈ taken ++ n :: agenda := List.mem_append_right _ List.mem_cons_self
    have hnode := List.getElem?_eq_getElem (h.lt_of_mem hnumbered hmem).2
    obtain ⟨numbers, hwalk, hperm⟩ := exists_walk hnumbered (h.take hnumbered)
    rw [childrenAt_of_getElem? hnode] at hwalk
    exact ⟨n :: numbers, .take hnode hwalk, by simpa using hperm⟩
termination_by f.nodes.length - taken.length
decreasing_by
  -- what has been taken are numbers of nodes, each once, and one node more is there to be taken
  have hsub : (taken ++ [n]) ⊆ List.range f.nodes.length := fun m hm =>
    List.mem_range.mpr ((h.take hnumbered).lt_of_mem hnumbered (List.mem_append_left _ hm)).2
  have hlen := (List.nodup_cons.mp (h.take hnumbered).nodup).2.length_le_of_subset hsub
  simp only [List.length_append, List.length_singleton, List.length_range] at hlen ⊢
  omega

end Underway

/-- Each node but the root holds an item. -/
theorem Numbered.exists_itemAt (h : Numbered nodes) {n : Nat} (hpos : 0 < n)
    (hn : n < nodes.length) : ∃ a, itemAt nodes n = some a := by
  have hnode := List.getElem?_eq_getElem hn
  have hitem : nodes[n].item ≠ none := fun hnone =>
    Nat.ne_of_gt hpos ((h.item_eq_none_iff n _ hnode).mp hnone)
  obtain ⟨a, ha⟩ := Option.ne_none_iff_exists'.mp hitem
  exact ⟨a, by rw [itemAt, hnode, Option.bind_some, ha]⟩

theorem forall₂_filterMap {g : Nat → Option α} {numbers : List Nat}
    (h : ∀ n ∈ numbers, ∃ a, g n = some a) :
    List.Forall₂ (fun n a => g n = some a) numbers (numbers.filterMap g) := by
  induction numbers with
  | nil => exact .nil
  | cons n numbers ih =>
    obtain ⟨a, ha⟩ := h n List.mem_cons_self
    rw [List.filterMap_cons_some ha]
    exact .cons ha (ih fun m hm => h m (List.mem_cons_of_mem _ hm))

/-- The walk over a numbered forest ends, it takes each number but the root's once, and the items of
the forest are those of the nodes that it meets, one by one. -/
theorem Numbered.exists_walk {f : Forest α} (h : Numbered f.nodes) :
    ∃ numbers, Walk f f.rootChildren numbers ∧
      (0 :: numbers).Perm (List.range f.nodes.length) ∧
      List.Forall₂ (fun n a => itemAt f.nodes n = some a) numbers f.preOrder := by
  obtain ⟨numbers, hwalk, hperm⟩ := (underway_root f.nodes).exists_walk h
  rw [← rootChildren_eq] at hwalk
  have hrounds : numbers.length ≤ f.nodes.length := by
    have hlen := hperm.length_eq
    rw [List.length_cons, List.length_range] at hlen
    exact Nat.le_of_succ_le (Nat.le_of_eq hlen)
  refine ⟨numbers, hwalk, hperm, ?_⟩
  rw [preOrder, hwalk.visit_eq hrounds]
  refine forall₂_filterMap fun n hn => ?_
  have hzero : 0 ∉ numbers := (List.nodup_cons.mp (hperm.nodup_iff.mpr List.nodup_range)).1
  have hlt := List.mem_range.mp (hperm.mem_iff.mp (List.mem_cons_of_mem 0 hn))
  exact h.exists_itemAt (Nat.pos_of_ne_zero fun heq => hzero (heq ▸ hn)) hlt

end NodeCatalog.After.Forest
