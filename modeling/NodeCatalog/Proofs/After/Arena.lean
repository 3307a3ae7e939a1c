import NodeCatalog.Proofs.After.Pool

/-!
# The forest and the plain rule

The forest is grown the other way round than the plain rule asks: the last child claims its
followers first, and the order is read off the nodes at the end.  It does not matter.  While the
forest grows, the nodes that are not open hold just the items that belong below them (`Complete`),
and when no node is open, visiting the nodes is the pre-order (`visit_append`).  As there is one
pre-order only, the forest orders items as the plain rule does (`orderGroup_eq_plainOrder`).
-/

namespace NodeCatalog.After

variable {α : Type u}

/-- The items that belong below a node with an item, or below the root, which has none. -/
def View.hanging (v : View α) (items : List α) : Option α → List α
  | none => v.siblings items rootId
  | some a => v.below items a

namespace Forest

/-- The item of the node with a number. -/
def itemAt (nodes : List (Node α)) (number : Nat) : Option α :=
  nodes[number]?.bind Node.item

/-- The nodes with new ones for some items, which hang below the node with a number. -/
def hang (nodes : List (Node α)) (number : Nat) (claimed : List α) : List (Node α) :=
  nodes.modify number (fun node => { node with
    children := List.range' nodes.length claimed.length }) ++ claimed.map leaf

/-- All nodes but the open ones hold the items that belong below them. -/
structure Complete (v : View α) (items : List α) (nodes : List (Node α)) (opened : List Nat) :
    Prop where
  root : nodes[0]?.map Node.item = some none
  lt : ∀ n ∈ opened, n < nodes.length
  nodup : opened.Nodup
  children : ∀ n node, nodes[n]? = some node → n ∉ opened →
    List.Forall₂ (fun c a => itemAt nodes c = some a) node.children (v.hanging items node.item)

variable {v : View α} {items : List α} {nodes : List (Node α)}

/-! ### New nodes -/

theorem length_hang (nodes : List (Node α)) (number : Nat) (claimed : List α) :
    (hang nodes number claimed).length = nodes.length + claimed.length := by
  simp [hang]

/-- The nodes that were there keep their items, and all but one keep their children. -/
theorem getElem?_hang_of_lt {n : Nat} (h : n < nodes.length) (number : Nat) (claimed : List α) :
    (hang nodes number claimed)[n]? = nodes[n]?.map fun node =>
      if number = n then { node with children := List.range' nodes.length claimed.length }
      else node := by
  rw [hang, List.getElem?_append_left (by rwa [List.length_modify]), List.getElem?_modify]
  cases nodes[n]? <;> simp

/-- Behind them stand the new nodes, and no others. -/
theorem getElem?_hang_of_ge {n : Nat} (h : nodes.length ≤ n) (number : Nat) (claimed : List α) :
    (hang nodes number claimed)[n]? = claimed[n - nodes.length]?.map leaf := by
  rw [hang, List.getElem?_append_right (by rwa [List.length_modify]), List.length_modify,
    List.getElem?_map]

theorem itemAt_hang_of_lt {n : Nat} (h : n < nodes.length) (number : Nat) (claimed : List α) :
    itemAt (hang nodes number claimed) n = itemAt nodes n := by
  rw [itemAt, getElem?_hang_of_lt h, itemAt, Option.bind_map]
  refine Option.bind_congr fun node _ => ?_
  simp only [Function.comp_apply]
  split <;> rfl

theorem lt_of_itemAt {n : Nat} {a : α} (h : itemAt nodes n = some a) : n < nodes.length := by
  obtain ⟨node, hnode, -⟩ := Option.bind_eq_some_iff.mp h
  exact (List.getElem?_eq_some_iff.mp hnode).1

/-- The new nodes hold the items in their order. -/
theorem forall₂_itemAt_hang (nodes : List (Node α)) (number : Nat) (claimed : List α) :
    List.Forall₂ (fun c a => itemAt (hang nodes number claimed) c = some a)
      (List.range' nodes.length claimed.length) claimed := by
  rw [List.forall₂_iff_get]
  refine ⟨List.length_range', fun i h₁ h₂ => ?_⟩
  have hlen : nodes.length ≤ nodes.length + i := Nat.le_add_right _ _
  simp only [List.get_eq_getElem, List.getElem_range', Nat.one_mul, itemAt]
  rw [getElem?_hang_of_ge hlen, Nat.add_sub_cancel_left, List.getElem?_eq_getElem h₂]
  rfl

/-- The nodes that are open after an open one has got its children are there. -/
theorem lt_length_hang {number : Nat} {opened : List Nat}
    (hlt : ∀ n ∈ number :: opened, n < nodes.length) (claimed : List α) :
    ∀ n ∈ (List.range' nodes.length claimed.length).reverse ++ opened,
      n < (hang nodes number claimed).length := by
  intro n hn
  rw [length_hang]
  rcases List.mem_append.mp hn with hn | hn
  · rw [List.mem_reverse, List.mem_range'_1] at hn
    exact hn.2
  · exact Nat.lt_add_right _ (hlt n (List.mem_cons_of_mem _ hn))

/-- They are different nodes. -/
theorem nodup_hang {number : Nat} {opened : List Nat}
    (hlt : ∀ n ∈ number :: opened, n < nodes.length) (hnodup : (number :: opened).Nodup)
    (count : Nat) : ((List.range' nodes.length count).reverse ++ opened).Nodup := by
  rw [List.nodup_append, List.nodup_reverse]
  refine ⟨List.nodup_range', (List.nodup_cons.mp hnodup).2, ?_⟩
  rintro n hn m hm rfl
  rw [List.mem_reverse, List.mem_range'_1] at hn
  exact absurd (hlt n (List.mem_cons_of_mem _ hm)) (Nat.not_lt.mpr hn.1)

/-- The nodes stay complete when an open one gets the items that belong below it. -/
theorem Complete.hang {number : Nat} {opened : List Nat} {claimed : List α}
    (h : Complete v items nodes (number :: opened))
    (hclaimed : ∀ node, nodes[number]? = some node → v.hanging items node.item = claimed) :
    Complete v items (hang nodes number claimed)
      ((List.range' nodes.length claimed.length).reverse ++ opened) := by
  refine
    { root := ?root
      lt := lt_length_hang h.lt claimed
      nodup := nodup_hang h.lt h.nodup claimed.length
      children := ?children }
  case root =>
    obtain ⟨node, hnode, hitem⟩ := Option.map_eq_some_iff.mp h.root
    rw [getElem?_hang_of_lt (List.getElem?_eq_some_iff.mp hnode).1, hnode]
    simp only [Option.map_some, Option.some.injEq]
    split <;> exact hitem
  case children =>
    intro n node hnode hn
    rw [List.mem_append, List.mem_reverse, List.mem_range'_1, not_or] at hn
    have hn_lt : n < nodes.length := by
      have := (List.getElem?_eq_some_iff.mp hnode).1
      rw [length_hang] at this
      omega
    rw [getElem?_hang_of_lt hn_lt] at hnode
    obtain ⟨old, hold, rfl⟩ := Option.map_eq_some_iff.mp hnode
    by_cases heq : number = n
    · subst heq
      rw [if_pos rfl, hclaimed old hold]
      exact forall₂_itemAt_hang nodes number claimed
    · -- the children that were there still hold their items
      rw [if_neg heq]
      refine (h.children n old hold ?_).imp fun c a hc => ?_
      · exact fun hmem => (List.mem_cons.mp hmem).elim (fun h => heq h.symm) hn.2
      · rw [itemAt_hang_of_lt (lt_of_itemAt hc), hc]

/-! ### Growing -/

/-- An open node holds an open item, whose id its followers name. -/
def Opens (v : View α) (nodes : List (Node α)) (entry : Nat × String) (a : α) : Prop :=
  itemAt nodes entry.1 = some a ∧ entry.2 = v.id a

theorem forall₂_zip_map {R : Nat → α → Prop} {numbers : List Nat} {as : List α}
    (h : List.Forall₂ R numbers as) (f : α → String) :
    List.Forall₂ (fun p a => R p.1 a ∧ p.2 = f a) (numbers.zip (as.map f)) as := by
  induction h with
  | nil => exact .nil
  | cons hr _ ih => exact .cons ⟨hr, rfl⟩ ih

/-- The stack after an open node has claimed its followers. -/
theorem forall₂_opens_hang {number : Nat} {claimed agenda : List α} {stack : List (Nat × String)}
    (h : List.Forall₂ (Opens v nodes) stack agenda) :
    List.Forall₂ (Opens v (hang nodes number claimed))
      (((List.range' nodes.length claimed.length).zip (claimed.map v.id)).reverse ++ stack)
      (claimed.reverse ++ agenda) := by
  refine List.rel_append ?_ (h.imp fun p a hp => ?_)
  · exact List.rel_reverse (forall₂_zip_map (forall₂_itemAt_hang nodes number claimed) v.id)
  · exact ⟨by rw [itemAt_hang_of_lt (lt_of_itemAt hp.1), hp.1], hp.2⟩

/-- The numbers of the nodes that are open after an open node has claimed its followers. -/
theorem map_fst_zip_append (nodes : List (Node α)) (claimed : List α)
    (stack : List (Nat × String)) :
    (((List.range' nodes.length claimed.length).zip (claimed.map v.id)).reverse ++ stack).map
        Prod.fst =
      (List.range' nodes.length claimed.length).reverse ++ stack.map Prod.fst := by
  rw [List.map_append, List.map_reverse, List.map_fst_zip (by simp)]

/-- When no node is open any more, all nodes are complete, and the items that are left are those
that are not resolved. -/
theorem grow_complete (hids : (items.map v.id).Nodup) (nodes : List (Node α))
    (stack : List (Nat × String)) (pool : List α) : ∀ claimed agenda,
      pool = v.unclaimed claimed items → Frontier v items claimed agenda →
      Complete v items nodes (stack.map Prod.fst) → List.Forall₂ (Opens v nodes) stack agenda →
      Complete v items (grow v nodes stack pool).1 [] ∧
        (grow v nodes stack pool).2 = v.stranded items := by
  fun_induction grow v nodes stack pool with
  | case1 nodes pool =>
    rintro claimed agenda rfl h hcomplete hstack
    cases hstack
    exact ⟨hcomplete, h.unclaimed_eq⟩
  | case2 nodes number id stack pool taken numbers grown ih =>
    rintro claimed agenda rfl h hcomplete hstack
    cases hstack with
    | @cons _ a _ agenda hopen hstack =>
    obtain ⟨hitem, rfl⟩ := hopen
    have htaken : taken = v.below items a := h.sort_followers List.mem_cons_self
    have hhanging : ∀ node, nodes[number]? = some node → v.hanging items node.item = taken := by
      intro node hnode
      rw [itemAt, hnode, Option.bind_some] at hitem
      rw [hitem, htaken]
      rfl
    refine ih (v.id a :: claimed) (taken.reverse ++ agenda) (v.others_unclaimed _ _ _) ?_ ?_ ?_
    · exact (htaken ▸ h.claim hids).perm ((taken.reverse_perm.symm).append_right agenda)
    · rw [map_fst_zip_append]
      exact hcomplete.hang hhanging
    · exact forall₂_opens_hang hstack

/-- Every item that leaves the pool gets a node. -/
theorem length_grow (v : View α) (nodes : List (Node α)) (stack : List (Nat × String))
    (pool : List α) :
    (grow v nodes stack pool).1.length + (grow v nodes stack pool).2.length =
      nodes.length + pool.length := by
  fun_induction grow v nodes stack pool with
  | case1 nodes pool => rfl
  | case2 nodes number id stack pool taken numbers grown ih =>
    have hgrown : grown.length = nodes.length + taken.length := length_hang nodes number taken
    have htaken : taken.length = (v.followers id pool).length := v.length_sort _
    have := v.length_followers_add_length_others id pool
    rw [ih, hgrown]
    omega

/-! ### Visiting -/

/-- Visiting nodes that hold some items lists the pre-order below these. -/
theorem visit_append {f : Forest α} (hcomplete : Complete v items f.nodes []) {as out : List α}
    (h : PreOrder (v.below items) as out) : ∀ {numbers : List Nat} (agenda : List Nat)
      (rounds : Nat), List.Forall₂ (fun n a => itemAt f.nodes n = some a) numbers as →
      f.visit (out.length + rounds) (numbers ++ agenda) = out ++ f.visit rounds agenda := by
  induction h with
  | nil =>
    intro numbers agenda rounds hnumbers
    cases hnumbers
    rw [List.length_nil, Nat.zero_add, List.nil_append, List.nil_append]
  | @cons a roots below rest _ _ ihbelow ihrest =>
    intro numbers agenda rounds hnumbers
    cases hnumbers with
    | @cons n _ numbers _ hn hnumbers =>
    obtain ⟨node, hnode, hitem⟩ := Option.bind_eq_some_iff.mp hn
    have hchildren := hcomplete.children n node hnode List.not_mem_nil
    rw [hitem] at hchildren
    have hrounds : (a :: (below ++ rest)).length + rounds =
        below.length + (rest.length + rounds) + 1 := by
      rw [List.length_cons, List.length_append]
      omega
    rw [hrounds, List.cons_append, visit]
    simp only [hnode, hitem, Option.toList_some]
    rw [ihbelow (numbers ++ agenda) _ hchildren, ihrest agenda rounds hnumbers]
    simp

/-! ### The whole forest -/

/-- The root alone, whose followers are claimed first. -/
theorem complete_root (v : View α) (items : List α) :
    Complete v items [⟨none, []⟩] [0] where
  root := rfl
  lt := fun _ hn => Nat.lt_of_le_of_lt (Nat.le_of_eq (List.mem_singleton.mp hn)) Nat.one_pos
  nodup := List.nodup_singleton 0
  children := fun n node hnode hn => by
    have := (List.getElem?_eq_some_iff.mp hnode).1
    exact absurd (List.mem_singleton.mpr (Nat.lt_one_iff.mp this)) hn

/-- Growing from the root completes all nodes and leaves the items that are not resolved. -/
theorem grow_root (hids : (items.map v.id).Nodup) :
    Complete v items (grow v [⟨none, []⟩] [(0, rootId)] items).1 [] ∧
      (grow v [⟨none, []⟩] [(0, rootId)] items).2 = v.stranded items := by
  rw [grow]
  refine grow_complete hids _ _ _ [rootId] ((v.siblings items rootId).reverse ++ [])
    (v.others_eq_unclaimed rootId items) ?_ ?_ ?_
  · rw [List.append_nil]
    exact (frontier_root hids).perm (List.reverse_perm _).symm
  · rw [map_fst_zip_append]
    refine (complete_root v items).hang fun node hnode => ?_
    obtain rfl := Option.some.inj hnode
    rfl
  · exact forall₂_opens_hang .nil

/-- The root's children hold the items that follow none. -/
theorem forall₂_rootChildren {f : Forest α} (hcomplete : Complete v items f.nodes []) :
    List.Forall₂ (fun n a => itemAt f.nodes n = some a) f.rootChildren
      (v.siblings items rootId) := by
  obtain ⟨root, hroot, hitem⟩ := Option.map_eq_some_iff.mp hcomplete.root
  have hchildren := hcomplete.children 0 root hroot List.not_mem_nil
  rw [hitem] at hchildren
  rw [rootChildren]
  split
  · rename_i hnodes
    rw [hnodes] at hroot
    cases hroot
  · rename_i hnodes
    rw [hnodes] at hroot
    obtain rfl := Option.some.inj hroot
    exact hchildren

theorem complete_build (hids : (items.map v.id).Nodup) :
    Complete v items (build v items).nodes [] :=
  (grow_root hids).1

theorem unresolved_build (hids : (items.map v.id).Nodup) :
    (build v items).unresolved = v.problems items :=
  congrArg v.sort (grow_root hids).2

/-- There is a node for each resolved item, and the root. -/
theorem length_build (hids : (items.map v.id).Nodup) :
    (build v items).nodes.length + (v.stranded items).length = items.length + 1 := by
  have hgrow := length_grow v [⟨none, []⟩] [(0, rootId)] items
  rw [(grow_root hids).2, List.length_singleton, Nat.add_comm 1] at hgrow
  exact hgrow

/-- The forest holds what the plain rule places, in that order. -/
theorem preOrder_build (hids : (items.map v.id).Nodup) :
    (build v items).preOrder = v.placed items := by
  have hcomplete := complete_build hids
  -- there are as many rounds as items are placed, and one more
  have hrounds : (build v items).nodes.length = (v.placed items).length + 1 := by
    have hbuild := length_build hids
    have hplaced := (placed_perm hids).length_eq
    rw [List.length_append] at hplaced
    omega
  have hvisit := visit_append hcomplete (draw_preOrder hids).1 [] 1
    (forall₂_rootChildren hcomplete)
  rw [List.append_nil] at hvisit
  rw [preOrder, hrounds, hvisit]
  exact List.append_nil _

end Forest

/-- Items with different ids are ordered: first the resolved ones in pre-order, then the others,
sorted. -/
theorem orderGroup_of_nodup (v : View α) {items : List α} (hids : (items.map v.id).Nodup) :
    orderGroup v items = .ok ⟨v.placed items ++ v.problems items, v.problems items⟩ := by
  have hfirst : firstRepeated [] (items.map v.id) = none :=
    firstRepeated_eq_none_iff.mpr ⟨hids, fun _ _ => List.not_mem_nil⟩
  rw [orderGroup, hfirst]
  simp only [Forest.flatten, Forest.preOrder_build hids, Forest.unresolved_build hids]

/-- Items with different ids are ordered as the plain rule orders them, whatever their ids and
however they compare. -/
theorem orderGroup_eq_plainOrder (v : View α) {items : List α} (hids : (items.map v.id).Nodup) :
    orderGroup v items = .ok (plainOrder v items) := by
  rw [orderGroup_of_nodup v hids, plainOrder, (draw_preOrder hids).2]
  rfl

/-- Items by name alone, so that different ones may tie. -/
def Item.tied : View Item :=
  { Item.view with compare := fun a b => compare a.name b.name }

instance : Std.TransCmp Item.tied.compare :=
  inferInstanceAs (Std.TransCmp (compareOn Item.name))

/-- Items of which some tie, one has the root's id, and some form a cycle, wait for it, or name
nothing that is there. -/
def Item.tangle : List Item :=
  [⟨"e", "E", "b", .leaf⟩, ⟨"d", "D", "c", .leaf⟩, ⟨"c", "D", "d", .leaf⟩, ⟨"x", "A", "d", .leaf⟩,
    ⟨"", "A", "", .leaf⟩, ⟨"b", "A", "", .leaf⟩, ⟨"f", "E", "b", .leaf⟩, ⟨"g", "G", "e", .leaf⟩,
    ⟨"l", "B", "nowhere", .leaf⟩]

theorem orderGroup_eq_plainOrder_tangle :
    (Item.tangle.map Item.tied.id).Nodup ∧
      orderGroup Item.tied Item.tangle = .ok (plainOrder Item.tied Item.tangle) := by
  have hids : (Item.tangle.map Item.tied.id).Nodup := by decide
  exact ⟨hids, orderGroup_eq_plainOrder Item.tied hids⟩

end NodeCatalog.After
