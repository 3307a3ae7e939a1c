import NodeCatalog.Proofs.After.Invariance
import NodeCatalog.Proofs.After.Numbering

/-!
# The layout of a forest

The nodes of a forest are numbered (`Numbered`) and hold the items that belong below them
(`Complete`), and no item is lost or kept twice while they grow (`grow_perm`).  Together this is how
a forest is laid out: `LaidOut`.

A forest may hold the positions of items instead of the items.  It is the same forest (`build_map`),
and it is laid out in the same way (`forest_laidOut`).
-/

namespace NodeCatalog.After

open scoped List

variable {α : Type u} {β : Type v} {v : View α} {items : List α}

/-! ### Items below a node -/

/-- Whether an item belongs below a node with an item, or below the root, which has none.  Nothing
belongs below an item with the root's id, as all that names this id belongs below the root. -/
def View.HangsBelow (v : View α) : Option α → α → Prop
  | none, a => v.after a = rootId
  | some b, a => v.after a = v.id b ∧ v.id b ≠ rootId

theorem View.mem_hanging {o : Option α} {a : α} :
    a ∈ v.hanging items o ↔ a ∈ items ∧ v.HangsBelow o a := by
  cases o with
  | none => exact mem_siblings
  | some b => exact mem_below

theorem View.nodup_hanging (hids : (items.map v.id).Nodup) (o : Option α) :
    (v.hanging items o).Nodup := by
  cases o with
  | none => exact nodup_siblings hids rootId
  | some b => exact nodup_below hids b

theorem View.pairwise_hanging [Std.TransCmp v.compare] (items : List α) (o : Option α) :
    (v.hanging items o).Pairwise fun a b => v.le a b = true := by
  cases o with
  | none => exact v.pairwise_sort _
  | some b =>
    rw [hanging, below]
    split
    · exact List.Pairwise.nil
    · exact v.pairwise_sort _

/-- The same node with another item. -/
def Node.map (f : β → α) (node : Node β) : Node α :=
  ⟨node.item.map f, node.children⟩

namespace Forest

/-! ### Items held -/

/-- The items of the nodes, by their numbers. -/
def held (nodes : List (Node α)) : List α :=
  nodes.filterMap Node.item

/-- To get children does not change the item of a node. -/
theorem map_item_hang (nodes : List (Node α)) (number : Nat) (claimed : List α) :
    (hang nodes number claimed).map Node.item = nodes.map Node.item ++ claimed.map some := by
  refine List.ext_getElem? fun n => ?_
  rw [List.getElem?_map]
  rcases Nat.lt_or_ge n nodes.length with hlt | hge
  · rw [getElem?_hang_of_lt hlt, List.getElem?_append_left (by rwa [List.length_map]),
      List.getElem?_map, List.getElem?_eq_getElem hlt]
    simp only [Option.map_some]
    split <;> rfl
  · rw [getElem?_hang_of_ge hge, List.getElem?_append_right (by rwa [List.length_map]),
      List.length_map, List.getElem?_map, Option.map_map]
    rfl

theorem held_hang (nodes : List (Node α)) (number : Nat) (claimed : List α) :
    held (hang nodes number claimed) = held nodes ++ claimed := by
  have hitems : ∀ l : List (Node α), held l = (l.map Node.item).filterMap id := fun l => by
    rw [List.filterMap_map]
    rfl
  rw [hitems, map_item_hang, List.filterMap_append, ← hitems, List.filterMap_map]
  exact congrArg (held nodes ++ ·) List.filterMap_some

/-- The items that leave the pool are those of the new nodes. -/
theorem grow_perm (v : View α) (nodes : List (Node α)) (stack : List (Nat × String))
    (pool : List α) :
    (held (grow v nodes stack pool).1 ++ (grow v nodes stack pool).2).Perm
      (held nodes ++ pool) := by
  fun_induction grow v nodes stack pool with
  | case1 nodes pool => exact .refl _
  | case2 nodes number id stack pool taken numbers grown ih =>
    have hgrown : held grown = held nodes ++ taken := held_hang nodes number taken
    refine ih.trans ?_
    calc held grown ++ v.others id pool
      _ = held nodes ++ (taken ++ v.others id pool) := by rw [hgrown, List.append_assoc]
      _ ~ held nodes ++ (v.followers id pool ++ v.others id pool) :=
        ((v.sort_perm _).append_right _).append_left _
      _ ~ held nodes ++ pool := (v.followers_append_others_perm id pool).append_left _

/-- Each item is held by a node, or it is unresolved. -/
theorem build_perm (v : View α) (items : List α) :
    (held (build v items).nodes ++ (build v items).unresolved).Perm items :=
  ((v.sort_perm _).append_left _).trans (grow_perm v [⟨none, []⟩] [(0, rootId)] items)

/-! ### The layout -/

/-- How the forest of some items is laid out. -/
structure LaidOut (v : View α) (items : List α) (f : Forest α) : Prop extends
    Numbered f.nodes where
  /-- The children of a node hold just the items that belong below it, each once and sorted. -/
  children : ∀ (n : Nat) (node : Node α), f.nodes[n]? = some node → ∃ below : List α,
    List.Forall₂ (fun c a => itemAt f.nodes c = some a) node.children below ∧
      (below.Pairwise fun a b => v.le a b = true) ∧ below.Nodup ∧
      ∀ a, a ∈ below ↔ a ∈ items ∧ v.HangsBelow node.item a
  /-- Each item is in one place: at one node, or once among the unresolved items. -/
  perm : (held f.nodes ++ f.unresolved).Perm items
  nodup : (held f.nodes ++ f.unresolved).Nodup
  /-- The walk over the nodes ends, it comes to each node but the root once, and it reads off the
  items of these nodes. -/
  walk : ∃ numbers, Walk f f.rootChildren numbers ∧
    (0 :: numbers).Perm (List.range f.nodes.length) ∧
    List.Forall₂ (fun n a => itemAt f.nodes n = some a) numbers f.preOrder

theorem laidOut_build [Std.TransCmp v.compare] (hids : (items.map v.id).Nodup) :
    LaidOut v items (build v items) where
  toNumbered := numbered_build v items
  children n node hnode :=
    ⟨v.hanging items node.item, (complete_build hids).children n node hnode List.not_mem_nil,
      v.pairwise_hanging items node.item, v.nodup_hanging hids node.item, fun _ => v.mem_hanging⟩
  perm := build_perm v items
  nodup := (build_perm v items).nodup_iff.mpr (List.Nodup.of_map _ hids)
  walk := (numbered_build v items).exists_walk

/-! ### Items seen through a function -/

section Map

variable (v : View α) (f : β → α)

/-- The same forest with other items. -/
def map (forest : Forest β) : Forest α :=
  ⟨forest.nodes.map (Node.map f), forest.unresolved.map f⟩

theorem hang_map (nodes : List (Node β)) (number : Nat) (claimed : List β) :
    hang (nodes.map (Node.map f)) number (claimed.map f) =
      (hang nodes number claimed).map (Node.map f) := by
  refine List.ext_getElem? fun n => ?_
  rw [List.getElem?_map]
  rcases Nat.lt_or_ge n nodes.length with hlt | hge
  · rw [getElem?_hang_of_lt (by rwa [List.length_map]), getElem?_hang_of_lt hlt, List.getElem?_map,
      List.getElem?_eq_getElem hlt, List.length_map, List.length_map]
    simp only [Option.map_some]
    split <;> rfl
  · rw [getElem?_hang_of_ge (by rwa [List.length_map]), getElem?_hang_of_ge hge, List.length_map,
      List.getElem?_map, Option.map_map, Option.map_map]
    rfl

/-- One round: the node on top gets its children, and these are open in its place. -/
theorem grow_cons (nodes : List (Node α)) (number : Nat) (id : String)
    (stack : List (Nat × String)) (pool : List α) :
    grow v nodes ((number, id) :: stack) pool =
      grow v (hang nodes number (v.siblings pool id))
        (((List.range' nodes.length (v.siblings pool id).length).zip
          ((v.siblings pool id).map v.id)).reverse ++ stack) (v.others id pool) := by
  rw [grow]
  rfl

theorem grow_map (nodes : List (Node β)) (stack : List (Nat × String)) (pool : List β) :
    grow v (nodes.map (Node.map f)) stack (pool.map f) =
      ((grow (v.comap f) nodes stack pool).1.map (Node.map f),
        (grow (v.comap f) nodes stack pool).2.map f) := by
  fun_induction grow (v.comap f) nodes stack pool with
  | case1 nodes pool => rw [grow]
  | case2 nodes number id stack pool taken numbers grown ih =>
    have htaken : v.siblings (pool.map f) id = taken.map f := v.siblings_map f pool id
    have hothers : v.others id (pool.map f) = ((v.comap f).others id pool).map f := List.filter_map
    have hgrown : hang (nodes.map (Node.map f)) number (taken.map f) = grown.map (Node.map f) :=
      hang_map f nodes number taken
    rw [← ih, grow_cons, htaken, hothers, hgrown, List.length_map, List.length_map, List.map_map]
    rfl

/-- The forest of items that are seen through a function is that of their images. -/
theorem build_map (items : List β) : build v (items.map f) = (build (v.comap f) items).map f := by
  have hgrow := grow_map v f [⟨none, []⟩] [(0, rootId)] items
  have hroot : [(⟨none, []⟩ : Node β)].map (Node.map f) = [⟨none, []⟩] := rfl
  rw [hroot] at hgrow
  rw [build, hgrow]
  exact congrArg (Forest.mk _) (v.sort_map f _)

end Map

/-! ### Positions -/

/-- The forest of the positions of items. -/
def byPosition (v : View α) (items : List α) : Forest (Fin items.length) :=
  build (v.comap items.get) (List.finRange items.length)

/-- Items with different ids are ordered by their forest, which holds their positions as it holds
them, and either way it is laid out as a forest. -/
theorem forest_laidOut [Std.TransCmp v.compare] (hids : (items.map v.id).Nodup) :
    orderGroup v items = .ok ⟨(build v items).flatten, (build v items).unresolved⟩ ∧
      LaidOut v items (build v items) ∧
      build v items = (byPosition v items).map items.get ∧
      LaidOut (v.comap items.get) (List.finRange items.length) (byPosition v items) := by
  refine ⟨?_, laidOut_build hids, ?_, laidOut_build (v.nodup_ids_positions hids)⟩
  · have hfirst : firstRepeated [] (items.map v.id) = none :=
      firstRepeated_eq_none_iff.mpr ⟨hids, fun _ _ => List.not_mem_nil⟩
    rw [orderGroup, hfirst]
  · rw [byPosition, ← build_map, List.map_get_finRange]

theorem forest_laidOut_tangle :
    Std.TransCmp Item.tied.compare ∧ (Item.tangle.map Item.tied.id).Nodup ∧
      orderGroup Item.tied Item.tangle =
        .ok ⟨(build Item.tied Item.tangle).flatten, (build Item.tied Item.tangle).unresolved⟩ ∧
      LaidOut Item.tied Item.tangle (build Item.tied Item.tangle) ∧
      build Item.tied Item.tangle = (byPosition Item.tied Item.tangle).map Item.tangle.get ∧
      LaidOut (Item.tied.comap Item.tangle.get) (List.finRange Item.tangle.length)
        (byPosition Item.tied Item.tangle) := by
  have hids : (Item.tangle.map Item.tied.id).Nodup := by decide
  exact ⟨inferInstance, hids, forest_laidOut hids⟩

/-- The last child is open first, and nothing hangs below the item with the root's id. -/
example :
    (build Item.tied Item.tangle).nodes.map (fun node =>
      (node.item.map Item.id, node.children)) =
        [(none, [1, 2]), (some "", []), (some "b", [3, 4]), (some "e", [5]), (some "f", []),
          (some "g", [])] := by
  cbv

end Forest

end NodeCatalog.After
