import NodeCatalog.Proofs.Assembly.Members

/-!
# The stages of assembling

What the categories come to does not depend on the rest: it is the assembly of the categories alone.
From there on no category is missing that a node set does not bring, and no node set is skipped, so
that the catalog is the one with all templates of the node sets, in which nodes and then meta nodes
are settled (`nonempty_stages`).
-/

namespace NodeCatalog

open Container Catalog

/-- Where nothing is placed, nothing changes. -/
theorem Catalog.Settled.eq_of_placed_nil {α : Type} {entry : α → Entry} {start now : Catalog}
    {out : List (α × Skipped.Reason)} (h : Settled entry start now [] out) : now = start := by
  generalize hplaced : ([] : List α) = placed at h
  induction h with
  | none => rfl
  | placed _ _ _ => simp at hplaced
  | duplicate _ _ ih => exact ih hplaced
  | refused _ _ ih => exact ih hplaced

namespace Contributions

/-- The categories alone. -/
def categoriesOnly (c : Contributions) : Contributions where
  settings := c.settings
  categories := c.categories

/-- All templates of node sets. -/
def memberTemplates (c : Contributions) : List NodeTemplate :=
  c.nodeSets.flatMap NodeSet.templates

theorem map_snd_members (c : Contributions) :
    (members c.nodeSets).map Prod.snd = c.memberTemplates := by
  rw [members, List.map_flatMap, memberTemplates]
  congr 1
  funext set
  rw [List.map_map]
  exact List.map_id' _

/-- The catalog with the categories and the templates of node sets. -/
def withSets (c : Contributions) : Catalog :=
  (assemble c.categoriesOnly).catalog.withMembers (members c.nodeSets)

/-- Assembling starts with the categories alone; then come the templates of node sets, nodes and
meta nodes. -/
structure Stages (c : Contributions) where
  course : Course c.categoriesOnly
  /-- The catalog when all nodes are settled. -/
  late : Catalog
  nodes : List NodeTemplate
  nodesOut : List (NodeTemplate × Skipped.Reason)
  metaNodes : List MetaTemplate
  metaNodesOut : List (MetaTemplate × Skipped.Reason)
  settled_categories : Settled (Branch.entry c.settings.sortChildren) (.empty c.settings)
    (assemble c.categoriesOnly).catalog course.categories course.categoriesOut
  settled_nodes : Settled NodeTemplate.entry c.withSets late nodes nodesOut
  settled_metaNodes : Settled MetaTemplate.entry late (assemble c).catalog metaNodes metaNodesOut
  perm_nodes : (nodes ++ nodesOut.map Prod.fst).Perm c.nodes
  perm_metaNodes : (metaNodes ++ metaNodesOut.map Prod.fst).Perm c.metaNodes
  skipped_eq : (assemble c).skipped =
    course.categoriesOut.map (Skipped.of .category (Branch.entry c.settings.sortChildren)) ++
      nodesOut.map (Skipped.of .node NodeTemplate.entry) ++
      metaNodesOut.map (Skipped.of .metaNode MetaTemplate.entry)

/-- The course of the categories alone ends when they are settled. -/
theorem Course.of_categoriesOnly {c : Contributions} (course : Course c.categoriesOnly) :
    course.middle = (assemble c.categoriesOnly).catalog ∧ (assemble c.categoriesOnly).skipped =
      course.categoriesOut.map (Skipped.of .category (Branch.entry c.settings.sortChildren)) := by
  obtain ⟨hnodes, hnodesOut⟩ := List.append_eq_nil_iff.mp course.perm_nodes.eq_nil
  obtain ⟨hmetaNodes, hmetaNodesOut⟩ := List.append_eq_nil_iff.mp course.perm_metaNodes.eq_nil
  have hlate : course.late = course.middle :=
    Settled.eq_of_placed_nil (hnodes ▸ course.settled_nodes)
  have hcatalog : (assemble c.categoriesOnly).catalog = course.late :=
    Settled.eq_of_placed_nil (hmetaNodes ▸ course.settled_metaNodes)
  refine ⟨(hcatalog.trans hlate).symm, ?_⟩
  rw [course.skipped_eq, List.map_eq_nil_iff.mp hnodesOut, List.map_eq_nil_iff.mp hmetaNodesOut]
  exact (List.append_nil _).trans (List.append_nil _)

theorem nonempty_stages (c : Contributions) : Nonempty (Stages c) := by
  obtain ⟨course⟩ := @nonempty_course c.categoriesOnly rfl
  obtain ⟨hmiddle, hskipped⟩ := course.of_categoriesOnly
  obtain ⟨nodes, nodesOut, hnodes, -, -⟩ :=
    @exists_settled_insertEach _ NodeTemplate.entry (fun t => t.id) Catalog.addNode
      (fun _ _ => rfl) (fun _ => rfl) .node c.withSets c.nodes
  generalize hsecond : insertEach .node (fun t => t.id) Catalog.addNode c.withSets c.nodes = second
    at hnodes
  obtain ⟨metaNodes, metaNodesOut, hmetaNodes, -, -⟩ :=
    @exists_settled_insertEach _ MetaTemplate.entry (fun t => t.id) Catalog.addMetaNode
      (fun _ _ => rfl) (fun _ => rfl) .metaNode second.1 c.metaNodes
  generalize hthird : insertEach .metaNode (fun t => t.id) Catalog.addMetaNode second.1
    c.metaNodes = third at hmetaNodes
  have hcategories : placeAll (.empty c.settings) c.categories =
      ((assemble c.categoriesOnly).catalog, (assemble c.categoriesOnly).skipped) := by
    simp [assemble, categoriesOnly, insertSets, insertEach]
  have hassemble : (assemble c).catalog = third.1 ∧
      (assemble c).skipped = (assemble c.categoriesOnly).skipped ++ second.2 ++ third.2 := by
    simp only [assemble.eq_def c, hcategories, insertSets_eq, List.append_nil]
    rw [← withSets, hsecond, hthird]
    exact ⟨rfl, rfl⟩
  exact ⟨
    { course
      late := second.1
      nodes
      nodesOut
      metaNodes
      metaNodesOut
      settled_categories := hmiddle ▸ course.settled_categories
      settled_nodes := hnodes.settled
      settled_metaNodes := hassemble.1 ▸ hmetaNodes.settled
      perm_nodes := hnodes.accounted
      perm_metaNodes := hmetaNodes.accounted
      skipped_eq := by rw [hassemble.2, hskipped, hnodes.skipped, hmetaNodes.skipped] }⟩

end Contributions

end NodeCatalog
