import NodeCatalog.Proofs.Assembly.Expected

/-!
# Contributions in another order

If no contribution excludes another, it does not matter in which order contributions come.  What is
expected of the tree depends on what is contributed only (`expected_congr`), the tree meets it in
the end, and what is left out are the contributions whose paths do not lead anywhere
(`Stages.exact_of_distinct`).  The tree itself may differ, in the order of siblings and in the node
set that a category is brought by.  Its snapshot does not (`assemble_perm`).
-/

namespace NodeCatalog

open Container Catalog

/-! ### What does not depend on an order -/

section Congr

variable {bs bs' : List Branch} {ms ms' : List NodeTemplate} {ts ts' : List Template}
  {ids : List String}

theorem Anchored.mono (h : Anchored bs ids) (hbs : bs ⊆ bs') : Anchored bs' ids := by
  induction h with
  | root => exact .root
  | child hb _ ih => exact .child (hbs hb) ih

theorem Reached.mono (h : Reached bs ms ids) (hbs : bs ⊆ bs') (hms : ms ⊆ ms') :
    Reached bs' ms' ids := by
  rcases h with h | ⟨t, ht, habove⟩
  · exact .inl (h.mono hbs)
  · exact .inr ⟨t, hms ht, habove⟩

theorem reached_congr (hbs : bs.Perm bs') (hms : ms.Perm ms') :
    Reached bs ms ids ↔ Reached bs' ms' ids :=
  ⟨fun h => h.mono hbs.subset hms.subset, fun h => h.mono hbs.symm.subset hms.symm.subset⟩

theorem expected_congr (hbs : bs.Perm bs') (hms : ms.Perm ms') (hts : ts.Perm ts') {sorted : Bool}
    {x : List String × Entry} : Expected sorted bs ms ts x ↔ Expected sorted bs' ms' ts' x := by
  have himp : ∀ {bs bs' : List Branch} {ms ms' : List NodeTemplate} {ts ts' : List Template},
      bs.Perm bs' → ms.Perm ms' → ts.Perm ts' → Expected sorted bs ms ts x →
        Expected sorted bs' ms' ts' x := by
    intro bs bs' ms ms' ts ts' hbs hms hts h
    cases h with
    | category hb hpath => exact .category (hbs.subset hb) (hpath.mono hbs.subset)
    | brought h hanchored =>
      exact .brought (h.mono hbs.subset hms.subset) fun h => hanchored (h.mono hbs.symm.subset)
    | template ht h => exact .template (hts.subset ht) (h.mono hbs.subset hms.subset)
  exact ⟨himp hbs hms hts, himp hbs.symm hms.symm hts.symm⟩

/-- A tree that meets what is expected of some contributions meets it in any order of these. -/
theorem Catalog.Meets.congr {settings : Settings} {cat : Catalog}
    (h : cat.Meets settings bs ms ts) (hbs : bs.Perm bs') (hms : ms.Perm ms')
    (hts : ts.Perm ts') : cat.Meets settings bs' ms' ts' := by
  obtain ⟨items, hholds, hspots⟩ := h
  exact ⟨items, hholds, fun x => by rw [hspots, expected_congr hbs hms hts]⟩

/-- Trees that meet the same have the same snapshot. -/
theorem Catalog.Meets.exists_snapshot {settings : Settings} {cat cat' : Catalog}
    (h : cat.Meets settings bs ms ts) (h' : cat'.Meets settings bs ms ts)
    (hsorted : settings.sortChildren = true) :
    ∃ s, cat.snapshot = .ok s ∧ cat'.snapshot = .ok s := by
  obtain ⟨items, hholds, hspots⟩ := h
  obtain ⟨items', hholds', hspots'⟩ := h'
  -- no spot occurs twice, since no two items share a place
  have hnodup : ∀ {cat : Catalog} {items : List Entry}, cat.Holds settings items →
      (items.map Entry.spot).Nodup := by
    intro cat items hholds
    refine List.Nodup.of_map (fun x => (x.1, x.2.key)) ?_
    rw [List.map_map]
    simpa only [Function.comp_def, Entry.spot, Entry.key_plain] using hholds.distinct
  refine exists_snapshot_of_holds hholds hholds' hsorted ?_
  exact (List.perm_ext_iff_of_nodup (hnodup hholds) (hnodup hholds')).mpr fun x => by
    rw [hspots, hspots']

/-- What has not a property is the same in any order. -/
theorem perm_of_split {α : Type} {p p' : α → Prop} {as as' yes yes' no no' : List α}
    (h : (yes ++ no).Perm as) (h' : (yes' ++ no').Perm as') (has : as.Perm as')
    (hp : ∀ a, p a ↔ p' a) (hyes : ∀ a ∈ yes, p a) (hno : ∀ a ∈ no, ¬p a)
    (hyes' : ∀ a ∈ yes', p' a) (hno' : ∀ a ∈ no', ¬p' a) : no.Perm no' := by
  classical
  have hfilter : ∀ {yes no : List α}, (∀ a ∈ yes, p a) → (∀ a ∈ no, ¬p a) →
      (yes ++ no).filter (fun a => ¬p a) = no := by
    intro yes no hyes hno
    rw [List.filter_append, List.filter_eq_nil_iff.mpr, List.filter_eq_self.mpr, List.nil_append]
    · simpa using hno
    · simpa using hyes
  have hperm := ((h.trans has).trans h'.symm).filter fun a => ¬p a
  rwa [hfilter hyes hno, hfilter (fun a ha => (hp a).mpr (hyes' a ha))
    fun a ha hpa => hno' a ha ((hp a).mp hpa)] at hperm

end Congr

namespace Contributions

/-- All templates: of node sets, nodes and meta nodes. -/
def templates (c : Contributions) : List Template :=
  c.memberTemplates.map .node ++ c.nodes.map .node ++ c.metaNodes.map .metaNode

/-- No contribution excludes another: categories bring nothing, and no two categories, and no two
templates of any kind, have one id and one path. -/
structure Distinct (c : Contributions) : Prop where
  bare : ∀ b ∈ c.categories, b.entries = []
  categories : (c.categories.map fun b => (Path.segments b.category.path, b.category.id)).Nodup
  templates : (c.templates.map fun t => (Path.segments t.path, t.id)).Nodup

/-- The same contributions in another order. -/
structure Permuted (c c' : Contributions) : Prop where
  settings : c.settings = c'.settings
  categories : c.categories.Perm c'.categories
  nodes : c.nodes.Perm c'.nodes
  metaNodes : c.metaNodes.Perm c'.metaNodes
  nodeSets : c.nodeSets.Perm c'.nodeSets

namespace Permuted

variable {c c' : Contributions} (h : c.Permuted c')

include h

theorem memberTemplates : c.memberTemplates.Perm c'.memberTemplates :=
  h.nodeSets.flatMap_right _

theorem templates : c.templates.Perm c'.templates :=
  ((h.memberTemplates.map _).append (h.nodes.map _)).append (h.metaNodes.map _)

theorem distinct (hdistinct : c.Distinct) : c'.Distinct where
  bare b hb := hdistinct.bare b (h.categories.mem_iff.mpr hb)
  categories := (h.categories.map _).nodup_iff.mp hdistinct.categories
  templates := (h.templates.map _).nodup_iff.mp hdistinct.templates

end Permuted

/-- What is placed and what is left out if no contribution excludes another. -/
structure Stages.Exact {c : Contributions} (stages : Stages c) : Prop where
  meets : (assemble c).catalog.Meets c.settings c.categories c.memberTemplates c.templates
  categories : ∀ b ∈ stages.course.categories, Anchored c.categories (Path.segments b.category.path)
  categoriesOut : ∀ b ∈ stages.course.categoriesOut.map Prod.fst,
    ¬Anchored c.categories (Path.segments b.category.path)
  nodes : ∀ t ∈ stages.nodes, Reached c.categories c.memberTemplates (Path.segments t.path)
  nodesOut : ∀ t ∈ stages.nodesOut.map Prod.fst,
    ¬Reached c.categories c.memberTemplates (Path.segments t.path)
  metaNodes : ∀ t ∈ stages.metaNodes, Reached c.categories c.memberTemplates (Path.segments t.path)
  metaNodesOut : ∀ t ∈ stages.metaNodesOut.map Prod.fst,
    ¬Reached c.categories c.memberTemplates (Path.segments t.path)

/-- No two categories have one address. -/
theorem Distinct.addresses {c : Contributions} (h : c.Distinct) :
    (c.categories.map Branch.address).Nodup := by
  have hinjective : Function.Injective fun p : List String × String => p.1 ++ [p.2] := by
    intro p q heq
    obtain ⟨hpath, hid⟩ := List.append_inj' heq rfl
    exact Prod.ext hpath (List.singleton_inj.mp hid)
  have hmap := h.categories.map hinjective
  rw [List.map_map] at hmap
  exact hmap

theorem Stages.exact_of_distinct {c : Contributions} (stages : Stages c) (hdistinct : c.Distinct) :
    stages.Exact := by
  obtain ⟨hcategories, hcategoriesOut⟩ :=
    stages.course.anchored_iff_placed hdistinct.bare hdistinct.addresses
  -- all templates in the order in which they are settled
  have hperm : (c.memberTemplates.map Template.node ++
      (stages.nodes ++ stages.nodesOut.map Prod.fst).map Template.node ++
      (stages.metaNodes ++ stages.metaNodesOut.map Prod.fst).map Template.metaNode).Perm
        c.templates :=
    ((stages.perm_nodes.map _).append_left _).append (stages.perm_metaNodes.map _)
  have hall := (hperm.map Template.place).nodup_iff.mpr hdistinct.templates
  have hnodup := hall.sublist ((List.sublist_append_left _ _).map _)
  have hsets : c.withSets.Meets c.settings c.categories c.memberTemplates
      (c.memberTemplates.map .node) := by
    have hmembers := hnodup.sublist ((List.sublist_append_left _ _).map _)
    have hcat := meets_categories hdistinct.bare hdistinct.addresses
    rw [← map_snd_members] at hmembers ⊢
    exact hcat.withMembers hmembers
  obtain ⟨hlate, hnodes, hnodesOut⟩ := hsets.of_settled stages.settled_nodes (fun _ => rfl) hnodup
  obtain ⟨hend, hmetaNodes, hmetaNodesOut⟩ :=
    hlate.of_settled stages.settled_metaNodes (fun _ => rfl) hall
  exact
    { meets := hend.congr (.refl _) (.refl _) hperm
      categories := hcategories
      categoriesOut := hcategoriesOut
      nodes := hnodes
      nodesOut := hnodesOut
      metaNodes := hmetaNodes
      metaNodesOut := hmetaNodesOut }

/-- The kinds and ids of what is left out. -/
theorem Stages.map_skipped {c : Contributions} (stages : Stages c) :
    ((assemble c).skipped.map fun s => (s.kind, s.id)) =
      ((stages.course.categoriesOut.map Prod.fst).map
        fun b => (Skipped.Kind.category, b.category.id)) ++
      ((stages.nodesOut.map Prod.fst).map fun t => (Skipped.Kind.node, t.id)) ++
      (stages.metaNodesOut.map Prod.fst).map fun t => (Skipped.Kind.metaNode, t.id) := by
  simp only [stages.skipped_eq, List.map_append, List.map_map]
  rfl

/-- The same contributions in another order, none of which excludes another, are assembled to a
catalog with the same snapshot, and the same are left out. -/
theorem assemble_perm {c c' : Contributions} (h : c.Permuted c') (hdistinct : c.Distinct)
    (hsorted : c.settings.sortChildren = true) :
    (∃ s, (assemble c).catalog.snapshot = .ok s ∧ (assemble c').catalog.snapshot = .ok s) ∧
      ((assemble c).skipped.map fun s => (s.kind, s.id)).Perm
        ((assemble c').skipped.map fun s => (s.kind, s.id)) := by
  obtain ⟨stages⟩ := nonempty_stages c
  obtain ⟨stages'⟩ := nonempty_stages c'
  have hexact := stages.exact_of_distinct hdistinct
  have hexact' := stages'.exact_of_distinct (h.distinct hdistinct)
  have hanchored : ∀ ids, Anchored c.categories ids ↔ Anchored c'.categories ids :=
    fun ids => ⟨fun h' => h'.mono h.categories.subset, fun h' => h'.mono h.categories.symm.subset⟩
  have hreached : ∀ ids, Reached c.categories c.memberTemplates ids ↔
      Reached c'.categories c'.memberTemplates ids :=
    fun ids => reached_congr h.categories h.memberTemplates
  constructor
  · refine hexact.meets.exists_snapshot ?_ hsorted
    rw [h.settings]
    exact hexact'.meets.congr h.categories.symm h.memberTemplates.symm h.templates.symm
  · have hcategories := perm_of_split stages.course.perm_categories stages'.course.perm_categories
      h.categories (fun _ => hanchored _) hexact.categories hexact.categoriesOut
      hexact'.categories hexact'.categoriesOut
    have hnodes := perm_of_split stages.perm_nodes stages'.perm_nodes h.nodes
      (fun _ => hreached _) hexact.nodes hexact.nodesOut hexact'.nodes hexact'.nodesOut
    have hmetaNodes := perm_of_split stages.perm_metaNodes stages'.perm_metaNodes h.metaNodes
      (fun _ => hreached _) hexact.metaNodes hexact.metaNodesOut hexact'.metaNodes
      hexact'.metaNodesOut
    rw [stages.map_skipped, stages'.map_skipped]
    exact ((hcategories.map _).append (hnodes.map _)).append (hmetaNodes.map _)

/-- All lists the other way round. -/
def reversed (c : Contributions) : Contributions where
  settings := c.settings
  categories := c.categories.reverse
  nodes := c.nodes.reverse
  metaNodes := c.metaNodes.reverse
  nodeSets := c.nodeSets.reverse

/-- A category before its parent and one whose parent never comes, two node sets that bring one
category, and nodes that need what the node sets bring, or what never comes. -/
def scattered : Contributions where
  categories :=
    [⟨{ id := "b", name := "B", path := "/a" }, []⟩, ⟨{ id := "c", name := "C", path := "/x" }, []⟩,
      ⟨{ id := "a", name := "A" }, []⟩]
  nodes :=
    [{ id := "z", name := "Z", factory := "f", path := "/a/m/n" },
      { id := "z", name := "Z", factory := "f", path := "/x" }]
  metaNodes := [{ id := "w", name := "W", directory := "d", path := " a / m" }]
  nodeSets :=
    [{ id := "s", plugin := some "p",
        members := [{ id := "x", name := "X", factory := "f", path := "/a/m/n" }] },
      { id := "t", plugin := some "q",
        members := [{ id := "x", name := "X", factory := "f", path := "a//m" }] }]

theorem assemble_perm_scattered :
    scattered.Permuted scattered.reversed ∧ scattered.Distinct ∧
      scattered.settings.sortChildren = true ∧
      (∃ s, (assemble scattered).catalog.snapshot = .ok s ∧
        (assemble scattered.reversed).catalog.snapshot = .ok s) ∧
      ((assemble scattered).skipped.map fun s => (s.kind, s.id)).Perm
        ((assemble scattered.reversed).skipped.map fun s => (s.kind, s.id)) := by
  have hpermuted : scattered.Permuted scattered.reversed :=
    ⟨rfl, (List.reverse_perm _).symm, (List.reverse_perm _).symm, (List.reverse_perm _).symm,
      (List.reverse_perm _).symm⟩
  have hdistinct : scattered.Distinct :=
    ⟨by simp [scattered], by decide +kernel, by decide +kernel⟩
  exact ⟨hpermuted, hdistinct, rfl, assemble_perm hpermuted hdistinct rfl⟩

end Contributions

end NodeCatalog
