import NodeCatalog.Proofs.Assembly.Stages

/-!
# What a complete assembly contains

If nothing is skipped, then all categories, nodes and meta nodes that are contributed are in the
catalog, each in the container that its path leads to.  Of the templates of node sets nothing is
ever skipped, and those whose place is taken are lost without a trace.

A place is a container and an id.  A template of a node set is appended in the container that its
path leads to if no template there has its id, and no other container holds more templates then
(`templatesAt_addMember`).  So at each place the first stays: what the categories bring, or else the
first template of all node sets (`mem_templatesAt_withMembers_iff`).  A complete assembly contains
just the templates of node sets that come first (`contains_of_isComplete`).
-/

namespace NodeCatalog

open Container Catalog

/-! ### Templates that are held -/

/-- The template that an entry is. -/
def Entry.template? : Entry → Option Template
  | category .. => none
  | template t => some t

/-- The templates held. -/
def Container.templates (k : Container) : List Template :=
  k.entries.filterMap Entry.template?

/-- The templates in the container that ids lead to; none if they lead nowhere. -/
def Catalog.templatesAt (cat : Catalog) (ids : List String) : List Template :=
  match (cat.root.trace ids).bind fun a => cat.root.at? a with
  | some k => k.templates
  | none => []

namespace Container

variable {k : Container} {t : Template}

theorem templates_eq_filterMap_row (k : Container) :
    k.templates = k.row.filterMap Entry.template? := by
  have hbare : Entry.template? ∘ Entry.bare = Entry.template? := by
    funext e
    cases e <;> rfl
  rw [row, List.filterMap_map, hbare, templates]

theorem mem_templates_iff : t ∈ k.templates ↔ .template t ∈ k.row := by
  rw [templates_eq_filterMap_row, List.mem_filterMap]
  constructor
  · rintro ⟨e, he, ht⟩
    cases e with
    | category c sorted entries => cases ht
    | template u => exact Option.some.inj ht ▸ he
  · exact fun h => ⟨_, h, rfl⟩

/-- A template is excluded exactly by templates with its id. -/
theorem hasClash_template_iff :
    k.hasClash (.template t) = false ↔ ∀ u ∈ k.templates, u.id ≠ t.id := by
  rw [hasClash_eq_false_iff, keys_eq_map_row, List.mem_map, not_exists]
  constructor
  · exact fun h u hu heq => h _ ⟨mem_templates_iff.mp hu, congrArg (·, After.Kind.leaf) heq⟩
  · rintro h e ⟨he, hkey⟩
    obtain ⟨hid, hkind⟩ := Prod.mk.inj hkey
    cases e with
    | category c sorted entries => cases hkind
    | template u => exact h u (mem_templates_iff.mpr he) hid

end Container

namespace Catalog

variable {cat : Catalog} {e : Entry} {t : Template} {ids : List String} {a : List Nat}
  {k : Container}

/-- An entry is in the container that its path leads to; of a category, its declaration is. -/
def Contains (cat : Catalog) (e : Entry) : Prop :=
  ∃ k, cat.containerAt e.path = .ok k ∧ e.bare ∈ k.row

theorem templatesAt_of_trace (ha : cat.root.trace ids = some a) (hk : cat.root.at? a = some k) :
    cat.templatesAt ids = k.templates := by
  rw [templatesAt, ha, Option.bind_some, hk]

theorem templatesAt_of_trace_eq_none (h : cat.root.trace ids = none) :
    cat.templatesAt ids = [] := by
  rw [templatesAt, h, Option.bind_none]

theorem mem_templatesAt_segments_iff {path : String} :
    t ∈ cat.templatesAt (Path.segments path) ↔
      ∃ k, cat.containerAt path = .ok k ∧ t ∈ k.templates := by
  constructor
  · intro h
    rcases ha : cat.root.trace (Path.segments path) with _ | a
    · rw [templatesAt_of_trace_eq_none ha] at h
      cases h
    · obtain ⟨k, hk⟩ := exists_at?_of_trace ha
      rw [templatesAt_of_trace ha hk] at h
      exact ⟨k, reach_of_trace ha hk _, h⟩
  · rintro ⟨k, hk, h⟩
    obtain ⟨a, ha, hat⟩ := reach_eq_ok_iff.mp hk
    rwa [templatesAt_of_trace ha hat]

theorem contains_template_iff :
    cat.Contains (.template t) ↔ t ∈ cat.templatesAt (Path.segments t.path) := by
  simp only [mem_templatesAt_segments_iff, mem_templates_iff]
  exact Iff.rfl

/-! ### One insertion -/

/-- Inserting an entry that holds no templates adds no templates but itself. -/
theorem templatesAt_insert (hinner : ∀ inner, e.container? = some inner → inner.entries = [])
    (ids : List String) :
    (cat.insert e).catalog.templatesAt ids = cat.templatesAt ids ++
      if (cat.insert e).answer = .ok true ∧ Path.segments e.path = ids
        then e.template?.toList else [] := by
  rcases insert_cases cat e with ⟨_, -, heq⟩ | ⟨a, k, ha, hk, ⟨-, heq⟩ | ⟨hclash, heq⟩⟩
  · rw [heq, if_neg fun h => nomatch h.1]
    exact (List.append_nil _).symm
  · rw [heq, if_neg fun h => nomatch h.1]
    exact (List.append_nil _).symm
  rw [heq]
  have hgrows : cat.root.Grows (cat.root.modifyAt (append e) a) := .modifyAt_append _ e a
  rcases hb : cat.root.trace ids with _ | b
  · -- if the ids lead somewhere now, it is to what the entry holds, which is nothing
    have hpath : Path.segments e.path ≠ ids := fun h => nomatch (h ▸ ha).symm.trans hb
    rw [templatesAt_of_trace_eq_none hb, if_neg fun h => hpath h.2, List.append_nil]
    rcases hb' : (cat.root.modifyAt (append e) a).trace ids with _ | b
    · exact templatesAt_of_trace_eq_none hb'
    obtain ⟨y, hy⟩ := exists_at?_of_trace hb'
    rcases at?_of_modifyAt_append hk hy with ⟨x, hx⟩ | ⟨r, inner, -, hcontainer, hr⟩
    · cases (hgrows.trace_of_at? hb' hx).symm.trans hb
    · have hnil := hinner inner hcontainer
      rw [templatesAt_of_trace hb' hy, templates, entries_eq_nil_of_at? hnil hr,
        List.filterMap_nil]
  · -- otherwise they led there before, and one container holds one entry more
    obtain ⟨x, hx⟩ := exists_at?_of_trace hb
    obtain ⟨y, hy, hrow⟩ := exists_row_of_modifyAt_append a e hx
    have hsame : b = a ↔ Path.segments e.path = ids := by
      rw [← idsAt_of_trace ha, ← idsAt_of_trace hb]
      constructor
      · exact fun h => h ▸ rfl
      · intro h
        rw [← idsAt_of_trace hb, ← h, idsAt_of_trace ha, ha] at hb
        exact (Option.some.inj hb).symm
    have hself : [e.bare].filterMap Entry.template? = e.template?.toList := by cases e <;> rfl
    rw [templatesAt_of_trace hb hx, templatesAt_of_trace (hgrows.trace hb) hy,
      templates_eq_filterMap_row, templates_eq_filterMap_row, hrow]
    by_cases hba : b = a
    · rw [if_pos hba, if_pos ⟨rfl, hsame.mp hba⟩, List.filterMap_append, hself]
    · rw [if_neg hba, if_neg fun h => hba (hsame.mpr h.2), List.append_nil]

/-- Categories that hold nothing change no templates. -/
theorem Settled.templatesAt_eq {sorted : Bool} {start now : Catalog} {placed : List Category}
    {out : List (Category × Skipped.Reason)}
    (h : Settled (Category.entry sorted) start now placed out) (ids : List String) :
    now.templatesAt ids = start.templatesAt ids := by
  induction h with
  | none => rfl
  | placed _ _ ih =>
    rw [templatesAt_insert fun _ => Category.entries_eq_nil, ih]
    exact (congrArg _ (ite_self [])).trans (List.append_nil _)
  | duplicate _ _ ih => exact ih
  | refused _ _ ih => exact ih

/-- Where its path leads, a template is placed unless another has its id. -/
theorem insert_template_eq_true_iff (ha : cat.root.trace (Path.segments t.path) = some a) :
    (cat.insert (.template t)).answer = .ok true ↔
      ∀ u ∈ cat.templatesAt (Path.segments t.path), u.id ≠ t.id := by
  obtain ⟨k, hk⟩ := exists_at?_of_trace ha
  rw [templatesAt_of_trace ha hk, ← hasClash_template_iff]
  rcases insert_cases cat (.template t) with
    ⟨fault, -, heq⟩ | ⟨a', k', ha', hk', ⟨hclash, heq⟩ | ⟨hclash, heq⟩⟩
  · have hne := @insert_ne_error_of_trace cat (.template t) a ha fault
    exact absurd (congrArg Edited.answer heq) hne
  all_goals
    obtain rfl := Option.some.inj (ha.symm.trans ha')
    obtain rfl := Option.some.inj (hk.symm.trans hk')
    simp [heq, hclash]

/-! ### Places that are taken -/

/-- All templates stay where they are held, and what comes to them has other ids. -/
def Spares (cat cat' : Catalog) : Prop :=
  ∀ ids, ∃ more, cat'.templatesAt ids = cat.templatesAt ids ++ more ∧
    ∀ u ∈ more, ∀ v ∈ cat.templatesAt ids, v.id ≠ u.id

namespace Spares

variable {cat' cat'' : Catalog}

theorem refl (cat : Catalog) : cat.Spares cat :=
  fun _ => ⟨[], (List.append_nil _).symm, nofun⟩

theorem trans (h : cat.Spares cat') (h' : cat'.Spares cat'') : cat.Spares cat'' := by
  intro ids
  obtain ⟨more, heq, hmore⟩ := h ids
  obtain ⟨more', heq', hmore'⟩ := h' ids
  refine ⟨more ++ more', by rw [heq', heq, List.append_assoc], fun u hu v hv => ?_⟩
  rcases List.mem_append.mp hu with hu | hu
  · exact hmore u hu v hv
  · exact hmore' u hu v (heq ▸ List.mem_append_left more hv)

/-- Where a template with an id is held, no other with this id comes. -/
theorem mem_iff (h : cat.Spares cat') {u v : Template} (hv : v ∈ cat.templatesAt ids)
    (hid : v.id = u.id) : u ∈ cat'.templatesAt ids ↔ u ∈ cat.templatesAt ids := by
  obtain ⟨more, heq, hmore⟩ := h ids
  rw [heq, List.mem_append]
  exact or_iff_left fun hu => hmore u hu v hv hid

theorem insert (cat : Catalog) (t : Template) : cat.Spares (cat.insert (.template t)).catalog := by
  intro ids
  refine ⟨_, @templatesAt_insert cat (.template t) nofun ids, fun u hu v hv => ?_⟩
  split at hu
  · rename_i h
    obtain ⟨hanswer, rfl⟩ := h
    obtain ⟨a, -, ha, -⟩ := exists_of_insert_eq_true hanswer
    obtain rfl := List.mem_singleton.mp hu
    exact (insert_template_eq_true_iff ha).mp hanswer v hv
  · cases hu

end Spares

theorem Settled.spares {α : Type} {entry : α → Entry} {start now : Catalog} {placed : List α}
    {out : List (α × Skipped.Reason)} (h : Settled entry start now placed out)
    (htemplate : ∀ a, ∃ t, entry a = .template t) : start.Spares now := by
  induction h with
  | none => exact .refl _
  | @placed _ _ _ a _ _ ih =>
    obtain ⟨t, ht⟩ := htemplate a
    rw [ht]
    exact ih.trans (.insert _ t)
  | duplicate _ _ ih => exact ih
  | refused _ _ ih => exact ih

/-! ### Templates of node sets -/

/-- A template of a node set is appended where its path leads, unless a template there has its id.
No other container holds more templates then. -/
theorem templatesAt_addMember (cat : Catalog) (set : NodeSet) (t : NodeTemplate)
    (ids : List String) :
    (cat.addMember set t).catalog.templatesAt ids = cat.templatesAt ids ++
      if Path.segments t.path = ids ∧ ∀ u ∈ cat.templatesAt ids, u.id ≠ t.id
        then [.node t] else [] := by
  obtain ⟨made, mid, hsettled, -, ⟨b, hb⟩, heq⟩ := exists_addMember_eq cat set t
  have hanswer := @insert_template_eq_true_iff mid (.node t) b hb
  rw [heq, @templatesAt_insert mid t.entry nofun, hsettled.templatesAt_eq]
  congr 1
  refine if_congr (and_comm.trans ?_) rfl rfl
  refine and_congr_right fun hids => ?_
  have hids' : Path.segments (Template.node t).path = ids := hids
  rw [hids', hsettled.templatesAt_eq] at hanswer
  exact hanswer

theorem spares_addMember (cat : Catalog) (set : NodeSet) (t : NodeTemplate) :
    cat.Spares (cat.addMember set t).catalog := by
  intro ids
  refine ⟨_, templatesAt_addMember cat set t ids, fun u hu v hv => ?_⟩
  split at hu
  · rename_i h
    obtain rfl := List.mem_singleton.mp hu
    exact h.2 v hv
  · cases hu

theorem Spares.subset {cat' : Catalog} (h : cat.Spares cat') (ids : List String) :
    cat.templatesAt ids ⊆ cat'.templatesAt ids := by
  obtain ⟨more, heq, -⟩ := h ids
  exact heq ▸ List.subset_append_left _ more

theorem spares_withMembers (cat : Catalog) (members : List (NodeSet × NodeTemplate)) :
    cat.Spares (cat.withMembers members) := by
  induction members generalizing cat with
  | nil => exact .refl _
  | cons m members ih => exact (spares_addMember cat m.1 m.2).trans (ih _)

/-- When the templates of node sets are added, the place of each is taken, by it or by another. -/
theorem taken_of_mem_members (cat : Catalog) {members : List (NodeSet × NodeTemplate)}
    {m : NodeSet × NodeTemplate} (hm : m ∈ members) :
    ∃ v ∈ (cat.withMembers members).templatesAt (Path.segments m.2.path), v.id = m.2.id := by
  induction members generalizing cat with
  | nil => cases hm
  | cons first members ih =>
    rcases List.mem_cons.mp hm with rfl | hm
    · have hrest := (spares_withMembers (cat.addMember m.1 m.2).catalog members).subset
        (Path.segments m.2.path)
      have hadd := templatesAt_addMember cat m.1 m.2 (Path.segments m.2.path)
      by_cases htaken : ∃ v ∈ cat.templatesAt (Path.segments m.2.path), v.id = m.2.id
      · obtain ⟨v, hv, hid⟩ := htaken
        exact ⟨v, hrest (hadd ▸ List.mem_append_left _ hv), hid⟩
      · have hfree : ∀ u ∈ cat.templatesAt (Path.segments m.2.path), u.id ≠ m.2.id :=
          fun u hu hid => htaken ⟨u, hu, hid⟩
        rw [if_pos ⟨rfl, hfree⟩] at hadd
        exact ⟨.node m.2, hrest (hadd ▸ List.mem_append_right _ (List.mem_singleton_self _)), rfl⟩
    · exact ih _ hm

/-- A template of a node set is held if it was held before, or if its place was free and it is the
first of those that were added for this place. -/
theorem mem_templatesAt_withMembers_iff (cat : Catalog) (members : List (NodeSet × NodeTemplate))
    (ids : List String) (t : NodeTemplate) :
    .node t ∈ (cat.withMembers members).templatesAt ids ↔
      .node t ∈ cat.templatesAt ids ∨ (∀ u ∈ cat.templatesAt ids, u.id ≠ t.id) ∧
        (members.map Prod.snd).find? (fun u => Path.segments u.path = ids ∧ u.id = t.id) =
          some t := by
  by_cases htaken : ∃ v ∈ cat.templatesAt ids, v.id = (Template.node t).id
  · obtain ⟨v, hv, hid⟩ := htaken
    rw [(spares_withMembers cat members).mem_iff hv hid, or_iff_left fun h => h.1 v hv hid]
  · have hfree : ∀ u ∈ cat.templatesAt ids, u.id ≠ t.id := fun u hu hid => htaken ⟨u, hu, hid⟩
    clear htaken
    rw [or_iff_right fun h => hfree _ h rfl, and_iff_right hfree]
    induction members generalizing cat with
    | nil => exact iff_of_false (fun h => hfree _ h rfl) nofun
    | cons m members ih =>
      have hrest : cat.withMembers (m :: members) =
          (cat.addMember m.1 m.2).catalog.withMembers members := rfl
      have hadd := templatesAt_addMember cat m.1 m.2 ids
      rw [hrest, List.map_cons, List.find?_cons]
      by_cases hplace : Path.segments m.2.path = ids ∧ m.2.id = t.id
      · -- the template is appended, and then the place is taken
        rw [if_pos ⟨hplace.1, hplace.2 ▸ hfree⟩] at hadd
        have hself : .node m.2 ∈ (cat.addMember m.1 m.2).catalog.templatesAt ids :=
          hadd ▸ List.mem_append_right _ (List.mem_singleton_self _)
        have hid : (Template.node m.2).id = (Template.node t).id := hplace.2
        rw [(spares_withMembers _ members).mem_iff hself hid, hadd, List.mem_append,
          or_iff_right fun h => hfree _ h rfl, decide_eq_true hplace]
        simp [eq_comm]
      · -- whatever is appended, the place is free
        rw [decide_eq_false hplace]
        refine ih _ fun u hu => ?_
        rw [hadd] at hu
        split at hu
        · rename_i h
          rcases List.mem_append.mp hu with hu | hu
          · exact hfree u hu
          · obtain rfl := List.mem_singleton.mp hu
            exact fun hid => hplace ⟨h.1, hid⟩
        · rw [List.append_nil] at hu
          exact hfree u hu

/-! ### What is contained stays contained -/

theorem Contains.grows {cat' : Catalog} (h : cat.Contains e) (hgrows : cat.root.Grows cat'.root) :
    cat'.Contains e := by
  obtain ⟨k, hk, hrow⟩ := h
  obtain ⟨k', hk', habove⟩ := hgrows.reach hk
  exact ⟨k', hk', habove.subset hrow⟩

theorem grows_insert (cat : Catalog) (e : Entry) : cat.root.Grows (cat.insert e).catalog.root := by
  rcases insert_cases cat e with ⟨_, -, heq⟩ | ⟨a, _, -, -, ⟨-, heq⟩ | ⟨-, heq⟩⟩
  · rw [heq]
    exact .refl _
  · rw [heq]
    exact .refl _
  · rw [heq]
    exact .modifyAt_append _ e a

theorem contains_of_insert_eq_true (h : (cat.insert e).answer = .ok true) :
    (cat.insert e).catalog.Contains e := by
  obtain ⟨a, k, ha, hk, -, hcatalog⟩ := exists_of_insert_eq_true h
  obtain ⟨k', hk', hrow⟩ := exists_row_of_modifyAt_append a e hk
  rw [if_pos rfl] at hrow
  rw [hcatalog]
  refine ⟨k', reach_of_trace ((Grows.modifyAt_append _ e a).trace ha) hk' _, ?_⟩
  rw [hrow]
  exact List.mem_append_right _ (List.mem_singleton_self _)

/-- What is placed is contained. -/
theorem Settled.contains {α : Type} {entry : α → Entry} {start now : Catalog} {placed : List α}
    {out : List (α × Skipped.Reason)} (h : Settled entry start now placed out) :
    ∀ b ∈ placed, now.Contains (entry b) := by
  induction h with
  | none => exact fun b hb => absurd hb List.not_mem_nil
  | placed _ hanswer ih =>
    intro b hb
    rcases List.mem_append.mp hb with hb | hb
    · exact (ih b hb).grows (grows_insert _ _)
    · obtain rfl := List.mem_singleton.mp hb
      exact contains_of_insert_eq_true hanswer
  | duplicate _ _ ih => exact ih
  | refused _ _ ih => exact ih

theorem grows_addMember (cat : Catalog) (set : NodeSet) (t : NodeTemplate) :
    cat.root.Grows (cat.addMember set t).catalog.root := by
  obtain ⟨_, mid, hsettled, -, -, heq⟩ := exists_addMember_eq cat set t
  rw [heq]
  exact hsettled.grows.trans (grows_insert mid _)

theorem grows_withMembers (cat : Catalog) (members : List (NodeSet × NodeTemplate)) :
    cat.root.Grows (cat.withMembers members).root := by
  induction members generalizing cat with
  | nil => exact .refl _
  | cons m members ih => exact (grows_addMember cat m.1 m.2).trans (ih _)

end Catalog

namespace Contributions

/-- A template of a node set has its place: it is held when the categories are placed, or no
template with its id is held there then, and it is the first of the node sets for its place. -/
def ComesFirst (c : Contributions) (t : NodeTemplate) : Prop :=
  let held := (assemble c.categoriesOnly).catalog.templatesAt (Path.segments t.path)
  .node t ∈ held ∨ (∀ u ∈ held, u.id ≠ t.id) ∧
    c.memberTemplates.find?
      (fun u => Path.segments u.path = Path.segments t.path ∧ u.id = t.id) = some t

instance (c : Contributions) (t : NodeTemplate) : Decidable (c.ComesFirst t) :=
  inferInstanceAs (Decidable (_ ∨ _))

/-- With the node sets, a template of these is held where its path leads exactly if it comes
first. -/
theorem contains_withSets_iff (c : Contributions) (t : NodeTemplate) :
    c.withSets.Contains t.entry ↔ c.ComesFirst t := by
  rw [NodeTemplate.entry, contains_template_iff, withSets, mem_templatesAt_withMembers_iff,
    map_snd_members]
  rfl

/-- Whether a template of a node set is contained in the end is settled before any node comes. -/
theorem contains_member_iff (c : Contributions) {set : NodeSet} (hset : set ∈ c.nodeSets)
    {t : NodeTemplate} (ht : t ∈ set.templates) :
    (assemble c).catalog.Contains t.entry ↔ c.ComesFirst t := by
  obtain ⟨stages⟩ := nonempty_stages c
  have hspares : c.withSets.Spares (assemble c).catalog :=
    (stages.settled_nodes.spares fun _ => ⟨_, rfl⟩).trans
      (stages.settled_metaNodes.spares fun _ => ⟨_, rfl⟩)
  -- the place is taken, by the template or by another
  have hmember : (set, t) ∈ members c.nodeSets :=
    List.mem_flatMap.mpr ⟨set, hset, List.mem_map_of_mem ht⟩
  obtain ⟨v, hv, hid⟩ := taken_of_mem_members (assemble c.categoriesOnly).catalog hmember
  rw [← contains_withSets_iff, NodeTemplate.entry, contains_template_iff, contains_template_iff]
  exact hspares.mem_iff hv hid

/-- If nothing is skipped, all categories, nodes and meta nodes are contained where their paths
lead, and of the templates of node sets those that come first. -/
theorem contains_of_isComplete (c : Contributions) (h : (assemble c).isComplete = true) :
    (∀ b ∈ c.categories, (assemble c).catalog.Contains (b.entry c.settings.sortChildren)) ∧
      (∀ t ∈ c.nodes, (assemble c).catalog.Contains t.entry) ∧
      (∀ t ∈ c.metaNodes, (assemble c).catalog.Contains t.entry) ∧
      ∀ set ∈ c.nodeSets, ∀ t ∈ set.templates,
        ((assemble c).catalog.Contains t.entry ↔ c.ComesFirst t) := by
  obtain ⟨stages⟩ := nonempty_stages c
  have hskipped := List.isEmpty_iff.mp h
  rw [stages.skipped_eq] at hskipped
  simp only [List.append_eq_nil_iff, List.map_eq_nil_iff] at hskipped
  obtain ⟨⟨hcategories, hnodes⟩, hmetaNodes⟩ := hskipped
  -- so all that is contributed is placed, and the tree only grows afterwards
  have hlate := stages.settled_metaNodes.grows
  have hsets := stages.settled_nodes.grows.trans hlate
  refine ⟨fun b hb => ?_, fun t ht => ?_, fun t ht => ?_,
    fun set hset t ht => contains_member_iff c hset ht⟩
  · have hplaced := stages.course.perm_categories.mem_iff.mpr hb
    rw [hcategories, List.map_nil, List.append_nil] at hplaced
    exact (stages.settled_categories.contains b hplaced).grows
      ((grows_withMembers _ _).trans hsets)
  · have hplaced := stages.perm_nodes.mem_iff.mpr ht
    rw [hnodes, List.map_nil, List.append_nil] at hplaced
    exact (stages.settled_nodes.contains t hplaced).grows hlate
  · have hplaced := stages.perm_metaNodes.mem_iff.mpr ht
    rw [hmetaNodes, List.map_nil, List.append_nil] at hplaced
    exact stages.settled_metaNodes.contains t hplaced

/-- A category that brings a node, and two node sets with one id: of two templates for one place the
second is lost, and so is one for the place of the node that was brought. -/
def rivals : Contributions where
  categories :=
    [⟨{ id := "a", name := "A" }, [.template (.node { id := "s.y", name := "Y", factory := "f" })]⟩]
  nodeSets :=
    [{ id := "s", members := [{ id := "x", name := "X", factory := "f", path := "/a/b" },
        { id := "x", name := "Other", factory := "g", path := " a // b" },
        { id := "y", name := "Other", factory := "g", path := "/a" }] },
      { id := "s", members := [{ id := "x", name := "X", factory := "f", path := "/a/b" }] }]
  nodes := [{ id := "x", name := "X", factory := "f", path := "/a/b" }]

theorem contains_of_isComplete_rivals :
    (assemble rivals).isComplete = true ∧
      ∀ set ∈ rivals.nodeSets, ∀ t ∈ set.templates,
        ((assemble rivals).catalog.Contains t.entry ↔ t.name = "X") := by
  have hcomplete : (assemble rivals).isComplete = true := by decide +kernel
  have hfirst : ∀ set ∈ rivals.nodeSets, ∀ t ∈ set.templates,
      (rivals.ComesFirst t ↔ t.name = "X") := by decide +kernel
  refine ⟨hcomplete, fun set hset t ht => ?_⟩
  rw [(contains_of_isComplete rivals hcomplete).2.2.2 set hset t ht]
  exact hfirst set hset t ht

/-- A node set with two templates that share an id and a path. -/
def twins : Contributions where
  nodeSets :=
    [{ id := "s", members := [{ id := "x", name := "X", factory := "f", path := "/a" },
        { id := "x", name := "Other", factory := "g", path := "/a" }] }]

/-- Nothing is skipped, and still there is a template of a node set that is not contained. -/
theorem not_contains_twins :
    (assemble twins).isComplete = true ∧ ∃ set ∈ twins.nodeSets, ∃ t ∈ set.templates,
      ¬(assemble twins).catalog.Contains t.entry := by
  have hlost : ∃ set ∈ twins.nodeSets, ∃ t ∈ set.templates, ¬twins.ComesFirst t := by
    decide +kernel
  obtain ⟨set, hset, t, ht, hlost⟩ := hlost
  refine ⟨by decide +kernel, set, hset, t, ht, ?_⟩
  rwa [contains_member_iff twins hset ht]

end Contributions

end NodeCatalog
