import NodeCatalog.Proofs.Assembly.Complete

/-!
# What a node set supplies

A node set is added to any catalog without being refused, and it only adds (`Supplied`): every
entry stays at its address, categories are made on the ways of the templates that led nowhere
(`brought_withMembers`), and of the templates those are added which come first for a place that is
free (`addMembers_eq_newcomers`).  All this is shown for one template and then for one after the
other.

Where every place is taken nothing is added, no category is missing, and the catalog stays as it is
(`addMembers_of_taken`).  This is so once the set is there, and so a set that is added again changes
nothing (`addNodeSet_supplied`).
-/

namespace NodeCatalog

open Container Catalog

/-! ### Templates that come first -/

namespace NodeTemplate

/-- The place of a template: where its path leads, and its id. -/
def place (t : NodeTemplate) : List String × String :=
  (Path.segments t.path, t.id)

/-- The templates of a list, of those for one place only the first. -/
def firsts : List NodeTemplate → List NodeTemplate
  | [] => []
  | t :: ts => t :: (firsts ts).filter fun u => u.place ≠ t.place

theorem firsts_sublist (ts : List NodeTemplate) : (firsts ts).Sublist ts := by
  induction ts with
  | nil => exact .refl _
  | cons t ts ih => exact (List.filter_sublist.trans ih).cons_cons t

/-- Where it depends on places which templates are kept, they may be kept before or after. -/
theorem firsts_filter (keep : List String × String → Bool) (ts : List NodeTemplate) :
    firsts (ts.filter fun t => keep t.place) = (firsts ts).filter fun t => keep t.place := by
  induction ts with
  | nil => rfl
  | cons t ts ih =>
    rcases ht : keep t.place with _ | _
    · -- those that are kept have another place
      have hdrop : ∀ us : List NodeTemplate,
          (t :: us).filter (fun u => keep u.place) = us.filter fun u => keep u.place :=
        fun us => List.filter_cons_of_neg (by simp [ht])
      rw [hdrop, ih, firsts, hdrop, List.filter_filter]
      refine List.filter_congr fun u _ => ?_
      rcases hu : keep u.place with _ | _
      · rfl
      · have hne : u.place ≠ t.place := fun heq => by simp [← heq, hu] at ht
        simp [hne]
    · have hkeep : ∀ us : List NodeTemplate,
          (t :: us).filter (fun u => keep u.place) = t :: us.filter fun u => keep u.place :=
        fun us => List.filter_cons_of_pos ht
      rw [hkeep, firsts, ih, firsts, hkeep, List.filter_filter, List.filter_filter]
      simp only [Bool.and_comm]

end NodeTemplate

namespace Container

/-- The templates held, and those held below. -/
def templatesBelow (k : Container) : List Template :=
  (Entry.listed k.entries).filterMap Entry.template?

theorem coe_templatesBelow (k : Container) :
    (k.templatesBelow : Multiset Template) = (k.tally Entry.template?).filterMap id := by
  rw [tally, Entry.tally, Multiset.filterMap_coe, List.filterMap_map]
  rfl

/-- An entry that holds nothing comes with no template but itself. -/
theorem templatesBelow_modifyAt_append {k x : Container} {a : List Nat} {e : Entry}
    (hx : k.at? a = some x) (hnil : ∀ inner, e.container? = some inner → inner.entries = []) :
    (k.modifyAt (append e) a).templatesBelow.Perm (k.templatesBelow ++ e.template?.toList) := by
  have htally : (k.modifyAt (append e) a).tally Entry.template? =
      k.tally Entry.template? + Entry.tally Entry.template? [e] :=
    tally_modifyAt_append hx e fun _ y => by cases y <;> rfl
  have hself : (Entry.tally Entry.template? [e]).filterMap id =
      (e.template?.toList : Multiset Template) := by
    cases e with
    | category c sorted entries =>
      obtain rfl : entries = [] := hnil _ rfl
      rfl
    | template t => rfl
  rw [← Multiset.coe_eq_coe, ← Multiset.coe_add, coe_templatesBelow, coe_templatesBelow, htally,
    ← hself, Multiset.filterMap_add]

end Container

namespace Catalog

variable {cat : Catalog} {set : NodeSet} {t : NodeTemplate} {ts : List NodeTemplate}
  {sorted : Bool}

/-! ### Categories that are made -/

/-- Empty categories bring no templates. -/
theorem Settled.templatesBelow_perm {start now : Catalog} {placed : List Category}
    {out : List (Category × Skipped.Reason)}
    (h : Settled (Category.entry sorted) start now placed out) :
    now.root.templatesBelow.Perm start.root.templatesBelow := by
  induction h with
  | none => exact .refl _
  | @placed _ _ _ c _ hanswer ih =>
    obtain ⟨a, x, -, hx, -, hcatalog⟩ := exists_of_insert_eq_true hanswer
    have hperm := @templatesBelow_modifyAt_append _ _ _ (c.entry sorted) hx fun _ =>
      c.entries_eq_nil
    rw [Category.entry, Entry.template?, Option.toList_none, List.append_nil] at hperm
    rw [hcatalog]
    exact hperm.trans ih
  | duplicate _ _ ih => exact ih
  | refused _ _ ih => exact ih

/-- What is new once empty categories are settled is one of them, and stands where its path and then
its id lead. -/
theorem Settled.exists_of_new {start now : Catalog} {placed : List Category}
    {out : List (Category × Skipped.Reason)}
    (h : Settled (Category.entry sorted) start now placed out) {p : List Nat} {e : Entry}
    (he : now.root.entryAt? p = some e) (hnew : start.root.entryAt? p = Option.none) :
    ∃ c ∈ placed, e.bare = c.entry sorted ∧
      now.root.trace (Path.segments c.path ++ [c.id]) = some p := by
  induction h generalizing e with
  | none => cases he.symm.trans hnew
  | @placed cat _ _ c _ hanswer ih =>
    obtain ⟨a, x, ha, hx, hclash, hcatalog⟩ := exists_of_insert_eq_true hanswer
    have hgrows : cat.root.Grows (cat.root.modifyAt (append (c.entry sorted)) a) :=
      .modifyAt_append _ _ a
    rw [hcatalog] at he ⊢
    rcases entryAt?_of_modifyAt_append hx (fun _ => c.entries_eq_nil) he with
      ⟨z, hz⟩ | ⟨rfl, rfl⟩
    · obtain ⟨d, hd, hbare, htrace⟩ := ih hz
      exact ⟨d, List.mem_append_left _ hd, (hgrows.bare_eq hz he).trans hbare,
        hgrows.trace htrace⟩
    · exact ⟨c, List.mem_append_right _ (List.mem_singleton_self c), rfl,
        trace_modifyAt_append_category ha hx rfl hclash⟩
  | duplicate _ _ ih => exact ih he
  | refused _ _ ih => exact ih he

/-- A category is one that a node set makes on the way of a template: it is declared below the
normal text of the segments before its id, stands where they lead, and sorts as the settings say. -/
def Brought (now : Catalog) (set : NodeSet) (ts : List NodeTemplate) (p : List Nat) (c : Category)
    (sorted : Bool) : Prop :=
  ∃ t ∈ ts, ∃ front segment back, Path.segments t.path = front ++ segment :: back ∧
    now.root.trace (front ++ [segment]) = some p ∧ sorted = now.settings.sortChildren ∧
    c = { id := segment, name := segment, path := Path.ofSegments front, plugin := set.plugin,
          icon := set.categoryIcon }

theorem Brought.mono {now now' : Catalog} {ts' : List NodeTemplate} {p : List Nat} {c : Category}
    (h : now.Brought set ts p c sorted) (hgrows : now.root.Grows now'.root)
    (hsettings : now'.settings = now.settings) (hts : ts ⊆ ts') :
    now'.Brought set ts' p c sorted := by
  obtain ⟨t, ht, front, segment, back, hway, htrace, hsorted, hc⟩ := h
  exact ⟨t, hts ht, front, segment, back, hway, hgrows.trace htrace, hsettings ▸ hsorted, hc⟩

@[simp] theorem settings_addMember (cat : Catalog) (set : NodeSet) (t : NodeTemplate) :
    (cat.addMember set t).catalog.settings = cat.settings := by
  obtain ⟨_, mid, hsettled, -, -, heq⟩ := exists_addMember_eq cat set t
  rw [heq, settings_insert, hsettled.settings_eq]

/-- A new entry that is not the template itself was made on its way. -/
theorem brought_addMember {p : List Nat} {c : Category} {entries : List Entry}
    (he : (cat.addMember set t).catalog.root.entryAt? p = some (.category c sorted entries))
    (hnew : cat.root.entryAt? p = none) :
    (cat.addMember set t).catalog.Brought set [t] p c sorted := by
  obtain ⟨made, mid, hsettled, hmade, -, heq⟩ := exists_addMember_eq cat set t
  have hgrows := grows_insert mid t.entry
  rw [heq] at he
  have hnil : ∀ inner, t.entry.container? = some inner → inner.entries = [] := nofun
  -- the category was there before the template
  obtain ⟨z, hz⟩ : ∃ z, mid.root.entryAt? p = some z := by
    rcases insert_cases mid t.entry with ⟨_, -, hcat⟩ | ⟨a, x, -, hx, ⟨-, hcat⟩ | ⟨-, hcat⟩⟩
    · exact ⟨_, by rwa [hcat] at he⟩
    · exact ⟨_, by rwa [hcat] at he⟩
    · rw [hcat] at he
      exact (entryAt?_of_modifyAt_append hx hnil he).resolve_right fun h => by cases h.2
  obtain ⟨d, hd, hbare, htrace⟩ := hsettled.exists_of_new hz hnew
  obtain ⟨rfl, rfl, -⟩ := Entry.category.inj ((hgrows.bare_eq hz he).trans hbare)
  obtain ⟨front, segment, back, hway, rfl, -⟩ := hmade c hd
  have hfront : Path.segments (Path.ofSegments front) = front :=
    Path.segments_ofSegments (Path.isSegment_of_segments_eq_append hway)
  have hsegment : segment ≠ "" :=
    (Path.isSegment_of_mem_segments (hway ▸ List.mem_append_right _ List.mem_cons_self)).ne_empty
  refine ⟨t, List.mem_singleton_self t, front, segment, back, hway, ?_, ?_, ?_⟩
  · rw [heq]
    exact hgrows.trace (hfront ▸ htrace)
  · rw [settings_addMember]
  · simp [madeFor, Category.named, hsegment]

@[simp] theorem sorted_addMember (cat : Catalog) (set : NodeSet) (t : NodeTemplate) :
    (cat.addMember set t).catalog.root.sorted = cat.root.sorted := by
  obtain ⟨_, mid, hsettled, -, -, heq⟩ := exists_addMember_eq cat set t
  rw [heq, sorted_insert, hsettled.sorted_eq]

theorem settings_withMembers (cat : Catalog) (members : List (NodeSet × NodeTemplate)) :
    (cat.withMembers members).settings = cat.settings := by
  induction members generalizing cat with
  | nil => rfl
  | cons m members ih => exact (ih _).trans (settings_addMember cat m.1 m.2)

theorem sorted_withMembers (cat : Catalog) (members : List (NodeSet × NodeTemplate)) :
    (cat.withMembers members).root.sorted = cat.root.sorted := by
  induction members generalizing cat with
  | nil => rfl
  | cons m members ih => exact (ih _).trans (sorted_addMember cat m.1 m.2)

/-- Categories that are new once a node set is added were made on the ways of its templates. -/
theorem brought_withMembers {p : List Nat} {c : Category} {entries : List Entry}
    (he : (cat.withMembers (ts.map fun t => (set, t))).root.entryAt? p =
      some (.category c sorted entries)) (hnew : cat.root.entryAt? p = none) :
    (cat.withMembers (ts.map fun t => (set, t))).Brought set ts p c sorted := by
  induction ts generalizing cat with
  | nil => cases he.symm.trans hnew
  | cons t ts ih =>
    have hrest := grows_withMembers (cat.addMember set t).catalog (ts.map fun t => (set, t))
    rcases hz : (cat.addMember set t).catalog.root.entryAt? p with _ | z
    · exact (ih he hz).mono (.refl _) rfl (List.subset_cons_self t ts)
    · -- it was made on the way of the first template, and stays
      have hsame := hrest.bare_eq hz he
      cases z with
      | category d s inner =>
        obtain ⟨rfl, rfl, -⟩ := Entry.category.inj hsame
        have hsettings := settings_withMembers (cat.addMember set t).catalog
          (ts.map fun t => (set, t))
        exact (brought_addMember hz hnew).mono hrest hsettings
          (List.cons_subset_cons t (List.nil_subset ts))
      | template u => cases hsame

/-! ### Templates that are added -/

/-- No template with the id of a place is where its ids lead. -/
def Free (cat : Catalog) (place : List String × String) : Prop :=
  ∀ u ∈ cat.templatesAt place.1, u.id ≠ place.2

instance (cat : Catalog) (place : List String × String) : Decidable (cat.Free place) :=
  inferInstanceAs (Decidable (∀ u ∈ cat.templatesAt place.1, u.id ≠ place.2))

/-- The templates of a list that come first for a place which is free. -/
def newcomers (cat : Catalog) (ts : List NodeTemplate) : List NodeTemplate :=
  NodeTemplate.firsts (ts.filter fun t => cat.Free t.place)

/-- A template is added if its place is free. -/
theorem answer_addMember (cat : Catalog) (set : NodeSet) (t : NodeTemplate) :
    (cat.addMember set t).answer = .ok (decide (cat.Free t.place)) := by
  obtain ⟨added, hadded⟩ := exists_addMember_answer_eq cat set t
  obtain ⟨made, mid, hsettled, -, ⟨b, hb⟩, heq⟩ := exists_addMember_eq cat set t
  have hiff := @insert_template_eq_true_iff mid (.node t) b hb
  rw [hsettled.templatesAt_eq] at hiff
  have hfree : added = true ↔ cat.Free t.place := by
    rw [← Except.ok.injEq, ← hadded, heq]
    exact hiff
  rw [hadded, Except.ok.injEq, Bool.eq_iff_iff, hfree, decide_eq_true_iff]

/-- A place is free after a template if it was free before and is not that of the template. -/
theorem free_addMember_iff {place : List String × String} :
    (cat.addMember set t).catalog.Free place ↔ cat.Free place ∧ place ≠ t.place := by
  obtain ⟨ids, id⟩ := place
  have hplace : (ids, id) = t.place ↔ Path.segments t.path = ids ∧ t.id = id := by
    rw [NodeTemplate.place, Prod.mk.injEq]
    exact and_congr eq_comm eq_comm
  rw [Free, templatesAt_addMember, Free, ne_eq, hplace]
  split
  case isTrue h =>
    simp only [List.mem_append, List.mem_singleton, or_imp, forall_and, forall_eq, h.1, true_and]
    exact Iff.rfl
  case isFalse h =>
    rw [List.append_nil, iff_self_and]
    rintro hfree ⟨hids, rfl⟩
    exact h ⟨hids, hfree⟩

theorem newcomers_addMember (cat : Catalog) (set : NodeSet) (t : NodeTemplate)
    (ts : List NodeTemplate) : (cat.addMember set t).catalog.newcomers ts =
      (cat.newcomers ts).filter fun u => u.place ≠ t.place := by
  have hkeep := NodeTemplate.firsts_filter (fun place => decide (place ≠ t.place))
    (ts.filter fun u => cat.Free u.place)
  rw [newcomers, newcomers, ← hkeep, List.filter_filter]
  congr 2
  funext u
  simp only [free_addMember_iff, Bool.decide_and, Bool.and_comm]

/-- The first template of a list is added if its place is free, and then the others are. -/
theorem newcomers_cons (cat : Catalog) (set : NodeSet) (t : NodeTemplate) (ts : List NodeTemplate) :
    cat.newcomers (t :: ts) = (if cat.Free t.place then [t] else []) ++
      (cat.addMember set t).catalog.newcomers ts := by
  rw [newcomers_addMember]
  by_cases hfree : cat.Free t.place
  · rw [if_pos hfree, newcomers, List.filter_cons, if_pos (decide_eq_true hfree)]
    rfl
  · have hsame : cat.newcomers (t :: ts) = cat.newcomers ts := by
      rw [newcomers, List.filter_cons, if_neg (by simpa using hfree), newcomers]
    rw [if_neg hfree, hsame, List.nil_append, eq_comm, List.filter_eq_self]
    intro u hu
    have hkept := (NodeTemplate.firsts_sublist _).subset hu
    have hfree_u := of_decide_eq_true (List.mem_filter.mp hkept).2
    exact decide_eq_true fun heq => hfree (heq ▸ hfree_u)

theorem addMembers_eq_newcomers (cat : Catalog) (set : NodeSet) (ts : List NodeTemplate) :
    cat.addMembers set ts =
      ⟨.ok (cat.newcomers ts), cat.withMembers (ts.map fun t => (set, t))⟩ := by
  induction ts generalizing cat with
  | nil => rfl
  | cons t ts ih =>
    rw [newcomers_cons cat set]
    simp only [addMembers, answer_addMember, ih]
    by_cases hfree : cat.Free t.place
    · rw [if_pos hfree, decide_eq_true hfree]
      rfl
    · rw [if_neg hfree, decide_eq_false hfree]
      rfl

/-- Each container holds what it held, and then the templates that are added there. -/
theorem templatesAt_withMembers (cat : Catalog) (set : NodeSet) (ts : List NodeTemplate)
    (ids : List String) :
    (cat.withMembers (ts.map fun t => (set, t))).templatesAt ids = cat.templatesAt ids ++
      ((cat.newcomers ts).filter fun t => Path.segments t.path = ids).map .node := by
  induction ts generalizing cat with
  | nil => exact (List.append_nil _).symm
  | cons t ts ih =>
    have hfirst : (if Path.segments t.path = ids ∧ ∀ u ∈ cat.templatesAt ids, u.id ≠ t.id
          then [Template.node t] else []) =
        ((if cat.Free t.place then [t] else []).filter fun t => Path.segments t.path = ids).map
          .node := by
      by_cases hids : Path.segments t.path = ids
      · subst hids
        by_cases hfree : cat.Free t.place
        · rw [if_pos ⟨rfl, hfree⟩, if_pos hfree]
          simp
        · rw [if_neg fun h => hfree h.2, if_neg hfree]
          rfl
      · rw [if_neg fun h => hids h.1]
        split <;> simp [hids]
    refine (ih (cat.addMember set t).catalog).trans ?_
    rw [templatesAt_addMember, newcomers_cons cat set, List.filter_append, List.map_append,
      List.append_assoc, hfirst]

/-- No template comes but the one that is added. -/
theorem templatesBelow_addMember_perm (cat : Catalog) (set : NodeSet) (t : NodeTemplate) :
    (cat.addMember set t).catalog.root.templatesBelow.Perm
      (cat.root.templatesBelow ++ (if cat.Free t.place then [t] else []).map .node) := by
  have hanswer := answer_addMember cat set t
  obtain ⟨made, mid, hsettled, -, -, heq⟩ := exists_addMember_eq cat set t
  rw [heq] at hanswer ⊢
  by_cases hfree : cat.Free t.place
  · rw [decide_eq_true hfree] at hanswer
    obtain ⟨a, x, -, hx, -, hcatalog⟩ := exists_of_insert_eq_true hanswer
    have hnil : ∀ inner, t.entry.container? = some inner → inner.entries = [] := nofun
    rw [hcatalog, if_pos hfree]
    exact (templatesBelow_modifyAt_append hx hnil).trans
      (hsettled.templatesBelow_perm.append_right _)
  · rw [decide_eq_false hfree] at hanswer
    rw [insert_unchanged_of_false hanswer, if_neg hfree, List.map_nil, List.append_nil]
    exact hsettled.templatesBelow_perm

theorem templatesBelow_withMembers_perm (cat : Catalog) (set : NodeSet) (ts : List NodeTemplate) :
    (cat.withMembers (ts.map fun t => (set, t))).root.templatesBelow.Perm
      (cat.root.templatesBelow ++ (cat.newcomers ts).map .node) := by
  induction ts generalizing cat with
  | nil => exact .of_eq (List.append_nil _).symm
  | cons t ts ih =>
    have hfirst := templatesBelow_addMember_perm cat set t
    refine (ih (cat.addMember set t).catalog).trans ?_
    rw [newcomers_cons cat set, List.map_append, ← List.append_assoc]
    exact hfirst.append_right _

/-! ### Adding again -/

/-- A template whose place is taken changes nothing. -/
theorem addMember_of_taken (htaken : ¬ cat.Free t.place) :
    cat.addMember set t = ⟨.ok false, cat⟩ := by
  have hanswer := answer_addMember cat set t
  rw [decide_eq_false htaken] at hanswer
  obtain ⟨made, mid, hsettled, hmade, -, heq⟩ := exists_addMember_eq cat set t
  -- the whole way is there, and so no category is made
  have hway : ∃ a, cat.root.trace (Path.segments t.path) = some a := by
    rcases ha : cat.root.trace (Path.segments t.path) with _ | a
    · refine absurd (fun u hu => ?_) htaken
      rw [NodeTemplate.place, templatesAt_of_trace_eq_none ha] at hu
      cases hu
    · exact ⟨a, rfl⟩
  obtain rfl : made = [] := by
    refine List.eq_nil_iff_forall_not_mem.mpr fun c hc => ?_
    obtain ⟨front, segment, back, hsplit, -, hnone⟩ := hmade c hc
    obtain ⟨a, ha⟩ := hway
    have habove : front ++ [segment] <+: Path.segments t.path :=
      ⟨back, by rw [hsplit, List.append_assoc, List.singleton_append]⟩
    obtain ⟨b, hb⟩ := exists_trace_above habove ha
    cases hb.symm.trans hnone
  obtain rfl := hsettled.eq_of_placed_nil
  rw [heq] at hanswer ⊢
  have hcatalog := insert_unchanged_of_false hanswer
  rcases hinsert : mid.insert t.entry with ⟨answer, now⟩
  rw [hinsert] at hanswer hcatalog
  exact congr (congrArg Edited.mk hanswer) hcatalog

theorem addMembers_of_taken (htaken : ∀ t ∈ ts, ¬ cat.Free t.place) :
    cat.addMembers set ts = ⟨.ok [], cat⟩ := by
  induction ts with
  | nil => rfl
  | cons t ts ih =>
    obtain ⟨hfirst, hrest⟩ := List.forall_mem_cons.mp htaken
    simp only [addMembers, addMember_of_taken hfirst, ih hrest]
    rfl

/-! ### Node sets -/

/-- What a catalog has become when a node set was added to another one, which tells what templates
were added. -/
structure Supplied (set : NodeSet) (cat : Catalog) (added : List NodeTemplate) (now : Catalog) :
    Prop where
  settings_eq : now.settings = cat.settings
  sorted_eq : now.root.sorted = cat.root.sorted
  /-- Every container holds first what it held. -/
  grows : cat.root.Grows now.root
  /-- A category that is new was made on the way of a template. -/
  brought : ∀ p c sorted entries, now.root.entryAt? p = some (.category c sorted entries) →
    cat.root.entryAt? p = none → now.Brought set set.templates p c sorted
  /-- The path of each template leads to a container that holds a template with its id. -/
  held : ∀ t ∈ set.templates, ∃ k u, now.containerAt t.path = .ok k ∧ u ∈ k.templates ∧ u.id = t.id
  sublist : added.Sublist set.templates
  /-- Those are added that come first for a free place. -/
  added_eq : added = cat.newcomers set.templates
  /-- Each is added behind the templates of the container that its path leads to. -/
  placed : ∀ ids, now.templatesAt ids = cat.templatesAt ids ++
    (added.filter fun t => Path.segments t.path = ids).map .node
  /-- No other template comes, wherever it stands. -/
  below : now.root.templatesBelow.Perm (cat.root.templatesBelow ++ added.map .node)
  /-- The set changes nothing when it is added again. -/
  again : now.addNodeSet set = ⟨.ok [], now⟩

/-- Whatever the catalog, a node set is added without being refused, only adds, and is added only
once. -/
theorem addNodeSet_supplied (cat : Catalog) (set : NodeSet) :
    ∃ added now, cat.addNodeSet set = ⟨.ok added, now⟩ ∧ Supplied set cat added now := by
  have htaken : ∀ t ∈ set.templates,
      ∃ u ∈ (cat.withMembers (set.templates.map fun t => (set, t))).templatesAt
        (Path.segments t.path), u.id = t.id := by
    intro t ht
    have hmember : (set, t) ∈ set.templates.map fun t => (set, t) := List.mem_map_of_mem ht
    have hplace := taken_of_mem_members cat hmember
    exact hplace
  refine ⟨_, _, addMembers_eq_newcomers cat set set.templates,
    { settings_eq := settings_withMembers cat _
      sorted_eq := sorted_withMembers cat _
      grows := grows_withMembers cat _
      brought := fun p c sorted entries he hnew => brought_withMembers he hnew
      held := fun t ht => ?held
      sublist := (NodeTemplate.firsts_sublist _).trans List.filter_sublist
      added_eq := rfl
      placed := templatesAt_withMembers cat set set.templates
      below := templatesBelow_withMembers_perm cat set set.templates
      again := addMembers_of_taken fun t ht hfree => ?again }⟩
  case held =>
    obtain ⟨u, hu, hid⟩ := htaken t ht
    obtain ⟨k, hk, hmem⟩ := mem_templatesAt_segments_iff.mp hu
    exact ⟨k, u, hk, hmem, hid⟩
  case again =>
    obtain ⟨u, hu, hid⟩ := htaken t ht
    exact hfree u hu hid

end Catalog

end NodeCatalog
