import NodeCatalog.Proofs.Assembly.Settled

/-!
# Categories that are left out

A category whose path meets a template is left out for good, and not tried again in a later round.
A category with the id of this template may be placed beside it all the same, and then the path of
the category that was left out leads somewhere in the end: it was overtaken (`Category.Overtaken`).
There is no other way in which a category is left out whose path leads somewhere, but for duplicates,
and no category is overtaken if those that are contributed bring no templates
(`left_out_resolves_iff`).
-/

namespace NodeCatalog

open Container Catalog

/-! ### Trees without templates -/

namespace Container

/-- All entries of a tree are categories. -/
def CategoriesOnly (k : Container) : Prop :=
  ∀ a x, k.at? a = some x → ∀ e ∈ x.entries, e.kind = .category

theorem forall_mem_row {k : Container} {kind : After.Kind} :
    (∀ e ∈ k.row, e.kind = kind) ↔ ∀ e ∈ k.entries, e.kind = kind := by
  have hkind : ∀ e : Entry, e.bare.kind = e.kind := by rintro (_ | _) <;> rfl
  rw [row, List.forall_mem_map]
  simp only [hkind]

theorem CategoriesOnly.modifyAt_append {k x : Container} {t : List Nat} {e : Entry}
    (h : k.CategoriesOnly) (ht : k.at? t = some x) (he : e.kind = .category)
    (hinner : ∀ inner, e.container? = some inner → inner.CategoriesOnly) :
    (k.modifyAt (append e) t).CategoriesOnly := by
  intro a y hy
  rcases at?_of_modifyAt_append ht hy with ⟨z, hz⟩ | ⟨r, inner, rfl, hcontainer, hr⟩
  · -- at an old address there may be one entry more
    obtain ⟨y', hy', hrow⟩ := exists_row_of_modifyAt_append t e hz
    obtain rfl := Option.some.inj (hy.symm.trans hy')
    have hold := forall_mem_row.mpr (h a z hz)
    rw [← forall_mem_row, hrow]
    split
    · intro d hd
      rcases List.mem_append.mp hd with hd | hd
      · exact hold d hd
      · obtain rfl := List.mem_singleton.mp hd
        cases e with
        | category c sorted entries => rfl
        | template t => cases he
    · exact hold
  · exact hinner inner hcontainer r y hr

end Container

/-! ### Reasons -/

namespace Catalog

/-- What the reason for which an entry was left out says of a catalog. -/
inductive Tells (cat : Catalog) (e : Entry) : Skipped.Reason → Prop where
  | duplicate {k : Container} : cat.containerAt e.path = .ok k → e.key ∈ k.keys →
      Tells cat e .duplicate
  | missing {segment : String} : Tells cat e (.refused (.segmentNotFound segment e.path))
  /-- The path goes through a template. -/
  | blocked {front back : List String} {segment : String} {holder : Container} {t : Template} :
      Path.segments e.path = front ++ segment :: back → cat.root.reach e.path front = .ok holder →
      .template t ∈ holder.entries → t.id = segment →
      Tells cat e (.refused (.notACategory segment e.path))

/-- What a reason says when it is given still holds when the tree has grown. -/
theorem Tells.grows {cat cat' : Catalog} {e : Entry} {reason : Skipped.Reason}
    (h : cat.Tells e reason) (hgrows : cat.root.Grows cat'.root) : cat'.Tells e reason := by
  cases h with
  | duplicate hk hkey =>
    obtain ⟨k', hk', hrow⟩ := hgrows.reach hk
    rw [keys_eq_map_row] at hkey
    refine .duplicate hk' ?_
    rw [keys_eq_map_row]
    exact (hrow.map Entry.key).subset hkey
  | missing => exact .missing
  | blocked hpath hholder ht hid =>
    obtain ⟨holder', hholder', hrow⟩ := hgrows.reach hholder
    obtain ⟨e', he', hbare⟩ := List.mem_map.mp (hrow.subset (List.mem_map_of_mem ht))
    refine .blocked hpath hholder' ?_ hid
    -- without contents a template is what it was
    cases e' with
    | category c sorted entries => cases hbare
    | template t' =>
      cases hbare
      exact he'

theorem tells_of_insert_eq_false {cat : Catalog} {e : Entry}
    (h : (cat.insert e).answer = .ok false) : cat.Tells e .duplicate := by
  obtain ⟨a, k, ha, hk, hclash⟩ := exists_of_insert_eq_false h
  refine .duplicate (reach_of_trace ha hk e.path) ?_
  by_contra hkey
  rw [hasClash_eq_false_iff.mpr hkey] at hclash
  cases hclash

theorem tells_of_insert_eq_error {cat : Catalog} {e : Entry} {fault : Fault}
    (h : (cat.insert e).answer = .error fault) : cat.Tells e (.refused fault) := by
  obtain ⟨front, segment, back, x, hpath, hx, hsegment, rfl⟩ :=
    exists_of_reach_error (insert_eq_error_iff.mp h)
  rw [segmentFault]
  rcases hcontains : x.contains segment with _ | _
  · exact .missing
  · obtain ⟨t, ht, hid⟩ := exists_template_of_contains hsegment hcontains
    exact .blocked hpath hx ht hid

/-- A path leads to a container exactly if its segments can be traced. -/
theorem exists_containerAt_iff {cat : Catalog} {path : String} :
    (∃ k, cat.containerAt path = .ok k) ↔ ∃ a, cat.root.trace (Path.segments path) = some a := by
  constructor
  · rintro ⟨k, hk⟩
    obtain ⟨a, ha, -⟩ := reach_eq_ok_iff.mp hk
    exact ⟨a, ha⟩
  · rintro ⟨a, ha⟩
    obtain ⟨k, hk⟩ := exists_at?_of_trace ha
    exact ⟨k, reach_of_trace ha hk path⟩

namespace Settled

variable {α : Type} {entry : α → Entry} {start now : Catalog} {placed : List α}
  {out : List (α × Skipped.Reason)}

theorem tells (h : Settled entry start now placed out) {p : α × Skipped.Reason} (hp : p ∈ out) :
    now.Tells (entry p.1) p.2 := by
  obtain ⟨cat, _, _, hrest, ⟨hreason, hanswer⟩ | ⟨fault, hreason, hanswer⟩⟩ := h.exists_of_mem_out hp
  · rw [hreason]
    exact (tells_of_insert_eq_false hanswer).grows hrest.grows
  · rw [hreason]
    exact (tells_of_insert_eq_error hanswer).grows hrest.grows

/-- Templates do not change whether a path leads anywhere. -/
theorem containerAt_eq_ok_iff (h : Settled entry start now placed out)
    (htemplate : ∀ a, ∃ t, entry a = .template t) {path : String} :
    (∃ k, now.containerAt path = .ok k) ↔ ∃ k, start.containerAt path = .ok k := by
  rw [exists_containerAt_iff, exists_containerAt_iff, h.trace_eq htemplate]

/-- Categories that bring only categories keep templates out of a tree. -/
theorem categoriesOnly (h : Settled entry start now placed out)
    (hstart : start.root.CategoriesOnly) (hkind : ∀ a, (entry a).kind = .category)
    (hinner : ∀ a ∈ placed, ∀ inner, (entry a).container? = some inner → inner.CategoriesOnly) :
    now.root.CategoriesOnly := by
  induction h with
  | none => exact hstart
  | @placed _ _ _ a _ hanswer ih =>
    obtain ⟨b, x, -, hx, -, hcatalog⟩ := exists_of_insert_eq_true hanswer
    rw [hcatalog]
    refine (ih fun d hd => hinner d (List.mem_append_left _ hd)).modifyAt_append hx (hkind a) ?_
    exact hinner a (List.mem_append_right _ (List.mem_singleton_self a))
  | duplicate _ _ ih => exact ih hinner
  | refused _ _ ih => exact ih hinner

end Settled

end Catalog

/-! ### Overtaken categories -/

/-- A category that was left out is overtaken: its path met a template, beside which a category with
the same id leads on to its end now. -/
inductive Category.Overtaken (cat : Catalog) (c : Category) : Skipped.Reason → Prop where
  | intro {front back : List String} {segment : String} {holder inner k : Container} {t : Template}
      {d : Category} :
      Path.segments c.path = front ++ segment :: back → cat.root.reach c.path front = .ok holder →
      .template t ∈ holder.entries → t.id = segment → holder.category? segment = some (d, inner) →
      inner.reach c.path back = .ok k → Overtaken cat c (.refused (.notACategory segment c.path))

/-- The path of an overtaken category leads somewhere. -/
theorem Category.Overtaken.resolves {cat : Catalog} {c : Category} {reason : Skipped.Reason}
    (h : c.Overtaken cat reason) : ∃ k, cat.containerAt c.path = .ok k := by
  cases h with
  | @intro _ _ _ _ _ k _ _ hpath hholder _ _ hd hk =>
    refine ⟨k, ?_⟩
    rw [containerAt, hpath, reach_append hholder, reach, hd]
    exact hk

namespace Contributions

variable {c : Contributions}

/-- A category whose path leads somewhere in the end is a duplicate or overtaken. -/
theorem Course.overtaken_of_resolves (course : Course c) {p : Branch × Skipped.Reason}
    (hp : p ∈ course.categoriesOut) (hreason : p.2 ≠ .duplicate)
    (hresolves : ∃ k, (assemble c).catalog.containerAt p.1.category.path = .ok k) :
    p.1.category.Overtaken (assemble c).catalog p.2 := by
  have htells := ((course.settled_categories.tells hp).grows course.settled_nodes.grows).grows
    course.settled_metaNodes.grows
  obtain ⟨b, reason⟩ := p
  change (assemble c).catalog.Tells (b.entry _) reason at htells
  cases htells with
  | duplicate => exact absurd rfl hreason
  | @missing segment =>
    -- the path leads nowhere when all categories are settled, and templates do not help
    have hmiddle : ∃ k, course.middle.containerAt b.category.path = .ok k := by
      rw [← course.settled_nodes.containerAt_eq_ok_iff fun t => ⟨_, rfl⟩,
        ← course.settled_metaNodes.containerAt_eq_ok_iff fun t => ⟨_, rfl⟩]
      exact hresolves
    obtain ⟨k, hk⟩ := hmiddle
    have hanswer := course.insert_of_missing _ hp segment _ rfl
    cases hk.symm.trans (insert_eq_error_iff.mp hanswer)
  | @blocked front back segment holder t hpath hholder ht hid =>
    -- from the container that holds the template the path goes on through a category
    obtain ⟨k, hk⟩ := hresolves
    have hrest : holder.reach (b.entry c.settings.sortChildren).path (segment :: back) = .ok k := by
      rw [← reach_append hholder, ← hpath]
      exact hk
    rw [reach] at hrest
    rcases hd : holder.category? segment with _ | ⟨d, inner⟩
    · rw [hd] at hrest
      cases hrest
    · rw [hd] at hrest
      exact .intro hpath hholder ht hid hd hrest

/-- No category is overtaken if those that are contributed bring only categories. -/
theorem Course.not_overtaken (course : Course c)
    (honly : ∀ b ∈ c.categories, CategoriesOnly ⟨c.settings.sortChildren, b.entries⟩)
    {p : Branch × Skipped.Reason} (hp : p ∈ course.categoriesOut) (cat : Catalog) :
    ¬p.1.category.Overtaken cat p.2 := by
  have hcategories : course.middle.root.CategoriesOnly := by
    refine course.settled_categories.categoriesOnly ?_ (fun _ => rfl) ?_
    · intro a x hx e he
      cases a with
      | nil =>
        obtain rfl := Option.some.inj hx
        exact absurd he List.not_mem_nil
      | cons i a => cases hx
    · intro b hb inner hinner
      obtain rfl := Option.some.inj hinner
      exact honly b (course.perm_categories.subset (List.mem_append_left _ hb))
  have htells := course.settled_categories.tells hp
  obtain ⟨b, reason⟩ := p
  change course.middle.Tells (b.entry _) reason at htells
  rintro (hovertaken : b.category.Overtaken cat reason)
  -- the template that was met then is an entry of the tree without templates
  cases hovertaken with
  | intro =>
    cases htells with
    | blocked _ hholder ht _ =>
      obtain ⟨a, -, ha⟩ := reach_eq_ok_iff.mp hholder
      cases hcategories a _ ha _ ht

/-- Of the categories that are left out, other than duplicates, the paths of those lead somewhere in
the end that are overtaken, and there are none if no category brings a template. -/
theorem left_out_resolves_iff (hsets : c.nodeSets = []) :
    ∃ out : List (Branch × Skipped.Reason),
      (assemble c).skipped.filter (fun s => s.kind = .category) =
        out.map (Skipped.of .category (Branch.entry c.settings.sortChildren)) ∧
      (out.map Prod.fst).Subperm c.categories ∧
      (∀ p ∈ out, p.2 ≠ .duplicate →
        ((∃ k, (assemble c).catalog.containerAt p.1.category.path = .ok k) ↔
          p.1.category.Overtaken (assemble c).catalog p.2)) ∧
      ((∀ b ∈ c.categories, CategoriesOnly ⟨c.settings.sortChildren, b.entries⟩) →
        ∀ p ∈ out, ¬p.1.category.Overtaken (assemble c).catalog p.2) := by
  obtain ⟨course⟩ := nonempty_course hsets
  refine ⟨course.categoriesOut, ?_, ?_, ?_, ?_⟩
  · rw [course.skipped_eq, List.filter_append, List.filter_append, Skipped.filter_map_of,
      Skipped.filter_map_of, Skipped.filter_map_of, if_pos rfl, if_neg nofun, if_neg nofun,
      List.append_nil, List.append_nil]
  · exact (List.sublist_append_right _ _).subperm.trans course.perm_categories.subperm
  · exact fun p hp hreason => ⟨course.overtaken_of_resolves hp hreason, fun h => h.resolves⟩
  · exact fun honly p hp => course.not_overtaken honly hp _

/-- A category brings a node, another one goes through the id of this node, and the category with
this id comes last. -/
def overtaking : Contributions where
  categories :=
    [⟨{ id := "a", name := "A" }, [.template (.node { id := "x", name := "N", factory := "f" })]⟩,
      ⟨{ id := "c", name := "C", path := "/a/x" }, []⟩,
      ⟨{ id := "x", name := "X", path := "/a" }, []⟩]

theorem left_out_resolves_iff_overtaking :
    overtaking.nodeSets = [] ∧ ∃ out : List (Branch × Skipped.Reason),
      (assemble overtaking).skipped.filter (fun s => s.kind = .category) =
        out.map (Skipped.of .category (Branch.entry overtaking.settings.sortChildren)) ∧
      (out.map Prod.fst).Subperm overtaking.categories ∧
      (∀ p ∈ out, p.2 ≠ .duplicate →
        ((∃ k, (assemble overtaking).catalog.containerAt p.1.category.path = .ok k) ↔
          p.1.category.Overtaken (assemble overtaking).catalog p.2)) ∧
      ((∀ b ∈ overtaking.categories,
          CategoriesOnly ⟨overtaking.settings.sortChildren, b.entries⟩) →
        ∀ p ∈ out, ¬p.1.category.Overtaken (assemble overtaking).catalog p.2) :=
  ⟨rfl, left_out_resolves_iff rfl⟩

theorem left_out_resolves_overtaking :
    (assemble overtaking).skipped = [⟨.category, "c", .refused (.notACategory "x" "/a/x")⟩] ∧
      ∃ k, (assemble overtaking).catalog.containerAt "/a/x" = .ok k := by
  -- the first round is the last one
  have hlast : (place (.empty overtaking.settings) overtaking.categories).deferred = [] := by
    rw [← List.isEmpty_iff]
    decide +kernel
  have hskipped : (assemble overtaking).skipped =
      (place (.empty overtaking.settings) overtaking.categories).skipped ++ [] ++ [] ++ [] := by
    rw [assemble, placeAll_of_deferred_eq_nil hlast]
    rfl
  have hcatalog : (assemble overtaking).catalog =
      (place (.empty overtaking.settings) overtaking.categories).catalog := by
    rw [assemble, placeAll_of_deferred_eq_nil hlast]
    rfl
  have hresolves : ((place (.empty overtaking.settings) overtaking.categories).catalog.containerAt
      "/a/x").toOption.isSome = true := by
    decide +kernel
  rw [hskipped, hcatalog]
  refine ⟨by decide +kernel, ?_⟩
  cases h : (place (.empty overtaking.settings) overtaking.categories).catalog.containerAt "/a/x" with
  | error fault =>
    rw [h] at hresolves
    cases hresolves
  | ok k => exact ⟨k, rfl⟩

end Contributions

end NodeCatalog
