import NodeCatalog.Proofs.Assembly.Contents
import NodeCatalog.Proofs.Assembly.LeftOut

/-!
# What is placed

For categories without contents, what is placed does not depend on the order in which they come.
The anchored addresses are the least set that contains the root and, with the parent of a category,
the address of the category (`Anchored`).  When all categories are settled, paths lead to the
anchored addresses and to no others (`Course.spans`): the tree holds placed categories only, and at
the end of the last round, no category that is left out could be placed.

So the categories of the tree are at the anchored addresses, one at each, and each of the others is
left out, as a duplicate if the parent is anchored and for the first segment that is not anchored
otherwise (`exact_of_fresh`).
-/

namespace NodeCatalog

open Container Catalog

/-! ### Anchored addresses -/

/-- The ids along the way to a category: the segments of its path, and its own id. -/
def Branch.address (b : Branch) : List String :=
  Path.segments b.category.path ++ [b.category.id]

/-- The least set of addresses that contains that of the root and, with the parent of a category,
that of the category. -/
inductive Anchored (bs : List Branch) : List String → Prop where
  | root : Anchored bs []
  | child {b : Branch} : b ∈ bs → Anchored bs (Path.segments b.category.path) →
      Anchored bs b.address

/-- The way to an anchored address is anchored. -/
theorem Anchored.ancestor {bs : List Branch} {ids ids' : List String} (h : Anchored bs ids)
    (habove : ids' <+: ids) : Anchored bs ids' := by
  induction h with
  | root =>
    obtain rfl := List.prefix_nil.mp habove
    exact .root
  | child hb hpath ih =>
    rcases List.prefix_concat_iff.mp habove with rfl | habove
    · exact .child hb hpath
    · exact ih habove

/-- A segment is the first of a path that is not anchored. -/
def FirstLoose (bs : List Branch) (path segment : String) : Prop :=
  ∃ front back, Path.segments path = front ++ segment :: back ∧
    (∀ ids, ids <+: front → Anchored bs ids) ∧ ¬Anchored bs (front ++ [segment])

theorem FirstLoose.not_anchored {bs : List Branch} {path segment : String}
    (h : FirstLoose bs path segment) : ¬Anchored bs (Path.segments path) := by
  obtain ⟨front, back, hpath, -, hloose⟩ := h
  intro hanchored
  refine hloose (hanchored.ancestor ⟨back, ?_⟩)
  rw [hpath, List.append_assoc, List.singleton_append]

/-- The reason for which something with a path is left out, and its text. -/
structure Explained (bs : List Branch) (path : String) (reason : Skipped.Reason) : Prop where
  duplicate : Anchored bs (Path.segments path) →
    reason = .duplicate ∧ reason.message = "duplicate id"
  refused : ¬Anchored bs (Path.segments path) → ∃ segment, FirstLoose bs path segment ∧
    (reason = .refused (.segmentNotFound segment path) ∧
        reason.message =
          "The segment '" ++ segment ++ "' in path '" ++ path ++ "' does not exist" ∨
      reason = .refused (.notACategory segment path) ∧
        reason.message = "'" ++ segment ++ "' in path '" ++ path ++ "' is not a category")

theorem Explained.of_anchored {bs : List Branch} {path : String}
    (h : Anchored bs (Path.segments path)) : Explained bs path .duplicate :=
  ⟨fun _ => ⟨rfl, rfl⟩, fun hloose => absurd h hloose⟩

namespace Container

variable {k inner : Container} {a : List Nat}

/-- What a category holds is found where the category is. -/
theorem at?_of_entryAt? {c : Category} {sorted : Bool} {entries : List Entry}
    (h : k.entryAt? a = some (.category c sorted entries)) : k.at? a = some ⟨sorted, entries⟩ := by
  obtain ⟨b, i, x, rfl, hx, hi⟩ := exists_of_entryAt? h
  rw [at?_append, hx, Option.bind_some, at?, inner?, hi]
  rfl

/-- What is found below the root is what a category holds. -/
theorem exists_of_at?_concat {i : Nat} (h : k.at? (a ++ [i]) = some inner) :
    ∃ x c, k.at? a = some x ∧
      k.entryAt? (a ++ [i]) = some (.category c inner.sorted inner.entries) := by
  rw [at?_append] at h
  obtain ⟨x, hx, hi⟩ := Option.bind_eq_some_iff.mp h
  obtain ⟨c, next, he, -, hnext⟩ := exists_of_at?_cons hi
  obtain rfl := Option.some.inj hnext
  refine ⟨x, c, hx, ?_⟩
  rw [entryAt?_concat, hx]
  exact he

end Container

namespace Catalog

/-! ### Categories among the items -/

namespace Holds

variable {settings : Settings} {items : List Entry} {cat : Catalog} {a : List Nat} {c : Category}
  {sorted : Bool}

/-- Each category of the tree is an item that is declared where it stands. -/
theorem item_of_entryAt? (h : cat.Holds settings items) {entries : List Entry}
    (he : cat.root.entryAt? a = some (.category c sorted entries)) :
    .category c sorted [] ∈ items ∧ Path.segments c.path ++ [c.id] = cat.root.idsAt a := by
  obtain ⟨b, i, k, rfl, hk, hi⟩ := exists_of_entryAt? he
  have hrow : .category c sorted [] ∈ k.row :=
    List.mem_map.mpr ⟨_, List.mem_of_getElem? hi, rfl⟩
  rw [h.rows b k hk, List.mem_filter, decide_eq_true_iff] at hrow
  obtain ⟨hitem, hpath⟩ := hrow
  have hids : k.idsAt [i] = [c.id] := by
    rw [idsAt, hi]
    rfl
  refine ⟨hitem, ?_⟩
  rw [idsAt_append hk, hids, ← hpath]
  rfl

/-- Each category that is an item stands where it is declared. -/
theorem entryAt?_of_item (h : cat.Holds settings items) (hc : .category c sorted [] ∈ items) :
    ∃ a entries, cat.root.entryAt? a = some (.category c sorted entries) := by
  obtain ⟨a, ha⟩ := h.present _ hc
  obtain ⟨k, hk⟩ := exists_at?_of_trace ha
  obtain ⟨e, he, hbare⟩ := List.mem_map.mp ((h.mem_row_iff ha hk).mpr hc)
  obtain ⟨i, hi⟩ := List.mem_iff_getElem?.mp he
  cases e with
  | category d sorted' entries =>
    cases hbare
    refine ⟨a ++ [i], entries, ?_⟩
    rw [entryAt?_concat, hk]
    exact hi
  | template t => cases hbare

/-- A path leads to each category that is an item. -/
theorem trace_of_item (h : cat.Holds settings items) (hc : .category c sorted [] ∈ items) :
    ∃ a, cat.root.trace (Path.segments c.path ++ [c.id]) = some a := by
  obtain ⟨a, entries, he⟩ := h.entryAt?_of_item hc
  refine ⟨a, ?_⟩
  rw [(h.item_of_entryAt? he).2]
  exact h.trace_idsAt (at?_of_entryAt? he)

/-- If the categories among the items are contributed, all addresses of the tree are anchored. -/
theorem anchored (h : cat.Holds settings items) {bs : List Branch}
    (hbs : ∀ c sorted, .category c sorted [] ∈ items → ∃ b ∈ bs, b.category = c) {k : Container}
    (hk : cat.root.at? a = some k) : Anchored bs (cat.root.idsAt a) := by
  induction a using List.reverseRecOn generalizing k with
  | nil => exact .root
  | append_singleton a i ih =>
    obtain ⟨x, c, hx, he⟩ := exists_of_at?_concat hk
    obtain ⟨hitem, hids⟩ := h.item_of_entryAt? he
    obtain ⟨b, hb, rfl⟩ := hbs c _ hitem
    obtain ⟨ids, id, -, heq, ha, -, -⟩ := trace_concat (h.trace_idsAt hk)
    obtain ⟨hpath, -⟩ := List.append_inj' (hids.trans heq) rfl
    rw [← hids]
    refine .child hb ?_
    rw [hpath, ← idsAt_of_trace ha]
    exact ih hx

end Holds

/-! ### Where paths lead -/

/-- Paths lead to the anchored addresses and to no others. -/
def Spans (cat : Catalog) (bs : List Branch) : Prop :=
  ∀ ids, Anchored bs ids ↔ ∃ a, cat.root.trace ids = some a

section Spans

variable {cat : Catalog} {bs : List Branch} {e : Entry}

theorem Spans.anchored_of_reach (h : cat.Spans bs) {path : String} {ids : List String}
    {k : Container} (hk : cat.root.reach path ids = .ok k) : Anchored bs ids := by
  obtain ⟨a, ha, -⟩ := reach_eq_ok_iff.mp hk
  exact (h ids).mpr ⟨a, ha⟩

theorem Spans.explained_of_insert_eq_false (h : cat.Spans bs)
    (hanswer : (cat.insert e).answer = .ok false) : Explained bs e.path .duplicate := by
  obtain ⟨a, k, ha, -, -⟩ := exists_of_insert_eq_false hanswer
  exact .of_anchored ((h _).mpr ⟨a, ha⟩)

theorem Spans.explained_of_insert_eq_error (h : cat.Spans bs) {fault : Fault}
    (hanswer : (cat.insert e).answer = .error fault) : Explained bs e.path (.refused fault) := by
  obtain ⟨front, segment, back, x, hpath, hx, hsegment, hfault⟩ :=
    exists_of_reach_error (insert_eq_error_iff.mp hanswer)
  have hloose : ¬Anchored bs (front ++ [segment]) := by
    intro hanchored
    obtain ⟨a, ha⟩ := (h _).mp hanchored
    obtain ⟨k, hk⟩ := exists_at?_of_trace ha
    have hreach := reach_of_trace ha hk e.path
    rw [reach_append hx, reach, hsegment] at hreach
    cases hreach
  have hfirst : FirstLoose bs e.path segment :=
    ⟨front, back, hpath, fun ids hids => (h.anchored_of_reach hx).ancestor hids, hloose⟩
  refine ⟨fun hanchored => absurd hanchored hfirst.not_anchored, fun _ => ⟨segment, hfirst, ?_⟩⟩
  rw [hfault, segmentFault]
  split
  · exact .inr ⟨rfl, rfl⟩
  · exact .inl ⟨rfl, rfl⟩

/-- Templates are left out for reasons that are explained. -/
theorem Settled.explained {α : Type} {entry : α → Entry} {start now : Catalog} {placed : List α}
    {out : List (α × Skipped.Reason)} (h : Settled entry start now placed out)
    (htemplate : ∀ a, ∃ t, entry a = .template t) (hspans : now.Spans bs) {p : α × Skipped.Reason}
    (hp : p ∈ out) : Explained bs (entry p.1).path p.2 := by
  obtain ⟨cat, _, _, hrest, hreason⟩ := h.exists_of_mem_out hp
  have hcat : cat.Spans bs := fun ids => by rw [hspans ids, hrest.trace_eq htemplate]
  rcases hreason with ⟨hreason, hanswer⟩ | ⟨fault, hreason, hanswer⟩
  · rw [hreason]
    exact hcat.explained_of_insert_eq_false hanswer
  · rw [hreason]
    exact hcat.explained_of_insert_eq_error hanswer

end Spans

end Catalog

/-! ### The course of an assembly -/

namespace Contributions

variable {c : Contributions}

namespace Course

/-- All that is placed, in the order in which it is placed. -/
def items (course : Course c) : List Entry :=
  course.categories.map (Branch.entry c.settings.sortChildren) ++
    course.nodes.map NodeTemplate.entry ++ course.metaNodes.map MetaTemplate.entry

/-- What is placed and what is left out of categories that bring nothing, and of templates. -/
structure Exact (course : Course c) : Prop where
  /-- The categories that are placed have the anchored addresses but for that of the root, -/
  mem_addresses_iff : ∀ ids, ids ∈ course.categories.map Branch.address ↔
    Anchored c.categories ids ∧ ids ≠ []
  /-- and each of these once. -/
  nodup_addresses : (course.categories.map Branch.address).Nodup
  /-- They are the categories of the tree, where each stands at its address. -/
  categories_iff : ∀ ids d,
    (∃ a sorted entries,
      (assemble c).catalog.root.entryAt? a = some (.category d sorted entries) ∧
        (assemble c).catalog.root.idsAt a = ids) ↔
      ∃ b ∈ course.categories, b.category = d ∧ b.address = ids
  /-- No two categories of the tree stand at one address. -/
  eq_of_idsAt_eq : ∀ a a' k k', (assemble c).catalog.root.at? a = some k →
    (assemble c).catalog.root.at? a' = some k' →
    (assemble c).catalog.root.idsAt a = (assemble c).catalog.root.idsAt a' → a = a'
  /-- Whatever is placed is held by the container that its path leads to, -/
  mem_row : ∀ e ∈ course.items, ∃ k, (assemble c).catalog.containerAt e.path = .ok k ∧ e ∈ k.row
  /-- and a container holds nothing else, in the order in which it is placed. -/
  rows : ∀ a k, (assemble c).catalog.root.at? a = some k → k.row =
    course.items.filter fun e => Path.segments e.path = (assemble c).catalog.root.idsAt a
  explained_categories : ∀ p ∈ course.categoriesOut,
    Explained c.categories p.1.category.path p.2
  /-- The segment that is named for a category is never said to be something else. -/
  not_notACategory : ∀ p ∈ course.categoriesOut, ∀ segment path,
    p.2 ≠ .refused (.notACategory segment path)
  explained_nodes : ∀ p ∈ course.nodesOut, Explained c.categories p.1.path p.2
  explained_metaNodes : ∀ p ∈ course.metaNodesOut, Explained c.categories p.1.path p.2

variable (course : Course c)

theorem mem_categories {b : Branch} (hb : b ∈ course.categories) : b ∈ c.categories :=
  course.perm_categories.subset (List.mem_append_left _ hb)

/-- A category that is an item is one that is placed. -/
theorem exists_of_item {d : Category} {sorted : Bool} (hd : .category d sorted [] ∈ course.items) :
    ∃ b ∈ course.categories, b.category = d ∧
      b.entry c.settings.sortChildren = .category d sorted [] := by
  rcases List.mem_append.mp hd with hd | hd
  · rcases List.mem_append.mp hd with hd | hd
    · obtain ⟨b, hb, heq⟩ := List.mem_map.mp hd
      exact ⟨b, hb, (Entry.category.inj heq).1, heq⟩
    · obtain ⟨t, -, heq⟩ := List.mem_map.mp hd
      cases heq
  · obtain ⟨t, -, heq⟩ := List.mem_map.mp hd
    cases heq

section Bare

variable (hbare : ∀ b ∈ c.categories, b.entries = [])

include hbare

theorem entry_eq {b : Branch} (hb : b ∈ course.categories) :
    b.entry c.settings.sortChildren = .category b.category c.settings.sortChildren [] := by
  rw [Branch.entry, hbare b (course.mem_categories hb)]

theorem holds_middle : course.middle.Holds c.settings
    (course.categories.map (Branch.entry c.settings.sortChildren)) := by
  refine course.settled_categories.holds (holds_empty c.settings) fun b hb => ?_
  rw [course.entry_eq hbare hb]
  exact Entry.fresh_category _ _

theorem holds_catalog : (assemble c).catalog.Holds c.settings course.items :=
  course.settled_metaNodes.holds (course.settled_nodes.holds (course.holds_middle hbare)
    fun _ _ => Entry.fresh_template _ _) fun _ _ => Entry.fresh_template _ _

/-- No category meets a template, since there is none when categories are placed. -/
theorem not_notACategory_of_bare {p : Branch × Skipped.Reason} (hp : p ∈ course.categoriesOut)
    (segment path : String) : p.2 ≠ .refused (.notACategory segment path) := by
  have hholds := course.holds_middle hbare
  have htells := course.settled_categories.tells hp
  obtain ⟨b, reason⟩ := p
  change course.middle.Tells (b.entry _) reason at htells
  rintro (rfl : reason = _)
  cases htells with
  | blocked _ hholder ht _ =>
    obtain ⟨a, -, ha⟩ := reach_eq_ok_iff.mp hholder
    have hrow : .template _ ∈ row _ := List.mem_map.mpr ⟨_, ht, rfl⟩
    rw [hholds.rows a _ ha] at hrow
    obtain ⟨d, -, heq⟩ := List.mem_map.mp (List.mem_filter.mp hrow).1
    cases heq

/-- When all categories are settled, the address of each category whose parent is there is there. -/
theorem exists_trace_address {b : Branch} (hb : b ∈ c.categories) {a : List Nat}
    (ha : course.middle.root.trace (Path.segments b.category.path) = some a) :
    ∃ a', course.middle.root.trace b.address = some a' := by
  have hholds := course.holds_middle hbare
  rcases List.mem_append.mp (course.perm_categories.mem_iff.mpr hb) with hplaced | hout
  · -- the category itself stands there
    have hitem := List.mem_map_of_mem (f := Branch.entry c.settings.sortChildren) hplaced
    rw [course.entry_eq hbare hplaced] at hitem
    exact hholds.trace_of_item hitem
  · obtain ⟨⟨b, reason⟩, hp, rfl⟩ := List.mem_map.mp hout
    obtain ⟨k, hk⟩ := exists_at?_of_trace ha
    have hreach : course.middle.containerAt b.category.path = .ok k := reach_of_trace ha hk _
    have htells : course.middle.Tells (b.entry _) reason := course.settled_categories.tells hp
    cases htells with
    | duplicate hk' hkey =>
      -- another category with its id stands there
      obtain rfl := Except.ok.inj (hreach.symm.trans hk')
      obtain ⟨i, hi⟩ := exists_trace_concat ha hk hkey
      exact ⟨_, hi⟩
    | missing =>
      -- the last round would have placed it
      have hanswer := course.insert_of_missing _ hp _ _ rfl
      cases hreach.symm.trans (insert_eq_error_iff.mp hanswer)
    | blocked => exact absurd rfl (course.not_notACategory_of_bare hbare hp _ _)

theorem spans_middle : course.middle.Spans c.categories := by
  have hholds := course.holds_middle hbare
  intro ids
  constructor
  · -- what paths lead to is closed under adding the address of a category
    intro hanchored
    induction hanchored with
    | root => exact ⟨[], rfl⟩
    | child hb _ ih =>
      obtain ⟨a, ha⟩ := ih
      exact course.exists_trace_address hbare hb ha
  · rintro ⟨a, ha⟩
    obtain ⟨k, hk⟩ := exists_at?_of_trace ha
    rw [← idsAt_of_trace ha]
    refine hholds.anchored (fun d sorted hd => ?_) hk
    obtain ⟨b, hb, hbd, -⟩ := course.exists_of_item
      (List.mem_append_left _ (List.mem_append_left _ hd))
    exact ⟨b, course.mem_categories hb, hbd⟩

/-- Templates do not change where paths lead. -/
theorem spans_late : course.late.Spans c.categories := by
  intro ids
  rw [course.spans_middle hbare ids, course.settled_nodes.trace_eq fun t => ⟨_, rfl⟩]

theorem spans_catalog (course : Course c) : (assemble c).catalog.Spans c.categories := by
  intro ids
  rw [course.spans_late hbare ids, course.settled_metaNodes.trace_eq fun t => ⟨_, rfl⟩]

/-! ### Addresses -/

/-- A category stands at an address exactly if it is placed and declared there. -/
theorem exists_entryAt?_iff {ids : List String} {d : Category} :
    (∃ a sorted entries,
      (assemble c).catalog.root.entryAt? a = some (.category d sorted entries) ∧
        (assemble c).catalog.root.idsAt a = ids) ↔
      ∃ b ∈ course.categories, b.category = d ∧ b.address = ids := by
  have hholds := course.holds_catalog hbare
  constructor
  · rintro ⟨a, sorted, entries, he, rfl⟩
    obtain ⟨hitem, hids⟩ := hholds.item_of_entryAt? he
    obtain ⟨b, hb, rfl, -⟩ := course.exists_of_item hitem
    exact ⟨b, hb, rfl, hids⟩
  · rintro ⟨b, hb, rfl, rfl⟩
    have hitem := List.mem_map_of_mem (f := Branch.entry c.settings.sortChildren) hb
    rw [course.entry_eq hbare hb] at hitem
    obtain ⟨a, entries, he⟩ := hholds.entryAt?_of_item
      (List.mem_append_left _ (List.mem_append_left _ hitem))
    exact ⟨a, _, entries, he, (hholds.item_of_entryAt? he).2.symm⟩

theorem mem_map_address_iff {ids : List String} :
    ids ∈ course.categories.map Branch.address ↔ Anchored c.categories ids ∧ ids ≠ [] := by
  have hholds := course.holds_catalog hbare
  have hspans := course.spans_catalog hbare
  rw [List.mem_map]
  constructor
  · rintro ⟨b, hb, rfl⟩
    obtain ⟨a, ha⟩ := hholds.present _ (List.mem_append_left _ (List.mem_append_left _
      (List.mem_map_of_mem hb)))
    exact ⟨.child (course.mem_categories hb) ((hspans _).mpr ⟨a, ha⟩), by simp [Branch.address]⟩
  · rintro ⟨hanchored, hne⟩
    obtain ⟨a, ha⟩ := (hspans ids).mp hanchored
    obtain ⟨k, hk⟩ := exists_at?_of_trace ha
    rcases List.eq_nil_or_concat' a with rfl | ⟨a, i, rfl⟩
    · exact absurd (idsAt_of_trace ha).symm hne
    · obtain ⟨-, d, -, he⟩ := exists_of_at?_concat hk
      obtain ⟨b, hb, -, haddress⟩ := (course.exists_entryAt?_iff hbare).mp
        ⟨_, _, _, he, idsAt_of_trace ha⟩
      exact ⟨b, hb, haddress⟩

/-- No two categories that are placed have one address. -/
theorem nodup_map_address : (course.categories.map Branch.address).Nodup := by
  have hdistinct := (course.holds_middle hbare).distinct
  rw [List.map_map, List.Nodup, List.pairwise_map] at hdistinct
  rw [List.Nodup, List.pairwise_map]
  refine hdistinct.imp fun {b b'} hne heq => hne ?_
  obtain ⟨hpath, hid⟩ := List.append_inj' heq rfl
  exact Prod.ext hpath (Prod.ext (List.singleton_inj.mp hid) rfl)

/-- Categories are left out for reasons that are explained. -/
theorem explained_of_mem_categoriesOut {p : Branch × Skipped.Reason}
    (hp : p ∈ course.categoriesOut) : Explained c.categories p.1.category.path p.2 := by
  have hspans := course.spans_middle hbare
  have htells := course.settled_categories.tells hp
  obtain ⟨b, reason⟩ := p
  change course.middle.Tells (b.entry _) reason at htells
  cases htells with
  | duplicate hk _ => exact .of_anchored (hspans.anchored_of_reach hk)
  | missing => exact hspans.explained_of_insert_eq_error (course.insert_of_missing _ hp _ _ rfl)
  | blocked => exact absurd rfl (course.not_notACategory_of_bare hbare hp _ _)

end Bare

end Course

/-- Of categories that bring nothing those are placed that have anchored addresses, one for each,
and the tree is made of these and of the templates that are placed.  All else is left out, as a
duplicate or for the first segment that is not anchored. -/
theorem exact_of_bare (hbare : ∀ b ∈ c.categories, b.entries = []) (hsets : c.nodeSets = []) :
    ∃ course : Course c, course.Exact := by
  obtain ⟨course⟩ := nonempty_course hsets
  have hholds := course.holds_catalog hbare
  refine ⟨course,
    { mem_addresses_iff := fun _ => course.mem_map_address_iff hbare
      nodup_addresses := course.nodup_map_address hbare
      categories_iff := fun _ _ => course.exists_entryAt?_iff hbare
      eq_of_idsAt_eq := ?unique
      mem_row := ?mem_row
      rows := hholds.rows
      explained_categories := fun _ hp => course.explained_of_mem_categoriesOut hbare hp
      not_notACategory := fun _ hp => course.not_notACategory_of_bare hbare hp
      explained_nodes := fun _ hp => course.settled_nodes.explained (fun _ => ⟨_, rfl⟩)
        (course.spans_late hbare) hp
      explained_metaNodes := fun _ hp => course.settled_metaNodes.explained (fun _ => ⟨_, rfl⟩)
        (course.spans_catalog hbare) hp }⟩
  case unique =>
    intro a a' k k' hk hk' heq
    have htrace := hholds.trace_idsAt hk
    rw [heq, hholds.trace_idsAt hk'] at htrace
    exact (Option.some.inj htrace).symm
  case mem_row =>
    intro e he
    obtain ⟨a, ha⟩ := hholds.present e he
    obtain ⟨k, hk⟩ := exists_at?_of_trace ha
    exact ⟨k, reach_of_trace ha hk _, (hholds.mem_row_iff ha hk).mpr he⟩

/-- A category before its parent, with a path that is written loosely, two duplicates, and one whose
parent never comes; a node twice, and a meta node below a node. -/
def outOfOrder : Contributions where
  categories :=
    [⟨{ id := "b", name := "B", path := " a " }, []⟩, ⟨{ id := "a", name := "A" }, []⟩,
      ⟨{ id := "a", name := "Again" }, []⟩, ⟨{ id := "b", name := "Again", path := "a/" }, []⟩,
      ⟨{ id := "c", name := "C", path := "/a/d/c" }, []⟩]
  nodes :=
    [{ id := "x", name := "X", factory := "f", path := "//a/ b/" },
      { id := "x", name := "Again", factory := "g", path := "/a/b" }]
  metaNodes := [{ id := "m", name := "M", directory := "d", path := "/a/b/x" }]

theorem exact_of_bare_outOfOrder :
    (∀ b ∈ outOfOrder.categories, b.entries = []) ∧ outOfOrder.nodeSets = [] ∧
      ∃ course : Course outOfOrder, course.Exact := by
  have hbare : ∀ b ∈ outOfOrder.categories, b.entries = [] := by
    simp [outOfOrder]
  exact ⟨hbare, rfl, exact_of_bare hbare rfl⟩

end Contributions

end NodeCatalog
