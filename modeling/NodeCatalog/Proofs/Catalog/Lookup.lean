import NodeCatalog.Proofs.Catalog.Edit
import NodeCatalog.Proofs.Container.Growth

/-!
# Looking up and editing by one path

A lookup and an edit go along a path on their own.  In every tree, whatever ids its siblings have,
they come to the same container, or break off at the same segment with the same fault
(`Catalog.editsFound`).  An edit that is made is seen along its path and below, and nowhere else:
every path that goes off to the side is looked up as before, and the tree is the same but for what
the container holds.

`Renewed` says which tree has other contents in one place, level by level along the address, and
`reach_modifyAt_of_apart` compares two paths: while they have the same ids they go through the same
categories, and from then on through different ones.
-/

namespace NodeCatalog

namespace Container

/-! ### What keys tell of a segment -/

theorem contains_iff {k : Container} {id : String} :
    k.contains id = true ↔ (id, .category) ∈ k.keys ∨ (id, .leaf) ∈ k.keys := by
  rw [contains, List.any_eq_true, keys, List.mem_map, List.mem_map]
  constructor
  · rintro ⟨e, he, hid⟩
    obtain rfl := beq_iff_eq.mp hid
    cases e with
    | category c sorted entries => exact .inl ⟨_, he, rfl⟩
    | template t => exact .inr ⟨_, he, rfl⟩
  · rintro (⟨e, he, hkey⟩ | ⟨e, he, hkey⟩)
    all_goals exact ⟨e, he, beq_iff_eq.mpr (Prod.mk.inj hkey).1⟩

/-- A segment that names no category is that of a template, or of nothing. -/
theorem segmentFault_of_not_mem {k : Container} {segment : String}
    (h : (segment, .category) ∉ k.keys) (path : String) :
    k.segmentFault segment path =
      if (segment, .leaf) ∈ k.keys then .notACategory segment path
      else .segmentNotFound segment path := by
  rw [segmentFault]
  refine if_congr ?_ rfl rfl
  rw [contains_iff, or_iff_right h]

/-- A segment that names a category leads into the first one with its id. -/
theorem reach_cons_of_position? {k inner : Container} {id : String} {i : Nat}
    (hi : k.position? id = some i) (hinner : k.inner? i = some inner) (path : String)
    (ids : List String) : k.reach path (id :: ids) = inner.reach path ids := by
  obtain ⟨c, next, hc, hnext, -⟩ := category?_of_position? hi
  obtain rfl := Option.some.inj (hinner.symm.trans hnext)
  rw [reach, hc]

theorem reach_cons_of_not_mem {k : Container} {segment : String}
    (h : (segment, .category) ∉ k.keys) (path : String) (back : List String) :
    k.reach path (segment :: back) =
      .error (if (segment, .leaf) ∈ k.keys then .notACategory segment path
        else .segmentNotFound segment path) := by
  rw [reach, category?_eq_none_iff.mpr h, ← segmentFault_of_not_mem h]

/-! ### Where a path breaks off -/

/-- The segments of a path lead to a container that has no category with the id of the segment that
comes next.  The fault names this segment and the path, and tells whether a template has the id. -/
def BreaksOff (k : Container) (path : String) (fault : Fault) : Prop :=
  ∃ front segment back a x, Path.segments path = front ++ segment :: back ∧
    k.trace front = some a ∧ k.at? a = some x ∧ (segment, .category) ∉ x.keys ∧
    fault = if (segment, .leaf) ∈ x.keys then .notACategory segment path
      else .segmentNotFound segment path

theorem reach_eq_error_iff {k : Container} {path : String} {fault : Fault} :
    k.reach path (Path.segments path) = .error fault ↔ k.BreaksOff path fault := by
  constructor
  · intro h
    obtain ⟨front, segment, back, x, hpath, hx, hsegment, rfl⟩ := exists_of_reach_error h
    obtain ⟨a, ha, hat⟩ := reach_eq_ok_iff.mp hx
    have hkeys := category?_eq_none_iff.mp hsegment
    exact ⟨front, segment, back, a, x, hpath, ha, hat, hkeys, segmentFault_of_not_mem hkeys path⟩
  · rintro ⟨front, segment, back, a, x, hpath, ha, hat, hkeys, rfl⟩
    rw [hpath, reach_append (reach_of_trace ha hat path), reach_cons_of_not_mem hkeys]

/-! ### What a change leaves -/

/-- The second tree is the first one with other contents at an address.  On the way there each
container sorts as before and holds the same entries in the same order, but for the one that the
address goes through: this is declared as before, and has other contents further down. -/
inductive Renewed (contents : Container) : List Nat → Container → Container → Prop
  | here (k : Container) : Renewed contents [] k contents
  | inside {i : Nat} {a : List Nat} {k inner inner' : Container} {c : Category}
      (category : k.entries[i]? = some (.category c inner.sorted inner.entries))
      (renewed : Renewed contents a inner inner') :
      Renewed contents (i :: a) k
        ⟨k.sorted, k.entries.set i (.category c inner'.sorted inner'.entries)⟩

theorem renewed_modifyAt {k x : Container} {a : List Nat} (h : k.at? a = some x)
    (f : Container → Container) : Renewed (f x) a k (k.modifyAt f a) := by
  induction a generalizing k with
  | nil =>
    obtain rfl := Option.some.inj h
    exact .here k
  | cons i a ih =>
    obtain ⟨c, next, hc, -, ha⟩ := exists_of_at?_cons h
    rw [modifyAt, modifyInner, List.modify_eq_set_getElem?, hc]
    exact .inside hc (ih ha)

/-- The container that is changed is found where it was. -/
theorem trace_modifyAt_self {k : Container} {ids : List String} {a : List Nat}
    (h : k.trace ids = some a) (f : Container → Container) :
    (k.modifyAt f a).trace ids = some a := by
  induction ids generalizing k a with
  | nil => rw [← h]; rfl
  | cons id ids ih =>
    obtain ⟨i, inner, b, hi, hinner, hb, rfl⟩ := trace_cons_eq_some_iff.mp h
    refine trace_cons_eq_some_iff.mpr ⟨i, inner.modifyAt f b, b, ?_, ?_, ih hb, rfl⟩
    · rw [modifyAt, position?_modifyInner, hi]
    · rw [modifyAt, inner?_modifyInner_self, hinner, Option.map_some]

/-- A path goes on in the container that is changed as it goes on in its new contents. -/
theorem reach_modifyAt_append {k x : Container} {ids : List String} {a : List Nat}
    (h : k.trace ids = some a) (ha : k.at? a = some x) (f : Container → Container) (path : String)
    (more : List String) : (k.modifyAt f a).reach path (ids ++ more) = (f x).reach path more := by
  have hat : (k.modifyAt f a).at? a = some (f x) := by rw [at?_modifyAt, ha, Option.map_some]
  exact reach_append (reach_of_trace (trace_modifyAt_self h f) hat path) more

/-- A path is followed alike in trees with the same keys if what it goes through is followed
alike. -/
theorem reach_cons_congr {k k' : Container} (hkeys : k'.keys = k.keys) {id path : String}
    {ids : List String} (hinner : ∀ i inner, k.position? id = some i → k.inner? i = some inner →
      ∃ inner', k'.inner? i = some inner' ∧ inner'.reach path ids = inner.reach path ids) :
    k'.reach path (id :: ids) = k.reach path (id :: ids) := by
  by_cases hmem : (id, .category) ∈ k.keys
  · obtain ⟨i, inner, hi, hk⟩ := exists_position?_of_mem_keys hmem
    obtain ⟨inner', hk', hreach⟩ := hinner i inner hi hk
    have hi' : k'.position? id = some i := by rw [position?, hkeys, ← position?, hi]
    rw [reach_cons_of_position? hi hk, reach_cons_of_position? hi' hk', hreach]
  · rw [reach_cons_of_not_mem hmem, reach_cons_of_not_mem (hkeys ▸ hmem), hkeys]

/-- A path is followed as before if it neither ends above the container that is changed nor goes
through it. -/
theorem reach_modifyAt_of_apart {k : Container} {ids other : List String} {a : List Nat}
    (h : k.trace ids = some a) (habove : ¬ other <+: ids) (hbelow : ¬ ids <+: other)
    (f : Container → Container) (path : String) :
    (k.modifyAt f a).reach path other = k.reach path other := by
  induction ids generalizing k a other with
  | nil => exact absurd List.nil_prefix hbelow
  | cons id ids ih =>
    rcases other with _ | ⟨id', other⟩
    · exact absurd List.nil_prefix habove
    obtain ⟨i, inner, b, hi, hinner, hb, rfl⟩ := trace_cons_eq_some_iff.mp h
    refine reach_cons_congr (keys_modifyInner i (modifyAt f b) k) fun j next hj hnext => ?_
    by_cases hij : i = j
    · -- both paths go through one category, so they part below it
      subst hij
      obtain rfl := Option.some.inj (hinner.symm.trans hnext)
      have hkey := (position?_eq_some_iff.mp hi).1.symm.trans (position?_eq_some_iff.mp hj).1
      obtain rfl : id = id' := (Prod.mk.inj (Option.some.inj hkey)).1
      rw [List.cons_prefix_cons, not_and] at habove hbelow
      refine ⟨inner.modifyAt f b, ?_, ih hb (habove rfl) (hbelow rfl)⟩
      rw [inner?_modifyInner_self, hinner, Option.map_some]
    · refine ⟨next, ?_, rfl⟩
      rw [inner?_modifyInner_of_ne hij, hnext]

end Container

namespace Catalog

open Container

/-! ### Lookups before and after an edit -/

/-- In the second catalog the container that a path leads to has been given contents, and nothing
else has been done. -/
structure Refilled (cat now : Catalog) (path : String) (contents : Container) : Prop where
  settings : now.settings = cat.settings
  /-- The tree is as it was, but for the contents. -/
  renewed : ∃ a, cat.root.trace (Path.segments path) = some a ∧
    Renewed contents a cat.root now.root
  /-- However the path is written, it leads to the contents. -/
  here (q : String) (h : Path.segments q = Path.segments path) : now.containerAt q = .ok contents
  /-- A path that continues it goes on in the contents. -/
  further (q : String) (more : List String) (h : Path.segments q = Path.segments path ++ more) :
    now.containerAt q = contents.reach q more
  /-- A path that neither continues it nor is continued by it is looked up as before. -/
  apart (q : String) (habove : ¬ Path.segments q <+: Path.segments path)
    (hbelow : ¬ Path.segments path <+: Path.segments q) : now.containerAt q = cat.containerAt q

/-- What an edit by a path has to do with looking the path up. -/
structure EditsFound (cat : Catalog) (path : String) : Prop where
  /-- The edit answers what the change answers of the container that is looked up.  If there is
  none, both fail alike. -/
  answer {β : Type} (f : Container → β × Container) :
    (cat.editAt path f).answer = (cat.containerAt path).map fun k => (f k).1
  /-- There is none exactly if the path breaks off. -/
  fault_iff (fault : Fault) :
    cat.containerAt path = .error fault ↔ cat.root.BreaksOff path fault
  /-- Then nothing is changed. -/
  refused {β : Type} (f : Container → β × Container) (fault : Fault)
    (h : cat.containerAt path = .error fault) : (cat.editAt path f).catalog = cat
  /-- If it does not, the container gets the contents that the change makes of it. -/
  refilled {β : Type} (f : Container → β × Container) (k : Container)
    (h : cat.containerAt path = .ok k) : cat.Refilled (cat.editAt path f).catalog path (f k).2

theorem refilled_of_trace {cat : Catalog} {path : String} {a : List Nat} {k : Container}
    (ha : cat.root.trace (Path.segments path) = some a) (hk : cat.root.at? a = some k)
    (f : Container → Container) :
    cat.Refilled { cat with root := cat.root.modifyAt f a } path (f k) where
  settings := rfl
  renewed := ⟨a, ha, renewed_modifyAt hk f⟩
  here q h := by
    rw [containerAt, h, ← List.append_nil (Path.segments path), reach_modifyAt_append ha hk, reach]
  further q more h := by rw [containerAt, h, reach_modifyAt_append ha hk]
  apart q habove hbelow := reach_modifyAt_of_apart ha habove hbelow f q

/-- In every tree a path is edited where it is looked up, and fails where and as the lookup fails.
What is edited is found by the same path, and nothing outside of it is changed. -/
theorem editsFound (cat : Catalog) (path : String) : cat.EditsFound path where
  answer f := by
    rcases h : cat.containerAt path with fault | k
    · rw [editAt, edit_eq_error_iff.mpr h]
      rfl
    · obtain ⟨a, ha, hk⟩ := reach_eq_ok_iff.mp h
      rw [editAt_of_trace ha hk]
      rfl
  fault_iff fault := reach_eq_error_iff
  refused f fault h := by rw [editAt, edit_eq_error_iff.mpr h]
  refilled f k h := by
    obtain ⟨a, ha, hk⟩ := reach_eq_ok_iff.mp h
    rw [editAt_of_trace ha hk]
    exact refilled_of_trace ha hk fun x => (f x).2

end Catalog

end NodeCatalog
