import Mathlib.Data.List.FinRange
import Mathlib.Data.List.Rotate
import NodeCatalog.Proofs.After.Problems

/-!
# What the order depends on

The order of items depends only on what their view tells of them: items that are seen through a
function are ordered like their images (`order_map`).  It fails exactly if two items of a group
share an id (`exists_order_eq_ok_iff`), and keeps all items (`perm_of_order`).  If items that
compare as equal have the same id, it does not depend on how the items were given (`order_perm`);
by name and id this is so for all items that can be ordered (`order_eq_of_perm`).
-/

namespace NodeCatalog.After

variable {α : Type u} {β : Type v}

/-- Ordered items seen through a function. -/
def Ordered.map (f : α → β) (o : Ordered α) : Ordered β :=
  ⟨o.items.map f, o.problems.map f⟩

/-- Items of a group of which two share an id are refused. -/
theorem orderGroup_eq_error {v : View α} {items : List α} (hids : ¬(items.map v.id).Nodup) :
    ∃ id, firstRepeated [] (items.map v.id) = some id ∧ orderGroup v items = .error ⟨id⟩ := by
  cases hfirst : firstRepeated [] (items.map v.id) with
  | none => exact absurd (firstRepeated_eq_none_iff.mp hfirst).1 hids
  | some id => exact ⟨id, rfl, by rw [orderGroup, hfirst]⟩

/-! ### Items seen through a function -/

section Map

variable (v : View α) (f : β → α)

theorem View.sort_map (items : List β) :
    v.sort (items.map f) = ((v.comap f).sort items).map f :=
  (List.map_mergeSort (s := v.le) fun _ _ _ _ => rfl).symm

theorem View.siblings_map (items : List β) (id : String) :
    v.siblings (items.map f) id = ((v.comap f).siblings items id).map f := by
  rw [siblings, followers, List.filter_map, sort_map]
  rfl

theorem View.below_map (items : List β) (b : β) :
    v.below (items.map f) (f b) = ((v.comap f).below items b).map f := by
  rw [below, below, apply_ite (List.map f), ← siblings_map]
  rfl

theorem View.ofKind_map (k : Kind) (items : List β) :
    v.ofKind k (items.map f) = ((v.comap f).ofKind k items).map f :=
  List.filter_map

theorem resolved_map_iff {items : List β} {b : β} (hb : b ∈ items) :
    Resolved v (items.map f) (f b) ↔ Resolved (v.comap f) items b := by
  constructor
  · intro h
    generalize hfb : f b = a at h
    induction h generalizing b with
    | first _ hroot =>
      subst hfb
      exact .first hb hroot
    | next _ hresolved heq ih =>
      subst hfb
      obtain ⟨c, hc, rfl⟩ := List.mem_map.mp hresolved.mem
      exact .next hb (ih hc rfl) heq
  · intro h
    induction h with
    | first hb hroot => exact .first (List.mem_map_of_mem hb) hroot
    | next hb hc heq ih => exact .next (List.mem_map_of_mem hb) (ih hc.mem) heq

theorem View.problems_map (items : List β) :
    v.problems (items.map f) = ((v.comap f).problems items).map f := by
  have hstranded : v.stranded (items.map f) = ((v.comap f).stranded items).map f := by
    rw [stranded, List.filter_map, stranded]
    congr 1
    refine List.filter_congr fun b hb => ?_
    rw [Function.comp_apply, decide_eq_decide, resolved_map_iff v f hb]
  rw [problems, hstranded, sort_map, problems]

variable {v f}

theorem View.placed_map {items : List β} (hids : ((items.map f).map v.id).Nodup) :
    v.placed (items.map f) = ((v.comap f).placed items).map f := by
  have hids' : (items.map (v.comap f).id).Nodup := by rwa [List.map_map] at hids
  have hmap := (draw_preOrder hids').1.map fun b _ => v.below_map f items b
  rw [← siblings_map] at hmap
  exact (draw_preOrder hids).1.unique hmap

/-- The positions of items have the ids of the items. -/
theorem View.nodup_ids_positions (v : View α) {items : List α} (hids : (items.map v.id).Nodup) :
    ((List.finRange items.length).map (v.comap items.get).id).Nodup := by
  rw [← List.map_get_finRange items, List.map_map] at hids
  exact hids

variable (v f)

theorem orderGroup_map (items : List β) :
    orderGroup v (items.map f) = (orderGroup (v.comap f) items).map (Ordered.map f) := by
  by_cases hids : ((items.map f).map v.id).Nodup
  · have hids' : (items.map (v.comap f).id).Nodup := by rwa [List.map_map] at hids
    rw [orderGroup_of_nodup v hids, orderGroup_of_nodup _ hids', View.placed_map hids,
      View.problems_map, ← List.map_append]
    rfl
  · obtain ⟨id, hid, herror⟩ := orderGroup_eq_error hids
    rw [List.map_map] at hid hids
    obtain ⟨id', hid', herror'⟩ := orderGroup_eq_error (v := v.comap f) hids
    obtain rfl := Option.some.inj (hid.symm.trans hid')
    rw [herror, herror']
    rfl

/-- Items that are seen through a function are ordered like their images. -/
theorem order_map (items : List β) :
    order v (items.map f) = (order (v.comap f) items).map (Ordered.map f) := by
  rw [order, View.ofKind_map, View.ofKind_map, orderGroup_map, orderGroup_map, order]
  rcases orderGroup (v.comap f) ((v.comap f).ofKind .category items) with fault | categories
  · rfl
  rcases orderGroup (v.comap f) ((v.comap f).ofKind .leaf items) with fault | leaves
  · rfl
  simp [bind, Except.bind, pure, Except.pure, Except.map, Ordered.append, Ordered.map]

end Map

/-! ### When the order fails -/

variable {v : View α} {items : List α}

/-- The order of both groups fails exactly if two items of a group share an id. -/
theorem exists_order_eq_ok_iff :
    (∃ out, order v items = .ok out) ↔ ∀ k, ((v.ofKind k items).map v.id).Nodup := by
  refine ⟨?_, fun hids => ⟨_, order_of_nodup hids⟩⟩
  rintro ⟨out, hout⟩ k
  by_contra hids
  obtain ⟨id, -, herror⟩ := orderGroup_eq_error hids
  rw [order] at hout
  cases k with
  | category =>
    rw [herror] at hout
    cases hout
  | leaf =>
    cases hcategories : orderGroup v (v.ofKind .category items) with
    | error _ =>
      rw [hcategories] at hout
      cases hout
    | ok _ =>
      rw [hcategories, herror] at hout
      cases hout

/-- The order keeps all items. -/
theorem perm_of_order {out : Ordered α} (h : order v items = .ok out) :
    out.items.Perm items := by
  have hids := exists_order_eq_ok_iff.mp ⟨out, h⟩
  obtain rfl := Except.ok.inj ((order_of_nodup hids).symm.trans h)
  have hleaf : v.ofKind .leaf items = items.filter fun a => !(v.kind a == .category) := by
    refine List.filter_congr fun a _ => ?_
    cases v.kind a <;> rfl
  refine ((placed_append_problems_perm (hids _)).append
    (placed_append_problems_perm (hids _))).trans ?_
  rw [hleaf]
  exact List.filter_append_perm _ items

/-- The problems of both groups are the items that are not resolved in their group, each once. -/
theorem problems_of_order {out : Ordered α} (h : order v items = .ok out) :
    out.problems.Nodup ∧
      ∀ a, a ∈ out.problems ↔ a ∈ items ∧ ¬Resolved v (v.ofKind (v.kind a) items) a := by
  have hids := exists_order_eq_ok_iff.mp ⟨out, h⟩
  obtain rfl := Except.ok.inj ((order_of_nodup hids).symm.trans h)
  have hmem : ∀ k a, a ∈ v.problems (v.ofKind k items) ↔
      (a ∈ items ∧ v.kind a = k) ∧ ¬Resolved v (v.ofKind k items) a := fun k a =>
    mem_problems_iff.trans (and_congr_left' View.mem_ofKind)
  have hnodup : ∀ k, (v.problems (v.ofKind k items)).Nodup := fun k =>
    (List.nodup_append.mp (nodup_placed_append_problems (hids k))).2.1
  constructor
  · refine List.nodup_append.mpr ⟨hnodup .category, hnodup .leaf, ?_⟩
    rintro a hcategory b hleaf rfl
    cases ((hmem _ _).mp hcategory).1.2.symm.trans ((hmem _ _).mp hleaf).1.2
  · intro a
    rw [List.mem_append, hmem, hmem]
    constructor
    · rintro (⟨⟨ha, hkind⟩, h⟩ | ⟨⟨ha, hkind⟩, h⟩) <;> exact ⟨ha, hkind ▸ h⟩
    · rintro ⟨ha, h⟩
      cases hkind : v.kind a with
      | category => exact .inl ⟨⟨ha, rfl⟩, hkind ▸ h⟩
      | leaf => exact .inr ⟨⟨ha, rfl⟩, hkind ▸ h⟩

/-- Telling the problems apart from all other items leaves just them, in their order. -/
theorem filter_problems_of_order {out : Ordered α} (h : order v items = .ok out) {p : α → Bool}
    (hp : ∀ a, p a = true ↔ a ∈ out.problems) : out.items.filter p = out.problems := by
  have hids := exists_order_eq_ok_iff.mp ⟨out, h⟩
  have hmem := (problems_of_order h).2
  obtain rfl := Except.ok.inj ((order_of_nodup hids).symm.trans h)
  have hplaced : ∀ k, (v.placed (v.ofKind k items)).filter p = [] := by
    intro k
    refine List.filter_eq_nil_iff.mpr fun a ha => ?_
    have hresolved := (mem_placed_iff (hids k)).mp ha
    obtain ⟨-, rfl⟩ := View.mem_ofKind.mp hresolved.mem
    exact fun htrue => ((hmem a).mp ((hp a).mp htrue)).2 hresolved
  have hproblems : (v.problems (v.ofKind .category items) ++
      v.problems (v.ofKind .leaf items)).filter p =
        v.problems (v.ofKind .category items) ++ v.problems (v.ofKind .leaf items) :=
    List.filter_eq_self.mpr fun a ha => (hp a).mpr ha
  rw [List.filter_append] at hproblems
  simp only [View.ordered, List.filter_append, hplaced, List.nil_append, hproblems]

/-! ### Items given in another order -/

section Perm

variable {items' : List α} (hperm : items.Perm items')

include hperm

theorem resolved_iff_of_perm {a : α} : Resolved v items a ↔ Resolved v items' a := by
  constructor
  · intro h
    induction h with
    | first ha hroot => exact .first (hperm.mem_iff.mp ha) hroot
    | next ha _ heq ih => exact .next (hperm.mem_iff.mp ha) ih heq
  · intro h
    induction h with
    | first ha hroot => exact .first (hperm.mem_iff.mpr ha) hroot
    | next ha _ heq ih => exact .next (hperm.mem_iff.mpr ha) ih heq

variable [Std.TransCmp v.compare] (hcompare : ∀ a b, v.compare a b = .eq → v.id a = v.id b)
  (hids : (items.map v.id).Nodup)

include hcompare hids

/-- Sorted parts of the items do not depend on how these were given. -/
theorem sort_filter_eq_of_perm (p : α → Bool) :
    v.sort (items.filter p) = v.sort (items'.filter p) := by
  refine View.sort_eq_of_perm (hperm.filter p) fun a ha b hb heq => ?_
  exact List.inj_on_of_nodup_map hids (List.mem_of_mem_filter ha) (List.mem_of_mem_filter hb)
    (hcompare a b heq)

theorem placed_eq_of_perm : v.placed items = v.placed items' := by
  have hids' : (items'.map v.id).Nodup := (hperm.map v.id).nodup_iff.mp hids
  have hsiblings : v.siblings items = v.siblings items' := funext fun id =>
    sort_filter_eq_of_perm hperm hcompare hids _
  have hbelow : v.below items = v.below items' := by
    funext a
    rw [View.below, View.below, hsiblings]
  have hplaced := (draw_preOrder hids).1
  rw [hbelow, hsiblings] at hplaced
  exact hplaced.unique (draw_preOrder hids').1

theorem problems_eq_of_perm : v.problems items = v.problems items' := by
  classical
  have hstranded : v.stranded items' = items'.filter fun a => decide ¬Resolved v items a := by
    refine List.filter_congr fun a _ => ?_
    rw [decide_eq_decide, resolved_iff_of_perm hperm]
  rw [View.problems, View.problems, hstranded, View.stranded]
  exact sort_filter_eq_of_perm hperm hcompare hids _

end Perm

/-- If items that compare as equal have the same id, the order does not depend on how the items were
given. -/
theorem order_perm [Std.TransCmp v.compare] {items' : List α}
    (hcompare : ∀ a b, v.compare a b = .eq → v.id a = v.id b) (hperm : items.Perm items') :
    (order v items).toOption = (order v items').toOption := by
  have hkind : ∀ k, (v.ofKind k items).Perm (v.ofKind k items') := fun k => hperm.filter _
  by_cases hids : ∀ k, ((v.ofKind k items).map v.id).Nodup
  · have hids' : ∀ k, ((v.ofKind k items').map v.id).Nodup := fun k =>
      ((hkind k).map v.id).nodup_iff.mp (hids k)
    have hplaced := fun k => placed_eq_of_perm (hkind k) hcompare (hids k)
    have hproblems := fun k => problems_eq_of_perm (hkind k) hcompare (hids k)
    rw [order_of_nodup hids, order_of_nodup hids', View.ordered, View.ordered]
    simp only [hplaced, hproblems]
  · have hids' : ¬∀ k, ((v.ofKind k items').map v.id).Nodup := fun h =>
      hids fun k => ((hkind k).map v.id).nodup_iff.mpr (h k)
    rw [← exists_order_eq_ok_iff] at hids hids'
    cases hout : order v items with
    | ok out => exact absurd ⟨out, hout⟩ hids
    | error _ =>
      cases hout' : order v items' with
      | ok out => exact absurd ⟨out, hout'⟩ hids'
      | error _ => rfl

/-- Items compared by name and id, whose ids differ within each group, are ordered, and it does not
matter in which order they were given. -/
theorem order_eq_of_perm {name : α → String} (hcompare : v.compare = View.byName name v.id)
    (hids : ∀ k, ((v.ofKind k items).map v.id).Nodup) {items' : List α}
    (hperm : items.Perm items') :
    ∃ out, order v items = .ok out ∧ order v items' = .ok out := by
  have htrans : Std.TransCmp v.compare := hcompare ▸ inferInstance
  have hequal : ∀ a b, v.compare a b = .eq → v.id a = v.id b := by
    intro a b heq
    rw [hcompare] at heq
    exact (View.eq_of_byName heq).2
  have hids' : ∀ k, ((v.ofKind k items').map v.id).Nodup := fun k =>
    ((hperm.filter _).map v.id).nodup_iff.mp (hids k)
  obtain ⟨out, hout⟩ := exists_order_eq_ok_iff.mpr hids
  obtain ⟨out', hout'⟩ := exists_order_eq_ok_iff.mpr hids'
  have hsame := order_perm hequal hperm
  rw [hout, hout'] at hsame
  obtain rfl : out = out' := Option.some.inj hsame
  exact ⟨out, hout, hout'⟩

/-- Items of both groups that all have one name: siblings of one item, a cycle, an item that follows
itself, one that follows nothing that is there, and ids that occur in both groups. -/
def Item.namesakes : List Item :=
  [⟨"c", "N", "a", .leaf⟩, ⟨"b", "N", "a", .leaf⟩, ⟨"x", "N", "y", .leaf⟩, ⟨"a", "N", "", .leaf⟩,
    ⟨"y", "N", "x", .leaf⟩, ⟨"o", "N", "gone", .leaf⟩, ⟨"", "N", "", .leaf⟩,
    ⟨"b", "N", "", .category⟩, ⟨"a", "N", "b", .category⟩, ⟨"x", "N", "x", .category⟩]

theorem order_eq_of_perm_namesakes :
    (∀ k, ((Item.view.ofKind k Item.namesakes).map Item.view.id).Nodup) ∧
      Item.namesakes.Perm (Item.namesakes.rotate 4) ∧
      ∃ out, order Item.view Item.namesakes = .ok out ∧
        order Item.view (Item.namesakes.rotate 4) = .ok out := by
  have hids : ∀ k, ((Item.view.ofKind k Item.namesakes).map Item.view.id).Nodup := by
    rintro (_ | _) <;> decide
  have hperm : Item.namesakes.Perm (Item.namesakes.rotate 4) := (List.rotate_perm _ 4).symm
  exact ⟨hids, hperm, order_eq_of_perm rfl hids hperm⟩

end NodeCatalog.After
