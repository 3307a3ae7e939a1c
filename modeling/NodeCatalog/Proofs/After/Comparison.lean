import Mathlib.Data.List.Perm.Basic
import NodeCatalog.After.View

/-!
# Comparing siblings

The comparison of a view is meant to be a total preorder: `Std.TransCmp`.  Then sorted items stand
in its order, and where only equal items compare as equal, the order in which they were given does
not matter (`View.sort_eq_of_perm`).  Where items tie it does matter, but fewer items are sorted in
the same way (`View.sort_sublist_sort`), because ties are kept as they were given.  The comparison
by name and id is of the first kind, and it tells items with different ids apart.
-/

namespace NodeCatalog.After

variable {α : Type u} {β : Type v}

namespace View

variable {v : View α}

theorem sort_perm (v : View α) (items : List α) : (v.sort items).Perm items :=
  List.mergeSort_perm items v.le

@[simp] theorem mem_sort {items : List α} {a : α} : a ∈ v.sort items ↔ a ∈ items :=
  (v.sort_perm items).mem_iff

@[simp] theorem nodup_sort {items : List α} : (v.sort items).Nodup ↔ items.Nodup :=
  (v.sort_perm items).nodup_iff

theorem le_trans [Std.TransCmp v.compare] (a b c : α) (hab : v.le a b = true)
    (hbc : v.le b c = true) : v.le a c = true :=
  Std.TransCmp.isLE_trans hab hbc

theorem le_total [Std.TransCmp v.compare] (a b : α) : (v.le a b || v.le b a) = true := by
  have hswap : v.compare b a = (v.compare a b).swap := Std.OrientedCmp.eq_swap
  rw [le, le, hswap]
  cases v.compare a b <;> rfl

theorem pairwise_sort [Std.TransCmp v.compare] (items : List α) :
    (v.sort items).Pairwise fun a b => v.le a b = true :=
  List.pairwise_mergeSort v.le_trans v.le_total items

/-- Items that stand in order are not moved, whether they tie or not. -/
theorem sort_eq_self {items : List α} (h : items.Pairwise fun a b => v.le a b = true) :
    v.sort items = items :=
  List.mergeSort_of_pairwise h

/-- If items that compare as equal are equal, sorting does not depend on their order. -/
theorem sort_eq_of_perm [Std.TransCmp v.compare] {items items' : List α}
    (hperm : items.Perm items')
    (heq : ∀ a ∈ items, ∀ b ∈ items, v.compare a b = .eq → a = b) :
    v.sort items = v.sort items' := by
  refine List.Perm.eq_of_pairwise ?_ (v.pairwise_sort items) (v.pairwise_sort items') ?_
  · intro a b ha hb hab hba
    rw [mem_sort] at ha
    rw [mem_sort, ← hperm.mem_iff] at hb
    exact heq a ha b hb (Std.OrientedCmp.isLE_antisymm hab hba)
  · exact ((v.sort_perm items).trans hperm).trans (v.sort_perm items').symm

instance [Std.TransCmp v.compare] (f : β → α) : Std.TransCmp (v.comap f).compare where
  eq_swap {a b} := show v.compare (f a) (f b) = (v.compare (f b) (f a)).swap from
    Std.OrientedCmp.eq_swap
  isLE_trans {a b c} hab hbc := v.le_trans (f a) (f b) (f c) hab hbc

/-! ### Fewer items -/

section Fewer

variable [Std.TransCmp v.compare]

/-- One more item, given before all others, is put right behind those that must stand before it. -/
theorem exists_sort_cons (a : α) (items : List α) :
    ∃ front back, v.sort (a :: items) = front ++ a :: back ∧ v.sort items = front ++ back ∧
      (front ++ back).filter (fun b => !v.le a b) = front ∧
      (front ++ back).filter (fun b => v.le a b) = back := by
  obtain ⟨front, back, hcons, hitems, hfront⟩ := List.mergeSort_cons v.le_trans v.le_total a items
  have hsorted := v.pairwise_sort (a :: items)
  rw [sort, hcons, List.pairwise_append, List.pairwise_cons] at hsorted
  have hback : ∀ b ∈ back, v.le a b = true := hsorted.2.1.1
  refine ⟨front, back, hcons, hitems, ?_, ?_⟩
  · rw [List.filter_append, List.filter_eq_self.mpr hfront,
      List.filter_eq_nil_iff.mpr (by simpa using hback), List.append_nil]
  · rw [List.filter_append, List.filter_eq_self.mpr hback,
      List.filter_eq_nil_iff.mpr (by simpa using hfront), List.nil_append]

/-- Fewer items are sorted in the same way, also where they tie. -/
theorem sort_sublist_sort {items items' : List α} (h : items.Sublist items') :
    (v.sort items).Sublist (v.sort items') := by
  induction h with
  | slnil => exact .refl _
  | @cons items items' a _ ih =>
    obtain ⟨front, back, hcons, hitems, -, -⟩ := exists_sort_cons (v := v) a items'
    rw [hitems] at ih
    rw [hcons]
    exact ih.trans ((List.sublist_cons_self a back).append_left front)
  | @cons_cons items items' a _ ih =>
    obtain ⟨front, back, hcons, hitems, hfront, hback⟩ := exists_sort_cons (v := v) a items
    obtain ⟨front', back', hcons', hitems', hfront', hback'⟩ := exists_sort_cons (v := v) a items'
    rw [hitems, hitems'] at ih
    -- what must stand before the item, and what may stand behind it, are sublists each
    have hfronts := ih.filter fun b => !v.le a b
    have hbacks := ih.filter fun b => v.le a b
    rw [hfront, hfront'] at hfronts
    rw [hback, hback'] at hbacks
    rw [hcons, hcons']
    exact hfronts.append (hbacks.cons_cons a)

/-- It does not matter whether items are chosen before they are sorted or after. -/
theorem sort_filter (p : α → Bool) (items : List α) :
    v.sort (items.filter p) = (v.sort items).filter p := by
  have hchosen : (v.sort (items.filter p)).filter p = v.sort (items.filter p) :=
    List.filter_eq_self.mpr fun a ha => List.of_mem_filter (mem_sort.mp ha)
  have hsub : (v.sort (items.filter p)).Sublist ((v.sort items).filter p) :=
    hchosen ▸ (sort_sublist_sort List.filter_sublist).filter p
  refine hsub.eq_of_length ?_
  exact (v.sort_perm _).length_eq.trans ((v.sort_perm items).filter p).symm.length_eq

end Fewer

/-! ### By name and id -/

instance {name id : α → String} : Std.TransCmp (byName name id) :=
  inferInstanceAs (Std.TransCmp (compareLex (compareOn name) (compareOn id)))

theorem eq_of_byName {name id : α → String} {a b : α} (h : byName name id a b = .eq) :
    name a = name b ∧ id a = id b := by
  obtain ⟨hname, hid⟩ := Ordering.then_eq_eq.mp h
  exact ⟨Std.LawfulEqCmp.eq_of_compare hname, Std.LawfulEqCmp.eq_of_compare hid⟩

end View

/-- An item that consists of what the ordering asks of it. -/
structure Item where
  id : String
  name : String
  after : String
  kind : Kind := .leaf

/-- Items by name and id. -/
def Item.view : View Item where
  id := id
  after := after
  kind := kind
  compare := View.byName name id

end NodeCatalog.After
