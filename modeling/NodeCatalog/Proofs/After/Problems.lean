import NodeCatalog.Proofs.After.Arena

/-!
# The problem set

Of each group the resolved items come first and the others last, sorted (`order_of_nodup`).  So the
problems are just the items that are not resolved, and they stand at the end of their group
(`order_problems`).
-/

namespace NodeCatalog.After

variable {α : Type u} {v : View α} {items : List α}

theorem View.mem_ofKind {k : Kind} {a : α} : a ∈ v.ofKind k items ↔ a ∈ items ∧ v.kind a = k := by
  simp [View.ofKind]

/-! ### One group -/

theorem mem_placed_iff (hids : (items.map v.id).Nodup) {a : α} :
    a ∈ v.placed items ↔ Resolved v items a := by
  constructor
  · refine (draw_preOrder hids).1.forall_mem (fun b hb => ?_) (fun b hb c hc => ?_) a
    · obtain ⟨hb, hroot⟩ := View.mem_siblings.mp hb
      exact .first hb hroot
    · obtain ⟨hc, hafter, -⟩ := View.mem_below.mp hc
      exact .next hc hb hafter
  · intro h
    have ha := (placed_perm hids).mem_iff.mpr h.mem
    exact (List.mem_append.mp ha).resolve_right fun hstranded =>
      (View.mem_stranded.mp hstranded).2 h

theorem mem_problems_iff {a : α} : a ∈ v.problems items ↔ a ∈ items ∧ ¬Resolved v items a := by
  rw [View.problems, View.mem_sort, View.mem_stranded]

/-- A group in its final order is what it was before. -/
theorem placed_append_problems_perm (hids : (items.map v.id).Nodup) :
    (v.placed items ++ v.problems items).Perm items :=
  ((v.sort_perm _).append_left _).trans (placed_perm hids)

theorem nodup_placed_append_problems (hids : (items.map v.id).Nodup) :
    (v.placed items ++ v.problems items).Nodup :=
  (placed_append_problems_perm hids).nodup_iff.mpr (List.Nodup.of_map _ hids)

/-! ### Both groups -/

/-- Both groups are ordered as if each were alone. -/
theorem order_of_orderGroup {categories leaves : Ordered α}
    (hcategories : orderGroup v (v.ofKind .category items) = .ok categories)
    (hleaves : orderGroup v (v.ofKind .leaf items) = .ok leaves) :
    order v items = .ok (categories.append leaves) := by
  rw [order, hcategories, hleaves]
  rfl

/-- The items of both groups in their final order. -/
noncomputable def View.ordered (v : View α) (items : List α) : List α :=
  (v.placed (v.ofKind .category items) ++ v.problems (v.ofKind .category items)) ++
    (v.placed (v.ofKind .leaf items) ++ v.problems (v.ofKind .leaf items))

/-- Items whose ids differ within each group are ordered: first the categories, then the leaves, and
of both the resolved ones in pre-order before the others, sorted. -/
theorem order_of_nodup (hids : ∀ k, ((v.ofKind k items).map v.id).Nodup) :
    order v items = .ok
      { items := v.ordered items
        problems := v.problems (v.ofKind .category items) ++ v.problems (v.ofKind .leaf items) } :=
  order_of_orderGroup (orderGroup_of_nodup v (hids _)) (orderGroup_of_nodup v (hids _))

/-- The placed items of a group stand in one piece. -/
theorem exists_ordered_eq (v : View α) (items : List α) (k : Kind) :
    ∃ front back, v.ordered items = front ++ (v.placed (v.ofKind k items) ++ back) := by
  rw [View.ordered]
  cases k with
  | category => exact ⟨[], _, List.append_assoc _ _ _⟩
  | leaf => exact ⟨_, _, rfl⟩

/-- Both groups in their final order hold no item twice. -/
theorem nodup_ordered (hids : ∀ k, ((v.ofKind k items).map v.id).Nodup) :
    (v.ordered items).Nodup := by
  rw [View.ordered, List.nodup_append]
  refine ⟨nodup_placed_append_problems (hids _), nodup_placed_append_problems (hids _), ?_⟩
  rintro a hcategory b hleaf rfl
  rw [(placed_append_problems_perm (hids _)).mem_iff, View.mem_ofKind] at hcategory hleaf
  cases hcategory.2.symm.trans hleaf.2

/-- The problems are the items that are not resolved, each once, the categories first and each group
sorted; and each group consists of its resolved items, followed by its problems. -/
theorem order_problems [Std.TransCmp v.compare]
    (hids : ∀ k, ((v.ofKind k items).map v.id).Nodup) :
    ∃ resolved problems : Kind → List α,
      order v items = .ok
        { items := (resolved .category ++ problems .category) ++ (resolved .leaf ++ problems .leaf)
          problems := problems .category ++ problems .leaf } ∧
      ∀ k,
        ((resolved k).Nodup ∧ ∀ a, a ∈ resolved k ↔ Resolved v (v.ofKind k items) a) ∧
        ((problems k).Nodup ∧
          ∀ a, a ∈ problems k ↔ (a ∈ items ∧ v.kind a = k) ∧ ¬Resolved v (v.ofKind k items) a) ∧
        (problems k).Pairwise fun a b => v.le a b = true := by
  refine ⟨fun k => v.placed (v.ofKind k items), fun k => v.problems (v.ofKind k items),
    order_of_nodup hids, fun k => ?_⟩
  have hnodup := List.nodup_append.mp (nodup_placed_append_problems (hids k))
  refine ⟨⟨hnodup.1, fun a => mem_placed_iff (hids k)⟩, ⟨hnodup.2.1, fun a => ?_⟩, ?_⟩
  · rw [mem_problems_iff, View.mem_ofKind]
  · exact v.pairwise_sort _

/-- Items of both groups, some with the same ids, that cannot all be placed. -/
def Item.mixed : List Item :=
  [⟨"b", "B", "a", .leaf⟩, ⟨"a", "A", "", .category⟩, ⟨"c", "C", "c", .category⟩,
    ⟨"b", "B", "a", .category⟩, ⟨"d", "D", "c", .category⟩, ⟨"", "E", "", .leaf⟩]

theorem order_problems_mixed :
    (∀ k, ((Item.view.ofKind k Item.mixed).map Item.view.id).Nodup) ∧
      ∃ resolved problems : Kind → List Item,
        order Item.view Item.mixed = .ok
          { items := (resolved .category ++ problems .category) ++
              (resolved .leaf ++ problems .leaf)
            problems := problems .category ++ problems .leaf } ∧
        ∀ k,
          ((resolved k).Nodup ∧
            ∀ a, a ∈ resolved k ↔ Resolved Item.view (Item.view.ofKind k Item.mixed) a) ∧
          ((problems k).Nodup ∧
            ∀ a, a ∈ problems k ↔ (a ∈ Item.mixed ∧ Item.view.kind a = k) ∧
              ¬Resolved Item.view (Item.view.ofKind k Item.mixed) a) ∧
          (problems k).Pairwise fun a b => Item.view.le a b = true := by
  have hids : ∀ k, ((Item.view.ofKind k Item.mixed).map Item.view.id).Nodup := by
    rintro (_ | _) <;> decide
  have : Std.TransCmp Item.view.compare := inferInstanceAs (Std.TransCmp (View.byName _ _))
  exact ⟨hids, order_problems hids⟩

end NodeCatalog.After
