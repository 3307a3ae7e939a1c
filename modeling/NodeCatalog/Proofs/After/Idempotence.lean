import NodeCatalog.Proofs.After.Outcome
import NodeCatalog.Proofs.After.Precedence

/-!
# Ordering again

Items in their final order stay there when they are ordered again (`order_order`), also where they
tie.  Ties are kept as the items are given, and in the final order siblings are given as they stand,
however much stands between them: the items that follow one item are, one behind the other, just its
sorted followers (`followers_final`).
-/

namespace NodeCatalog.After

variable {α : Type u} {v : View α} {items : List α}

/-- The items of a group in their final order. -/
noncomputable def View.final (v : View α) (items : List α) : List α :=
  v.placed items ++ v.problems items

section Final

variable (hids : (items.map v.id).Nodup)

include hids

theorem orderGroup_eq_final : orderGroup v items = .ok ⟨v.final items, v.problems items⟩ :=
  orderGroup_of_nodup v hids

theorem final_perm : (v.final items).Perm items :=
  placed_append_problems_perm hids

theorem nodup_ids_final : ((v.final items).map v.id).Nodup :=
  ((final_perm hids).map v.id).nodup_iff.mpr hids

/-- Followers that are resolved stand in the final order as siblings stand. -/
theorem followers_final {id : String} (hresolved : ∀ a ∈ v.siblings items id, Resolved v items a)
    (hsub : (v.siblings items id).Sublist (v.placed items)) :
    v.followers id (v.final items) = v.siblings items id := by
  have hnodup := (List.nodup_append.mp (nodup_placed_append_problems hids)).1
  have hmem : ∀ a ∈ items, (v.after a == id) = true ↔ a ∈ v.siblings items id := by
    intro a ha
    rw [View.mem_siblings, beq_iff_eq, and_iff_right ha]
  rw [View.final, View.followers, List.filter_append]
  rw [filter_eq_of_sublist hnodup hsub fun a ha => hmem a ((mem_placed_iff hids).mp ha).mem]
  rw [List.filter_eq_nil_iff.mpr, List.append_nil]
  intro a ha hafter
  obtain ⟨ha, hproblem⟩ := mem_problems_iff.mp ha
  exact hproblem (hresolved a ((hmem a ha).mp hafter))

/-- The items that are not resolved are still the last ones. -/
theorem stranded_final : v.stranded (v.final items) = v.problems items := by
  have hresolved : ∀ a, Resolved v (v.final items) a ↔ Resolved v items a := fun a =>
    resolved_iff_of_perm (final_perm hids)
  rw [View.stranded, View.final, List.filter_append, ← View.final]
  rw [List.filter_eq_nil_iff.mpr, List.nil_append, List.filter_eq_self.mpr]
  · intro a ha
    simpa [hresolved] using (mem_problems_iff.mp ha).2
  · intro a ha
    simpa [hresolved] using (mem_placed_iff hids).mp ha

variable [Std.TransCmp v.compare]

/-- Sorted followers that stand in the final order need not be sorted again. -/
theorem siblings_final {id : String} (hresolved : ∀ a ∈ v.siblings items id, Resolved v items a)
    (hsub : (v.siblings items id).Sublist (v.placed items)) :
    v.siblings (v.final items) id = v.siblings items id := by
  rw [View.siblings, followers_final hids hresolved hsub]
  exact View.sort_eq_self (v.pairwise_sort _)

theorem siblings_rootId_final :
    v.siblings (v.final items) rootId = v.siblings items rootId := by
  refine siblings_final hids (fun a ha => ?_) (draw_preOrder hids).1.roots_sublist
  obtain ⟨ha, hroot⟩ := View.mem_siblings.mp ha
  exact .first ha hroot

theorem below_final {a : α} (ha : a ∈ v.placed items) :
    v.below (v.final items) a = v.below items a := by
  have hsub := (draw_preOrder hids).1.children_sublist ha
  rw [View.below] at hsub ⊢
  rw [View.below]
  split at hsub
  · rename_i hroot
    rw [if_pos hroot, if_pos hroot]
  · rename_i hroot
    rw [if_neg hroot, if_neg hroot]
    refine siblings_final hids (fun b hb => ?_) hsub
    obtain ⟨hb, hafter⟩ := View.mem_siblings.mp hb
    exact .next hb ((mem_placed_iff hids).mp ha) hafter

/-- The resolved items are placed again as they stand. -/
theorem placed_final : v.placed (v.final items) = v.placed items := by
  have hagain := (draw_preOrder hids).1.congr fun a ha => below_final hids ha
  rw [← siblings_rootId_final hids] at hagain
  exact (draw_preOrder (nodup_ids_final hids)).1.unique hagain

theorem problems_final : v.problems (v.final items) = v.problems items := by
  rw [View.problems, stranded_final hids]
  exact View.sort_eq_self (v.pairwise_sort _)

end Final

/-- A group that is ordered stays as it is. -/
theorem orderGroup_orderGroup [Std.TransCmp v.compare] {out : Ordered α}
    (h : orderGroup v items = .ok out) : orderGroup v out.items = .ok out := by
  have hids := exists_orderGroup_eq_ok_iff.mp ⟨out, h⟩
  obtain rfl := Except.ok.inj ((orderGroup_eq_final hids).symm.trans h)
  rw [orderGroup_eq_final (nodup_ids_final hids), problems_final hids]
  rw [View.final, placed_final hids, problems_final hids, View.final]

/-- Items whose ids differ within each group can be ordered, and ordering them again changes
nothing. -/
theorem order_order [Std.TransCmp v.compare] (hids : ∀ k, ((v.ofKind k items).map v.id).Nodup) :
    ∃ out, order v items = .ok out ∧ order v out.items = .ok out := by
  obtain ⟨out, hout⟩ := exists_order_eq_ok_iff.mpr hids
  obtain ⟨hsplit, hgroups⟩ := groups_of_order hout
  have hagain : ∀ k, orderGroup v (v.ofKind k out.items) = .ok (out.ofKind v k) := fun k =>
    orderGroup_orderGroup (hgroups k)
  refine ⟨out, hout, ?_⟩
  rw [order_of_orderGroup (hagain .category) (hagain .leaf), ← hsplit]

theorem order_order_namesakes :
    Std.TransCmp Item.tied.compare ∧
      (∀ k, ((Item.tied.ofKind k Item.namesakes).map Item.tied.id).Nodup) ∧
      ∃ out, order Item.tied Item.namesakes = .ok out ∧ order Item.tied out.items = .ok out := by
  have hids : ∀ k, ((Item.tied.ofKind k Item.namesakes).map Item.tied.id).Nodup := by
    rintro (_ | _) <;> decide
  exact ⟨inferInstance, hids, order_order hids⟩

end NodeCatalog.After
