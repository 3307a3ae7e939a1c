import NodeCatalog.Proofs.After.Invariance

/-!
# What ordering answers

Ordering is refused exactly if two items of one kind share an id, and then with the first id, the
categories before the leaves, that occurred before in its group (`order_eq_error_iff`).  Otherwise
nothing is lost: the answer holds each item once, the categories first, and both groups are what
they are when they are ordered alone.

Items may also be ordered by their positions and taken out of their slots afterwards, one by one,
where a position that came twice would give nothing the second time.  Each position comes once
(`positions_perm`), and so all items are taken (`takeSlots_positions`).
-/

namespace NodeCatalog.After

variable {α : Type u} {v : View α} {items : List α}

/-! ### The first repeated id -/

/-- An id is the first one in a list that occurs before itself. -/
def FirstRepeat (ids : List String) (id : String) : Prop :=
  ∃ front back, ids = front ++ id :: back ∧ front.Nodup ∧ id ∈ front

/-- The search for a repeated id stops at the first one that is seen before itself. -/
theorem firstRepeated_eq_some_iff {seen ids : List String} {id : String} :
    firstRepeated seen ids = some id ↔ ∃ front back, ids = front ++ id :: back ∧
      firstRepeated seen front = none ∧ (id ∈ front ∨ id ∈ seen) := by
  induction ids generalizing seen with
  | nil => simp [firstRepeated]
  | cons x ids ih =>
    rw [firstRepeated]
    split
    · rename_i hx
      constructor
      · intro h
        obtain rfl := Option.some.inj h
        exact ⟨[], ids, rfl, rfl, .inr hx⟩
      · rintro ⟨front, back, heq, hfront, -⟩
        cases front with
        | nil => rw [(List.cons.inj heq).1]
        | cons y front =>
          obtain ⟨rfl, -⟩ := List.cons.inj heq
          rw [firstRepeated, if_pos hx] at hfront
          cases hfront
    · rename_i hx
      rw [ih]
      constructor
      · rintro ⟨front, back, rfl, hfront, hid⟩
        refine ⟨x :: front, back, rfl, by rwa [firstRepeated, if_neg hx], ?_⟩
        simp only [List.mem_cons] at hid ⊢
        tauto
      · rintro ⟨front, back, heq, hfront, hid⟩
        cases front with
        | nil =>
          obtain ⟨rfl, -⟩ := List.cons.inj heq
          exact absurd (hid.resolve_left List.not_mem_nil) hx
        | cons y front =>
          obtain ⟨rfl, rfl⟩ := List.cons.inj heq
          rw [firstRepeated, if_neg hx] at hfront
          refine ⟨front, back, rfl, hfront, ?_⟩
          simp only [List.mem_cons] at hid ⊢
          tauto

theorem firstRepeated_nil_eq_some_iff {ids : List String} {id : String} :
    firstRepeated [] ids = some id ↔ FirstRepeat ids id := by
  simp only [firstRepeated_eq_some_iff, firstRepeated_eq_none_iff, List.not_mem_nil, FirstRepeat,
    not_false_eq_true, implies_true, and_true, or_false]

/-! ### When items are refused -/

theorem orderGroup_eq_error_iff {id : String} :
    orderGroup v items = .error ⟨id⟩ ↔ FirstRepeat (items.map v.id) id := by
  rw [← firstRepeated_nil_eq_some_iff, orderGroup]
  split
  · rename_i hfirst
    rw [hfirst, Except.error.injEq, Repeated.mk.injEq, Option.some.injEq]
  · rename_i hfirst
    simp [hfirst]

theorem exists_orderGroup_eq_ok_iff :
    (∃ out, orderGroup v items = .ok out) ↔ (items.map v.id).Nodup := by
  refine ⟨?_, fun hids => ⟨_, orderGroup_of_nodup v hids⟩⟩
  rintro ⟨out, hout⟩
  by_contra hids
  obtain ⟨id, -, herror⟩ := orderGroup_eq_error hids
  cases herror.symm.trans hout

/-- The leaves are looked at only if the categories are ordered. -/
theorem order_eq_error_iff {id : String} :
    order v items = .error ⟨id⟩ ↔
      FirstRepeat ((v.ofKind .category items).map v.id) id ∨
        ((v.ofKind .category items).map v.id).Nodup ∧
          FirstRepeat ((v.ofKind .leaf items).map v.id) id := by
  rw [← orderGroup_eq_error_iff, ← orderGroup_eq_error_iff, ← exists_orderGroup_eq_ok_iff, order]
  cases orderGroup v (v.ofKind .category items) with
  | error r => simp [bind, Except.bind]
  | ok categories =>
    cases orderGroup v (v.ofKind .leaf items) with
    | error r => simp [bind, Except.bind]
    | ok leaves => simp [bind, Except.bind, pure, Except.pure]

/-- The ids differ within each group exactly if no two items of one kind share an id. -/
theorem nodup_ofKind_iff :
    (∀ k, ((v.ofKind k items).map v.id).Nodup) ↔
      ∀ a b, [a, b].Sublist items → v.kind a = v.kind b → v.id a ≠ v.id b := by
  have hkind : ∀ k, ((v.ofKind k items).map v.id).Nodup ↔
      ∀ a b, [a, b].Sublist items → v.kind a = k → v.kind b = k → v.id a ≠ v.id b := by
    intro k
    rw [List.Nodup, List.pairwise_map, View.ofKind, List.pairwise_filter,
      List.pairwise_iff_forall_sublist]
    simp only [beq_iff_eq]
  simp only [hkind]
  constructor
  · exact fun h a b hab heq => h (v.kind b) a b hab heq rfl
  · exact fun h k a b hab ha hb => h a b hab (ha.trans hb.symm)

/-! ### Each group alone -/

/-- A group in its final order is what it was before. -/
theorem perm_of_orderGroup {out : Ordered α} (h : orderGroup v items = .ok out) :
    out.items.Perm items := by
  have hids := exists_orderGroup_eq_ok_iff.mp ⟨out, h⟩
  obtain rfl := Except.ok.inj ((orderGroup_of_nodup v hids).symm.trans h)
  exact placed_append_problems_perm hids

/-- The problems of a group are among its items. -/
theorem problems_subset_of_orderGroup {out : Ordered α} (h : orderGroup v items = .ok out) :
    out.problems ⊆ out.items := by
  have hids := exists_orderGroup_eq_ok_iff.mp ⟨out, h⟩
  obtain rfl := Except.ok.inj ((orderGroup_of_nodup v hids).symm.trans h)
  exact List.subset_append_right _ _

theorem orderGroup_nil (v : View α) : orderGroup v [] = .ok ⟨[], []⟩ := by
  have hnodup : (([] : List α).map v.id).Nodup := List.nodup_nil
  have hnil := (placed_append_problems_perm hnodup).eq_nil
  rw [orderGroup_of_nodup v hnodup, hnil, (List.append_eq_nil_iff.mp hnil).2]

theorem View.ofKind_of_forall (k : Kind) {k' : Kind} (h : ∀ a ∈ items, v.kind a = k') :
    v.ofKind k items = if k' = k then items else [] := by
  split
  · rename_i heq
    exact List.filter_eq_self.mpr fun a ha => beq_iff_eq.mpr ((h a ha).trans heq)
  · rename_i hne
    exact List.filter_eq_nil_iff.mpr fun a ha heq => hne ((h a ha).symm.trans (beq_iff_eq.mp heq))

/-- The part of an answer that tells of one kind. -/
def Ordered.ofKind (v : View α) (k : Kind) (o : Ordered α) : Ordered α :=
  ⟨v.ofKind k o.items, v.ofKind k o.problems⟩

/-- What is told of one kind, where the items of both kinds are told one group after the other. -/
theorem Ordered.ofKind_append {groups : Kind → Ordered α}
    (hitems : ∀ k, ∀ a ∈ (groups k).items, v.kind a = k)
    (hproblems : ∀ k, (groups k).problems ⊆ (groups k).items) (k : Kind) :
    ((groups .category).append (groups .leaf)).ofKind v k = groups k := by
  have hproblems' : ∀ k, ∀ a ∈ (groups k).problems, v.kind a = k := fun k a ha =>
    hitems k a (hproblems k ha)
  have hpart : ∀ l l' : List α, v.ofKind k (l ++ l') = v.ofKind k l ++ v.ofKind k l' := fun l l' =>
    List.filter_append l l'
  rw [append, ofKind, hpart, hpart, View.ofKind_of_forall k (hitems _),
    View.ofKind_of_forall k (hitems _), View.ofKind_of_forall k (hproblems' _),
    View.ofKind_of_forall k (hproblems' _)]
  cases k <;> simp

/-- Items that can be ordered can be ordered group by group, and each group is found again in the
answer, the categories before the leaves. -/
theorem groups_of_order {out : Ordered α} (h : order v items = .ok out) :
    out = (out.ofKind v .category).append (out.ofKind v .leaf) ∧
      ∀ k, orderGroup v (v.ofKind k items) = .ok (out.ofKind v k) := by
  have hids := exists_order_eq_ok_iff.mp ⟨out, h⟩
  obtain ⟨groups, hgroups⟩ : ∃ groups : Kind → Ordered α,
      ∀ k, orderGroup v (v.ofKind k items) = .ok (groups k) :=
    ⟨_, fun k => orderGroup_of_nodup v (hids k)⟩
  obtain rfl := Except.ok.inj (h.symm.trans (order_of_orderGroup (hgroups _) (hgroups _)))
  have hkind : ∀ k, ∀ a ∈ (groups k).items, v.kind a = k := fun k a ha =>
    (View.mem_ofKind.mp ((perm_of_orderGroup (hgroups k)).mem_iff.mp ha)).2
  have hpart := Ordered.ofKind_append hkind fun k => problems_subset_of_orderGroup (hgroups k)
  refine ⟨?_, fun k => ?_⟩
  · rw [hpart, hpart]
  · rw [hpart, hgroups]

/-- To order items of one kind is to order them as a group. -/
theorem order_of_kind {k : Kind} {out : Ordered α} (hkind : ∀ a ∈ items, v.kind a = k)
    (h : orderGroup v items = .ok out) : order v items = .ok out := by
  have hgroup : ∀ k',
      orderGroup v (v.ofKind k' items) = .ok (if k = k' then out else ⟨[], []⟩) := by
    intro k'
    rw [View.ofKind_of_forall k' hkind]
    split
    · exact h
    · exact orderGroup_nil v
  rw [order_of_orderGroup (hgroup _) (hgroup _)]
  cases k <;> simp [Ordered.append]

/-! ### Slots -/

/-- The positions of items in the order that these get when they are ordered by their positions. -/
def positions (v : View α) (items : List α) : List (Fin items.length) :=
  (Forest.build (v.comap items.get) (List.finRange items.length)).flatten

/-- Takes what is in slots, by number.  A slot that is empty by then, or not there, gives
nothing. -/
def takeSlots (slots : List (Option α)) : List Nat → List α
  | [] => []
  | n :: numbers => slots[n]?.join.toList ++ takeSlots (slots.set n none) numbers

/-- Slots that are named once each give all that is in them. -/
theorem takeSlots_eq_map {β : Type v} {number : β → Nat} {f : β → α} {places : List β}
    (hnodup : (places.map number).Nodup) {slots : List (Option α)}
    (hslots : ∀ b ∈ places, slots[number b]? = some (some (f b))) :
    takeSlots slots (places.map number) = places.map f := by
  induction places generalizing slots with
  | nil => rfl
  | cons b places ih =>
    rw [List.map_cons, List.nodup_cons] at hnodup
    rw [List.map_cons, takeSlots, hslots b List.mem_cons_self, ih hnodup.2]
    · rfl
    · -- the slots that are named later are not the one that is empty now
      intro c hc
      have hne : number b ≠ number c := fun heq =>
        hnodup.1 (heq ▸ List.mem_map_of_mem hc)
      rw [List.getElem?_set_ne hne]
      exact hslots c (List.mem_cons_of_mem _ hc)

section Positions

variable (hids : (items.map v.id).Nodup)

include hids

theorem positions_eq :
    positions v items =
      (v.comap items.get).placed (List.finRange items.length) ++
        (v.comap items.get).problems (List.finRange items.length) ∧
      ((List.finRange items.length).map (v.comap items.get).id).Nodup := by
  have hnodup := v.nodup_ids_positions hids
  refine ⟨?_, hnodup⟩
  rw [positions, Forest.flatten, Forest.preOrder_build hnodup, Forest.unresolved_build hnodup]

/-- Each position comes once. -/
theorem positions_perm : (positions v items).Perm (List.finRange items.length) := by
  obtain ⟨heq, hnodup⟩ := positions_eq hids
  exact heq ▸ placed_append_problems_perm hnodup

/-- At the positions stand the items in their order. -/
theorem map_get_positions :
    (positions v items).map items.get = v.placed items ++ v.problems items := by
  have hget : ((List.finRange items.length).map items.get).map v.id = items.map v.id := by
    rw [List.map_get_finRange]
  have hplaced := View.placed_map (f := items.get) (hget ▸ hids)
  have hproblems := View.problems_map v items.get (List.finRange items.length)
  rw [List.map_get_finRange] at hplaced hproblems
  rw [(positions_eq hids).1, List.map_append, hplaced, hproblems]

/-- No item is lost when the items are taken out of their slots in the order of the positions. -/
theorem takeSlots_positions :
    takeSlots (items.map some) ((positions v items).map Fin.val) =
      v.placed items ++ v.problems items := by
  have hnodup : ((positions v items).map Fin.val).Nodup :=
    ((positions_perm hids).nodup_iff.mpr (List.nodup_finRange _)).map Fin.val_injective
  rw [takeSlots_eq_map hnodup (f := items.get), map_get_positions hids]
  intro i _
  simp

end Positions

/-! ### The answer -/

/-- What ordering answers to some items. -/
structure Outcome (v : View α) (items : List α) : Prop where
  /-- It is refused exactly if two items of one kind share an id. -/
  refused_iff : (∃ repeated, order v items = .error repeated) ↔
    ∃ a b, [a, b].Sublist items ∧ v.kind a = v.kind b ∧ v.id a = v.id b
  /-- The id that is told is the first that occurred before in its group, the categories first. -/
  error_iff : ∀ id, order v items = .error ⟨id⟩ ↔
    FirstRepeat ((v.ofKind .category items).map v.id) id ∨
      ((v.ofKind .category items).map v.id).Nodup ∧
        FirstRepeat ((v.ofKind .leaf items).map v.id) id
  /-- Otherwise no item is lost, and none comes twice. -/
  perm : ∀ out, order v items = .ok out → out.items.Perm items
  /-- The categories and their problems come first. -/
  split : ∀ out, order v items = .ok out →
    out = (out.ofKind v .category).append (out.ofKind v .leaf)
  /-- Each group gets the order and the problems that it gets alone. -/
  alone : ∀ out, order v items = .ok out → ∀ k,
    orderGroup v (v.ofKind k items) = .ok (out.ofKind v k) ∧
      order v (v.ofKind k items) = .ok (out.ofKind v k)
  /-- If a group is ordered by positions, each position comes once, so that the items are all there
  when they are taken out of their slots one by one. -/
  slots : ∀ out, order v items = .ok out → ∀ k,
    (positions v (v.ofKind k items)).Perm (List.finRange (v.ofKind k items).length) ∧
      takeSlots ((v.ofKind k items).map some) ((positions v (v.ofKind k items)).map Fin.val) =
        v.ofKind k out.items

/-- Items are ordered exactly if the ids differ within each kind, and then none is lost and each
kind is ordered for itself. -/
theorem outcome_order (v : View α) (items : List α) : Outcome v items := by
  refine
    { refused_iff := ?refused_iff
      error_iff := fun id => order_eq_error_iff
      perm := fun out => perm_of_order
      split := fun out hout => (groups_of_order hout).1
      alone := ?alone
      slots := ?slots }
  case refused_iff =>
    have hok : (∃ out, order v items = .ok out) ↔
        ∀ a b, [a, b].Sublist items → v.kind a = v.kind b → v.id a ≠ v.id b :=
      exists_order_eq_ok_iff.trans nodup_ofKind_iff
    constructor
    · rintro ⟨repeated, herror⟩
      by_contra hshared
      push Not at hshared
      obtain ⟨out, hout⟩ := hok.mpr hshared
      cases herror.symm.trans hout
    · rintro ⟨a, b, hab, hkind, hid⟩
      cases horder : order v items with
      | error repeated => exact ⟨repeated, rfl⟩
      | ok out => exact absurd hid (hok.mp ⟨out, horder⟩ a b hab hkind)
  case alone =>
    intro out hout k
    have hgroup := (groups_of_order hout).2 k
    exact ⟨hgroup, order_of_kind (fun a ha => (View.mem_ofKind.mp ha).2) hgroup⟩
  case slots =>
    intro out hout k
    have hids := exists_order_eq_ok_iff.mp ⟨out, hout⟩ k
    have hitems := (orderGroup_of_nodup v hids).symm.trans ((groups_of_order hout).2 k)
    refine ⟨positions_perm hids, ?_⟩
    rw [takeSlots_positions hids]
    exact congrArg Ordered.items (Except.ok.inj hitems)

end NodeCatalog.After
