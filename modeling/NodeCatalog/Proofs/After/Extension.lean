import NodeCatalog.Proofs.After.Outcome
import NodeCatalog.Proofs.After.Precedence

/-!
# One more item

Where more items are there, what was resolved is resolved still and keeps its order
(`placed_sublist`), and so do the problems that remain (`sublist_problems`).  Of one more item it
can be said what it resolves: the problems that follow it, directly or not, if it is resolved itself
(`resolved_extended_iff`).  So if none of the others follows it, it is the only change
(`without_extended`).
-/

namespace NodeCatalog.After

variable {α : Type u} {v : View α}

/-! ### More items -/

section More

variable {items items' : List α}

/-- Resolved items stay resolved where more items are there. -/
theorem Resolved.mono {a : α} (h : Resolved v items a) (hsub : items ⊆ items') :
    Resolved v items' a := by
  induction h with
  | first ha hroot => exact .first (hsub ha) hroot
  | next ha _ heq ih => exact .next (hsub ha) ih heq

variable [Std.TransCmp v.compare] (hsub : items.Sublist items')

include hsub

theorem siblings_sublist (id : String) : (v.siblings items id).Sublist (v.siblings items' id) :=
  View.sort_sublist_sort (hsub.filter _)

theorem below_sublist (a : α) : (v.below items a).Sublist (v.below items' a) := by
  rw [View.below, View.below]
  split
  · exact List.nil_sublist []
  · exact siblings_sublist hsub (v.id a)

/-- What is resolved keeps its order. -/
theorem placed_sublist (hids : (items'.map v.id).Nodup) :
    (v.placed items).Sublist (v.placed items') := by
  have hids' : (items.map v.id).Nodup := hids.sublist (hsub.map v.id)
  exact (draw_preOrder hids').1.sublist_of_sublist (draw_preOrder hids).1
    (siblings_sublist hsub rootId) fun a _ => below_sublist hsub a

/-- Problems that remain keep their order. -/
theorem sublist_problems {l : List α} (hl : l.Sublist (v.problems items))
    (hremain : ∀ a ∈ l, a ∈ v.problems items') : l.Sublist (v.problems items') := by
  classical
  let remains : α → Bool := fun a => decide ¬Resolved v items' a
  have hstranded : (v.stranded items).filter remains = items.filter remains := by
    rw [View.stranded, List.filter_filter]
    refine List.filter_congr fun a _ => ?_
    have hold : ¬Resolved v items' a → ¬Resolved v items a := mt fun h => h.mono hsub.subset
    simpa [remains] using hold
  have hself : l.filter remains = l := List.filter_eq_self.mpr fun a ha =>
    decide_eq_true (mem_problems_iff.mp (hremain a ha)).2
  rw [← hself]
  refine (hl.filter remains).trans ?_
  rw [View.problems, ← View.sort_filter, hstranded]
  exact View.sort_sublist_sort (hsub.filter remains)

end More

/-! ### One more item -/

/-- What follows a resolved item, directly or not, is resolved. -/
theorem Resolved.of_follows {items : List α} {a x : α} (hx : Resolved v items x)
    (hchain : Relation.TransGen (Follows v items) a x) : Resolved v items a := by
  induction hchain with
  | single hfollows => exact .next hfollows.mem hx hfollows.after_eq
  | tail _ hfollows ih => exact ih (.next hfollows.mem hx hfollows.after_eq)

section Extended

variable {items items' : List α} {x : α} (hmem : ∀ a, a ∈ items' ↔ a = x ∨ a ∈ items)

include hmem

/-- What becomes resolved by one more item is this item, or follows it, directly or not. -/
theorem follows_of_resolved_extended {a : α} (h : Resolved v items' a) (ha : a ∈ items)
    (hproblem : ¬Resolved v items a) :
    Resolved v items' x ∧ Relation.TransGen (Follows v items') a x := by
  induction h with
  | first _ hroot => exact absurd (.first ha hroot) hproblem
  | @next a b ha' hb heq ih =>
    have hfollows : Follows v items' a b :=
      ⟨ha', hb.mem, heq, fun hroot => hproblem (.first ha hroot)⟩
    rcases (hmem b).mp hb.mem with rfl | hb_mem
    · exact ⟨hb, .single hfollows⟩
    · -- the item that is followed was a problem too
      obtain ⟨hx, hchain⟩ := ih hb_mem fun hold => hproblem (.next ha hold heq)
      exact ⟨hx, .head hfollows hchain⟩

/-- One more item resolves the problems that follow it, directly or not, if it is resolved. -/
theorem resolved_extended_iff {a : α} (hne : a ≠ x) :
    Resolved v items' a ∧ ¬Resolved v items a ↔
      a ∈ v.problems items ∧ Resolved v items' x ∧ Relation.TransGen (Follows v items') a x := by
  rw [mem_problems_iff]
  constructor
  · rintro ⟨h, hproblem⟩
    have ha := ((hmem a).mp h.mem).resolve_left hne
    exact ⟨⟨ha, hproblem⟩, follows_of_resolved_extended hmem h ha hproblem⟩
  · rintro ⟨⟨-, hproblem⟩, hx, hchain⟩
    exact ⟨hx.of_follows hchain, hproblem⟩

/-- If none of the others follows the item, no others are resolved by it. -/
theorem resolved_extended_iff_of_unfollowed (hunfollowed : ∀ a ∈ items, ¬Follows v items' a x)
    {a : α} (hne : a ≠ x) : Resolved v items' a ↔ Resolved v items a := by
  refine ⟨fun h => ?_, fun h => h.mono fun b hb => (hmem b).mpr (.inr hb)⟩
  by_contra hproblem
  obtain ⟨-, -, hchain⟩ := (resolved_extended_iff hmem hne).mp ⟨h, hproblem⟩
  have hlast : ∀ b, Follows v items' b x → b = x := fun b hb =>
    ((hmem b).mp hb.mem).resolve_right fun hitem => hunfollowed b hitem hb
  have hself : ∀ b, Relation.TransGen (Follows v items') b x → b = x := by
    intro b hb
    induction hb using Relation.TransGen.head_induction_on with
    | single hb => exact hlast _ hb
    | head hb _ heq => exact hlast _ (heq ▸ hb)
  exact hne (hself a hchain)

end Extended

/-! ### What changes -/

/-- An answer without an item. -/
def Ordered.without (v : View α) (x : α) (o : Ordered α) : Ordered α :=
  ⟨o.items.filter fun a => v.id a != v.id x, o.problems.filter fun a => v.id a != v.id x⟩

/-- What changes in the order of a group when one item is added: `items` and `out` are the items and
the answer without it, `items'` and `out'` those with it. -/
structure Extends (v : View α) (x : α) (items items' : List α) (out out' : Ordered α) : Prop where
  /-- Before the problems stand the resolved items.  What was resolved is so still, and keeps its
  order. -/
  resolved : ∃ placed placed',
    out.items = placed ++ out.problems ∧ (∀ a, a ∈ placed ↔ Resolved v items a) ∧
    out'.items = placed' ++ out'.problems ∧ (∀ a, a ∈ placed' ↔ Resolved v items' a) ∧
    placed.Sublist placed'
  /-- What becomes resolved are the problems that follow the item, directly or not, if the item is
  resolved, and nothing otherwise. -/
  gained : ∀ a, a ≠ x → (Resolved v items' a ∧ ¬Resolved v items a ↔
    a ∈ out.problems ∧ Resolved v items' x ∧ Relation.TransGen (Follows v items') a x)
  /-- Problems that remain keep their order. -/
  remaining : ∀ l : List α, l.Sublist out.problems → (∀ a ∈ l, a ∈ out'.problems) →
    l.Sublist out'.problems
  /-- If none of the others follows the item, nothing but the item is new. -/
  unfollowed : (∀ a ∈ items, ¬Follows v items' a x) → out'.without v x = out

variable [Std.TransCmp v.compare] {items items' : List α} {x : α}

/-- If none of the others follows the item, leaving it out gives the answer that there was. -/
theorem without_extended (hids : (items'.map v.id).Nodup) (hsub : items.Sublist items')
    (hmem : ∀ a, a ∈ items' ↔ a = x ∨ a ∈ items) (hx : x ∉ items)
    (hunfollowed : ∀ a ∈ items, ¬Follows v items' a x) :
    (Ordered.mk (v.placed items' ++ v.problems items') (v.problems items')).without v x =
      ⟨v.placed items ++ v.problems items, v.problems items⟩ := by
  have hids' : (items.map v.id).Nodup := hids.sublist (hsub.map v.id)
  have hnodup := List.nodup_append.mp (nodup_placed_append_problems hids)
  have hother : ∀ a ∈ items', (v.id a != v.id x) = true ↔ a ∈ items := by
    intro a ha
    rw [bne_iff_ne]
    constructor
    · exact fun hid => ((hmem a).mp ha).resolve_left fun heq => hid (heq ▸ rfl)
    · intro hitem hid
      have heq := List.inj_on_of_nodup_map hids ha ((hmem x).mpr (.inl rfl)) hid
      exact hx (heq ▸ hitem)
  have hresolved : ∀ a ∈ items, Resolved v items' a ↔ Resolved v items a := fun a ha =>
    resolved_extended_iff_of_unfollowed hmem hunfollowed fun heq => hx (heq ▸ ha)
  have hplaced : (v.placed items').filter (fun a => v.id a != v.id x) = v.placed items := by
    refine filter_eq_of_sublist hnodup.1 (placed_sublist hsub hids) fun a ha => ?_
    have ha := (mem_placed_iff hids).mp ha
    rw [hother a ha.mem, mem_placed_iff hids']
    exact ⟨fun hitem => (hresolved a hitem).mp ha, Resolved.mem⟩
  have hproblems : (v.problems items').filter (fun a => v.id a != v.id x) = v.problems items := by
    have hsame : ∀ a ∈ items, a ∈ v.problems items' ↔ a ∈ v.problems items := by
      intro a ha
      rw [mem_problems_iff, mem_problems_iff, hresolved a ha]
      exact ⟨fun h => ⟨ha, h.2⟩, fun h => ⟨hsub.subset ha, h.2⟩⟩
    have hremain : ∀ a ∈ v.problems items, a ∈ v.problems items' := fun a ha =>
      (hsame a (mem_problems_iff.mp ha).1).mpr ha
    refine filter_eq_of_sublist hnodup.2.1 (sublist_problems hsub (.refl _) hremain) fun a ha => ?_
    rw [hother a (mem_problems_iff.mp ha).1]
    exact ⟨fun hitem => (hsame a hitem).mp ha, fun h => (mem_problems_iff.mp h).1⟩
  rw [Ordered.without, List.filter_append, hplaced, hproblems]

/-- One more item, with an id of its own, disturbs nothing else. -/
theorem orderGroup_extends {front back : List α}
    (hids : ((front ++ back).map v.id).Nodup) (hfresh : ∀ a ∈ front ++ back, v.id a ≠ v.id x) :
    ∃ out out', orderGroup v (front ++ back) = .ok out ∧
      orderGroup v (front ++ x :: back) = .ok out' ∧
      Extends v x (front ++ back) (front ++ x :: back) out out' := by
  have hsub : (front ++ back).Sublist (front ++ x :: back) :=
    (List.sublist_cons_self x back).append_left front
  have hmem : ∀ a, a ∈ front ++ x :: back ↔ a = x ∨ a ∈ front ++ back := fun a =>
    List.perm_middle.mem_iff.trans List.mem_cons
  have hids' : ((front ++ x :: back).map v.id).Nodup := by
    rw [(List.perm_middle.map v.id).nodup_iff, List.map_cons, List.nodup_cons]
    refine ⟨fun hx => ?_, hids⟩
    obtain ⟨a, ha, heq⟩ := List.mem_map.mp hx
    exact hfresh a ha heq
  refine ⟨_, _, orderGroup_of_nodup v hids, orderGroup_of_nodup v hids', ?_⟩
  refine { resolved := ?resolved, gained := ?gained, remaining := ?remaining,
           unfollowed := ?unfollowed }
  case resolved =>
    exact ⟨_, _, rfl, fun a => mem_placed_iff hids, rfl, fun a => mem_placed_iff hids',
      placed_sublist hsub hids'⟩
  case gained => exact fun a => resolved_extended_iff hmem
  case remaining => exact fun l => sublist_problems hsub
  case unfollowed =>
    exact without_extended hids' hsub hmem fun hx => hfresh x hx rfl

/-- An item that others wait for, directly or not. -/
def Item.awaited : Item :=
  ⟨"w", "N", "a", .leaf⟩

/-- Items of one name that stand before the awaited one. -/
def Item.early : List Item :=
  [⟨"g", "N", "f", .leaf⟩, ⟨"f", "N", "w", .leaf⟩, ⟨"a", "N", "", .leaf⟩]

/-- Items of one name that stand behind the awaited one: some wait for it, some follow each other or
nothing that is there, and one has the root's id. -/
def Item.late : List Item :=
  [⟨"b", "N", "a", .leaf⟩, ⟨"d", "N", "c", .leaf⟩, ⟨"c", "N", "d", .leaf⟩, ⟨"h", "N", "w", .leaf⟩,
    ⟨"o", "N", "gone", .leaf⟩, ⟨"", "N", "", .leaf⟩]

theorem orderGroup_extends_awaited :
    Std.TransCmp Item.tied.compare ∧ ((Item.early ++ Item.late).map Item.tied.id).Nodup ∧
      (∀ a ∈ Item.early ++ Item.late, Item.tied.id a ≠ Item.tied.id Item.awaited) ∧
      ∃ out out', orderGroup Item.tied (Item.early ++ Item.late) = .ok out ∧
        orderGroup Item.tied (Item.early ++ Item.awaited :: Item.late) = .ok out' ∧
        Extends Item.tied Item.awaited (Item.early ++ Item.late)
          (Item.early ++ Item.awaited :: Item.late) out out' := by
  have hids : ((Item.early ++ Item.late).map Item.tied.id).Nodup := by decide
  have hfresh : ∀ a ∈ Item.early ++ Item.late, Item.tied.id a ≠ Item.tied.id Item.awaited := by
    decide
  exact ⟨inferInstance, hids, hfresh, orderGroup_extends hids hfresh⟩

end NodeCatalog.After
