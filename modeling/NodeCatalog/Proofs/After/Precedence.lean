import NodeCatalog.Proofs.After.Problems

/-!
# Which item comes first

The chain of a resolved item leads from the root over the items that are followed to the item
itself.  Chains decide the order of any two resolved items of a group (`chainOrdered_order`): an
item comes after all others on its chain, and where two chains part, the siblings at which they
part decide.  Between an item and one that follows it stand only items that follow it too, directly
or not.
-/

namespace NodeCatalog.After

variable {α : Type u}

/-- One item is declared after another. -/
structure Follows (v : View α) (items : List α) (b a : α) : Prop where
  mem : b ∈ items
  target_mem : a ∈ items
  after_eq : v.after b = v.id a
  after_ne : v.after b ≠ rootId

/-- The chain from the root to an item. -/
inductive Chain (v : View α) (items : List α) : List α → α → Prop where
  /-- An item that follows none is its whole chain. -/
  | first {a : α} : a ∈ items → v.after a = rootId → Chain v items [a] a
  /-- The chain of an item that follows another goes over the chain of the other. -/
  | next {chain : List α} {a b : α} : Chain v items chain a → Follows v items b a →
      Chain v items (chain ++ [b]) b

variable {v : View α} {items : List α}

theorem Follows.mem_below {a b : α} (h : Follows v items b a) : b ∈ v.below items a :=
  View.mem_below.mpr ⟨h.mem, h.after_eq, fun hroot => h.after_ne (h.after_eq.trans hroot)⟩

theorem follows_of_mem_below {a b : α} (ha : a ∈ items) (hb : b ∈ v.below items a) :
    Follows v items b a := by
  obtain ⟨hb, hafter, hroot⟩ := View.mem_below.mp hb
  exact ⟨hb, ha, hafter, fun h => hroot (hafter.symm.trans h)⟩

namespace Chain

variable {chain : List α} {x : α}

theorem getLast?_eq (h : Chain v items chain x) : chain.getLast? = some x := by
  cases h with
  | first _ _ => rfl
  | next _ _ => exact List.getLast?_concat

/-- All items on the way down a chain are there. -/
theorem trail (h : Chain v items chain x) :
    Trail (v.below items) (v.siblings items rootId) chain := by
  induction h with
  | first hx hroot => exact ⟨View.mem_siblings.mpr ⟨hx, hroot⟩, trivial⟩
  | next h hfollows ih => exact ih.concat h.getLast?_eq hfollows.mem_below

/-- All other items of a chain stand in it before the last. -/
theorem sublist_of_mem (h : Chain v items chain x) {a : α} (ha : a ∈ chain) (hne : a ≠ x) :
    [a, x].Sublist chain := by
  cases h with
  | first _ _ => exact absurd (List.mem_singleton.mp ha) hne
  | next _ _ =>
    rcases List.mem_append.mp ha with ha | ha
    · exact (List.singleton_sublist.mpr ha).append (List.Sublist.refl _)
    · exact absurd (List.mem_singleton.mp ha) hne

/-- An item has one chain only. -/
theorem unique (hids : (items.map v.id).Nodup) {chain' : List α} (h : Chain v items chain x)
    (h' : Chain v items chain' x) : chain = chain' := by
  induction h generalizing chain' with
  | first _ hroot =>
    cases h' with
    | first _ _ => rfl
    | next _ hfollows => exact absurd hroot hfollows.after_ne
  | @next _ a b _ hfollows ih =>
    cases h' with
    | first _ hroot => exact absurd hroot hfollows.after_ne
    | @next _ a' _ h' hfollows' =>
      have hid : v.id a' = v.id a := hfollows'.after_eq.symm.trans hfollows.after_eq
      obtain rfl := List.inj_on_of_nodup_map hids hfollows'.target_mem hfollows.target_mem hid
      rw [ih h']

end Chain

/-- The resolved items are those that have a chain. -/
theorem resolved_iff_chain {x : α} : Resolved v items x ↔ ∃ chain, Chain v items chain x := by
  constructor
  · intro h
    induction h with
    | first hx hroot => exact ⟨_, .first hx hroot⟩
    | @next a b ha hb heq ih =>
      by_cases hroot : v.after a = rootId
      · exact ⟨_, .first ha hroot⟩
      · obtain ⟨chain, hchain⟩ := ih
        exact ⟨_, .next hchain ⟨ha, hb.mem, heq, hroot⟩⟩
  · rintro ⟨chain, h⟩
    induction h with
    | first hx hroot => exact .first hx hroot
    | next _ hfollows ih => exact .next hfollows.mem ih hfollows.after_eq

/-! ### Positions in a list -/

theorem sublist_or_sublist_of_mem {l : List α} {x y : α} (hx : x ∈ l) (hy : y ∈ l)
    (hne : x ≠ y) : [x, y].Sublist l ∨ [y, x].Sublist l := by
  obtain ⟨s, t, rfl⟩ := List.append_of_mem hx
  rcases List.mem_append.mp hy with hy | hy
  · have hxt : [x].Sublist (x :: t) := (List.nil_sublist t).cons_cons x
    exact .inr ((List.singleton_sublist.mpr hy).append hxt)
  · have hy := (List.mem_cons.mp hy).resolve_left hne.symm
    exact .inl (((List.singleton_sublist.mpr hy).cons_cons x).trans (List.sublist_append_right s _))

theorem not_sublist_of_sublist {l : List α} (hl : l.Nodup) {x y : α} (hne : x ≠ y)
    (h : [x, y].Sublist l) : ¬[y, x].Sublist l := by
  intro h'
  have heq := (hl.perm_iff_eq_of_sublist h h').mp (List.Perm.swap y x [])
  exact hne (List.cons.inj heq).1

/-- Choosing the items of a sublist leaves just this. -/
theorem filter_eq_of_sublist {l m : List α} (hl : l.Nodup) (h : m.Sublist l) {p : α → Bool}
    (hp : ∀ a ∈ l, p a = true ↔ a ∈ m) : l.filter p = m := by
  refine (hl.perm_iff_eq_of_sublist List.filter_sublist h).mp ?_
  refine (List.perm_ext_iff_of_nodup (hl.filter p) (hl.sublist h)).mpr fun a => ?_
  rw [List.mem_filter]
  exact ⟨fun ha => (hp a ha.1).mp ha.2, fun ha => ⟨h.subset ha, (hp a (h.subset ha)).mpr ha⟩⟩

/-- One of two lists goes on from the other, or they part at two items. -/
theorem prefix_or_fork (l m : List α) : l <+: m ∨ m <+: l ∨
    ∃ common a b s t, l = common ++ a :: s ∧ m = common ++ b :: t ∧ a ≠ b := by
  induction l generalizing m with
  | nil => exact .inl List.nil_prefix
  | cons a l ih =>
    cases m with
    | nil => exact .inr (.inl List.nil_prefix)
    | cons b m =>
      by_cases hab : a = b
      · subst hab
        rcases ih m with h | h | ⟨common, c, d, s, t, rfl, rfl, hne⟩
        · exact .inl (List.cons_prefix_cons.mpr ⟨rfl, h⟩)
        · exact .inr (.inl (List.cons_prefix_cons.mpr ⟨rfl, h⟩))
        · exact .inr (.inr ⟨a :: common, c, d, s, t, rfl, rfl, hne⟩)
      · exact .inr (.inr ⟨[], a, b, l, m, rfl, rfl, hab⟩)

/-! ### Positions of chains -/

/-- Of two siblings the lesser one comes first. -/
theorem View.sublist_sort [Std.TransCmp v.compare] {as : List α} {a b : α}
    (ha : a ∈ v.sort as) (hb : b ∈ v.sort as) (hlt : v.compare a b = .lt) :
    [a, b].Sublist (v.sort as) := by
  have hne : a ≠ b := by
    rintro rfl
    have heq : v.compare a a = .eq := Std.ReflCmp.compare_self
    rw [heq] at hlt
    cases hlt
  refine (sublist_or_sublist_of_mem ha hb hne).resolve_right fun h => ?_
  have hle := List.pairwise_iff_forall_sublist.mp (v.pairwise_sort as) h
  have hswap : v.compare b a = (v.compare a b).swap := Std.OrientedCmp.eq_swap
  rw [View.le, hswap, hlt] at hle
  cases hle

/-- A chain stands in the final order of its group. -/
theorem Chain.sublist_placed (hids : (items.map v.id).Nodup) {chain : List α} {x : α}
    (h : Chain v items chain x) : chain.Sublist (v.placed items) :=
  (draw_preOrder hids).1.sublist h.trail

/-- Where two chains part at siblings, what the lesser one leads to comes first. -/
theorem sublist_placed_of_fork [Std.TransCmp v.compare] (hids : (items.map v.id).Nodup)
    {common s t : List α} {a b x y : α} (hx : Chain v items (common ++ a :: s) x)
    (hy : Chain v items (common ++ b :: t) y) (hlt : v.compare a b = .lt) :
    [x, y].Sublist (v.placed items) := by
  have hfork : (a :: s ++ b :: t).Sublist (v.placed items) := by
    refine (draw_preOrder hids).1.sublist_of_fork hx.trail hy.trail (fun ha hb => ?_)
      (fun c ha hb => ?_)
    · exact View.sublist_sort ha hb hlt
    · have hroot := (View.mem_below.mp ha).2.2
      rw [View.below, if_neg hroot] at ha hb ⊢
      exact View.sublist_sort ha hb hlt
  have hlast : ∀ {z c : α} {u : List α}, Chain v items (common ++ c :: u) z →
      [z].Sublist (c :: u) := by
    intro z c u hz
    have hz := hz.getLast?_eq
    rw [List.getLast?_append_of_ne_nil _ (List.cons_ne_nil c u)] at hz
    exact List.singleton_sublist.mpr (List.mem_of_getLast? hz)
  exact ((hlast hx).append (hlast hy)).trans hfork

/-- In a list without repetitions that holds the placed items in their order, chains decide which of
two comes first, if no two items compare as equal. -/
theorem sublist_iff_chains [Std.TransCmp v.compare] (hids : (items.map v.id).Nodup)
    (hcompare : ∀ a ∈ items, ∀ b ∈ items, v.compare a b = .eq → a = b) {l : List α}
    (hplaced : (v.placed items).Sublist l) (hnodup : l.Nodup) {cx cy : List α} {x y : α}
    (hx : Chain v items cx x) (hy : Chain v items cy y) (hne : x ≠ y) :
    [x, y].Sublist l ↔ x ∈ cy ∨ x ∉ cy ∧ y ∉ cx ∧
      ∃ common a b s t, cx = common ++ a :: s ∧ cy = common ++ b :: t ∧ v.compare a b = .lt := by
  have hmem : ∀ {c : List α} {z : α}, Chain v items c z → ∀ a ∈ c, a ∈ items := fun hz a ha =>
    ((mem_placed_iff hids).mp ((hz.sublist_placed hids).subset ha)).mem
  constructor
  · intro hxy
    by_cases hxcy : x ∈ cy
    · exact .inl hxcy
    have hyx : ¬[y, x].Sublist l := not_sublist_of_sublist hnodup hne hxy
    have hycx : y ∉ cx := fun h =>
      hyx ((hx.sublist_of_mem h hne.symm).trans ((hx.sublist_placed hids).trans hplaced))
    refine .inr ⟨hxcy, hycx, ?_⟩
    rcases prefix_or_fork cx cy with h | h | ⟨common, a, b, s, t, rfl, rfl, hab⟩
    · -- one item would be on the chain of the other
      exact absurd (h.subset (List.mem_of_getLast? hx.getLast?_eq)) hxcy
    · exact absurd (h.subset (List.mem_of_getLast? hy.getLast?_eq)) hycx
    · refine ⟨common, a, b, s, t, rfl, rfl, ?_⟩
      cases hcmp : v.compare a b with
      | lt => rfl
      | eq =>
        have ha := hmem hx a (List.mem_append_right _ List.mem_cons_self)
        have hb := hmem hy b (List.mem_append_right _ List.mem_cons_self)
        exact absurd (hcompare a ha b hb hcmp) hab
      | gt =>
        -- then the other item would come first
        have hba : v.compare b a = .lt := Std.OrientedCmp.lt_of_gt hcmp
        exact absurd ((sublist_placed_of_fork hids hy hx hba).trans hplaced) hyx
  · rintro (hxcy | ⟨-, -, common, a, b, s, t, rfl, rfl, hlt⟩)
    · exact (hy.sublist_of_mem hxcy hne).trans ((hy.sublist_placed hids).trans hplaced)
    · exact (sublist_placed_of_fork hids hx hy hlt).trans hplaced

/-- Between an item and a resolved one that follows it stand only items that follow it, directly or
not. -/
theorem exists_between (hids : (items.map v.id).Nodup) {x t : α} (hx : Resolved v items x)
    (hfollows : Follows v items x t) :
    ∃ before between after, v.placed items = before ++ t :: (between ++ x :: after) ∧
      ∀ z ∈ between, Relation.TransGen (Follows v items) z t := by
  have ht : t ∈ v.placed items := by
    obtain ⟨chain, hchain⟩ := resolved_iff_chain.mp hx
    cases hchain with
    | first _ hroot => exact absurd hroot hfollows.after_ne
    | @next chain a _ ha hfollows' =>
      have hid : v.id a = v.id t := hfollows'.after_eq.symm.trans hfollows.after_eq
      obtain rfl :=
        List.inj_on_of_nodup_map hids hfollows'.target_mem hfollows.target_mem hid
      exact (mem_placed_iff hids).mpr (resolved_iff_chain.mpr ⟨chain, ha⟩)
  obtain ⟨before, below, after, hplaced, hbelow⟩ := (draw_preOrder hids).1.exists_of_mem ht
  -- what follows directly is a child, and so on down
  have hall : ∀ z ∈ below, z ∈ items ∧ Relation.TransGen (Follows v items) z t := by
    refine hbelow.forall_mem (fun z hz => ?_) (fun z hz w hw => ?_)
    · have hfollows := follows_of_mem_below hfollows.target_mem hz
      exact ⟨hfollows.mem, .single hfollows⟩
    · have hfollows := follows_of_mem_below hz.1 hw
      exact ⟨hfollows.mem, .head hfollows hz.2⟩
  have hmem : x ∈ below := by
    obtain ⟨inner, -, hsub⟩ := hbelow.exists_sublist_of_mem_roots hfollows.mem_below
    exact hsub.subset List.mem_cons_self
  obtain ⟨between, rest, rfl⟩ := List.append_of_mem hmem
  refine ⟨before, between, rest ++ after, by simpa using hplaced, fun z hz => ?_⟩
  exact (hall z (List.mem_append_left _ hz)).2

/-- A list holds the resolved items of a group in the order that their chains say. -/
structure ChainOrdered (v : View α) (items l : List α) : Prop where
  /-- Each resolved item has a chain, and one only. -/
  chain : ∀ x, Resolved v items x → ∃! chain, Chain v items chain x
  /-- An item comes before another if it is on the chain of this, or, where neither is on the chain
  of the other, if it is led to by the lesser of the two siblings at which the chains part. -/
  before_iff : ∀ x y cx cy, Chain v items cx x → Chain v items cy y → x ≠ y →
    ([x, y].Sublist l ↔ x ∈ cy ∨ x ∉ cy ∧ y ∉ cx ∧
      ∃ common a b s t, cx = common ++ a :: s ∧ cy = common ++ b :: t ∧ v.compare a b = .lt)
  /-- An item comes after the one it follows, and between them stand only items that follow this
  one, directly or not. -/
  between : ∀ x t, Resolved v items x → Follows v items x t →
    ∃ before between after, l = before ++ t :: (between ++ x :: after) ∧
      ∀ z ∈ between, Relation.TransGen (Follows v items) z t

/-- Among items compared by name and id, the chains decide the order of any two resolved items of a
group. -/
theorem chainOrdered_order {name : α → String} (hcompare : v.compare = View.byName name v.id)
    (hids : ∀ k, ((v.ofKind k items).map v.id).Nodup) :
    ∃ out, order v items = .ok out ∧ out.items.Nodup ∧
      ∀ k, ChainOrdered v (v.ofKind k items) out.items := by
  have htrans : Std.TransCmp v.compare := hcompare ▸ inferInstance
  have hnodup := nodup_ordered hids
  refine ⟨_, order_of_nodup hids, hnodup, fun k => ?_⟩
  obtain ⟨front, back, hout⟩ := exists_ordered_eq v items k
  have hplaced : (v.placed (v.ofKind k items)).Sublist (v.ordered items) := by
    rw [hout]
    exact (List.sublist_append_left _ back).trans (List.sublist_append_right front _)
  refine { chain := ?chain, before_iff := ?before_iff, between := ?between }
  case chain =>
    intro x hx
    obtain ⟨chain, hchain⟩ := resolved_iff_chain.mp hx
    exact ⟨chain, hchain, fun chain' h => h.unique (hids k) hchain⟩
  case before_iff =>
    intro x y cx cy hx hy hne
    refine sublist_iff_chains (hids k) (fun a ha b hb heq => ?_) hplaced hnodup hx hy hne
    rw [hcompare] at heq
    exact List.inj_on_of_nodup_map (hids k) ha hb (View.eq_of_byName heq).2
  case between =>
    intro x t hx hfollows
    obtain ⟨before, between, after, hpieces, hbetween⟩ := exists_between (hids k) hx hfollows
    exact ⟨front ++ before, between, after ++ back, by simp [hout, hpieces], hbetween⟩

/-- Items of both groups with chains that part at different depths. -/
def Item.branches : List Item :=
  [⟨"f", "A", "d", .leaf⟩, ⟨"e", "A", "c", .leaf⟩, ⟨"d", "D", "b", .leaf⟩, ⟨"c", "C", "b", .leaf⟩,
    ⟨"b", "Z", "", .leaf⟩, ⟨"a", "Z", "", .leaf⟩, ⟨"b", "A", "a", .category⟩,
    ⟨"a", "B", "", .category⟩, ⟨"x", "A", "x", .category⟩]

theorem chainOrdered_order_branches :
    Item.view.compare = View.byName Item.name Item.view.id ∧
      (∀ k, ((Item.view.ofKind k Item.branches).map Item.view.id).Nodup) ∧
      ∃ out, order Item.view Item.branches = .ok out ∧ out.items.Nodup ∧
        ∀ k, ChainOrdered Item.view (Item.view.ofKind k Item.branches) out.items := by
  have hids : ∀ k, ((Item.view.ofKind k Item.branches).map Item.view.id).Nodup := by
    rintro (_ | _) <;> decide
  exact ⟨rfl, hids, chainOrdered_order rfl hids⟩

end NodeCatalog.After
