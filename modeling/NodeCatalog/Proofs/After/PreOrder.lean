import Mathlib.Data.List.Nodup
import Mathlib.Logic.Relation

/-!
# Pre-order

`PreOrder children roots out` says that `out` lists the trees that hang at `roots`: each item is
followed by all that is below it, and then by its next sibling.  The relation fixes the list
(`PreOrder.unique`), whatever computes it.

What is below an item stands in one piece behind it (`PreOrder.exists_of_mem`), and where more
hangs, all that hung before keeps its order (`PreOrder.sublist_of_sublist`).  A `Trail` leads from a
root down to an item; its items stand in this order (`PreOrder.sublist`), and where two trails part,
all of the one that goes to the earlier sibling stands before the rest of the other
(`PreOrder.sublist_of_fork`).
-/

namespace NodeCatalog.After

variable {α : Type u} {β : Type v}

/-- The list of all items at and below some roots. -/
inductive PreOrder (children : α → List α) : List α → List α → Prop where
  /-- Nothing hangs at no roots. -/
  | nil : PreOrder children [] []
  /-- A root comes first, then what is below it, then the other roots. -/
  | cons {a : α} {roots below rest : List α} : PreOrder children (children a) below →
      PreOrder children roots rest → PreOrder children (a :: roots) (a :: (below ++ rest))

/-- The items passed on the way from one of some roots down to an item. -/
def Trail (children : α → List α) : List α → List α → Prop
  | _, [] => True
  | roots, a :: trail => a ∈ roots ∧ Trail children (children a) trail

/-- A trail goes on from its last item to a child of this. -/
theorem Trail.concat {children : α → List α} {roots trail : List α} {a b : α}
    (h : Trail children roots trail) (ha : trail.getLast? = some a) (hb : b ∈ children a) :
    Trail children roots (trail ++ [b]) := by
  induction trail generalizing roots with
  | nil => cases ha
  | cons c trail ih =>
    refine ⟨h.1, ?_⟩
    cases trail with
    | nil =>
      obtain rfl := Option.some.inj ha
      exact ⟨hb, trivial⟩
    | cons d trail => exact ih h.2 (by rwa [List.getLast?_cons_cons] at ha)

namespace PreOrder

variable {children : α → List α} {roots out : List α}

/-- There is one pre-order only. -/
theorem unique {out' : List α} (h : PreOrder children roots out)
    (h' : PreOrder children roots out') : out = out' := by
  induction h generalizing out' with
  | nil =>
    cases h'
    rfl
  | cons _ _ ihbelow ihrest =>
    cases h' with
    | cons hbelow' hrest' => rw [ihbelow hbelow', ihrest hrest']

/-- The pre-order of other items that hang in the same way. -/
theorem map {f : α → β} {children' : β → List β} (h : PreOrder children roots out)
    (hf : ∀ a ∈ out, children' (f a) = (children a).map f) :
    PreOrder children' (roots.map f) (out.map f) := by
  induction h with
  | nil => exact .nil
  | @cons a roots below rest _ _ ihbelow ihrest =>
    rw [List.map_cons, List.map_cons, List.map_append]
    refine .cons ?_ (ihrest fun b hb => hf b ?_)
    · rw [hf a List.mem_cons_self]
      exact ihbelow fun b hb => hf b (List.mem_cons_of_mem _ (List.mem_append_left _ hb))
    · exact List.mem_cons_of_mem _ (List.mem_append_right _ hb)

/-- The pre-order of items below which the same hangs. -/
theorem congr {children' : α → List α} (h : PreOrder children roots out)
    (hchildren : ∀ a ∈ out, children' a = children a) : PreOrder children' roots out := by
  have hmap : PreOrder children' (roots.map id) (out.map id) :=
    h.map fun a ha => (hchildren a ha).trans (List.map_id _).symm
  rwa [List.map_id, List.map_id] at hmap

/-- What holds of the roots and goes on to children holds of all items. -/
theorem forall_mem {P : α → Prop} (h : PreOrder children roots out) (hroots : ∀ a ∈ roots, P a)
    (hchildren : ∀ a, P a → ∀ b ∈ children a, P b) : ∀ a ∈ out, P a := by
  induction h with
  | nil => exact fun a ha => absurd ha List.not_mem_nil
  | @cons a roots below rest _ _ ihbelow ihrest =>
    have hP := hroots a List.mem_cons_self
    intro b hb
    rcases List.mem_cons.mp hb with rfl | hb
    · exact hP
    · rcases List.mem_append.mp hb with hb | hb
      · exact ihbelow (hchildren a hP) b hb
      · exact ihrest (fun c hc => hroots c (List.mem_cons_of_mem _ hc)) b hb

/-- All that is below an item stands in one piece behind it. -/
theorem exists_of_mem (h : PreOrder children roots out) {a : α} (ha : a ∈ out) :
    ∃ before below after, out = before ++ a :: (below ++ after) ∧
      PreOrder children (children a) below := by
  induction h with
  | nil => exact absurd ha List.not_mem_nil
  | @cons b roots below rest hbelow _ ihbelow ihrest =>
    rcases List.mem_cons.mp ha with rfl | ha
    · exact ⟨[], below, rest, rfl, hbelow⟩
    rcases List.mem_append.mp ha with ha | ha
    · obtain ⟨before, inner, after, rfl, hinner⟩ := ihbelow ha
      exact ⟨b :: before, inner, after ++ rest, by simp, hinner⟩
    · obtain ⟨before, inner, after, rfl, hinner⟩ := ihrest ha
      exact ⟨b :: (below ++ before), inner, after, by simp, hinner⟩

/-- A root stands in the pre-order with all that is below it. -/
theorem exists_sublist_of_mem_roots (h : PreOrder children roots out) {a : α} (ha : a ∈ roots) :
    ∃ below, PreOrder children (children a) below ∧ (a :: below).Sublist out := by
  induction h with
  | nil => exact absurd ha List.not_mem_nil
  | @cons b roots below rest hbelow _ _ ihrest =>
    rcases List.mem_cons.mp ha with rfl | ha
    · exact ⟨below, hbelow, (List.sublist_append_left below rest).cons_cons a⟩
    · obtain ⟨inner, hinner, hsub⟩ := ihrest ha
      exact ⟨inner, hinner, (hsub.trans (List.sublist_append_right below rest)).cons b⟩

/-- The roots stand in their order. -/
theorem roots_sublist (h : PreOrder children roots out) : roots.Sublist out := by
  induction h with
  | nil => exact .refl _
  | @cons a roots below rest _ _ _ ihrest =>
    exact (ihrest.trans (List.sublist_append_right below rest)).cons_cons a

/-- The children of an item stand in their order. -/
theorem children_sublist (h : PreOrder children roots out) {a : α} (ha : a ∈ out) :
    (children a).Sublist out := by
  obtain ⟨before, below, after, rfl, hbelow⟩ := h.exists_of_mem ha
  have hpiece : (a :: below).Sublist (a :: (below ++ after)) :=
    (List.sublist_append_left below after).cons_cons a
  exact (hbelow.roots_sublist.cons a).trans (hpiece.trans (List.sublist_append_right before _))

/-- Where more hangs, what hung before stands in the order that it had. -/
theorem sublist_of_sublist {children' : α → List α} {roots' out' : List α}
    (h : PreOrder children roots out) (h' : PreOrder children' roots' out')
    (hroots : roots.Sublist roots') (hchildren : ∀ a ∈ out, (children a).Sublist (children' a)) :
    out.Sublist out' := by
  induction h' generalizing roots out with
  | nil =>
    obtain rfl := List.sublist_nil.mp hroots
    cases h
    exact .refl _
  | @cons b roots' below' rest' _ _ ihbelow ihrest =>
    cases hroots with
    | cons _ hroots =>
      exact ((ihrest h hroots hchildren).trans (List.sublist_append_right below' rest')).cons b
    | cons_cons _ hroots =>
      cases h with
      | @cons _ roots below rest hbelow hrest =>
      refine ((ihbelow hbelow ?_ ?_).append (ihrest hrest hroots ?_)).cons_cons b
      · exact hchildren b List.mem_cons_self
      · exact fun a ha => hchildren a (List.mem_cons_of_mem _ (List.mem_append_left _ ha))
      · exact fun a ha => hchildren a (List.mem_cons_of_mem _ (List.mem_append_right _ ha))

/-! ### Trails -/

/-- The items of a trail stand in its order. -/
theorem sublist (h : PreOrder children roots out) {trail : List α}
    (ht : Trail children roots trail) : trail.Sublist out := by
  induction trail generalizing roots out with
  | nil => exact List.nil_sublist out
  | cons a trail ih =>
    obtain ⟨ha, ht⟩ := ht
    obtain ⟨below, hbelow, hsub⟩ := h.exists_sublist_of_mem_roots ha
    exact ((ih hbelow ht).cons_cons a).trans hsub

/-- Of two trails from different roots, the one from the earlier root stands before the other. -/
theorem append_sublist (h : PreOrder children roots out) {a b : α} {s t : List α}
    (hab : [a, b].Sublist roots) (hs : Trail children (children a) s)
    (ht : Trail children (children b) t) : (a :: s ++ b :: t).Sublist out := by
  induction h with
  | nil => exact absurd hab (by simp)
  | @cons c roots below rest hbelow hrest _ ihrest =>
    cases hab with
    | cons _ hab =>
      exact ((ihrest hab).trans (List.sublist_append_right below rest)).cons c
    | cons_cons _ hb =>
      have ht : (b :: t).Sublist rest := hrest.sublist ⟨List.singleton_sublist.mp hb, ht⟩
      exact ((hbelow.sublist hs).append ht).cons_cons a

/-- Where two trails part, the one that goes to the earlier sibling stands before the rest of the
other. -/
theorem sublist_of_fork (h : PreOrder children roots out) {a b : α} {common s t : List α}
    (hs : Trail children roots (common ++ a :: s)) (ht : Trail children roots (common ++ b :: t))
    (hroots : a ∈ roots → b ∈ roots → [a, b].Sublist roots)
    (hchildren : ∀ c, a ∈ children c → b ∈ children c → [a, b].Sublist (children c)) :
    (a :: s ++ b :: t).Sublist out := by
  induction common generalizing roots out with
  | nil => exact h.append_sublist (hroots hs.1 ht.1) hs.2 ht.2
  | cons c common ih =>
    obtain ⟨below, hbelow, hsub⟩ := h.exists_sublist_of_mem_roots hs.1
    have hfork := ih hbelow hs.2 ht.2 (hchildren c)
    exact hfork.trans ((List.sublist_cons_self c below).trans hsub)

end PreOrder

end NodeCatalog.After
