import Mathlib.Data.List.Nodup
import NodeCatalog.After.Order
import NodeCatalog.Proofs.After.Comparison

/-!
# Resolved items

An item is resolved if it follows none, or if it follows a resolved item.  What is below an item
does not depend on when it is asked: `View.below` looks at all items, and an item with the root's id
has nothing below it because the root has claimed its followers.

A search keeps ids whose followers are claimed, and items whose own followers are not: its
`Frontier`.  Claiming the followers of one open item opens these in its place (`Frontier.claim`), in
whatever order the open items are taken.  When no item is open, the items that follow a claimed id
are the resolved ones (`Frontier.after_mem_iff`), so that all searches leave the same pool.
-/

namespace NodeCatalog.After

variable {α : Type u}

/-- An item is resolved if it follows none or a resolved item. -/
inductive Resolved (v : View α) (items : List α) : α → Prop where
  /-- The item follows none. -/
  | first {a : α} : a ∈ items → v.after a = rootId → Resolved v items a
  /-- The item follows a resolved one. -/
  | next {a b : α} : a ∈ items → Resolved v items b → v.after a = v.id b → Resolved v items a

theorem Resolved.mem {v : View α} {items : List α} {a : α} (h : Resolved v items a) :
    a ∈ items := by
  cases h <;> assumption

namespace View

variable {v : View α}

/-- The items declared after an id, as siblings stand. -/
def siblings (v : View α) (items : List α) (id : String) : List α :=
  v.sort (v.followers id items)

/-- The items right below an item. -/
def below (v : View α) (items : List α) (a : α) : List α :=
  if v.id a = rootId then [] else v.siblings items (v.id a)

/-- The items declared after none of some ids. -/
def unclaimed (v : View α) (claimed : List String) (items : List α) : List α :=
  items.filter fun a => decide (v.after a ∉ claimed)

theorem mem_followers {id : String} {items : List α} {a : α} :
    a ∈ v.followers id items ↔ a ∈ items ∧ v.after a = id := by
  simp [followers]

theorem mem_siblings {id : String} {items : List α} {a : α} :
    a ∈ v.siblings items id ↔ a ∈ items ∧ v.after a = id := by
  rw [siblings, mem_sort, mem_followers]

theorem mem_below {items : List α} {a b : α} :
    b ∈ v.below items a ↔ b ∈ items ∧ v.after b = v.id a ∧ v.id a ≠ rootId := by
  rw [below]
  split
  · rename_i hroot
    simp [hroot]
  · rename_i hroot
    simp [mem_siblings, hroot]

theorem nodup_siblings {items : List α} (hids : (items.map v.id).Nodup) (id : String) :
    (v.siblings items id).Nodup :=
  nodup_sort.mpr ((List.Nodup.of_map _ hids).filter _)

theorem nodup_below {items : List α} (hids : (items.map v.id).Nodup) (a : α) :
    (v.below items a).Nodup := by
  rw [below]
  split
  · exact List.nodup_nil
  · exact nodup_siblings hids _

theorem followers_append_others_perm (v : View α) (id : String) (items : List α) :
    (v.followers id items ++ v.others id items).Perm items :=
  List.filter_append_perm _ items

theorem others_eq_unclaimed (v : View α) (id : String) (items : List α) :
    v.others id items = v.unclaimed [id] items := by
  simp [others, unclaimed, beq_eq_decide]

/-- Taking out the followers of one more id claims this id. -/
theorem others_unclaimed (v : View α) (id : String) (claimed : List String) (items : List α) :
    v.others id (v.unclaimed claimed items) = v.unclaimed (id :: claimed) items := by
  rw [others, unclaimed, List.filter_filter, unclaimed]
  refine List.filter_congr fun a _ => ?_
  by_cases h : v.after a = id <;> simp [h]

/-- The followers of an id that is not claimed are all in the pool. -/
theorem followers_unclaimed_of_not_mem {id : String} {claimed : List String}
    (h : id ∉ claimed) (items : List α) :
    v.followers id (v.unclaimed claimed items) = v.followers id items := by
  rw [followers, unclaimed, List.filter_filter, followers]
  refine List.filter_congr fun a _ => ?_
  by_cases ha : v.after a = id
  · simp [ha, h]
  · simp [ha]

/-- The followers of a claimed id are gone. -/
theorem followers_unclaimed_of_mem {id : String} {claimed : List String} (h : id ∈ claimed)
    (items : List α) : v.followers id (v.unclaimed claimed items) = [] := by
  rw [followers, unclaimed, List.filter_filter, List.filter_eq_nil_iff]
  intro a _
  by_cases ha : v.after a = id
  · simp [ha, h]
  · simp [ha]

end View

/-! ### Frontiers -/

/-- Where a search stands: the ids whose followers it has claimed, and the open items, which are
claimed and whose own followers are not. -/
structure Frontier (v : View α) (items : List α) (claimed : List String) (agenda : List α) :
    Prop where
  /-- The root's followers are claimed first. -/
  root_mem : rootId ∈ claimed
  /-- Only the followers of resolved items are claimed. -/
  resolved : ∀ id ∈ claimed, id ≠ rootId →
    ∃ a, v.id a = id ∧ v.after a ∈ claimed ∧ Resolved v items a
  /-- A claimed item is open, or its followers are claimed as well. -/
  covered : ∀ a ∈ items, v.after a ∈ claimed → a ∈ agenda ∨ v.id a ∈ claimed
  /-- Open items are claimed. -/
  after_mem : ∀ a ∈ agenda, a ∈ items ∧ v.after a ∈ claimed
  /-- The followers of an open item are not claimed, unless the root has claimed them. -/
  fresh : ∀ a ∈ agenda, v.id a ∈ claimed → v.id a = rootId
  nodup : agenda.Nodup

/-- Where a search stands when the root's followers are claimed. -/
theorem frontier_root {v : View α} {items : List α} (hids : (items.map v.id).Nodup) :
    Frontier v items [rootId] (v.siblings items rootId) where
  root_mem := List.mem_singleton_self _
  resolved := fun id hid hne => absurd (List.mem_singleton.mp hid) hne
  covered := fun a ha hafter => .inl (View.mem_siblings.mpr ⟨ha, List.mem_singleton.mp hafter⟩)
  after_mem := fun a ha => by
    obtain ⟨ha, hafter⟩ := View.mem_siblings.mp ha
    exact ⟨ha, List.mem_singleton.mpr hafter⟩
  fresh := fun a _ hid => List.mem_singleton.mp hid
  nodup := View.nodup_siblings hids rootId

namespace Frontier

variable {v : View α} {items agenda : List α} {claimed : List String}

/-- Claimed items are resolved. -/
theorem resolved_of_after_mem (h : Frontier v items claimed agenda) {a : α} (ha : a ∈ items)
    (hafter : v.after a ∈ claimed) : Resolved v items a := by
  by_cases hroot : v.after a = rootId
  · exact .first ha hroot
  · obtain ⟨b, hb, -, hresolved⟩ := h.resolved _ hafter hroot
    exact .next ha hresolved hb.symm

theorem perm {agenda' : List α} (h : Frontier v items claimed agenda)
    (hperm : agenda.Perm agenda') : Frontier v items claimed agenda' where
  root_mem := h.root_mem
  resolved := h.resolved
  covered := fun a ha hafter => (h.covered a ha hafter).imp_left hperm.mem_iff.mp
  after_mem := fun a ha => h.after_mem a (hperm.mem_iff.mpr ha)
  fresh := fun a ha => h.fresh a (hperm.mem_iff.mpr ha)
  nodup := hperm.nodup_iff.mp h.nodup

variable {a : α}

/-- What an open item claims is what is below it. -/
theorem sort_followers (h : Frontier v items claimed agenda) (ha : a ∈ agenda) :
    v.sort (v.followers (v.id a) (v.unclaimed claimed items)) = v.below items a := by
  rw [View.below]
  split
  · rename_i hroot
    rw [View.followers_unclaimed_of_mem (hroot ▸ h.root_mem), View.sort, List.mergeSort_nil]
  · rename_i hroot
    rw [View.followers_unclaimed_of_not_mem fun hmem => hroot (h.fresh a ha hmem), View.siblings]

/-- What is below an open item is not claimed yet. -/
theorem not_mem_of_mem_below (h : Frontier v items claimed agenda) (ha : a ∈ agenda) {b : α}
    (hb : b ∈ v.below items a) : v.after b ∉ claimed := by
  obtain ⟨-, heq, hroot⟩ := View.mem_below.mp hb
  exact fun hmem => hroot (h.fresh a ha (heq ▸ hmem))

/-- An open item claims its followers, and they are open in its place. -/
theorem claim (hids : (items.map v.id).Nodup) (h : Frontier v items claimed (a :: agenda)) :
    Frontier v items (v.id a :: claimed) (v.below items a ++ agenda) := by
  obtain ⟨hmem, hafter⟩ := h.after_mem a List.mem_cons_self
  have hnodup := List.nodup_cons.mp h.nodup
  -- nothing else has the id of the item that claims
  have hinj : ∀ b ∈ items, v.id b = v.id a → b = a := fun b hb heq =>
    List.inj_on_of_nodup_map hids hb hmem heq
  have hbelow : ∀ b ∈ v.below items a, v.after b ∉ claimed := fun b hb =>
    h.not_mem_of_mem_below List.mem_cons_self hb
  refine
    { root_mem := List.mem_cons_of_mem _ h.root_mem
      resolved := ?resolved
      covered := ?covered
      after_mem := ?after_mem
      fresh := ?fresh
      nodup := ?nodup }
  case resolved =>
    intro id hid hne
    rcases List.mem_cons.mp hid with rfl | hid
    · exact ⟨a, rfl, List.mem_cons_of_mem _ hafter, h.resolved_of_after_mem hmem hafter⟩
    · obtain ⟨b, hb, hbafter, hresolved⟩ := h.resolved id hid hne
      exact ⟨b, hb, List.mem_cons_of_mem _ hbafter, hresolved⟩
  case covered =>
    intro b hb hbafter
    by_cases hclaimed : v.after b ∈ claimed
    · rcases h.covered b hb hclaimed with hopen | hid
      · rcases List.mem_cons.mp hopen with rfl | hopen
        · exact .inr List.mem_cons_self
        · exact .inl (List.mem_append_right _ hopen)
      · exact .inr (List.mem_cons_of_mem _ hid)
    · have heq : v.after b = v.id a := (List.mem_cons.mp hbafter).resolve_right hclaimed
      refine .inl (List.mem_append_left _ (View.mem_below.mpr ⟨hb, heq, fun hroot => ?_⟩))
      exact hclaimed (heq ▸ hroot ▸ h.root_mem)
  case after_mem =>
    intro b hb
    rcases List.mem_append.mp hb with hb | hb
    · obtain ⟨hb, heq, -⟩ := View.mem_below.mp hb
      exact ⟨hb, heq ▸ List.mem_cons_self⟩
    · obtain ⟨hb, hbafter⟩ := h.after_mem b (List.mem_cons_of_mem _ hb)
      exact ⟨hb, List.mem_cons_of_mem _ hbafter⟩
  case fresh =>
    intro b hb hid
    rcases List.mem_append.mp hb with hb | hb
    · have hbmem := (View.mem_below.mp hb).1
      have hclaimed := hbelow b hb
      rcases List.mem_cons.mp hid with hid | hid
      · -- the item that claims would follow itself, but it is claimed already
        rw [hinj b hbmem hid] at hclaimed
        exact absurd hafter hclaimed
      · by_contra hroot
        obtain ⟨c, hc, hcafter, hresolved⟩ := h.resolved _ hid hroot
        rw [List.inj_on_of_nodup_map hids hresolved.mem hbmem hc] at hcafter
        exact hclaimed hcafter
    · rcases List.mem_cons.mp hid with hid | hid
      · rw [hinj b (h.after_mem b (List.mem_cons_of_mem _ hb)).1 hid] at hb
        exact absurd hb hnodup.1
      · exact h.fresh b (List.mem_cons_of_mem _ hb) hid
  case nodup =>
    rw [List.nodup_append]
    refine ⟨View.nodup_below hids a, hnodup.2, ?_⟩
    rintro b hb c hc rfl
    exact hbelow b hb (h.after_mem b (List.mem_cons_of_mem _ hc)).2

/-- When no item is open, the items that follow a claimed id are the resolved ones. -/
theorem after_mem_iff (h : Frontier v items claimed []) (ha : a ∈ items) :
    v.after a ∈ claimed ↔ Resolved v items a := by
  refine ⟨h.resolved_of_after_mem ha, fun hresolved => ?_⟩
  induction hresolved with
  | first _ hroot => exact hroot ▸ h.root_mem
  | next _ hb heq ih =>
    have hid := (h.covered _ hb.mem (ih hb.mem)).resolve_left List.not_mem_nil
    exact heq ▸ hid

end Frontier

open Classical in
/-- The items that are not resolved, in their order. -/
noncomputable def View.stranded (v : View α) (items : List α) : List α :=
  items.filter fun a => decide ¬Resolved v items a

/-- The items that are not resolved, as siblings stand. -/
noncomputable def View.problems (v : View α) (items : List α) : List α :=
  v.sort (v.stranded items)

theorem View.mem_stranded {v : View α} {items : List α} {a : α} :
    a ∈ v.stranded items ↔ a ∈ items ∧ ¬Resolved v items a := by
  simp [View.stranded]

/-- A search that is through leaves the items that are not resolved. -/
theorem Frontier.unclaimed_eq {v : View α} {items : List α} {claimed : List String}
    (h : Frontier v items claimed []) : v.unclaimed claimed items = v.stranded items := by
  rw [View.unclaimed, View.stranded]
  refine List.filter_congr fun a ha => ?_
  rw [decide_eq_decide, h.after_mem_iff ha]

end NodeCatalog.After
