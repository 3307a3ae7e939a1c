import NodeCatalog.Proofs.After.PreOrder
import NodeCatalog.Proofs.After.Resolved

/-!
# Ordering by plain recursion

The rule by which items are ordered, as one would say it: take all items declared after an id out of
the pool, sort them, and place each in turn, followed by what the same rule places after its own id
out of the pool that is still there.  What is left of the pool in the end is sorted and comes last.

`plainOrder` does just this.  It needs no numbers, no stack and no open nodes, and by
`draw_preOrder` what it places is the pre-order of the resolved items.
-/

namespace NodeCatalog.After

open scoped List

variable {α : Type u}

/-- What is taken out of a pool of some size, in the order in which it is placed, and what is left,
which is no more than there was. -/
structure Drawn (α : Type u) (size : Nat) where
  placed : List α
  left : List α
  length_left_le : left.length ≤ size

/-- Places items one after the other, each followed by all that is drawn after its id out of the
pool that is still there. -/
def drawEach (v : View α) : List α → (pool : List α) → Drawn α pool.length
  | [], pool => ⟨[], pool, Nat.le_refl _⟩
  | a :: items, pool =>
    let inner := drawEach v (v.sort (v.followers (v.id a) pool)) (v.others (v.id a) pool)
    let rest := drawEach v items inner.left
    { placed := a :: (inner.placed ++ rest.placed)
      left := rest.left
      length_left_le := Nat.le_trans rest.length_left_le
        (Nat.le_trans inner.length_left_le (List.length_filter_le _ pool)) }
termination_by items pool => items.length + pool.length
decreasing_by
  · have := v.length_followers_add_length_others (v.id a) pool
    simp only [View.length_sort, List.length_cons]
    omega
  · have := Nat.le_trans inner.length_left_le (List.length_filter_le _ pool)
    exact Nat.add_lt_add_of_lt_of_le (Nat.lt_succ_self _) this

/-- Takes the items declared after an id out of the pool, sorts them, and places each in turn. -/
def draw (v : View α) (id : String) (pool : List α) : Drawn α (v.others id pool).length :=
  drawEach v (v.sort (v.followers id pool)) (v.others id pool)

/-- The items that are drawn after the root's id. -/
def View.placed (v : View α) (items : List α) : List α :=
  (draw v rootId items).placed

/-- The items as the plain rule orders them, with the problems at the end. -/
def plainOrder (v : View α) (items : List α) : Ordered α :=
  let drawn := draw v rootId items
  let problems := v.sort drawn.left
  ⟨drawn.placed ++ problems, problems⟩

/-- What is placed and what is left are the items and the pool that were given. -/
theorem drawEach_perm (v : View α) (items pool : List α) :
    ((drawEach v items pool).placed ++ (drawEach v items pool).left).Perm (items ++ pool) := by
  fun_induction drawEach v items pool with
  | case1 pool => exact .refl _
  | case2 a items pool inner rest ihinner ihrest =>
    refine .cons a ?_
    calc inner.placed ++ rest.placed ++ rest.left
      _ = inner.placed ++ (rest.placed ++ rest.left) := List.append_assoc _ _ _
      _ ~ inner.placed ++ (items ++ inner.left) := ihrest.append_left _
      _ ~ items ++ (inner.placed ++ inner.left) := List.perm_append_comm_assoc _ _ _
      _ ~ items ++ (v.sort (v.followers (v.id a) pool) ++ v.others (v.id a) pool) :=
        ihinner.append_left _
      _ ~ items ++ (v.followers (v.id a) pool ++ v.others (v.id a) pool) :=
        ((v.sort_perm _).append_right _).append_left _
      _ ~ items ++ pool := (v.followers_append_others_perm _ _).append_left _

/-- Placing the first open items gives the pre-order below them, and closes them. -/
theorem drawEach_preOrder {v : View α} {items : List α} (hids : (items.map v.id).Nodup)
    (first pool : List α) : ∀ claimed agenda, pool = v.unclaimed claimed items →
      Frontier v items claimed (first ++ agenda) →
      PreOrder (v.below items) first (drawEach v first pool).placed ∧
        ∃ claimed', (drawEach v first pool).left = v.unclaimed claimed' items ∧
          Frontier v items claimed' agenda := by
  fun_induction drawEach v first pool with
  | case1 pool => exact fun claimed agenda hpool h => ⟨.nil, claimed, hpool, h⟩
  | case2 a first pool inner rest ihinner ihrest =>
    rintro claimed agenda rfl h
    have hsort := h.sort_followers List.mem_cons_self
    obtain ⟨hbelow, claimed₁, hleft₁, hfrontier₁⟩ := ihinner _ _ (v.others_unclaimed _ _ _)
      (hsort ▸ h.claim hids)
    obtain ⟨hrest, claimed₂, hleft₂, hfrontier₂⟩ := ihrest _ _ hleft₁ hfrontier₁
    exact ⟨.cons (hsort ▸ hbelow) hrest, claimed₂, hleft₂, hfrontier₂⟩

/-- The plain rule places the resolved items in pre-order and leaves the others. -/
theorem draw_preOrder {v : View α} {items : List α} (hids : (items.map v.id).Nodup) :
    PreOrder (v.below items) (v.siblings items rootId) (v.placed items) ∧
      (draw v rootId items).left = v.stranded items := by
  have hfrontier := frontier_root hids
  rw [← List.append_nil (v.siblings items rootId)] at hfrontier
  obtain ⟨hplaced, claimed, hleft, hclosed⟩ := drawEach_preOrder hids _ _ _ _
    (v.others_eq_unclaimed rootId items) hfrontier
  exact ⟨hplaced, hleft.trans hclosed.unclaimed_eq⟩

/-- What is placed and what is not resolved are all items. -/
theorem placed_perm {v : View α} {items : List α} (hids : (items.map v.id).Nodup) :
    (v.placed items ++ v.stranded items).Perm items := by
  rw [← (draw_preOrder hids).2]
  calc v.placed items ++ (draw v rootId items).left
    _ ~ v.sort (v.followers rootId items) ++ v.others rootId items := drawEach_perm v _ _
    _ ~ v.followers rootId items ++ v.others rootId items := (v.sort_perm _).append_right _
    _ ~ items := v.followers_append_others_perm rootId items

end NodeCatalog.After
