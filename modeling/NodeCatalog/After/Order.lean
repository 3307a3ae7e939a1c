import NodeCatalog.After.Forest

/-!
# Display order

`orderGroup` puts the items of one group into their final order and tells which of them could not
be placed; `order` does so for both groups, categories first.  Nothing but a repeated id is refused:
`firstRepeated` is the first id, in input order, that an earlier item of the group has too.
-/

namespace NodeCatalog.After

variable {α : Type u}

/-- Two items of one group share this id. -/
structure Repeated where
  id : String
deriving DecidableEq, Repr

/-- Items in their final order. -/
structure Ordered (α : Type u) where
  /-- All items. -/
  items : List α
  /-- Those that could not be placed; they stand in `items` too, at the end of their group. -/
  problems : List α
deriving Repr

namespace Ordered

/-- Whether an item could not be placed. -/
def hasProblems (o : Ordered α) : Bool :=
  !o.problems.isEmpty

/-- One group after the other. -/
def append (a b : Ordered α) : Ordered α :=
  ⟨a.items ++ b.items, a.problems ++ b.problems⟩

end Ordered

/-- The first id that occurs among those before it or in `seen`. -/
def firstRepeated (seen : List String) : List String → Option String
  | [] => none
  | id :: ids => if id ∈ seen then some id else firstRepeated (id :: seen) ids

/-- Orders the items of one group. -/
def orderGroup (v : View α) (items : List α) : Except Repeated (Ordered α) :=
  match firstRepeated [] (items.map v.id) with
  | some id => .error ⟨id⟩
  | none =>
    let forest := Forest.build v items
    .ok ⟨forest.flatten, forest.unresolved⟩

/-- Orders categories and leaves, each group for itself, categories first. -/
def order (v : View α) (items : List α) : Except Repeated (Ordered α) := do
  let categories ← orderGroup v (v.ofKind .category items)
  let leaves ← orderGroup v (v.ofKind .leaf items)
  return categories.append leaves

/-! ### Repeated ids -/

/-- An id is refused exactly if some id occurs twice or was seen before. -/
theorem firstRepeated_eq_none_iff {seen ids : List String} :
    firstRepeated seen ids = none ↔ ids.Nodup ∧ ∀ id ∈ ids, id ∉ seen := by
  induction ids generalizing seen with
  | nil => simp [firstRepeated]
  | cons id ids ih =>
    rw [firstRepeated]
    split
    · simp_all
    · rw [ih, List.nodup_cons]
      constructor
      · rintro ⟨hn, hs⟩
        refine ⟨⟨fun h => (hs id h) List.mem_cons_self, hn⟩, fun x hx => ?_⟩
        rcases List.mem_cons.mp hx with rfl | hx
        · assumption
        · exact fun h => hs x hx (List.mem_cons_of_mem _ h)
      · rintro ⟨⟨hi, hn⟩, hs⟩
        refine ⟨hn, fun x hx h => ?_⟩
        rcases List.mem_cons.mp h with rfl | h
        · exact hi hx
        · exact hs x (List.mem_cons_of_mem _ hx) h

end NodeCatalog.After
