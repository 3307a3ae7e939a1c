/-!
# Items that follow one another

Siblings may name the sibling they want to follow.  A `View` says how items of some type are seen by
the ordering: their id, the id they are declared after, the group they belong to, and how two of
them compare.  The ordering itself knows items through their view only, so that it serves catalog
entries as well as any other items; `View.comap` looks at one type through another.
-/

namespace NodeCatalog.After

/-- The two groups that are ordered apart. -/
inductive Kind where
  /-- Items that hold others; they come first. -/
  | category
  /-- Items that hold nothing; they come after all categories. -/
  | leaf
deriving DecidableEq, Repr

/-- The id of the root, which is the id an item names that follows no other. -/
def rootId : String := ""

/-- How items of a type are seen by the ordering. -/
structure View (α : Type u) where
  /-- The id of an item, unique within its group. -/
  id : α → String
  /-- The id of the item it is declared after; the root's id if it follows none. -/
  after : α → String
  /-- The group it is ordered in. -/
  kind : α → Kind
  /-- How siblings compare. -/
  compare : α → α → Ordering

namespace View

variable {α : Type u} {β : Type v}

/-- The comparison by name, then by id, both by code point. -/
def byName (name id : α → String) (a b : α) : Ordering :=
  (Ord.compare (name a) (name b)).then (Ord.compare (id a) (id b))

/-- Whether `a` may stand before `b` among siblings. -/
def le (v : View α) (a b : α) : Bool :=
  (v.compare a b).isLE

/-- Items of another type, seen through `f`. -/
def comap (f : β → α) (v : View α) : View β where
  id b := v.id (f b)
  after b := v.after (f b)
  kind b := v.kind (f b)
  compare a b := v.compare (f a) (f b)

/-- The items of one group, in their order. -/
def ofKind (v : View α) (k : Kind) (items : List α) : List α :=
  items.filter fun a => v.kind a == k

/-- The items declared after `id`, in their order. -/
def followers (v : View α) (id : String) (items : List α) : List α :=
  items.filter fun a => v.after a == id

/-- The items not declared after `id`, in their order. -/
def others (v : View α) (id : String) (items : List α) : List α :=
  items.filter fun a => !(v.after a == id)

/-- Items as siblings stand: sorted, equal ones in their order. -/
def sort (v : View α) (items : List α) : List α :=
  items.mergeSort v.le

/-- Followers and others part the items. -/
theorem length_followers_add_length_others (v : View α) (id : String) (items : List α) :
    (v.followers id items).length + (v.others id items).length = items.length := by
  induction items with
  | nil => rfl
  | cons a items ih =>
    simp only [followers, others, List.filter_cons, List.length_cons] at ih ⊢
    cases v.after a == id <;> simp <;> omega

@[simp] theorem length_sort (v : View α) (items : List α) :
    (v.sort items).length = items.length :=
  List.length_mergeSort items

end View

end NodeCatalog.After
