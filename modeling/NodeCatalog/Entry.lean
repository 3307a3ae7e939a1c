import NodeCatalog.After.Order
import NodeCatalog.Category
import NodeCatalog.Template

/-!
# Entries

An entry of the catalog is a category with what it holds, or a template.  Entries form a tree whose
inner nodes are categories; `Entry.forest_induction` is the principle by which facts about lists of
entries are proved.
-/

namespace NodeCatalog

/-- An entry of the catalog. -/
inductive Entry where
  /-- A category, whether it sorts what it holds, and what it holds in insertion order. -/
  | category (c : Category) (sorted : Bool) (entries : List Entry)
  | template (t : Template)

/-- What the root or a category holds. -/
structure Container where
  /-- Whether the entries are shown in after order rather than in insertion order. -/
  sorted : Bool := true
  /-- The entries in insertion order. -/
  entries : List Entry := []

namespace Entry

/-- Proves a fact about lists of entries by taking them apart at their first entry. -/
theorem forest_induction {motive : List Entry → Prop} (nil : motive [])
    (category : ∀ c sorted entries rest, motive entries → motive rest →
      motive (.category c sorted entries :: rest))
    (template : ∀ t rest, motive rest → motive (.template t :: rest)) :
    ∀ entries, motive entries := by
  let whole : Entry → Prop := fun e => match e with
    | .category _ _ entries => motive entries
    | .template _ => True
  intro entries
  refine @Entry.rec_1 whole motive ?_ ?_ nil ?_ entries
  · exact fun _ _ _ h => h
  · exact fun _ => trivial
  · intro e rest he hrest
    cases e with
    | category c sorted entries => exact category c sorted entries rest he hrest
    | template t => exact template t rest hrest

/-! ### Parts -/

/-- The id of an entry. -/
def id : Entry → String
  | category c _ _ => c.id
  | template t => t.id

/-- The name of an entry. -/
def name : Entry → String
  | category c _ _ => c.name
  | template t => t.name

/-- The id of the sibling an entry follows. -/
def after : Entry → String
  | category c _ _ => c.after
  | template t => t.after

/-- The path an entry is declared below. -/
def path : Entry → String
  | category c _ _ => c.path
  | template t => t.path

/-- The group an entry is ordered in. -/
def kind : Entry → After.Kind
  | category .. => .category
  | template _ => .leaf

/-- The word for what an entry is. -/
def label : Entry → String
  | category .. => "category"
  | template t => t.label

/-- The declaration of a category. -/
def category? : Entry → Option Category
  | category c _ _ => some c
  | template _ => none

/-- The node template that an entry is. -/
def node? : Entry → Option NodeTemplate
  | template (.node t) => some t
  | _ => none

/-- What a category holds. -/
def container? : Entry → Option Container
  | category _ sorted entries => some ⟨sorted, entries⟩
  | template _ => none

/-- The value an entry is written as, without what it holds. -/
def value : Entry → Json.Value
  | category c _ _ => c.value
  | template t => t.value

/-- A category with what it holds. -/
def ofCategory (c : Category) (k : Container) : Entry :=
  category c k.sorted k.entries

/-- Reads a category.  It comes with a new container, as none is written. -/
def readCategory (text : String) : Except Json.Failure Entry :=
  (Category.form.parse text).map fun c => ofCategory c {}

/-- How entries are seen by the ordering: siblings compare by name, then by id. -/
def view : After.View Entry where
  id := id
  after := after
  kind := kind
  compare := After.View.byName name id

/-- Whether two entries exclude each other in one container. -/
def clashes (a b : Entry) : Bool :=
  a.id == b.id && a.kind == b.kind

/-! ### Walking -/

mutual

/-- An entry and all it holds, each with its depth, an entry before those it holds. -/
def walk (depth : Nat) : Entry → List (Nat × Entry)
  | category c sorted entries =>
    (depth, category c sorted entries) :: walkAll (depth + 1) entries
  | template t => [(depth, template t)]

/-- The entries of a list and all they hold. -/
def walkAll (depth : Nat) : List Entry → List (Nat × Entry)
  | [] => []
  | e :: es => walk depth e ++ walkAll depth es

end

/-! ### Relocating -/

mutual

/-- The entry below another path, and all it holds below the path that it has then. -/
def relocate (path : String) : Entry → Entry
  | category c sorted entries =>
    category { c with path } sorted (relocateAll (Path.join path c.id) entries)
  | template t => template (t.withPath path)

/-- The entries of a list below another path. -/
def relocateAll (path : String) : List Entry → List Entry
  | [] => []
  | e :: es => relocate path e :: relocateAll path es

end

theorem relocateAll_eq_map (path : String) (es : List Entry) :
    relocateAll path es = es.map (relocate path) := by
  induction es with
  | nil => rfl
  | cons e es ih => rw [relocateAll, ih, List.map_cons]

@[simp] theorem id_relocate (path : String) (e : Entry) : (e.relocate path).id = e.id := by
  cases e with
  | category c sorted entries => rfl
  | template t => cases t <;> rfl

@[simp] theorem kind_relocate (path : String) (e : Entry) : (e.relocate path).kind = e.kind := by
  cases e <;> rfl

/-- A relocated entry is declared below the path it is given. -/
@[simp] theorem path_relocate (path : String) (e : Entry) : (e.relocate path).path = path := by
  cases e with
  | category c sorted entries => rfl
  | template t => cases t <;> rfl

end Entry

end NodeCatalog
