import NodeCatalog.After.View

/-!
# The forest of after declarations

An item hangs below the item it is declared after, or below the root if it names the root's id.  The
forest is kept as a list of nodes in the order in which they are made; node 0 is the root and holds
no item.  `build` takes open nodes from a stack: the node on top claims its followers from the pool
of items that hang nowhere yet, they become its children in sorted order, and the last of them is
open next.  Items still in the pool at the end cannot be reached from the root.

The loop ends because each round takes one node from the stack and every item leaves the pool at
most once: stack and pool together lose one member a round.
-/

namespace NodeCatalog.After

variable {α : Type u}

/-- A node of the forest. -/
structure Node (α : Type u) where
  /-- The item of the node; the root has none. -/
  item : Option α
  /-- The numbers of the child nodes, in sibling order. -/
  children : List Nat
deriving Repr

/-- The forest of some items. -/
structure Forest (α : Type u) where
  /-- The nodes by number, the root first. -/
  nodes : List (Node α)
  /-- The items that cannot be reached from the root, sorted. -/
  unresolved : List α
deriving Repr

namespace Forest

/-- The node of an item that has no children yet. -/
def leaf (a : α) : Node α :=
  ⟨some a, []⟩

/-- Grows the nodes until no node is open.  An open node is its number and the id its followers
name; the answer is the nodes and the items that are left. -/
def grow (v : View α) (nodes : List (Node α)) :
    List (Nat × String) → List α → List (Node α) × List α
  | [], pool => (nodes, pool)
  | (number, id) :: stack, pool =>
    let claimed := v.sort (v.followers id pool)
    let numbers := List.range' nodes.length claimed.length
    -- the new nodes stand behind all others, so that they are numbered from there
    let grown := nodes.modify number (fun node => { node with children := numbers })
      ++ claimed.map leaf
    -- the last child is on top, and is open next
    grow v grown ((numbers.zip (claimed.map v.id)).reverse ++ stack) (v.others id pool)
termination_by stack pool => stack.length + pool.length
decreasing_by
  have := v.length_followers_add_length_others id pool
  simp only [List.length_append, List.length_reverse, List.length_zip, List.length_range',
    List.length_map, View.length_sort, Nat.min_self, List.length_cons]
  omega

/-- The forest of a list of items. -/
def build (v : View α) (items : List α) : Forest α :=
  let (nodes, left) := grow v [⟨none, []⟩] [(0, rootId)] items
  ⟨nodes, v.sort left⟩

/-- The numbers of the root's children. -/
def rootChildren (f : Forest α) : List Nat :=
  match f.nodes with
  | [] => []
  | root :: _ => root.children

/-- The items of the nodes on an agenda, each followed by those of its children.  Every round takes
one node, so that as many rounds as there are nodes suffice. -/
def visit (f : Forest α) : Nat → List Nat → List α
  | 0, _ => []
  | _, [] => []
  | rounds + 1, number :: agenda =>
    match f.nodes[number]? with
    | none => visit f rounds agenda
    | some node => node.item.toList ++ visit f rounds (node.children ++ agenda)

/-- The items of the forest in pre-order. -/
def preOrder (f : Forest α) : List α :=
  f.visit f.nodes.length f.rootChildren

/-- All items: those of the forest in pre-order, then the unresolved ones. -/
def flatten (f : Forest α) : List α :=
  f.preOrder ++ f.unresolved

end Forest

end NodeCatalog.After
