import NodeCatalog.Container.Display

/-!
# Snapshots

A snapshot is the tree as it is shown: what every container shows, in that order, with a mark on the
entries that could not be placed.  It is a value of its own, written and read like other records.

`capture` takes it of a container, `walk` lists it from top to bottom.
-/

namespace NodeCatalog

/-- An entry of a snapshot. -/
structure Snapshot.Node where
  id : String
  name : String
  /-- The word for what the entry is. -/
  kind : String
  /-- The factory of a node template. -/
  factory : Option String := none
  /-- Whether the entry could not be placed. -/
  problem : Bool := false
  children : List Snapshot.Node := []
deriving Repr, BEq

/-- The tree as it is shown. -/
structure Snapshot where
  children : List Snapshot.Node
deriving Repr, BEq

namespace Snapshot

/-! ### Capturing -/

/-- What an entry shows, with the nodes of what it holds. -/
def Node.ofEntry (e : Entry) (problem : Bool) (children : List Node) : Node where
  id := e.id
  name := e.name
  kind := e.label
  factory := e.node?.map fun t => t.factory
  problem := problem
  children := children

/-- The nodes of entries that carry the nodes of what they hold.  The problems are known by kind and
id, which no two entries share where there are problems. -/
def shownNodes (sorted : Bool) (things : List (Entry × Except Fault (List Node))) :
    Except Fault (List Node) := do
  let shown ← Container.arrange Prod.fst sorted things
  shown.items.mapM fun p => do
    let children ← p.2
    return .ofEntry p.1 (shown.problems.any fun q => q.1.clashes p.1) children

mutual

/-- The nodes of what an entry holds. -/
def nodesWithin : Entry → Except Fault (List Node)
  | .category _ sorted entries => shownNodes sorted (nodesEach entries)
  | .template _ => .ok []

/-- Each entry with the nodes of what it holds. -/
def nodesEach : List Entry → List (Entry × Except Fault (List Node))
  | [] => []
  | e :: es => (e, nodesWithin e) :: nodesEach es

end

/-- The snapshot of a container. -/
def capture (k : Container) : Except Fault Snapshot := do
  let children ← shownNodes k.sorted (nodesEach k.entries)
  return ⟨children⟩

/-! ### Walking -/

mutual

/-- How many nodes there are: a node and all below it. -/
def Node.size : Node → Nat
  | ⟨_, _, _, _, _, children⟩ => sizes children + 1

/-- How many nodes there are in a list and below it. -/
def sizes : List Node → Nat
  | [] => 0
  | n :: ns => n.size + sizes ns

end

theorem sizes_append (ns ms : List Node) : sizes (ns ++ ms) = sizes ns + sizes ms := by
  induction ns with
  | nil => rw [List.nil_append, sizes, Nat.zero_add]
  | cons n ns ih => rw [List.cons_append, sizes, sizes, ih, Nat.add_assoc]

theorem Node.size_eq (n : Node) : n.size = sizes n.children + 1 := by
  cases n with
  | mk => rfl

/-- Nodes that all have the same depth. -/
def atDepth (depth : Nat) (nodes : List Node) : List (Nat × Node) :=
  nodes.map fun n => (depth, n)

@[simp] theorem map_snd_atDepth (depth : Nat) (nodes : List Node) :
    (atDepth depth nodes).map Prod.snd = nodes := by
  rw [atDepth, List.map_map]
  exact List.map_id' nodes

/-- Lists the nodes on a stack and all below them, each by its depth and id.  The node on top is
taken off and listed, and its children are put on, the last one first. -/
def walkFrom : List (Nat × Node) → List (Nat × String)
  | [] => []
  | (depth, n) :: stack =>
    -- the first child is on top, and is listed next
    (depth, n.id) :: walkFrom (atDepth (depth + 1) n.children ++ stack)
termination_by stack => sizes (stack.map Prod.snd)
decreasing_by
  rw [List.map_append, map_snd_atDepth, sizes_append, List.map_cons, sizes, n.size_eq]
  omega

/-- The ids from top to bottom, with their depths. -/
def walk (s : Snapshot) : List (Nat × String) :=
  walkFrom (atDepth 0 s.children)

/-! ### Text form -/

/-- The member that says that an entry could not be placed. -/
def problemMember (problem : Bool) : List (String × Json.Value) :=
  if problem then [("problem", .flag true)] else []

/-- The member of a list, none where the list is empty. -/
def childrenMember : List Json.Value → List (String × Json.Value)
  | [] => []
  | v :: vs => [("children", .array (v :: vs))]

mutual

/-- The value a node is written as. -/
def nodeValue : Node → Json.Value
  | ⟨id, name, kind, factory, problem, children⟩ =>
    .object <|
      [("id", .text id), ("name", .text name), ("kind", .text kind)]
      ++ Json.optionalMember "factory" factory ++ problemMember problem
      ++ childrenMember (nodeValues children)

/-- The values that nodes are written as. -/
def nodeValues : List Node → List Json.Value
  | [] => []
  | n :: ns => nodeValue n :: nodeValues ns

end

open Json in
/-- The fields of a node, with the reader for the nodes below it. -/
def nodeSchema (children : Reader (List Node)) : Schema Node where
  blank := { id := "", name := "", kind := "" }
  fields :=
    [.needed "id" .text fun s n => { n with id := s },
      .needed "name" .text fun s n => { n with name := s },
      .needed "kind" .text fun s n => { n with kind := s },
      .free "factory" (.optional .text) fun s n => { n with factory := s },
      .free "problem" .flag fun b n => { n with problem := b },
      .free "children" children fun ns n => { n with children := ns }]

/-- The reader for nodes.  A node and the list of those below it nest one level each. -/
def nodeReader : Nat → Json.Reader Node
  | 0 => .record "SnapshotNode" none
  | 1 => .record "SnapshotNode" (some (nodeSchema (.list none)))
  | depth + 2 => .record "SnapshotNode" (some (nodeSchema (.list (some (nodeReader depth)))))

/-- How nodes are written and read. -/
def nodeForm : Json.Form Node where
  value := nodeValue
  reader := nodeReader

/-- The value a snapshot is written as. -/
def value (s : Snapshot) : Json.Value :=
  .object [("children", .array (nodeValues s.children))]

open Json in
/-- The fields of a snapshot. -/
def schema (depth : Nat) : Schema Snapshot where
  blank := ⟨[]⟩
  fields :=
    [.needed "children" (.list (nested depth nodeReader)) fun ns s => { s with children := ns }]

/-- How snapshots are written and read. -/
def form : Json.Form Snapshot where
  value := value
  reader depth := .record "TreeSnapshot" (Json.nested depth schema)

end Snapshot

end NodeCatalog
