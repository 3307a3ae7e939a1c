import NodeCatalog.Catalog.Insert

/-!
# Assembling a catalog

Contributions come in any order and are inserted in one go: categories first, then node sets, nodes
and meta nodes.  A category whose parent is not there yet is deferred; rounds go on until one places
nothing or nothing is left.  What cannot be inserted is skipped with a reason and stops nothing.

No round defers more categories than it was given (`length_deferred_place_le`), so that a round that
does not leave fewer has placed nothing.
-/

namespace NodeCatalog

/-- A category that is contributed, with what it holds. -/
structure Branch where
  category : Category
  entries : List Entry

/-- What is contributed to a catalog. -/
structure Contributions where
  settings : Settings := {}
  categories : List Branch := []
  nodes : List NodeTemplate := []
  metaNodes : List MetaTemplate := []
  nodeSets : List NodeSet := []

/-- What a contribution that was skipped is. -/
inductive Skipped.Kind where
  | category
  | node
  | metaNode
  | nodeSet
deriving DecidableEq, Repr

/-- The word for what was skipped. -/
def Skipped.Kind.label : Skipped.Kind → String
  | category => "category"
  | node => "node"
  | metaNode => "meta_node"
  | nodeSet => "node_set"

/-- Why a contribution was skipped. -/
inductive Skipped.Reason where
  /-- A sibling of its kind has its id. -/
  | duplicate
  /-- It was refused. -/
  | refused (fault : Fault)
deriving DecidableEq, Repr

/-- The text of a reason. -/
def Skipped.Reason.message : Skipped.Reason → String
  | duplicate => "duplicate id"
  | refused fault => fault.message

/-- A contribution that is left out. -/
structure Skipped where
  kind : Skipped.Kind
  id : String
  reason : Skipped.Reason
deriving DecidableEq, Repr

/-- The warning of a contribution that is left out. -/
def Skipped.warning (s : Skipped) : String :=
  "Skipped " ++ s.kind.label ++ " '" ++ s.id ++ "': " ++ s.reason.message

/-- An assembled catalog. -/
structure Assembly where
  catalog : Catalog
  /-- The contributions that are left out. -/
  skipped : List Skipped
  /-- The warnings given on the way. -/
  warnings : List String

/-- Whether every contribution was inserted. -/
def Assembly.isComplete (a : Assembly) : Bool :=
  a.skipped.isEmpty

namespace Contributions

/-! ### Categories -/

/-- What a round of placing categories leaves. -/
structure Round where
  catalog : Catalog
  /-- The categories whose parent is not there. -/
  deferred : List Branch
  /-- The categories that no further round can place. -/
  skipped : List Skipped

/-- Tries to insert each of some categories. -/
def place (cat : Catalog) : List Branch → Round
  | [] => ⟨cat, [], []⟩
  | b :: bs =>
    let first := cat.addCategory b.category b.entries
    let round := place first.catalog bs
    match first.answer with
    | .ok true => round
    | .ok false =>
      { round with skipped := ⟨.category, b.category.id, .duplicate⟩ :: round.skipped }
    | .error (.segmentNotFound _ _) => { round with deferred := b :: round.deferred }
    | .error fault =>
      { round with skipped := ⟨.category, b.category.id, .refused fault⟩ :: round.skipped }

theorem length_deferred_place_le (cat : Catalog) (bs : List Branch) :
    (place cat bs).deferred.length ≤ bs.length := by
  induction bs generalizing cat with
  | nil => simp [place]
  | cons b bs ih =>
    have := ih (cat.addCategory b.category b.entries).catalog
    rw [place]
    split <;> simp only [List.length_cons] <;> omega

/-- The first segment of a path that is missing; the path itself if none is. -/
def firstMissing (cat : Catalog) (path : String) : String :=
  match cat.containerAt path with
  | .error (.segmentNotFound segment _) => segment
  | _ => path

/-- A category whose parent never came. -/
def orphan (cat : Catalog) (b : Branch) : Skipped :=
  ⟨.category, b.category.id,
    .refused (.segmentNotFound (firstMissing cat b.category.path) b.category.path)⟩

/-- Inserts categories in rounds.  A further round follows if the last one left some categories, but
fewer than it was given. -/
def placeAll (cat : Catalog) (pending : List Branch) : Catalog × List Skipped :=
  let round := place cat pending
  -- a round that defers all it was given has placed nothing, and the next would do the same
  if round.deferred.length < pending.length ∧ ¬round.deferred.isEmpty then
    let (catalog, skipped) := placeAll round.catalog round.deferred
    (catalog, round.skipped ++ skipped)
  else (round.catalog, round.skipped ++ round.deferred.map (orphan round.catalog))
termination_by pending.length
decreasing_by
  rename_i h
  exact h.1

/-! ### Templates and node sets -/

/-- Inserts things one after the other and skips those that are not added. -/
def insertEach {α : Type} (kind : Skipped.Kind) (id : α → String)
    (insert : Catalog → α → Edited Bool) (cat : Catalog) : List α → Catalog × List Skipped
  | [] => (cat, [])
  | a :: as =>
    let first := insert cat a
    let (catalog, skipped) := insertEach kind id insert first.catalog as
    match first.answer with
    | .ok true => (catalog, skipped)
    | .ok false => (catalog, ⟨kind, id a, .duplicate⟩ :: skipped)
    | .error fault => (catalog, ⟨kind, id a, .refused fault⟩ :: skipped)

/-- Inserts node sets one after the other and skips those that are refused. -/
def insertSets (cat : Catalog) : List NodeSet → Catalog × List Skipped
  | [] => (cat, [])
  | set :: sets =>
    let first := cat.addNodeSet set
    let (catalog, skipped) := insertSets first.catalog sets
    match first.answer with
    | .ok _ => (catalog, skipped)
    | .error fault => (catalog, ⟨.nodeSet, set.id, .refused fault⟩ :: skipped)

/-! ### The whole -/

/-- The warnings of a report, or that there is none. -/
def reportWarnings (cat : Catalog) : List String :=
  match cat.report with
  | .ok report => report.warnings
  | .error fault => ["Could not check after declarations: " ++ fault.message]

/-- Assembles the catalog of all contributions. -/
def assemble (c : Contributions) : Assembly :=
  let (cat, categories) := placeAll (.empty c.settings) c.categories
  let (cat, sets) := insertSets cat c.nodeSets
  let (cat, nodes) := insertEach .node (fun t => t.id) Catalog.addNode cat c.nodes
  let (cat, metaNodes) := insertEach .metaNode (fun t => t.id) Catalog.addMetaNode cat c.metaNodes
  let skipped := categories ++ sets ++ nodes ++ metaNodes
  { catalog := cat
    skipped := skipped
    warnings := skipped.map Skipped.warning ++ reportWarnings cat }

end Contributions

end NodeCatalog
