import NodeCatalog.Template

/-!
# Node sets

A node set declares a family of node templates at once, each with its own category path.  The ids of
its templates start with the id of the set.
-/

namespace NodeCatalog

/-- One member of a node set. -/
structure NodeSet.Member where
  /-- The id within the set. -/
  id : String
  /-- The name that is shown. -/
  name : String
  /-- The factory that creates the node. -/
  factory : String
  /-- The path of the category that shows it. -/
  path : String := ""
  /-- The id of the sibling it follows; empty if it follows none. -/
  after : String := ""
  type : NodeType := .other
deriving DecidableEq, Repr

/-- A family of node templates. -/
structure NodeSet where
  id : String
  /-- The plugin that declares the set. -/
  plugin : Option String := none
  /-- The icon of categories that are made for the set. -/
  categoryIcon : Option String := none
  /-- Whether only experts see its nodes. -/
  expert : Bool := false
  members : List NodeSet.Member := []
deriving DecidableEq, Repr

namespace NodeSet

/-- The template of a member. -/
def template (set : NodeSet) (m : Member) : NodeTemplate where
  id := set.id ++ "." ++ m.id
  name := m.name
  after := m.after
  factory := m.factory
  path := m.path
  type := m.type
  expert := set.expert
  plugin := set.plugin

/-- The templates of a set, in the order of its members. -/
def templates (set : NodeSet) : List NodeTemplate :=
  set.members.map set.template

/-! ### Text form -/

namespace Member

/-- The value a member is written as. -/
def value (m : Member) : Json.Value :=
  .object
    [("factoryId", .text m.id), ("name", .text m.name), ("factory", .text m.factory),
      ("categoryPath", .text m.path), ("afterId", .text m.after),
      ("nodeType", NodeType.form.value m.type)]

open Json in
/-- The fields of a member. -/
def schema (depth : Nat) : Schema Member where
  blank := { id := "", name := "", factory := "" }
  fields :=
    [.needed "factoryId" .text fun s m => { m with id := s },
      .needed "name" .text fun s m => { m with name := s },
      .needed "factory" .text fun s m => { m with factory := s },
      .free "categoryPath" .text fun s m => { m with path := s },
      .free "afterId" .text fun s m => { m with after := s },
      .free "nodeType" (NodeType.form.reader depth) fun n m => { m with type := n }]

/-- How members are written and read. -/
def form : Json.Form Member where
  value := value
  reader depth := .record "NodeSetEntry" (Json.nested depth schema)

end Member

/-- The value a node set is written as. -/
def value (set : NodeSet) : Json.Value :=
  .object <|
    ("id", .text set.id) :: Json.optionalMember "pluginId" set.plugin
    ++ Json.optionalMember "defaultCategoryIcon" set.categoryIcon
    ++ [("expert", .flag set.expert), ("entries", .array (set.members.map Member.value))]

open Json in
/-- The fields of a node set. -/
def schema (depth : Nat) : Schema NodeSet where
  blank := { id := "" }
  fields :=
    [.needed "id" .text fun s set => { set with id := s },
      .free "pluginId" (.optional .text) fun s set => { set with plugin := s },
      .free "defaultCategoryIcon" (.optional .text) fun s set => { set with categoryIcon := s },
      .free "expert" .flag fun b set => { set with expert := b },
      .free "entries" (.list (nested depth Member.form.reader)) fun ms set =>
        { set with members := ms }]

/-- How node sets are written and read. -/
def form : Json.Form NodeSet where
  value := value
  reader depth := .record "NodeSetContribution" (Json.nested depth schema)

end NodeSet

end NodeCatalog
