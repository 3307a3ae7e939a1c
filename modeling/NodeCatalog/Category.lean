import NodeCatalog.Json.Form
import NodeCatalog.Path

/-!
# Categories

A category is what a plugin declares: its id among its siblings, the path of its parent, and what is
shown of it.  What it holds is not part of the declaration and is neither written nor read.
-/

namespace NodeCatalog

/-- A declared category. -/
structure Category where
  /-- The id, unique among sibling categories. -/
  id : String
  /-- The name that is shown. -/
  name : String
  /-- The id of the sibling it follows; empty if it follows none. -/
  after : String := ""
  description : String := ""
  /-- The path of the parent. -/
  path : String := Path.root
  /-- The plugin that declares it. -/
  plugin : Option String := none
  /-- Where its icon is found. -/
  icon : Option String := none
deriving DecidableEq, Repr

namespace Category

/-- The name of a category that is declared without one. -/
def missingName : String := "!name is missing!"

/-- A category at the root. -/
def named (id name : String) : Category :=
  { id, name := if name.isEmpty then missingName else name }

/-- The path of the category itself. -/
def fullPath (c : Category) : String :=
  Path.join c.path c.id

/-- The category in one line. -/
def describe (c : Category) : String :=
  "Id: " ++ c.id ++ " Name: " ++ c.name ++ " After-id: " ++ c.after

/-! ### Text form -/

/-- The value a category is written as. -/
def value (c : Category) : Json.Value :=
  .object <|
    [("id", .text c.id), ("name", .text c.name), ("afterId", .text c.after),
      ("description", .text c.description), ("path", .text c.path)]
    ++ Json.optionalMember "pluginId" c.plugin ++ Json.optionalMember "icon" c.icon

open Json in
/-- The fields of a category. -/
def schema : Schema Category where
  blank := { id := "", name := "" }
  fields :=
    [.needed "id" .text fun s c => { c with id := s },
      .needed "name" .text fun s c => { c with name := s },
      .free "afterId" .text fun s c => { c with after := s },
      .free "description" .text fun s c => { c with description := s },
      .free "path" .text fun s c => { c with path := s },
      .free "pluginId" (.optional .text) fun s c => { c with plugin := s },
      .free "icon" (.optional .text) fun s c => { c with icon := s }]

/-- How categories are written and read. -/
def form : Json.Form Category where
  value := value
  reader depth := .record "Category" (Json.nested depth fun _ => schema)

end Category

end NodeCatalog
