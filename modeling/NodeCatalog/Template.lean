import NodeCatalog.Json.Form
import NodeCatalog.Path

/-!
# Templates

The leaves of the catalog: a node template creates a node by its factory, a meta node template a
nested workflow from a directory.
-/

namespace NodeCatalog

/-- What a node is for. -/
inductive NodeType where
  | source
  | sink
  | learner
  | predictor
  | manipulator
  | visualizer
  | metaNode
  | other
deriving DecidableEq, Repr

namespace NodeType

/-- The types by name. -/
def names : List (String × NodeType) :=
  [("source", source), ("sink", sink), ("learner", learner), ("predictor", predictor),
    ("manipulator", manipulator), ("visualizer", visualizer), ("meta", metaNode),
    ("other", other)]

/-- The name of a type. -/
def name : NodeType → String
  | source => "source"
  | sink => "sink"
  | learner => "learner"
  | predictor => "predictor"
  | manipulator => "manipulator"
  | visualizer => "visualizer"
  | metaNode => "meta"
  | other => "other"

/-- The type with a name. -/
def ofName (name : String) : Except Json.Failure NodeType :=
  Json.choose names name

/-- Every type has its name in the table. -/
theorem lookup_name (t : NodeType) : names.lookup t.name = some t := by
  cases t <;> rfl

/-- How node types are written and read. -/
def form : Json.Form NodeType where
  value t := .text t.name
  reader depth := .choice names (decide (0 < depth))

end NodeType

/-- A template that creates a node. -/
structure NodeTemplate where
  /-- The id, unique among sibling templates. -/
  id : String
  /-- The name that is shown. -/
  name : String
  /-- The id of the sibling it follows; empty if it follows none. -/
  after : String := ""
  /-- The factory that creates the node. -/
  factory : String
  /-- The path of the category that shows it. -/
  path : String := Path.root
  type : NodeType := .other
  /-- Whether only experts see it. -/
  expert : Bool := false
  /-- The plugin that declares it. -/
  plugin : Option String := none
  /-- Where its icon is found. -/
  icon : Option String := none
deriving DecidableEq, Repr

namespace NodeTemplate

/-- The value a node template is written as. -/
def value (t : NodeTemplate) : Json.Value :=
  .object <|
    [("id", .text t.id), ("name", .text t.name), ("afterId", .text t.after),
      ("factory", .text t.factory), ("categoryPath", .text t.path),
      ("nodeType", NodeType.form.value t.type), ("expert", .flag t.expert)]
    ++ Json.optionalMember "pluginId" t.plugin ++ Json.optionalMember "icon" t.icon

open Json in
/-- The fields of a node template. -/
def schema (depth : Nat) : Schema NodeTemplate where
  blank := { id := "", name := "", factory := "" }
  fields :=
    [.needed "id" .text fun s t => { t with id := s },
      .needed "name" .text fun s t => { t with name := s },
      .free "afterId" .text fun s t => { t with after := s },
      .needed "factory" .text fun s t => { t with factory := s },
      .free "categoryPath" .text fun s t => { t with path := s },
      .free "nodeType" (NodeType.form.reader depth) fun n t => { t with type := n },
      .free "expert" .flag fun b t => { t with expert := b },
      .free "pluginId" (.optional .text) fun s t => { t with plugin := s },
      .free "icon" (.optional .text) fun s t => { t with icon := s }]

/-- How node templates are written and read. -/
def form : Json.Form NodeTemplate where
  value := value
  reader depth := .record "NodeTemplate" (Json.nested depth schema)

end NodeTemplate

/-- A template that creates a nested workflow. -/
structure MetaTemplate where
  /-- The id, unique among sibling templates. -/
  id : String
  /-- The name that is shown. -/
  name : String
  /-- The id of the sibling it follows; empty if it follows none. -/
  after : String := ""
  /-- The path of the category that shows it. -/
  path : String := Path.root
  /-- The directory of the workflow inside its plugin. -/
  directory : String
  description : String := ""
  /-- Whether only experts see it. -/
  expert : Bool := false
  /-- The plugin that declares it. -/
  plugin : Option String := none
  /-- Where its icon is found. -/
  icon : Option String := none
deriving DecidableEq, Repr

namespace MetaTemplate

/-- The value a meta node template is written as. -/
def value (t : MetaTemplate) : Json.Value :=
  .object <|
    [("id", .text t.id), ("name", .text t.name), ("afterId", .text t.after),
      ("categoryPath", .text t.path), ("workflowDir", .text t.directory),
      ("description", .text t.description), ("expert", .flag t.expert)]
    ++ Json.optionalMember "pluginId" t.plugin ++ Json.optionalMember "icon" t.icon

open Json in
/-- The fields of a meta node template. -/
def schema : Schema MetaTemplate where
  blank := { id := "", name := "", directory := "" }
  fields :=
    [.needed "id" .text fun s t => { t with id := s },
      .needed "name" .text fun s t => { t with name := s },
      .free "afterId" .text fun s t => { t with after := s },
      .free "categoryPath" .text fun s t => { t with path := s },
      .needed "workflowDir" .text fun s t => { t with directory := s },
      .free "description" .text fun s t => { t with description := s },
      .free "expert" .flag fun b t => { t with expert := b },
      .free "pluginId" (.optional .text) fun s t => { t with plugin := s },
      .free "icon" (.optional .text) fun s t => { t with icon := s }]

/-- How meta node templates are written and read. -/
def form : Json.Form MetaTemplate where
  value := value
  reader depth := .record "MetaNodeTemplate" (Json.nested depth fun _ => schema)

end MetaTemplate

/-- A leaf of the catalog. -/
inductive Template where
  | node (t : NodeTemplate)
  | metaNode (t : MetaTemplate)
deriving DecidableEq, Repr

namespace Template

/-- The id of a template. -/
def id : Template → String
  | node t => t.id
  | metaNode t => t.id

/-- The name of a template. -/
def name : Template → String
  | node t => t.name
  | metaNode t => t.name

/-- The id of the sibling a template follows. -/
def after : Template → String
  | node t => t.after
  | metaNode t => t.after

/-- The path of the category that shows a template. -/
def path : Template → String
  | node t => t.path
  | metaNode t => t.path

/-- The template below another category. -/
def withPath (path : String) : Template → Template
  | node t => node { t with path }
  | metaNode t => metaNode { t with path }

/-- The word for what a template is. -/
def label : Template → String
  | node _ => "node"
  | metaNode _ => "meta_node"

/-- The factory of a node template. -/
def factory? : Template → Option String
  | node t => some t.factory
  | metaNode _ => none

/-- The value a template is written as. -/
def value : Template → Json.Value
  | node t => t.value
  | metaNode t => t.value

end Template

end NodeCatalog
