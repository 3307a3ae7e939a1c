import NodeCatalog.Catalog.Basic
import NodeCatalog.NodeSet

/-!
# Inserting

Categories and templates are inserted at the path they declare, every segment of which must be a
category.  The templates of a node set bring the categories they need.
-/

namespace NodeCatalog.Catalog

/-- Inserts an entry at the path it declares; says whether it was added. -/
def insert (cat : Catalog) (e : Entry) : Edited Bool :=
  cat.editAt e.path fun k => k.add e

/-- Inserts a category with what it holds, sorted as the settings say. -/
def addCategory (cat : Catalog) (c : Category) (entries : List Entry) : Edited Bool :=
  cat.insert (.category c cat.settings.sortChildren entries)

/-- Inserts a node template. -/
def addNode (cat : Catalog) (t : NodeTemplate) : Edited Bool :=
  cat.insert (.template (.node t))

/-- Inserts a meta node template. -/
def addMetaNode (cat : Catalog) (t : MetaTemplate) : Edited Bool :=
  cat.insert (.template (.metaNode t))

/-- The category that a node set brings for a segment below a parent. -/
def madeFor (set : NodeSet) (segment parent : String) : Category :=
  { Category.named segment segment with
    path := parent, plugin := set.plugin, icon := set.categoryIcon }

/-- Inserts a template of a node set; says whether it was added. -/
def addMember (cat : Catalog) (set : NodeSet) (t : NodeTemplate) : Edited Bool :=
  match cat.root.ensure t.path (madeFor set) cat.settings.sortChildren
      (fun k => k.add (.template (.node t))) Path.root (Path.segments t.path) with
  | .error fault => ⟨.error fault, cat⟩
  | .ok (added, root) => ⟨.ok added, { cat with root }⟩

/-- Inserts templates of a node set one after the other; tells which were added. -/
def addMembers (cat : Catalog) (set : NodeSet) : List NodeTemplate → Edited (List NodeTemplate)
  | [] => ⟨.ok [], cat⟩
  | t :: ts =>
    let first := cat.addMember set t
    match first.answer with
    | .error fault => ⟨.error fault, first.catalog⟩
    | .ok added =>
      let rest := first.catalog.addMembers set ts
      ⟨rest.answer.map fun more => if added then t :: more else more, rest.catalog⟩

/-- Inserts all templates of a node set; tells which were added. -/
def addNodeSet (cat : Catalog) (set : NodeSet) : Edited (List NodeTemplate) :=
  cat.addMembers set set.templates

end NodeCatalog.Catalog
