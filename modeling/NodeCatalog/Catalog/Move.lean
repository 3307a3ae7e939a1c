import NodeCatalog.Catalog.Basic

/-!
# Moving

An entry, found by its id anywhere in the tree, is moved to the end of the container at another path,
and the paths of all that moves change with it.  A move is planned before anything changes: the plan
fails if the entry or the target is not there, if a category would come to stand in itself, or if
the target holds an entry of the same kind and id.
-/

namespace NodeCatalog.Catalog

/-- A move that nothing speaks against. -/
structure Plan where
  /-- The path of the container that holds the entry. -/
  source : String
  /-- The path of the container that is to hold it, in its chosen text. -/
  target : String
deriving DecidableEq, Repr

/-- Plans the move of the entry with an id to a path. -/
def planMove (cat : Catalog) (id path : String) : Except Fault Plan := do
  let some source := cat.root.locate? id Path.root | .error (.childNotFound id)
  let holder ← cat.containerAt source
  let some e := holder.find? id false | .error (.childNotFound id)
  let target := Path.normal path
  if e.kind = .category ∧ Path.covers (Path.join source id) target then
    .error (.intoItself id)
  -- the target is looked up before anything is taken out
  let receiver ← cat.containerAt target
  if receiver.entries.any (fun x => x.id == id && x.kind == e.kind) then
    .error (.alreadyThere id target)
  return ⟨source, target⟩

/-- Puts an entry that was taken out at the target of its move, or back if the target is gone. -/
def settle (cat : Catalog) (plan : Plan) (e : Entry) : Edited Unit :=
  let moved := cat.editAt plan.target fun k => k.add (e.relocate plan.target)
  match moved.answer with
  | .ok _ => ⟨.ok (), moved.catalog⟩
  | .error fault =>
    let back := cat.editAt plan.source fun k => k.add e
    match back.answer with
    | .ok _ => ⟨.error fault, back.catalog⟩
    | .error fault => ⟨.error fault, back.catalog⟩

/-- Moves the entry with an id to the end of the container at a path. -/
def move (cat : Catalog) (id path : String) : Edited Unit :=
  match cat.planMove id path with
  | .error fault => ⟨.error fault, cat⟩
  | .ok plan =>
    match cat.root.removeDeep id with
    | none => ⟨.error (.childNotFound id), cat⟩
    | some (e, root) => settle { cat with root } plan e

end NodeCatalog.Catalog
