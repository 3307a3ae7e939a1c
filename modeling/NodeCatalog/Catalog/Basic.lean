import NodeCatalog.Container.Reach
import NodeCatalog.Container.Search
import NodeCatalog.Issue
import NodeCatalog.Settings
import NodeCatalog.Snapshot

/-!
# The catalog

A catalog is a root container and the settings that hold for it.  An operation that changes it gives
its answer, or a fault, together with the catalog as it is afterwards: `Edited`.
-/

namespace NodeCatalog

/-- The tree of all entries, with its settings. -/
structure Catalog where
  settings : Settings
  root : Container

/-- What an operation leaves: its answer or why it is refused, and the catalog afterwards. -/
structure Edited (α : Type) where
  answer : Except Fault α
  catalog : Catalog

namespace Catalog

/-- The catalog that holds nothing. -/
def empty (settings : Settings) : Catalog :=
  ⟨settings, ⟨settings.sortChildren, []⟩⟩

/-- The container at a path. -/
def containerAt (cat : Catalog) (path : String) : Except Fault Container :=
  cat.root.reach path (Path.segments path)

/-- Changes the container at a path. -/
def editAt {α : Type} (cat : Catalog) (path : String) (f : Container → α × Container) :
    Edited α :=
  match cat.root.edit path f (Path.segments path) with
  | .error fault => ⟨.error fault, cat⟩
  | .ok (answer, root) => ⟨.ok answer, { cat with root }⟩

/-! ### Queries -/

/-- Why entries could not be placed, anywhere in the catalog. -/
def issues (cat : Catalog) : Except Fault (List Issue) :=
  match cat.root.issues Path.root with
  | (issues, none) => .ok issues
  | (_, some fault) => .error fault

/-- What a report tells. -/
structure Report where
  /-- How many entries could not be placed. -/
  count : Nat
  /-- The warnings it gives. -/
  warnings : List String
deriving DecidableEq, Repr

/-- Counts the entries that could not be placed, and warns of each if the settings say so. -/
def report (cat : Catalog) : Except Fault Report := do
  let issues ← cat.issues
  return ⟨issues.length,
    if cat.settings.warnOnProblems then issues.map Issue.message else []⟩

/-- The tree as it is shown. -/
def snapshot (cat : Catalog) : Except Fault Snapshot :=
  Snapshot.capture cat.root

end Catalog

end NodeCatalog
