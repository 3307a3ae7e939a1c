import NodeCatalog.Container.Basic

/-!
# What a container shows

A container that sorts shows its entries in after order, and fails if two of one kind share an id;
one that does not sort shows them in insertion order and has no problems.  `arrange` does this for
things that carry an entry each, so that what was computed for an entry comes along.

The containers of a tree are listed by `containers`, each with its path, a container before those
below it, in insertion order.  Queries about problems go along this list.
-/

namespace NodeCatalog.Container

/-- Arranges things that carry an entry each. -/
def arrange {α : Type} (entry : α → Entry) (sorted : Bool) (things : List α) :
    Except Fault (After.Ordered α) :=
  if sorted then
    (After.order (Entry.view.comap entry) things).mapError fun r => .duplicateId r.id
  else .ok ⟨things, []⟩

/-- The entries as they are shown. -/
def display (k : Container) : Except Fault (After.Ordered Entry) :=
  arrange (fun e => e) k.sorted k.entries

/-! ### Nested containers -/

mutual

/-- What an entry holds, and all containers below it; `path` is that of what holds the entry. -/
def containersWithin (path : String) : Entry → List (String × Container)
  | .category c sorted entries =>
    (Path.join path c.id, ⟨sorted, entries⟩) :: containersDeep (Path.join path c.id) entries
  | .template _ => []

/-- The containers of some entries. -/
def containersDeep (path : String) : List Entry → List (String × Container)
  | [] => []
  | e :: es => containersWithin path e ++ containersDeep path es

end

/-- A container at a path, and all containers below it with their paths. -/
def containers (path : String) (k : Container) : List (String × Container) :=
  (path, k) :: containersDeep path k.entries

/-! ### Problems -/

/-- The categories among the problems of one container. -/
def ownProblemCategories (k : Container) : Except Fault (List Category) := do
  let shown ← k.display
  return shown.problems.filterMap Entry.category?

/-- The categories that could not be placed, in this container and all below it. -/
def problemCategories (k : Container) : Except Fault (List Category) := do
  let found ← (k.containers Path.root).mapM fun p => p.2.ownProblemCategories
  return found.flatten

/-- How many entries of each kind could not be placed. -/
structure ProblemCount where
  categories : Nat
  leaves : Nat
deriving DecidableEq, Repr

/-- The problems of one container by kind. -/
def countProblems (k : Container) : Except Fault ProblemCount := do
  let shown ← k.display
  return ⟨(Entry.view.ofKind .category shown.problems).length,
    (Entry.view.ofKind .leaf shown.problems).length⟩

/-! ### Factories -/

/-- The first decided answer: a fault, or a template that is found. -/
def firstFound : List (Except Fault (Option NodeTemplate)) → Except Fault (Option NodeTemplate)
  | [] => .ok none
  | .error fault :: _ => .error fault
  | .ok (some t) :: _ => .ok (some t)
  | .ok none :: rest => firstFound rest

/-- Searches what is shown of things that carry an entry and the answer of a search in it. -/
def firstShown (sorted : Bool)
    (things : List (Entry × Except Fault (Option NodeTemplate))) :
    Except Fault (Option NodeTemplate) := do
  let shown ← arrange Prod.fst sorted things
  firstFound (shown.items.map Prod.snd)

mutual

/-- The node template with a factory among an entry and what it shows. -/
def findFactoryWithin (factory : String) : Entry → Except Fault (Option NodeTemplate)
  | .category _ sorted entries => firstShown sorted (findFactoryEach factory entries)
  | .template (.node t) => .ok (if t.factory = factory then some t else none)
  | .template (.metaNode _) => .ok none

/-- Each entry with the answer of a search in it. -/
def findFactoryEach (factory : String) :
    List Entry → List (Entry × Except Fault (Option NodeTemplate))
  | [] => []
  | e :: es => (e, findFactoryWithin factory e) :: findFactoryEach factory es

end

/-- The first node template with a factory, depth-first in the order in which entries are shown. -/
def findFactory (k : Container) (factory : String) : Except Fault (Option NodeTemplate) :=
  firstShown k.sorted (findFactoryEach factory k.entries)

end NodeCatalog.Container
