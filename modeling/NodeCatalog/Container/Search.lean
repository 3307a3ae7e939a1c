import NodeCatalog.Container.Basic

/-!
# Searching below a container

An id is searched for depth-first in insertion order: an entry itself before what it holds, and what
it holds before its next sibling.  Finding, locating and removing choose the same entry; they differ
in what they tell of it.
-/

namespace NodeCatalog.Container

mutual

/-- The first entry with an id among an entry and all it holds. -/
def findWithin (id : String) : Entry → Option Entry
  | .category c sorted entries =>
    if c.id = id then some (.category c sorted entries) else findDeep id entries
  | .template t => if t.id = id then some (.template t) else none

/-- The first entry with an id among some entries and all they hold. -/
def findDeep (id : String) : List Entry → Option Entry
  | [] => none
  | e :: es =>
    match findWithin id e with
    | some found => some found
    | none => findDeep id es

end

/-- The first entry with an id among those held, and below them if `deep`. -/
def find? (k : Container) (id : String) (deep : Bool) : Option Entry :=
  if deep then findDeep id k.entries else k.entries.find? fun e => e.id == id

/-- What an id refers to. -/
inductive Lookup where
  /-- The container that is asked. -/
  | here
  /-- An entry that is held, or held below. -/
  | entry (e : Entry)

/-- What an id refers to; a slash or a blank id is the container itself. -/
def lookup (k : Container) (id : String) (deep : Bool) : Option Lookup :=
  if Path.namesHere id then some .here else (k.find? id deep).map .entry

mutual

/-- The path of what holds the first entry with an id, where `path` is that of what holds the entry
that is searched. -/
def locateWithin (id : String) (path : String) : Entry → Option String
  | .category c _ entries =>
    if c.id = id then some path else locateDeep id (Path.join path c.id) entries
  | .template t => if t.id = id then some path else none

/-- The path of what holds the first entry with an id, where `path` is that of what holds the
entries that are searched. -/
def locateDeep (id : String) (path : String) : List Entry → Option String
  | [] => none
  | e :: es =>
    match locateWithin id path e with
    | some found => some found
    | none => locateDeep id path es

end

/-- The path of the container that holds the first entry with an id, if this one's is `path`. -/
def locate? (k : Container) (id path : String) : Option String :=
  locateDeep id path k.entries

mutual

/-- Takes the first entry with an id out of an entry.  The answer is the entry that is taken out and
what is left, which is nothing if it is the entry itself. -/
def takeOutWithin (id : String) : Entry → Option (Entry × List Entry)
  | .category c sorted entries =>
    if c.id = id then some (.category c sorted entries, [])
    else
      match takeOutDeep id entries with
      | some (found, left) => some (found, [.category c sorted left])
      | none => none
  | .template t => if t.id = id then some (.template t, []) else none

/-- Takes the first entry with an id out of some entries and all they hold. -/
def takeOutDeep (id : String) : List Entry → Option (Entry × List Entry)
  | [] => none
  | e :: es =>
    match takeOutWithin id e with
    | some (found, left) => some (found, left ++ es)
    | none =>
      match takeOutDeep id es with
      | some (found, left) => some (found, e :: left)
      | none => none

end

/-- Removes the first entry with an id, however deep it stands. -/
def removeDeep (k : Container) (id : String) : Option (Entry × Container) :=
  match takeOutDeep id k.entries with
  | some (found, entries) => some (found, { k with entries })
  | none => none

end NodeCatalog.Container
