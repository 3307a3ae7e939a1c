import NodeCatalog.Entry
import NodeCatalog.Fault

/-!
# Containers

A container holds entries in insertion order.  No two entries of one kind and id are added to it; a
category and a template may share an id, and then an id alone means the first of the two.

`entries_add_of_hasClash` and `entries_add_of_not_hasClash` say what adding does.
-/

namespace NodeCatalog.Container

/-- The entries held. -/
def size (k : Container) : Nat :=
  k.entries.length

/-- Whether an entry excludes one that is held. -/
def hasClash (k : Container) (e : Entry) : Bool :=
  k.entries.any fun x => x.clashes e

/-- Whether an entry with an id is held. -/
def contains (k : Container) (id : String) : Bool :=
  k.entries.any fun x => x.id == id

/-- Sets whether entries are shown in after order. -/
def setSorted (k : Container) (sorted : Bool) : Container :=
  { k with sorted }

/-- Holds nothing any more. -/
def clear (k : Container) : Container :=
  { k with entries := [] }

/-! ### Adding -/

/-- Adds an entry at the end, unless it clashes; says whether it did. -/
def add (k : Container) (e : Entry) : Bool × Container :=
  if k.hasClash e then (false, k) else (true, { k with entries := k.entries ++ [e] })

/-- Adds entries one by one, without those that clash. -/
def addAll (k : Container) (es : List Entry) : Container :=
  es.foldl (fun k e => (k.add e).2) k

/-- Where an entry is put beside another. -/
inductive Side where
  | before
  | after
deriving DecidableEq, Repr

/-- Puts an entry beside the first one with an id. -/
def beside (side : Side) (e : Entry) (anchor : String) : List Entry → Option (List Entry)
  | [] => none
  | x :: xs =>
    if x.id = anchor then
      match side with
      | .before => some (e :: x :: xs)
      | .after => some (x :: e :: xs)
    else (beside side e anchor xs).map (x :: ·)

/-- Adds an entry beside the first one with an id, unless it clashes or there is none; says whether
it did. -/
def addBeside (k : Container) (side : Side) (e : Entry) (anchor : String) : Bool × Container :=
  if k.hasClash e then (false, k)
  else
    match beside side e anchor k.entries with
    | some entries => (true, { k with entries })
    | none => (false, k)

theorem entries_add_of_hasClash {k : Container} {e : Entry} (h : k.hasClash e = true) :
    k.add e = (false, k) := by
  simp [add, h]

theorem entries_add_of_not_hasClash {k : Container} {e : Entry} (h : k.hasClash e = false) :
    k.add e = (true, ⟨k.sorted, k.entries ++ [e]⟩) := by
  simp [add, h]

/-! ### Removing -/

/-- Takes the first entry with an id out of a list. -/
def takeOut (id : String) : List Entry → Option (Entry × List Entry)
  | [] => none
  | e :: es =>
    if e.id = id then some (e, es) else (takeOut id es).map fun p => (p.1, e :: p.2)

/-- Removes the first entry with an id. -/
def remove (k : Container) (id : String) : Except Fault (Entry × Container) :=
  match takeOut id k.entries with
  | some (e, entries) => .ok (e, { k with entries })
  | none => .error (.childNotFound id)

/-! ### Categories held -/

/-- The first category with an id, and what it holds. -/
def categoryIn (id : String) : List Entry → Option (Category × Container)
  | [] => none
  | .category c sorted entries :: rest =>
    if c.id = id then some (c, ⟨sorted, entries⟩) else categoryIn id rest
  | .template _ :: rest => categoryIn id rest

/-- The first category with an id that is held, and what it holds. -/
def category? (k : Container) (id : String) : Option (Category × Container) :=
  categoryIn id k.entries

/-- Changes the first category with an id. -/
def modifyIn (id : String) (f : Category → Container → Category × Container) :
    List Entry → List Entry
  | [] => []
  | .category c sorted entries :: rest =>
    if c.id = id then
      let (c, inner) := f c ⟨sorted, entries⟩
      .category c inner.sorted inner.entries :: rest
    else .category c sorted entries :: modifyIn id f rest
  | .template t :: rest => .template t :: modifyIn id f rest

/-- Changes what is declared of the first category with an id. -/
def modifyCategory (k : Container) (id : String) (f : Category → Category) : Container :=
  { k with entries := modifyIn id (fun c inner => (f c, inner)) k.entries }

/-- Changes what the first category with an id holds. -/
def setContents (k : Container) (id : String) (contents : Container) : Container :=
  { k with entries := modifyIn id (fun c _ => (c, contents)) k.entries }

end NodeCatalog.Container
