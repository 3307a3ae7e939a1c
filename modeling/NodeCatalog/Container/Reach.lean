import NodeCatalog.Container.Basic

/-!
# Containers by path

A path leads from a container to one below it: each segment is the id of a category held there.
`reach` looks up the container at the end of a path, `edit` changes it, and `ensure` makes the
categories that are missing on the way.  All go from segment to segment on their own; reaching and
editing agree on what is wrong with a path (`edit_eq_error_iff`).
-/

namespace NodeCatalog.Container

/-- What is wrong with a segment that names no category. -/
def segmentFault (k : Container) (segment path : String) : Fault :=
  if k.contains segment then .notACategory segment path else .segmentNotFound segment path

/-- The container that segments lead to; `path` is what a fault names. -/
def reach (path : String) : List String → Container → Except Fault Container
  | [], k => .ok k
  | segment :: segments, k =>
    match k.category? segment with
    | some (_, inner) => reach path segments inner
    | none => .error (k.segmentFault segment path)

/-- Changes the container that segments lead to. -/
def edit {β : Type} (path : String) (f : Container → β × Container) :
    List String → Container → Except Fault (β × Container)
  | [], k => .ok (f k)
  | segment :: segments, k =>
    match k.category? segment with
    | none => .error (k.segmentFault segment path)
    | some (_, inner) =>
      match edit path f segments inner with
      | .error fault => .error fault
      | .ok (answer, inner) => .ok (answer, k.setContents segment inner)

/-- Changes the container that segments lead to, and adds the categories that are missing on the
way: `make` declares one by its id and the path of its parent, which is `parent` for the first. -/
def ensure {β : Type} (path : String) (make : String → String → Category) (sorted : Bool)
    (f : Container → β × Container) (parent : String) :
    List String → Container → Except Fault (β × Container)
  | [], k => .ok (f k)
  | segment :: segments, k =>
    let k :=
      if (k.category? segment).isSome then k
      else (k.add (.category (make segment parent) sorted [])).2
    match k.category? segment with
    | none => .error (.segmentNotFound segment path)
    | some (_, inner) =>
      match ensure path make sorted f (Path.join parent segment) segments inner with
      | .error fault => .error fault
      | .ok (answer, inner) => .ok (answer, k.setContents segment inner)

/-! ### Agreement -/

/-- Editing fails where reaching fails, and with the same fault. -/
theorem edit_eq_error_iff {β : Type} {path : String} {f : Container → β × Container}
    {segments : List String} {k : Container} {fault : Fault} :
    edit path f segments k = .error fault ↔ reach path segments k = .error fault := by
  induction segments generalizing k with
  | nil => simp [edit, reach]
  | cons segment segments ih =>
    rw [edit, reach]
    cases h : k.category? segment with
    | none => simp
    | some p =>
      simp only
      rw [← ih]
      cases edit path f segments p.2 <;> simp

end NodeCatalog.Container
