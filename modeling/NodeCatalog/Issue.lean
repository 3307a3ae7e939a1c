import NodeCatalog.Container.Display

/-!
# Issues

An issue explains why an entry could not be placed: it names itself, or no sibling of its kind has
the id it names, or the ids it leads to come back to it, or the sibling it names could not be placed
either.
-/

namespace NodeCatalog

/-- Why an entry could not be placed. -/
inductive Issue.Cause where
  /-- The entry names itself. -/
  | selfReference
  /-- No sibling of its kind has the id it names. -/
  | missingTarget
  /-- The ids it leads to come back to it. -/
  | cycle
  /-- The sibling it names could not be placed either. -/
  | blocked
deriving DecidableEq, Repr

/-- An entry that could not be placed. -/
structure Issue where
  /-- The path of the container that holds it. -/
  path : String
  id : String
  /-- The id it is declared after. -/
  after : String
  cause : Issue.Cause
deriving DecidableEq, Repr

namespace Issue

/-- The text of an issue. -/
def message (i : Issue) : String :=
  let start := "'" ++ i.id ++ "' in '" ++ i.path ++ "' is declared after "
  match i.cause with
  | .selfReference => start ++ "itself"
  | .missingTarget => start ++ "unknown '" ++ i.after ++ "'"
  | .cycle => start ++ "'" ++ i.after ++ "', which forms a cycle"
  | .blocked => start ++ "'" ++ i.after ++ "', which could not be placed"

/-- The text of an issue names the entry and the container that holds it. -/
theorem exists_message_eq (i : Issue) : ∃ reason, i.message =
    "'" ++ i.id ++ "' in '" ++ i.path ++ "' is declared after " ++ reason := by
  unfold message
  cases i.cause
  all_goals
    simp only [String.append_assoc]
    exact ⟨_, rfl⟩

/-- The id that the sibling with an id is declared after. -/
def next (group : List Entry) (id : String) : Option String :=
  (group.find? fun e => e.id == id).map Entry.after

/-- The entries that follow an id which is not seen yet. -/
def unseen (group : List Entry) (seen : List String) : List Entry :=
  group.filter fun e => e.after ∉ seen

/-- Once another id is seen, fewer entries follow an id which is not. -/
theorem length_unseen_cons_lt {group : List Entry} {seen : List String} {current id : String}
    (h : next group current = some id) (hid : id ∉ seen) :
    (unseen group (id :: seen)).length < (unseen group seen).length := by
  obtain ⟨e, he, rfl⟩ := Option.map_eq_some_iff.mp h
  have hmem : e ∈ unseen group seen :=
    List.mem_filter.mpr ⟨List.mem_of_find?_eq_some he, decide_eq_true hid⟩
  have hcons : unseen group (e.after :: seen) =
      (unseen group seen).filter fun x => x.after ≠ e.after := by
    simp [unseen, List.filter_filter]
  rw [hcons, List.length_filter_lt_length_iff_exists]
  exact ⟨e, hmem, by simp⟩

/-- Whether the ids that `current` leads to come to `start`.  Where they come to an id which is
seen, they go round without it. -/
def leadsBack (group : List Entry) (start : String) (seen : List String)
    (current : String) : Bool :=
  match _ : next group current with
  | none => false
  | some id =>
    if id = start then true
    else if _ : id ∈ seen then false
    else leadsBack group start (id :: seen) id
termination_by (unseen group seen).length
decreasing_by exact length_unseen_cons_lt ‹_› ‹_›

/-- One step of the search. -/
theorem leadsBack_eq (group : List Entry) (start : String) (seen : List String)
    (current : String) :
    leadsBack group start seen current =
      match next group current with
      | none => false
      | some id =>
        if id = start then true
        else if id ∈ seen then false
        else leadsBack group start (id :: seen) id := by
  rw [leadsBack]
  split <;> rename_i heq <;> rw [heq]
  rfl

/-- Why an entry could not be placed among its siblings. -/
def causeOf (siblings : List Entry) (e : Entry) : Cause :=
  -- an id of the other kind is as good as unknown
  let group := Entry.view.ofKind e.kind siblings
  if e.after = e.id then .selfReference
  else if next group e.after = none then .missingTarget
  else if leadsBack group e.id [] e.id then .cycle
  else .blocked

/-- The issue of an entry that could not be placed among its siblings. -/
def explain (path : String) (siblings : List Entry) (e : Entry) : Issue where
  path := path
  id := e.id
  after := e.after
  cause := causeOf siblings e

/-- The issues of containers, up to the first that cannot be shown and with its fault. -/
def collect : List (String × Container) → List Issue × Option Fault
  | [] => ([], none)
  | (path, k) :: rest =>
    match k.display with
    | .error fault => ([], some fault)
    | .ok shown =>
      let (issues, fault) := collect rest
      (shown.problems.map (explain path k.entries) ++ issues, fault)

end Issue

namespace Container

/-- The issues of this container, whose path is given, and of all below it, a container before those
below it.  Where a container cannot be shown they end, and its fault is told. -/
def issues (k : Container) (path : String) : List Issue × Option Fault :=
  Issue.collect (k.containers path)

end Container

end NodeCatalog
