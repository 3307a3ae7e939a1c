import NodeCatalog.Json.Failure

/-!
# Faults

Why an operation on a catalog is refused.  A fault says what is wrong; `Fault.message` is its only
wording.
-/

namespace NodeCatalog

/-- Why an operation is refused. -/
inductive Fault where
  /-- Two siblings of one kind share an id, so that they cannot be ordered. -/
  | duplicateId (id : String)
  /-- Nothing with this id is there. -/
  | childNotFound (id : String)
  /-- Nothing has the id that a segment of a path names. -/
  | segmentNotFound (segment path : String)
  /-- A segment of a path names an entry that holds nothing. -/
  | notACategory (segment path : String)
  /-- A category is to be moved into itself. -/
  | intoItself (id : String)
  /-- An entry is to be moved to a place that holds one of its kind and id. -/
  | alreadyThere (id target : String)
  /-- A text is not read. -/
  | unreadable (cause : Json.Failure)
  /-- A file does not exist. -/
  | noFile
  /-- The bytes of a file are not UTF-8. -/
  | notUtf8
deriving DecidableEq, Repr

namespace Fault

/-- The text of a fault. -/
def message : Fault → String
  | duplicateId id => "Duplicate identifier '" ++ id ++ "' in ordering group"
  | childNotFound id => "Child not found: " ++ id
  | segmentNotFound segment path =>
    "The segment '" ++ segment ++ "' in path '" ++ path ++ "' does not exist"
  | notACategory segment path => "'" ++ segment ++ "' in path '" ++ path ++ "' is not a category"
  | intoItself id => "Invalid child: can't move '" ++ id ++ "' into itself"
  | alreadyThere id target => "Invalid child: '" ++ id ++ "' already exists in '" ++ target ++ "'"
  | unreadable .unfinished => "Serialization error: the text ends too early"
  | unreadable .malformed => "Serialization error: the text is malformed"
  | unreadable (.mismatch cause) => "Serialization error: " ++ cause.message
  | noFile => "I/O error: no such file"
  | notUtf8 => "I/O error: the bytes are not UTF-8"

end Fault

end NodeCatalog
