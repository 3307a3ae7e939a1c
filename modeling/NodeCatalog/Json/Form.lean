import NodeCatalog.Json.Record
import NodeCatalog.Json.Value

/-!
# Records and their texts

A `Form` joins the two directions for one type: the value that a record is written as, and the
reader that takes the record from a text.  The law of a form is that reading what is written gives
the record back.
-/

namespace NodeCatalog.Json

/-- How the values of a type are written and read. -/
structure Form (α : Type) where
  /-- The value that is written. -/
  value : α → Value
  /-- The reader, where arrays and objects may nest to some depth. -/
  reader : Nat → Reader α

namespace Form

variable {α : Type}

/-- The text on one line. -/
def write (form : Form α) (a : α) : String :=
  (form.value a).compact

/-- The text over several lines. -/
def writePretty (form : Form α) (a : α) : String :=
  (form.value a).pretty

/-- Reads a whole text. -/
def parse (form : Form α) (text : String) : Except Failure α :=
  Json.parse form.reader text

end Form

/-- The member of an optional text: none where the text is absent. -/
def optionalMember (key : String) (text : Option String) : List (String × Value) :=
  match text with
  | none => []
  | some s => [(key, .text s)]

end NodeCatalog.Json
