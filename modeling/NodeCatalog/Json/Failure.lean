import NodeCatalog.Decimal.Shortest
import NodeCatalog.Text.Quoted

/-!
# Why a text is not read

A text is read from left to right, and the first fault ends the reading.  It is of one of three
classes: the text is unfinished, it is malformed, or it is well formed so far and does not fit the
record that is wanted.  Only the last has a message, `Mismatch.message`.
-/

namespace NodeCatalog.Json

/-- What stands in a place where something else is wanted. -/
inductive Found where
  | null
  | flag (value : Bool)
  | integer (value : Int)
  | decimal (value : Decimal.Binary64)
  | text (value : String)
  | sequence
  | map
deriving DecidableEq, Repr

/-- How a message names what it found. -/
def Found.describe : Found → String
  | null => "null"
  | flag true => "boolean `true`"
  | flag false => "boolean `false`"
  | integer n => "integer `" ++ String.ofList (Decimal.integerText n) ++ "`"
  | decimal x => "floating point `" ++ x.text ++ "`"
  | text s => "string " ++ Text.quoted s
  | sequence => "sequence"
  | map => "map"

/-- Why a value does not fit the record that is wanted. -/
inductive Mismatch where
  /-- A value of another type. -/
  | wrongType (found : Found) (wanted : String)
  /-- A required field is not given. -/
  | missingField (name : String)
  /-- A field is given twice. -/
  | repeatedField (name : String)
  /-- A name that is none of the known ones. -/
  | unknownVariant (name : String) (known : List String)
  /-- A record given by position ends before its last required field. -/
  | tooShort (length : Nat) (wanted : String)
deriving DecidableEq, Repr

/-- A name between backquotes. -/
def backquoted (name : String) : String :=
  "`" ++ name ++ "`"

/-- The text of a mismatch. -/
def Mismatch.message : Mismatch → String
  | wrongType found wanted => "invalid type: " ++ found.describe ++ ", expected " ++ wanted
  | missingField name => "missing field " ++ backquoted name
  | repeatedField name => "duplicate field " ++ backquoted name
  | unknownVariant name known =>
    "unknown variant " ++ backquoted name ++ ", expected one of "
      ++ String.intercalate ", " (known.map backquoted)
  | tooShort length wanted =>
    "invalid length " ++ String.ofList (Decimal.digitsOf length) ++ ", expected " ++ wanted

/-- Why a text is not read. -/
inductive Failure where
  /-- The text ends too early. -/
  | unfinished
  /-- The text breaks the rules of the notation, or nests too deep. -/
  | malformed
  /-- The text is well formed so far and does not fit. -/
  | mismatch (cause : Mismatch)
deriving DecidableEq, Repr

end NodeCatalog.Json
