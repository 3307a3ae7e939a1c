import NodeCatalog.Fault
import NodeCatalog.Json.Form

/-!
# Settings

What holds for a whole catalog.  Settings are given as a text in which every field may be left out,
and may come from a file.
-/

namespace NodeCatalog

/-- The settings of a catalog. -/
structure Settings where
  /-- Whether the root and the categories that are added sort what they hold. -/
  sortChildren : Bool := true
  /-- Whether problems are reported by warnings. -/
  warnOnProblems : Bool := true
deriving DecidableEq, Repr

namespace Settings

/-- The value settings are written as. -/
def value (s : Settings) : Json.Value :=
  .object [("sortChildren", .flag s.sortChildren), ("warnOnProblems", .flag s.warnOnProblems)]

open Json in
/-- The fields of settings. -/
def schema : Schema Settings where
  blank := {}
  fields :=
    [.free "sortChildren" .flag fun b s => { s with sortChildren := b },
      .free "warnOnProblems" .flag fun b s => { s with warnOnProblems := b }]

/-- How settings are written and read. -/
def form : Json.Form Settings where
  value := value
  reader depth := .record "RepositoryConfig" (Json.nested depth fun _ => schema)

/-! ### Files -/

/-- The settings of a text. -/
def ofText (text : String) : Except Fault Settings :=
  (form.parse text).mapError .unreadable

/-- The settings of a file, given by its bytes if it exists. -/
def ofFile (content : Option ByteArray) : Except Fault Settings :=
  match content with
  | none => .error .noFile
  | some bytes =>
    match String.fromUTF8? bytes with
    | none => .error .notUtf8
    | some text => ofText text

end Settings

end NodeCatalog
