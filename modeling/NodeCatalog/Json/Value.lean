/-!
# Writing JSON

A value is written on one line or over several: a `Layout` says what stands where a line may break
and what stands between a key and its value.  `Layout.compact` puts nothing there, `Layout.pretty`
indents by two spaces a level.  Empty arrays and objects are written without a break in every layout.
-/

namespace NodeCatalog.Json

/-- A value as records are made of: no numbers, no null. -/
inductive Value where
  | flag (value : Bool)
  | text (value : String)
  | array (items : List Value)
  /-- The members stand in the order in which they are written. -/
  | object (members : List (String × Value))

/-- What is written between the marks of a value. -/
structure Layout where
  /-- What stands at a break on a level. -/
  gap : Nat → List Char
  /-- What stands between a key and its value. -/
  colon : List Char

namespace Layout

/-- Nothing stands at a break. -/
def compact : Layout :=
  ⟨fun _ => [], [':']⟩

/-- A break starts a line, with two spaces a level. -/
def pretty : Layout :=
  ⟨fun level => '\n' :: List.replicate (2 * level) ' ', [':', ' ']⟩

end Layout

/-! ### String literals -/

/-- The digits of a number below sixteen. -/
def hexDigit (n : Nat) : Char :=
  if n < 10 then Char.ofNat ('0'.toNat + n) else Char.ofNat ('a'.toNat + (n - 10))

/-- A character as it stands in a string literal. -/
def escape (c : Char) : List Char :=
  match c with
  | '"' => ['\\', '"']
  | '\\' => ['\\', '\\']
  | '\x08' => ['\\', 'b']
  | '\t' => ['\\', 't']
  | '\n' => ['\\', 'n']
  | '\x0c' => ['\\', 'f']
  | '\r' => ['\\', 'r']
  | c =>
    if c < ' ' then ['\\', 'u', '0', '0', hexDigit (c.toNat / 16), hexDigit (c.toNat % 16)]
    else [c]

/-- The string literal of a text. -/
def literal (s : String) : List Char :=
  '"' :: s.toList.flatMap escape ++ ['"']

/-- The word of a flag. -/
def flagWord : Bool → List Char
  | true => ['t', 'r', 'u', 'e']
  | false => ['f', 'a', 'l', 's', 'e']

/-! ### Values -/

namespace Value

mutual

/-- The text of a value on a level. -/
def write (l : Layout) (level : Nat) : Value → List Char
  | flag b => flagWord b
  | text s => literal s
  | array [] => ['[', ']']
  | array (v :: vs) =>
    '[' :: l.gap (level + 1) ++ write l (level + 1) v ++ writeItems l level vs ++ l.gap level
      ++ [']']
  | object [] => ['{', '}']
  | object (m :: ms) =>
    '{' :: l.gap (level + 1) ++ writeMember l (level + 1) m ++ writeMembers l level ms
      ++ l.gap level ++ ['}']

/-- The further items of an array. -/
def writeItems (l : Layout) (level : Nat) : List Value → List Char
  | [] => []
  | v :: vs => ',' :: l.gap (level + 1) ++ write l (level + 1) v ++ writeItems l level vs

/-- The further members of an object. -/
def writeMembers (l : Layout) (level : Nat) : List (String × Value) → List Char
  | [] => []
  | m :: ms =>
    ',' :: l.gap (level + 1) ++ writeMember l (level + 1) m ++ writeMembers l level ms

/-- A key and its value. -/
def writeMember (l : Layout) (level : Nat) : String × Value → List Char
  | (key, v) => literal key ++ l.colon ++ write l level v

end

/-- The text of a value on one line. -/
def compact (v : Value) : String :=
  String.ofList (v.write .compact 0)

/-- The text of a value over several lines. -/
def pretty (v : Value) : String :=
  String.ofList (v.write .pretty 0)

end Value

end NodeCatalog.Json
