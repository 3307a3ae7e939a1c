import NodeCatalog.Text.Graphic

/-!
# Quoted text in messages

A text that is quoted in a message stands between double quotes.  The quote and the backslash have a
backslash before them, four control characters have short names, and all other characters that are
not graphic are written by their code point.
-/

namespace NodeCatalog.Text

/-- A character as it stands in quoted text. -/
def escape (c : Char) : List Char :=
  match c with
  | '\x00' => ['\\', '0']
  | '\t' => ['\\', 't']
  | '\n' => ['\\', 'n']
  | '\r' => ['\\', 'r']
  | '"' => ['\\', '"']
  | '\\' => ['\\', '\\']
  | c => if isGraphic c then [c] else ['\\', 'u', '{'] ++ Nat.toDigits 16 c.toNat ++ ['}']

/-- A text between double quotes. -/
def quoted (s : String) : String :=
  String.ofList ('"' :: s.toList.flatMap escape ++ ['"'])

end NodeCatalog.Text
