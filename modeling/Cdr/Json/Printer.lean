import Cdr.Json.Basic

/-! # Printing JSON

The compact form without blanks, and the pretty form with one item a line and two blanks for each
level. Strings escape the quote, the backslash and the control characters below U+0020 only.
-/

namespace Cdr.Json

/-- A character as it stands between quotes. -/
def escape (c : Char) : List Char :=
  if c = '"' then ['\\', '"']
  else if c = '\\' then ['\\', '\\']
  else if c = '\x08' then ['\\', 'b']
  else if c = '\t' then ['\\', 't']
  else if c = '\n' then ['\\', 'n']
  else if c = '\x0c' then ['\\', 'f']
  else if c = '\r' then ['\\', 'r']
  else if c.toNat < 0x20 then
    ['\\', 'u', '0', '0', Nat.digitChar (c.toNat / 16), Nat.digitChar (c.toNat % 16)]
  else [c]

/-- A string between quotes. One that no text can hold is written as a lone half. -/
def quote : Option String → String
  | some content => String.ofList ('"' :: content.toList.flatMap escape ++ ['"'])
  | none => "\"\\ud800\""

/-- The text of a value that holds no other. -/
def atom : Json → String
  | .null => "null"
  | .bool true => "true"
  | .bool false => "false"
  | .number literal => literal
  | .string content => quote content
  | .array _ => "[]"
  | .object _ => "\x7b\x7d"

mutual

/-- The text of a value without any blanks. -/
def compact : Json → String
  | .array items => "[" ++ String.intercalate "," (compactItems items) ++ "]"
  | .object entries => "\x7b" ++ String.intercalate "," (compactEntries entries) ++ "\x7d"
  | v => v.atom

/-- The texts of the items of an array. -/
def compactItems : List Json → List String
  | [] => []
  | v :: vs => compact v :: compactItems vs

/-- The texts of the entries of an object. -/
def compactEntries : List (Option String × Json) → List String
  | [] => []
  | (key, v) :: entries => (quote key ++ ":" ++ compact v) :: compactEntries entries

end

/-- A line break and the blanks that open a line at the given level. -/
def newline (level : Nat) : String :=
  String.ofList ('\n' :: List.replicate (2 * level) ' ')

/-- Parts on lines of their own between two brackets, the brackets at the given level. -/
def block (level : Nat) (opening : String) (parts : List String) (closing : String) : String :=
  opening ++ newline (level + 1) ++ String.intercalate ("," ++ newline (level + 1)) parts ++
    newline level ++ closing

mutual

/-- The text of a value that stands at the given level, one item a line; an empty container stays
    on its line. -/
def prettyAt (level : Nat) : Json → String
  | .array (item :: items) => block level "[" (prettyItems (level + 1) (item :: items)) "]"
  | .object (entry :: entries) =>
    block level "\x7b" (prettyEntries (level + 1) (entry :: entries)) "\x7d"
  | v => v.atom

/-- The texts of the items of an array. -/
def prettyItems (level : Nat) : List Json → List String
  | [] => []
  | v :: vs => prettyAt level v :: prettyItems level vs

/-- The texts of the entries of an object. -/
def prettyEntries (level : Nat) : List (Option String × Json) → List String
  | [] => []
  | (key, v) :: entries => (quote key ++ ": " ++ prettyAt level v) :: prettyEntries level entries

end

/-- The text of a value, one item a line. -/
def pretty (v : Json) : String :=
  prettyAt 0 v

end Cdr.Json
