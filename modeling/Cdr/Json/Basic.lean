/-! # JSON values

A JSON value as it is written: numbers keep their literal, objects keep every entry in order.
-/

namespace Cdr

/-- A JSON value. A string is `none` when its escapes name half of a surrogate pair alone, which
    no text can hold; where such a string is skipped it does no harm. -/
inductive Json where
  | null
  | bool (value : Bool)
  | number (literal : String)
  | string (content : Option String)
  | array (items : List Json)
  | object (entries : List (Option String × Json))
  deriving Repr, Inhabited

namespace Json

def text (content : String) : Json :=
  .string (some content)

def nat (n : Nat) : Json :=
  .number (String.ofList (Nat.toDigits 10 n))

/-- An object with the given entries. -/
def record (entries : List (String × Json)) : Json :=
  .object (entries.map fun entry => (some entry.1, entry.2))

/-- The value of the first entry with the given key. -/
def get? (key : String) : Json → Option Json
  | .object entries => (entries.find? fun entry => entry.1 == some key).map Prod.snd
  | _ => none

def text? : Json → Option String
  | .string content => content
  | _ => none

def bool? : Json → Option Bool
  | .bool value => some value
  | _ => none

def array? : Json → Option (List Json)
  | .array items => some items
  | _ => none

/-- The digits of a number literal are cut off a leading minus. -/
def unsigned : List Char → Bool × List Char
  | '-' :: digits => (true, digits)
  | digits => (false, digits)

/-- The number an integer literal denotes. A literal with a fraction or an exponent is none, and
    neither is `-0`, which only a floating-point number can be. -/
def int? : Json → Option Int
  | .number literal =>
    let (negative, digits) := unsigned literal.toList
    if digits.all Char.isDigit && !digits.isEmpty then
      let n := Nat.ofDigitChars 10 digits 0
      if negative then (if n = 0 then none else some (-n)) else some n
    else none
  | _ => none

end Json

end Cdr
