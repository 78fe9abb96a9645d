import Cdr.Schema.Declaration
import Cdr.Text.Blank
import Cdr.Text.Numeral

/-! # Type expressions

The type text of a field as a tree of containers around a name. These spellings are accepted, with
blanks around every part:

* primitives and names of types: `int32`, `unsigned long`, `Trading.Order`
* `string`, `string<N>`, `FixedStringN`, `fixed_string<N>`
* `sequence<T>`, `sequence<T, N>`, `BoundedSeq<T, N>`, `List<T>`
* `T[N]` for arrays
* `T?` and `optional<T>`

`parse` reads a text and `render` writes the canonical one.
-/

namespace Cdr

inductive TypeExpr where
  /-- A primitive, or a reference to another type. -/
  | named (name : String)
  | string (bound : Option UInt32)
  | fixedString (capacity : UInt32)
  | sequence (element : TypeExpr) (bound : Option UInt32)
  | list (element : TypeExpr)
  | array (element : TypeExpr) (length : UInt32)
  | optional (inner : TypeExpr)
  deriving DecidableEq, Repr

namespace TypeExpr

/-- Why a text is no type expression. -/
inductive Fault where
  | empty
  /-- A text ends in `]` and holds no `[`. -/
  | lonelyBracket
  /-- A text ends in `>` and holds no `<`. -/
  | lonelyAngle
  /-- The brackets inside the arguments do not match. -/
  | unbalanced (arguments : String)
  | badLength (text : String)
  | unknownGeneric (head : String)
  | arity (head : String) (accepted : List Nat) (found : Nat)
  | badCharacter (text : String)
  deriving DecidableEq, Repr

namespace Fault

def message : Fault → String
  | empty => "empty type name"
  | lonelyBracket => "unbalanced `]`"
  | lonelyAngle => "unbalanced `>`"
  | unbalanced arguments => "unbalanced brackets in `" ++ arguments ++ "`"
  | badLength text => "`" ++ text ++ "` is not a valid length"
  | unknownGeneric head => "unknown generic type `" ++ head ++ "`"
  | arity head accepted found =>
    "`" ++ head ++ "` takes [" ++ String.intercalate ", " (accepted.map Text.decimal) ++
      "] type arguments, found " ++ Text.decimal found
  | badCharacter text => "unexpected character in `" ++ text ++ "`"

end Fault

/-- The parts before and behind the first `c`. -/
def splitFirst (c : Char) : List Char → Option (List Char × List Char)
  | [] => none
  | d :: ds =>
    if d = c then some ([], ds)
    else (splitFirst c ds).map fun parts => (d :: parts.1, parts.2)

/-- The part of an argument list that was read. -/
structure Arguments where
  /-- How many brackets are open. -/
  depth : Nat
  /-- The characters of the current argument, latest first. -/
  current : List Char
  /-- The arguments before it, latest first. -/
  done : List (List Char)

namespace Arguments

def start : Arguments := ⟨0, [], []⟩

/-- Takes one character: a comma outside of all brackets ends an argument. -/
def step (a : Arguments) (c : Char) : Option Arguments :=
  if c = '<' ∨ c = '[' then some ⟨a.depth + 1, c :: a.current, a.done⟩
  else if c = '>' ∨ c = ']' then
    if a.depth = 0 then none else some ⟨a.depth - 1, c :: a.current, a.done⟩
  else if c = ',' ∧ a.depth = 0 then some ⟨0, [], a.current.reverse :: a.done⟩
  else some ⟨a.depth, c :: a.current, a.done⟩

/-- All arguments, when every bracket is closed. -/
def finish (a : Arguments) : Option (List (List Char)) :=
  if a.depth = 0 then some (a.current.reverse :: a.done).reverse else none

end Arguments

/-- The arguments between two angle brackets, without the blanks around each. -/
def splitArguments (cs : List Char) : Except Fault (List (List Char)) :=
  match (cs.foldlM Arguments.step Arguments.start).bind Arguments.finish with
  | some arguments => .ok (arguments.map Text.trimChars)
  | none => .error (.unbalanced (String.ofList cs))

/-- A length or a bound. -/
def readLength (cs : List Char) : Except Fault UInt32 :=
  match Text.readCount? (Text.trimChars cs) with
  | some n => .ok n
  | none => .error (.badLength (String.ofList (Text.trimChars cs)))

/-- The type `head<arguments>`, where `parse` reads the types among the arguments. -/
def ofGeneric (parse : List Char → Except Fault TypeExpr) (head : String)
    (arguments : List (List Char)) : Except Fault TypeExpr :=
  if head ∈ ["optional", "Optional"] then
    match arguments with
    | [inner] => do
      let inner ← parse inner
      return .optional inner
    | _ => .error (.arity head [1] arguments.length)
  else if head ∈ ["sequence", "Sequence", "BoundedSeq", "bounded_sequence"] then
    match arguments with
    | [element] => do
      let element ← parse element
      return .sequence element none
    | [element, bound] => do
      let element ← parse element
      let bound ← readLength bound
      return .sequence element (some bound)
    | _ => .error (.arity head [1, 2] arguments.length)
  else if head ∈ ["List", "list"] then
    match arguments with
    | [element] => do
      let element ← parse element
      return .list element
    | _ => .error (.arity head [1] arguments.length)
  else if head ∈ ["string", "String"] then
    match arguments with
    | [bound] => do
      let bound ← readLength bound
      return .string (some bound)
    | _ => .error (.arity head [1] arguments.length)
  else if head ∈ ["fixed_string", "FixedString"] then
    match arguments with
    | [capacity] => do
      let capacity ← readLength capacity
      return .fixedString capacity
    | _ => .error (.arity head [1] arguments.length)
  else .error (.unknownGeneric head)

/-- Whether a character may stand in the name of a type. -/
def isNameChar (c : Char) : Bool :=
  c.isAlphanum || c == '_' || c == '.' || c == ' '

/-- What stands behind the word that opens the name of a fixed-size string. -/
def fixedStringLength? (cs : List Char) : Option (List Char) :=
  let word := "FixedString".toList
  if word.isPrefixOf cs then some (cs.drop word.length) else none

/-- A type expression without any suffix: a string or a name. -/
def ofWord (cs : List Char) : Except Fault TypeExpr :=
  if String.ofList cs = "string" ∨ String.ofList cs = "String" then .ok (.string none)
  else
    match fixedStringLength? cs with
    | some length => do
      let capacity ← readLength length
      return .fixedString capacity
    | none =>
      if cs.all isNameChar then .ok (.named (String.ofList cs))
      else .error (.badCharacter (String.ofList cs))

/-- Reads a text of at most `limit` characters: the last character says which container stands
    outermost, and the text of its element is shorter. -/
def parseWithin : Nat → List Char → Except Fault TypeExpr
  | 0, _ => .error .empty
  | limit + 1, text =>
    let cs := Text.trimChars text
    match cs.reverse with
    | [] => .error .empty
    | '?' :: rev => do
      let inner ← parseWithin limit rev.reverse
      return .optional inner
    | ']' :: rev =>
      match splitFirst '[' rev with
      | none => .error .lonelyBracket
      | some (length, element) => do
        let length ← readLength length.reverse
        let element ← parseWithin limit element.reverse
        return .array element length
    | '>' :: rev =>
      match splitFirst '<' rev.reverse with
      | none => .error .lonelyAngle
      | some (head, inside) => do
        let arguments ← splitArguments inside
        ofGeneric (parseWithin limit) (String.ofList (Text.trimChars head)) arguments
    | _ => ofWord cs

/-- Reads the type text of a field. -/
def parse (text : String) : Except Fault TypeExpr :=
  parseWithin text.length text.toList

/-- The canonical text. -/
def render : TypeExpr → String
  | named name => name
  | string none => "string"
  | string (some bound) => "string<" ++ Text.decimal bound.toNat ++ ">"
  | fixedString capacity => "fixed_string<" ++ Text.decimal capacity.toNat ++ ">"
  | sequence element none => "sequence<" ++ element.render ++ ">"
  | sequence element (some bound) =>
    "sequence<" ++ element.render ++ ", " ++ Text.decimal bound.toNat ++ ">"
  | list element => "List<" ++ element.render ++ ">"
  | array element length => element.render ++ "[" ++ Text.decimal length.toNat ++ "]"
  | optional inner => inner.render ++ "?"

/-- Folds a bound and a fixed length into the type below the optional marks. What the text says
    itself comes first, except that a fixed length makes any string a fixed-size one. -/
def constrain (bound fixedLength : Option UInt32) : TypeExpr → TypeExpr
  | optional inner => optional (inner.constrain bound fixedLength)
  | string own =>
    match fixedLength with
    | some capacity => fixedString capacity
    | none => string (own.or bound)
  | sequence element own => sequence element (own.or bound)
  | list element =>
    match bound with
    | some n => sequence element (some n)
    | none => list element
  | t => t

/-- The type of a field with the given annotations. -/
def annotate (t : TypeExpr) (a : Annotations) : TypeExpr :=
  let constrained := t.constrain a.bound a.fixedLength
  match constrained with
  | optional _ => constrained
  | _ => if a.optional then optional constrained else constrained

end TypeExpr

end Cdr
