import Cdr.Json.Basic
import Cdr.Text.Numeral

/-! # Reading JSON

Strict JSON in two passes, each a fold with a small state: `Scan` turns characters into tokens,
`Build` turns tokens into a value. Neither recurses over the nesting of the document.
-/

namespace Cdr.Json

/-- A word of a JSON text. -/
inductive Token where
  | openArray
  | closeArray
  | openObject
  | closeObject
  | comma
  | colon
  | null
  | bool (value : Bool)
  | number (literal : String)
  | string (content : Option String)
  deriving DecidableEq, Repr

/-- Whether characters are one or more ASCII digits. -/
def isDigits (cs : List Char) : Bool :=
  !cs.isEmpty && cs.all Char.isDigit

/-- Whether characters are the exponent of a number behind its `e`. -/
def isExponent : List Char → Bool
  | '+' :: cs => isDigits cs
  | '-' :: cs => isDigits cs
  | cs => isDigits cs

/-- Whether characters are what may follow the integer part of a number. -/
def isNumberTail : List Char → Bool
  | [] => true
  | '.' :: cs =>
    match cs.dropWhile Char.isDigit with
    | [] => isDigits cs
    | e :: power => isDigits (cs.takeWhile Char.isDigit) && (e == 'e' || e == 'E') && isExponent power
  | e :: power => (e == 'e' || e == 'E') && isExponent power

/-- Whether characters are a number without its sign: no zero leads other digits. -/
def isUnsignedNumber (cs : List Char) : Bool :=
  match cs.takeWhile Char.isDigit with
  | [] => false
  | d :: ds => (d != '0' || ds.isEmpty) && isNumberTail (cs.dropWhile Char.isDigit)

/-- The token of a run of characters that hold no blank, quote or punctuation. -/
def Token.ofWord? (cs : List Char) : Option Token :=
  if cs = "null".toList then some .null
  else if cs = "true".toList then some (.bool true)
  else if cs = "false".toList then some (.bool false)
  else if isUnsignedNumber (unsigned cs).2 then some (.number (String.ofList cs))
  else none

/-- The part of a string that was read. -/
structure Quoted where
  /-- The characters, latest first. -/
  rev : List Char
  /-- Whether every escaped surrogate before `lead` has its other half. -/
  whole : Bool
  /-- An escaped high surrogate that waits for its low one. -/
  lead : Option Nat
  deriving Repr

namespace Quoted

def empty : Quoted := ⟨[], true, none⟩

def push (q : Quoted) (c : Char) : Quoted :=
  ⟨c :: q.rev, q.whole && q.lead.isNone, none⟩

/-- Adds the UTF-16 unit of a `\u` escape. -/
def pushUnit (q : Quoted) (unit : Nat) : Quoted :=
  if 0xd800 ≤ unit ∧ unit < 0xdc00 then ⟨q.rev, q.whole && q.lead.isNone, some unit⟩
  else if 0xdc00 ≤ unit ∧ unit < 0xe000 then
    match q.lead with
    | some lead =>
      ⟨Char.ofNat (0x10000 + (lead - 0xd800) * 0x400 + (unit - 0xdc00)) :: q.rev, q.whole, none⟩
    | none => ⟨q.rev, false, none⟩
  else q.push (Char.ofNat unit)

def content (q : Quoted) : Option String :=
  if q.whole && q.lead.isNone then some (String.ofList q.rev.reverse) else none

end Quoted

/-- The character behind a backslash, and the one the two stand for. -/
def unescape? : Char → Option Char
  | '"' => some '"'
  | '\\' => some '\\'
  | '/' => some '/'
  | 'b' => some '\x08'
  | 'f' => some '\x0c'
  | 'n' => some '\n'
  | 'r' => some '\r'
  | 't' => some '\t'
  | _ => none

/-- Where the scanner stands. -/
inductive Scan.Place where
  | between
  /-- Inside a word, its characters latest first. -/
  | word (rev : List Char)
  | quoted (q : Quoted)
  /-- Behind a backslash. -/
  | escape (q : Quoted)
  /-- Inside a `\u` escape with `digits` digits read that make `unit`. -/
  | unit (q : Quoted) (digits unit : Nat)

/-- A scanner: the tokens so far, latest first, and where it stands. -/
structure Scan where
  rev : List Token
  place : Scan.Place

namespace Scan

def start : Scan := ⟨[], .between⟩

/-- Takes a character that begins a token or separates two. -/
def fresh (rev : List Token) : Char → Scan
  | ' ' | '\t' | '\n' | '\r' => ⟨rev, .between⟩
  | '[' => ⟨.openArray :: rev, .between⟩
  | ']' => ⟨.closeArray :: rev, .between⟩
  | '\x7b' => ⟨.openObject :: rev, .between⟩
  | '\x7d' => ⟨.closeObject :: rev, .between⟩
  | ',' => ⟨.comma :: rev, .between⟩
  | ':' => ⟨.colon :: rev, .between⟩
  | '"' => ⟨rev, .quoted .empty⟩
  | c => ⟨rev, .word [c]⟩

/-- Whether a character ends the word before it. -/
def endsWord (c : Char) : Bool :=
  match (fresh [] c).place with
  | .word _ => false
  | _ => true

/-- Takes one character; control characters stand in no string. -/
def step (s : Scan) (c : Char) : Option Scan :=
  match s.place with
  | .between => some (fresh s.rev c)
  | .word rev =>
    if endsWord c then (Token.ofWord? rev.reverse).map fun token => fresh (token :: s.rev) c
    else some ⟨s.rev, .word (c :: rev)⟩
  | .quoted q =>
    if c = '"' then some ⟨.string q.content :: s.rev, .between⟩
    else if c = '\\' then some ⟨s.rev, .escape q⟩
    else if c.toNat < 0x20 then none
    else some ⟨s.rev, .quoted (q.push c)⟩
  | .escape q =>
    if c = 'u' then some ⟨s.rev, .unit q 0 0⟩
    else (unescape? c).map fun d => ⟨s.rev, .quoted (q.push d)⟩
  | .unit q digits unit =>
    (Text.hexDigit? c).map fun d =>
      if digits = 3 then ⟨s.rev, .quoted (q.pushUnit (16 * unit + d))⟩
      else ⟨s.rev, .unit q (digits + 1) (16 * unit + d)⟩

/-- The tokens when the text ends here. -/
def finish (s : Scan) : Option (List Token) :=
  match s.place with
  | .between => some s.rev.reverse
  | .word rev => (Token.ofWord? rev.reverse).map fun token => (token :: s.rev).reverse
  | _ => none

end Scan

/-- The tokens of a text. -/
def tokens? (cs : List Char) : Option (List Token) :=
  (cs.foldlM Scan.step Scan.start).bind Scan.finish

/-- A container whose end was not read. Items and entries stand latest first. -/
inductive Open where
  | array (rev : List Json)
  /-- An object, with the key whose value comes next. -/
  | object (rev : List (Option String × Json)) (key : Option String)

/-- What the builder waits for, inside the containers `outer`, innermost first. -/
inductive Build where
  /-- A value, or the end of the array just opened when `mayClose` holds. -/
  | value (mayClose : Bool) (outer : List Open)
  /-- What follows the complete value `last`. -/
  | next (last : Json) (outer : List Open)
  /-- A key, or the end of the object just opened when `mayClose` holds. -/
  | key (mayClose : Bool) (rev : List (Option String × Json)) (outer : List Open)
  /-- The colon behind a key. -/
  | colon (key : Option String) (rev : List (Option String × Json)) (outer : List Open)

namespace Build

def start : Build := .value false []

def step : Build → Token → Option Build
  | .value _ outer, .null => some (.next .null outer)
  | .value _ outer, .bool b => some (.next (.bool b) outer)
  | .value _ outer, .number literal => some (.next (.number literal) outer)
  | .value _ outer, .string content => some (.next (.string content) outer)
  | .value _ outer, .openArray => some (.value true (.array [] :: outer))
  | .value _ outer, .openObject => some (.key true [] outer)
  | .value true (.array _ :: outer), .closeArray => some (.next (.array []) outer)
  | .next v (.array rev :: outer), .comma => some (.value false (.array (v :: rev) :: outer))
  | .next v (.array rev :: outer), .closeArray =>
    some (.next (.array (v :: rev).reverse) outer)
  | .next v (.object rev k :: outer), .comma => some (.key false ((k, v) :: rev) outer)
  | .next v (.object rev k :: outer), .closeObject =>
    some (.next (.object ((k, v) :: rev).reverse) outer)
  | .key _ rev outer, .string k => some (.colon k rev outer)
  | .key true _ outer, .closeObject => some (.next (.object []) outer)
  | .colon k rev outer, .colon => some (.value false (.object rev k :: outer))
  | _, _ => none

/-- The value when the text ends here. -/
def finish : Build → Option Json
  | .next v [] => some v
  | _ => none

end Build

/-- The value that tokens spell. -/
def ofTokens? (tokens : List Token) : Option Json :=
  (tokens.foldlM Build.step Build.start).bind Build.finish

/-- The value a text denotes; `none` for anything but one JSON value and blanks around it. -/
def parse? (text : String) : Option Json :=
  (tokens? text.toList).bind ofTokens?

end Cdr.Json
