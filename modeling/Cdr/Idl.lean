import Cdr.Graph.PostOrder
import Cdr.Schema.Basic

/-! # IDL

A schema as OMG IDL. Every type stands behind those it names, unless they name it in turn, inside
the modules of its namespace. `pieces` says what is written in which order, and `render` writes it
a line after the other.
-/

namespace Cdr.Idl

/-- A step of the text: a module begins, the innermost module ends, or a type is defined. -/
inductive Piece (n : Nat) where
  | openModule (name : String)
  | closeModule
  | definition (index : Fin n)
  deriving DecidableEq, Repr

/-- The parts of a text between its dots. -/
def segments : List Char → List (List Char)
  | [] => [[]]
  | c :: cs =>
    match segments cs with
    | [] => [[c]]
    | segment :: rest =>
      if c = '.' then [] :: segment :: rest else (c :: segment) :: rest

/-- The modules of a namespace, outermost first. -/
def modulePath (scope : String) : List String :=
  if scope.isEmpty then [] else (segments scope.toList).map String.ofList

/-- How many modules two paths share from the outermost on. -/
def sharedDepth : List String → List String → Nat
  | a :: as, b :: bs => if a = b then sharedDepth as bs + 1 else 0
  | _, _ => 0

/-- The steps from inside one path of modules to inside another. -/
def moves {n : Nat} (opened path : List String) : List (Piece n) :=
  let shared := sharedDepth opened path
  List.replicate (opened.length - shared) .closeModule ++ (path.drop shared).map .openModule

/-- The steps that define types in the given order, where the modules `opened` are open. -/
def piecesFrom {n : Nat} (path : Fin n → List String) :
    List String → List (Fin n) → List (Piece n)
  | opened, [] => List.replicate opened.length .closeModule
  | opened, i :: rest => moves opened (path i) ++ .definition i :: piecesFrom path (path i) rest

section

variable (schema : Schema)

/-- The types in the order of their definitions. -/
def emissionOrder : List (Fin schema.size) :=
  (Graph.walk fun i => (schema.get i).body.mentioned).order

def pieces : List (Piece schema.size) :=
  piecesFrom (fun i => modulePath (schema.get i).scope) [] (emissionOrder schema)

end

/-- A line at the given depth. -/
def line (depth : Nat) (text : String) : String :=
  String.ofList (List.replicate (4 * depth) ' ') ++ text

def dimension (length : UInt32) : String :=
  "[" ++ Text.decimal length.toNat ++ "]"

section

variable (schema : Schema)

/-- How a type is named inside the namespace `scope`: by its name there, and by its full path from
    outside. -/
def reference (scope : String) (i : Fin schema.size) : String :=
  let t := schema.get i
  if t.scope = scope then t.name
  else
    "::" ++ String.ofList (t.full.toList.flatMap fun c => if c = '.' then [':', ':'] else [c])

/-- A type as it is named where no declared name follows. -/
def typeName (scope : String) : MemberType schema.size → String
  | .primitive p => p.idlName
  | .string none => "string"
  | .string (some bound) => "string<" ++ Text.decimal bound.toNat ++ ">"
  | .fixedString capacity => "char" ++ dimension capacity
  | .sequence element none => "sequence<" ++ typeName scope element ++ ">"
  | .sequence element (some bound) =>
    "sequence<" ++ typeName scope element ++ ", " ++ Text.decimal bound.toNat ++ ">"
  | .array element length => typeName scope element ++ dimension length
  | .type i => reference schema scope i

/-- A type as it stands before a declared name, and the dimensions behind that name. -/
def declarator (scope : String) : MemberType schema.size → String × String
  | .array element length =>
    let (type, dimensions) := declarator scope element
    (type, dimension length ++ dimensions)
  | .fixedString capacity => ("char", dimension capacity)
  | type => (typeName schema scope type, "")

def declaration (scope : String) (m : Member schema.size) : String :=
  let (type, dimensions) := declarator schema scope m.type
  type ++ " " ++ m.name ++ dimensions ++ ";"

def extensibilityLine : Extensibility → String
  | .final => "@final"
  | .appendable => "@appendable"
  | .mutable => "@mutable"

/-- The annotations of a struct member. Its id is given where it is not the index. -/
def annotations (index : Nat) (m : Member schema.size) : String :=
  (if m.key then "@key " else "") ++ (if m.optional then "@optional " else "") ++
    (if m.id.toNat = index then "" else "@id(" ++ Text.decimal m.id.toNat ++ ") ")

/-- The enumeration that a discriminator is of. -/
def enumOf? : MemberType schema.size → Option EnumType
  | .type i =>
    match (schema.get i).body with
    | .enumeration e => some e
    | _ => none
  | _ => none

/-- The name of the enumerator with the value of a label. -/
def labelName? (e : EnumType) (label : Int64) : Option String :=
  if -0x80000000 ≤ label.toInt ∧ label.toInt < 0x80000000 then e.nameOf? label.toInt32 else none

/-- A case label as the type of the discriminator spells it. -/
def caseLabel (type : MemberType schema.size) (label : Int64) : String :=
  match (enumOf? schema type).bind fun e => labelName? e label with
  | some name => name
  | none =>
    match type with
    | .primitive .bool => if label = 0 then "FALSE" else "TRUE"
    | .primitive .char =>
      if 0x21 ≤ label.toInt ∧ label.toInt ≤ 0x7e then
        String.ofList ['\'', Char.ofNat label.toInt.toNat, '\'']
      else Text.signedDecimal label.toInt
    | _ => Text.signedDecimal label.toInt

/-- The labels in front of an arm. -/
def armLabels (u : UnionType schema.size) (arm : UnionArm schema.size) : String :=
  String.join (arm.labels.map fun label =>
    "case " ++ caseLabel schema u.discriminator.type label ++ ": ") ++
    if arm.isDefault then "default: " else ""

/-- The enumerators, where one without an annotation has the value `next`. -/
def enumeratorTexts : Int32 → List (String × Int32) → List String
  | _, [] => []
  | next, (name, value) :: rest =>
    let text :=
      if value = next then name else "@value(" ++ Text.signedDecimal value.toInt ++ ") " ++ name
    (if rest.isEmpty then text else text ++ ",") :: enumeratorTexts (value + 1) rest

/-- The lines between the braces of a definition. -/
def bodyLines (t : CompiledType schema.size) : List String :=
  match t.body with
  | .struct s =>
    s.members.zipIdx.map fun m => annotations schema m.2 m.1 ++ declaration schema t.scope m.1
  | .union u =>
    u.arms.map fun arm => armLabels schema u arm ++ declaration schema t.scope arm.member
  | .enumeration e => enumeratorTexts 0 e.enumerators

/-- The lines that open a definition. -/
def headLines (t : CompiledType schema.size) : List String :=
  match t.body with
  | .struct _ => [extensibilityLine t.extensibility, "struct " ++ t.name ++ " \x7b"]
  | .union u =>
    [extensibilityLine t.extensibility,
      "union " ++ t.name ++ " switch (" ++ typeName schema t.scope u.discriminator.type ++ ") \x7b"]
  | .enumeration _ => ["enum " ++ t.name ++ " \x7b"]

def definitionLines (depth : Nat) (t : CompiledType schema.size) : List String :=
  (headLines schema t).map (line depth) ++ (bodyLines schema t).map (line (depth + 1)) ++
    [line depth "\x7d;"]

/-- The lines of steps, where `depth` modules are open. -/
def linesFrom : Nat → List (Piece schema.size) → List String
  | _, [] => []
  | depth, .openModule name :: rest =>
    line depth ("module " ++ name ++ " \x7b") :: linesFrom (depth + 1) rest
  | depth, .closeModule :: rest => line (depth - 1) "\x7d;" :: linesFrom (depth - 1) rest
  | depth, .definition i :: rest => definitionLines schema depth (schema.get i) ++ linesFrom depth rest

/-- The text of a schema. -/
def render : String :=
  String.join ((linesFrom schema 0 (pieces schema)).map fun text => text ++ "\n")

end

end Cdr.Idl
