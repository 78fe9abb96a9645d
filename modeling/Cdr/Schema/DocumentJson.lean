import Cdr.Json.Printer
import Cdr.Json.Reader
import Cdr.Schema.Error

/-! # Schema documents as JSON

A document is an object `types` of type declarations. Every record may also be written as an array
of its values in the order in which they are listed here; values left out take their defaults.
Unknown keys are ignored, a known key stands once, and integers are written as integers in range.
-/

namespace Cdr

namespace Json

/-- The values of a record under the given keys: from an object, whose keys all are texts and name
    each of them once at most, or from an array that holds no more values than there are keys. -/
def values? (keys : List String) : Json → Option (List (Option Json))
  | .object entries =>
    if entries.all (fun entry => entry.1.isSome) &&
        keys.all (fun key => (entries.filter fun entry => entry.1 == some key).length ≤ 1) then
      some (keys.map fun key => (entries.find? fun entry => entry.1 == some key).map Prod.snd)
    else none
  | .array items =>
    if items.length ≤ keys.length then
      some (items.map some ++ List.replicate (keys.length - items.length) none)
    else none
  | _ => none

/-- A value that has to be there. -/
def required? {α : Type} (read : Json → Option α) (v : Option Json) : Option α :=
  v.bind read

/-- A value that may be left out. -/
def orDefault? {α : Type} (read : Json → Option α) (value : α) : Option Json → Option α
  | none => some value
  | some v => read v

/-- A value that may be `null`. -/
def nullable? {α : Type} (read : Json → Option α) : Json → Option (Option α)
  | .null => some none
  | v => (read v).map some

/-- An array of values of one kind. -/
def listOf? {α : Type} (read : Json → Option α) : Json → Option (List α)
  | .array items => items.mapM read
  | _ => none

def uint32? (v : Json) : Option UInt32 :=
  v.int?.bind fun n => if 0 ≤ n ∧ n < 0x100000000 then some (UInt32.ofNat n.toNat) else none

def int32? (v : Json) : Option Int32 :=
  v.int?.bind fun n => if -0x80000000 ≤ n ∧ n < 0x80000000 then some (Int32.ofInt n) else none

def int64? (v : Json) : Option Int64 :=
  v.int?.bind fun n =>
    if -0x8000000000000000 ≤ n ∧ n < 0x8000000000000000 then some (Int64.ofInt n) else none

/-- One of several words, as a string or as the only key of an object whose value is `null`. -/
def word? : Json → Option String
  | .string content => content
  | .object [(key, .null)] => key
  | _ => none

def int (n : Int) : Json :=
  .number (Text.signedDecimal n)

/-- A value that may be absent, then `null`. -/
def orNull {α : Type} (write : α → Json) : Option α → Json
  | none => .null
  | some a => write a

end Json

namespace Kind

def word : Kind → String
  | struct => "struct"
  | union => "union"
  | enumeration => "enum"

def ofWord? (word : String) : Option Kind :=
  [struct, union, enumeration].find? fun kind => kind.word == word

theorem ofWord?_word (kind : Kind) : ofWord? kind.word = some kind := by
  cases kind <;> decide

end Kind

namespace Extensibility

def word : Extensibility → String
  | final => "final"
  | appendable => "appendable"
  | mutable => "mutable"

def ofWord? (word : String) : Option Extensibility :=
  [final, appendable, mutable].find? fun extensibility => extensibility.word == word

theorem ofWord?_word (extensibility : Extensibility) :
    ofWord? extensibility.word = some extensibility := by
  cases extensibility <;> decide

end Extensibility

namespace Annotations

def keys : List String :=
  ["key", "optional", "case", "default_case", "discriminator", "bound", "fixed_length"]

def toJson (a : Annotations) : Json :=
  .record (keys.zip [.bool a.key, .bool a.optional, .array (a.labels.map fun n => .int n.toInt),
    .bool a.isDefault, .bool a.discriminator, .orNull (fun n => .nat n.toNat) a.bound,
    .orNull (fun n => .nat n.toNat) a.fixedLength])

def ofJson? (v : Json) : Option Annotations := do
  let [key, optional, labels, isDefault, discriminator, bound, fixedLength] ← v.values? keys
    | none
  let key ← Json.orDefault? Json.bool? false key
  let optional ← Json.orDefault? Json.bool? false optional
  let labels ← Json.orDefault? (Json.listOf? Json.int64?) [] labels
  let isDefault ← Json.orDefault? Json.bool? false isDefault
  let discriminator ← Json.orDefault? Json.bool? false discriminator
  let bound ← Json.orDefault? (Json.nullable? Json.uint32?) none bound
  let fixedLength ← Json.orDefault? (Json.nullable? Json.uint32?) none fixedLength
  return { key, optional, labels, isDefault, discriminator, bound, fixedLength }

end Annotations

namespace FieldDecl

def keys : List String :=
  ["name", "type", "id", "attributes"]

def toJson (f : FieldDecl) : Json :=
  .record (keys.zip [.text f.name, .text f.typeText, .orNull (fun n => .nat n.toNat) f.id,
    f.annotations.toJson])

def ofJson? (v : Json) : Option FieldDecl := do
  let [name, typeText, id, annotations] ← v.values? keys
    | none
  let name ← Json.required? Json.text? name
  let typeText ← Json.required? Json.text? typeText
  let id ← Json.orDefault? (Json.nullable? Json.uint32?) none id
  let annotations ← Json.orDefault? Annotations.ofJson? {} annotations
  return { name, typeText, id, annotations }

end FieldDecl

namespace Enumerator

def keys : List String :=
  ["name", "value"]

def toJson (e : Enumerator) : Json :=
  .record (keys.zip [.text e.name, .orNull (fun n => .int n.toInt) e.value])

def ofJson? (v : Json) : Option Enumerator := do
  let [name, value] ← v.values? keys
    | none
  let name ← Json.required? Json.text? name
  let value ← Json.orDefault? (Json.nullable? Json.int32?) none value
  return { name, value }

end Enumerator

namespace TypeDecl

def keys : List String :=
  ["name", "namespace", "kind", "extensibility", "fields", "enum_members"]

def toJson (t : TypeDecl) : Json :=
  .record (keys.zip [.text t.name, .text t.scope, .text t.kind.word, .text t.extensibility.word,
    .array (t.fields.map FieldDecl.toJson), .array (t.enumerators.map Enumerator.toJson)])

def ofJson? (v : Json) : Option TypeDecl := do
  let [name, scope, kind, extensibility, fields, enumerators] ← v.values? keys
    | none
  let name ← Json.required? Json.text? name
  let scope ← Json.orDefault? Json.text? "" scope
  let kind ← Json.orDefault? (fun v => v.word?.bind Kind.ofWord?) .struct kind
  let extensibility ←
    Json.orDefault? (fun v => v.word?.bind Extensibility.ofWord?) .final extensibility
  let fields ← Json.orDefault? (Json.listOf? FieldDecl.ofJson?) [] fields
  let enumerators ← Json.orDefault? (Json.listOf? Enumerator.ofJson?) [] enumerators
  return { name, scope, kind, extensibility, fields, enumerators }

end TypeDecl

namespace Document

def keys : List String :=
  ["types"]

def toJson (doc : Document) : Json :=
  .record (keys.zip [.array (doc.types.map TypeDecl.toJson)])

def ofJson? (v : Json) : Option Document := do
  let [types] ← v.values? keys
    | none
  let types ← Json.required? (Json.listOf? TypeDecl.ofJson?) types
  return { types }

/-- The text of a document, one value a line. -/
def render (doc : Document) : String :=
  doc.toJson.pretty

/-- Reads the text of a document. -/
def parse (text : String) : Except SchemaError Document :=
  match (Json.parse? text).bind ofJson? with
  | some doc => .ok doc
  | none => .error .document

end Document

end Cdr
