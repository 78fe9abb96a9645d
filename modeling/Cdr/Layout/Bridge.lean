import Cdr.Entries
import Cdr.Json.Printer
import Cdr.Schema.Basic

/-! # Bridge layouts

The summary of a native layout that is handed to a foreign runtime: the offset of every field by
name, and the names of the key members.
-/

namespace Cdr

structure BridgeLayout where
  typeName : String
  totalSize : Nat
  /-- The offsets by name, names ascending. -/
  offsets : Entries Nat
  keys : List String
  deriving Repr

namespace BridgeLayout

/-- The summary as compact JSON. -/
def render (b : BridgeLayout) : String :=
  Json.compact (.record [("type_name", .text b.typeName), ("total_size", .nat b.totalSize),
    ("offsets", .record (b.offsets.map fun entry => (entry.1, .nat entry.2))),
    ("keys", .array (b.keys.map Json.text))])

end BridgeLayout

namespace CompiledType

variable {n : Nat}

/-- The names of the key members of a struct; no other type has any. -/
def keyNames (t : CompiledType n) : List String :=
  match t.body with
  | .struct s => (s.members.filter fun m => m.key).map fun m => m.name
  | _ => []

/-- The summary of the layout of a type. Of two fields with one name the later stays. -/
def bridgeLayout (t : CompiledType n) : BridgeLayout where
  typeName := t.full
  totalSize := t.layout.size
  offsets := .ofList (t.layout.fields.map fun f => (f.name, f.offset))
  keys := t.keyNames

end CompiledType

end Cdr
