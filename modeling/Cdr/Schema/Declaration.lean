import Cdr.Representation

/-! # Declarations

The types of a schema as they are declared, before any name is resolved, and the functions that
build them up.
-/

namespace Cdr

/-- The name of a type and the namespace it stands in, its parts separated by dots. -/
structure TypeName where
  name : String
  /-- The namespace; empty outside of any. -/
  scope : String
  deriving DecidableEq, Repr

namespace TypeName

/-- The name behind its namespace, or just the name outside of any. -/
def full (t : TypeName) : String :=
  if t.scope.isEmpty then t.name else t.scope ++ "." ++ t.name

end TypeName

inductive Kind where
  | struct
  | union
  | enumeration
  deriving DecidableEq, Repr

/-- What is said about a field besides its name, type and id. -/
structure Annotations where
  key : Bool := false
  optional : Bool := false
  /-- The case labels that select this member of a union. -/
  labels : List Int64 := []
  /-- Whether this member of a union is selected when no label is. -/
  isDefault : Bool := false
  discriminator : Bool := false
  /-- The greatest count of elements of a sequence, or of bytes of a string. -/
  bound : Option UInt32 := none
  /-- The length in bytes of a fixed-size string. -/
  fixedLength : Option UInt32 := none
  deriving DecidableEq, Repr

structure FieldDecl where
  name : String
  typeText : String
  /-- The member id; the index of the field when absent. -/
  id : Option UInt32 := none
  annotations : Annotations := {}
  deriving DecidableEq, Repr

structure Enumerator where
  name : String
  /-- The value; when absent, one past that of the enumerator before, and 0 for the first. -/
  value : Option Int32 := none
  deriving DecidableEq, Repr

structure TypeDecl extends TypeName where
  kind : Kind := .struct
  extensibility : Extensibility := .final
  fields : List FieldDecl := []
  enumerators : List Enumerator := []
  deriving DecidableEq, Repr

/-- The types that are compiled together. -/
structure Document where
  types : List TypeDecl
  deriving DecidableEq, Repr

namespace FieldDecl

def new (name typeText : String) : FieldDecl :=
  { name, typeText }

def withId (f : FieldDecl) (id : UInt32) : FieldDecl :=
  { f with id := some id }

def key (f : FieldDecl) : FieldDecl :=
  { f with annotations := { f.annotations with key := true } }

def optional (f : FieldDecl) : FieldDecl :=
  { f with annotations := { f.annotations with optional := true } }

def bound (f : FieldDecl) (n : UInt32) : FieldDecl :=
  { f with annotations := { f.annotations with bound := some n } }

def fixedLength (f : FieldDecl) (n : UInt32) : FieldDecl :=
  { f with annotations := { f.annotations with fixedLength := some n } }

def discriminator (f : FieldDecl) : FieldDecl :=
  { f with annotations := { f.annotations with discriminator := true } }

/-- Adds case labels to those the field has. -/
def case (f : FieldDecl) (labels : List Int64) : FieldDecl :=
  { f with annotations := { f.annotations with labels := f.annotations.labels ++ labels } }

def defaultCase (f : FieldDecl) : FieldDecl :=
  { f with annotations := { f.annotations with isDefault := true } }

end FieldDecl

namespace TypeDecl

/-- A final type outside of any namespace that declares nothing yet. -/
def new (name : String) (kind : Kind) : TypeDecl :=
  { name, scope := "", kind }

/-- An enumeration whose enumerators take the values from 0 on. -/
def enumeration (name : String) (names : List String) : TypeDecl :=
  { new name .enumeration with enumerators := names.map fun name => { name } }

def inScope (t : TypeDecl) (scope : String) : TypeDecl :=
  { t with scope }

def withExtensibility (t : TypeDecl) (extensibility : Extensibility) : TypeDecl :=
  { t with extensibility }

/-- Adds a field behind the others. -/
def field (t : TypeDecl) (f : FieldDecl) : TypeDecl :=
  { t with fields := t.fields ++ [f] }

end TypeDecl

namespace Document

def empty : Document := ⟨[]⟩

/-- Adds a type behind the others. -/
def declare (doc : Document) (t : TypeDecl) : Document :=
  ⟨doc.types ++ [t]⟩

end Document

end Cdr
