import Cdr.Schema.TypeExpr

/-! # Schema errors

What can be wrong with a schema document. A type is given by its full name.
-/

namespace Cdr

/-- Why the type of a field cannot be used although its names are known. -/
inductive TypeFault where
  | unreadable (fault : TypeExpr.Fault)
  | emptyArray
  /-- An optional mark stands below the member itself. -/
  | innerOptional
  | optionalArm
  deriving DecidableEq, Repr

namespace TypeFault

def message : TypeFault → String
  | unreadable fault => fault.message
  | emptyArray => "array length must be positive"
  | innerOptional => "optional is only allowed on a member"
  | optionalArm => "union members cannot be optional"

end TypeFault

inductive SchemaError where
  | duplicateType (typeName : String)
  | unknownType (name : String)
  | missingDiscriminator (typeName : String)
  | multipleDiscriminators (typeName : String)
  /-- A field outside of a union is marked as a discriminator. -/
  | unexpectedDiscriminator (typeName field : String)
  | invalidDiscriminatorType (typeName field typeText : String)
  | duplicateCaseValue (typeName : String) (value : Int64)
  | multipleDefaultCases (typeName : String)
  /-- A member of a union has no label and is not the default. -/
  | unlabeledUnionMember (typeName field : String)
  | duplicateFieldId (typeName : String) (id : UInt32)
  | duplicateEnumValue (typeName : String) (value : Int32)
  /-- A name inside the type of a field is the name of nothing. -/
  | unresolvedType (typeName field name : String)
  | invalidType (typeName field typeText : String) (fault : TypeFault)
  /-- A type holds itself by value. -/
  | circularDependency (typeName : String)
  /-- The text of a document is no schema document. -/
  | document
  deriving DecidableEq, Repr

namespace SchemaError

def message : SchemaError → String
  | duplicateType t => "type `" ++ t ++ "` is declared more than once"
  | unknownType name => "unknown type `" ++ name ++ "`"
  | missingDiscriminator t => "union `" ++ t ++ "` has no discriminator"
  | multipleDiscriminators t => "union `" ++ t ++ "` declares more than one discriminator"
  | unexpectedDiscriminator t field =>
    "`" ++ t ++ "." ++ field ++ "` is a discriminator outside of a union"
  | invalidDiscriminatorType t field typeText =>
    "discriminator `" ++ t ++ "." ++ field ++ "` has unsupported type `" ++ typeText ++ "`"
  | duplicateCaseValue t value =>
    "duplicate case value " ++ Text.signedDecimal value.toInt ++ " in union `" ++ t ++ "`"
  | multipleDefaultCases t => "union `" ++ t ++ "` declares more than one default case"
  | unlabeledUnionMember t field =>
    "union member `" ++ t ++ "." ++ field ++ "` has neither a case value nor the default case"
  | duplicateFieldId t id =>
    "field id " ++ Text.decimal id.toNat ++ " is used more than once in `" ++ t ++ "`"
  | duplicateEnumValue t value =>
    "enum `" ++ t ++ "` assigns value " ++ Text.signedDecimal value.toInt ++ " more than once"
  | unresolvedType t field name =>
    "`" ++ t ++ "." ++ field ++ "` uses `" ++ name ++ "`, which is not a known type"
  | invalidType t field typeText fault =>
    "`" ++ t ++ "." ++ field ++ "` has invalid type `" ++ typeText ++ "`: " ++ fault.message
  | circularDependency t => "circular dependency detected in `" ++ t ++ "`"
  | document => "invalid schema document"

end SchemaError

end Cdr
