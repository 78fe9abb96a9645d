import Cdr.Schema.Basic

/-! # Events

What is worth a line in a log although it is no error.
-/

namespace Cdr

inductive Event where
  /-- A schema of `count` types was compiled. -/
  | compiled (count : Nat)
  /-- The discriminator of a union selects no arm. -/
  | noArm (discriminator : Int64) (typeName : String)
  /-- The body of a type holds more than is known of it. -/
  | skipped (bytes : Nat) (typeName : String)
  /-- An optional member does not stand at the offset where it would. -/
  | absent (name : String) (offset : Nat)
  deriving DecidableEq, Repr

namespace Event

/-- The line in a log, behind its level. -/
def render : Event → String
  | compiled count => "debug [schema] compiled " ++ Text.decimal count ++ " types"
  | noArm discriminator typeName =>
    "debug [de] discriminator " ++ Text.signedDecimal discriminator.toInt ++ " of `" ++ typeName ++
      "` selects no arm"
  | skipped bytes typeName =>
    "trace [de] skipping " ++ Text.decimal bytes ++ " unknown bytes at the end of `" ++ typeName ++
      "`"
  | absent name offset =>
    "trace [de] optional `" ++ name ++ "` is absent at offset " ++ Text.decimal offset

end Event

namespace Schema

/-- What is reported when a schema was compiled. -/
def compiledEvent (schema : Schema) : Event :=
  .compiled schema.size

end Schema

end Cdr
