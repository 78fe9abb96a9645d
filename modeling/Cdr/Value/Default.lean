import Cdr.Schema.Basic
import Cdr.Value.Basic

/-! # Default values

The value a member takes when nothing gives it one. A type holds no type by value that holds it in
turn, so the recursion is never deeper than there are types.
-/

namespace Cdr

variable {n : Nat}

namespace MemberType

/-- The default of a member, given that of every type. -/
def defaultWith (ofType : Fin n → Value) : MemberType n → Value
  | primitive p => .scalar (.zero p)
  | string _ => .string ""
  | fixedString _ => .string ""
  | sequence _ _ => .sequence []
  | array element length =>
    .sequence (List.replicate length.toNat (element.defaultWith ofType))
  | type index => ofType index

end MemberType

namespace Schema

/-- The default of a type that holds others at most `levels` deep. Optional members stay away, and
    a union has the discriminator 0 and no arm. -/
def defaultWithin (schema : Schema) : Nat → Fin schema.size → Value
  | 0, _ => .struct []
  | levels + 1, i =>
    match (schema.get i).body with
    | .struct s =>
      .struct (Entries.ofList ((s.members.filter fun m => !m.optional).map fun m =>
        (m.name, m.type.defaultWith (schema.defaultWithin levels))))
    | .union _ => .union 0 none
    | .enumeration e => .enumeration e.default

/-- The value that a member of a type takes when it is missing. -/
def default (schema : Schema) (type : MemberType schema.size) : Value :=
  type.defaultWith (schema.defaultWithin schema.size)

end Schema

end Cdr
