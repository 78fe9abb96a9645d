import Cdr.Value.Default
import Cdr.Wire.Error

/-! # Discriminators and arms

What stands on the wire for a union: its discriminator as a value of the declared type, and the
arm that goes with it.
-/

namespace Cdr

variable {n : Nat}

/-- A discriminator as a value of the type of its member. -/
def discriminatorValue (m : Member n) (d : Int64) : Except WireError Value :=
  match m.type with
  | .primitive p =>
    if p.isIntegral then
      match Scalar.ofDiscriminator? p d with
      | some s => .ok (.scalar s)
      | none => .error .outOfRange
    else .error (.mismatch m.name "integral discriminator" p.idlName)
  | .type _ =>
    if -0x80000000 ≤ d.toInt ∧ d.toInt < 0x80000000 then .ok (.enumeration d.toInt32)
    else .error .outOfRange
  | _ => .error (.mismatch m.name "integral discriminator" "container")

/-- The discriminator that a value read for it stands for. -/
def discriminatorOf? : Value → Option Int64
  | .scalar s => s.discriminator?
  | .enumeration n => some n.toInt64
  | _ => none

/-- The member and the value that stand behind the discriminator, if any do. A selected arm without
    a value stands there with its default. -/
def activeArm (schema : Schema) (u : UnionType schema.size) (d : Int64)
    (arm : Option (String × Value)) : Except WireError (Option (Member schema.size × Value)) :=
  match u.select d, arm with
  | some selected, some (name, v) =>
    if name = selected.member.name then .ok (some (selected.member, v))
    else .error (.otherArm name selected.member.name)
  | some selected, none => .ok (some (selected.member, schema.default selected.member.type))
  | none, some (name, _) => .error (.unselectedArm name d)
  | none, none => .ok none

end Cdr
