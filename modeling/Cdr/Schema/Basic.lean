import Cdr.Layout.Native
import Cdr.Primitive
import Cdr.Schema.Error

/-! # Compiled schemas

The types of a schema with every name resolved. A type is referred to by its index, which lies in
range by its type, so looking one up cannot fail.
-/

namespace Cdr

/-- The type of a member in a schema of `n` types. -/
inductive MemberType (n : Nat) where
  | primitive (p : Primitive)
  | string (bound : Option UInt32)
  | fixedString (capacity : UInt32)
  /-- A sequence or a list of at most `bound` elements. -/
  | sequence (element : MemberType n) (bound : Option UInt32)
  | array (element : MemberType n) (length : UInt32)
  | type (index : Fin n)
  deriving DecidableEq, Repr

structure Member (n : Nat) where
  name : String
  id : UInt32
  type : MemberType n
  optional : Bool
  key : Bool
  deriving DecidableEq, Repr

structure StructType (n : Nat) where
  /-- The members in the order of their declaration. -/
  members : List (Member n)
  deriving DecidableEq, Repr

structure UnionArm (n : Nat) where
  member : Member n
  labels : List Int64
  isDefault : Bool
  deriving DecidableEq, Repr

structure UnionType (n : Nat) where
  discriminator : Member n
  arms : List (UnionArm n)
  deriving DecidableEq, Repr

structure EnumType where
  enumerators : List (String × Int32)
  deriving DecidableEq, Repr

/-- What a type is made of. -/
inductive TypeBody (n : Nat) where
  | struct (s : StructType n)
  | union (u : UnionType n)
  | enumeration (e : EnumType)
  deriving DecidableEq, Repr

structure CompiledType (n : Nat) extends TypeName where
  extensibility : Extensibility
  body : TypeBody n
  layout : NativeLayout
  deriving DecidableEq, Repr

variable {n : Nat}

namespace MemberType

/-- The primitive whose run of bytes is a sequence of such elements. -/
def blittable? : MemberType n → Option Primitive
  | primitive p => if p.isBlittable then some p else none
  | _ => none

/-- The types that a value of the type holds by value: through arrays, but through no sequence. -/
def embedded : MemberType n → List (Fin n)
  | array element _ => element.embedded
  | type index => [index]
  | _ => []

/-- The types that the type names anywhere. -/
def mentioned : MemberType n → List (Fin n)
  | sequence element _ => element.mentioned
  | array element _ => element.mentioned
  | type index => [index]
  | _ => []

end MemberType

namespace StructType

/-- Puts a member behind those whose id is not greater. -/
def insertById (m : Member n) : List (Member n) → List (Member n)
  | [] => [m]
  | other :: rest => if m.id < other.id then m :: other :: rest else other :: insertById m rest

/-- The members in the order in which they stand on the wire, by ascending id. -/
def wireMembers (s : StructType n) : List (Member n) :=
  s.members.foldl (fun sorted m => insertById m sorted) []

theorem perm_insertById (m : Member n) (ms : List (Member n)) :
    (insertById m ms).Perm (m :: ms) := by
  induction ms with
  | nil => exact List.Perm.refl _
  | cons other rest ih =>
    simp only [insertById]
    split
    · exact List.Perm.refl _
    · exact (ih.cons other).trans (List.Perm.swap m other rest)

theorem sorted_insertById {ms : List (Member n)} (m : Member n)
    (h : ms.Pairwise fun a b => a.id ≤ b.id) :
    (insertById m ms).Pairwise fun a b => a.id ≤ b.id := by
  induction ms with
  | nil => simp [insertById]
  | cons other rest ih =>
    obtain ⟨hother, hrest⟩ := List.pairwise_cons.1 h
    simp only [insertById]
    split
    next hlt =>
      refine List.pairwise_cons.2 ⟨?_, h⟩
      intro a ha
      have hle : m.id ≤ other.id := UInt32.le_of_lt hlt
      rcases List.mem_cons.1 ha with rfl | ha
      · exact hle
      · exact UInt32.le_trans hle (hother a ha)
    next hlt =>
      refine List.pairwise_cons.2 ⟨?_, ih hrest⟩
      intro a ha
      rcases List.mem_cons.1 ((perm_insertById m rest).mem_iff.1 ha) with rfl | ha
      · exact UInt32.not_lt.1 hlt
      · exact hother a ha

/-- The members on the wire are the declared ones. -/
theorem perm_wireMembers (s : StructType n) : s.wireMembers.Perm s.members := by
  have hstep : ∀ (ms sorted : List (Member n)),
      (ms.foldl (fun sorted m => insertById m sorted) sorted).Perm (ms ++ sorted) := by
    intro ms
    induction ms with
    | nil => intro sorted; exact List.Perm.refl _
    | cons m rest ih =>
      intro sorted
      refine (ih _).trans ?_
      exact ((perm_insertById m sorted).append_left rest).trans List.perm_middle
  simpa [wireMembers] using hstep s.members []

/-- Ids ascend on the wire. -/
theorem sorted_wireMembers (s : StructType n) :
    s.wireMembers.Pairwise fun a b => a.id ≤ b.id := by
  have hstep : ∀ (ms sorted : List (Member n)), sorted.Pairwise (fun a b => a.id ≤ b.id) →
      (ms.foldl (fun sorted m => insertById m sorted) sorted).Pairwise fun a b => a.id ≤ b.id := by
    intro ms
    induction ms with
    | nil => intro sorted h; exact h
    | cons m rest ih => intro sorted h; exact ih _ (sorted_insertById m h)
  exact hstep s.members [] List.Pairwise.nil

end StructType

namespace UnionType

/-- The arm that a discriminator selects: the one that bears it as a label, else the default
    one. A discriminator that selects none is no error. -/
def select (u : UnionType n) (discriminator : Int64) : Option (UnionArm n) :=
  (u.arms.find? fun arm => arm.labels.contains discriminator).or
    (u.arms.find? fun arm => arm.isDefault)

end UnionType

namespace EnumType

/-- The name of the first enumerator with a value. -/
def nameOf? (e : EnumType) (value : Int32) : Option String :=
  (e.enumerators.find? fun enumerator => enumerator.2 == value).map Prod.fst

/-- The value of the first enumerator, or 0 when there is none. -/
def default (e : EnumType) : Int32 :=
  match e.enumerators with
  | [] => 0
  | first :: _ => first.2

end EnumType

namespace TypeBody

/-- The types that a value holds by value. Optional members stand behind a reference. -/
def embedded : TypeBody n → List (Fin n)
  | struct s => (s.members.filter fun m => !m.optional).flatMap fun m => m.type.embedded
  | union u => u.discriminator.type.embedded ++ u.arms.flatMap fun arm => arm.member.type.embedded
  | enumeration _ => []

/-- The types that the members name anywhere. -/
def mentioned : TypeBody n → List (Fin n)
  | struct s => s.members.flatMap fun m => m.type.mentioned
  | union u =>
    u.discriminator.type.mentioned ++ u.arms.flatMap fun arm => arm.member.type.mentioned
  | enumeration _ => []

end TypeBody

/-- Looks a type up among `names` by its full name. -/
def findFull? (names : Fin n → TypeName) (name : String) : Option (Fin n) :=
  (List.finRange n).find? fun i => (names i).full == name

/-- Looks a type up by its name without the namespace; several types with one name hide each
    other. -/
def findSimple? (names : Fin n → TypeName) (name : String) : Option (Fin n) :=
  match (List.finRange n).filter fun i => (names i).name == name with
  | [i] => some i
  | _ => none

/-- The types that all passes over values run against. -/
structure Schema where
  size : Nat
  types : Vector (CompiledType size) size
  deriving DecidableEq, Repr

namespace Schema

def get (schema : Schema) (i : Fin schema.size) : CompiledType schema.size :=
  schema.types[i]

/-- The index of a type by its full name, or by its simple name when only one type bears it. -/
def find (schema : Schema) (name : String) : Except SchemaError (Fin schema.size) :=
  let names i := (schema.get i).toTypeName
  match (findFull? names name).or (findSimple? names name) with
  | some i => .ok i
  | none => .error (.unknownType name)

end Schema

end Cdr
