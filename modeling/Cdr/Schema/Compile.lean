import Cdr.Graph.PostOrder
import Cdr.Schema.Basic

/-! # Compiling a document

Resolves every name of a document and checks its declarations. The first fault in this order is
reported: two types with one full name, then what is wrong inside the types in the order of their
declaration, then a type that holds itself by value.
-/

namespace Cdr

namespace ManagedType

/-- A value type is its element, or an array of it. -/
def memberType {n : Nat} (m : ManagedType) : MemberType n :=
  if m.count = 1 then .primitive m.element else .array (.primitive m.element) m.count

end ManagedType

namespace Compile

/-- The first full name that an earlier declaration bears already. -/
def duplicateName? : List String → List String → Option String
  | _, [] => none
  | seen, name :: rest => if name ∈ seen then some name else duplicateName? (name :: seen) rest

section

variable {n : Nat} (decls : Fin n → TypeDecl)

/-- The type that a name inside `scope` refers to: the one of that name in the scope, else the one
    with that full name, else the only one with that simple name. -/
def resolve (scope name : String) : Option (Fin n) :=
  let names i := (decls i).toTypeName
  let near := if scope.isEmpty then none else findFull? names (scope ++ "." ++ name)
  (near.or (findFull? names name)).or (findSimple? names name)

def invalidType (owner : TypeDecl) (field : FieldDecl) (fault : TypeFault) : SchemaError :=
  .invalidType owner.full field.name field.typeText fault

/-- Resolves the names in the type of a field. Primitives come before declared types, and declared
    types before value types. -/
def memberType (owner : TypeDecl) (field : FieldDecl) :
    TypeExpr → Except SchemaError (MemberType n)
  | .named name =>
    match Primitive.ofName? name with
    | some p => .ok (.primitive p)
    | none =>
      match resolve decls owner.scope name with
      | some index => .ok (.type index)
      | none =>
        match ManagedType.ofName? name with
        | some m => .ok m.memberType
        | none => .error (.unresolvedType owner.full field.name name)
  | .string bound => .ok (.string bound)
  | .fixedString capacity => .ok (.fixedString capacity)
  | .sequence element bound => do
    let element ← memberType owner field element
    return .sequence element bound
  | .list element => do
    let element ← memberType owner field element
    return .sequence element none
  | .array element length =>
    if length = 0 then .error (invalidType owner field .emptyArray)
    else do
      let element ← memberType owner field element
      return .array element length
  | .optional _ => .error (invalidType owner field .innerOptional)

/-- The member that the field with the given index declares. -/
def member (owner : TypeDecl) (index : Nat) (field : FieldDecl) :
    Except SchemaError (Member n) := do
  let expr ←
    match TypeExpr.parse field.typeText with
    | .ok expr => .ok (expr.annotate field.annotations)
    | .error fault => .error (invalidType owner field (.unreadable fault))
  let (optional, expr) := match expr with
    | .optional inner => (true, inner)
    | expr => (false, expr)
  let type ← memberType decls owner field expr
  let id := field.id.getD (UInt32.ofNat index)
  return { name := field.name, id, type, optional, key := field.annotations.key }

/-- The members of a struct from the given index on, where `ids` are taken. -/
def structMembers (owner : TypeDecl) : Nat → List UInt32 → List FieldDecl →
    Except SchemaError (List (Member n))
  | _, _, [] => .ok []
  | index, ids, field :: fields =>
    if field.annotations.discriminator then
      .error (.unexpectedDiscriminator owner.full field.name)
    else do
      let m ← member decls owner index field
      if m.id ∈ ids then .error (.duplicateFieldId owner.full m.id)
      else
        let rest ← structMembers owner (index + 1) (m.id :: ids) fields
        return m :: rest

/-- Whether a type may be the discriminator of a union. -/
def isDiscriminatorType : MemberType n → Bool
  | .primitive p => p.isIntegral
  | .type index => (decls index).kind == .enumeration
  | _ => false

/-- Adds the labels of an arm to those of the arms before. -/
def addLabels (owner : TypeDecl) : List Int64 → List Int64 → Except SchemaError (List Int64)
  | seen, [] => .ok seen
  | seen, label :: labels =>
    if label ∈ seen then .error (.duplicateCaseValue owner.full label)
    else addLabels owner (label :: seen) labels

/-- The arms of a union from the given index on, where `ids` and `labels` are taken and
    `hasDefault` says whether an arm before is the default. -/
def unionArms (owner : TypeDecl) : Nat → List UInt32 → List Int64 → Bool → List FieldDecl →
    Except SchemaError (List (UnionArm n))
  | _, _, _, _, [] => .ok []
  | index, ids, labels, hasDefault, field :: fields =>
    let a := field.annotations
    if a.discriminator then unionArms owner (index + 1) ids labels hasDefault fields
    else do
      let m ← member decls owner index field
      if m.optional then .error (invalidType owner field .optionalArm)
      else if m.id ∈ ids then .error (.duplicateFieldId owner.full m.id)
      else if a.labels.isEmpty && !a.isDefault then
        .error (.unlabeledUnionMember owner.full field.name)
      else
        let labels ← addLabels owner labels a.labels
        if a.isDefault && hasDefault then .error (.multipleDefaultCases owner.full)
        else
          let rest ← unionArms owner (index + 1) (m.id :: ids) labels (hasDefault || a.isDefault)
            fields
          return ⟨m, a.labels, a.isDefault⟩ :: rest

def unionType (owner : TypeDecl) : Except SchemaError (UnionType n) :=
  match owner.fields.zipIdx.filter fun field => field.1.annotations.discriminator with
  | [] => .error (.missingDiscriminator owner.full)
  | [(field, index)] => do
    let discriminator ← member decls owner index field
    if discriminator.optional || !isDiscriminatorType decls discriminator.type then
      .error (.invalidDiscriminatorType owner.full field.name field.typeText)
    else
      let arms ← unionArms decls owner 0 [discriminator.id] [] false owner.fields
      return { discriminator, arms }
  | _ => .error (.multipleDiscriminators owner.full)

/-- The enumerators with their values, where `next` is the value of one that gives none and the
    values `seen` are taken. Counting on wraps around at the end of the 32-bit range. -/
def enumerators (owner : TypeDecl) : Int32 → List Int32 → List Enumerator →
    Except SchemaError (List (String × Int32))
  | _, _, [] => .ok []
  | next, seen, e :: rest =>
    let value := e.value.getD next
    if value ∈ seen then .error (.duplicateEnumValue owner.full value)
    else do
      let others ← enumerators owner (value + 1) (value :: seen) rest
      return (e.name, value) :: others

def typeBody (owner : TypeDecl) : Except SchemaError (TypeBody n) :=
  match owner.kind with
  | .struct => do
    let members ← structMembers decls owner 0 [] owner.fields
    return .struct { members }
  | .union => do
    let u ← unionType decls owner
    return .union u
  | .enumeration => do
    let es ← enumerators owner 0 [] owner.enumerators
    return .enumeration { enumerators := es }

end

section

variable {n : Nat}

/-- The place a member takes in memory, where `layouts` are those of the types known so far. -/
def typeExtent (layouts : Fin n → Option NativeLayout) : MemberType n → Extent
  | .primitive p => ⟨p.size, p.size⟩
  | .string _ => .pointer
  | .fixedString capacity => ⟨capacity.toNat, 1⟩
  | .sequence _ _ => .sequence
  | .array element length => .array (typeExtent layouts element) length.toNat
  | .type index =>
    match layouts index with
    | some layout => layout.extent
    | none => ⟨0, 1⟩

def memberExtent (layouts : Fin n → Option NativeLayout) (m : Member n) : String × Extent :=
  (m.name, if m.optional then .pointer else typeExtent layouts m.type)

def nativeLayout (layouts : Fin n → Option NativeLayout) : TypeBody n → NativeLayout
  | .struct s => .struct (s.members.map (memberExtent layouts))
  | .union u =>
    .union (memberExtent layouts u.discriminator)
      (u.arms.map fun arm => memberExtent layouts arm.member)
  | .enumeration _ => .enumeration

/-- The types in an order in which each stands behind those it holds by value, or a type that
    holds itself. -/
def dependencyOrder (bodies : Fin n → TypeBody n) : Except (Fin n) (List (Fin n)) :=
  let walk := Graph.walk fun i => (bodies i).embedded
  match walk.loop with
  | some i => .error i
  | none => .ok walk.order

/-- The layouts of all types, found in an order in which each stands behind those it holds. -/
def layoutTable (bodies : Fin n → TypeBody n) (order : List (Fin n)) :
    Vector (Option NativeLayout) n :=
  order.foldl
    (fun table i => table.set i.val (some (nativeLayout (fun j => table[j]) (bodies i))) i.isLt)
    (Vector.replicate n none)

end

end Compile

namespace Document

/-- Resolves and checks a document. -/
def compile (doc : Document) : Except SchemaError Schema :=
  let decls (i : Fin doc.types.length) := doc.types.get i
  match Compile.duplicateName? [] (doc.types.map fun t => t.full) with
  | some name => .error (.duplicateType name)
  | none => do
    let bodies ← Vector.ofFnM fun i => Compile.typeBody decls (decls i)
    match Compile.dependencyOrder fun i => bodies[i] with
    | .error i => .error (.circularDependency (decls i).full)
    | .ok order =>
      let layouts := Compile.layoutTable (fun i => bodies[i]) order
      return {
        size := doc.types.length
        types := Vector.ofFn fun i =>
          { (decls i).toTypeName with
            extensibility := (decls i).extensibility
            body := bodies[i]
            layout := layouts[i].getD .empty } }

end Document

end Cdr
