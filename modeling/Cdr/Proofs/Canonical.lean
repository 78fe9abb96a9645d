import Cdr.Proofs.Image
import Cdr.Wire.Reader

/-! # Canonical values

A reader does not tell everything apart that a writer writes alike: a text from one that goes on
behind a NUL, an absent optional member from bytes that look like its header. A value is canonical
when the bytes that it is written as leave no such doubt. What that asks of a part of the value
depends on where the part stands, and on where the innermost region of known length around it ends.
-/

namespace Cdr

open Image

/-- What is asked of something that stands at a position, inside of a region that ends at another.
    Both are counted from the alignment origin. -/
abbrev Demand := Nat → Nat → Prop

namespace Demand

def nothing : Demand := fun _ _ => True

/-- Asked behind the bytes of an image. -/
def behind (image : Image) (demand : Demand) : Demand := fun x stop =>
  ∀ b, image x = .ok b → demand (x + b.length) stop

/-- Asked of all members of a list, of each where it stands. -/
def each {α : Type} (f : α → Image) (demand : α → Demand) : List α → Demand
  | [] => nothing
  | a :: as => fun x stop => demand a x stop ∧ behind (f a) (each f demand as) x stop

/-- Asked inside of a region of its own, whose length stands in front of it. -/
def enclosed (body : Image) (demand : Demand) : Demand := fun x _ =>
  let start := x + padding x 4 + 4
  ∀ b, body start = .ok b → demand start (start + b.length)

def delimited (e : Encoding) (extensibility : Extensibility) (body : Image) (demand : Demand) :
    Demand :=
  if e.repr.isDelimited extensibility then enclosed body demand else demand

end Demand

open Demand

section

variable (schema : Schema) (e : Encoding) (ofType : String → Fin schema.size → Value → Image)
  (ask : String → Fin schema.size → Value → Demand)

/-- What is asked of the value of a member, where `ask` tells it for those of declared types. A text
    of fixed length ends at its first NUL. A sequence whose elements may take no bytes has no more
    elements than bytes. -/
def valueDemand (field : String) : MemberType schema.size → Value → Demand
  | .fixedString _, .string text => fun _ _ => '\x00' ∉ text.toList
  | .sequence element _, .sequence items =>
    let ofItem := valueImage schema e ofType field element
    behind (e.countImage items.length) fun x stop =>
      (schema.minSize e.repr element = 0 →
        ∀ b, e.elementsImage ofItem field element.blittable? items x = .ok b →
          items.length ≤ b.length) ∧
      each ofItem (valueDemand field element) items x stop
  | .array element _, .sequence items =>
    each (valueImage schema e ofType field element) (valueDemand field element) items
  | .type i, v => ask field i v
  | _, _ => nothing

/-- Whether what is written next, of the members that are left, is the header of an optional member
    that is told apart from `m` by its id. -/
def Announces (typeName : String) (fields : Entries Value) (m : Member schema.size) (x : Nat) :
    List (Member schema.size) → Prop
  | [] => False
  | other :: rest =>
    if other.optional ∧ (fields.get? other.name).isSome then
      other.id.toNat % 8 ≠ m.id.toNat % 8
    else
      memberImage schema e ofType typeName fields other x = .ok [] ∧
        Announces typeName fields m x rest

/-- What is asked of the members of a struct. Where one is absent, the region ends or the header of
    another follows. -/
def membersDemand (typeName : String) (fields : Entries Value) :
    List (Member schema.size) → Demand
  | [] => nothing
  | m :: rest => fun x stop =>
    (match fields.get? m.name with
      | some v =>
        let image := valueImage schema e ofType m.name m.type v
        let demand := valueDemand schema e ofType ask m.name m.type v
        if m.optional then enclosed image demand x stop else demand x stop
      | none => x = stop ∨ Announces schema e ofType typeName fields m x rest) ∧
    behind (memberImage schema e ofType typeName fields m) (membersDemand typeName fields rest) x
      stop

/-- What is asked of the arm of a union, whose value goes with the arm that is selected. -/
def armDemand : Option (UnionArm schema.size) → Option (String × Value) → Demand
  | some selected, some (_, v) =>
    valueDemand schema e ofType ask selected.member.name selected.member.type v
  | _, _ => nothing

/-- What is asked of a union. It has an arm exactly when its discriminator selects one. -/
def unionDemand (u : UnionType schema.size) (d : Int64) (arm : Option (String × Value)) :
    Demand := fun x stop =>
  arm.isSome = (u.select d).isSome ∧
    match discriminatorValue u.discriminator d with
    | .ok disc =>
      behind (valueImage schema e ofType u.discriminator.name u.discriminator.type disc)
        (armDemand schema e ofType ask (u.select d) arm) x stop
    | .error _ => True

end

/-- What is asked of a value of a declared type. A struct has entries for its members only, each
    name once and in their order. -/
def typeDemand (schema : Schema) (e : Encoding) :
    Nat → String → Fin schema.size → Value → Demand
  | 0, _, _, _ => nothing
  | levels + 1, _, i, v =>
    let t := schema.get i
    let ofType := typeImage schema e levels
    let ask := typeDemand schema e levels
    match t.body, v with
    | .struct s, .struct fields => fun x stop =>
      Entries.Sorted fields ∧ (∀ name ∈ Entries.names fields, name ∈ s.members.map Member.name) ∧
        delimited e t.extensibility
          (Image.each (memberImage schema e ofType t.full fields) s.wireMembers)
          (membersDemand schema e ofType ask t.full fields s.wireMembers) x stop
    | .union u, .union d arm =>
      delimited e t.extensibility (unionImage schema e ofType u d arm)
        (unionDemand schema e ofType ask u d arm)
    | _, _ => nothing

/-- Whether the bytes of a value that is written `offset` bytes behind the alignment origin leave
    no doubt of it. -/
def Schema.Canonical (schema : Schema) (e : Encoding) (i : Fin schema.size) (v : Value)
    (offset : Nat) : Prop :=
  ∀ b, schema.image e i v offset = .ok b →
    typeDemand schema e maxDepth "" i v offset (offset + b.length)

/-! ## Other ways to tell that a member is absent -/

/-- What is asked where an optional member of a struct is absent, in front of the members behind it,
    by the types that may be read there, the name of the struct and its entries. -/
abbrev Absence (n : Nat) :=
  Nat → String → Entries Value → Member n → List (Member n) → Demand

/-- That the region ends, or that the header of another member follows. -/
def announced (schema : Schema) (e : Encoding) : Absence schema.size :=
  fun levels typeName fields m rest x stop =>
    x = stop ∨ Announces schema e (typeImage schema e levels) typeName fields m x rest

/-- What is asked of the members of a struct when that which `absence` asks is enough where one is
    absent. -/
def membersDemandBy (schema : Schema) (e : Encoding)
    (ofType : String → Fin schema.size → Value → Image)
    (ask : String → Fin schema.size → Value → Demand)
    (absence : Member schema.size → List (Member schema.size) → Demand) (typeName : String)
    (fields : Entries Value) : List (Member schema.size) → Demand
  | [] => nothing
  | m :: rest => fun x stop =>
    (match fields.get? m.name with
      | some v =>
        let image := valueImage schema e ofType m.name m.type v
        let demand := valueDemand schema e ofType ask m.name m.type v
        if m.optional then enclosed image demand x stop else demand x stop
      | none => absence m rest x stop) ∧
    behind (memberImage schema e ofType typeName fields m)
      (membersDemandBy schema e ofType ask absence typeName fields rest) x stop

/-- What is asked of a value of a declared type when that which `absence` asks is enough where a
    member is absent. -/
def typeDemandBy (schema : Schema) (e : Encoding) (absence : Absence schema.size) :
    Nat → String → Fin schema.size → Value → Demand
  | 0, _, _, _ => nothing
  | levels + 1, _, i, v =>
    let t := schema.get i
    let ofType := typeImage schema e levels
    let ask := typeDemandBy schema e absence levels
    match t.body, v with
    | .struct s, .struct fields => fun x stop =>
      Entries.Sorted fields ∧ (∀ name ∈ Entries.names fields, name ∈ s.members.map Member.name) ∧
        delimited e t.extensibility
          (Image.each (memberImage schema e ofType t.full fields) s.wireMembers)
          (membersDemandBy schema e ofType ask (absence levels t.full fields) t.full fields
            s.wireMembers) x stop
    | .union u, .union d arm =>
      delimited e t.extensibility (unionImage schema e ofType u d arm)
        (unionDemand schema e ofType ask u d arm)
    | _, _ => nothing

theorem membersDemand_eq (schema : Schema) (e : Encoding) (levels : Nat)
    (ask : String → Fin schema.size → Value → Demand) (typeName : String) (fields : Entries Value)
    (ms : List (Member schema.size)) :
    membersDemand schema e (typeImage schema e levels) ask typeName fields ms =
      membersDemandBy schema e (typeImage schema e levels) ask
        (announced schema e levels typeName fields) typeName fields ms := by
  induction ms with
  | nil => rfl
  | cons m rest ih =>
    simp only [membersDemand, membersDemandBy, ih]
    rfl

/-- A value is canonical when absent members are announced. -/
theorem typeDemand_eq (schema : Schema) (e : Encoding) (levels : Nat) :
    typeDemand schema e levels = typeDemandBy schema e (announced schema e) levels := by
  induction levels with
  | zero => rfl
  | succ levels ih =>
    funext field i v
    simp only [typeDemand, typeDemandBy, ih, membersDemand_eq]

/-! ## Deciding what is asked -/

instance decidableEqExcept {ε α : Type} [DecidableEq ε] [DecidableEq α] :
    DecidableEq (Except ε α)
  | .ok a, .ok b => decidable_of_iff (a = b) ⟨congrArg _, Except.ok.inj⟩
  | .error a, .error b => decidable_of_iff (a = b) ⟨congrArg _, Except.error.inj⟩
  | .ok _, .error _ | .error _, .ok _ => .isFalse nofun

instance decidableForallOk {ε α : Type} (r : Except ε α) (p : α → Prop) [DecidablePred p] :
    Decidable (∀ a, r = .ok a → p a) :=
  match r with
  | .ok a => decidable_of_iff (p a) ⟨fun h _ heq => Except.ok.inj heq ▸ h, fun h => h a rfl⟩
  | .error _ => .isTrue nofun

instance decidableEqError {ε α : Type} [DecidableEq ε] (r : Except ε α) (fault : ε) :
    Decidable (r = .error fault) :=
  match r with
  | .error other => decidable_of_iff (other = fault) ⟨congrArg _, Except.error.inj⟩
  | .ok _ => .isFalse nofun

namespace Demand

instance decidableNothing (x stop : Nat) : Decidable (nothing x stop) :=
  inferInstanceAs (Decidable True)

instance decidableBehind (f : Image) (d : Demand) [∀ x stop, Decidable (d x stop)]
    (x stop : Nat) : Decidable (behind f d x stop) :=
  inferInstanceAs (Decidable (∀ b, f x = .ok b → d (x + b.length) stop))

instance decidableEach {α : Type} (f : α → Image) (d : α → Demand)
    [h : ∀ a x stop, Decidable (d a x stop)] :
    (items : List α) → (x stop : Nat) → Decidable (each f d items x stop)
  | [], x, stop => decidableNothing x stop
  | a :: as, x, stop =>
    have := decidableEach f d as
    inferInstanceAs (Decidable (d a x stop ∧ behind (f a) (each f d as) x stop))

instance decidableEnclosed (f : Image) (d : Demand) [∀ x stop, Decidable (d x stop)]
    (x stop : Nat) : Decidable (enclosed f d x stop) :=
  inferInstanceAs (Decidable (∀ b, f (x + padding x 4 + 4) = .ok b →
    d (x + padding x 4 + 4) (x + padding x 4 + 4 + b.length)))

instance decidableDelimited (e : Encoding) (extensibility : Extensibility) (f : Image) (d : Demand)
    [∀ x stop, Decidable (d x stop)] (x stop : Nat) :
    Decidable (delimited e extensibility f d x stop) :=
  if h : e.repr.isDelimited extensibility then
    decidable_of_iff (enclosed f d x stop) (by rw [delimited, if_pos h])
  else decidable_of_iff (d x stop) (by rw [delimited, if_neg h])

end Demand

section

variable (schema : Schema) (e : Encoding) (ofType : String → Fin schema.size → Value → Image)
  (ask : String → Fin schema.size → Value → Demand)
  [hask : ∀ field i v x stop, Decidable (ask field i v x stop)]

instance decidableValueDemand (field : String) : (t : MemberType schema.size) → (v : Value) →
    (x stop : Nat) → Decidable (valueDemand schema e ofType ask field t v x stop)
  | .fixedString _, .string text, _, _ => inferInstanceAs (Decidable ('\x00' ∉ text.toList))
  | .sequence element _, .sequence items, x, stop =>
    have := decidableValueDemand field element
    inferInstanceAs (Decidable (behind (e.countImage items.length) (fun x stop =>
      (schema.minSize e.repr element = 0 →
        ∀ b, e.elementsImage (valueImage schema e ofType field element) field element.blittable?
          items x = .ok b → items.length ≤ b.length) ∧
      each (valueImage schema e ofType field element)
        (valueDemand schema e ofType ask field element) items x stop) x stop))
  | .array element _, .sequence items, x, stop =>
    have := decidableValueDemand field element
    inferInstanceAs (Decidable (each (valueImage schema e ofType field element)
      (valueDemand schema e ofType ask field element) items x stop))
  | .type i, v, x, stop => hask field i v x stop
  | .primitive _, _, _, _ | .string _, _, _, _ => inferInstanceAs (Decidable True)
  | .fixedString _, .scalar _, _, _ | .fixedString _, .enumeration _, _, _
  | .fixedString _, .sequence _, _, _ | .fixedString _, .struct _, _, _
  | .fixedString _, .union _ _, _, _ => inferInstanceAs (Decidable True)
  | .sequence _ _, .scalar _, _, _ | .sequence _ _, .enumeration _, _, _
  | .sequence _ _, .string _, _, _ | .sequence _ _, .struct _, _, _
  | .sequence _ _, .union _ _, _, _ => inferInstanceAs (Decidable True)
  | .array _ _, .scalar _, _, _ | .array _ _, .enumeration _, _, _
  | .array _ _, .string _, _, _ | .array _ _, .struct _, _, _
  | .array _ _, .union _ _, _, _ => inferInstanceAs (Decidable True)

instance decidableAnnounces (typeName : String) (fields : Entries Value) (m : Member schema.size)
    (x : Nat) : (ms : List (Member schema.size)) →
      Decidable (Announces schema e ofType typeName fields m x ms)
  | [] => inferInstanceAs (Decidable False)
  | other :: rest =>
    have := decidableAnnounces typeName fields m x rest
    inferInstanceAs (Decidable (if other.optional ∧ (fields.get? other.name).isSome then
        other.id.toNat % 8 ≠ m.id.toNat % 8
      else
        memberImage schema e ofType typeName fields other x = .ok [] ∧
          Announces schema e ofType typeName fields m x rest))

instance decidableMembersDemandBy (absence : Member schema.size → List (Member schema.size) → Demand)
    [habsence : ∀ m rest x stop, Decidable (absence m rest x stop)] (typeName : String)
    (fields : Entries Value) : (ms : List (Member schema.size)) → (x stop : Nat) →
      Decidable (membersDemandBy schema e ofType ask absence typeName fields ms x stop)
  | [], _, _ => inferInstanceAs (Decidable True)
  | m :: rest, x, stop =>
    have := decidableMembersDemandBy absence typeName fields rest
    have : Decidable (match fields.get? m.name with
        | some v =>
          if m.optional then
            enclosed (valueImage schema e ofType m.name m.type v)
              (valueDemand schema e ofType ask m.name m.type v) x stop
          else valueDemand schema e ofType ask m.name m.type v x stop
        | none => absence m rest x stop) :=
      match fields.get? m.name with
      | some v => inferInstanceAs (Decidable (if m.optional then
          enclosed (valueImage schema e ofType m.name m.type v)
            (valueDemand schema e ofType ask m.name m.type v) x stop
        else valueDemand schema e ofType ask m.name m.type v x stop))
      | none => habsence m rest x stop
    inferInstanceAs (Decidable (_ ∧
      behind (memberImage schema e ofType typeName fields m)
        (membersDemandBy schema e ofType ask absence typeName fields rest) x stop))

instance decidableArmDemand (selected : Option (UnionArm schema.size))
    (arm : Option (String × Value)) (x stop : Nat) :
    Decidable (armDemand schema e ofType ask selected arm x stop) :=
  match selected, arm with
  | some selected, some (_, v) => inferInstanceAs (Decidable
      (valueDemand schema e ofType ask selected.member.name selected.member.type v x stop))
  | some _, none | none, some _ | none, none => inferInstanceAs (Decidable True)

instance decidableUnionDemand (u : UnionType schema.size) (d : Int64)
    (arm : Option (String × Value)) (x stop : Nat) :
    Decidable (unionDemand schema e ofType ask u d arm x stop) :=
  have : Decidable (match discriminatorValue u.discriminator d with
      | .ok disc =>
        behind (valueImage schema e ofType u.discriminator.name u.discriminator.type disc)
          (armDemand schema e ofType ask (u.select d) arm) x stop
      | .error _ => True) :=
    match discriminatorValue u.discriminator d with
    | .ok disc => inferInstanceAs (Decidable (behind
        (valueImage schema e ofType u.discriminator.name u.discriminator.type disc)
        (armDemand schema e ofType ask (u.select d) arm) x stop))
    | .error _ => inferInstanceAs (Decidable True)
  inferInstanceAs (Decidable (arm.isSome = (u.select d).isSome ∧ _))

end

instance decidableSorted {α : Type} (entries : Entries α) : Decidable entries.Sorted :=
  inferInstanceAs (Decidable (List.Pairwise (fun a b => a.1 < b.1) entries))

instance decidableTypeDemandBy (schema : Schema) (e : Encoding) (absence : Absence schema.size)
    [habsence : ∀ levels typeName fields m rest x stop,
      Decidable (absence levels typeName fields m rest x stop)] :
    (levels : Nat) → (field : String) → (i : Fin schema.size) → (v : Value) → (x stop : Nat) →
      Decidable (typeDemandBy schema e absence levels field i v x stop)
  | 0, _, _, _, _, _ => inferInstanceAs (Decidable True)
  | levels + 1, field, i, v, x, stop =>
    have := decidableTypeDemandBy schema e absence levels
    match h : (schema.get i).body, v with
    | .struct s, .struct fields =>
      decidable_of_iff (Entries.Sorted fields ∧
        (∀ name ∈ Entries.names fields, name ∈ s.members.map Member.name) ∧
        delimited e (schema.get i).extensibility
          (Image.each (memberImage schema e (typeImage schema e levels) (schema.get i).full fields)
            s.wireMembers)
          (membersDemandBy schema e (typeImage schema e levels)
            (typeDemandBy schema e absence levels) (absence levels (schema.get i).full fields)
            (schema.get i).full fields s.wireMembers) x stop) (by simp only [typeDemandBy, h])
    | .union u, .union d arm =>
      decidable_of_iff (delimited e (schema.get i).extensibility
        (unionImage schema e (typeImage schema e levels) u d arm)
        (unionDemand schema e (typeImage schema e levels) (typeDemandBy schema e absence levels) u d
          arm) x stop) (by simp only [typeDemandBy, h])
    | .struct _, .scalar _ | .struct _, .string _ | .struct _, .enumeration _
    | .struct _, .sequence _ | .struct _, .union _ _
    | .union _, .scalar _ | .union _, .string _ | .union _, .enumeration _
    | .union _, .sequence _ | .union _, .struct _ | .enumeration _, _ =>
      .isTrue (by simp only [typeDemandBy, h, nothing])

instance decidableAnnounced (schema : Schema) (e : Encoding) (levels : Nat) (typeName : String)
    (fields : Entries Value) (m : Member schema.size) (rest : List (Member schema.size))
    (x stop : Nat) : Decidable (announced schema e levels typeName fields m rest x stop) :=
  inferInstanceAs (Decidable (x = stop ∨
    Announces schema e (typeImage schema e levels) typeName fields m x rest))

instance decidableTypeDemand (schema : Schema) (e : Encoding) (levels : Nat) (field : String)
    (i : Fin schema.size) (v : Value) (x stop : Nat) :
    Decidable (typeDemand schema e levels field i v x stop) :=
  decidable_of_iff (typeDemandBy schema e (announced schema e) levels field i v x stop)
    (by rw [typeDemand_eq])

instance decidableCanonical (schema : Schema) (e : Encoding) (i : Fin schema.size) (v : Value)
    (offset : Nat) : Decidable (schema.Canonical e i v offset) :=
  inferInstanceAs (Decidable (∀ b, schema.image e i v offset = .ok b →
    typeDemand schema e maxDepth "" i v offset (offset + b.length)))

end Cdr
