import Cdr.Proofs.OptionalMembers

/-! # Room behind counts

A writer counts elements, a reader the bytes that are left for them: it refuses a count of elements
that may take no bytes when there are fewer bytes behind it than elements, wherever those bytes
belong. So whether a value can be read back may depend on what is written behind it, in the innermost
region of known length around it.
-/

namespace Cdr

open Image Demand

section

variable (schema : Schema) (e : Encoding) (ofType : String → Fin schema.size → Value → Image)
  (ask : String → Fin schema.size → Value → Demand)

/-- That there is room behind the counts of a value of a member: as many bytes up to the end of the
    region as elements that may take none. -/
def valueRoom (field : String) : MemberType schema.size → Value → Demand
  | .sequence element _, .sequence items =>
    behind (e.countImage items.length) fun x stop =>
      (schema.minSize e.repr element = 0 → x + items.length ≤ stop) ∧
      each (valueImage schema e ofType field element) (valueRoom field element) items x stop
  | .array element _, .sequence items =>
    each (valueImage schema e ofType field element) (valueRoom field element) items
  | .type i, v => ask field i v
  | _, _ => nothing

def memberRoom (fields : Entries Value) (m : Member schema.size) : Demand :=
  match fields.get? m.name with
  | some v => valueRoom schema e ofType ask m.name m.type v
  | none => nothing

def armRoom : Option (UnionArm schema.size) → Option (String × Value) → Demand
  | some selected, some (_, v) =>
    valueRoom schema e ofType ask selected.member.name selected.member.type v
  | _, _ => nothing

def unionRoom (u : UnionType schema.size) (d : Int64) (arm : Option (String × Value)) : Demand :=
  match discriminatorValue u.discriminator d with
  | .ok disc =>
    behind (valueImage schema e ofType u.discriminator.name u.discriminator.type disc)
      (armRoom schema e ofType ask (u.select d) arm)
  | .error _ => nothing

end

/-- That there is room behind the counts of a value of a declared type. -/
def typeRoom (schema : Schema) (e : Encoding) : Nat → String → Fin schema.size → Value → Demand
  | 0, _, _, _ => nothing
  | levels + 1, _, i, v =>
    let t := schema.get i
    let ofType := typeImage schema e levels
    let ask := typeRoom schema e levels
    match t.body, v with
    | .struct s, .struct fields =>
      delimited e t.extensibility
        (Image.each (memberImage schema e ofType t.full fields) s.wireMembers)
        (each (memberImage schema e ofType t.full fields) (memberRoom schema e ofType ask fields)
          s.wireMembers)
    | .union u, .union d arm =>
      delimited e t.extensibility (unionImage schema e ofType u d arm)
        (unionRoom schema e ofType ask u d arm)
    | _, _ => nothing

/-- Whether there is room behind all counts in the bytes of a value. -/
def Schema.Roomy (schema : Schema) (e : Encoding) (i : Fin schema.size) (v : Value)
    (offset : Nat) : Prop :=
  ∀ b, schema.image e i v offset = .ok b →
    typeRoom schema e maxDepth "" i v offset (offset + b.length)

/-! ## Deciding -/

section

variable (schema : Schema) (e : Encoding) (ofType : String → Fin schema.size → Value → Image)
  (ask : String → Fin schema.size → Value → Demand)
  [hask : ∀ field i v x stop, Decidable (ask field i v x stop)]

instance decidableValueRoom (field : String) : (t : MemberType schema.size) → (v : Value) →
    (x stop : Nat) → Decidable (valueRoom schema e ofType ask field t v x stop)
  | .sequence element _, .sequence items, x, stop =>
    have := decidableValueRoom field element
    inferInstanceAs (Decidable (behind (e.countImage items.length) (fun x stop =>
      (schema.minSize e.repr element = 0 → x + items.length ≤ stop) ∧
      each (valueImage schema e ofType field element)
        (valueRoom schema e ofType ask field element) items x stop) x stop))
  | .array element _, .sequence items, x, stop =>
    have := decidableValueRoom field element
    inferInstanceAs (Decidable (each (valueImage schema e ofType field element)
      (valueRoom schema e ofType ask field element) items x stop))
  | .type i, v, x, stop => hask field i v x stop
  | .primitive _, _, _, _ | .string _, _, _, _ | .fixedString _, _, _, _ =>
    inferInstanceAs (Decidable True)
  | .sequence _ _, .scalar _, _, _ | .sequence _ _, .enumeration _, _, _
  | .sequence _ _, .string _, _, _ | .sequence _ _, .struct _, _, _
  | .sequence _ _, .union _ _, _, _ => inferInstanceAs (Decidable True)
  | .array _ _, .scalar _, _, _ | .array _ _, .enumeration _, _, _
  | .array _ _, .string _, _, _ | .array _ _, .struct _, _, _
  | .array _ _, .union _ _, _, _ => inferInstanceAs (Decidable True)

instance decidableMemberRoom (fields : Entries Value) (m : Member schema.size) (x stop : Nat) :
    Decidable (memberRoom schema e ofType ask fields m x stop) :=
  match h : fields.get? m.name with
  | some v => decidable_of_iff (valueRoom schema e ofType ask m.name m.type v x stop)
      (by simp only [memberRoom, h])
  | none => .isTrue (by simp only [memberRoom, h, nothing])

instance decidableArmRoom (selected : Option (UnionArm schema.size))
    (arm : Option (String × Value)) (x stop : Nat) :
    Decidable (armRoom schema e ofType ask selected arm x stop) :=
  match selected, arm with
  | some selected, some (_, v) => inferInstanceAs (Decidable
      (valueRoom schema e ofType ask selected.member.name selected.member.type v x stop))
  | some _, none | none, some _ | none, none => inferInstanceAs (Decidable True)

instance decidableUnionRoom (u : UnionType schema.size) (d : Int64)
    (arm : Option (String × Value)) (x stop : Nat) :
    Decidable (unionRoom schema e ofType ask u d arm x stop) :=
  match h : discriminatorValue u.discriminator d with
  | .ok disc => decidable_of_iff (behind
      (valueImage schema e ofType u.discriminator.name u.discriminator.type disc)
      (armRoom schema e ofType ask (u.select d) arm) x stop) (by simp only [unionRoom, h])
  | .error _ => .isTrue (by simp only [unionRoom, h, nothing])

end

instance decidableTypeRoom (schema : Schema) (e : Encoding) :
    (levels : Nat) → (field : String) → (i : Fin schema.size) → (v : Value) → (x stop : Nat) →
      Decidable (typeRoom schema e levels field i v x stop)
  | 0, _, _, _, _, _ => inferInstanceAs (Decidable True)
  | levels + 1, field, i, v, x, stop =>
    have := decidableTypeRoom schema e levels
    match h : (schema.get i).body, v with
    | .struct s, .struct fields =>
      decidable_of_iff (delimited e (schema.get i).extensibility
        (Image.each (memberImage schema e (typeImage schema e levels) (schema.get i).full fields)
          s.wireMembers)
        (each (memberImage schema e (typeImage schema e levels) (schema.get i).full fields)
          (memberRoom schema e (typeImage schema e levels) (typeRoom schema e levels) fields)
          s.wireMembers) x stop) (by simp only [typeRoom, h])
    | .union u, .union d arm =>
      decidable_of_iff (delimited e (schema.get i).extensibility
        (unionImage schema e (typeImage schema e levels) u d arm)
        (unionRoom schema e (typeImage schema e levels) (typeRoom schema e levels) u d arm) x stop)
        (by simp only [typeRoom, h])
    | .struct _, .scalar _ | .struct _, .string _ | .struct _, .enumeration _
    | .struct _, .sequence _ | .struct _, .union _ _
    | .union _, .scalar _ | .union _, .string _ | .union _, .enumeration _
    | .union _, .sequence _ | .union _, .struct _ | .enumeration _, _ =>
      .isTrue (by simp only [typeRoom, h, nothing])

instance decidableRoomy (schema : Schema) (e : Encoding) (i : Fin schema.size) (v : Value)
    (offset : Nat) : Decidable (schema.Roomy e i v offset) :=
  inferInstanceAs (Decidable (∀ b, schema.image e i v offset = .ok b →
    typeRoom schema e maxDepth "" i v offset (offset + b.length)))

/-! ## Proper values -/

def TypeBody.NoOptionals {n : Nat} : TypeBody n → Prop
  | struct s => ∀ m ∈ s.members, m.optional = false
  | _ => True

instance {n : Nat} (body : TypeBody n) : Decidable body.NoOptionals :=
  match body with
  | .struct s => inferInstanceAs (Decidable (∀ m ∈ s.members, m.optional = false))
  | .union _ => .isTrue trivial
  | .enumeration _ => .isTrue trivial

namespace Schema

/-- No member of a struct may stay away. -/
def NoOptionals (schema : Schema) : Prop :=
  ∀ i, (schema.get i).body.NoOptionals

instance (schema : Schema) : Decidable schema.NoOptionals :=
  inferInstanceAs (Decidable (∀ i, (schema.get i).body.NoOptionals))

theorem NoOptionals.of_struct {schema : Schema} (h : schema.NoOptionals) {i : Fin schema.size}
    {s : StructType schema.size} (hbody : (schema.get i).body = .struct s) :
    ∀ m ∈ s.members, m.optional = false := by
  have hi := h i
  rw [hbody] at hi
  exact hi

end Schema

/-- The values of a type whose structs have entries for their members only, whose unions have an arm
    exactly when one is selected, and whose texts of fixed length hold no NUL. -/
inductive Proper (schema : Schema) : MemberType schema.size → Value → Prop where
  | primitive {p : Primitive} {v : Value} : Proper schema (.primitive p) v
  | string {bound : Option UInt32} {v : Value} : Proper schema (.string bound) v
  | fixedString {capacity : UInt32} {text : String} (noNul : '\x00' ∉ text.toList) :
    Proper schema (.fixedString capacity) (.string text)
  | sequence {element : MemberType schema.size} {bound : Option UInt32} {items : List Value}
    (each : ∀ v ∈ items, Proper schema element v) :
    Proper schema (.sequence element bound) (.sequence items)
  | array {element : MemberType schema.size} {length : UInt32} {items : List Value}
    (each : ∀ v ∈ items, Proper schema element v) :
    Proper schema (.array element length) (.sequence items)
  | struct {i : Fin schema.size} {s : StructType schema.size} {fields : Entries Value}
    (body : (schema.get i).body = .struct s) (sorted : fields.Sorted)
    (known : ∀ name ∈ fields.names, name ∈ s.members.map Member.name)
    (each : ∀ m ∈ s.members, ∀ v, fields.get? m.name = some v → Proper schema m.type v) :
    Proper schema (.type i) (.struct fields)
  | arm {i : Fin schema.size} {u : UnionType schema.size} {d : Int64}
    {selected : UnionArm schema.size} {name : String} {v : Value}
    (body : (schema.get i).body = .union u) (select : u.select d = some selected)
    (proper : Proper schema selected.member.type v) :
    Proper schema (.type i) (.union d (some (name, v)))
  | noArm {i : Fin schema.size} {u : UnionType schema.size} {d : Int64}
    (body : (schema.get i).body = .union u) (select : u.select d = none) :
    Proper schema (.type i) (.union d none)
  | enumeration {i : Fin schema.size} {v : Value} {enum : EnumType}
    (body : (schema.get i).body = .enumeration enum) : Proper schema (.type i) v

namespace Proper

variable {schema : Schema} {i : Fin schema.size}

theorem of_struct {s : StructType schema.size} {fields : Entries Value}
    (hbody : (schema.get i).body = .struct s) (h : Proper schema (.type i) (.struct fields)) :
    fields.Sorted ∧ (∀ name ∈ fields.names, name ∈ s.members.map Member.name) ∧
      ∀ m ∈ s.members, ∀ v, fields.get? m.name = some v → Proper schema m.type v := by
  cases h with
  | struct body sorted known each =>
    rw [hbody] at body
    cases body
    exact ⟨sorted, known, each⟩
  | enumeration body =>
    rw [hbody] at body
    cases body

theorem of_union {u : UnionType schema.size} {d : Int64} {arm : Option (String × Value)}
    (hbody : (schema.get i).body = .union u) (h : Proper schema (.type i) (.union d arm)) :
    arm.isSome = (u.select d).isSome ∧ ∀ selected name v, u.select d = some selected →
      arm = some (name, v) → Proper schema selected.member.type v := by
  cases h with
  | arm body select proper =>
    rw [hbody] at body
    cases body
    rw [select]
    refine ⟨rfl, ?_⟩
    rintro _ _ _ ⟨⟩ ⟨⟩
    exact proper
  | noArm body select =>
    rw [hbody] at body
    cases body
    rw [select]
    exact ⟨rfl, nofun⟩
  | enumeration body =>
    rw [hbody] at body
    cases body

end Proper

/-! ## Values without bytes

A proper value without bytes leaves no doubt of itself: it holds no sequence, which would have a
count, and no members that are absent.
-/

theorem each_nothing {α : Type} (f : α → Image) (items : List α) (x stop : Nat) :
    Demand.each f (fun _ => nothing) items x stop := by
  induction items generalizing x with
  | nil => trivial
  | cons a as ih => exact ⟨trivial, fun b _ => ih (x + b.length)⟩

section

variable {schema : Schema} {e : Encoding} {ofType : String → Fin schema.size → Value → Image}

/-- A member that cannot stay away is written as its value. -/
theorem memberImage_of_required {typeName : String} {fields : Entries Value}
    {m : Member schema.size} {x : Nat} {b : List UInt8} (hrequired : m.optional = false)
    (h : memberImage schema e ofType typeName fields m x = .ok b) :
    ∃ v, fields.get? m.name = some v ∧ valueImage schema e ofType m.name m.type v x = .ok b := by
  rcases memberImage_eq_ok h with ⟨-, hoptional, -⟩ | ⟨v, hget, -, hvalue⟩ |
    ⟨v, inner, -, hoptional, -, -, -⟩
  · rw [hrequired] at hoptional
    cases hoptional
  · exact ⟨v, hget, hvalue⟩
  · rw [hrequired] at hoptional
    cases hoptional

variable {ask : String → Fin schema.size → Value → Demand} {x stop : Nat}
  (htype : ∀ field i v, Proper schema (.type i) v → ofType field i v x = .ok [] →
    ask field i v x stop)

include htype

theorem plain_value_of_no_bytes {field : String} {t : MemberType schema.size} {v : Value}
    (hproper : Proper schema t v) (h : valueImage schema e ofType field t v x = .ok []) :
    valueDemand schema e ofType ask field t v x stop := by
  induction t generalizing v with
  | primitive p => trivial
  | string bound => trivial
  | fixedString capacity =>
    cases hproper with
    | fixedString noNul => exact noNul
  | sequence element bound _ =>
    have hle := minSizeWith_le_length (fun _ _ _ _ _ _ => Nat.zero_le _) h
    exact absurd hle (by decide : ¬4 ≤ 0)
  | array element length ih =>
    cases hproper with
    | array each =>
      rename_i items
      obtain ⟨-, h⟩ := checked_eq_ok h
      cases hrun : element.blittable? with
      | some p =>
        obtain ⟨rfl, -⟩ := MemberType.eq_of_blittable? hrun
        exact each_of_primitive
      | none =>
        rw [hrun] at h
        have hnothing := each_nothing (valueImage schema e ofType field element) items x stop
        have hitems := each_of_no_bytes h hnothing
        exact each_intro_of_no_bytes fun item hitem =>
          ⟨(hitems item hitem).1, ih (each item hitem) (hitems item hitem).1⟩
  | type i => exact htype field i v hproper h

theorem plain_members_of_no_bytes {absence : Member schema.size → List (Member schema.size) → Demand}
    {typeName : String} {fields : Entries Value} {ms : List (Member schema.size)}
    (halways : ∀ m ∈ ms, m.optional = false)
    (hproper : ∀ m ∈ ms, ∀ v, fields.get? m.name = some v → Proper schema m.type v)
    (h : Image.each (memberImage schema e ofType typeName fields) ms x = .ok []) :
    membersDemandBy schema e ofType ask absence typeName fields ms x stop := by
  induction ms with
  | nil => trivial
  | cons m rest ih =>
    obtain ⟨first, others, hfirst, hothers, hnil⟩ := andThen_eq_ok h
    obtain ⟨rfl, rfl⟩ := List.append_eq_nil_iff.1 hnil.symm
    obtain ⟨hm, hrest⟩ := List.forall_mem_cons.1 halways
    obtain ⟨hv, hvs⟩ := List.forall_mem_cons.1 hproper
    refine ⟨?_, fun b hb => ?_⟩
    · obtain ⟨v, hget, hvalue⟩ := memberImage_of_required hm hfirst
      simp only [hget, hm, Bool.false_eq_true, if_false]
      exact plain_value_of_no_bytes htype (hv v hget) hvalue
    · rw [hfirst] at hb
      cases hb
      exact ih hrest hvs hothers

end

theorem plain_type_of_no_bytes {schema : Schema} (hplain : schema.NoOptionals) (e : Encoding)
    (absence : Absence schema.size) (levels : Nat) (field : String) (i : Fin schema.size)
    (v : Value) {x stop : Nat} (hproper : Proper schema (.type i) v)
    (h : typeImage schema e levels field i v x = .ok []) :
    typeDemandBy schema e absence levels field i v x stop := by
  induction levels generalizing field i v with
  | zero => trivial
  | succ levels ih =>
    rcases typeImage_eq_ok h with ⟨s, fields, hbody, rfl, himage⟩ |
      ⟨u, d, arm, hbody, rfl, himage⟩ | ⟨enum, n, hbody, rfl, himage⟩
    · obtain ⟨hunframed, hmembers⟩ := Encoding.delimitedImage_eq_nil himage
      simp only [typeDemandBy, hbody, Demand.delimited, hunframed, Bool.false_eq_true, if_false]
      obtain ⟨hsorted, hknown, heach⟩ := hproper.of_struct hbody
      have hwire : ∀ m ∈ s.wireMembers, m ∈ s.members := fun m => s.perm_wireMembers.mem_iff.1
      refine ⟨hsorted, hknown, ?_⟩
      exact plain_members_of_no_bytes ih (fun m hm => hplain.of_struct hbody m (hwire m hm))
        (fun m hm => heach m (hwire m hm)) hmembers
    · exact absurd (Encoding.delimitedImage_eq_nil himage).2 unionImage_ne_nil
    · have hpos := Encoding.length_scalarImage_pos himage
      exact absurd hpos (Nat.lt_irrefl 0)

end Cdr
