import Cdr.Wire.Reader
import Mathlib.Data.List.Forall2

/-! # Types that go together

Two schemas may have types that stand for each other on the wire: of one kind, framed alike, with
members that agree in all but the types they name. A framed struct may have members behind those
that both schemas know. What is written under one schema is then read under the other, and a
crossing says as what.
-/

namespace Cdr

variable {n k : Nat}

namespace MemberType

/-- Types that differ at most in the types they name, which go together. -/
inductive Corresponds (Meets : Fin n → Fin k → Prop) : MemberType n → MemberType k → Prop
  | primitive (p : Primitive) : Corresponds Meets (.primitive p) (.primitive p)
  | string (bound : Option UInt32) : Corresponds Meets (.string bound) (.string bound)
  | fixedString (capacity : UInt32) :
    Corresponds Meets (.fixedString capacity) (.fixedString capacity)
  | sequence {element : MemberType n} {other : MemberType k} (bound : Option UInt32)
    (h : Corresponds Meets element other) :
    Corresponds Meets (.sequence element bound) (.sequence other bound)
  | array {element : MemberType n} {other : MemberType k} (length : UInt32)
    (h : Corresponds Meets element other) :
    Corresponds Meets (.array element length) (.array other length)
  | type {i : Fin n} {j : Fin k} (h : Meets i j) : Corresponds Meets (.type i) (.type j)

theorem Corresponds.refl (t : MemberType n) : t.Corresponds Eq t := by
  induction t with
  | primitive p => exact .primitive p
  | string bound => exact .string bound
  | fixedString capacity => exact .fixedString capacity
  | sequence element bound ih => exact .sequence bound ih
  | array element length ih => exact .array length ih
  | type i => exact .type rfl

theorem Corresponds.flip {Meets : Fin n → Fin k → Prop} {t : MemberType n} {t' : MemberType k}
    (h : t.Corresponds Meets t') : t'.Corresponds (fun j i => Meets i j) t := by
  induction h with
  | primitive p => exact .primitive p
  | string bound => exact .string bound
  | fixedString capacity => exact .fixedString capacity
  | sequence bound _ ih => exact .sequence bound ih
  | array length _ ih => exact .array length ih
  | type hmeets => exact .type hmeets

theorem Corresponds.blittable?_eq {Meets : Fin n → Fin k → Prop} {t : MemberType n}
    {t' : MemberType k} (h : t.Corresponds Meets t') : t'.blittable? = t.blittable? := by
  cases h with
  | _ => rfl

theorem Corresponds.minSizeWith_eq {Meets : Fin n → Fin k → Prop} {f : Fin n → Nat}
    {g : Fin k → Nat} (hfg : ∀ i j, Meets i j → g j = f i) {t : MemberType n} {t' : MemberType k}
    (h : t.Corresponds Meets t') : t'.minSizeWith g = t.minSizeWith f := by
  induction h with
  | array length _ ih => simp only [minSizeWith, ih]
  | type hmeets => exact hfg _ _ hmeets
  | _ => rfl

/-- Puts the values of declared types in a value in the place of what `f` makes of them. -/
def mapWith (f : Fin n → Value → Value) : MemberType n → Value → Value
  | .sequence element _, .sequence items => .sequence (items.map (element.mapWith f))
  | .array element _, .sequence items => .sequence (items.map (element.mapWith f))
  | .type i, v => f i v
  | _, v => v

@[simp] theorem mapWith_id (t : MemberType n) (v : Value) : t.mapWith (fun _ v => v) v = v := by
  induction t generalizing v with
  | sequence element bound ih =>
    cases v with
    | sequence items => exact congrArg Value.sequence (List.map_id'' ih items)
    | _ => rfl
  | array element length ih =>
    cases v with
    | sequence items => exact congrArg Value.sequence (List.map_id'' ih items)
    | _ => rfl
  | _ => rfl

@[simp] theorem map_mapWith_id (t : MemberType n) (v? : Option Value) :
    v?.map (t.mapWith fun _ v => v) = v? := by
  cases v? with
  | none => rfl
  | some v => exact congrArg some (t.mapWith_id v)

end MemberType

/-- Members with one name, one id and types that correspond, both optional or both not. -/
structure Member.Corresponds (Meets : Fin n → Fin k → Prop) (m : Member n) (m' : Member k) :
    Prop where
  name : m'.name = m.name
  id : m'.id = m.id
  optional : m'.optional = m.optional
  type : m.type.Corresponds Meets m'.type

theorem Member.Corresponds.flip {Meets : Fin n → Fin k → Prop} {m : Member n} {m' : Member k}
    (h : m.Corresponds Meets m') : m'.Corresponds (fun j i => Meets i j) m where
  name := h.name.symm
  id := h.id.symm
  optional := h.optional.symm
  type := h.type.flip

/-- Arms with one set of labels, both the default or both not. -/
structure UnionArm.Corresponds (Meets : Fin n → Fin k → Prop) (arm : UnionArm n)
    (arm' : UnionArm k) : Prop where
  member : arm.member.Corresponds Meets arm'.member
  labels : arm'.labels = arm.labels
  isDefault : arm'.isDefault = arm.isDefault

structure UnionType.Corresponds (Meets : Fin n → Fin k → Prop) (u : UnionType n)
    (u' : UnionType k) : Prop where
  discriminator : u.discriminator.Corresponds Meets u'.discriminator
  arms : List.Forall₂ (UnionArm.Corresponds Meets) u.arms u'.arms

section

variable {α β : Type} {R : α → β → Prop} {as : List α} {bs : List β}

theorem exists_left_of_mem (h : List.Forall₂ R as bs) {b : β} (hb : b ∈ bs) :
    ∃ a ∈ as, R a b := by
  induction h with
  | nil => cases hb
  | cons hab _ ih =>
    rcases List.mem_cons.1 hb with rfl | hb
    · exact ⟨_, List.mem_cons_self, hab⟩
    · obtain ⟨a, ha, hr⟩ := ih hb
      exact ⟨a, List.mem_cons_of_mem _ ha, hr⟩

theorem exists_right_of_mem (h : List.Forall₂ R as bs) {a : α} (ha : a ∈ as) :
    ∃ b ∈ bs, R a b :=
  exists_left_of_mem (R := flip R) (List.Forall₂.flip h) ha

/-- A search that looks at what corresponding members of two lists share finds corresponding
    ones. -/
theorem find?_forall₂ {p : α → Bool} {q : β → Bool} (hpq : ∀ a b, R a b → q b = p a)
    (h : List.Forall₂ R as bs) : Option.Rel R (as.find? p) (bs.find? q) := by
  induction h with
  | nil => exact .none
  | @cons a b as bs hab _ ih =>
    rw [List.find?_cons, List.find?_cons, hpq a b hab]
    cases p a with
    | true => exact .some hab
    | false => exact ih

theorem rel_or {a c : Option α} {b d : Option β} (h : Option.Rel R a b) (hnext : Option.Rel R c d) :
    Option.Rel R (a.or c) (b.or d) := by
  cases h with
  | none => exact hnext
  | some hab => exact .some hab

end

namespace UnionType

variable {Meets : Fin n → Fin k → Prop} {u : UnionType n} {u' : UnionType k}

theorem Corresponds.flip (h : u.Corresponds Meets u') :
    u'.Corresponds (fun j i => Meets i j) u where
  discriminator := h.discriminator.flip
  arms := List.Forall₂.flip (h.arms.imp fun _ _ harm =>
    ⟨harm.member.flip, harm.labels.symm, harm.isDefault.symm⟩)

theorem Corresponds.select (h : u.Corresponds Meets u') (d : Int64) :
    Option.Rel (UnionArm.Corresponds Meets) (u.select d) (u'.select d) := by
  have hlabel := find?_forall₂ (p := fun arm => arm.labels.contains d)
    (q := fun arm => arm.labels.contains d) (fun _ _ harm => by rw [harm.labels]) h.arms
  have hdefault := find?_forall₂ (p := fun arm => arm.isDefault) (q := fun arm => arm.isDefault)
    (fun _ _ harm => harm.isDefault) h.arms
  exact rel_or hlabel hdefault

end UnionType

namespace StructType

/-- Two structs have the first of their members on the wire in common. At most one of them has more,
    and only where the bodies are framed. -/
structure Overlap (Meets : Fin n → Fin k → Prop) (framed : Bool) (s : StructType n)
    (s' : StructType k) (own beyond : List (Member n)) (common missing : List (Member k)) :
    Prop where
  written : s.wireMembers = own ++ beyond
  known : s'.wireMembers = common ++ missing
  common : List.Forall₂ (Member.Corresponds Meets) own common
  oneSided : beyond = [] ∨ missing = []
  bare : framed = false → beyond = [] ∧ missing = []

/-- What is summed over the members that are always there may be summed in their order on the
    wire. -/
theorem sum_required (s : StructType n) (f : Member n → Nat) :
    ((s.members.filter fun m => !m.optional).map f).foldr (· + ·) 0 =
      ((s.wireMembers.filter fun m => !m.optional).map f).foldr (· + ·) 0 := by
  have hperm := (s.perm_wireMembers.filter fun m => !m.optional).map f
  exact (hperm.foldr_eq' (f := (· + ·)) (fun _ _ _ _ _ => Nat.add_left_comm _ _ _) 0).symm

end StructType

theorem sum_of_corresponds {Meets : Fin n → Fin k → Prop} {f : Fin n → Nat} {g : Fin k → Nat}
    (hfg : ∀ i j, Meets i j → g j = f i) {ms : List (Member n)} {ms' : List (Member k)}
    (h : List.Forall₂ (Member.Corresponds Meets) ms ms') :
    ((ms'.filter fun m => !m.optional).map fun m => m.type.minSizeWith g).foldr (· + ·) 0 =
      ((ms.filter fun m => !m.optional).map fun m => m.type.minSizeWith f).foldr (· + ·) 0 := by
  induction h with
  | nil => rfl
  | @cons m m' ms ms' hm _ ih =>
    have hoptional := hm.optional
    cases h : m.optional with
    | true =>
      rw [h] at hoptional
      rw [List.filter_cons_of_neg (by simp [hoptional]), List.filter_cons_of_neg (by simp [h]), ih]
    | false =>
      rw [h] at hoptional
      rw [List.filter_cons_of_pos (by simp [hoptional]), List.filter_cons_of_pos (by simp [h]),
        List.map_cons, List.map_cons, List.foldr_cons, List.foldr_cons, ih,
        hm.type.minSizeWith_eq hfg]

/-- What the entries of a struct are read as under a schema that knows `common` of its members and
    has those in `missing` besides. -/
structure Schema.Shows (reader : Schema) (view : Fin reader.size → Value → Value)
    (common missing : List (Member reader.size)) (fields out : Entries Value) : Prop where
  sorted : out.Sorted
  names : ∀ name ∈ out.names, name ∈ (common ++ missing).map Member.name
  common : ∀ m ∈ common, out.get? m.name = (fields.get? m.name).map (m.type.mapWith view)
  missing : ∀ m ∈ missing,
    out.get? m.name = if m.optional then none else some (reader.default m.type)

/-- Which types of a schema are read as which of another one, and what their values are read as. -/
structure Crossing (repr : Representation) (writer reader : Schema) where
  Meets : Fin writer.size → Fin reader.size → Prop
  /-- What a value is read as that may be so many types deep. -/
  view : Nat → Fin reader.size → Value → Value
  delimited : ∀ {i j}, Meets i j →
    repr.isDelimited (reader.get j).extensibility = repr.isDelimited (writer.get i).extensibility
  struct : ∀ {i j s}, Meets i j → (writer.get i).body = .struct s →
    ∃ s' own beyond common missing, (reader.get j).body = .struct s' ∧
      s.Overlap Meets (repr.isDelimited (writer.get i).extensibility) s' own beyond common missing ∧
      ∀ levels (fields : Entries Value), fields.Sorted →
        (∀ name ∈ fields.names, name ∈ s.members.map Member.name) →
        (∀ m ∈ s.members, m.optional = false → (fields.get? m.name).isSome) →
        ∃ out : Entries Value, view (levels + 1) j (.struct fields) = .struct out ∧
          reader.Shows (view levels) common missing fields out
  union : ∀ {i j u}, Meets i j → (writer.get i).body = .union u →
    ∃ u', (reader.get j).body = .union u' ∧ u.Corresponds Meets u' ∧
      (∀ levels d, view (levels + 1) j (.union d none) = .union d none) ∧
      ∀ levels d name v arm, u'.select d = some arm →
        view (levels + 1) j (.union d (some (name, v))) =
          .union d (some (name, arm.member.type.mapWith (view levels) v))
  enumeration : ∀ {i j e}, Meets i j → (writer.get i).body = .enumeration e →
    (∃ e', (reader.get j).body = .enumeration e') ∧
      ∀ levels number, view (levels + 1) j (.enumeration number) = .enumeration number

namespace Crossing

variable {repr : Representation} {writer reader : Schema}

/-- A schema is crossed to itself with no change. -/
def same (repr : Representation) (schema : Schema) : Crossing repr schema schema where
  Meets := Eq
  view := fun _ _ v => v
  delimited := by
    rintro i _ rfl
    rfl
  struct := by
    rintro i _ s rfl hbody
    refine ⟨s, s.wireMembers, [], s.wireMembers, [], hbody, ?_, ?_⟩
    · refine ⟨(List.append_nil _).symm, (List.append_nil _).symm, ?_, .inl rfl, fun _ => ⟨rfl, rfl⟩⟩
      exact List.forall₂_same.2 fun m _ => ⟨rfl, rfl, rfl, .refl m.type⟩
    · intro levels fields hsorted hnames hrequired
      refine ⟨fields, rfl, hsorted, ?_, ?_, nofun⟩
      · intro name hname
        rw [List.append_nil]
        exact (s.perm_wireMembers.map Member.name).mem_iff.2 (hnames name hname)
      · exact fun m _ => (m.type.map_mapWith_id _).symm
  union := by
    rintro i _ u rfl hbody
    refine ⟨u, hbody, ⟨⟨rfl, rfl, rfl, .refl _⟩, ?_⟩, fun _ _ => rfl, ?_⟩
    · exact List.forall₂_same.2 fun arm _ => ⟨⟨rfl, rfl, rfl, .refl _⟩, rfl, rfl⟩
    · intro levels d name v arm hselect
      rw [MemberType.mapWith_id]
  enumeration := by
    rintro i _ e rfl hbody
    exact ⟨⟨e, hbody⟩, fun _ _ => rfl⟩

/-- Types that go together need as many bytes. -/
theorem minSizeWithin_eq (x : Crossing repr writer reader) (deep : Nat) (i : Fin writer.size)
    (j : Fin reader.size) (h : x.Meets i j) :
    reader.minSizeWithin repr deep j = writer.minSizeWithin repr deep i := by
  induction deep generalizing i j with
  | zero => rfl
  | succ deep ih =>
    simp only [Schema.minSizeWithin, x.delimited h]
    cases hframed : repr.isDelimited (writer.get i).extensibility with
    | true => rfl
    | false =>
      cases hbody : (writer.get i).body with
      | struct s =>
        obtain ⟨s', own, beyond, common, missing, hbody', hoverlap, -⟩ := x.struct h hbody
        obtain ⟨rfl, rfl⟩ := hoverlap.bare hframed
        simp only [hbody', Bool.false_eq_true, if_false]
        rw [s.sum_required, s'.sum_required, hoverlap.written, hoverlap.known, List.append_nil,
          List.append_nil]
        exact sum_of_corresponds ih hoverlap.common
      | union u =>
        obtain ⟨u', hbody', hu, -⟩ := x.union h hbody
        simp only [hbody']
        rw [hu.discriminator.type.minSizeWith_eq ih]
      | enumeration e =>
        obtain ⟨⟨e', hbody'⟩, -⟩ := x.enumeration h hbody
        simp only [hbody']

end Crossing

end Cdr
