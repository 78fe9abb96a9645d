import Cdr.Proofs.Cycles
import Cdr.Proofs.Discriminators
import Cdr.Proofs.Obstacles
import Cdr.Proofs.PassDepth
import Cdr.Proofs.StoredLayouts

/-! # Defaults can be written

A default is made by recursion over the types of a schema, and what is written for it by recursion
over the value, with a further default for the arm of each union. The two meet: no check of the
passes refuses a default, unless types hold each other by value more levels deep than a pass goes.
A body that is longer than its length can tell is all that a writer finds in the way.
-/

namespace Cdr

open Image SizeRules

namespace Schema

variable (schema : Schema)

/-- That values of the type `i` hold values of the type `j` by value: as members, as elements of
    arrays, as discriminators or as arms. -/
def HoldsByValue (i j : Fin schema.size) : Prop :=
  j ∈ (schema.get i).body.embedded

variable {schema}

/-- Types hold each other within a number of levels where no chain of them is longer. -/
theorem chainsWithin_iff {levels : Nat} {i : Fin schema.size} :
    schema.ChainsWithin levels i ↔
      ∀ chain, (i :: chain).IsChain schema.HoldsByValue → (i :: chain).length ≤ levels := by
  induction levels generalizing i with
  | zero => exact iff_of_false id fun h => absurd (h [] (.singleton i)) (Nat.not_succ_le_zero 0)
  | succ levels ih =>
    constructor
    · intro h chain hchain
      cases chain with
      | nil => exact Nat.succ_le_succ (Nat.zero_le levels)
      | cons j rest =>
        obtain ⟨hj, hrest⟩ := List.isChain_cons_cons.1 hchain
        exact Nat.succ_le_succ (ih.1 (h j hj) rest hrest)
    · intro h j hj
      refine ih.2 fun rest hrest => ?_
      exact Nat.le_of_succ_le_succ (h (j :: rest) (List.isChain_cons_cons.2 ⟨hj, hrest⟩))

end Schema

/-- What may be in the way of a default: a fault that sizing finds as well, or the length of a
    body. -/
def Obstacle.OfDefault : Obstacle → Prop
  | refused _ => True
  | longBody _ => True
  | _ => False

/-- An obstacle of a default that sizing does not mind is a body that is too long. -/
theorem Obstacle.OfDefault.longBody {obstacle : Obstacle} (h : obstacle.OfDefault)
    (honly : obstacle.OnlyWritten) :
    ∃ length, 0x100000000 ≤ length ∧ obstacle = .longBody length := by
  cases obstacle with
  | refused fault => exact honly.elim
  | longBody length => exact ⟨length, honly, rfl⟩
  | _ => exact h.elim

/-- Where names are distinct, a default has for a member the default of its type. -/
theorem get?_default {n : Nat} {s : StructType n} (hdistinct : (s.members.map Member.name).Nodup)
    {f : MemberType n → Value} {m : Member n} (hm : m ∈ s.members) {v : Value}
    (hget : (Entries.ofList ((s.members.filter fun m => !m.optional).map fun m =>
      (m.name, f m.type))).get? m.name = some v) : m.optional = false ∧ v = f m.type := by
  obtain ⟨other, hother, hrequired, heq⟩ := StructType.mem_needed (Entries.mem_of_get? hget)
  obtain ⟨hname, rfl⟩ := Prod.mk.inj heq
  obtain rfl : m = other := List.inj_on_of_nodup_map hdistinct hm hother hname
  exact ⟨hrequired, rfl⟩

section

variable {schema : Schema} {e : Encoding}

theorem meetsOnly_ascii {s : Scalar} (h : s.wideChar? = none) (field : String) (p : Primitive) :
    MeetsOnly (e.scalarImage field p (.scalar s)) Obstacle.OfDefault := by
  refine e.meetsOnly_scalarImage ?_ fun _ => trivial
  rintro t c ht hwide
  cases ht
  rw [h] at hwide
  cases hwide

theorem meetsOnly_defaultWith {ofType : String → Fin schema.size → Value → Image}
    {f : Fin schema.size → Value} {t : MemberType schema.size}
    (h : ∀ field, ∀ j ∈ t.embedded, MeetsOnly (ofType field j (f j)) Obstacle.OfDefault)
    (field : String) :
    MeetsOnly (valueImage schema e ofType field t (t.defaultWith f)) Obstacle.OfDefault := by
  induction t with
  | primitive p => exact meetsOnly_ascii (Scalar.wideChar?_zero p) field p
  | string bound =>
    refine meetsOnly_checked (meetsOnly_andThen ?_ (meetsOnly_bytes _)) fun _ _ => trivial
    exact e.meetsOnly_countImage fun hlong => absurd hlong (by decide)
  | fixedString capacity => exact meetsOnly_checked (meetsOnly_bytes _) fun _ _ => trivial
  | sequence element bound =>
    refine meetsOnly_checked (meetsOnly_andThen ?_ ?_) fun _ _ => trivial
    · exact e.meetsOnly_countImage fun hlong => absurd hlong (by decide)
    · exact e.meetsOnly_elementsImage nofun fun _ _ => trivial
  | array element length ih =>
    refine meetsOnly_checked (e.meetsOnly_elementsImage ?_ fun _ _ => trivial) fun _ _ => trivial
    intro v hv
    obtain ⟨-, rfl⟩ := List.mem_replicate.1 hv
    exact ih h
  | type j => exact h field j List.mem_cons_self

theorem meetsOnly_discriminator {m : Member schema.size} {d : Int64} {disc : Value}
    (htypes : schema.IsDiscriminator m.type) (hdisc : discriminatorValue m d = .ok disc)
    (levels : Nat) (field : String) :
    MeetsOnly (valueImage schema e (typeImage schema e levels) field m.type disc)
      Obstacle.OfDefault := by
  rcases discriminator_form (d := d) htypes with ⟨-, other, s, hform⟩ | ⟨-, hrange⟩
  · obtain rfl : other = disc := Except.ok.inj (hform.value.symm.trans hdisc)
    rcases hform.cases with ⟨htype, rfl⟩ | ⟨j, k, htype, rfl, -⟩
    · rw [htype]
      exact meetsOnly_ascii hform.ascii field _
    · rw [htype] at htypes ⊢
      obtain ⟨enum, hbody⟩ := htypes
      cases levels with
      | zero => exact meetsOnly_fail trivial
      | succ levels =>
        simp only [valueImage, typeImage, hbody]
        exact meetsOnly_ascii rfl field .int32
  · rw [hdisc] at hrange
    cases hrange

/-- An arm that a union does not have stands there with its default. -/
theorem meetsOnly_unarmed {u : UnionType schema.size} {d : Int64}
    {levels : Nat} (htypes : schema.IsDiscriminator u.discriminator.type)
    (harms : ∀ arm ∈ u.arms, MeetsOnly (valueImage schema e (typeImage schema e levels)
      arm.member.name arm.member.type (schema.default arm.member.type)) Obstacle.OfDefault) :
    MeetsOnly (unionImage schema e (typeImage schema e levels) u d none) Obstacle.OfDefault := by
  unfold unionImage
  cases hdisc : discriminatorValue u.discriminator d with
  | error fault => exact meetsOnly_fail trivial
  | ok disc =>
    refine meetsOnly_andThen (meetsOnly_discriminator htypes hdisc levels _) ?_
    cases hselect : u.select d with
    | none =>
      simp only [activeArm, hselect]
      exact meetsOnly_bytes []
    | some selected =>
      simp only [activeArm, hselect]
      exact harms selected (u.mem_of_select hselect)

end

/-- A default is made of defaults of the types that it holds by value, so the induction is on the
    longest chain of these. -/
theorem meetsOnly_default {schema : Schema} (hschema : schema.WellFormed)
    (hnames : schema.DistinctNames) (e : Encoding) {levels : Nat} {i : Fin schema.size}
    (hchains : schema.ChainsWithin levels i) (deep : Nat) (field : String) :
    MeetsOnly (typeImage schema e deep field i (schema.defaultWithin levels i))
      Obstacle.OfDefault := by
  induction levels generalizing i deep field with
  | zero => exact hchains.elim
  | succ levels ih =>
    cases deep with
    | zero => exact meetsOnly_fail trivial
    | succ deep =>
      have hparts : ∀ {t : MemberType schema.size}, (∀ j ∈ t.embedded, schema.HoldsByValue i j) →
          ∀ name, MeetsOnly (valueImage schema e (typeImage schema e deep) name t
            (t.defaultWith (schema.defaultWithin levels))) Obstacle.OfDefault := by
        intro t ht name
        exact meetsOnly_defaultWith (fun field j hj => ih (hchains j (ht j hj)) deep field) name
      cases hbody : (schema.get i).body with
      | struct s =>
        simp only [typeImage, Schema.defaultWithin, hbody]
        refine e.meetsOnly_delimitedImage (fun _ _ => trivial) (meetsOnly_each fun m hm => ?_)
        have hm := s.perm_wireMembers.mem_iff.1 hm
        unfold memberImage
        split
        next v hget =>
          obtain ⟨hoptional, rfl⟩ := get?_default (hnames.nodup hbody) hm hget
          rw [hoptional]
          refine hparts (fun j hj => ?_) m.name
          rw [Schema.HoldsByValue, hbody]
          exact TypeBody.embedded_of_member hm hoptional hj
        next =>
          split
          · exact meetsOnly_bytes []
          · exact meetsOnly_fail trivial
      | union u =>
        simp only [typeImage, Schema.defaultWithin, hbody]
        refine e.meetsOnly_delimitedImage (fun _ _ => trivial) ?_
        refine meetsOnly_unarmed (hschema.discriminators i u hbody) fun arm harm => ?_
        have hheld : ∀ j ∈ arm.member.type.embedded, schema.HoldsByValue i j := by
          intro j hj
          rw [Schema.HoldsByValue, hbody]
          exact TypeBody.embedded_of_arm harm hj
        rw [schema.default_eq (MemberType.groundedWith_of_embedded fun j hj =>
          Schema.groundedWithin_of_chains (hchains j (hheld j hj)))]
        exact hparts hheld arm.member.name
      | enumeration enum =>
        simp only [typeImage, Schema.defaultWithin, hbody]
        exact meetsOnly_ascii rfl field .int32

namespace Schema

/-- The size of a default is found, wherever the value begins. -/
theorem sizeOf_default {schema : Schema} (hschema : schema.WellFormed)
    (hnames : schema.DistinctNames) {i : Fin schema.size} (hchains : schema.ChainsWithin maxDepth i)
    (repr : Representation) (offset : Nat) :
    ∃ n, schema.sizeOf (unlimited repr) i (schema.default (.type i)) offset = .ok n := by
  have hnests : schema.NestsWithin maxDepth i (schema.default (.type i)) :=
    nestsWith_default (t := .type i) hschema fun j hj => List.mem_singleton.1 hj ▸ hchains
  cases hsize : schema.sizeOf (unlimited repr) i (schema.default (.type i)) offset with
  | ok n => exact ⟨n, rfl⟩
  | error fault =>
    have hfails := failsOnly_addType hschema hnames repr maxDepth "" i _
      (conforms_default hschema hnames (.type i)) _ _ (run_of_sizeOf hsize)
    rcases hfails with ⟨deep, rfl⟩ | ⟨name, text, bound, hwithin, hlong, -⟩
    · exact absurd hsize (sizeOf_of_nestsWithin hnames hnests _ offset deep)
    · rw [text_of_within_default hnames hwithin] at hlong
      exact absurd hlong (Nat.not_lt_zero _)

/-- The default of a type can be encoded, where no chain of types that hold each other by value is
    longer than a pass is deep. Its size is found, in either representation and behind any offset.
    It is written as so many bytes, unless one of its bodies is longer than 32 bits can tell, which
    is refused as a number that is out of range. -/
theorem default_encodable {doc : Document} {schema : Schema} (hcompile : doc.compile = .ok schema)
    (hnames : schema.DistinctNames) {i : Fin schema.size}
    (hchains : ∀ chain, (i :: chain).IsChain schema.HoldsByValue →
      (i :: chain).length ≤ maxDepth) (offset : Nat) :
    ∃ size : Representation → Nat,
      (∀ repr, schema.sizeOf (unlimited repr) i (schema.default (.type i)) offset =
        .ok (size repr)) ∧
      ∀ (e : Encoding) (bytes : Array UInt8),
        (schema.encode e (.appendingTo bytes) i (schema.default (.type i)) offset).1 =
            .ok (size e.repr) ∨
          ∃ length, 0x100000000 ≤ length ∧
            schema.image e i (schema.default (.type i)) offset = .error (.longBody length) ∧
            (schema.encode e (.appendingTo bytes) i (schema.default (.type i)) offset).1 =
              .error .outOfRange := by
  have hschema := wellFormed_of_compile hcompile
  choose size hsize using fun repr =>
    sizeOf_default hschema hnames (chainsWithin_iff.2 hchains) repr offset
  refine ⟨size, hsize, ?_⟩
  intro e bytes
  obtain ⟨-, hagrees, -⟩ :=
    schema.sizeOf_agrees_with_encode e i (schema.default (.type i)) bytes offset
  rcases hagrees _ (hsize e.repr) with hok | ⟨obstacle, honly, himage, herror⟩
  · exact .inl hok
  · have hmeets := meetsOnly_default hschema hnames e (chainsWithin_of_compile hcompile i) maxDepth
      "" offset obstacle himage
    obtain ⟨length, hlong, rfl⟩ := hmeets.longBody honly
    exact .inr ⟨length, hlong, himage, herror⟩

/-- The default of a drawing holds those of two shapes, which have no arm and are written with the
    points that the discriminator 0 selects. -/
theorem default_encodable_drawing :
    ∃ (schema : Schema) (drawing : Fin schema.size),
      Document.drawingDoc.compile = .ok schema ∧ schema.DistinctNames ∧
      (∃ shape point, schema.HoldsByValue drawing shape ∧ schema.HoldsByValue shape point ∧
        (schema.get point).name = "Point") ∧
      (∀ chain, (drawing :: chain).IsChain schema.HoldsByValue →
        (drawing :: chain).length ≤ maxDepth) ∧
      (∃ size, schema.sizeOf (unlimited .xcdr1) drawing (schema.default (.type drawing)) 2 =
        .ok size) ∧
      schema.encode ⟨.xcdr2, .big⟩ (.appendingTo #[]) drawing (schema.default (.type drawing)) 2 =
        (.ok 42, .appendingTo (Array.replicate 42 0)) := by
  have hfacts : Document.drawingDoc.compile.toOption.map (fun schema => decide
      (schema.DistinctNames ∧ schema.size ≤ maxDepth ∧ ∃ drawing : Fin schema.size,
        (∃ shape ∈ (schema.get drawing).body.embedded, ∃ point ∈ (schema.get shape).body.embedded,
          (schema.get point).name = "Point") ∧
        schema.encode ⟨.xcdr2, .big⟩ (.appendingTo #[]) drawing (schema.default (.type drawing)) 2 =
          (.ok 42, .appendingTo (Array.replicate 42 0)))) = some true := by decide +kernel
  cases hcompile : Document.drawingDoc.compile with
  | error fault => simp [hcompile, Except.toOption] at hfacts
  | ok schema =>
    simp only [hcompile, Except.toOption, Option.map_some, Option.some.injEq,
      decide_eq_true_eq] at hfacts
    obtain ⟨hnames, hsize, drawing, ⟨shape, hshape, point, hpoint, hname⟩, hencode⟩ := hfacts
    have hchains : ∀ chain, (drawing :: chain).IsChain schema.HoldsByValue →
        (drawing :: chain).length ≤ maxDepth := fun chain hchain =>
      (chainsWithin_iff.1 (chainsWithin_of_compile hcompile drawing) chain hchain).trans hsize
    obtain ⟨size, hsizes, -⟩ := default_encodable hcompile hnames hchains 2
    exact ⟨schema, drawing, rfl, hnames, ⟨shape, point, hshape, hpoint, hname⟩, hchains,
      ⟨_, hsizes .xcdr1⟩, hencode⟩

end Schema

end Cdr
