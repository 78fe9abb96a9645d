import Cdr.Proofs.Conforming
import Cdr.Proofs.CountCheck
import Cdr.Proofs.SizeImage

/-! # Discriminators on the wire

A discriminator is a signed number of 64 bits in a value and an integer of the declared type on the
wire. The way there narrows it, the way back widens it, and in between it is bytes of either order.
Both passes refuse exactly the numbers that the declared type does not have, and all others come
back from their bytes, so that reader and writer go on with the same arm.
-/

namespace Cdr

open Image ReadM SizeRules WriteM

/-- Whether a discriminator of the type can be the number `d`. An unsigned one of 64 bits stands
    for the signed number with its bits. -/
def Primitive.Carries (p : Primitive) (d : Int64) : Prop :=
  match p with
  | bool => 0 ≤ d.toInt ∧ d.toInt ≤ 1
  | char => 0 ≤ d.toInt ∧ d.toInt ≤ 127
  | octet | uint16 | uint32 => 0 ≤ d.toInt ∧ d.toInt < 2 ^ (8 * p.size)
  | int8 | int16 | int32 => -2 ^ (8 * p.size - 1) ≤ d.toInt ∧ d.toInt < 2 ^ (8 * p.size - 1)
  | int64 | uint64 => True
  | float32 | float64 => False

/-- Whether a discriminator of the type can be the number `d`. An enumeration has 32 bits. -/
def MemberType.Carries {n : Nat} (t : MemberType n) (d : Int64) : Prop :=
  match t with
  | primitive p => p.Carries d
  | type _ => Primitive.int32.Carries d
  | _ => False

namespace Scalar

/-- A discriminator is a scalar of the type if it is in its range. -/
theorem ofDiscriminator?_eq_none_iff (p : Primitive) (d : Int64) :
    ofDiscriminator? p d = none ↔ ¬p.Carries d := by
  have hrange : ∀ {low high : Int} {s : Scalar},
      (if low ≤ d.toInt ∧ d.toInt ≤ high then some s else none) = none ↔
        ¬(low ≤ d.toInt ∧ d.toInt ≤ high) := by
    intro low high s
    by_cases h : low ≤ d.toInt ∧ d.toInt ≤ high
    · simp [h]
    · simp [h]
  cases p with
  | bool => exact hrange
  | char => exact hrange
  | octet => exact hrange.trans (not_congr (and_congr_right fun _ => Int.lt_add_one_iff.symm))
  | uint16 => exact hrange.trans (not_congr (and_congr_right fun _ => Int.lt_add_one_iff.symm))
  | uint32 => exact hrange.trans (not_congr (and_congr_right fun _ => Int.lt_add_one_iff.symm))
  | int8 => exact hrange.trans (not_congr (and_congr_right fun _ => Int.lt_add_one_iff.symm))
  | int16 => exact hrange.trans (not_congr (and_congr_right fun _ => Int.lt_add_one_iff.symm))
  | int32 => exact hrange.trans (not_congr (and_congr_right fun _ => Int.lt_add_one_iff.symm))
  | int64 => exact iff_of_false nofun fun h => h trivial
  | uint64 => exact iff_of_false nofun fun h => h trivial
  | float32 => exact iff_of_true rfl id
  | float64 => exact iff_of_true rfl id

/-- A character that stands for a discriminator is ASCII. -/
theorem wideChar?_of_ofDiscriminator? {p : Primitive} {d : Int64} {s : Scalar}
    (h : ofDiscriminator? p d = some s) : s.wideChar? = none := by
  cases s with
  | char c =>
    obtain rfl := primitive_of_ofDiscriminator? h
    simp only [ofDiscriminator?, primitive] at h
    split at h
    next hrange =>
      cases h
      have hvalid : d.toInt.toNat.isValidChar := .inl (by omega)
      refine if_pos ?_
      rw [Char.ofNat, dif_pos hvalid]
      show d.toInt.toNat < 0x80
      omega
    next => cases h
  | _ => rfl

end Scalar

/-- The scalar that stands on the wire for the value of a discriminator. -/
def Value.wireScalar? : Value → Option Scalar
  | scalar s => some s
  | enumeration n => some (.int32 n)
  | _ => none

/-- A discriminator as a value, and the scalar that stands for this on the wire. -/
structure DiscriminatorForm {n : Nat} (m : Member n) (d : Int64) (disc : Value) (s : Scalar) :
    Prop where
  value : discriminatorValue m d = .ok disc
  scalar : disc.wireScalar? = some s
  ascii : s.wideChar? = none

section

variable {schema : Schema} {m : Member schema.size} {d : Int64}

/-- A discriminator of a type that can be one has a value unless it is out of range. -/
theorem discriminator_form (h : schema.IsDiscriminator m.type) :
    (m.type.Carries d ∧ ∃ disc s, DiscriminatorForm m d disc s) ∨
    (¬m.type.Carries d ∧ discriminatorValue m d = .error .outOfRange) := by
  unfold discriminatorValue
  cases htype : m.type with
  | primitive p =>
    rw [htype] at h
    have hintegral : p.isIntegral = true := h
    cases hs : Scalar.ofDiscriminator? p d with
    | none =>
      refine .inr ⟨(Scalar.ofDiscriminator?_eq_none_iff p d).1 hs, ?_⟩
      simp only [hintegral, if_true, hs]
    | some s =>
      have hcarried : p.Carries d := by
        by_contra hnot
        rw [(Scalar.ofDiscriminator?_eq_none_iff p d).2 hnot] at hs
        cases hs
      refine .inl ⟨hcarried, .scalar s, s, ?_, rfl, Scalar.wideChar?_of_ofDiscriminator? hs⟩
      simp only [discriminatorValue, htype, hintegral, if_true, hs]
  | type i =>
    by_cases hrange : -0x80000000 ≤ d.toInt ∧ d.toInt < 0x80000000
    · refine .inl ⟨hrange, .enumeration d.toInt32, .int32 d.toInt32, ?_, rfl, rfl⟩
      simp only [discriminatorValue, htype, if_pos hrange]
    · exact .inr ⟨hrange, if_neg hrange⟩
  | _ =>
    rw [htype] at h
    exact h.elim

end

/-- A discriminator stands on the wire as itself or, when it is an enumerator, as its number. -/
theorem DiscriminatorForm.cases {n : Nat} {m : Member n} {d : Int64} {disc : Value} {s : Scalar}
    (h : DiscriminatorForm m d disc s) :
    (m.type = .primitive s.primitive ∧ disc = .scalar s) ∨
    ∃ j k, m.type = .type j ∧ disc = .enumeration k ∧ s = .int32 k := by
  have hvalue := h.value
  have hscalar := h.scalar
  unfold discriminatorValue at hvalue
  split at hvalue
  next p htype =>
    split at hvalue
    next =>
      split at hvalue
      next t ht =>
        cases hvalue
        cases hscalar
        rw [Scalar.primitive_of_ofDiscriminator? ht]
        exact .inl ⟨htype, rfl⟩
      next => cases hvalue
    next => cases hvalue
  next j htype =>
    split at hvalue
    next =>
      cases hvalue
      cases hscalar
      exact .inr ⟨j, _, htype, rfl, rfl⟩
    next => cases hvalue
  next => cases hvalue

section

variable {schema : Schema} {m : Member schema.size} {d : Int64} {disc : Value} {s : Scalar}
  {levels : Nat} (htypes : schema.IsDiscriminator m.type) (hform : DiscriminatorForm m d disc s)
  (hlevels : m.type.embedded = [] ∨ 0 < levels)

include htypes hform hlevels

/-- A discriminator is counted as the scalar that stands for it. -/
theorem addValue_discriminator (rules : SizeRules) (field : String) :
    addValue schema rules (addType schema rules levels) field m.type disc =
      rules.addScalar s.primitive := by
  rcases hform.cases with ⟨htype, rfl⟩ | ⟨j, k, htype, rfl, rfl⟩
  · rw [htype, addValue]
    exact if_pos rfl
  · rw [htype] at htypes hlevels ⊢
    obtain ⟨enum, hbody⟩ := htypes
    obtain ⟨deep, rfl⟩ := Nat.exists_eq_add_one.2 (hlevels.resolve_left (List.cons_ne_nil _ _))
    simp only [addValue, addType, hbody]
    rfl

/-- A discriminator is written as the scalar that stands for it. -/
theorem writeValue_discriminator (e : Encoding) (field : String) :
    writeValue schema e (writeType schema e levels) field m.type disc = (do
      WriteM.pad (e.alignmentOf s.primitive)
      WriteM.emit (e.scalarBytes s)) := by
  rcases hform.cases with ⟨htype, rfl⟩ | ⟨j, k, htype, rfl, rfl⟩
  · rw [htype, writeValue]
    simp only [Encoding.writeScalar, if_true, hform.ascii]
  · rw [htype] at htypes hlevels ⊢
    obtain ⟨enum, hbody⟩ := htypes
    obtain ⟨deep, rfl⟩ := Nat.exists_eq_add_one.2 (hlevels.resolve_left (List.cons_ne_nil _ _))
    simp only [writeValue, writeType, hbody]
    rfl

/-- A discriminator is read from the bytes of the scalar that stands for it. -/
theorem reads_discriminator (src : Source) (field : String) (c : Cursor) :
    Reads src (readValue schema src (readType schema src levels) field m.type) c
      (List.replicate
        (padding (src.origin + c.position) (src.encoding.alignmentOf s.primitive)) 0 ++
          src.encoding.scalarBytes s) disc := by
  rcases hform.cases with ⟨htype, rfl⟩ | ⟨j, k, htype, rfl, rfl⟩
  · rw [htype]
    exact reads_map Value.scalar (Source.reads_scalar field hform.ascii)
  · rw [htype] at htypes hlevels ⊢
    obtain ⟨enum, hbody⟩ := htypes
    obtain ⟨deep, rfl⟩ := Nat.exists_eq_add_one.2 (hlevels.resolve_left (List.cons_ne_nil _ _))
    simp only [readValue, readType, hbody]
    exact reads_last (Source.reads_scalar (s := .int32 k) field rfl) fun _ _ => reads_pure _

end

/-- Whatever arm is read has the name of the one that the discriminator selects. -/
theorem yields_selected (schema : Schema) (src : Source)
    (readType : String → Fin schema.size → ReadM Value) (typeName : String) (framed : Bool)
    (u : UnionType schema.size) (d : Int64) :
    Yields (readArm schema src readType typeName framed u d) fun arm =>
      arm.map Prod.fst = (u.select d).map fun selected => selected.member.name := by
  unfold readArm
  cases u.select d with
  | none => exact yields_bind (yields_any _) fun _ _ => yields_pure rfl
  | some selected =>
    refine yields_bind (yields_any _) fun ended _ => ?_
    split
    · exact yields_pure rfl
    · exact yields_bind (yields_any _) fun v _ => yields_pure rfl

/-- Both passes refuse every union of the type `i` with the discriminator `d`, whatever its arm. -/
structure RefusesDiscriminator (schema : Schema) (i : Fin schema.size) (d : Int64) : Prop where
  sizing : ∀ repr levels field arm tally,
    (addType schema (unlimited repr) (levels + 1) field i (.union d arm)).run tally =
      .error .outOfRange
  writing : ∀ e levels field arm (bytes : Array UInt8) position, ∃ w,
    (writeType schema e (levels + 1) field i (.union d arm)).run
      ⟨.appendingTo bytes, position⟩ = .error .outOfRange w

theorem refuses_discriminator {schema : Schema} {i : Fin schema.size} {u : UnionType schema.size}
    {d : Int64} (hbody : (schema.get i).body = .union u)
    (h : discriminatorValue u.discriminator d = .error .outOfRange) :
    RefusesDiscriminator schema i d := by
  have himage : ∀ e levels field arm x,
      typeImage schema e (levels + 1) field i (.union d arm) x = .error (.refused .outOfRange) := by
    intro e levels field arm x
    simp only [typeImage, hbody, unionImage, h, Encoding.delimitedImage]
    split
    · exact headed_error rfl
    · rfl
  refine ⟨?_, ?_⟩
  · intro repr levels field arm tally
    have hcounts := counts_type schema repr .little (levels + 1) field i (.union d arm)
      tally.position tally.total
    rw [himage] at hcounts
    exact hcounts.resolve_left id
  · intro e levels field arm bytes position
    have hwrites := writes_type schema e (levels + 1) field i (.union d arm)
    obtain ⟨rest, hrun⟩ := hwrites.run_of_obstacle (himage e levels field arm position) bytes
    exact ⟨_, hrun⟩

/-- The discriminator `d` of a union of the type `i` stands on the wire as the scalar `s`, and both
    passes go on from it to the arm. A reader that meets its bytes goes on to the arm that `d`
    selects, so that what it makes of a union that was written is one with this discriminator and
    with the arm of the name that the writer wrote. -/
structure CarriesDiscriminator (schema : Schema) (i : Fin schema.size) (u : UnionType schema.size)
    (d : Int64) (s : Scalar) (levels : Nat) : Prop where
  sizing : ∀ rules arm, addUnion schema rules (addType schema rules levels) u d arm = (do
    rules.addScalar s.primitive
    match ← MonadExcept.ofExcept (activeArm schema u d arm) with
    | some (m, v) => addValue schema rules (addType schema rules levels) m.name m.type v
    | none => pure ())
  writing : ∀ e arm, writeUnion schema e (writeType schema e levels) u d arm = (do
    pad (e.alignmentOf s.primitive)
    emit (e.scalarBytes s)
    match ← MonadExcept.ofExcept (activeArm schema u d arm) with
    | some (m, v) => writeValue schema e (writeType schema e levels) m.name m.type v
    | none => pure ())
  reading : ∀ src typeName framed (c : Cursor) (gap : List UInt8),
    gap = List.replicate
      (padding (src.origin + c.position) (src.encoding.alignmentOf s.primitive)) 0 →
    c.Holds src (gap ++ src.encoding.scalarBytes s) →
    ∃ after, c.Moved (gap.length + s.primitive.size) after ∧
      (readUnionBody schema src (readType schema src levels) typeName u framed).run c = (do
        let arm ← readArm schema src (readType schema src levels) typeName framed u d
        return .union d arm : ReadM Value).run after
  arm : ∀ e field arm (bytes : Array UInt8) position w,
    (writeType schema e (levels + 1) field i (.union d arm)).run ⟨.appendingTo bytes, position⟩ =
      .ok () w →
    ∃ b : List UInt8, w.sink = .appendingTo (bytes ++ b) ∧
      ∀ (src : Source) (c : Cursor), src.encoding = e → src.origin + c.position = position →
        c.Holds src b → ∀ name v after, (readType schema src (levels + 1) name i).run c =
          .ok v after →
        ∃ found, v = .union d found ∧
          found.map Prod.fst = (u.select d).map (fun selected => selected.member.name) ∧
          ∀ entry, arm = some entry → found.map Prod.fst = some entry.1

/-- What stands behind a discriminator is an arm that goes with it. -/
theorem activeArm_of_typeImage {schema : Schema} {e : Encoding} {levels : Nat} {field : String}
    {i : Fin schema.size} {u : UnionType schema.size} {d : Int64} {arm : Option (String × Value)}
    {x : Nat} {b : List UInt8} (hbody : (schema.get i).body = .union u)
    (himage : typeImage schema e (levels + 1) field i (.union d arm) x = .ok b) :
    ∃ active, activeArm schema u d arm = .ok active := by
  simp only [typeImage, hbody] at himage
  rcases Encoding.delimitedImage_eq_ok himage with ⟨-, hunion⟩ | ⟨-, inner, hunion, -, -⟩
  · obtain ⟨disc, active, first, rest, -, -, hactive, -, -⟩ := unionImage_eq_ok hunion
    exact ⟨active, hactive⟩
  · obtain ⟨disc, active, first, rest, -, -, hactive, -, -⟩ := unionImage_eq_ok hunion
    exact ⟨active, hactive⟩

section

variable {schema : Schema} {i : Fin schema.size} {u : UnionType schema.size} {d : Int64}
  {disc : Value} {s : Scalar} {levels : Nat} (htypes : schema.IsDiscriminator u.discriminator.type)
  (hform : DiscriminatorForm u.discriminator d disc s)
  (hlevels : u.discriminator.type.embedded = [] ∨ 0 < levels)

include htypes hform hlevels

/-- In front of a discriminator, the body of a union goes on to the arm that it selects. -/
theorem run_readUnionBody_discriminator (src : Source) (typeName : String) (framed : Bool)
    (c : Cursor) {b : List UInt8}
    (hb : b = List.replicate
      (padding (src.origin + c.position) (src.encoding.alignmentOf s.primitive)) 0 ++
        src.encoding.scalarBytes s)
    (hholds : c.Holds src b) :
    ∃ after, c.Moved b.length after ∧
      (readUnionBody schema src (readType schema src levels) typeName u framed).run c = (do
        let arm ← readArm schema src (readType schema src levels) typeName framed u d
        return .union d arm : ReadM Value).run after := by
  have hpos : 0 < b.length := by
    rw [hb, List.length_append, Encoding.length_scalarBytes]
    exact Nat.add_pos_right _ s.primitive.size_pos
  have hreads := reads_discriminator htypes hform hlevels src u.discriminator.name c
  rw [← hb] at hreads
  obtain ⟨after, hrun, hmoved⟩ := hreads hholds
  refine ⟨after, hmoved, ?_⟩
  rw [← List.append_nil b] at hholds
  rw [run_readUnionBody_more (hholds.not_ended hpos framed), EStateM.run_bind, hrun]
  simp only [discriminatorOf?_of_discriminatorValue hform.value]

theorem valueImage_discriminator (e : Encoding) (field : String) :
    valueImage schema e (typeImage schema e levels) field u.discriminator.type disc =
      (zeros (e.alignmentOf s.primitive)).andThen (bytes (e.scalarBytes s)) := by
  rcases hform.cases with ⟨htype, rfl⟩ | ⟨j, k, htype, rfl, rfl⟩
  · rw [htype, valueImage]
    simp only [Encoding.scalarImage, if_true, hform.ascii]
  · rw [htype] at htypes hlevels ⊢
    obtain ⟨enum, hbody⟩ := htypes
    obtain ⟨deep, rfl⟩ := Nat.exists_eq_add_one.2 (hlevels.resolve_left (List.cons_ne_nil _ _))
    simp only [valueImage, typeImage, hbody]
    rfl

/-- In front of the image of a union, the frame is opened and the discriminator read, and what is
    left is the arm that it selects. -/
theorem run_readType_discriminator {src : Source} {field : String} {arm : Option (String × Value)}
    {c : Cursor} {b : List UInt8} (hbody : (schema.get i).body = .union u)
    (himage : typeImage schema src.encoding (levels + 1) field i (.union d arm)
      (src.origin + c.position) = .ok b)
    (hholds : c.Holds src b) (name : String) :
    ∃ frame mid behind,
      (openFrame src (schema.get i).full (schema.get i).extensibility).run c = .ok frame mid ∧
      mid.Moved (padding (src.origin + mid.position) (src.encoding.alignmentOf s.primitive) +
        s.primitive.size) behind ∧
      (readType schema src (levels + 1) name i).run c = (do
        let arm ← readArm schema src (readType schema src levels) (schema.get i).full frame.isSome
          u d
        closeFrame (schema.get i).full frame
        return .union d arm : ReadM Value).run behind := by
  simp only [typeImage, hbody] at himage
  obtain ⟨frame, inner, mid, hopen, hinner, henters, -⟩ :=
    run_frame (schema.get i).full rfl himage hholds
  obtain ⟨disc', active, first, rest, hvalue, hfirst, -, -, rfl⟩ := unionImage_eq_ok hinner
  rw [hform.value] at hvalue
  cases hvalue
  rw [valueImage_discriminator htypes hform hlevels] at hfirst
  cases hfirst
  obtain ⟨behind, hmoved, hread⟩ := run_readUnionBody_discriminator htypes hform hlevels src
    (schema.get i).full frame.isSome mid rfl henters.holds.left
  rw [List.length_append, List.length_replicate, Encoding.length_scalarBytes] at hmoved
  refine ⟨frame, mid, behind, hopen, hmoved, ?_⟩
  simp only [readType_union hbody, inFrame]
  rw [EStateM.run_bind, hopen]
  simp only [EStateM.run_bind, hread]
  simp only [← EStateM.run_bind, bind_assoc, pure_bind]

/-- What is read in front of the image of a union has its discriminator and the arm of the name
    that this selects. -/
theorem readType_union_eq_ok {src : Source} {field name : String} {arm : Option (String × Value)}
    {c after : Cursor} {b : List UInt8} {v : Value} (hbody : (schema.get i).body = .union u)
    (himage : typeImage schema src.encoding (levels + 1) field i (.union d arm)
      (src.origin + c.position) = .ok b)
    (hholds : c.Holds src b)
    (hrun : (readType schema src (levels + 1) name i).run c = .ok v after) :
    ∃ found, v = .union d found ∧
      found.map Prod.fst = (u.select d).map fun selected => selected.member.name := by
  obtain ⟨frame, -, behind, -, -, hread⟩ :=
    run_readType_discriminator htypes hform hlevels hbody himage hholds name
  rw [hread, EStateM.run_bind] at hrun
  cases harm : (readArm schema src (readType schema src levels) (schema.get i).full frame.isSome u
      d).run behind with
  | error fault last =>
    rw [harm] at hrun
    cases hrun
  | ok found last =>
    simp only [harm, EStateM.run_bind] at hrun
    refine ⟨found, ?_, yields_selected schema src _ _ _ u d behind found last harm⟩
    cases hclose : (closeFrame (schema.get i).full frame).run last with
    | error fault final =>
      rw [hclose] at hrun
      cases hrun
    | ok _ final =>
      rw [hclose] at hrun
      cases hrun
      rfl

theorem carries_discriminator (hbody : (schema.get i).body = .union u) :
    CarriesDiscriminator schema i u d s levels where
  sizing := by
    intro rules arm
    simp only [addUnion, hform.value]
    rw [← addValue_discriminator htypes hform hlevels rules u.discriminator.name]
    rfl
  writing := by
    intro e arm
    have hdisc := writeValue_discriminator htypes hform hlevels e u.discriminator.name
    calc writeUnion schema e (writeType schema e levels) u d arm
        = (do
          writeValue schema e (writeType schema e levels) u.discriminator.name
            u.discriminator.type disc
          match ← MonadExcept.ofExcept (activeArm schema u d arm) with
          | some (m, v) => writeValue schema e (writeType schema e levels) m.name m.type v
          | none => pure ()) := by
            simp only [writeUnion, hform.value]
            rfl
      _ = _ := by rw [hdisc, bind_assoc]
  reading := by
    intro src typeName framed c gap hgap hholds
    have hread := run_readUnionBody_discriminator htypes hform hlevels src typeName framed c
      (congrArg (· ++ src.encoding.scalarBytes s) hgap) hholds
    rw [List.length_append, Encoding.length_scalarBytes] at hread
    exact hread
  arm := by
    intro e field arm bytes position w hrun
    obtain ⟨b, himage, hsink⟩ :=
      (writes_type schema e (levels + 1) field i (.union d arm)).image_of_run hrun
    refine ⟨b, hsink, ?_⟩
    rintro src c rfl rfl hholds name v after hread
    obtain ⟨found, hv, hname⟩ :=
      readType_union_eq_ok htypes hform hlevels hbody himage hholds hread
    refine ⟨found, hv, hname, ?_⟩
    rintro entry rfl
    obtain ⟨active, hactive⟩ := activeArm_of_typeImage hbody himage
    cases activeArm_eq_ok hactive with
    | present hselect => rw [hname, hselect, Option.map_some]

end

namespace Schema

/-- Discriminators are carried faithfully. A number has a value as a discriminator, and is not
    refused by the passes, if and only if it is in the range of the declared type. Any other is
    carried: its bytes, of either order and at any place, are read as this number, and reader and
    writer go on with the same arm. Only the discriminator of an enumeration is a type below its
    union, so that only this needs a level to be left. -/
theorem carries_discriminators {doc : Document} {schema : Schema}
    (hcompile : doc.compile = .ok schema) {i : Fin schema.size} {u : UnionType schema.size}
    (hbody : (schema.get i).body = .union u) (d : Int64) :
    (discriminatorValue u.discriminator d = .error .outOfRange ↔
      ¬u.discriminator.type.Carries d) ∧
    (¬u.discriminator.type.Carries d → RefusesDiscriminator schema i d) ∧
    (u.discriminator.type.Carries d →
      ∃ disc s, discriminatorValue u.discriminator d = .ok disc ∧ discriminatorOf? disc = some d ∧
        ∀ levels, u.discriminator.type.embedded = [] ∨ 0 < levels →
          CarriesDiscriminator schema i u d s levels) := by
  have htypes := (wellFormed_of_compile hcompile).discriminators i u hbody
  rcases discriminator_form (d := d) htypes with ⟨hcarried, disc, s, hform⟩ | ⟨hnot, hrange⟩
  · have hok : discriminatorValue u.discriminator d ≠ .error .outOfRange := by
      rw [hform.value]
      nofun
    refine ⟨iff_of_false hok (not_not_intro hcarried), fun hnot => absurd hcarried hnot, ?_⟩
    intro _
    refine ⟨disc, s, hform.value, discriminatorOf?_of_discriminatorValue hform.value, ?_⟩
    intro levels hlevels
    exact carries_discriminator htypes hform hlevels hbody
  · exact ⟨iff_of_true hrange hnot, fun _ => refuses_discriminator hbody hrange,
      fun hcarried => absurd hcarried hnot⟩

/-- A signal, which is strong, or silent with a note. -/
def signalDoc : Document where
  types := [
    { name := "Signal"
      scope := ""
      kind := .union
      extensibility := .appendable
      fields := [(FieldDecl.new "kind" "uint16").discriminator,
        (FieldDecl.new "level" "int32").case [0],
        (FieldDecl.new "note" "string").case [0xffff]] }]

def signalUnion : UnionType 1 where
  discriminator := ⟨"kind", 0, .primitive .uint16, false, false⟩
  arms := [
    ⟨⟨"level", 1, .primitive .int32, false, false⟩, [0], false⟩,
    ⟨⟨"note", 2, .string none, false, false⟩, [0xffff], false⟩]

def signals : Schema where
  size := 1
  types := #v[
    { name := "Signal"
      scope := ""
      extensibility := .appendable
      layout := .union ("kind", ⟨2, 2⟩) [("level", ⟨4, 4⟩), ("note", .pointer)]
      body := .union signalUnion }]

/-- The bits of -1 are those of 65535 where there are 16 of them, but only one of the two is the
    discriminator of a signal. -/
theorem carries_discriminators_signal :
    let signal : Fin signals.size := ⟨0, by decide⟩
    signalDoc.compile = .ok signals ∧ (signals.get signal).body = .union signalUnion ∧
      RefusesDiscriminator signals signal (-1) ∧
      ∃ disc s, discriminatorValue signalUnion.discriminator 0xffff = .ok disc ∧
        discriminatorOf? disc = some 0xffff ∧
        CarriesDiscriminator signals signal signalUnion 0xffff s 0 := by
  intro signal
  have hcompile : signalDoc.compile = .ok signals := by decide +kernel
  have hbody : (signals.get signal).body = .union signalUnion := rfl
  obtain ⟨-, hrefused, -⟩ := carries_discriminators hcompile hbody (-1)
  obtain ⟨-, -, hcarried⟩ := carries_discriminators hcompile hbody 0xffff
  obtain ⟨disc, s, hvalue, hback, hforms⟩ := hcarried ⟨by decide, by decide⟩
  refine ⟨hcompile, hbody, hrefused ?_, disc, s, hvalue, hback, hforms 0 (.inl rfl)⟩
  rintro ⟨hlow, -⟩
  exact absurd hlow (by decide)

end Schema

end Cdr
