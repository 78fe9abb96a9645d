import Cdr.Proofs.Discriminators
import Cdr.Proofs.FieldOrder

/-! # Case labels

A case label has 64 bits, whatever the type of the discriminator is, and a compiler compares labels
with nothing but each other. This makes a label select the arm that bears it. Whether a union can
then hold this arm under the label is for the type of the discriminator to say: a label that it has
leads writer and reader to the arm, and under one that it does not have nothing is written at all.
-/

namespace Cdr

open ReadM WriteM

/-- An item with a property that no other has is what a search finds. -/
theorem find?_eq_some_of_mem {α : Type} {p : α → Bool} {x : α} {xs : List α} (hx : x ∈ xs)
    (hp : p x = true) (hone : xs.countP p ≤ 1) : xs.find? p = some x := by
  obtain ⟨before, behind, rfl⟩ := List.append_of_mem hx
  rw [find?_eq_of_perm List.perm_middle hone, List.find?_cons_of_pos hp]

/-- A label selects the arm that bears it, a default arm or not. -/
theorem UnionType.select_of_label {n : Nat} {u : UnionType n} {arm : UnionArm n} {label : Int64}
    (hlabels : (u.arms.flatMap UnionArm.labels).Nodup) (harm : arm ∈ u.arms)
    (hlabel : label ∈ arm.labels) : u.select label = some arm := by
  have hfind := find?_eq_some_of_mem (p := fun arm => arm.labels.contains label) harm
    (List.contains_iff_mem.2 hlabel) (countP_label_le_one hlabels label)
  rw [select, hfind, Option.some_or]

/-- No two labels of a union that is compiled are the same. -/
theorem Compile.nodup_labels_of_typeBody {n : Nat} {decls : Fin n → TypeDecl} {owner : TypeDecl}
    {u : UnionType n} (h : typeBody decls owner = .ok (.union u)) :
    (u.arms.flatMap UnionArm.labels).Nodup := by
  unfold typeBody at h
  cases hkind : owner.kind with
  | struct =>
    simp only [hkind, bind_eq_ok_iff, pure_eq_ok_iff] at h
    obtain ⟨ms, -, ⟨⟩⟩ := h
  | union =>
    simp only [hkind, bind_eq_ok_iff, pure_eq_ok_iff, unionType_eq_ok_iff] at h
    obtain ⟨other, ⟨f, hunion⟩, hu⟩ := h
    cases hu
    exact hunion.labels
  | enumeration =>
    simp only [hkind, bind_eq_ok_iff, pure_eq_ok_iff] at h
    obtain ⟨es, -, ⟨⟩⟩ := h

/-! ## Arms under their labels -/

/-- What a union may hold for an arm: a value under its name, or nothing, which stands for the
    default. -/
inductive UnionArm.Held {schema : Schema} (arm : UnionArm schema.size) :
    Option (String × Value) → Value → Prop where
  | present (v : Value) : Held arm (some (arm.member.name, v)) v
  | missing : Held arm none (schema.default arm.member.type)

/-- Reads the value of an arm, which a framed body may end in front of. -/
def readHeld (schema : Schema) (src : Source) (readType : String → Fin schema.size → ReadM Value)
    (framed : Bool) (arm : UnionArm schema.size) : ReadM Value := do
  if framed && (← atEnd) then return schema.default arm.member.type
  else readValue schema src readType arm.member.name arm.member.type

/-- Unions of the type `i` may hold the arm under the discriminator `d`. Both passes take the scalar
    `s` for it and go on to what is held for the arm, so that this and a lack of room are all that
    they can refuse. A reader that meets the bytes of the scalar goes on to the value of this arm,
    and so does one that stands in front of the whole union as it was written. -/
structure Serves (schema : Schema) (i : Fin schema.size) (u : UnionType schema.size)
    (arm : UnionArm schema.size) (d : Int64) (s : Scalar) (levels : Nat) : Prop where
  sizing : ∀ rules field held v, arm.Held held v →
    addType schema rules (levels + 1) field i (.union d held) = (do
      rules.addDelimiter (schema.get i).extensibility
      rules.addScalar s.primitive
      addValue schema rules (addType schema rules levels) arm.member.name arm.member.type v)
  writing : ∀ e field held v, arm.Held held v →
    writeType schema e (levels + 1) field i (.union d held) =
      e.writeDelimited (schema.get i).extensibility (do
        pad (e.alignmentOf s.primitive)
        emit (e.scalarBytes s)
        writeValue schema e (writeType schema e levels) arm.member.name arm.member.type v)
  reading : ∀ src typeName framed (c : Cursor) (gap : List UInt8),
    gap = List.replicate
      (padding (src.origin + c.position) (src.encoding.alignmentOf s.primitive)) 0 →
    c.Holds src (gap ++ src.encoding.scalarBytes s) →
    ∃ after, c.Moved (gap.length + s.primitive.size) after ∧
      (readUnionBody schema src (readType schema src levels) typeName u framed).run c = (do
        let v ← readHeld schema src (readType schema src levels) framed arm
        return .union d (some (arm.member.name, v)) : ReadM Value).run after
  back : ∀ e field held (bytes : Array UInt8) position w,
    (writeType schema e (levels + 1) field i (.union d held)).run ⟨.appendingTo bytes, position⟩ =
      .ok () w →
    ∃ b : List UInt8, w.sink = .appendingTo (bytes ++ b) ∧
      ∀ (src : Source) (c : Cursor), src.encoding = e → src.origin + c.position = position →
        c.Holds src b → ∀ name, ∃ frame mid after,
          (openFrame src (schema.get i).full (schema.get i).extensibility).run c = .ok frame mid ∧
          mid.Moved (padding (src.origin + mid.position) (src.encoding.alignmentOf s.primitive) +
            s.primitive.size) after ∧
          (readType schema src (levels + 1) name i).run c = (do
            let v ← readHeld schema src (readType schema src levels) frame.isSome arm
            closeFrame (schema.get i).full frame
            return .union d (some (arm.member.name, v)) : ReadM Value).run after

theorem activeArm_of_held {schema : Schema} {u : UnionType schema.size} {d : Int64}
    {arm : UnionArm schema.size} {held : Option (String × Value)} {v : Value}
    (hselect : u.select d = some arm) (h : arm.Held held v) :
    activeArm schema u d held = .ok (some (arm.member, v)) := by
  cases h with
  | present v => simp only [activeArm, hselect, if_true]
  | missing => simp only [activeArm, hselect]

/-- What is read behind a discriminator is the value of the arm that it selects. -/
theorem readArm_of_select {schema : Schema} {src : Source}
    {readType : String → Fin schema.size → ReadM Value} {u : UnionType schema.size} {d : Int64}
    {arm : UnionArm schema.size} (typeName : String) (framed : Bool)
    (hselect : u.select d = some arm) :
    readArm schema src readType typeName framed u d = (do
      let v ← readHeld schema src readType framed arm
      return some (arm.member.name, v)) := by
  simp only [readArm, readHeld, hselect, bind_assoc]
  refine bind_congr fun ended => ?_
  split <;> rfl

section

variable {schema : Schema} {i : Fin schema.size} {u : UnionType schema.size}
  {arm : UnionArm schema.size} {d : Int64} {disc : Value} {s : Scalar} {levels : Nat}
  (htypes : schema.IsDiscriminator u.discriminator.type)
  (hform : DiscriminatorForm u.discriminator d disc s)
  (hlevels : u.discriminator.type.embedded = [] ∨ 0 < levels)

include htypes hform hlevels

theorem serves_of_select (hbody : (schema.get i).body = .union u)
    (hselect : u.select d = some arm) : Serves schema i u arm d s levels := by
  have hcarries := carries_discriminator htypes hform hlevels hbody
  refine ⟨?_, ?_, ?_, ?_⟩
  · intro rules field held v hheld
    simp only [addType, hbody, hcarries.sizing, activeArm_of_held hselect hheld]
    rfl
  · intro e field held v hheld
    simp only [writeType, hbody, hcarries.writing, activeArm_of_held hselect hheld]
    rfl
  · intro src typeName framed c gap hgap hholds
    obtain ⟨after, hmoved, hrun⟩ := hcarries.reading src typeName framed c gap hgap hholds
    refine ⟨after, hmoved, ?_⟩
    rw [hrun, readArm_of_select typeName framed hselect, bind_assoc]
    rfl
  · intro e field held bytes position w hrun
    obtain ⟨b, himage, hsink⟩ :=
      (writes_type schema e (levels + 1) field i (.union d held)).image_of_run hrun
    refine ⟨b, hsink, ?_⟩
    rintro src c rfl rfl hholds name
    obtain ⟨frame, mid, behind, hopen, hmoved, hread⟩ :=
      run_readType_discriminator htypes hform hlevels hbody himage hholds name
    refine ⟨frame, mid, behind, hopen, hmoved, ?_⟩
    rw [hread, readArm_of_select (schema.get i).full frame.isSome hselect]
    simp only [bind_assoc, pure_bind]

end

namespace Schema

/-- A case label selects its arm. If the discriminator can be this number, unions hold the arm under
    it through sizing, writing and reading, in every representation and byte order. If not, both
    passes refuse every union with it. Only the discriminator of an enumeration is a type below its
    union, so that only this needs a level to be left. -/
theorem case_labels_serve {doc : Document} {schema : Schema} (hcompile : doc.compile = .ok schema)
    {i : Fin schema.size} {u : UnionType schema.size} (hbody : (schema.get i).body = .union u)
    {arm : UnionArm schema.size} (harm : arm ∈ u.arms) {label : Int64}
    (hlabel : label ∈ arm.labels) :
    u.select label = some arm ∧
    (u.discriminator.type.Carries label →
      ∃ s, ∀ levels, u.discriminator.type.embedded = [] ∨ 0 < levels →
        Serves schema i u arm label s levels) ∧
    (¬u.discriminator.type.Carries label → RefusesDiscriminator schema i label) := by
  have htypes := (wellFormed_of_compile hcompile).discriminators i u hbody
  obtain ⟨decls, hbodies, -⟩ := Document.compile_eq_ok hcompile
  have hdecl := hbodies i
  rw [hbody] at hdecl
  have hselect := UnionType.select_of_label (Compile.nodup_labels_of_typeBody hdecl) harm hlabel
  refine ⟨hselect, ?_⟩
  rcases discriminator_form (d := label) htypes with ⟨hcarried, disc, s, hform⟩ | ⟨hnot, hrange⟩
  · refine ⟨fun _ => ⟨s, fun levels hlevels => ?_⟩, fun hnot => absurd hcarried hnot⟩
    exact serves_of_select htypes hform hlevels hbody hselect
  · exact ⟨fun hcarried => absurd hcarried hnot, fun _ => refuses_discriminator hbody hrange⟩

/-- A dial that has a note for positions that its discriminator of eight bits does not reach. -/
def dialDoc : Document where
  types := [
    { name := "Dial"
      scope := ""
      kind := .union
      extensibility := .final
      fields := [(FieldDecl.new "position" "uint8").discriminator,
        (FieldDecl.new "level" "int32").case [7],
        (FieldDecl.new "note" "string").case [300]] }]

def dialLevel : UnionArm 1 := ⟨⟨"level", 1, .primitive .int32, false, false⟩, [7], false⟩

def dialNote : UnionArm 1 := ⟨⟨"note", 2, .string none, false, false⟩, [300], false⟩

def dialUnion : UnionType 1 where
  discriminator := ⟨"position", 0, .primitive .octet, false, false⟩
  arms := [dialLevel, dialNote]

def dials : Schema where
  size := 1
  types := #v[
    { name := "Dial"
      scope := ""
      extensibility := .final
      layout := .union ("position", ⟨1, 1⟩) [("level", ⟨4, 4⟩), ("note", .pointer)]
      body := .union dialUnion }]

/-- The dial serves under one of its labels and is refused under the other. -/
theorem case_labels_serve_dial :
    let dial : Fin dials.size := ⟨0, by decide⟩
    dialDoc.compile = .ok dials ∧ (dials.get dial).body = .union dialUnion ∧
      (∃ s, ∀ levels, Serves dials dial dialUnion dialLevel 7 s levels) ∧
      RefusesDiscriminator dials dial 300 := by
  intro dial
  have hcompile : dialDoc.compile = .ok dials := by decide +kernel
  have hbody : (dials.get dial).body = .union dialUnion := rfl
  have hlevel : dialLevel ∈ dialUnion.arms := .head _
  have hnote : dialNote ∈ dialUnion.arms := .tail _ (.head _)
  have hseven : 7 ∈ dialLevel.labels := .head _
  have hwide : 300 ∈ dialNote.labels := .head _
  obtain ⟨-, hserves, -⟩ := case_labels_serve hcompile hbody hlevel hseven
  obtain ⟨s, hlevels⟩ := hserves ⟨by decide, by decide⟩
  obtain ⟨-, -, hrefused⟩ := case_labels_serve hcompile hbody hnote hwide
  refine ⟨hcompile, hbody, ⟨s, fun levels => hlevels levels (.inl rfl)⟩, hrefused ?_⟩
  rintro ⟨-, hhigh⟩
  exact absurd hhigh (by decide)

/-- A note on the dial bears a label and is selected by it, but neither sized nor written. -/
theorem dial_note_refused :
    let dial : Fin dials.size := ⟨0, by decide⟩
    dialDoc.compile = .ok dials ∧ (dials.get dial).body = .union dialUnion ∧
      dialNote ∈ dialUnion.arms ∧ 300 ∈ dialNote.labels ∧ dialUnion.select 300 = some dialNote ∧
      dials.sizeOf ⟨.xcdr2, none⟩ dial (.union 300 (some ("note", .string "hi"))) 0 =
        .error .outOfRange ∧
      RefusesDiscriminator dials dial 300 := by
  intro dial
  have hcompile : dialDoc.compile = .ok dials := by decide +kernel
  have hrefuses : RefusesDiscriminator dials dial 300 := refuses_discriminator rfl (by decide)
  refine ⟨hcompile, rfl, .tail _ (.head _), .head _, by decide, ?_, hrefuses⟩
  have hsizing := hrefuses.sizing .xcdr2 99 "" (some ("note", .string "hi")) ⟨0, 0⟩
  simp only [sizeOf, maxDepth]
  exact congrArg (· >>= _) hsizing

end Schema

end Cdr
