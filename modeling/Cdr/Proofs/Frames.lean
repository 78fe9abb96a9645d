import Cdr.Proofs.ReadBack

/-! # Bodies in their frames

The body of a struct or a union is read between opening its frame and closing it. Where there is
one, the reader ends as far behind the length as this announces, whatever it read of the body. Where
there is none, the body is read as it stands.
-/

namespace Cdr

open ReadM

/-- Reads a body, behind its length when the type is framed. -/
def inFrame {α : Type} (src : Source) (typeName : String) (extensibility : Extensibility)
    (body : Bool → ReadM α) : ReadM α := do
  let frame ← openFrame src typeName extensibility
  let a ← body frame.isSome
  closeFrame typeName frame
  return a

section

variable (schema : Schema) (src : Source) (readType : String → Fin schema.size → ReadM Value)

/-- Reads the body of a union. -/
def readUnionBody (typeName : String) (u : UnionType schema.size) (framed : Bool) :
    ReadM Value := do
  if framed && (← atEnd) then return .union 0 none
  else
    let m := u.discriminator
    let disc ← readValue schema src readType m.name m.type
    match discriminatorOf? disc with
    | some d =>
      let arm ← readArm schema src readType typeName framed u d
      return .union d arm
    | none => throw (.mismatch m.name "discriminator" disc.kindName)

theorem readStruct_eq (typeName : String) (extensibility : Extensibility)
    (s : StructType schema.size) :
    readStruct schema src readType typeName extensibility s =
      inFrame src typeName extensibility fun framed => do
        let fields ← readMembers schema src readType framed s.wireMembers []
        return .struct fields := by
  simp only [readStruct, inFrame, bind_assoc, pure_bind]

theorem readUnion_eq (typeName : String) (extensibility : Extensibility)
    (u : UnionType schema.size) :
    readUnion schema src readType typeName extensibility u =
      inFrame src typeName extensibility (readUnionBody schema src readType typeName u) := by
  unfold readUnion inFrame readUnionBody
  refine bind_congr fun frame => ?_
  rw [bind_assoc]
  refine bind_congr fun ended => ?_
  split
  · simp only [pure_bind]
  · rw [bind_assoc]
    refine bind_congr fun disc => ?_
    cases discriminatorOf? disc with
    | none => rfl
    | some d => simp only [bind_assoc, pure_bind]

theorem inFrame_bare {α : Type} {typeName : String} {extensibility : Extensibility}
    {body : Bool → ReadM α} (h : ¬src.encoding.repr.isDelimited extensibility = true) :
    inFrame src typeName extensibility body = body false := by
  simp only [inFrame, openFrame, if_neg h, pure_bind, closeFrame, Option.isSome_none, bind_pure]

end

section

variable (schema : Schema) (src : Source) (readType : String → Fin schema.size → ReadM Value)

/-- Outside of frames nothing is taken to be missing. -/
theorem readMembers_bare {m : Member schema.size} (h : m.optional = false)
    (rest : List (Member schema.size)) (fields : Entries Value) :
    readMembers schema src readType false (m :: rest) fields = (do
      let v ← readValue schema src readType m.name m.type
      readMembers schema src readType false rest (fields.insert m.name v)) := by
  funext c
  exact run_readMembers_required (fun hended => Bool.false_ne_true hended.1) h

theorem readUnionBody_bare (typeName : String) (u : UnionType schema.size) :
    readUnionBody schema src readType typeName u false = (do
      let disc ← readValue schema src readType u.discriminator.name u.discriminator.type
      match discriminatorOf? disc with
      | some d =>
        let arm ← readArm schema src readType typeName false u d
        return .union d arm
      | none => throw (.mismatch u.discriminator.name "discriminator" disc.kindName)) := rfl

theorem readArm_bare (typeName : String) {u : UnionType schema.size} {d : Int64}
    {arm : UnionArm schema.size} (h : u.select d = some arm) :
    readArm schema src readType typeName false u d = (do
      let v ← readValue schema src readType arm.member.name arm.member.type
      return some (arm.member.name, v)) := by
  simp only [readArm, h]
  rfl

end

section

variable {schema : Schema} {src : Source} {readType : String → Fin schema.size → ReadM Value}
  {typeName : String} {u : UnionType schema.size} {d : Int64} {framed : Bool} {c after : Cursor}

/-- The body of a union that is not at its end has a discriminator and maybe an arm. -/
theorem run_readUnionBody_more (hmore : (framed && decide (c.stop ≤ c.position)) = false) :
    (readUnionBody schema src readType typeName u framed).run c = (do
      let disc ← readValue schema src readType u.discriminator.name u.discriminator.type
      match discriminatorOf? disc with
      | some d =>
        let arm ← readArm schema src readType typeName framed u d
        return .union d arm
      | none => throw (.mismatch u.discriminator.name "discriminator" disc.kindName) :
        ReadM Value).run c := by
  unfold readUnionBody
  rw [EStateM.run_bind, run_atEnd]
  dsimp only
  rw [hmore]
  rfl

theorem run_readUnionBody_ended (hended : framed = true ∧ c.stop ≤ c.position) :
    (readUnionBody schema src readType typeName u framed).run c = .ok (.union 0 none) c := by
  unfold readUnionBody
  rw [EStateM.run_bind, run_atEnd]
  dsimp only
  rw [if_pos (bodyEnded_iff.2 hended)]
  rfl

/-- Behind its discriminator the body of a union goes on with the arm. -/
theorem run_readUnionBody_arm (hmore : ¬(framed = true ∧ c.stop ≤ c.position)) {disc : Value}
    (hread : (readValue schema src readType u.discriminator.name u.discriminator.type).run c =
      .ok disc after) (hknown : discriminatorOf? disc = some d) :
    (readUnionBody schema src readType typeName u framed).run c =
      (do
        let arm ← readArm schema src readType typeName framed u d
        return .union d arm : ReadM Value).run after := by
  rw [run_readUnionBody_more (Bool.eq_false_iff.2 (bodyEnded_iff.not.2 hmore)), EStateM.run_bind,
    hread]
  simp only [hknown]

theorem run_readArm_more {arm : UnionArm schema.size} (hselect : u.select d = some arm)
    (hmore : ¬(framed = true ∧ c.stop ≤ c.position)) :
    (readArm schema src readType typeName framed u d).run c = (do
      let v ← readValue schema src readType arm.member.name arm.member.type
      return some (arm.member.name, v)).run c := by
  simp only [readArm, hselect]
  rw [EStateM.run_bind, run_atEnd]
  dsimp only
  rw [if_neg (bodyEnded_iff.not.2 hmore)]

end

/-! ## Declared types -/

section

variable {schema : Schema} {src : Source} {levels : Nat} {field : String} {j : Fin schema.size}

theorem readType_struct {s : StructType schema.size} (hbody : (schema.get j).body = .struct s) :
    readType schema src (levels + 1) field j =
      inFrame src (schema.get j).full (schema.get j).extensibility fun framed => do
        let fields ← readMembers schema src (readType schema src levels) framed s.wireMembers []
        return .struct fields := by
  simp only [readType, hbody, readStruct_eq]

theorem readType_union {u : UnionType schema.size} (hbody : (schema.get j).body = .union u) :
    readType schema src (levels + 1) field j =
      inFrame src (schema.get j).full (schema.get j).extensibility
        (readUnionBody schema src (readType schema src levels) (schema.get j).full u) := by
  simp only [readType, hbody, readUnion_eq]

end

namespace Source

variable {src : Source} {field : String} {c after : Cursor}

theorem take_eq_ok {size : Nat} {bytes : List UInt8}
    (h : (src.take field size).run c = .ok bytes after) :
    bytes = (src.bytes.extract c.position (c.position + size)).toList ∧
      after.position = c.position + size := by
  rcases Nat.lt_or_ge c.remaining size with hlt | hge
  · rw [run_take_of_lt src field hlt] at h
    cases h
  · rcases run_take_of_le src field hge with ⟨limit, highWater, hrun⟩ | hrun
    · rw [hrun] at h
      cases h
      exact ⟨rfl, rfl⟩
    · rw [hrun] at h
      cases h

/-- A word is what the four bytes behind the next boundary hold. -/
theorem word_eq_ok {n : Nat} (h : (src.word field).run c = .ok n after) :
    let start := c.position + padding (src.origin + c.position) 4
    n = src.encoding.order.decode (src.bytes.extract start (start + 4)).toList ∧
      after.position = start + 4 := by
  unfold word at h
  rw [EStateM.run_bind, Encoding.alignmentOf_uint32] at h
  cases hpad : (src.skipPadding field 4).run c with
  | error fault mid =>
    rw [hpad] at h
    cases h
  | ok _ mid =>
    simp only [hpad, EStateM.run_bind] at h
    have hmid : mid.position = c.position + padding (src.origin + c.position) 4 := by
      simp only [skipPadding, EStateM.run_bind, EStateM.run_get] at hpad
      cases htake : (src.take field (padding (src.origin + c.position) 4)).run c with
      | error fault last =>
        rw [htake] at hpad
        cases hpad
      | ok bytes last =>
        rw [htake] at hpad
        cases hpad
        exact (take_eq_ok htake).2
    cases htake : (src.take field Primitive.uint32.size).run mid with
    | error fault last =>
      rw [htake] at h
      cases h
    | ok bytes last =>
      rw [htake] at h
      cases h
      obtain ⟨rfl, hposition⟩ := take_eq_ok htake
      rw [hmid] at hposition ⊢
      exact ⟨rfl, hposition⟩

end Source

/-- A body that is left ends where its frame does, whatever of it was read, and the end around the
    frame is put back. -/
theorem run_closeFrame_eq_ok {typeName : String} {frame : Frame} {c final : Cursor}
    (hrun : (closeFrame typeName (some frame)).run c = .ok () final) :
    final.position = frame.stop ∧ final.stop = frame.outerStop := by
  simp only [closeFrame, EStateM.run_bind, EStateM.run_get] at hrun
  split at hrun
  next => cases hrun
  next hreached =>
    split at hrun
    next hskip =>
      simp only [report, EStateM.run_bind, EStateM.run_modify] at hrun
      rcases run_charge { c with
          position := frame.stop
          events := .skipped (frame.stop - c.position) typeName :: c.events } with
        ⟨limit, highWater, hcharge⟩ | hcharge
      · rw [hcharge] at hrun
        cases hrun
        exact ⟨rfl, rfl⟩
      · rw [hcharge] at hrun
        cases hrun
    next hskip =>
      cases hrun
      exact ⟨Nat.le_antisymm (Nat.le_of_not_lt hreached) (Nat.le_of_not_lt hskip), rfl⟩

/-- A framed body ends as far behind its length as this announces. -/
theorem run_inFrame_eq_ok {α : Type} {src : Source} {typeName : String}
    {extensibility : Extensibility} {body : Bool → ReadM α}
    (hframed : src.encoding.repr.isDelimited extensibility = true) {c final : Cursor} {a : α}
    (hrun : (inFrame src typeName extensibility body).run c = .ok a final) :
    ∃ length mid last, (src.word typeName).run c = .ok length mid ∧ length ≤ mid.remaining ∧
      (body true).run { mid with stop := mid.position + length, owner := some typeName } =
        .ok a last ∧
      (closeFrame typeName (some ⟨mid.position + length, mid.stop, mid.owner⟩)).run last =
        .ok () final := by
  unfold inFrame at hrun
  rw [openFrame_of_delimited hframed] at hrun
  cases hword : (src.word typeName).run c with
  | error fault after =>
    simp only [EStateM.run_bind, hword] at hrun
    cases hrun
  | ok length mid =>
    by_cases hroom : mid.remaining < length
    · simp only [EStateM.run_bind, hword, EStateM.run_get, if_pos hroom] at hrun
      cases hrun
    · simp only [EStateM.run_bind, hword, EStateM.run_get, if_neg hroom, EStateM.run_set,
        EStateM.run_pure, Option.isSome_some] at hrun
      cases hbody : (body true).run
          { mid with stop := mid.position + length, owner := some typeName } with
      | error fault last =>
        rw [hbody] at hrun
        cases hrun
      | ok b last =>
        rw [hbody] at hrun
        cases hclose : (closeFrame typeName
            (some ⟨mid.position + length, mid.stop, mid.owner⟩)).run last with
        | error fault after =>
          simp only [hclose] at hrun
          cases hrun
        | ok _ after =>
          simp only [hclose] at hrun
          cases hrun
          exact ⟨length, mid, last, rfl, Nat.le_of_not_lt hroom, hbody, hclose⟩

end Cdr
