import Cdr.Proofs.Boundaries
import Cdr.Proofs.Evolution
import Mathlib

/-! # Readers that know some of the members

Members that are not optional have no ids on the wire. A reader that knows only some of the members
of a struct reads on from the last one that it knew, and finds the next one where the bytes in
between leave this in its place: they are behind all that it knows, or take up no more than the
padding that stands there anyway.
-/

namespace Cdr

open Image ReadM

namespace StructType

variable {n k : Nat}

theorem insertById_of_lt {m : Member n} {ms : List (Member n)} (h : ∀ a ∈ ms, m.id < a.id) :
    insertById m ms = m :: ms := by
  cases ms with
  | nil => rfl
  | cons a rest => rw [insertById, if_pos (h a List.mem_cons_self)]

/-- Members that are dropped leave the others in their order. -/
theorem filter_insertById (keep : Member n → Bool) (m : Member n) {ms : List (Member n)}
    (hsorted : ms.Pairwise fun a b => a.id ≤ b.id) :
    (insertById m ms).filter keep =
      if keep m then insertById m (ms.filter keep) else ms.filter keep := by
  induction ms with
  | nil => cases h : keep m <;> simp [insertById, h]
  | cons a rest ih =>
    obtain ⟨ha, hrest⟩ := List.pairwise_cons.1 hsorted
    rw [insertById]
    split
    next hlt =>
      have hbehind : ∀ b ∈ (a :: rest).filter keep, m.id < b.id := by
        intro b hb
        rcases List.mem_cons.1 (List.mem_filter.1 hb).1 with rfl | hb
        · exact hlt
        · exact UInt32.lt_of_lt_of_le hlt (ha b hb)
      rw [insertById_of_lt hbehind, List.filter_cons]
    next hge =>
      rw [List.filter_cons, List.filter_cons, ih hrest]
      cases keep a with
      | false => simp
      | true =>
        simp only [if_true, insertById, if_neg hge]
        split <;> rfl

theorem filter_wireMembers (keep : Member n → Bool) (s : StructType n) :
    s.wireMembers.filter keep = wireMembers ⟨s.members.filter keep⟩ := by
  have hstep : ∀ (ms sorted : List (Member n)), sorted.Pairwise (fun a b => a.id ≤ b.id) →
      (ms.foldl (fun sorted m => insertById m sorted) sorted).filter keep =
        (ms.filter keep).foldl (fun sorted m => insertById m sorted) (sorted.filter keep) := by
    intro ms
    induction ms with
    | nil => intro sorted _; rfl
    | cons m rest ih =>
      intro sorted hsorted
      rw [List.foldl_cons, ih _ (sorted_insertById m hsorted), filter_insertById keep m hsorted,
        List.filter_cons]
      split <;> rfl
  exact hstep s.members [] .nil

theorem forall₂_insertById {Meets : Fin n → Fin k → Prop} {m : Member n} {m' : Member k}
    (hm : m.Corresponds Meets m') {ms : List (Member n)} {ms' : List (Member k)}
    (h : List.Forall₂ (Member.Corresponds Meets) ms ms') :
    List.Forall₂ (Member.Corresponds Meets) (insertById m ms) (insertById m' ms') := by
  induction h with
  | nil => exact .cons hm .nil
  | cons ha hrest ih =>
    simp only [insertById, hm.id, ha.id]
    split
    · exact .cons hm (.cons ha hrest)
    · exact .cons ha ih

/-- Members that correspond as they are declared do so on the wire. -/
theorem forall₂_wireMembers {Meets : Fin n → Fin k → Prop} {s : StructType n} {s' : StructType k}
    (h : List.Forall₂ (Member.Corresponds Meets) s.members s'.members) :
    List.Forall₂ (Member.Corresponds Meets) s.wireMembers s'.wireMembers :=
  List.rel_foldl (P := List.Forall₂ (Member.Corresponds Meets))
    (fun _ _ hsorted _ _ hm => forall₂_insertById hm hsorted) .nil h

end StructType

namespace Schema

section

variable (schema : Schema) (e : Encoding) (levels : Nat) (keep : Member schema.size → Bool)
  (typeName : String) (fields : Entries Value) (stop : Nat)

/-- What is asked of the members of a struct for a reader that knows those in `keep`. It stands at
    `place` where the next one is written at `x`, as it does not pass over those that it does not
    know. The padding in front of a member that it knows has to lead to one place from both, and the
    value to leave no doubt. -/
def membersFindable : List (Member schema.size) → Nat → Nat → Prop
  | [], _, _ => True
  | m :: rest, place, x =>
    ∀ b, memberImage schema e (typeImage schema e levels) typeName fields m x = .ok b →
      if keep m then
        let boundary := m.type.boundaryWith e (schema.boundaryWithin e levels)
        place + padding place boundary = x + padding x boundary ∧
          (∀ v ∈ fields.get? m.name, valueDemand schema e (typeImage schema e levels)
            (typeDemand schema e levels) m.name m.type v x stop) ∧
          membersFindable rest (x + b.length) (x + b.length)
      else membersFindable rest place (x + b.length)

instance decidableMembersFindable : (ms : List (Member schema.size)) → (place x : Nat) →
    Decidable (membersFindable schema e levels keep typeName fields stop ms place x)
  | [], _, _ => inferInstanceAs (Decidable True)
  | m :: rest, place, x =>
    have := decidableMembersFindable rest
    inferInstanceAs (Decidable (∀ b,
      memberImage schema e (typeImage schema e levels) typeName fields m x = .ok b →
        if keep m then
          place + padding place (m.type.boundaryWith e (schema.boundaryWithin e levels)) =
              x + padding x (m.type.boundaryWith e (schema.boundaryWithin e levels)) ∧
            (∀ v ∈ fields.get? m.name, valueDemand schema e (typeImage schema e levels)
              (typeDemand schema e levels) m.name m.type v x stop) ∧
            membersFindable schema e levels keep typeName fields stop rest (x + b.length)
              (x + b.length)
        else membersFindable schema e levels keep typeName fields stop rest place (x + b.length)))

end

/-- Whether a reader that knows those members of a struct that are in `keep` finds them in the bytes
    of a value. -/
def Findable (schema : Schema) (e : Encoding) (keep : Member schema.size → Bool)
    (i : Fin schema.size) (v : Value) (offset : Nat) : Prop :=
  let t := schema.get i
  let levels := maxDepth - 1
  match t.body, v with
  | .struct s, .struct fields =>
    Entries.Sorted fields ∧ ∀ b, schema.image e i v offset = .ok b →
      Demand.delimited e t.extensibility
        (Image.each (memberImage schema e (typeImage schema e levels) t.full fields) s.wireMembers)
        (fun x stop => membersFindable schema e levels keep t.full fields stop s.wireMembers x x)
        offset (offset + b.length)
  | _, _ => False

instance decidableFindable (schema : Schema) (e : Encoding) (keep : Member schema.size → Bool)
    (i : Fin schema.size) (v : Value) (offset : Nat) :
    Decidable (schema.Findable e keep i v offset) :=
  match h : (schema.get i).body, v with
  | .struct s, .struct fields =>
    decidable_of_iff (Entries.Sorted fields ∧ ∀ b,
      schema.image e i (.struct fields) offset = .ok b →
        Demand.delimited e (schema.get i).extensibility
          (Image.each (memberImage schema e (typeImage schema e (maxDepth - 1)) (schema.get i).full
            fields) s.wireMembers)
          (fun x stop => membersFindable schema e (maxDepth - 1) keep (schema.get i).full fields
            stop s.wireMembers x x) offset (offset + b.length)) (by simp only [Findable, h])
  | .struct _, .scalar _ | .struct _, .string _ | .struct _, .enumeration _
  | .struct _, .sequence _ | .struct _, .union _ _ | .union _, _ | .enumeration _, _ =>
    .isFalse (by simp only [Findable, h, not_false_eq_true])

/-- Which types of a schema are also those of another one. -/
structure Matches (schema other : Schema) (Meets : Fin schema.size → Fin other.size → Prop) :
    Prop where
  delimited : ∀ i j, Meets i j →
    Representation.xcdr2.isDelimited (other.get j).extensibility =
      Representation.xcdr2.isDelimited (schema.get i).extensibility
  body : ∀ i j, Meets i j → (schema.get i).body.Evolves Meets false (other.get j).body

/-- Values of types that are those of another schema are read there as they are. -/
def Matches.crossing {schema other : Schema} {Meets : Fin schema.size → Fin other.size → Prop}
    (h : schema.Matches other Meets) : Crossing .xcdr2 schema other where
  Meets := Meets
  view := fun _ _ v => v
  delimited := h.delimited _ _
  struct := by
    intro i j s hmeets hbody
    have hsame := h.body i j hmeets
    rw [hbody] at hsame
    generalize hbody' : (other.get j).body = body at hsame
    cases hsame with
    | @struct _ s' common extras hwire hcommon hbare =>
      obtain rfl := hbare rfl
      rw [List.append_nil] at hwire
      subst hwire
      refine ⟨s', s.wireMembers, [], s'.wireMembers, [], rfl, ?_, ?_⟩
      · exact ⟨(List.append_nil _).symm, (List.append_nil _).symm, hcommon, .inl rfl,
          fun _ => ⟨rfl, rfl⟩⟩
      · intro levels fields hsorted hnames _
        refine ⟨fields, rfl, hsorted, ?_, ?_, nofun⟩
        · intro name hname
          obtain ⟨m, hm, rfl⟩ := List.mem_map.1 (hnames name hname)
          obtain ⟨m', hm', hcorresponds⟩ :=
            exists_right_of_mem hcommon (s.perm_wireMembers.mem_iff.2 hm)
          rw [List.append_nil]
          exact List.mem_map.2 ⟨m', hm', hcorresponds.name⟩
        · exact fun m _ => (m.type.map_mapWith_id _).symm
  union := by
    intro i j u hmeets hbody
    have hsame := h.body i j hmeets
    rw [hbody] at hsame
    generalize hbody' : (other.get j).body = body at hsame
    cases hsame with
    | @union _ u' hu =>
      refine ⟨u', rfl, hu, fun _ _ => rfl, ?_⟩
      intro levels d name v arm hselect
      rw [MemberType.mapWith_id]
  enumeration := by
    intro i j e hmeets hbody
    have hsame := h.body i j hmeets
    rw [hbody] at hsame
    generalize hbody' : (other.get j).body = body at hsame
    cases hsame
    exact ⟨⟨e, rfl⟩, fun _ _ => rfl⟩

end Schema

section

variable {writer reader : Schema} {src : Source}
  {across : Crossing src.encoding.repr writer reader} {levels : Nat} {c d : Cursor}
  {b : List UInt8} (hstop : d.stop = c.stop) (hplace : d.position ≤ c.position)
  (hlimit : d.limit = .infinite)

include hstop hplace hlimit

/-- A member is read from a place before its own with the same boundary in front of it, and both
    readers go on from one place. -/
theorem run_known_member {m : Member writer.size} {m' : Member reader.size}
    (hm : m.Corresponds across.Meets m') (halways : m'.optional = false) {v : Value}
    (himage : valueImage writer src.encoding (typeImage writer src.encoding levels) m.name m.type v
      (src.origin + c.position) = .ok b)
    (hdemand : valueDemand writer src.encoding (typeImage writer src.encoding levels)
      (typeDemand writer src.encoding levels) m.name m.type v (src.origin + c.position)
      (src.origin + c.stop))
    (hboundary :
      let boundary := m.type.boundaryWith src.encoding (writer.boundaryWithin src.encoding levels)
      src.origin + d.position + padding (src.origin + d.position) boundary =
        src.origin + c.position + padding (src.origin + c.position) boundary)
    (hholds : c.Holds src b) (rest : List (Member reader.size)) (acc : Entries Value) :
    ∃ after after', c.Moved b.length after ∧ after.Alike src.bytes.size after' ∧
      (readMembers reader src (readType reader src levels) true (m' :: rest) acc).run d =
        (readMembers reader src (readType reader src levels) true rest
          (acc.insert m'.name (m'.type.mapWith (across.view levels) v))).run after' := by
  rw [typeDemand_eq] at hdemand
  have hsound := hholds.sound
  by_cases hended : (true && decide (d.stop ≤ d.position)) = true
  · -- What the body does not reach has no bytes.
    have hend : d.stop ≤ d.position := of_decide_eq_true (Bool.and_eq_true_iff.1 hended).2
    have hsame : d.position = c.position :=
      Nat.le_antisymm hplace (Nat.le_trans hsound.position_le (hstop ▸ hend))
    obtain ⟨-, rfl⟩ := hholds.of_ended (hsame ▸ hstop ▸ hended)
    refine ⟨c, d, .refl c, ⟨⟨hsame, hholds.unlimited, hlimit⟩, hstop, hsound.position_le,
      hsound.stop_le⟩, ?_⟩
    rw [run_readMembers_ended hended, halways, default_of_no_bytes across hm.type himage hdemand]
    rfl
  · have hlevel : c.Level src
        (m'.type.boundaryWith src.encoding (reader.boundaryWithin src.encoding levels)) d := by
      rw [hm.type.boundaryWith_eq (across.boundaryWithin_eq levels)]
      exact ⟨hsound, by simp only [] at hboundary; omega, hstop, hholds.unlimited, hlimit⟩
    rw [← hm.name] at himage hdemand
    obtain ⟨after, hrun, hmoved⟩ :=
      reads_value (reads_type src across (announced_tells src across) levels) hm.type himage hdemand
        hholds
    obtain ⟨after', hrun', halike⟩ :=
      steady_readValue (steady_readType reader src levels) m'.name m'.type c d _ after hlevel hrun
    refine ⟨after, after', hmoved, halike, ?_⟩
    rw [run_readMembers_more hended, halways, if_neg Bool.false_ne_true, EStateM.run_bind, hrun']

/-- A reader finds the members that it knows among those that are written. The induction is on the
    latter: those that it does not know move the place where the writer stands, and not its own. -/
theorem run_known_members {keep : Member writer.size → Bool} {typeName : String}
    {fields out : Entries Value} {ms : List (Member writer.size)}
    {known : List (Member reader.size)}
    (hknown : List.Forall₂ (Member.Corresponds across.Meets) (ms.filter keep) known)
    (hrequired : ∀ m ∈ ms, m.optional = false)
    (hshown : ∀ m ∈ known,
      out.get? m.name = (fields.get? m.name).map (m.type.mapWith (across.view levels)))
    (acc : Entries Value)
    (himage : Image.each (memberImage writer src.encoding (typeImage writer src.encoding levels)
      typeName fields) ms (src.origin + c.position) = .ok b)
    (hfindable : Schema.membersFindable writer src.encoding levels keep typeName fields
      (src.origin + c.stop) ms (src.origin + d.position) (src.origin + c.position))
    (hholds : c.Holds src b) :
    ∃ last, (readMembers reader src (readType reader src levels) true known acc).run d =
      .ok (Entries.insertAll (present out known) acc) last ∧ last.limit = .infinite := by
  induction ms generalizing known acc c d b with
  | nil =>
    cases hknown
    exact ⟨d, rfl, hlimit⟩
  | cons m rest ih =>
    obtain ⟨first, others, hfirst, hothers, rfl⟩ := andThen_eq_ok himage
    have hasked := hfindable first hfirst
    have halways := hrequired m List.mem_cons_self
    have hrest := fun m hm => hrequired m (List.mem_cons_of_mem _ hm)
    cases hkeep : keep m with
    | false =>
      obtain ⟨beyond, hmoved⟩ : ∃ beyond, c.Moved first.length beyond :=
        ⟨{ c with position := c.position + first.length }, rfl, rfl, rfl, rfl⟩
      have hbehind : d.position ≤ beyond.position := by
        rw [hmoved.position]
        exact Nat.le_trans hplace (Nat.le_add_right _ _)
      rw [hkeep, if_neg Bool.false_ne_true, hmoved.from_origin, ← hmoved.stop] at hasked
      rw [hmoved.from_origin] at hothers
      rw [List.filter_cons_of_neg (by simp [hkeep])] at hknown
      exact ih (hstop.trans hmoved.stop.symm) hbehind hlimit hknown hrest hshown acc hothers hasked
        (hholds.right hmoved)
    | true =>
      rw [hkeep, if_pos rfl] at hasked
      obtain ⟨hboundary, hvalue, hasked⟩ := hasked
      rw [List.filter_cons_of_pos hkeep] at hknown
      cases hknown with
      | @cons _ m' _ known hm hknown =>
        obtain ⟨v, hget, hmember⟩ : ∃ v, fields.get? m.name = some v ∧ valueImage writer
            src.encoding (typeImage writer src.encoding levels) m.name m.type v
              (src.origin + c.position) = .ok first := by
          rcases memberImage_eq_ok hfirst with ⟨-, hoptional, -⟩ | ⟨v, hget, -, hmember⟩ |
            ⟨v, inner, -, hoptional, -⟩
          · rw [halways] at hoptional
            cases hoptional
          · exact ⟨v, hget, hmember⟩
          · rw [halways] at hoptional
            cases hoptional
        have hshow := hshown m' List.mem_cons_self
        rw [hm.name, hget, Option.map_some, ← hm.name] at hshow
        obtain ⟨after, after', hmoved, halike, hrun⟩ := run_known_member hstop hplace hlimit hm
          (hm.optional.trans halways) hmember (hvalue v hget) hboundary hholds.left known acc
        have hshown := fun m hm => hshown m (List.mem_cons_of_mem _ hm)
        rw [hmoved.from_origin] at hothers hasked
        rw [← hmoved.stop] at hasked
        rw [hrun, present_cons_some hshow]
        refine ih halike.stop (Nat.le_of_eq halike.position) halike.right hknown hrest hshown _
          hothers ?_ (hholds.right hmoved)
        rw [halike.position]
        exact hasked

omit hstop hplace hlimit

/-- A reader of a framed struct comes to the members that it knows, and leaves the frame from
    wherever it has found the last one. -/
theorem reads_known_struct (field : String) {i : Fin writer.size} {j : Fin reader.size}
    {s : StructType writer.size} {s' : StructType reader.size}
    (hbody : (reader.get j).body = .struct s')
    (hframed : src.encoding.repr.isDelimited (writer.get i).extensibility = true)
    (hframed' : src.encoding.repr.isDelimited (reader.get j).extensibility = true)
    {keep : Member writer.size → Bool}
    (hknown : List.Forall₂ (Member.Corresponds across.Meets) (s.wireMembers.filter keep)
      s'.wireMembers)
    (hrequired : ∀ m ∈ s.wireMembers, m.optional = false) {fields out : Entries Value}
    (hshows : reader.Shows (across.view levels) s'.wireMembers [] fields out)
    (himage : src.encoding.delimitedImage (writer.get i).extensibility
      (Image.each (memberImage writer src.encoding (typeImage writer src.encoding levels)
        (writer.get i).full fields) s.wireMembers) (src.origin + c.position) = .ok b)
    (hfindable : Demand.delimited src.encoding (writer.get i).extensibility
      (Image.each (memberImage writer src.encoding (typeImage writer src.encoding levels)
        (writer.get i).full fields) s.wireMembers)
      (fun x stop => Schema.membersFindable writer src.encoding levels keep (writer.get i).full
        fields stop s.wireMembers x x) (src.origin + c.position) (src.origin + c.stop)) :
    Reads src (readType reader src (levels + 1) field j) c b (.struct out) := by
  intro hholds
  obtain ⟨frame, inner, after, hopen, hinner, henters, hasks⟩ :=
    run_frame (reader.get j).full (hframed'.trans hframed.symm) himage hholds
  have hbytes := henters.holds
  have hframe : frame.isSome = true := henters.opened.trans hframed
  obtain ⟨last, hmembers, hunlimited⟩ := run_known_members rfl (Nat.le_refl _) hbytes.unlimited
    hknown hrequired hshows.common [] hinner ((hasks _).1 hfindable) hbytes
  have hnames := hshows.names
  rw [List.append_nil] at hnames
  rw [insertAll_present hshows.sorted hnames] at hmembers
  obtain ⟨hsound, hle, hstop, howner⟩ :=
    (keeps_readMembers (keeps_readType reader src levels) true s'.wireMembers []
      hbytes.sound).of_ok hmembers
  have hwithin := hsound.position_le
  rw [hstop, henters.stop hframed] at hwithin
  have hmoved : after.Moved (last.position - after.position) last :=
    ⟨by omega, hstop, howner, hunlimited.trans hbytes.unlimited.symm⟩
  obtain ⟨final, hclose, hbehind⟩ := henters.leave _ last hmoved (by omega)
    fun hbare => absurd (hframed.symm.trans hbare) (by decide)
  refine ⟨final, ?_, hbehind⟩
  simp only [readType, hbody, readStruct, EStateM.run_bind, hopen, hframe, hmembers, hclose]
  rfl

end

namespace Schema

/-- What has an image as a struct is the image of its members, in a frame where the type has one. -/
theorem struct_of_image {schema : Schema} {e : Encoding} {i : Fin schema.size}
    {s : StructType schema.size} (hbody : (schema.get i).body = .struct s) {v : Value}
    {offset : Nat} {b : List UInt8} (himage : schema.image e i v offset = .ok b) :
    ∃ fields : Entries Value, v = .struct fields ∧ e.delimitedImage (schema.get i).extensibility
      (Image.each (memberImage schema e (typeImage schema e (maxDepth - 1)) (schema.get i).full
        fields) s.wireMembers) offset = .ok b := by
  have htype : typeImage schema e (maxDepth - 1 + 1) "" i v offset = .ok b := himage
  rcases typeImage_eq_ok htype with ⟨s', fields, hbody', rfl, hstruct⟩ | ⟨u, d, arm, hbody', -⟩ |
    ⟨enum, n, hbody', -⟩
  · rw [hbody] at hbody'
    cases hbody'
    exact ⟨fields, rfl, hstruct⟩
  · rw [hbody] at hbody'
    cases hbody'
  · rw [hbody] at hbody'
    cases hbody'

/-- What is written of a framed struct without optional members is decoded under a schema that knows
    some of the members as these have it, where they are found. All the bytes are taken. -/
theorem decode_of_known_members {newer older : Schema}
    {Meets : Fin newer.size → Fin older.size → Prop} (h : newer.Matches older Meets)
    {j : Fin newer.size} {i : Fin older.size} {s : StructType newer.size}
    {s' : StructType older.size} (hbody : (newer.get j).body = .struct s)
    (hbody' : (older.get i).body = .struct s')
    (hframed : Representation.xcdr2.isDelimited (newer.get j).extensibility = true)
    (hframed' : Representation.xcdr2.isDelimited (older.get i).extensibility = true)
    (hrequired : ∀ m ∈ s.members, m.optional = false) {keep : Member newer.size → Bool}
    (hkept : List.Forall₂ (Member.Corresponds Meets) (s.members.filter keep) s'.members)
    (order : ByteOrder) (offset : Nat) {v : Value} {n : Nat} {sink : Sink}
    (hwritten : newer.encode ⟨.xcdr2, order⟩ (.appendingTo #[]) j v offset = (.ok n, sink))
    (hfindable : newer.Findable ⟨.xcdr2, order⟩ keep j v offset) :
    ∃ fields : Entries Value, v = .struct fields ∧ n = sink.bytes.size ∧
      (older.decode ⟨sink.bytes, ⟨.xcdr2, order⟩, offset⟩ i .infinite).result =
        .ok (.struct (known s' fields), n) ∧
      ∀ m ∈ s'.members, ∃ w, fields.get? m.name = some w ∧
        (known s' fields).get? m.name = some w := by
  obtain ⟨b, himage, rfl, hbytes⟩ := newer.image_of_encode _ j v hwritten
  obtain ⟨fields, rfl, hstruct⟩ := struct_of_image hbody himage
  simp only [Findable, hbody] at hfindable
  obtain ⟨hsorted, hfindable⟩ := hfindable
  have hfound : ∀ m ∈ s'.members, (known s' fields).get? m.name = fields.get? m.name :=
    fun m hm => get?_known hm
  rw [hbytes]
  refine ⟨fields, rfl, rfl, ?_, ?_⟩
  · let src : Source := ⟨b.toArray, ⟨.xcdr2, order⟩, offset⟩
    let across : Crossing src.encoding.repr newer older := h.crossing
    have hknown : List.Forall₂ (Member.Corresponds across.Meets) (s.wireMembers.filter keep)
        s'.wireMembers := by
      rw [s.filter_wireMembers]
      exact StructType.forall₂_wireMembers hkept
    have hshows : older.Shows (across.view (maxDepth - 1)) s'.wireMembers [] fields
        (known s' fields) := by
      refine ⟨sorted_known s' hsorted, fun name hname => ?_, fun m hm => ?_, nofun⟩
      · rw [List.append_nil]
        exact names_known hname
      · rw [hfound m (s'.perm_wireMembers.mem_iff.1 hm)]
        exact (m.type.map_mapWith_id _).symm
    exact decode_of_reads (reads_known_struct "" (c := src.start .infinite) hbody' hframed hframed'
      hknown (fun m hm => hrequired m (s.perm_wireMembers.mem_iff.1 hm)) hshows hstruct
      (hfindable b himage))
  · intro m hm
    obtain ⟨m₀, hm₀, hcorresponds⟩ := exists_left_of_mem hkept hm
    have hmem := (List.mem_filter.1 hm₀).1
    have hsome : (fields.get? m₀.name).isSome := by
      have hwire := s.perm_wireMembers.mem_iff.2 hmem
      rcases Encoding.delimitedImage_eq_ok hstruct with ⟨-, hinner⟩ | ⟨-, inner, hinner, -⟩
      · exact isSome_of_image hinner m₀ hwire (hrequired m₀ hmem)
      · exact isSome_of_image hinner m₀ hwire (hrequired m₀ hmem)
    obtain ⟨w, hget⟩ := Option.isSome_iff_exists.1 hsome
    rw [← hcorresponds.name] at hget
    exact ⟨w, hget, (hfound m hm).trans hget⟩

end Schema

/-- The types of a document without the fields of some names. -/
def Document.without (doc : Document) (names : List String) : Document :=
  ⟨doc.types.map fun t => { t with fields := t.fields.filter fun f => f.name ∉ names }⟩

namespace Schema

/-- A measurement, of which the flags and the note may be unknown. -/
def measurementDoc : Document where
  types := [
    TypeDecl.enumeration "Unit" ["CELSIUS", "KELVIN"],
    { name := "Measurement"
      scope := ""
      extensibility := .mutable
      fields := [(FieldDecl.new "kind" "int8").withId 0, (FieldDecl.new "flags" "uint8").withId 1,
        (FieldDecl.new "unit" "Unit").withId 2, (FieldDecl.new "note" "string").withId 9] }]

def measurement : Schema where
  size := 2
  types := #v[
    { name := "Unit"
      scope := ""
      extensibility := .final
      layout := .enumeration
      body := .enumeration ⟨[("CELSIUS", 0), ("KELVIN", 1)]⟩ },
    { name := "Measurement"
      scope := ""
      extensibility := .mutable
      layout := .struct [("kind", ⟨1, 1⟩), ("flags", ⟨1, 1⟩), ("unit", ⟨4, 4⟩), ("note", .pointer)]
      body := .struct ⟨[⟨"kind", 0, .primitive .int8, false, false⟩,
        ⟨"flags", 1, .primitive .octet, false, false⟩,
        ⟨"unit", 2, .type ⟨0, Nat.zero_lt_two⟩, false, false⟩,
        ⟨"note", 9, .string none, false, false⟩]⟩ }]

def plainMeasurement : Schema where
  size := 2
  types := #v[
    { name := "Unit"
      scope := ""
      extensibility := .final
      layout := .enumeration
      body := .enumeration ⟨[("CELSIUS", 0), ("KELVIN", 1)]⟩ },
    { name := "Measurement"
      scope := ""
      extensibility := .mutable
      layout := .struct [("kind", ⟨1, 1⟩), ("unit", ⟨4, 4⟩)]
      body := .struct ⟨[⟨"kind", 0, .primitive .int8, false, false⟩,
        ⟨"unit", 2, .type ⟨0, Nat.zero_lt_two⟩, false, false⟩]⟩ }]

theorem measurement_matches :
    measurement.Matches plainMeasurement fun i j => i.val = 0 ∧ j.val = 0 where
  delimited := by decide
  body := by
    rintro ⟨i, hi⟩ ⟨j, hj⟩ ⟨rfl, rfl⟩
    exact .enumeration _

/-- The flags stand where there is padding in front of the unit, and the note behind all that is
    known. -/
theorem decode_of_known_members_measurement :
    measurementDoc.compile = .ok measurement ∧
      (measurementDoc.without ["flags", "note"]).compile = .ok plainMeasurement ∧
      let e : Encoding := ⟨.xcdr2, .little⟩
      let newer : Fin measurement.size := ⟨1, by decide⟩
      let older : Fin plainMeasurement.size := ⟨1, by decide⟩
      let keep : Member measurement.size → Bool := fun m => m.name ∉ ["flags", "note"]
      let v : Value := .struct [("flags", .scalar (.octet 2)), ("kind", .scalar (.int8 1)),
        ("note", .string "x"), ("unit", .enumeration 1)]
      let bytes : Array UInt8 := #[14, 0, 0, 0, 1, 2, 0, 0, 1, 0, 0, 0, 2, 0, 0, 0, 0x78, 0]
      measurement.encode e (.appendingTo #[]) newer v 0 = (.ok 18, .appendingTo bytes) ∧
        measurement.Findable e keep newer v 0 ∧
        (plainMeasurement.decode ⟨bytes, e, 0⟩ older .infinite).result =
          .ok (.struct [("kind", .scalar (.int8 1)), ("unit", .enumeration 1)], 18) := by
  refine ⟨by decide +kernel, by decide +kernel, ?_⟩
  intro e newer older keep v bytes
  have hwritten : measurement.encode e (.appendingTo #[]) newer v 0 =
      (.ok 18, .appendingTo bytes) := by decide +kernel
  have hfindable : measurement.Findable e keep newer v 0 := by decide +kernel
  obtain ⟨fields, hfields, -, hdecode, -⟩ :=
    decode_of_known_members measurement_matches (j := newer) (i := older) rfl rfl rfl rfl
      (by decide) (.cons ⟨rfl, rfl, rfl, .primitive .int8⟩
        (.cons ⟨rfl, rfl, rfl, .type ⟨rfl, rfl⟩⟩ .nil)) .little 0 hwritten hfindable
  obtain rfl := Value.struct.inj hfields
  exact ⟨hwritten, hfindable, hdecode⟩

/-- A span between two numbers. -/
def spanDoc : Document where
  types := [
    { name := "Span"
      scope := ""
      extensibility := .mutable
      fields := [(FieldDecl.new "low" "int32").withId 0,
        (FieldDecl.new "high" "int32").withId 1] }]

def span : Schema where
  size := 1
  types := #v[
    { name := "Span"
      scope := ""
      extensibility := .mutable
      layout := .struct [("low", ⟨4, 4⟩), ("high", ⟨4, 4⟩)]
      body := .struct ⟨[⟨"low", 0, .primitive .int32, false, false⟩,
        ⟨"high", 1, .primitive .int32, false, false⟩]⟩ }]

def openSpan : Schema where
  size := 1
  types := #v[
    { name := "Span"
      scope := ""
      extensibility := .mutable
      layout := .struct [("high", ⟨4, 4⟩)]
      body := .struct ⟨[⟨"high", 1, .primitive .int32, false, false⟩]⟩ }]

/-- A text of four bytes. -/
def codeDoc : Document where
  types := [
    { name := "Code"
      scope := ""
      extensibility := .mutable
      fields := [((FieldDecl.new "text" "string").fixedLength 4).withId 0] }]

def code : Schema where
  size := 1
  types := #v[
    { name := "Code"
      scope := ""
      extensibility := .mutable
      layout := .struct [("text", ⟨4, 1⟩)]
      body := .struct ⟨[⟨"text", 0, .fixedString 4, false, false⟩]⟩ }]

/-- A reader that does not know the lower end of a span takes it for the upper one. Where no member
    is unknown, a text of fixed length still ends at its first NUL. -/
theorem known_members_missed :
    let e : Encoding := ⟨.xcdr2, .little⟩
    (spanDoc.compile = .ok span ∧ (spanDoc.without ["low"]).compile = .ok openSpan ∧
      let newer : Fin span.size := ⟨0, by decide⟩
      let older : Fin openSpan.size := ⟨0, by decide⟩
      let v : Value := .struct [("high", .scalar (.int32 2)), ("low", .scalar (.int32 1))]
      let bytes : Array UInt8 := #[8, 0, 0, 0, 1, 0, 0, 0, 2, 0, 0, 0]
      span.Canonical e newer v 0 ∧
        span.encode e (.appendingTo #[]) newer v 0 = (.ok 12, .appendingTo bytes) ∧
        (openSpan.decode ⟨bytes, e, 0⟩ older .infinite).result =
          .ok (.struct [("high", .scalar (.int32 1))], 12) ∧
        (openSpan.decode ⟨bytes, e, 0⟩ older .infinite).result ≠
          .ok (.struct [("high", .scalar (.int32 2))], 12)) ∧
    (codeDoc.compile = .ok code ∧ (codeDoc.without []).compile = .ok code ∧
      let top : Fin code.size := ⟨0, by decide⟩
      let v : Value := .struct [("text", .string "a\x00b")]
      let bytes : Array UInt8 := #[4, 0, 0, 0, 0x61, 0, 0x62, 0]
      code.encode e (.appendingTo #[]) top v 0 = (.ok 8, .appendingTo bytes) ∧
        (code.decode ⟨bytes, e, 0⟩ top .infinite).result =
          .ok (.struct [("text", .string "a")], 8) ∧
        (code.decode ⟨bytes, e, 0⟩ top .infinite).result ≠ .ok (v, 8)) := by
  intro e
  refine ⟨⟨by decide +kernel, by decide +kernel, ?_⟩, by decide +kernel, by decide +kernel, ?_⟩
  · intro newer older v bytes
    have hread : (openSpan.decode ⟨bytes, e, 0⟩ older .infinite).result =
        .ok (.struct [("high", .scalar (.int32 1))], 12) := by cbv
    refine ⟨by decide +kernel, by decide +kernel, hread, ?_⟩
    intro hback
    rw [hread] at hback
    cases hback
  · intro top v bytes
    have hread : (code.decode ⟨bytes, e, 0⟩ top .infinite).result =
        .ok (.struct [("text", .string "a")], 8) := by cbv
    refine ⟨by decide +kernel, hread, ?_⟩
    intro hback
    rw [hread] at hback
    simp [v] at hback

end Schema

end Cdr
