import Cdr.Proofs.ReadBack

/-! # Reading across schemas

What a canonical value is written as under one schema is read under another one, which knows the
types of the first as its own: the reader comes to what the crossing makes of the value, and stands
behind its bytes then. Members that only the writer knows are skipped with the rest of their frame,
and members that only the reader knows take their defaults at the end of it.
-/

namespace Cdr

open Image ReadM

namespace ReadM

variable {α β : Type} {src : Source} {c : Cursor} {a b : List UInt8} {all : Prop}

/-- A read that comes to a value by the bytes in front of it, the first of them at least, and all of
    them when `all` says so. -/
def ReadsFront (src : Source) (m : ReadM α) (c : Cursor) (b : List UInt8) (all : Prop) (x : α) :
    Prop :=
  c.Holds src b → ∃ count after, m.run c = .ok x after ∧ c.Moved count after ∧ count ≤ b.length ∧
    (all → count = b.length)

theorem readsFront_bind {m : ReadM α} {k : α → ReadM β} {x : α} {y : β} (hm : Reads src m c a x)
    (hk : ∀ after, c.Moved a.length after → ReadsFront src (k x) after b all y) :
    ReadsFront src (m >>= k) c (a ++ b) all y := by
  intro hholds
  obtain ⟨after, hrun, hmoved⟩ := hm hholds.left
  obtain ⟨count, last, hlast, hmore, hle, hall⟩ := hk after hmoved (hholds.right hmoved)
  refine ⟨a.length + count, last, ?_, hmoved.trans hmore, ?_, ?_⟩
  · rw [EStateM.run_bind, hrun]
    exact hlast
  · rw [List.length_append]
    exact Nat.add_le_add_left hle a.length
  · intro h
    rw [List.length_append, hall h]

/-- A read that stays where it stands may look at all the bytes in front of it. -/
theorem readsFront_bind_stay {m : ReadM α} {k : α → ReadM β} {x : α} {y : β}
    (hm : c.Holds src b → ∃ after, m.run c = .ok x after ∧ c.Moved 0 after)
    (hk : ∀ after, c.Moved 0 after → ReadsFront src (k x) after b all y) :
    ReadsFront src (m >>= k) c b all y := by
  intro hholds
  obtain ⟨after, hrun, hmoved⟩ := hm hholds
  obtain ⟨count, last, hlast, hmore, hcount⟩ := hk after hmoved (hholds.congr hmoved)
  refine ⟨count, last, ?_, ?_, hcount⟩
  · rw [EStateM.run_bind, hrun]
    exact hlast
  · rw [← Nat.zero_add count]
    exact hmoved.trans hmore

end ReadM

/-- A struct with an image has an entry for each member that is always there. -/
theorem isSome_of_image {schema : Schema} {e : Encoding}
    {ofType : String → Fin schema.size → Value → Image} {typeName : String}
    {fields : Entries Value} {ms : List (Member schema.size)} {x : Nat} {b : List UInt8}
    (h : Image.each (memberImage schema e ofType typeName fields) ms x = .ok b) :
    ∀ m ∈ ms, m.optional = false → (fields.get? m.name).isSome := by
  induction ms generalizing x b with
  | nil => nofun
  | cons m rest ih =>
    obtain ⟨first, others, hfirst, hothers, -⟩ := andThen_eq_ok h
    intro other hmem halways
    rcases List.mem_cons.1 hmem with rfl | hmem
    · rcases memberImage_eq_ok hfirst with ⟨-, hoptional, -⟩ | ⟨v, hget, -, -⟩ |
        ⟨v, inner, hget, -, -, -, -⟩
      · rw [halways] at hoptional
        cases hoptional
      · rw [hget]
        rfl
      · rw [hget]
        rfl
    · exact ih hothers other hmem halways

/-- Nothing is asked of a discriminator. -/
theorem demand_discriminator {schema : Schema} {e : Encoding} {absence : Absence schema.size}
    {levels : Nat} {ofType : String → Fin schema.size → Value → Image} {m : Member schema.size}
    {d : Int64} {disc : Value} (h : discriminatorValue m d = .ok disc) {field : String}
    {x stop : Nat} :
    valueDemand schema e ofType (typeDemandBy schema e absence levels) field m.type disc x
      stop := by
  unfold discriminatorValue at h
  split at h
  next p htype =>
    rw [htype]
    trivial
  next i htype =>
    split at h
    next =>
      cases h
      rw [htype]
      cases levels with
      | zero => trivial
      | succ levels =>
        simp only [valueDemand, typeDemandBy]
        cases (schema.get i).body with
        | _ => trivial
    next => cases h
  next => cases h

/-- A discriminator is read as itself. -/
theorem view_discriminator {writer reader : Schema} {e : Encoding}
    (across : Crossing e.repr writer reader) {levels : Nat} {m : Member writer.size}
    {m' : Member reader.size} (hmeets : m.type.Corresponds across.Meets m'.type) {d : Int64}
    {disc : Value} (hdisc : discriminatorValue m d = .ok disc) {field : String} {x : Nat}
    {b : List UInt8} (himage : valueImage writer e (typeImage writer e levels) field m.type disc x =
      .ok b) : m'.type.mapWith (across.view levels) disc = disc := by
  unfold discriminatorValue at hdisc
  cases hm : m.type with
  | primitive p =>
    rw [hm] at hmeets
    generalize m'.type = t' at hmeets
    cases hmeets
    rfl
  | type i =>
    rw [hm] at hmeets hdisc himage
    generalize m'.type = t' at hmeets
    cases hmeets with
    | type hmeets =>
      simp only [] at hdisc
      split at hdisc
      next =>
        cases hdisc
        cases levels with
        | zero => cases himage
        | succ levels =>
          rcases typeImage_eq_ok himage with ⟨s, fields, -, hv, -⟩ | ⟨u, d, arm, -, hv, -⟩ |
            ⟨enum, n, hbody, -, -⟩
          · cases hv
          · cases hv
          · exact (across.enumeration hmeets hbody).2 levels _
      next => cases hdisc
  | _ =>
    rw [hm] at hdisc
    cases hdisc

section

variable {writer reader : Schema} (src : Source)
  (across : Crossing src.encoding.repr writer reader)

/-- What is asked where a member is absent tells a reader so. -/
def Absence.Tells (absence : Absence writer.size) : Prop :=
  ∀ levels typeName fields (m : Member writer.size) (m' : Member reader.size) rest (c : Cursor) b,
    m.Corresponds across.Meets m' → c.Holds src b →
    Image.each (memberImage writer src.encoding (typeImage writer src.encoding levels) typeName
      fields) rest (src.origin + c.position) = .ok b →
    absence levels typeName fields m rest (src.origin + c.position) (src.origin + c.stop) →
    ∃ after, (readOptional reader src (readType reader src levels) m').run c = .ok none after ∧
      c.Moved 0 after

/-- The header of another member tells that a member is absent, and so does the end. -/
theorem announced_tells : (announced writer src.encoding).Tells src across := by
  intro levels typeName fields m m' rest c b hm hholds himage h
  refine run_readOptional_absent m' hholds (h.imp Nat.add_left_cancel fun hother => ?_)
  rw [hm.id]
  exact hother.header himage

end

section

variable {writer reader : Schema} {src : Source}
  {across : Crossing src.encoding.repr writer reader} {absence : Absence writer.size}
  {levels : Nat}
  (htype : ∀ field i j v (c : Cursor) b, across.Meets i j →
    typeImage writer src.encoding levels field i v (src.origin + c.position) = .ok b →
    typeDemandBy writer src.encoding absence levels field i v (src.origin + c.position)
      (src.origin + c.stop) →
    Reads src (readType reader src levels field j) c b (across.view levels j v))
  {c : Cursor} {b : List UInt8}

/-- The elements of a canonical sequence fit into the bytes that it has for them. -/
theorem reads_checkCount {field : String} {element : MemberType writer.size}
    {element' : MemberType reader.size} (hmeets : element.Corresponds across.Meets element')
    {items : List Value}
    (himage : src.encoding.elementsImage
      (valueImage writer src.encoding (typeImage writer src.encoding levels) field element) field
      element.blittable? items (src.origin + c.position) = .ok b)
    (hfew : writer.minSize src.encoding.repr element = 0 → items.length ≤ b.length)
    (hholds : c.Holds src b) :
    (checkCount reader src field element' items.length).run c = .ok () c := by
  have hleast : ∀ deep, items.length *
      element.minSizeWith (writer.minSizeWithin src.encoding.repr deep) ≤ b.length := by
    intro deep
    refine length_elements (fun v x b h => ?_) himage
    exact minSizeWith_le_length (minSizeWithin_le_length writer src.encoding levels deep) h
  have hsame : reader.minSize src.encoding.repr element' =
      element.minSizeWith (writer.minSizeWithin src.encoding.repr reader.size) :=
    hmeets.minSizeWith_eq (across.minSizeWithin_eq reader.size)
  have hcount : items.length ≤ b.length := by
    rcases Nat.eq_zero_or_pos (writer.minSize src.encoding.repr element) with hzero | hpos
    · exact hfew hzero
    · exact Nat.le_trans (Nat.le_mul_of_pos_right _ hpos) (hleast writer.size)
  have hneeded : items.length * max (reader.minSize src.encoding.repr element') 1 ≤ b.length := by
    rcases Nat.le_total (reader.minSize src.encoding.repr element') 1 with hle | hle
    · rw [Nat.max_eq_right hle, Nat.mul_one]
      exact hcount
    · rw [Nat.max_eq_left hle, hsame]
      exact hleast reader.size
  have hfits := hholds.fits
  have hroom : ¬c.remaining <
      min (items.length * max (reader.minSize src.encoding.repr element') 1) maxByteCount := by
    unfold Cursor.remaining
    omega
  simp only [checkCount, EStateM.run_bind, EStateM.run_get, if_neg hroom]
  rfl

include htype

/-- The value of a member is read from its image. -/
theorem reads_value {field : String} {t : MemberType writer.size} {t' : MemberType reader.size}
    (hmeets : t.Corresponds across.Meets t') {v : Value}
    (himage : valueImage writer src.encoding (typeImage writer src.encoding levels) field t v
      (src.origin + c.position) = .ok b)
    (hdemand : valueDemand writer src.encoding (typeImage writer src.encoding levels)
      (typeDemandBy writer src.encoding absence levels) field t v (src.origin + c.position)
      (src.origin + c.stop)) :
    Reads src (readValue reader src (readType reader src levels) field t') c b
      (t'.mapWith (across.view levels) v) := by
  have hblittable : ∀ {element : MemberType writer.size} {element' : MemberType reader.size},
      element.Corresponds across.Meets element' → ∀ p, element.blittable? = some p →
        p.isBlittable ∧ ∀ v, element'.mapWith (across.view levels) v = v := by
    intro element element' h p hp
    obtain ⟨rfl, hplain⟩ := MemberType.eq_of_blittable? hp
    cases h
    exact ⟨hplain, fun _ => rfl⟩
  induction hmeets generalizing v c b with
  | primitive p =>
    obtain ⟨s, rfl, rfl, hwide, rfl⟩ := Encoding.scalarImage_eq_ok himage
    exact reads_map Value.scalar (Source.reads_scalar field hwide)
  | string bound =>
    cases v with
    | string content =>
      obtain ⟨hbound, himage⟩ := checked_eq_ok himage
      obtain ⟨first, rest, hfirst, hrest, rfl⟩ := andThen_eq_ok himage
      obtain ⟨hcount, rfl⟩ := Encoding.countImage_eq_ok hfirst
      cases hrest
      refine reads_bind (Source.reads_word field hcount) fun after _ => ?_
      rw [if_neg (Nat.succ_ne_zero _)]
      refine reads_ofExcept hbound ?_
      refine reads_last (Source.reads_take field ?_) fun last _ => ?_
      · rw [List.length_append, Text.length_utf8, List.length_singleton]
      · rw [dropTerminator_append]
        exact Source.reads_text content
    | _ => cases himage
  | fixedString capacity =>
    cases v with
    | string content =>
      obtain ⟨hfits, himage⟩ := checked_eq_ok himage
      cases himage
      have hcapacity := checkCapacity_eq_ok hfits
      refine reads_last (Source.reads_take field ?_) fun last _ => ?_
      · rw [List.length_append, Text.length_utf8, List.length_replicate]
        omega
      · rw [Text.takeWhile_utf8 hdemand]
        exact Source.reads_text content
    | _ => cases himage
  | sequence bound helement ih =>
    cases v with
    | sequence items =>
      obtain ⟨hbound, himage⟩ := checked_eq_ok himage
      obtain ⟨first, rest, hfirst, hrest, rfl⟩ := andThen_eq_ok himage
      obtain ⟨hcount, hword⟩ := Encoding.countImage_eq_ok hfirst
      obtain ⟨hfew, hitems⟩ := hdemand first hfirst
      subst hword
      refine reads_bind (Source.reads_word field hcount) fun after hmoved => ?_
      refine reads_ofExcept hbound fun hholds => ?_
      rw [Nat.add_assoc, ← hmoved.position] at hrest hitems hfew
      rw [← hmoved.stop] at hitems
      have hcheck := reads_checkCount helement hrest (fun hzero => hfew hzero rest hrest) hholds
      obtain ⟨last, hrun, hlast⟩ := Source.reads_elements (fun v c b => ih)
        (hblittable helement) hrest hitems hholds
      refine ⟨last, ?_, hlast⟩
      rw [EStateM.run_bind, hcheck, helement.blittable?_eq]
      exact hrun
    | _ => cases himage
  | array length helement ih =>
    cases v with
    | sequence items =>
      obtain ⟨hlength, himage⟩ := checked_eq_ok himage
      simp only [readValue, ← checkLength_eq_ok hlength, helement.blittable?_eq]
      exact Source.reads_elements (fun v c b => ih) (hblittable helement) himage hdemand
    | _ => cases himage
  | type hmeets => exact htype field _ _ v c b hmeets himage hdemand

end

section

variable {reader : Schema} {src : Source}
  {readType : String → Fin reader.size → ReadM Value} {c : Cursor}

/-- At the end of a frame, members take their defaults or stay away. -/
theorem run_readMembers_missing {out : Entries Value} {missing : List (Member reader.size)}
    (hout : ∀ m ∈ missing,
      out.get? m.name = if m.optional then none else some (reader.default m.type))
    (hended : c.stop ≤ c.position) (acc : Entries Value) :
    (readMembers reader src readType true missing acc).run c =
      .ok (Entries.insertAll (present out missing) acc) c := by
  induction missing generalizing acc with
  | nil => rfl
  | cons m rest ih =>
    have hframe : (true && decide (c.stop ≤ c.position)) = true := by simp [hended]
    have hm := hout m List.mem_cons_self
    have hrest := fun acc => ih (fun m hm => hout m (List.mem_cons_of_mem _ hm)) acc
    rw [run_readMembers_ended hframe, hrest]
    cases hoptional : m.optional with
    | true =>
      rw [hoptional] at hm
      rw [present_cons_none hm, if_pos rfl]
    | false =>
      rw [hoptional] at hm
      rw [present_cons_some hm, if_neg Bool.false_ne_true]
      rfl

end

section

variable {writer reader : Schema} {src : Source}
  {across : Crossing src.encoding.repr writer reader} {absence : Absence writer.size}
  (htells : absence.Tells src across) {levels : Nat}
  (htype : ∀ field i j v (c : Cursor) b, across.Meets i j →
    typeImage writer src.encoding levels field i v (src.origin + c.position) = .ok b →
    typeDemandBy writer src.encoding absence levels field i v (src.origin + c.position)
      (src.origin + c.stop) →
    Reads src (readType reader src levels field j) c b (across.view levels j v))
  {c : Cursor} {b : List UInt8}

include htells htype

/-- A member that both schemas know is read from its image. What is behind it is read in turn, and
    the look-ahead of an absent one sees its image. -/
theorem reads_member {typeName : String} {fields out : Entries Value} {framed : Bool}
    {m : Member writer.size} {m' : Member reader.size} (hm : m.Corresponds across.Meets m')
    (hshow : out.get? m'.name = (fields.get? m.name).map (m'.type.mapWith (across.view levels)))
    {others : List (Member writer.size)} {known : List (Member reader.size)} {all : Prop}
    (himage : Image.each (memberImage writer src.encoding (typeImage writer src.encoding levels)
      typeName fields) (m :: others) (src.origin + c.position) = .ok b)
    (hdemand : membersDemandBy writer src.encoding (typeImage writer src.encoding levels)
      (typeDemandBy writer src.encoding absence levels) (absence levels typeName fields) typeName
      fields (m :: others) (src.origin + c.position) (src.origin + c.stop))
    (hnext : ∀ (first rest : List UInt8) (after : Cursor) (acc : Entries Value),
      b = first ++ rest → c.Moved first.length after →
      Image.each (memberImage writer src.encoding (typeImage writer src.encoding levels) typeName
        fields) others (src.origin + after.position) = .ok rest →
      membersDemandBy writer src.encoding (typeImage writer src.encoding levels)
        (typeDemandBy writer src.encoding absence levels) (absence levels typeName fields) typeName
        fields others (src.origin + after.position) (src.origin + after.stop) →
      ReadsFront src (readMembers reader src (readType reader src levels) framed known acc) after
        rest all (Entries.insertAll (present out known) acc)) (acc : Entries Value) :
    ReadsFront src (readMembers reader src (readType reader src levels) framed (m' :: known) acc) c
      b all (Entries.insertAll (present out (m' :: known)) acc) := by
  obtain ⟨first, rest, hfirst, hrest, rfl⟩ := andThen_eq_ok himage
  obtain ⟨hasked, hothers⟩ := hdemand
  have hbehind : ∀ (after : Cursor) (acc : Entries Value), c.Moved first.length after →
      ReadsFront src (readMembers reader src (readType reader src levels) framed known acc) after
        rest all (Entries.insertAll (present out known) acc) := by
    intro after acc hmoved
    rw [hmoved.from_origin] at hrest
    exact hnext first rest after acc rfl hmoved hrest ((hmoved.behind_iff hfirst).1 hothers)
  by_cases hended : framed = true ∧ c.stop ≤ c.position
  · -- What the body does not reach has no bytes.
    intro hholds
    obtain ⟨-, hnone⟩ := hholds.of_ended (bodyEnded_iff.2 hended)
    obtain ⟨rfl, rfl⟩ := List.append_eq_nil_iff.1 hnone
    rw [run_readMembers_ended (bodyEnded_iff.2 hended)]
    rcases memberImage_eq_ok hfirst with ⟨hget, hoptional, -⟩ | ⟨v, hget, halways, hvalue⟩ |
      ⟨v, inner, -, -, -, -, hbytes⟩
    · rw [hget] at hshow
      rw [present_cons_none hshow, if_pos (hm.optional.trans hoptional)]
      exact hbehind c acc (.refl c) hholds
    · simp only [hget, halways, Bool.false_eq_true, if_false] at hasked
      rw [hget, Option.map_some, default_of_no_bytes across hm.type hvalue hasked] at hshow
      rw [present_cons_some hshow, hm.optional, halways]
      exact hbehind c _ (.refl c) hholds
    · exact absurd hbytes.symm (src.encoding.append_wordBytes_ne_nil _ _ _)
  · unfold ReadsFront
    rcases memberImage_eq_ok hfirst with ⟨hget, hoptional, rfl⟩ | ⟨v, hget, halways, hvalue⟩ |
      ⟨v, inner, hget, hoptional, hvalue, hlimit, rfl⟩
    · simp only [hget] at hasked
      rw [hget] at hshow
      rw [run_readMembers_optional hended (hm.optional.trans hoptional), present_cons_none hshow,
        List.nil_append]
      have habsent : c.Holds src rest → ∃ after,
          (readOptional reader src (readType reader src levels) m').run c = .ok none after ∧
            c.Moved 0 after := fun hholds =>
        htells levels typeName fields m m' _ c _ hm hholds hrest hasked
      exact readsFront_bind_stay habsent fun after hmoved => hbehind after acc hmoved
    · simp only [hget, halways, Bool.false_eq_true, if_false] at hasked
      rw [hget] at hshow
      rw [run_readMembers_required hended (hm.optional.trans halways), present_cons_some hshow]
      rw [← hm.name] at hvalue hasked
      exact readsFront_bind (reads_value htype hm.type hvalue hasked) fun after hmoved =>
        hbehind after _ hmoved
    · simp only [hget, hoptional, if_true] at hasked
      rw [hget] at hshow
      rw [run_readMembers_optional hended (hm.optional.trans hoptional), present_cons_some hshow]
      rw [← hm.id]
      refine readsFront_bind (reads_present hlimit ?_) fun after hmoved => hbehind after _ ?_
      · intro body hat hstop
        have hinner := hasked inner hvalue
        have hend : src.origin + body.stop = src.origin + c.position +
            padding (src.origin + c.position) 4 + 4 + inner.length := by
          rw [hstop, ← Nat.add_assoc, hat]
        rw [← hat, ← hm.name] at hvalue
        rw [← hend, ← hat, ← hm.name] at hinner
        exact reads_value htype hm.type hvalue hinner
      · rw [← hm.id]
        exact hmoved

/-- The members of a struct that both schemas know are read from their images. The induction is on
    these members. What only the reader knows lies behind the end of the frame. -/
theorem reads_members {typeName : String} {fields out : Entries Value} (framed : Bool)
    {own beyond : List (Member writer.size)} {common missing : List (Member reader.size)}
    (hcommon : List.Forall₂ (Member.Corresponds across.Meets) own common)
    (hshown : ∀ m ∈ common,
      out.get? m.name = (fields.get? m.name).map (m.type.mapWith (across.view levels)))
    (hmissing : ∀ m ∈ missing,
      out.get? m.name = if m.optional then none else some (reader.default m.type))
    (acc : Entries Value)
    (himage : Image.each (memberImage writer src.encoding (typeImage writer src.encoding levels)
      typeName fields) (own ++ beyond) (src.origin + c.position) = .ok b)
    (hdemand : membersDemandBy writer src.encoding (typeImage writer src.encoding levels)
      (typeDemandBy writer src.encoding absence levels) (absence levels typeName fields) typeName
      fields (own ++ beyond) (src.origin + c.position) (src.origin + c.stop))
    (hend : missing ≠ [] → framed = true ∧ beyond = [] ∧ c.stop = c.position + b.length) :
    ReadsFront src (readMembers reader src (readType reader src levels) framed (common ++ missing)
      acc) c b (beyond = []) (Entries.insertAll (present out (common ++ missing)) acc) := by
  induction hcommon generalizing acc c b with
  | nil =>
    intro _
    refine ⟨0, c, ?_, .refl c, Nat.zero_le _, ?_⟩
    · cases missing with
      | nil => rfl
      | cons m rest =>
        obtain ⟨rfl, rfl, hstop⟩ := hend (List.cons_ne_nil m rest)
        cases himage
        exact run_readMembers_missing hmissing (Nat.le_of_eq hstop) acc
    · rintro rfl
      cases himage
      rfl
  | @cons m m' own common hm _ ih =>
    have hshow := hshown m' List.mem_cons_self
    nth_rewrite 2 [hm.name] at hshow
    refine reads_member htells htype hm hshow himage hdemand ?_ acc
    intro first rest after acc hbytes hmoved hrest hothers
    refine ih (fun m hmem => hshown m (List.mem_cons_of_mem _ hmem)) acc hrest hothers ?_
    intro hsome
    obtain ⟨hframed, hnone, hstop⟩ := hend hsome
    refine ⟨hframed, hnone, ?_⟩
    rw [hmoved.stop, hstop, hmoved.position, hbytes, List.length_append, Nat.add_assoc]

theorem reads_struct {field : String} {i : Fin writer.size} {j : Fin reader.size}
    (hmeets : across.Meets i j) {s : StructType writer.size}
    (hbody : (writer.get i).body = .struct s) {fields : Entries Value} (hsorted : fields.Sorted)
    (hnames : ∀ name ∈ fields.names, name ∈ s.members.map Member.name)
    (himage : src.encoding.delimitedImage (writer.get i).extensibility
      (Image.each (memberImage writer src.encoding (typeImage writer src.encoding levels)
        (writer.get i).full fields) s.wireMembers) (src.origin + c.position) = .ok b)
    (hdemand : Demand.delimited src.encoding (writer.get i).extensibility
      (Image.each (memberImage writer src.encoding (typeImage writer src.encoding levels)
        (writer.get i).full fields) s.wireMembers)
      (membersDemandBy writer src.encoding (typeImage writer src.encoding levels)
        (typeDemandBy writer src.encoding absence levels)
        (absence levels (writer.get i).full fields) (writer.get i).full fields s.wireMembers)
      (src.origin + c.position) (src.origin + c.stop)) :
    Reads src (readType reader src (levels + 1) field j) c b
      (across.view (levels + 1) j (.struct fields)) := by
  obtain ⟨s', own, beyond, common, missing, hbody', hoverlap, hview⟩ := across.struct hmeets hbody
  intro hholds
  obtain ⟨frame, inner, after, hopen, hinner, henters, hasks⟩ :=
    run_frame (reader.get j).full (across.delimited hmeets) himage hholds
  have hasked := (hasks _).1 hdemand
  obtain ⟨out, hout, hshows⟩ := hview levels fields hsorted hnames fun m hm hoptional =>
    isSome_of_image hinner m (s.perm_wireMembers.mem_iff.2 hm) hoptional
  rw [hoverlap.written] at hinner hasked
  have hend : missing ≠ [] → frame.isSome = true ∧ beyond = [] ∧
      after.stop = after.position + inner.length := by
    intro hsome
    have hframed : src.encoding.repr.isDelimited (writer.get i).extensibility = true := by
      rw [← Bool.not_eq_false]
      exact fun hbare => hsome (hoverlap.bare hbare).2
    exact ⟨henters.opened.trans hframed, hoverlap.oneSided.resolve_right hsome,
      henters.stop hframed⟩
  obtain ⟨count, last, hmembers, hmoved, hle, hall⟩ := reads_members htells htype frame.isSome
    hoverlap.common hshows.common hshows.missing [] hinner hasked hend henters.holds
  obtain ⟨final, hclose, hbehind⟩ :=
    henters.leave count last hmoved hle fun hbare => hall (hoverlap.bare hbare).1
  refine ⟨final, ?_, hbehind⟩
  rw [insertAll_present hshows.sorted hshows.names] at hmembers
  simp only [readType, hbody', readStruct, EStateM.run_bind, hopen, hoverlap.known, hmembers,
    hclose, hout]
  rfl

omit htells

/-- The arm of a union is read where one is selected. -/
theorem reads_arm (typeName : String) (framed : Bool) {j : Fin reader.size}
    {u : UnionType writer.size} {u' : UnionType reader.size}
    (hu : u.Corresponds across.Meets u') {d : Int64} {arm : Option (String × Value)}
    {active : Option (Member writer.size × Value)}
    (hnone : across.view (levels + 1) j (.union d none) = .union d none)
    (hsome : ∀ name v selected, u'.select d = some selected →
      across.view (levels + 1) j (.union d (some (name, v))) =
        .union d (some (name, selected.member.type.mapWith (across.view levels) v)))
    (hactive : activeArm writer u d arm = .ok active) (harm : arm.isSome = (u.select d).isSome)
    (himage : armImage writer src.encoding (typeImage writer src.encoding levels) active
      (src.origin + c.position) = .ok b)
    (hdemand : armDemand writer src.encoding (typeImage writer src.encoding levels)
      (typeDemandBy writer src.encoding absence levels) (u.select d) arm (src.origin + c.position)
      (src.origin + c.stop)) :
    ∃ shown, across.view (levels + 1) j (.union d arm) = .union d shown ∧
      Reads src (readArm reader src (readType reader src levels) typeName framed u' d) c b
        shown := by
  have hselected := hu.select d
  unfold readArm
  unfold activeArm at hactive
  cases hselect : u.select d with
  | none =>
    rw [hselect] at harm hactive hselected
    cases arm with
    | some selected => cases harm
    | none =>
      cases hactive
      cases himage
      refine ⟨none, hnone, ?_⟩
      cases hselect' : u'.select d with
      | some selected' =>
        rw [hselect'] at hselected
        cases hselected
      | none => exact fun _ => ⟨_, rfl, ⟨rfl, rfl, rfl, rfl⟩⟩
  | some selected =>
    rw [hselect] at harm hactive hdemand hselected
    cases arm with
    | none => cases harm
    | some entry =>
      obtain ⟨name, v⟩ := entry
      cases hselect' : u'.select d with
      | none =>
        rw [hselect'] at hselected
        cases hselected
      | some selected' =>
        rw [hselect'] at hselected
        cases hselected with
        | some hcorresponds =>
          obtain ⟨hname, -, -, hcorresponds⟩ := hcorresponds.member
          simp only [] at hactive
          split at hactive
          next hname' =>
            cases hactive
            subst hname'
            refine ⟨_, hsome _ v selected' hselect', fun hholds => ?_⟩
            by_cases hended : (framed && decide (c.stop ≤ c.position)) = true
            · -- What the body does not reach has no bytes.
              obtain ⟨-, rfl⟩ := hholds.of_ended hended
              refine ⟨c, ?_, .refl c⟩
              rw [default_of_no_bytes across hcorresponds himage hdemand, ← hname]
              simp only [EStateM.run_bind, run_atEnd, hended, if_true]
              rfl
            · have hvalue := reads_map (fun v => some (selected.member.name, v))
                (reads_value htype hcorresponds himage hdemand)
              obtain ⟨last, hlast, hmoved⟩ := hvalue hholds
              refine ⟨last, ?_, hmoved⟩
              simp only [EStateM.run_bind, run_atEnd, hended, hname]
              exact hlast
          next => cases hactive

theorem reads_union {field : String} {i : Fin writer.size} {j : Fin reader.size}
    (hmeets : across.Meets i j) {u : UnionType writer.size} (hbody : (writer.get i).body = .union u)
    {d : Int64} {arm : Option (String × Value)}
    (himage : src.encoding.delimitedImage (writer.get i).extensibility
      (unionImage writer src.encoding (typeImage writer src.encoding levels) u d arm)
      (src.origin + c.position) = .ok b)
    (hdemand : Demand.delimited src.encoding (writer.get i).extensibility
      (unionImage writer src.encoding (typeImage writer src.encoding levels) u d arm)
      (unionDemand writer src.encoding (typeImage writer src.encoding levels)
        (typeDemandBy writer src.encoding absence levels) u d arm)
      (src.origin + c.position) (src.origin + c.stop)) :
    Reads src (readType reader src (levels + 1) field j) c b
      (across.view (levels + 1) j (.union d arm)) := by
  obtain ⟨u', hbody', hu, hnone, hsome⟩ := across.union hmeets hbody
  intro hholds
  obtain ⟨frame, inner, after, hopen, hinner, henters, hasks⟩ :=
    run_frame (reader.get j).full (across.delimited hmeets) himage hholds
  have hasked := (hasks _).1 hdemand
  obtain ⟨disc, active, first, rest, hdisc, hfirst, hactive, hrest, rfl⟩ := unionImage_eq_ok hinner
  obtain ⟨harm, hasked⟩ := hasked
  rw [hdisc] at hasked
  have hbytes := henters.holds
  have hmore := hbytes.not_ended (length_discriminator_pos hdisc hfirst) frame.isSome
  obtain ⟨behind, hread, hmoved⟩ := reads_value htype hu.discriminator.type hfirst
    (demand_discriminator hdisc) hbytes.left
  rw [hmoved.from_origin] at hrest
  obtain ⟨shown, hshown, harms⟩ := reads_arm htype (reader.get j).full frame.isSome hu
    (hnone levels d) (hsome levels d) hactive harm hrest ((hmoved.behind_iff hfirst).1 hasked)
  obtain ⟨last, hlast, hend⟩ := harms (hbytes.right hmoved)
  obtain ⟨final, hdone, hbehind⟩ := henters.leave _ last (hmoved.trans hend)
    (Nat.le_of_eq List.length_append.symm) fun _ => List.length_append.symm
  refine ⟨final, ?_, hbehind⟩
  rw [view_discriminator across hu.discriminator.type hdisc hfirst, ← hu.discriminator.name]
    at hread
  simp only [readType, hbody', readUnion, EStateM.run_bind, hopen, run_atEnd, hmore,
    Bool.false_eq_true, if_false, hread, discriminatorOf?_of_discriminatorValue hdisc, hlast, hdone,
    hshown]
  rfl

end

section

variable {writer reader : Schema} (src : Source)
  (across : Crossing src.encoding.repr writer reader) {absence : Absence writer.size}

/-- A value of a declared type is read from its image. -/
theorem reads_type (htells : absence.Tells src across) (levels : Nat) (field : String)
    (i : Fin writer.size) (j : Fin reader.size) (v : Value) (c : Cursor) (b : List UInt8)
    (hmeets : across.Meets i j)
    (himage : typeImage writer src.encoding levels field i v (src.origin + c.position) = .ok b)
    (hdemand : typeDemandBy writer src.encoding absence levels field i v (src.origin + c.position)
      (src.origin + c.stop)) :
    Reads src (readType reader src levels field j) c b (across.view levels j v) := by
  induction levels generalizing field i j v c b with
  | zero => cases himage
  | succ levels ih =>
    rcases typeImage_eq_ok himage with ⟨s, fields, hbody, rfl, hstruct⟩ |
      ⟨u, d, arm, hbody, rfl, hunion⟩ | ⟨enum, n, hbody, rfl, hscalar⟩
    · simp only [typeDemandBy, hbody] at hdemand
      obtain ⟨hsorted, hnames, hmembers⟩ := hdemand
      exact reads_struct htells ih hmeets hbody hsorted hnames hstruct hmembers
    · simp only [typeDemandBy, hbody] at hdemand
      exact reads_union ih hmeets hbody hunion hdemand
    · obtain ⟨s, hs, -, -, rfl⟩ := Encoding.scalarImage_eq_ok hscalar
      cases hs
      obtain ⟨⟨enum', hbody'⟩, hview⟩ := across.enumeration hmeets hbody
      simp only [readType, hbody', hview]
      refine reads_last (Source.reads_scalar field (s := .int32 n) rfl) fun after _ => ?_
      exact reads_pure _

end

namespace Schema

/-- What is read by all of the bytes is decoded from them. -/
theorem decode_of_reads {schema : Schema} {e : Encoding} {b : List UInt8} {offset : Nat}
    {i : Fin schema.size} {v : Value}
    (h : Reads ⟨b.toArray, e, offset⟩ (readType schema ⟨b.toArray, e, offset⟩ maxDepth "" i)
      (Source.start ⟨b.toArray, e, offset⟩ .infinite) b v) :
    (schema.decode ⟨b.toArray, e, offset⟩ i .infinite).result = .ok (v, b.length) := by
  obtain ⟨after, hrun, hmoved⟩ := h (.start b e offset)
  have hposition : after.position = b.length := hmoved.position.trans (Nat.zero_add _)
  simp only [decode, read, outcome]
  rw [hrun]
  simp only [Except.map, hposition]

/-- What a value with enough asked of it is written as under one schema is decoded under another
    as what the crossing makes of it, and all of its bytes are taken. -/
theorem decode_across {writer reader : Schema} {e : Encoding} {b : List UInt8} {offset : Nat}
    (across : Crossing e.repr writer reader) {absence : Absence writer.size}
    (htells : absence.Tells ⟨b.toArray, e, offset⟩ across)
    {i : Fin writer.size} {j : Fin reader.size} (hmeets : across.Meets i j) {v : Value}
    (himage : writer.image e i v offset = .ok b)
    (hdemand : typeDemandBy writer e absence maxDepth "" i v offset (offset + b.length)) :
    (reader.decode ⟨b.toArray, e, offset⟩ j .infinite).result =
      .ok (across.view maxDepth j v, b.length) := by
  let src : Source := ⟨b.toArray, e, offset⟩
  exact decode_of_reads (reads_type src across htells maxDepth "" i j v (src.start .infinite) b
    hmeets himage hdemand)

/-- A canonical value is what its image is decoded as, and all of the image is taken. -/
theorem decode_of_image (schema : Schema) (e : Encoding) (i : Fin schema.size) (v : Value)
    {offset : Nat} {b : List UInt8} (himage : schema.image e i v offset = .ok b)
    (hcanonical : schema.Canonical e i v offset) :
    (schema.decode ⟨b.toArray, e, offset⟩ i .infinite).result = .ok (v, b.length) := by
  have hdemand := hcanonical b himage
  rw [typeDemand_eq] at hdemand
  exact decode_across (.same e.repr schema) (announced_tells _ _) rfl himage hdemand

end Schema

end Cdr
