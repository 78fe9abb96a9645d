import Cdr.Proofs.Room

/-! # What the check of counts lets through

A proper value without optional members is read from its bytes when there is room behind all of its
counts. Where a count is the first one without room, the reader stands in front of its elements and
reports that they are truncated.
-/

namespace Cdr

open Image ReadM

def WireError.IsTruncated : WireError → Prop
  | truncated .. => True
  | _ => False

namespace ReadM

variable {α β : Type} {src : Source} {c : Cursor} {a b : List UInt8} {room next : Prop}

/-- A read that comes to a value by the bytes in front of it, and to the place behind them, if there
    is room, and to the error that there is too little otherwise. -/
def Settles (src : Source) (m : ReadM α) (c : Cursor) (b : List UInt8) (room : Prop) (x : α) :
    Prop :=
  c.Holds src b →
    (room ∧ ∃ after, m.run c = .ok x after ∧ c.Moved b.length after) ∨
      (¬room ∧ ∃ fault after, m.run c = .error fault after ∧ fault.IsTruncated)

theorem Settles.congr {m : ReadM α} {x : α} (h : Settles src m c b room x) (hiff : room ↔ next) :
    Settles src m c b next x := by
  rw [← propext hiff]
  exact h

theorem Settles.of_run {m other : ReadM α} {x : α} (h : Settles src other c b room x)
    (hrun : m.run c = other.run c) : Settles src m c b room x := by
  unfold Settles
  rw [hrun]
  exact h

theorem settles_of_reads {m : ReadM α} {x : α} (h : Reads src m c b x) (hroom : room) :
    Settles src m c b room x :=
  fun hholds => .inl ⟨hroom, h hholds⟩

theorem settles_bind {m : ReadM α} {k : α → ReadM β} {x : α} {y : β}
    (hm : Settles src m c a room x)
    (hk : ∀ after, c.Moved a.length after → Settles src (k x) after b next y) :
    Settles src (m >>= k) c (a ++ b) (room ∧ next) y := by
  intro hholds
  rcases hm hholds.left with ⟨hroom, after, hrun, hmoved⟩ | ⟨hcramped, fault, after, hrun, hfault⟩
  · rcases hk after hmoved (hholds.right hmoved) with
      ⟨hnext, last, hlast, hmore⟩ | ⟨hcramped, fault, last, hlast, hfault⟩
    · refine .inl ⟨⟨hroom, hnext⟩, last, ?_, ?_⟩
      · rw [EStateM.run_bind, hrun]
        exact hlast
      · rw [List.length_append]
        exact hmoved.trans hmore
    · refine .inr ⟨fun h => hcramped h.2, fault, last, ?_, hfault⟩
      rw [EStateM.run_bind, hrun]
      exact hlast
  · refine .inr ⟨fun h => hcramped h.1, fault, after, ?_, hfault⟩
    rw [EStateM.run_bind, hrun]

/-- A read behind one that is sure to have room. -/
theorem settles_behind {m : ReadM α} {k : α → ReadM β} {x : α} {y : β} (hm : Reads src m c a x)
    (hk : ∀ after, c.Moved a.length after → Settles src (k x) after b next y) :
    Settles src (m >>= k) c (a ++ b) next y :=
  (settles_bind (settles_of_reads hm trivial) hk).congr (iff_of_eq (true_and next))

theorem settles_map {m : ReadM α} {x : α} (f : α → β) (hm : Settles src m c b room x) :
    Settles src (do let x ← m; return f x) c b room (f x) := by
  have h : Settles src (do let x ← m; return f x) c (b ++ []) (room ∧ True) (f x) :=
    settles_bind hm fun after _ => settles_of_reads (reads_pure (f x)) trivial
  rw [List.append_nil] at h
  exact h.congr (iff_of_eq (and_true room))

end ReadM

namespace Source

variable {src : Source} {c : Cursor} {b : List UInt8}

/-- Items are read until one has no room. -/
theorem settles_many {each : ReadM Value} {f : Value → Image} {room : Value → Demand}
    {items : List Value}
    (hitem : ∀ v ∈ items, ∀ (c : Cursor) b, f v (src.origin + c.position) = .ok b →
      Settles src each c b (room v (src.origin + c.position) (src.origin + c.stop)) v)
    (rev : List Value) (himage : Image.each f items (src.origin + c.position) = .ok b) :
    Settles src (many each items.length rev) c b
      (Demand.each f room items (src.origin + c.position) (src.origin + c.stop))
      (rev.reverse ++ items) := by
  induction items generalizing c b rev with
  | nil =>
    cases himage
    rw [List.append_nil]
    exact settles_of_reads (reads_pure _) trivial
  | cons v vs ih =>
    obtain ⟨first, rest, hfirst, hrest, rfl⟩ := andThen_eq_ok himage
    obtain ⟨hv, hvs⟩ := List.forall_mem_cons.1 hitem
    refine settles_bind (hv c first hfirst) fun after hmoved => ?_
    rw [hmoved.from_origin] at hrest
    have h := ih hvs (v :: rev) hrest
    rw [List.reverse_cons, List.append_assoc] at h
    exact h.congr (hmoved.behind_iff hfirst).symm

end Source

section

variable {schema : Schema} {src : Source} {levels : Nat} {c : Cursor} {b : List UInt8}

/-- Elements that may take no bytes count as one byte each. -/
theorem run_checkCount_of_zero (field : String) (c : Cursor) {element : MemberType schema.size}
    {count : Nat} (hzero : schema.minSize src.encoding.repr element = 0) (hcount : count < 0x100000000) :
    (checkCount schema src field element count).run c =
      if c.remaining < count then .error (.truncated field c.position count c.remaining) c
      else .ok () c := by
  have hneeded : min (count * max 0 1) maxByteCount = count := by
    rw [show max 0 1 = 1 from rfl, Nat.mul_one, maxByteCount]
    omega
  simp only [checkCount, EStateM.run_bind, EStateM.run_get, hzero, hneeded]
  by_cases hfew : c.remaining < count
  · rw [if_pos hfew, if_pos hfew]
    rfl
  · rw [if_neg hfew, if_neg hfew]
    rfl

/-- The check of a count asks for room only when elements may take no bytes: others have theirs. -/
theorem settles_checkCount {field : String} {element : MemberType schema.size} {items : List Value}
    {k : Unit → ReadM Value} {next : Prop} {v : Value}
    (himage : src.encoding.elementsImage
      (valueImage schema src.encoding (typeImage schema src.encoding levels) field element) field
      element.blittable? items (src.origin + c.position) = .ok b)
    (hcount : items.length < 0x100000000) (hk : Settles src (k ()) c b next v) :
    Settles src (checkCount schema src field element items.length >>= k) c b
      ((schema.minSize src.encoding.repr element = 0 →
        src.origin + c.position + items.length ≤ src.origin + c.stop) ∧ next) v := by
  intro hholds
  have hpassed : (checkCount schema src field element items.length).run c = .ok () c →
      (checkCount schema src field element items.length >>= k).run c = (k ()).run c := by
    intro hcheck
    rw [EStateM.run_bind, hcheck]
  by_cases hzero : schema.minSize src.encoding.repr element = 0
  · have hcheck := run_checkCount_of_zero field c hzero hcount
    have hroom : src.origin + c.position + items.length ≤ src.origin + c.stop ↔
        ¬c.remaining < items.length := by
      have hposition := hholds.sound.position_le
      unfold Cursor.remaining
      omega
    simp only [hzero, true_implies, hroom]
    by_cases hfew : c.remaining < items.length
    · rw [if_pos hfew] at hcheck
      have htruncated : (WireError.truncated field c.position items.length c.remaining).IsTruncated :=
        trivial
      refine .inr ⟨fun h => h.1 hfew, _, c, ?_, htruncated⟩
      rw [EStateM.run_bind, hcheck]
    · rw [if_neg hfew] at hcheck
      rw [hpassed hcheck, and_iff_right hfew]
      exact hk hholds
  · have hsame : element.Corresponds (Crossing.same src.encoding.repr schema).Meets element :=
      .refl element
    have hcheck := reads_checkCount hsame himage (fun h => absurd h hzero) hholds
    have hroom : schema.minSize src.encoding.repr element = 0 →
        src.origin + c.position + items.length ≤ src.origin + c.stop := fun h => absurd h hzero
    rw [hpassed hcheck, and_iff_right hroom]
    exact hk hholds

theorem each_room_of_primitive {schema : Schema} {e : Encoding}
    {ofType : String → Fin schema.size → Value → Image}
    {ask : String → Fin schema.size → Value → Demand} {f : Value → Image} {field : String}
    {p : Primitive} {items : List Value} {x stop : Nat} :
    Demand.each f (valueRoom schema e ofType ask field (.primitive p)) items x stop := by
  induction items generalizing x with
  | nil => trivial
  | cons v vs ih => exact ⟨trivial, fun _ _ => ih⟩

theorem settles_elements {field : String} {element : MemberType schema.size} {items : List Value}
    (hitem : ∀ v ∈ items, ∀ (c : Cursor) b,
      valueImage schema src.encoding (typeImage schema src.encoding levels) field element v
        (src.origin + c.position) = .ok b →
      Settles src (readValue schema src (readType schema src levels) field element) c b
        (valueRoom schema src.encoding (typeImage schema src.encoding levels)
          (typeRoom schema src.encoding levels) field element v (src.origin + c.position)
          (src.origin + c.stop)) v)
    (himage : src.encoding.elementsImage
      (valueImage schema src.encoding (typeImage schema src.encoding levels) field element) field
      element.blittable? items (src.origin + c.position) = .ok b) :
    Settles src (src.elements (readValue schema src (readType schema src levels) field element) field
        element.blittable? items.length) c b
      (Demand.each (valueImage schema src.encoding (typeImage schema src.encoding levels) field
        element) (valueRoom schema src.encoding (typeImage schema src.encoding levels)
          (typeRoom schema src.encoding levels) field element) items (src.origin + c.position)
        (src.origin + c.stop)) (.sequence items) := by
  cases hrun : element.blittable? with
  | none =>
    rw [hrun] at himage
    exact settles_map Value.sequence (Source.settles_many hitem [] himage)
  | some p =>
    obtain ⟨rfl, hplain⟩ := MemberType.eq_of_blittable? hrun
    rw [hrun] at himage
    have hread := Source.reads_elements
      (fun v c b h hdemand => reads_untaken_value schema src levels h hdemand)
      (fun q hq => ⟨Option.some.inj hq ▸ hplain, fun _ => rfl⟩) himage each_of_primitive
    rw [List.map_id'] at hread
    exact settles_of_reads hread each_room_of_primitive

/-- A frame is left when its body is read, and an error in the body is that of all. -/
theorem settles_frame {typeName : String} {extensibility : Extensibility} {image : Image}
    {room : Demand} {body : Bool → ReadM Value} {v : Value}
    (himage : src.encoding.delimitedImage extensibility image (src.origin + c.position) = .ok b)
    (hbody : ∀ framed (after : Cursor) inner, image (src.origin + after.position) = .ok inner →
      Settles src (body framed) after inner (room (src.origin + after.position)
        (src.origin + after.stop)) v) :
    Settles src (inFrame src typeName extensibility body) c b
      (Demand.delimited src.encoding extensibility image room (src.origin + c.position)
        (src.origin + c.stop)) v := by
  intro hholds
  obtain ⟨frame, inner, after, hopen, hinner, henters, hasks⟩ :=
    run_frame typeName rfl himage hholds
  rw [hasks]
  rcases hbody frame.isSome after inner hinner henters.holds with
    ⟨hroom, last, hread, hmoved⟩ | ⟨hcramped, fault, last, hread, hfault⟩
  · obtain ⟨final, hclose, hbehind⟩ :=
      henters.leave inner.length last hmoved (Nat.le_refl _) fun _ => rfl
    refine .inl ⟨hroom, final, ?_, hbehind⟩
    simp only [inFrame, EStateM.run_bind, hopen, hread, hclose]
    rfl
  · refine .inr ⟨hcramped, fault, last, ?_, hfault⟩
    simp only [inFrame, EStateM.run_bind, hopen, hread]

variable (hplain : schema.NoOptionals)
  (htype : ∀ field i v (c : Cursor) b, Proper schema (.type i) v →
    typeImage schema src.encoding levels field i v (src.origin + c.position) = .ok b →
    Settles src (readType schema src levels field i) c b
      (typeRoom schema src.encoding levels field i v (src.origin + c.position)
        (src.origin + c.stop)) v)

include htype

theorem settles_value {field : String} {t : MemberType schema.size} {v : Value}
    (hproper : Proper schema t v)
    (himage : valueImage schema src.encoding (typeImage schema src.encoding levels) field t v
      (src.origin + c.position) = .ok b) :
    Settles src (readValue schema src (readType schema src levels) field t) c b
      (valueRoom schema src.encoding (typeImage schema src.encoding levels)
        (typeRoom schema src.encoding levels) field t v (src.origin + c.position)
        (src.origin + c.stop)) v := by
  induction t generalizing v c b with
  | primitive p => exact settles_of_reads (reads_untaken_value schema src levels himage trivial) trivial
  | string bound => exact settles_of_reads (reads_untaken_value schema src levels himage trivial) trivial
  | fixedString capacity =>
    cases hproper with
    | fixedString noNul =>
      exact settles_of_reads (reads_untaken_value schema src levels himage noNul) trivial
  | sequence element bound ih =>
    cases hproper with
    | sequence each =>
      obtain ⟨hbound, himage⟩ := checked_eq_ok himage
      obtain ⟨first, rest, hfirst, hrest, rfl⟩ := andThen_eq_ok himage
      obtain ⟨hcount, hword⟩ := Encoding.countImage_eq_ok hfirst
      subst hword
      refine settles_behind (Source.reads_word field hcount) fun after hmoved => ?_
      rw [hbound]
      rw [hmoved.from_origin] at hrest
      refine Settles.congr ?_ (hmoved.behind_iff hfirst).symm
      exact settles_checkCount hrest hcount
        (settles_elements (fun v hv c b h => ih (each v hv) h) hrest)
  | array element length ih =>
    cases hproper with
    | array each =>
      obtain ⟨hlength, himage⟩ := checked_eq_ok himage
      simp only [readValue, ← checkLength_eq_ok hlength]
      exact settles_elements (fun v hv c b h => ih (each v hv) h) himage
  | type i => exact htype field i v c b hproper himage

include hplain

/-- A value without bytes is the default of its type, and has no counts that lack room. -/
theorem of_no_bytes {field : String} {t : MemberType schema.size} {v : Value}
    (hproper : Proper schema t v)
    (himage : valueImage schema src.encoding (typeImage schema src.encoding levels) field t v
      (src.origin + c.position) = .ok []) (hholds : c.Holds src []) :
    schema.default t = v ∧ valueRoom schema src.encoding (typeImage schema src.encoding levels)
      (typeRoom schema src.encoding levels) field t v (src.origin + c.position)
      (src.origin + c.stop) := by
  have hdemand : valueDemand schema src.encoding (typeImage schema src.encoding levels)
      (typeDemandBy schema src.encoding (untaken schema src) levels) field t v
      (src.origin + c.position) (src.origin + c.stop) :=
    plain_value_of_no_bytes (fun field i v => plain_type_of_no_bytes hplain _ _ levels field i v)
      hproper himage
  have hdefault : t.mapWith ((Crossing.same src.encoding.repr schema).view levels) v =
      schema.default t := default_of_no_bytes _ (.refl t) himage hdemand
  have hview : t.mapWith ((Crossing.same src.encoding.repr schema).view levels) v = v :=
    t.mapWith_id v
  refine ⟨hdefault.symm.trans hview, ?_⟩
  -- The value can be read, so there is room in it.
  obtain ⟨after, hread, -⟩ := reads_untaken_value schema src levels himage hdemand hholds
  rcases settles_value htype hproper himage hholds with ⟨hroom, -⟩ | ⟨-, fault, last, hrun, -⟩
  · exact hroom
  · rw [hread] at hrun
    cases hrun

/-- Members are read until one has no room. Those that a body does not reach take their defaults,
    which is what they were. -/
theorem settles_members {typeName : String} {fields : Entries Value} (framed : Bool)
    {ms : List (Member schema.size)} (halways : ∀ m ∈ ms, m.optional = false)
    (hproper : ∀ m ∈ ms, ∀ v, fields.get? m.name = some v → Proper schema m.type v)
    (acc : Entries Value)
    (himage : Image.each (memberImage schema src.encoding (typeImage schema src.encoding levels)
      typeName fields) ms (src.origin + c.position) = .ok b) :
    Settles src (readMembers schema src (readType schema src levels) framed ms acc) c b
      (Demand.each (memberImage schema src.encoding (typeImage schema src.encoding levels) typeName
        fields) (memberRoom schema src.encoding (typeImage schema src.encoding levels)
          (typeRoom schema src.encoding levels) fields) ms (src.origin + c.position)
        (src.origin + c.stop)) (Entries.insertAll (present fields ms) acc) := by
  induction ms generalizing acc c b with
  | nil =>
    cases himage
    exact settles_of_reads (reads_pure _) trivial
  | cons m rest ih =>
    obtain ⟨first, others, hfirst, hothers, rfl⟩ := andThen_eq_ok himage
    obtain ⟨hm, hrest⟩ := List.forall_mem_cons.1 halways
    obtain ⟨hv, hvs⟩ := List.forall_mem_cons.1 hproper
    obtain ⟨v, hget, hvalue⟩ := memberImage_of_required hm hfirst
    have hsettles := settles_value htype (hv v hget) hvalue
    have hmember : ∀ x stop, memberRoom schema src.encoding
        (typeImage schema src.encoding levels) (typeRoom schema src.encoding levels) fields m x stop ↔
          valueRoom schema src.encoding (typeImage schema src.encoding levels)
            (typeRoom schema src.encoding levels) m.name m.type v x stop := by
      intro x stop
      simp only [memberRoom, hget]
    have hnext : ∀ (after : Cursor) (acc : Entries Value), c.Moved first.length after →
        Settles src (readMembers schema src (readType schema src levels) framed rest acc) after others
          (Demand.behind (memberImage schema src.encoding (typeImage schema src.encoding levels)
            typeName fields m) (Demand.each (memberImage schema src.encoding
              (typeImage schema src.encoding levels) typeName fields) (memberRoom schema src.encoding
                (typeImage schema src.encoding levels) (typeRoom schema src.encoding levels) fields)
              rest) (src.origin + c.position) (src.origin + c.stop))
          (Entries.insertAll (present fields rest) acc) := by
      intro after acc hmoved
      rw [hmoved.from_origin] at hothers
      exact (ih hrest hvs acc hothers).congr (hmoved.behind_iff hfirst).symm
    rw [present_cons_some hget]
    simp only [Demand.each, hmember]
    by_cases hended : (framed && decide (c.stop ≤ c.position)) = true
    · intro hholds
      obtain ⟨-, hnone⟩ := hholds.of_ended hended
      obtain ⟨rfl, rfl⟩ := List.append_eq_nil_iff.1 hnone
      obtain ⟨hdefault, hroom⟩ := of_no_bytes hplain htype (hv v hget) hvalue hholds.left
      have hrest := hnext c (acc.insert m.name v) (.refl c)
      refine (Settles.congr (hrest.of_run ?_) (and_iff_right hroom).symm) hholds
      rw [run_readMembers_ended hended, hm, hdefault]
      rfl
    · refine Settles.of_run ?_ (run_readMembers_more hended)
      rw [hm]
      exact settles_bind hsettles fun after hmoved => hnext after _ hmoved

theorem settles_arm (typeName : String) (framed : Bool) {u : UnionType schema.size} {d : Int64}
    {arm : Option (String × Value)} {active : Option (Member schema.size × Value)}
    (hselected : arm.isSome = (u.select d).isSome)
    (hproper : ∀ selected name v, u.select d = some selected → arm = some (name, v) →
      Proper schema selected.member.type v)
    (hactive : activeArm schema u d arm = .ok active)
    (himage : armImage schema src.encoding (typeImage schema src.encoding levels) active
      (src.origin + c.position) = .ok b) :
    Settles src (readArm schema src (readType schema src levels) typeName framed u d) c b
      (armRoom schema src.encoding (typeImage schema src.encoding levels)
        (typeRoom schema src.encoding levels) (u.select d) arm (src.origin + c.position)
        (src.origin + c.stop)) arm := by
  unfold readArm
  unfold activeArm at hactive
  cases hselect : u.select d with
  | none =>
    rw [hselect] at hactive hselected
    cases arm with
    | some entry => cases hselected
    | none =>
      cases hactive
      cases himage
      exact settles_of_reads (fun _ => ⟨_, rfl, ⟨rfl, rfl, rfl, rfl⟩⟩) trivial
  | some selected =>
    rw [hselect] at hactive hselected
    cases arm with
    | none => cases hselected
    | some entry =>
      obtain ⟨name, v⟩ := entry
      simp only [] at hactive
      split at hactive
      next hname =>
        cases hactive
        subst hname
        have hv := hproper selected _ v hselect rfl
        have hsettles := settles_value htype hv himage
        by_cases hended : (framed && decide (c.stop ≤ c.position)) = true
        · intro hholds
          obtain ⟨-, rfl⟩ := hholds.of_ended hended
          obtain ⟨hdefault, hroom⟩ := of_no_bytes hplain htype hv himage hholds
          refine .inl ⟨hroom, c, ?_, .refl c⟩
          simp only [EStateM.run_bind, run_atEnd, hended, if_true, hdefault]
          rfl
        · refine (settles_map (fun v => some (selected.member.name, v)) hsettles).of_run ?_
          simp only [EStateM.run_bind, run_atEnd, hended]
          rfl
      next => cases hactive

theorem settles_unionBody (typeName : String) (framed : Bool) {u : UnionType schema.size} {d : Int64}
    {arm : Option (String × Value)} (hselected : arm.isSome = (u.select d).isSome)
    (hproper : ∀ selected name v, u.select d = some selected → arm = some (name, v) →
      Proper schema selected.member.type v)
    (himage : unionImage schema src.encoding (typeImage schema src.encoding levels) u d arm
      (src.origin + c.position) = .ok b) :
    Settles src (readUnionBody schema src (readType schema src levels) typeName u framed) c b
      (unionRoom schema src.encoding (typeImage schema src.encoding levels)
        (typeRoom schema src.encoding levels) u d arm (src.origin + c.position)
        (src.origin + c.stop)) (.union d arm) := by
  obtain ⟨disc, active, first, rest, hdisc, hfirst, hactive, hrest, rfl⟩ := unionImage_eq_ok himage
  intro hholds
  have hmore := hholds.not_ended (length_discriminator_pos hdisc hfirst) framed
  simp only [unionRoom, hdisc]
  refine (Settles.of_run ?_ (run_readUnionBody_more hmore)) hholds
  refine settles_behind (reads_untaken_value schema src levels hfirst
    (demand_discriminator hdisc)) fun after hmoved => ?_
  simp only [discriminatorOf?_of_discriminatorValue hdisc]
  rw [hmoved.from_origin] at hrest
  refine Settles.congr ?_ (hmoved.behind_iff hfirst).symm
  exact settles_map (Value.union d) (settles_arm hplain htype typeName framed hselected hproper
    hactive hrest)

end

theorem settles_type {schema : Schema} (hplain : schema.NoOptionals) (src : Source) (levels : Nat)
    (field : String) (i : Fin schema.size) (v : Value) (c : Cursor) (b : List UInt8)
    (hproper : Proper schema (.type i) v)
    (himage : typeImage schema src.encoding levels field i v (src.origin + c.position) = .ok b) :
    Settles src (readType schema src levels field i) c b
      (typeRoom schema src.encoding levels field i v (src.origin + c.position)
        (src.origin + c.stop)) v := by
  induction levels generalizing field i v c b with
  | zero => cases himage
  | succ levels ih =>
    rcases typeImage_eq_ok himage with ⟨s, fields, hbody, rfl, hstruct⟩ |
      ⟨u, d, arm, hbody, rfl, hunion⟩ | ⟨enum, n, hbody, rfl, hscalar⟩
    · obtain ⟨hsorted, hknown, heach⟩ := hproper.of_struct hbody
      have hwire : ∀ m ∈ s.wireMembers, m ∈ s.members := fun m => s.perm_wireMembers.mem_iff.1
      simp only [readType, typeRoom, hbody, readStruct_eq]
      refine settles_frame hstruct fun framed after inner hinner => ?_
      have hmembers := settles_members hplain ih framed
        (fun m hm => hplain.of_struct hbody m (hwire m hm)) (fun m hm => heach m (hwire m hm)) [] hinner
      have hnames : ∀ name ∈ Entries.names fields, name ∈ s.wireMembers.map Member.name := fun name hmem =>
        (s.perm_wireMembers.map Member.name).mem_iff.2 (hknown name hmem)
      rw [insertAll_present hsorted hnames] at hmembers
      exact settles_map Value.struct hmembers
    · obtain ⟨hselected, harm⟩ := hproper.of_union hbody
      simp only [readType, typeRoom, hbody, readUnion_eq]
      exact settles_frame hunion fun framed after inner hinner =>
        settles_unionBody hplain ih _ framed hselected harm hinner
    · obtain ⟨s, hs, -, -, rfl⟩ := Encoding.scalarImage_eq_ok hscalar
      cases hs
      simp only [readType, typeRoom, hbody]
      refine settles_of_reads (reads_last (Source.reads_scalar field (s := .int32 n) rfl) ?_) trivial
      exact fun after _ => reads_pure _

namespace Schema

/-- A proper value without optional members that is serialized is what its payload is read as when
    there is room behind all of its counts, and otherwise its payload is refused as truncated. -/
theorem serialized_reads_back_iff_roomy (schema : Schema) (hplain : schema.NoOptionals)
    (e : Encoding) (i : Fin schema.size) (v : Value) (hproper : Proper schema (.type i) v)
    {payload : Array UInt8} (hpayload : schema.serialize e .infinite i v = .ok payload) :
    (schema.Roomy e i v 0 → (schema.deserialize .infinite i payload).result = .ok v) ∧
      (¬schema.Roomy e i v 0 → ∃ field offset needed remaining,
        (schema.deserialize .infinite i payload).result =
          .error (.truncated field offset needed remaining)) := by
  obtain ⟨b, himage, rfl⟩ := image_of_serialize hpayload
  let src : Source := ⟨b.toArray, e, 0⟩
  have hroomy : schema.Roomy e i v 0 ↔ typeRoom schema e maxDepth "" i v 0 (0 + b.length) := by
    simp only [Roomy, himage, Except.ok.injEq, forall_eq']
  have hsettles := settles_type hplain src maxDepth "" i v (src.start .infinite) b hproper himage
    (.start b e 0)
  have hdecode : ∀ result after, (schema.read src "" i).outcome (src.start .infinite) =
      (result, after) → (schema.deserialize .infinite i
        (e.header (schema.get i).extensibility ++ b).toArray).result = result := by
    intro result after houtcome
    rw [schema.deserialize_payload e i, decode, houtcome]
    cases result <;> rfl
  rcases hsettles with ⟨hroom, after, hrun, -⟩ | ⟨hcramped, fault, after, hrun, hfault⟩
  · have hread := hdecode (.ok v) after (by rw [outcome, read, hrun])
    exact ⟨fun _ => hread, fun h => absurd (hroomy.2 hroom) h⟩
  · have hread := hdecode (.error fault) after (by rw [outcome, read, hrun])
    refine ⟨fun h => absurd (hroomy.1 h) hcramped, fun _ => ?_⟩
    cases fault with
    | truncated field offset needed remaining => exact ⟨field, offset, needed, remaining, hread⟩
    | _ => exact hfault.elim

/-- A clock that counts by ticks, which say nothing but that they are there. -/
def clockDoc : Document where
  types := [
    { name := "Tick", scope := "", extensibility := .final },
    { name := "Clock"
      scope := ""
      extensibility := .final
      fields := [FieldDecl.new "ticks" "sequence<Tick>", FieldDecl.new "time" "int32"] }]

def clock : Schema where
  size := 2
  types := #v[
    { name := "Tick"
      scope := ""
      extensibility := .final
      layout := .struct []
      body := .struct ⟨[]⟩ },
    { name := "Clock"
      scope := ""
      extensibility := .final
      layout := .struct [("ticks", .sequence), ("time", ⟨4, 4⟩)]
      body := .struct ⟨[⟨"ticks", 0, .sequence (.type ⟨0, by decide⟩) none, false, false⟩,
        ⟨"time", 1, .primitive .int32, false, false⟩]⟩ }]

def tick : Value := .struct []

/-- A clock with a number of ticks. -/
def clockOf (ticks : Nat) (time : Int32) : Value :=
  .struct [("ticks", .sequence (List.replicate ticks tick)), ("time", .scalar (.int32 time))]

theorem proper_clockOf (ticks : Nat) (time : Int32) :
    Proper clock (.type ⟨1, by decide⟩) (clockOf ticks time) := by
  have htick : Proper clock (.type ⟨0, by decide⟩) tick :=
    .struct rfl .nil (fun _ => id) (List.forall_mem_nil _)
  have hsorted : Entries.Sorted [("ticks", Value.sequence (List.replicate ticks tick)),
      ("time", .scalar (.int32 time))] :=
    List.pairwise_pair.2 (by decide : "ticks" < "time")
  refine .struct rfl hsorted (fun _ => id) ?_
  intro m hm v hv
  rcases List.mem_cons.1 hm with rfl | hm
  · cases hv
    exact .sequence fun v hv => List.eq_of_mem_replicate hv ▸ htick
  · rcases List.mem_singleton.1 hm with rfl
    exact .primitive

/-- The time behind the ticks is room for four of them. -/
theorem serialized_reads_back_iff_roomy_clock :
    let e : Encoding := ⟨.xcdr2, .little⟩
    let top : Fin clock.size := ⟨1, by decide⟩
    let payload := #[0, 7, 0, 0, 4, 0, 0, 0, 9, 0, 0, 0]
    clockDoc.compile = .ok clock ∧ clock.NoOptionals ∧ Proper clock (.type top) (clockOf 4 9) ∧
      clock.serialize e .infinite top (clockOf 4 9) = .ok payload ∧
      clock.Roomy e top (clockOf 4 9) 0 ∧
      (clock.deserialize .infinite top payload).result = .ok (clockOf 4 9) := by
  intro e top payload
  have hplain : clock.NoOptionals := by decide
  have hproper : Proper clock (.type top) (clockOf 4 9) := proper_clockOf 4 9
  have hpayload : clock.serialize e .infinite top (clockOf 4 9) = .ok payload := by decide +kernel
  have hroomy : clock.Roomy e top (clockOf 4 9) 0 := by decide +kernel
  have hread :=
    (serialized_reads_back_iff_roomy clock hplain e top (clockOf 4 9) hproper hpayload).1 hroomy
  exact ⟨by decide +kernel, hplain, hproper, hpayload, hroomy, hread⟩

/-- A fifth tick is written like the others, and then the ticks are not read back. -/
theorem clock_without_room :
    ¬∀ (doc : Document) (schema : Schema) (e : Encoding) (i : Fin schema.size) (v : Value)
      (payload : Array UInt8), doc.compile = .ok schema → schema.NoOptionals →
        Proper schema (.type i) v → schema.serialize e .infinite i v = .ok payload →
          (schema.deserialize .infinite i payload).result = .ok v := by
  intro hall
  let payload : Array UInt8 := #[0, 7, 0, 0, 5, 0, 0, 0, 9, 0, 0, 0]
  have hback : (clock.deserialize .infinite ⟨1, by decide⟩ payload).result = .ok (clockOf 5 9) :=
    hall clockDoc clock ⟨.xcdr2, .little⟩ ⟨1, by decide⟩ (clockOf 5 9) payload (by decide +kernel)
      (by decide) (proper_clockOf 5 9) (by decide +kernel)
  have hread : (clock.deserialize .infinite ⟨1, by decide⟩ payload).result =
      .error (.truncated "ticks" 4 5 4) := by cbv
  rw [hread] at hback
  cases hback

end Schema

end Cdr
