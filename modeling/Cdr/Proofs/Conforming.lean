import Cdr.Proofs.LeafConformance
import Cdr.Proofs.ReaderInvariant
import Cdr.Proofs.WellFormed

/-! # What is read conforms to its type

A value conforms to a type when it has the shape that the type declares, at every node. Whatever
bytes a reader is given, what it makes of them conforms: what is read one by one or as a block, and
the defaults of what a body does not reach.
-/

namespace Cdr

open ReadM

/-- The values of a type. A text may have more bytes than the bound of its type: a reader counts
    the bytes on the wire, the last of which need not be a terminator. -/
inductive Conforms (schema : Schema) : MemberType schema.size → Value → Prop where
  | primitive {s : Scalar} (ascii : s.wideChar? = none) :
    Conforms schema (.primitive s.primitive) (.scalar s)
  | string {bound : Option UInt32} {text : String} : Conforms schema (.string bound) (.string text)
  | fixedString {capacity : UInt32} {text : String} (fits : text.utf8ByteSize ≤ capacity.toNat)
    (terminated : '\x00' ∉ text.toList) : Conforms schema (.fixedString capacity) (.string text)
  | sequence {element : MemberType schema.size} {bound : Option UInt32} {items : List Value}
    (few : ∀ most, bound = some most → items.length ≤ most.toNat)
    (each : ∀ v ∈ items, Conforms schema element v) :
    Conforms schema (.sequence element bound) (.sequence items)
  | array {element : MemberType schema.size} {length : UInt32} {items : List Value}
    (count : items.length = length.toNat) (each : ∀ v ∈ items, Conforms schema element v) :
    Conforms schema (.array element length) (.sequence items)
  | struct {i : Fin schema.size} {s : StructType schema.size} {fields : Entries Value}
    (body : (schema.get i).body = .struct s) (sorted : fields.Sorted)
    (known : ∀ name ∈ fields.names, name ∈ s.members.map Member.name)
    (required : ∀ m ∈ s.members, m.optional = false → ∃ v, fields.get? m.name = some v)
    (each : ∀ m ∈ s.members, ∀ v, fields.get? m.name = some v → Conforms schema m.type v) :
    Conforms schema (.type i) (.struct fields)
  /-- A union whose discriminator is in the range of its type, with the arm that it selects. -/
  | arm {i : Fin schema.size} {u : UnionType schema.size} {d : Int64} {disc : Value}
    {selected : UnionArm schema.size} {v : Value} (body : (schema.get i).body = .union u)
    (representable : discriminatorValue u.discriminator d = .ok disc)
    (select : u.select d = some selected) (conforms : Conforms schema selected.member.type v) :
    Conforms schema (.type i) (.union d (some (selected.member.name, v)))
  | noArm {i : Fin schema.size} {u : UnionType schema.size} {d : Int64} {disc : Value}
    (body : (schema.get i).body = .union u)
    (representable : discriminatorValue u.discriminator d = .ok disc) :
    Conforms schema (.type i) (.union d none)
  | enumeration {i : Fin schema.size} {e : EnumType} {n : Int32}
    (body : (schema.get i).body = .enumeration e) : Conforms schema (.type i) (.enumeration n)

/-- Entries for members of a struct, for all of them that it needs, each with a value of its
    type. -/
structure Conforming (schema : Schema) (ms : List (Member schema.size)) (fields : Entries Value) :
    Prop where
  sorted : fields.Sorted
  known : ∀ name ∈ fields.names, name ∈ ms.map Member.name
  required : ∀ m ∈ ms, m.optional = false → ∃ v, fields.get? m.name = some v
  each : ∀ m ∈ ms, ∀ v, fields.get? m.name = some v → Conforms schema m.type v

namespace Conforming

variable {schema : Schema} {ms : List (Member schema.size)} {m : Member schema.size}
  {fields : Entries Value}

theorem nil : Conforming schema [] [] where
  sorted := List.Pairwise.nil
  known := nofun
  required := nofun
  each := nofun

/-- The entry of one more member. -/
theorem insert (h : Conforming schema ms fields) (hname : m.name ∉ ms.map Member.name) {v : Value}
    (hv : Conforms schema m.type v) :
    Conforming schema (ms ++ [m]) (Entries.insert m.name v fields) where
  sorted := Entries.sorted_insert h.sorted m.name v
  known := by
    intro name hmem
    rw [List.map_append, List.mem_append]
    obtain ⟨entry, hentry, rfl⟩ := List.mem_map.1 hmem
    rcases Entries.mem_insert_name hentry with heq | hold
    · exact .inr (List.mem_singleton.2 heq)
    · exact .inl (h.known _ (List.mem_map_of_mem hold))
  required := by
    intro other hmem hoptional
    rw [Entries.get?_insert]
    by_cases heq : m.name = other.name
    · exact ⟨v, if_pos heq⟩
    · rw [if_neg heq]
      rcases List.mem_append.1 hmem with hmem | hmem
      · exact h.required other hmem hoptional
      · exact absurd (congrArg Member.name (List.mem_singleton.1 hmem)).symm heq
  each := by
    intro other hmem w hget
    rw [Entries.get?_insert] at hget
    rcases List.mem_append.1 hmem with hmem | hmem
    · have hne : m.name ≠ other.name := fun heq => hname (heq ▸ List.mem_map_of_mem hmem)
      rw [if_neg hne] at hget
      exact h.each other hmem w hget
    · obtain rfl := List.mem_singleton.1 hmem
      rw [if_pos rfl] at hget
      cases hget
      exact hv

/-- An optional member may stay away. -/
theorem skip (h : Conforming schema ms fields) (hname : m.name ∉ ms.map Member.name)
    (hoptional : m.optional = true) : Conforming schema (ms ++ [m]) fields where
  sorted := h.sorted
  known := by
    intro name hmem
    rw [List.map_append]
    exact List.mem_append_left _ (h.known name hmem)
  required := by
    intro other hmem hother
    rcases List.mem_append.1 hmem with hmem | hmem
    · exact h.required other hmem hother
    · obtain rfl := List.mem_singleton.1 hmem
      rw [hoptional] at hother
      cases hother
  each := by
    intro other hmem w hget
    rcases List.mem_append.1 hmem with hmem | hmem
    · exact h.each other hmem w hget
    · obtain rfl := List.mem_singleton.1 hmem
      rw [(Entries.get?_eq_none_iff fields other.name).2 fun hin => hname (h.known _ hin)] at hget
      cases hget

theorem perm {others : List (Member schema.size)} (h : Conforming schema ms fields)
    (hperm : ms.Perm others) : Conforming schema others fields where
  sorted := h.sorted
  known := fun name hmem => (hperm.map Member.name).mem_iff.1 (h.known name hmem)
  required := fun m hm => h.required m (hperm.mem_iff.2 hm)
  each := fun m hm => h.each m (hperm.mem_iff.2 hm)

theorem toConforms {i : Fin schema.size} {s : StructType schema.size}
    (h : Conforming schema s.members fields) (hbody : (schema.get i).body = .struct s) :
    Conforms schema (.type i) (.struct fields) :=
  .struct hbody h.sorted h.known h.required h.each

end Conforming

/-! ## Defaults -/

theorem notMem_of_nodup_append {α : Type} {a : α} {done rest : List α}
    (h : (done ++ a :: rest).Nodup) : a ∉ done := by
  intro hmem
  exact (List.nodup_append.1 h).2.2 a hmem a List.mem_cons_self rfl

section

variable {schema : Schema} (hschema : schema.WellFormed) (hnames : schema.DistinctNames)

theorem conforms_defaultWith {p : Fin schema.size → Prop} {f : Fin schema.size → Value}
    (hf : ∀ i, p i → Conforms schema (.type i) (f i)) {t : MemberType schema.size}
    (ht : t.GroundedWith p) : Conforms schema t (t.defaultWith f) := by
  induction t with
  | primitive q =>
    have hzero : Conforms schema (.primitive (Scalar.zero q).primitive) (.scalar (.zero q)) :=
      .primitive (Scalar.wideChar?_zero q)
    rw [Scalar.primitive_zero] at hzero
    exact hzero
  | string bound => exact .string
  | fixedString capacity => exact .fixedString (Nat.zero_le _) nofun
  | sequence element bound => exact .sequence (fun _ _ => Nat.zero_le _) nofun
  | array element length ih =>
    refine .array List.length_replicate fun v hv => ?_
    obtain ⟨hsome, rfl⟩ := List.mem_replicate.1 hv
    exact ih (ht.resolve_left hsome)
  | type i => exact hf i ht

/-- The defaults of the members that a struct needs. -/
theorem conforming_defaults {f : MemberType schema.size → Value} {done ms : List (Member schema.size)}
    {fields : Entries Value} (hdistinct : ((done ++ ms).map Member.name).Nodup)
    (hf : ∀ m ∈ ms, m.optional = false → Conforms schema m.type (f m.type))
    (h : Conforming schema done fields) :
    Conforming schema (done ++ ms) (Entries.insertAll
      ((ms.filter fun m => !m.optional).map fun m => (m.name, f m.type)) fields) := by
  induction ms generalizing done fields with
  | nil =>
    rw [List.append_nil]
    exact h
  | cons m rest ih =>
    have hname : m.name ∉ done.map Member.name := by
      rw [List.map_append, List.map_cons] at hdistinct
      exact notMem_of_nodup_append hdistinct
    have hrest : ∀ other ∈ rest, other.optional = false →
        Conforms schema other.type (f other.type) :=
      fun other hmem => hf other (List.mem_cons_of_mem m hmem)
    rw [List.append_cons] at hdistinct ⊢
    cases hoptional : m.optional with
    | true =>
      rw [List.filter_cons_of_neg (by simp [hoptional])]
      exact ih hdistinct hrest (h.skip hname hoptional)
    | false =>
      rw [List.filter_cons_of_pos (by simp [hoptional])]
      exact ih hdistinct hrest (h.insert hname (hf m List.mem_cons_self hoptional))

include hschema

/-- The discriminator 0 is in the range of all discriminators. -/
theorem discriminatorValue_zero {i : Fin schema.size} {u : UnionType schema.size}
    (hbody : (schema.get i).body = .union u) :
    ∃ disc, discriminatorValue u.discriminator 0 = .ok disc := by
  have hdisc := hschema.discriminators i u hbody
  unfold discriminatorValue
  cases htype : u.discriminator.type with
  | primitive p =>
    rw [htype] at hdisc
    have hp : p.isIntegral = true := hdisc
    obtain ⟨s, hs⟩ := Scalar.ofDiscriminator?_zero hp
    simp only [hp, if_true, hs]
    exact ⟨_, rfl⟩
  | type j => exact ⟨_, rfl⟩
  | _ =>
    rw [htype] at hdisc
    exact hdisc.elim

include hnames

theorem conforms_defaultWithin (levels : Nat) (i : Fin schema.size)
    (h : schema.GroundedWithin levels i) :
    Conforms schema (.type i) (schema.defaultWithin levels i) := by
  induction levels generalizing i with
  | zero => exact h.elim
  | succ levels ih =>
    simp only [Schema.GroundedWithin, Schema.defaultWithin] at h ⊢
    cases hbody : (schema.get i).body with
    | struct s =>
      rw [hbody] at h
      have hdistinct : (([] ++ s.members).map Member.name).Nodup := hnames.nodup hbody
      have hmembers := conforming_defaults hdistinct
        (fun m hm hoptional => conforms_defaultWith ih (h m hm hoptional)) .nil
      exact hmembers.toConforms hbody
    | union u =>
      obtain ⟨disc, hdisc⟩ := discriminatorValue_zero hschema hbody
      exact .noArm hbody hdisc
    | enumeration e => exact .enumeration hbody

/-- What a member takes when it is missing is of its type. -/
theorem conforms_default (t : MemberType schema.size) : Conforms schema t (schema.default t) := by
  have hground : t.GroundedWith (schema.GroundedWithin schema.size) :=
    MemberType.groundedWith_of_embedded fun i _ => hschema.grounded i
  exact conforms_defaultWith (conforms_defaultWithin hschema hnames schema.size) hground

end

/-! ## Reading -/

namespace ReadM

variable {α β : Type} {P : α → Prop} {Q : β → Prop}

/-- Whatever a read that succeeds comes to is so. -/
def Yields (m : ReadM α) (P : α → Prop) : Prop :=
  ∀ c a after, m.run c = .ok a after → P a

theorem yields_pure {a : α} (h : P a) : Yields (pure a) P := by
  intro c b after hrun
  cases hrun
  exact h

theorem yields_throw (fault : WireError) : Yields (throw fault : ReadM α) P := by
  intro c a after hrun
  cases hrun

theorem yields_any (m : ReadM α) : Yields m fun _ => True :=
  fun _ _ _ _ => trivial

theorem yields_bind {m : ReadM α} {k : α → ReadM β} (hm : Yields m P)
    (hk : ∀ a, P a → Yields (k a) Q) : Yields (m >>= k) Q := by
  intro c b last hrun
  rw [EStateM.run_bind] at hrun
  cases hfirst : m.run c with
  | ok a after =>
    rw [hfirst] at hrun
    exact hk a (hm c a after hfirst) after b last hrun
  | error fault after =>
    rw [hfirst] at hrun
    cases hrun

theorem yields_ofExcept {result : Except WireError α} (h : ∀ a, result = .ok a → P a) :
    Yields (MonadExcept.ofExcept result) P := by
  cases result with
  | ok a => exact yields_pure (h a rfl)
  | error fault => exact yields_throw fault

end ReadM

namespace Source

variable {src : Source}

theorem length_take_le (field : String) (size : Nat) :
    Yields (src.take field size) fun bytes => bytes.length ≤ size := by
  intro c bytes after hrun
  rcases Nat.lt_or_ge c.remaining size with hlt | hge
  · rw [run_take_of_lt src field hlt] at hrun
    cases hrun
  · rcases run_take_of_le src field hge with ⟨limit, highWater, hok⟩ | herror
    · rw [hok] at hrun
      cases hrun
      rw [Array.length_toList, Array.size_extract]
      omega
    · rw [herror] at hrun
      cases hrun

theorem readScalar_eq_ok {e : Encoding} {p : Primitive} {bytes : List UInt8} {s : Scalar}
    (h : e.readScalar p bytes = .ok s) : s.primitive = p ∧ s.wideChar? = none := by
  simp only [Encoding.readScalar] at h
  split at h
  next hbits =>
    cases h
    exact ⟨Scalar.primitive_of_ofBits? hbits, Scalar.wideChar?_of_ofBits? hbits⟩
  next => cases h
  next => cases h

theorem yields_scalar (field : String) (p : Primitive) :
    Yields (src.scalar field p) fun s => s.primitive = p ∧ s.wideChar? = none := by
  refine yields_bind (yields_any _) fun _ _ => ?_
  refine yields_bind (yields_any _) fun bytes _ => ?_
  exact yields_ofExcept fun s hs => readScalar_eq_ok hs

theorem yields_many {each : ReadM Value} {P : Value → Prop} (heach : Yields each P) (count : Nat)
    (rev : List Value) (hrev : ∀ v ∈ rev, P v) :
    Yields (many each count rev) fun items =>
      items.length = rev.length + count ∧ ∀ v ∈ items, P v := by
  induction count generalizing rev with
  | zero =>
    refine yields_pure ⟨List.length_reverse, fun v hv => hrev v (List.mem_reverse.1 hv)⟩
  | succ count ih =>
    refine yields_bind heach fun v hv c items after hrun => ?_
    obtain ⟨hlength, hitems⟩ := ih (v :: rev) (List.forall_mem_cons.2 ⟨hv, hrev⟩) c items after hrun
    rw [List.length_cons] at hlength
    exact ⟨by omega, hitems⟩

theorem scalars_eq_ok {e : Encoding} {p : Primitive} {count : Nat} {bytes : List UInt8}
    {items : List Value} (h : scalars e p count bytes = .ok items) :
    items.length = count ∧
      ∀ v ∈ items, ∃ s : Scalar, v = .scalar s ∧ s.primitive = p ∧ s.wideChar? = none := by
  induction count generalizing bytes items with
  | zero =>
    cases h
    exact ⟨rfl, nofun⟩
  | succ count ih =>
    simp only [scalars, bind, Except.bind] at h
    cases hfirst : e.readScalar p (bytes.take p.size) with
    | error fault =>
      rw [hfirst] at h
      cases h
    | ok s =>
      rw [hfirst] at h
      cases hrest : scalars e p count (bytes.drop p.size) with
      | error fault =>
        rw [hrest] at h
        cases h
      | ok rest =>
        rw [hrest] at h
        cases h
        obtain ⟨hlength, hitems⟩ := ih hrest
        refine ⟨congrArg (· + 1) hlength, List.forall_mem_cons.2 ⟨⟨s, rfl, ?_⟩, hitems⟩⟩
        exact readScalar_eq_ok hfirst

/-- Elements are as many as asked for, whether they are read one by one or as a block. -/
theorem yields_elements {each : ReadM Value} {P : Value → Prop} (heach : Yields each P)
    (field : String) {run : Option Primitive}
    (hrun : ∀ s : Scalar, run = some s.primitive → s.wideChar? = none → P (.scalar s))
    (count : Nat) :
    Yields (src.elements each field run count) fun v =>
      ∃ items, v = .sequence items ∧ items.length = count ∧ ∀ item ∈ items, P item := by
  unfold elements
  cases run with
  | none =>
    refine yields_bind (yields_many heach count [] nofun) fun items hitems => ?_
    refine yields_pure ⟨items, rfl, ?_, hitems.2⟩
    simpa using hitems.1
  | some p =>
    by_cases hzero : count = 0
    · simp only [if_pos hzero]
      exact yields_pure ⟨[], rfl, hzero.symm, nofun⟩
    · simp only [if_neg hzero]
      refine yields_bind (yields_any _) fun _ _ => ?_
      refine yields_bind (yields_any _) fun bytes _ => ?_
      refine yields_bind (yields_ofExcept fun items hitems => scalars_eq_ok hitems) ?_
      intro items hitems
      refine yields_pure ⟨items, rfl, hitems.1, fun item hitem => ?_⟩
      obtain ⟨s, rfl, rfl, hascii⟩ := hitems.2 item hitem
      exact hrun s rfl hascii

theorem yields_text (bytes : List UInt8) :
    Yields (text bytes) fun v => ∃ content, v = .string content ∧
      Text.readUtf8 bytes = .ok content := by
  unfold text
  cases h : Text.readUtf8 bytes with
  | ok content => exact yields_pure ⟨content, rfl, rfl⟩
  | error fault => exact yields_throw _

end Source

/-- An optional member is read as its value is, if it is there. -/
theorem yields_optional {schema : Schema} {src : Source}
    {readType : String → Fin schema.size → ReadM Value} {P : Value → Prop} (m : Member schema.size)
    (hvalue : Yields (readValue schema src readType m.name m.type) P) :
    Yields (readOptional schema src readType m) fun found => ∀ v, found = some v → P v := by
  have hwithin : ∀ stop, Yields (readWithin schema src readType m stop) fun found =>
      ∀ v, found = some v → P v := by
    intro stop c found last hread v hv
    subst hv
    simp only [EStateM.run, readWithin] at hread
    split at hread
    next w after hrun =>
      split at hread
      · cases hread
        exact hvalue _ _ _ hrun
      · cases hread
    next fault after hrun =>
      split at hread
      · cases hread
      · cases hread
  have hnone : Yields (pure none : ReadM (Option Value)) fun found =>
      ∀ v, found = some v → P v := yields_pure (by simp)
  refine yields_bind (yields_any _) fun mark _ => ?_
  refine yields_bind (P := fun found => ∀ v, found = some v → P v) ?_ ?_
  · refine yields_bind (yields_any _) fun at? _ => ?_
    refine yields_bind (yields_any _) fun room _ => ?_
    split
    · refine yields_bind (yields_any _) fun header _ => ?_
      refine yields_bind (yields_any _) fun behind _ => ?_
      split
      · exact hwithin _
      · exact hnone
    · exact hnone
  · intro found hfound
    cases found with
    | some v => exact yields_pure hfound
    | none =>
      refine yields_bind (yields_any _) fun _ _ => ?_
      exact yields_bind (yields_any _) fun _ _ => hnone

section

variable {schema : Schema} {src : Source} {readType : String → Fin schema.size → ReadM Value}
  (htype : ∀ field i, Yields (readType field i) (Conforms schema (.type i)))

include htype

theorem yields_readValue (field : String) (t : MemberType schema.size) :
    Yields (readValue schema src readType field t) (Conforms schema t) := by
  have hrun : ∀ (element : MemberType schema.size) (s : Scalar),
      element.blittable? = some s.primitive → s.wideChar? = none →
        Conforms schema element (.scalar s) := by
    intro element s hrun hascii
    obtain ⟨rfl, -⟩ := MemberType.eq_of_blittable? hrun
    exact .primitive hascii
  induction t with
  | primitive p =>
    refine yields_bind (Source.yields_scalar field p) fun s hs => ?_
    obtain ⟨rfl, hascii⟩ := hs
    exact yields_pure (.primitive hascii)
  | string bound =>
    refine yields_bind (yields_any _) fun count _ => ?_
    split
    · exact yields_pure .string
    · refine yields_bind (yields_any _) fun _ _ => ?_
      refine yields_bind (yields_any _) fun bytes _ c v after hread => ?_
      obtain ⟨text, rfl, -⟩ := Source.yields_text _ c v after hread
      exact .string
  | fixedString capacity =>
    refine yields_bind (Source.length_take_le field _) fun bytes hbytes c v after hread => ?_
    obtain ⟨text, rfl, htext⟩ := Source.yields_text _ c v after hread
    have hfits : (bytes.takeWhile (· != 0)).length ≤ bytes.length :=
      (List.takeWhile_prefix _).length_le
    refine .fixedString ?_ (Text.nul_notMem_of_readUtf8 htext fun hmem => ?_)
    · rw [Text.utf8ByteSize_of_readUtf8 htext]
      exact Nat.le_trans hfits hbytes
    · exact absurd (List.all_eq_true.1 List.all_takeWhile _ hmem) (by decide)
  | sequence element bound ih =>
    refine yields_bind (yields_any _) fun count _ => ?_
    refine yields_bind (P := fun _ => ∀ most, bound = some most → count ≤ most.toNat)
      (yields_ofExcept fun _ hcheck _ hmost => checkBound_eq_ok hcheck hmost) fun _ hfew => ?_
    refine yields_bind (yields_any _) fun _ _ c v after hread => ?_
    obtain ⟨items, rfl, rfl, hitems⟩ :=
      Source.yields_elements ih field (hrun element) count c v after hread
    exact .sequence hfew hitems
  | array element length ih =>
    intro c v after hread
    obtain ⟨items, rfl, hcount, hitems⟩ :=
      Source.yields_elements ih field (hrun element) length.toNat c v after hread
    exact .array hcount hitems
  | type i => exact htype field i

theorem yields_readOptional (m : Member schema.size) :
    Yields (readOptional schema src readType m) fun found =>
      ∀ v, found = some v → Conforms schema m.type v :=
  yields_optional m (yields_readValue htype m.name m.type)

variable (hschema : schema.WellFormed) (hnames : schema.DistinctNames)

include hschema hnames

/-- The entries that members are read into stay conforming, whether a member is read, is taken to be
    absent or gets its default. -/
theorem yields_readMembers (framed : Bool) {done ms : List (Member schema.size)}
    {fields : Entries Value} (hdistinct : ((done ++ ms).map Member.name).Nodup)
    (h : Conforming schema done fields) :
    Yields (readMembers schema src readType framed ms fields) (Conforming schema (done ++ ms)) := by
  induction ms generalizing done fields with
  | nil =>
    rw [List.append_nil]
    exact yields_pure h
  | cons m rest ih =>
    have hname : m.name ∉ done.map Member.name := by
      rw [List.map_append, List.map_cons] at hdistinct
      exact notMem_of_nodup_append hdistinct
    rw [List.append_cons] at hdistinct ⊢
    unfold readMembers
    refine yields_bind (yields_any _) fun ended _ => ?_
    split
    · -- The body has ended.
      cases hoptional : m.optional with
      | true => exact ih hdistinct (h.skip hname hoptional)
      | false => exact ih hdistinct (h.insert hname (conforms_default hschema hnames m.type))
    · split
      next hoptional =>
        refine yields_bind (yields_readOptional htype m) fun found hfound => ?_
        cases found with
        | some v => exact ih hdistinct (h.insert hname (hfound v rfl))
        | none => exact ih hdistinct (h.skip hname hoptional)
      next =>
        refine yields_bind (yields_readValue htype m.name m.type) fun v hv => ?_
        exact ih hdistinct (h.insert hname hv)

theorem yields_readStruct (typeName : String) (extensibility : Extensibility) {i : Fin schema.size}
    {s : StructType schema.size} (hbody : (schema.get i).body = .struct s) :
    Yields (readStruct schema src readType typeName extensibility s) (Conforms schema (.type i)) := by
  have hdistinct : (([] ++ s.wireMembers).map Member.name).Nodup :=
    (s.perm_wireMembers.map Member.name).nodup_iff.2 (hnames.nodup hbody)
  refine yields_bind (yields_any _) fun frame _ => ?_
  refine yields_bind (yields_readMembers htype hschema hnames frame.isSome hdistinct .nil) ?_
  intro fields hfields
  refine yields_bind (yields_any _) fun _ _ => ?_
  exact yields_pure ((hfields.perm s.perm_wireMembers).toConforms hbody)

/-- The arm that is read is the one that the discriminator selects. -/
theorem yields_readArm (typeName : String) (framed : Bool) {i : Fin schema.size}
    {u : UnionType schema.size} {d : Int64} {disc : Value} (hbody : (schema.get i).body = .union u)
    (hdisc : discriminatorValue u.discriminator d = .ok disc) :
    Yields (readArm schema src readType typeName framed u d) fun arm =>
      Conforms schema (.type i) (.union d arm) := by
  unfold readArm
  cases hselect : u.select d with
  | none =>
    refine yields_bind (yields_any _) fun _ _ => ?_
    exact yields_pure (.noArm hbody hdisc)
  | some selected =>
    refine yields_bind (yields_any _) fun ended _ => ?_
    split
    · exact yields_pure (.arm hbody hdisc hselect (conforms_default hschema hnames _))
    · refine yields_bind (yields_readValue htype _ _) fun v hv => ?_
      exact yields_pure (.arm hbody hdisc hselect hv)

omit htype hschema hnames in
/-- A discriminator that is read can be written. -/
theorem representable_of_read {m : Member schema.size} {disc : Value} {d : Int64}
    (htypes : schema.IsDiscriminator m.type) (hdisc : Conforms schema m.type disc)
    (h : discriminatorOf? disc = some d) : ∃ v, discriminatorValue m d = .ok v := by
  unfold discriminatorValue
  cases hm : m.type with
  | primitive p =>
    rw [hm] at htypes hdisc
    have hp : p.isIntegral = true := htypes
    cases hdisc with
    | primitive hascii =>
      obtain ⟨t, ht⟩ := Scalar.ofDiscriminator?_of_discriminator? hascii h
      simp only [hp, if_true, ht]
      exact ⟨_, rfl⟩
  | type j =>
    rw [hm] at htypes hdisc
    obtain ⟨e, he⟩ := htypes
    cases hdisc with
    | enumeration hbody =>
      cases h
      rename_i n
      have hrange : -0x80000000 ≤ n.toInt64.toInt ∧ n.toInt64.toInt < 0x80000000 := by
        rw [Int32.toInt_toInt64]
        exact ⟨n.le_toInt, n.toInt_lt⟩
      exact ⟨_, if_pos hrange⟩
    | struct hbody => cases h
    | arm hbody => cases h
    | noArm hbody => cases h
  | _ =>
    rw [hm] at htypes
    exact htypes.elim

theorem yields_readUnion (typeName : String) (extensibility : Extensibility) {i : Fin schema.size}
    {u : UnionType schema.size} (hbody : (schema.get i).body = .union u) :
    Yields (readUnion schema src readType typeName extensibility u) (Conforms schema (.type i)) := by
  refine yields_bind (yields_any _) fun frame _ => ?_
  refine yields_bind (yields_any _) fun ended _ => ?_
  split
  · obtain ⟨disc, hdisc⟩ := discriminatorValue_zero hschema hbody
    refine yields_bind (yields_any _) fun _ _ => ?_
    exact yields_pure (.noArm hbody hdisc)
  · refine yields_bind (yields_readValue htype _ _) fun disc hconforms => ?_
    cases hd : discriminatorOf? disc with
    | none => exact yields_throw _
    | some d =>
      obtain ⟨v, hv⟩ := representable_of_read (hschema.discriminators i u hbody) hconforms hd
      refine yields_bind (yields_readArm htype hschema hnames typeName _ hbody hv) fun arm harm => ?_
      refine yields_bind (yields_any _) fun _ _ => ?_
      exact yields_pure harm

end

/-- What is read of a declared type conforms to it. -/
theorem yields_readType {schema : Schema} (hschema : schema.WellFormed)
    (hnames : schema.DistinctNames) (src : Source) (levels : Nat) (field : String)
    (i : Fin schema.size) :
    Yields (readType schema src levels field i) (Conforms schema (.type i)) := by
  induction levels generalizing field i with
  | zero => exact yields_throw _
  | succ levels ih =>
    cases hbody : (schema.get i).body with
    | struct s =>
      simp only [readType, hbody]
      exact yields_readStruct ih hschema hnames _ _ hbody
    | union u =>
      simp only [readType, hbody]
      exact yields_readUnion ih hschema hnames _ _ hbody
    | enumeration e =>
      simp only [readType, hbody]
      refine yields_bind (yields_any _) fun s _ => ?_
      cases s with
      | int32 n => exact yields_pure (.enumeration hbody)
      | _ => exact yields_throw _

end Cdr
