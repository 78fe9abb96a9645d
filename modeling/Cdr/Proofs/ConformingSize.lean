import Cdr.Proofs.Conforming
import Cdr.Proofs.SizeImage

/-! # Sizes of what was read

The sizes of a value that conforms to its type are refused for its depth only, or for a text with
more bytes than its bound.
-/

namespace Cdr

open ReadM SizeRules

/-- Where a value of a type holds another: a value with its type and the field it belongs to. -/
inductive Within (schema : Schema) (name : String) (part : MemberType schema.size) (w : Value) :
    String → MemberType schema.size → Value → Prop where
  | here : Within schema name part w name part w
  | sequence {field : String} {element : MemberType schema.size} {bound : Option UInt32}
    {items : List Value} {v : Value} (mem : v ∈ items)
    (within : Within schema name part w field element v) :
    Within schema name part w field (.sequence element bound) (.sequence items)
  | array {field : String} {element : MemberType schema.size} {length : UInt32}
    {items : List Value} {v : Value} (mem : v ∈ items)
    (within : Within schema name part w field element v) :
    Within schema name part w field (.array element length) (.sequence items)
  | member {field : String} {i : Fin schema.size} {s : StructType schema.size}
    {fields : Entries Value} {m : Member schema.size} {v : Value}
    (body : (schema.get i).body = .struct s) (mem : m ∈ s.members)
    (entry : fields.get? m.name = some v) (within : Within schema name part w m.name m.type v) :
    Within schema name part w field (.type i) (.struct fields)
  | arm {field : String} {i : Fin schema.size} {u : UnionType schema.size} {d : Int64}
    {selected : UnionArm schema.size} {v : Value} (body : (schema.get i).body = .union u)
    (select : u.select d = some selected)
    (within : Within schema name part w selected.member.name selected.member.type v) :
    Within schema name part w field (.type i) (.union d (some (selected.member.name, v)))

/-- What the sizes of a value may be refused for: its depth, and a text in it that exceeds its
    bound. -/
def Oversized (schema : Schema) (field : String) (t : MemberType schema.size) (v : Value)
    (fault : WireError) : Prop :=
  (∃ deep, fault = .depthExceeded deep) ∨
    ∃ name text bound, Within schema name (.string (some bound)) (.string text) field t v ∧
      bound.toNat < text.utf8ByteSize ∧ fault = .boundExceeded name text.utf8ByteSize bound

namespace Entries

/-- What is found was put there. -/
theorem mem_of_get?_insertAll {α : Type} {pairs : List (String × α)} {entries : Entries α}
    {name : String} {value : α} (h : (insertAll pairs entries).get? name = some value) :
    (name, value) ∈ pairs ∨ entries.get? name = some value := by
  induction pairs generalizing entries with
  | nil => exact .inr h
  | cons pair pairs ih =>
    have h : (insertAll pairs (insert pair.1 pair.2 entries)).get? name = some value := h
    rcases ih h with hmem | hget
    · exact .inl (List.mem_cons_of_mem pair hmem)
    · rw [get?_insert] at hget
      split at hget
      next hname =>
        cases hget
        subst hname
        exact .inl List.mem_cons_self
      next => exact .inr hget

end Entries

/-- There are no texts but empty ones in a default. -/
theorem text_of_within_default {schema : Schema} (hnames : schema.DistinctNames) {name : String}
    {bound : Option UInt32} {text : String} {field : String} {t : MemberType schema.size}
    {levels : Nat} (h : Within schema name (.string bound) (.string text) field t
      (t.defaultWith (schema.defaultWithin levels))) : text = "" := by
  generalize hv : t.defaultWith (schema.defaultWithin levels) = v at h
  induction h generalizing levels with
  | here =>
    cases hv
    rfl
  | sequence mem within ih =>
    cases hv
    cases mem
  | array mem within ih =>
    cases hv
    exact ih (List.mem_replicate.1 mem).2.symm
  | member body mem entry within ih =>
    rename_i i s fields m v
    cases levels with
    | zero =>
      cases hv
      cases entry
    | succ levels =>
      simp only [MemberType.defaultWith, Schema.defaultWithin, body] at hv
      cases hv
      rcases Entries.mem_of_get?_insertAll entry with hpair | hnone
      · obtain ⟨other, hother, heq⟩ := List.mem_map.1 hpair
        have hsame : other = m :=
          List.inj_on_of_nodup_map (hnames.nodup body) (List.mem_filter.1 hother).1 mem
            (congrArg Prod.fst heq)
        subst hsame
        exact ih (congrArg Prod.snd heq)
      · cases hnone
  | arm body select within ih =>
    cases levels with
    | zero => cases hv
    | succ levels =>
      simp only [MemberType.defaultWith, Schema.defaultWithin, body] at hv
      cases hv

/-! ## What sizing fails with -/

namespace SizeRules

variable {α : Type} {F : WireError → Prop}

/-- Every error of a size pass is of this kind. -/
def FailsOnly (m : SizeM α) (F : WireError → Prop) : Prop :=
  ∀ tally fault, m.run tally = .error fault → F fault

theorem failsOnly_pure (a : α) : FailsOnly (pure a) F := by
  intro tally fault hrun
  cases hrun

theorem failsOnly_throw {fault : WireError} (h : F fault) :
    FailsOnly (throw fault : SizeM α) F := by
  intro tally other hrun
  cases hrun
  exact h

theorem failsOnly_bind {β : Type} {m : SizeM α} {k : α → SizeM β} (hm : FailsOnly m F)
    (hk : ∀ a, FailsOnly (k a) F) : FailsOnly (m >>= k) F := by
  intro tally fault hrun
  rw [StateT.run_bind] at hrun
  cases hfirst : m.run tally with
  | error other =>
    rw [hfirst] at hrun
    cases hrun
    exact hm tally _ hfirst
  | ok result =>
    rw [hfirst] at hrun
    exact hk result.1 result.2 fault hrun

/-- A check that passes stands in the way of nothing. -/
theorem failsOnly_checked {β : Type} {check : Except WireError β} {k : β → SizeM α} {b : β}
    (h : check = .ok b) (hk : FailsOnly (k b) F) :
    FailsOnly (do let b ← MonadExcept.ofExcept check; k b) F := by
  rw [h]
  exact hk

theorem failsOnly_add (repr : Representation) (bytes : Nat) :
    FailsOnly ((unlimited repr).add bytes) F := by
  intro tally fault hrun
  cases hrun

theorem failsOnly_pad (repr : Representation) (alignment : Nat) :
    FailsOnly ((unlimited repr).pad alignment) F := by
  intro tally fault hrun
  cases hrun

theorem failsOnly_addScalar (repr : Representation) (p : Primitive) :
    FailsOnly ((unlimited repr).addScalar p) F := by
  intro tally fault hrun
  cases hrun

theorem failsOnly_addDelimiter (repr : Representation) (extensibility : Extensibility) :
    FailsOnly ((unlimited repr).addDelimiter extensibility) F := by
  unfold addDelimiter
  split
  · exact failsOnly_addScalar repr .uint32
  · exact failsOnly_pure ()

theorem failsOnly_forM {β : Type} {each : β → SizeM Unit} {items : List β}
    (h : ∀ item ∈ items, FailsOnly (each item) F) : FailsOnly (items.forM each) F := by
  induction items with
  | nil => exact failsOnly_pure ()
  | cons item items ih =>
    refine failsOnly_bind (h item List.mem_cons_self) fun _ => ?_
    exact ih fun other hmem => h other (List.mem_cons_of_mem item hmem)

theorem firstOther?_eq_none {p : Primitive} {items : List Value}
    (h : ∀ v ∈ items, v.primitive? = some p) : firstOther? p items = none := by
  have hnone : (items.find? fun v => v.primitive? != some p) = none := by
    rw [List.find?_eq_none]
    intro v hv
    simp [h v hv]
  rw [firstOther?, hnone]
  rfl

end SizeRules

section

variable {schema : Schema} {repr : Representation} {levels : Nat}
  (htype : ∀ field i v, Conforms schema (.type i) v →
    FailsOnly (addType schema (unlimited repr) levels field i v)
      (Oversized schema field (.type i) v))

theorem Oversized.of_within {field field' : String} {t t' : MemberType schema.size} {v v' : Value}
    {fault : WireError}
    (hwithin : ∀ {name : String} {bound : Option UInt32} {text : String},
      Within schema name (.string bound) (.string text) field t v →
      Within schema name (.string bound) (.string text) field' t' v')
    (h : Oversized schema field t v fault) : Oversized schema field' t' v' fault := by
  refine h.imp id ?_
  rintro ⟨name, text, bound, hpart, hlong, rfl⟩
  exact ⟨name, text, bound, hwithin hpart, hlong, rfl⟩

theorem failsOnly_addElements {field : String} {element : MemberType schema.size}
    {each : Value → SizeM Unit} {items : List Value} {F : WireError → Prop}
    (hitems : ∀ v ∈ items, Conforms schema element v) (heach : ∀ v ∈ items, FailsOnly (each v) F) :
    FailsOnly (addElements (unlimited repr) each field element.blittable? items) F := by
  cases hrun : element.blittable? with
  | none => exact failsOnly_forM heach
  | some p =>
    obtain ⟨rfl, -⟩ := MemberType.eq_of_blittable? hrun
    have hscalars : firstOther? p items = none := by
      apply firstOther?_eq_none
      intro v hv
      cases hitems v hv
      rfl
    simp only [addElements]
    split
    · exact failsOnly_pure ()
    · rw [hscalars]
      exact failsOnly_bind (failsOnly_pad repr _) fun _ => failsOnly_add repr _

include htype

theorem failsOnly_addValue {field : String} {t : MemberType schema.size} {v : Value}
    (h : Conforms schema t v) :
    FailsOnly (addValue schema (unlimited repr) (addType schema (unlimited repr) levels) field t v)
      (Oversized schema field t v) := by
  induction t generalizing v with
  | primitive p =>
    cases h with
    | primitive hascii =>
      simp only [addValue, Value.primitive?, if_true]
      exact failsOnly_addScalar repr _
  | string bound =>
    cases h with
    | string =>
      rename_i text
      cases hcheck : checkBound field text.utf8ByteSize bound with
      | ok _ =>
        refine failsOnly_checked hcheck ?_
        exact failsOnly_bind (failsOnly_addScalar repr _) fun _ => failsOnly_add repr _
      | error fault =>
        cases bound with
        | none => cases hcheck
        | some most =>
          simp only [checkBound] at hcheck
          split at hcheck
          next hlong =>
            cases hcheck
            simp only [addValue, checkBound, if_pos hlong]
            exact failsOnly_throw (.inr ⟨field, text, most, .here, hlong, rfl⟩)
          next => cases hcheck
  | fixedString capacity =>
    cases h with
    | fixedString hfits hterminated =>
      refine failsOnly_checked (b := ()) ?_ (failsOnly_add repr _)
      rw [checkCapacity, if_neg (Nat.not_lt.2 hfits)]
  | sequence element bound ih =>
    cases h with
    | sequence hfew heach =>
      rename_i items
      refine failsOnly_checked (b := ()) ?_ (failsOnly_bind (failsOnly_addScalar repr _) fun _ => ?_)
      · cases bound with
        | none => rfl
        | some most => rw [checkBound, if_neg (Nat.not_lt.2 (hfew most rfl))]
      · refine failsOnly_addElements heach fun v hv tally fault hrun => ?_
        exact (ih (heach v hv) tally fault hrun).of_within (.sequence hv)
  | array element length ih =>
    cases h with
    | array hcount heach =>
      refine failsOnly_checked (b := ()) ?_ (failsOnly_addElements heach fun v hv tally fault hrun => ?_)
      · rw [checkLength, if_pos hcount]
      · exact (ih (heach v hv) tally fault hrun).of_within (.array hv)
  | type i => exact htype field i v h

theorem failsOnly_addStruct {field : String} {i : Fin schema.size} {s : StructType schema.size}
    {fields : Entries Value} (hbody : (schema.get i).body = .struct s)
    (h : Conforming schema s.members fields) (typeName : String) (extensibility : Extensibility) :
    FailsOnly (do
      (unlimited repr).addDelimiter extensibility
      s.wireMembers.forM (addMember schema (unlimited repr)
        (addType schema (unlimited repr) levels) typeName fields))
      (Oversized schema field (.type i) (.struct fields)) := by
  refine failsOnly_bind (failsOnly_addDelimiter repr _) fun _ => failsOnly_forM fun m hm => ?_
  have hm := s.perm_wireMembers.mem_iff.1 hm
  unfold addMember
  cases hget : fields.get? m.name with
  | none =>
    cases hoptional : m.optional with
    | true => exact failsOnly_pure ()
    | false =>
      obtain ⟨v, hv⟩ := h.required m hm hoptional
      rw [hget] at hv
      cases hv
  | some v =>
    have hmember : FailsOnly (addValue schema (unlimited repr)
        (addType schema (unlimited repr) levels) m.name m.type v)
        (Oversized schema field (.type i) (.struct fields)) := by
      intro tally fault hrun
      have hvalue := failsOnly_addValue htype (h.each m hm v hget) tally fault hrun
      exact hvalue.of_within (.member hbody hm hget)
    cases hoptional : m.optional with
    | true =>
      refine failsOnly_bind (failsOnly_pad repr 4) fun _ => ?_
      exact failsOnly_bind (failsOnly_add repr 4) fun _ => hmember
    | false => exact hmember

/-- There is no text in a discriminator. -/
theorem failsOnly_discriminator {field : String} {t : MemberType schema.size} {v : Value}
    {m : Member schema.size} {d : Int64} {disc : Value} (htypes : schema.IsDiscriminator m.type)
    (h : discriminatorValue m d = .ok disc) :
    FailsOnly (addValue schema (unlimited repr) (addType schema (unlimited repr) levels) m.name
      m.type disc) (Oversized schema field t v) := by
  unfold discriminatorValue at h
  cases hm : m.type with
  | primitive p =>
    rw [hm] at h
    simp only [] at h
    split at h
    next =>
      split at h
      next s hs =>
        cases h
        have hp : s.primitive = p := Scalar.primitive_of_ofDiscriminator? hs
        simp only [addValue, Value.primitive?, hp, if_true]
        exact failsOnly_addScalar repr _
      next => cases h
    next => cases h
  | type j =>
    rw [hm] at h htypes
    obtain ⟨e, hbody⟩ := htypes
    simp only [] at h
    split at h
    next =>
      cases h
      intro tally fault hrun
      refine (htype m.name j _ (.enumeration hbody) tally fault hrun).imp id ?_
      rintro ⟨name, text, bound, hwithin, -, -⟩
      cases hwithin
    next => cases h
  | _ =>
    rw [hm] at htypes
    exact htypes.elim

theorem failsOnly_addUnion (hschema : schema.WellFormed) (hnames : schema.DistinctNames)
    {field : String} {i : Fin schema.size} {u : UnionType schema.size} {d : Int64}
    {arm : Option (String × Value)} (hbody : (schema.get i).body = .union u)
    (h : Conforms schema (.type i) (.union d arm)) :
    FailsOnly (addUnion schema (unlimited repr) (addType schema (unlimited repr) levels) u d arm)
      (Oversized schema field (.type i) (.union d arm)) := by
  have htypes := hschema.discriminators i u hbody
  unfold addUnion
  cases h with
  | arm hbody' hdisc hselect hconforms =>
    rw [hbody] at hbody'
    cases hbody'
    refine failsOnly_checked hdisc ?_
    refine failsOnly_bind (failsOnly_discriminator htype htypes hdisc) fun _ => ?_
    simp only [activeArm, hselect, if_true]
    intro tally fault hrun
    exact (failsOnly_addValue htype hconforms tally fault hrun).of_within (.arm hbody hselect)
  | noArm hbody' hdisc =>
    rw [hbody] at hbody'
    cases hbody'
    refine failsOnly_checked hdisc ?_
    refine failsOnly_bind (failsOnly_discriminator htype htypes hdisc) fun _ => ?_
    cases hselect : u.select d with
    | none =>
      simp only [activeArm, hselect]
      exact failsOnly_pure ()
    | some selected =>
      -- The arm stands there with its default.
      simp only [activeArm, hselect]
      intro tally fault hrun
      have hdefault := conforms_default hschema hnames selected.member.type
      refine (failsOnly_addValue htype hdefault tally fault hrun).imp id ?_
      rintro ⟨name, text, bound, hwithin, hlong, -⟩
      rw [text_of_within_default hnames hwithin] at hlong
      exact absurd hlong (Nat.not_lt_zero _)

end

/-- Sizing a value that conforms to a declared type finds no fault but that it is too deep, or that
    a text is too long. -/
theorem failsOnly_addType {schema : Schema} (hschema : schema.WellFormed)
    (hnames : schema.DistinctNames) (repr : Representation) (levels : Nat) (field : String)
    (i : Fin schema.size) (v : Value) (h : Conforms schema (.type i) v) :
    FailsOnly (addType schema (unlimited repr) levels field i v)
      (Oversized schema field (.type i) v) := by
  induction levels generalizing field i v with
  | zero => exact failsOnly_throw (.inl ⟨field, rfl⟩)
  | succ levels ih =>
    cases h with
    | struct hbody hsorted hknown hrequired heach =>
      simp only [addType, hbody]
      exact failsOnly_addStruct ih hbody ⟨hsorted, hknown, hrequired, heach⟩ _ _
    | arm hbody hdisc hselect hconforms =>
      simp only [addType, hbody]
      refine failsOnly_bind (failsOnly_addDelimiter repr _) fun _ => ?_
      exact failsOnly_addUnion ih hschema hnames hbody (.arm hbody hdisc hselect hconforms)
    | noArm hbody hdisc =>
      simp only [addType, hbody]
      refine failsOnly_bind (failsOnly_addDelimiter repr _) fun _ => ?_
      exact failsOnly_addUnion ih hschema hnames hbody (.noArm hbody hdisc)
    | enumeration hbody =>
      simp only [addType, hbody]
      exact failsOnly_addScalar repr .int32

namespace Schema

/-- Whatever bytes a compiled schema reads, what it makes of them conforms to the type they are read
    as. The sizes of such a value, in either representation and behind any offset, are refused
    only for its depth, or for a text in it with more bytes than its bound. -/
theorem decode_conforms (doc : Document) (schema : Schema) (hcompile : doc.compile = .ok schema)
    (hnames : schema.DistinctNames) (src : Source) (limit : Limit) (i : Fin schema.size)
    (v : Value) (n : Nat) (hread : (schema.decode src i limit).result = .ok (v, n)) :
    Conforms schema (.type i) v ∧
      ∀ repr offset fault, schema.sizeOf (unlimited repr) i v offset = .error fault →
        (∃ deep, fault = .depthExceeded deep) ∨
          ∃ name text bound,
            Within schema name (.string (some bound)) (.string text) "" (.type i) v ∧
              bound.toNat < text.utf8ByteSize ∧
                fault = .boundExceeded name text.utf8ByteSize bound := by
  have hschema := wellFormed_of_compile hcompile
  have hconforms : Conforms schema (.type i) v := by
    simp only [decode] at hread
    cases hrun : (schema.read src "" i).run (src.start limit) with
    | error fault after =>
      simp only [outcome, hrun] at hread
      cases hread
    | ok w after =>
      simp only [outcome, hrun] at hread
      cases hread
      exact yields_readType hschema hnames src maxDepth "" i _ _ _ hrun
  refine ⟨hconforms, ?_⟩
  intro repr offset fault hsize
  have hfails := failsOnly_addType hschema hnames repr maxDepth "" i v hconforms ⟨offset, 0⟩
  cases hrun : (addType schema (unlimited repr) maxDepth "" i v).run ⟨offset, 0⟩ with
  | ok result =>
    simp only [StateT.run] at hrun
    simp only [sizeOf, hrun] at hsize
    cases hsize
  | error other =>
    have hother := hfails other hrun
    simp only [StateT.run] at hrun
    simp only [sizeOf, hrun] at hsize
    cases hsize
    exact hother

/-- A text of at most two bytes. -/
def labelDoc : Document where
  types := [{ name := "Label", scope := "", fields := [FieldDecl.new "text" "string<2>"] }]

def labels : Schema where
  size := 1
  types := #v[
    { name := "Label"
      scope := ""
      extensibility := .final
      layout := .struct [("text", .pointer)]
      body := .struct ⟨[⟨"text", 0, .string (some 2), false, false⟩]⟩ }]

/-- Three bytes without a terminator are read as a text that sizing refuses. -/
theorem decode_conforms_label :
    let label : Fin labels.size := ⟨0, by decide⟩
    let src : Source := ⟨#[3, 0, 0, 0, 0x61, 0x62, 0x63], ⟨.xcdr1, .little⟩, 0⟩
    let v : Value := .struct [("text", .string "abc")]
    labelDoc.compile = .ok labels ∧ labels.DistinctNames ∧
      (labels.decode src label .infinite).result = .ok (v, 7) ∧ Conforms labels (.type label) v ∧
        labels.sizeOf (unlimited .xcdr1) label v 0 = .error (.boundExceeded "text" 3 2) := by
  intro label src v
  have hcompile : labelDoc.compile = .ok labels := by decide +kernel
  have hnames : labels.DistinctNames := by decide +kernel
  have hread : (labels.decode ⟨#[3, 0, 0, 0, 0x61, 0x62, 0x63], ⟨.xcdr1, .little⟩, 0⟩
      ⟨0, by decide⟩ .infinite).result = .ok (.struct [("text", .string "abc")], 7) := by rfl
  obtain ⟨hconforms, -⟩ :=
    decode_conforms labelDoc labels hcompile hnames src .infinite label v 7 hread
  exact ⟨hcompile, hnames, hread, hconforms, by decide +kernel⟩

end Schema

end Cdr
