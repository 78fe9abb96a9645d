import Cdr.Proofs.Nesting

/-! # Passes that are deep enough

Sizing and writing answer that a value is too deep only where the value nests deeper than the levels
they have. This is so for any limit of a size pass and for any sink.
-/

namespace Cdr

/-! ## Sizing -/

/-- Whether the error is that a value nests too deep. -/
def WireError.isDeep : WireError → Bool
  | depthExceeded _ => true
  | _ => false

section

variable {field : String} {fault : WireError}

theorem isDeep_of_checkBound {count : Nat} {bound : Option UInt32}
    (h : checkBound field count bound = .error fault) : fault.isDeep = false := by
  unfold checkBound at h
  split at h
  · cases h
  · split at h <;> cases h
    rfl

theorem isDeep_of_checkCapacity {found : Nat} {capacity : UInt32}
    (h : checkCapacity field found capacity = .error fault) : fault.isDeep = false := by
  unfold checkCapacity at h
  split at h <;> cases h
  rfl

theorem isDeep_of_checkLength {found : Nat} {expected : UInt32}
    (h : checkLength field found expected = .error fault) : fault.isDeep = false := by
  unfold checkLength at h
  split at h <;> cases h
  rfl

theorem isDeep_of_discriminatorValue {n : Nat} {m : Member n} {d : Int64}
    (h : discriminatorValue m d = .error fault) : fault.isDeep = false := by
  unfold discriminatorValue at h
  split at h
  · split at h
    · split at h <;> cases h
      rfl
    · cases h
      rfl
  · split at h <;> cases h
    rfl
  · cases h
    rfl

theorem isDeep_of_activeArm {schema : Schema} {u : UnionType schema.size} {d : Int64}
    {arm : Option (String × Value)} (h : activeArm schema u d arm = .error fault) :
    fault.isDeep = false := by
  unfold activeArm at h
  split at h
  · split at h <;> cases h
    rfl
  · cases h
  · cases h
    rfl
  · cases h

end

namespace MemberType

/-- Whether the values of declared types that a value is made of are so. What is not of the type
    has no such parts. -/
def HasParts {n : Nat} (ofType : Fin n → Value → Prop) : MemberType n → Value → Prop
  | sequence element _, .sequence items => ∀ v ∈ items, element.HasParts ofType v
  | array element _, .sequence items => ∀ v ∈ items, element.HasParts ofType v
  | type index, v => ofType index v
  | _, _ => True

theorem NestsWith.hasParts {n : Nat} {p : Fin n → Value → Prop} {t : MemberType n} {v : Value}
    (h : t.NestsWith p v) : t.HasParts p v := by
  induction t generalizing v with
  | sequence element bound ih =>
    cases v with
    | sequence items => exact fun item hitem => ih (h item hitem)
    | _ => exact h.elim
  | array element length ih =>
    cases v with
    | sequence items => exact fun item hitem => ih (h item hitem)
    | _ => exact h.elim
  | type i => exact h
  | _ => cases v <;> trivial

end MemberType

namespace SizeRules

variable (rules : SizeRules) {α β : Type}

/-- A size pass that does not find a value too deep. -/
def Shallow (m : SizeM α) : Prop :=
  FailsOnly m fun fault => fault.isDeep = false

theorem shallow_add (bytes : Nat) : Shallow (rules.add bytes) := by
  intro tally fault hrun
  simp only [StateT.run, add] at hrun
  split at hrun
  · cases hrun
    rfl
  · cases hrun

theorem shallow_pad (alignment : Nat) : Shallow (rules.pad alignment) := by
  refine failsOnly_bind ?_ fun tally => rules.shallow_add _
  intro tally fault hrun
  cases hrun

theorem shallow_addScalar (p : Primitive) : Shallow (rules.addScalar p) :=
  failsOnly_bind (rules.shallow_pad _) fun _ => rules.shallow_add _

theorem shallow_addDelimiter (extensibility : Extensibility) :
    Shallow (rules.addDelimiter extensibility) := by
  unfold addDelimiter
  split
  · exact rules.shallow_addScalar .uint32
  · exact failsOnly_pure ()

theorem shallow_checked {check : Except WireError β} {k : β → SizeM α}
    (hcheck : ∀ fault, check = .error fault → fault.isDeep = false)
    (hk : ∀ b, check = .ok b → Shallow (k b)) :
    Shallow (do let b ← MonadExcept.ofExcept check; k b) := by
  cases check with
  | ok b => exact hk b rfl
  | error fault => exact failsOnly_throw (hcheck fault rfl)

theorem shallow_addElements {each : Value → SizeM Unit} {items : List Value}
    (heach : ∀ v ∈ items, Shallow (each v)) (field : String) (run : Option Primitive) :
    Shallow (addElements rules each field run items) := by
  unfold addElements
  split
  · split
    · exact failsOnly_pure ()
    · split
      · exact failsOnly_throw rfl
      · exact failsOnly_bind (rules.shallow_pad _) fun _ => rules.shallow_add _
  · exact failsOnly_forM heach

end SizeRules

section

open SizeRules

variable {schema : Schema} {rules : SizeRules} {p : Fin schema.size → Value → Prop}
  {addType : String → Fin schema.size → Value → SizeM Unit}
  (htype : ∀ field i v, p i v → Shallow (addType field i v))

include htype

theorem shallow_addValue (field : String) {t : MemberType schema.size} {v : Value}
    (h : t.HasParts p v) : Shallow (addValue schema rules addType field t v) := by
  induction t generalizing v with
  | primitive q =>
    unfold addValue
    split
    · exact rules.shallow_addScalar q
    · exact failsOnly_throw rfl
  | string bound =>
    cases v with
    | string text =>
      refine shallow_checked (fun fault => isDeep_of_checkBound) fun _ _ => ?_
      exact failsOnly_bind (rules.shallow_addScalar _) fun _ => rules.shallow_add _
    | _ => exact failsOnly_throw rfl
  | fixedString capacity =>
    cases v with
    | string text =>
      exact shallow_checked (fun fault => isDeep_of_checkCapacity) fun _ _ => rules.shallow_add _
    | _ => exact failsOnly_throw rfl
  | sequence element bound ih =>
    cases v with
    | sequence items =>
      refine shallow_checked (fun fault => isDeep_of_checkBound) fun _ _ => ?_
      refine failsOnly_bind (rules.shallow_addScalar _) fun _ => ?_
      exact rules.shallow_addElements (fun item hitem => ih (h item hitem)) field _
    | _ => exact failsOnly_throw rfl
  | array element length ih =>
    cases v with
    | sequence items =>
      refine shallow_checked (fun fault => isDeep_of_checkLength) fun _ _ => ?_
      exact rules.shallow_addElements (fun item hitem => ih (h item hitem)) field _
    | _ => exact failsOnly_throw rfl
  | type i => exact htype field i v h

theorem shallow_addMember (typeName : String) {fields : Entries Value} {m : Member schema.size}
    (h : ∀ v, fields.get? m.name = some v → m.type.HasParts p v) :
    Shallow (addMember schema rules addType typeName fields m) := by
  unfold addMember
  split
  next v hget =>
    have hvalue : Shallow (addValue schema rules addType m.name m.type v) :=
      shallow_addValue htype m.name (h v hget)
    split
    · refine failsOnly_bind (rules.shallow_pad 4) fun _ => ?_
      exact failsOnly_bind (rules.shallow_add 4) fun _ => hvalue
    · exact hvalue
  next =>
    split
    · exact failsOnly_pure ()
    · exact failsOnly_throw rfl

theorem shallow_addUnion {u : UnionType schema.size} {d : Int64} {arm : Option (String × Value)}
    (hdisc : ∀ disc, discriminatorValue u.discriminator d = .ok disc →
      u.discriminator.type.HasParts p disc)
    (harm : ∀ m v, activeArm schema u d arm = .ok (some (m, v)) → m.type.HasParts p v) :
    Shallow (addUnion schema rules addType u d arm) := by
  refine shallow_checked (fun fault => isDeep_of_discriminatorValue) fun disc hd => ?_
  refine failsOnly_bind (shallow_addValue htype _ (hdisc disc hd)) fun _ => ?_
  refine shallow_checked (fun fault => isDeep_of_activeArm) fun active hactive => ?_
  cases active with
  | none => exact failsOnly_pure ()
  | some stands => exact shallow_addValue htype _ (harm stands.1 stands.2 hactive)

end

namespace Schema

/-- The member of an entry is the one that has its name, where names are distinct. -/
theorem nestsWith_of_get? {schema : Schema} {s : StructType schema.size}
    (hdistinct : (s.members.map Member.name).Nodup) {p : Fin schema.size → Value → Prop}
    {fields : Entries Value}
    (h : ∀ entry ∈ fields, ∃ m ∈ s.members, m.name = entry.1 ∧ m.type.NestsWith p entry.2)
    {m : Member schema.size} (hm : m ∈ s.members) {v : Value}
    (hget : fields.get? m.name = some v) : m.type.NestsWith p v := by
  obtain ⟨other, hother, hname, hv⟩ := h _ (Entries.mem_of_get? hget)
  have hsame : other = m := List.inj_on_of_nodup_map hdistinct hother hm hname
  subst hsame
  exact hv

/-- What nests within the levels of a size pass is not too deep for it. -/
theorem shallow_addType {schema : Schema} (hnames : schema.DistinctNames) (rules : SizeRules)
    {levels : Nat} (field : String) {i : Fin schema.size} {v : Value}
    (h : schema.NestsWithin levels i v) :
    SizeRules.Shallow (addType schema rules levels field i v) := by
  induction levels generalizing field i v with
  | zero => exact h.elim
  | succ levels ih =>
    have htype : ∀ field j w, schema.NestsWithin levels j w →
        SizeRules.Shallow (addType schema rules levels field j w) := fun field _ _ => ih field
    simp only [NestsWithin] at h
    split at h
    next s fields hbody =>
      simp only [addType, hbody]
      refine SizeRules.failsOnly_bind (rules.shallow_addDelimiter _) fun _ => ?_
      refine SizeRules.failsOnly_forM fun m hm => ?_
      have hmem := s.perm_wireMembers.mem_iff.1 hm
      refine shallow_addMember htype _ fun w hget => ?_
      exact (nestsWith_of_get? (hnames.nodup hbody) h hmem hget).hasParts
    next u d arm hbody =>
      obtain ⟨hdisc, active, hactive, harm⟩ := h
      simp only [addType, hbody]
      refine SizeRules.failsOnly_bind (rules.shallow_addDelimiter _) fun _ => ?_
      refine shallow_addUnion htype (fun disc hd => (hdisc disc hd).hasParts) fun m w hw => ?_
      exact (harm m w (Except.ok.inj (hactive.symm.trans hw))).hasParts
    next hbody =>
      simp only [addType, hbody]
      exact rules.shallow_addScalar .int32
    next => exact h.elim

/-- A size pass does not answer that a value is too deep when it nests within the levels of one. -/
theorem sizeOf_of_nestsWithin {schema : Schema} (hnames : schema.DistinctNames)
    {i : Fin schema.size} {v : Value} (h : schema.NestsWithin maxDepth i v) (rules : SizeRules)
    (offset : Nat) (field : String) :
    schema.sizeOf rules i v offset ≠ .error (.depthExceeded field) := by
  intro hdeep
  have hshallow := shallow_addType hnames rules "" h _ _ (run_of_sizeOf hdeep)
  cases hshallow

end Schema

/-! ## Writing -/

namespace Image

/-- An image that is not missing because a value is too deep. -/
def Shallow (image : Image) : Prop :=
  ∀ x obstacle, image x = .error obstacle → obstacle.error.isDeep = false

/-- What is too deep for an image is too deep for a size pass, as no other obstacle tells of the
    depth. -/
theorem shallow_of_counts {s : SizeM Unit} {image : Image} (hcounts : SizeRules.Counts s image)
    (h : SizeRules.Shallow s) : Shallow image := by
  intro x obstacle himage
  have hcounted := hcounts x 0
  rw [himage] at hcounted
  rcases hcounted with honly | hrun
  · cases obstacle with
    | refused fault => exact honly.elim
    | _ => rfl
  · exact h _ _ hrun

end Image

namespace Schema

theorem shallow_typeImage {schema : Schema} (hnames : schema.DistinctNames) (e : Encoding)
    {levels : Nat} (field : String) {i : Fin schema.size} {v : Value}
    (h : schema.NestsWithin levels i v) : Image.Shallow (typeImage schema e levels field i v) :=
  Image.shallow_of_counts (counts_type schema e.repr e.order levels field i v)
    (shallow_addType hnames _ field h)

end Schema

/-- A script fails for its sink only. -/
theorem Script.isDeep_of_perform {ops : Script} {w after : Writer} {fault : WireError}
    (h : (perform ops).run w = .error fault after) : fault.isDeep = false := by
  induction ops generalizing w with
  | nil => cases h
  | cons op rest ih =>
    simp only [perform, EStateM.run_bind] at h
    cases hop : op.run.run w with
    | ok _ mid =>
      rw [hop] at h
      exact ih h
    | error other mid =>
      rw [hop] at h
      cases h
      cases op with
      | emit chunk =>
        simp only [SinkOp.run, EStateM.run, WriteM.emit] at hop
        split at hop <;> cases hop
        rfl
      | patch back chunk =>
        simp only [SinkOp.run, EStateM.run, WriteM.patch] at hop
        split at hop <;> cases hop
        rfl

/-- A writer for an image that is not missing for its depth does not fail for it, whatever it
    writes to. -/
theorem WriteM.isDeep_of_run {m : WriteM Unit} {image : Image} (hwrites : Writes m image)
    (himage : Image.Shallow image) {w after : Writer} {fault : WireError}
    (hrun : m.run w = .error fault after) : fault.isDeep = false := by
  have hperforms := hwrites w.position
  cases hresult : image w.position with
  | ok b =>
    rw [hresult] at hperforms
    obtain ⟨ops, -, hperform⟩ := hperforms
    rw [hperform] at hrun
    exact Script.isDeep_of_perform hrun
  | error obstacle =>
    rw [hresult] at hperforms
    obtain ⟨ops, -, hperform⟩ := hperforms
    rw [hperform, EStateM.run_bind] at hrun
    cases hscript : (Script.perform ops).run w with
    | ok _ mid =>
      rw [hscript] at hrun
      injection hrun with herror
      exact herror ▸ himage w.position obstacle hresult
    | error other mid =>
      rw [hscript] at hrun
      cases hrun
      exact Script.isDeep_of_perform hscript

namespace Schema

/-- A writer does not answer that a value is too deep when it nests within the levels of one,
    whatever it writes to. -/
theorem encode_of_nestsWithin {schema : Schema} (hnames : schema.DistinctNames)
    {i : Fin schema.size} {v : Value} (h : schema.NestsWithin maxDepth i v) (e : Encoding)
    (sink : Sink) (offset : Nat) (field : String) :
    (schema.encode e sink i v offset).1 ≠ .error (.depthExceeded field) := by
  intro hdeep
  obtain ⟨last, hrun⟩ : ∃ last, (writeType schema e maxDepth "" i v).run ⟨sink, offset⟩ =
      .error (.depthExceeded field) last := by
    simp only [encode, write, WriteM.outcome] at hdeep
    cases hrun : (writeType schema e maxDepth "" i v).run ⟨sink, offset⟩ with
    | ok _ last =>
      rw [hrun] at hdeep
      cases hdeep
    | error fault last =>
      rw [hrun] at hdeep
      cases hdeep
      exact ⟨last, rfl⟩
  have hshallow := shallow_typeImage hnames e "" h
  cases WriteM.isDeep_of_run (writes_type schema e maxDepth "" i v) hshallow hrun

end Schema

end Cdr
