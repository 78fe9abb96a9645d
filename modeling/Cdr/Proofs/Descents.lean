import Cdr.Proofs.PassDepth

/-! # What passes go on to

Sizing and writing go down a value and the types of its parts at once. From a value of a declared
type they go on to the values of declared types in its members, in its discriminator and in its arm,
which is a default where the value has none. This is all that a level of a pass asks of the levels
below it. So a pass over a value from which one cannot go on for ever is the same for any number of
levels that is large enough, and does not run out of them.
-/

namespace Cdr

open SizeRules

/-- The values of declared types that a value of a member is made of. -/
inductive MemberType.Part {n : Nat} : MemberType n → Value → Fin n → Value → Prop
  | item {element : MemberType n} {bound : Option UInt32} {items : List Value} {v w : Value}
    {i : Fin n} (mem : v ∈ items) (part : Part element v i w) :
    Part (.sequence element bound) (.sequence items) i w
  | element {element : MemberType n} {length : UInt32} {items : List Value} {v w : Value}
    {i : Fin n} (mem : v ∈ items) (part : Part element v i w) :
    Part (.array element length) (.sequence items) i w
  | type {i : Fin n} {v : Value} : Part (.type i) v i v

namespace MemberType

variable {n : Nat}

theorem hasParts_iff {p : Fin n → Value → Prop} {t : MemberType n} {v : Value} :
    t.HasParts p v ↔ ∀ i w, t.Part v i w → p i w := by
  constructor
  · intro h i w hpart
    induction hpart with
    | item hmem _ ih => exact ih (h _ hmem)
    | element hmem _ ih => exact ih (h _ hmem)
    | type => exact h
  · intro h
    induction t generalizing v with
    | sequence element bound ih =>
      cases v with
      | sequence items => exact fun item hitem => ih fun i w hpart => h i w (.item hitem hpart)
      | _ => trivial
    | array element length ih =>
      cases v with
      | sequence items => exact fun item hitem => ih fun i w hpart => h i w (.element hitem hpart)
      | _ => trivial
    | type i => exact h i v .type
    | _ => cases v <;> trivial

/-- The parts of a default are defaults of the types that are held by value. -/
theorem part_defaultWith {f : Fin n → Value} {t : MemberType n} {i : Fin n} {w : Value}
    (h : t.Part (t.defaultWith f) i w) : i ∈ t.embedded ∧ w = f i := by
  induction t with
  | sequence element bound =>
    cases h with
    | item hmem _ => cases hmem
  | array element length ih =>
    cases h with
    | element hmem hpart =>
      obtain ⟨-, rfl⟩ := List.mem_replicate.1 hmem
      exact ih hpart
  | type j =>
    cases h
    exact ⟨List.mem_cons_self, rfl⟩
  | _ => cases h

end MemberType

namespace Value

theorem levels_le_itemLevels {items : List Value} {v : Value} (h : v ∈ items) :
    v.levels ≤ itemLevels items := by
  induction items with
  | nil => cases h
  | cons first rest ih =>
    rcases List.mem_cons.1 h with rfl | h
    · exact Nat.le_max_left _ _
    · exact Nat.le_trans (ih h) (Nat.le_max_right _ _)

theorem levels_le_fieldLevels {fields : Entries Value} {entry : String × Value}
    (h : entry ∈ fields) : entry.2.levels ≤ fieldLevels fields := by
  induction fields with
  | nil => cases h
  | cons first rest ih =>
    rcases List.mem_cons.1 h with rfl | h
    · exact Nat.le_max_left _ _
    · exact Nat.le_trans (ih h) (Nat.le_max_right _ _)

end Value

/-- Parts are no deeper than the value that they are parts of. -/
theorem MemberType.Part.levels_le {n : Nat} {t : MemberType n} {v w : Value} {i : Fin n}
    (h : t.Part v i w) : w.levels ≤ v.levels := by
  induction h with
  | item hmem _ ih => exact ih.trans (Value.levels_le_itemLevels hmem)
  | element hmem _ ih => exact ih.trans (Value.levels_le_itemLevels hmem)
  | type => exact Nat.le_refl _

namespace Schema

variable (schema : Schema)

/-- What a pass goes on to from a value of a declared type. -/
inductive Descends : Fin schema.size × Value → Fin schema.size × Value → Prop
  | member {i j : Fin schema.size} {s : StructType schema.size} {fields : Entries Value}
    {m : Member schema.size} {v w : Value} (body : (schema.get i).body = .struct s)
    (mem : m ∈ s.members) (value : fields.get? m.name = some v) (part : m.type.Part v j w) :
    Descends (i, .struct fields) (j, w)
  | discriminator {i j : Fin schema.size} {u : UnionType schema.size} {d : Int64}
    {arm : Option (String × Value)} {v w : Value} (body : (schema.get i).body = .union u)
    (value : discriminatorValue u.discriminator d = .ok v)
    (part : u.discriminator.type.Part v j w) : Descends (i, .union d arm) (j, w)
  | arm {i j : Fin schema.size} {u : UnionType schema.size} {d : Int64}
    {arm : Option (String × Value)} {m : Member schema.size} {v w : Value}
    (body : (schema.get i).body = .union u)
    (active : activeArm schema u d arm = .ok (some (m, v))) (part : m.type.Part v j w) :
    Descends (i, .union d arm) (j, w)

/-- Whether a pass that begins with a value is at most `levels` deep. -/
def EndsWithin : Nat → Fin schema.size × Value → Prop
  | 0, _ => False
  | levels + 1, x => ∀ y, schema.Descends x y → EndsWithin levels y

variable {schema}

theorem endsWithin_succ {levels : Nat} {x : Fin schema.size × Value}
    (h : schema.EndsWithin levels x) : schema.EndsWithin (levels + 1) x := by
  induction levels generalizing x with
  | zero => exact h.elim
  | succ levels ih => exact fun y hy => ih (h y hy)

theorem endsWithin_of_le {levels more : Nat} (hle : levels ≤ more) {x : Fin schema.size × Value}
    (h : schema.EndsWithin levels x) : schema.EndsWithin more x := by
  induction hle with
  | refl => exact h
  | step _ ih => exact endsWithin_succ ih

theorem acc_of_endsWithin {levels : Nat} {x : Fin schema.size × Value}
    (h : schema.EndsWithin levels x) : Acc (flip schema.Descends) x := by
  induction levels generalizing x with
  | zero => exact h.elim
  | succ levels ih => exact ⟨x, fun y hy => ih (h y hy)⟩

/-! ## Levels of passes -/

section

variable (schema)

/-- One level of a size pass, where `ofType` counts what is below. -/
def addLevel (rules : SizeRules) (ofType : String → Fin schema.size → Value → SizeM Unit)
    (field : String) (i : Fin schema.size) (v : Value) : SizeM Unit :=
  let t := schema.get i
  match t.body, v with
  | .struct s, .struct fields => do
    rules.addDelimiter t.extensibility
    s.wireMembers.forM (addMember schema rules ofType t.full fields)
  | .union u, .union d arm => do
    rules.addDelimiter t.extensibility
    addUnion schema rules ofType u d arm
  | .enumeration _, .enumeration _ => rules.addScalar .int32
  | _, v => throw (.mismatch field t.full v.kindName)

/-- One level of a write, where `ofType` writes what is below. -/
def writeLevel (e : Encoding) (ofType : String → Fin schema.size → Value → WriteM Unit)
    (field : String) (i : Fin schema.size) (v : Value) : WriteM Unit :=
  let t := schema.get i
  match t.body, v with
  | .struct s, .struct fields =>
    e.writeDelimited t.extensibility
      (s.wireMembers.forM (writeMember schema e ofType t.full fields))
  | .union u, .union d arm =>
    e.writeDelimited t.extensibility (writeUnion schema e ofType u d arm)
  | .enumeration _, .enumeration n => e.writeScalar field .int32 (.scalar (.int32 n))
  | _, v => throw (.mismatch field t.full v.kindName)

/-- That a pass has levels, each of which asks of those below it only what is done with the values
    that it goes on to. -/
structure GoesDown {α : Type}
    (level : (String → Fin schema.size → Value → α) → String → Fin schema.size → Value → α)
    (pass : Nat → String → Fin schema.size → Value → α) : Prop where
  succ : ∀ levels, pass (levels + 1) = level (pass levels)
  asks : ∀ f g field i v,
    (∀ name j w, schema.Descends (i, v) (j, w) → f name j w = g name j w) →
      level f field i v = level g field i v

end

/-- A pass is what its levels are, whatever is below as many of them as a value needs. -/
theorem GoesDown.unfold {α : Type}
    {level : (String → Fin schema.size → Value → α) → String → Fin schema.size → Value → α}
    {pass : Nat → String → Fin schema.size → Value → α} (h : schema.GoesDown level pass)
    {levels more : Nat} (hle : levels ≤ more) {i : Fin schema.size} {v : Value}
    (hends : schema.EndsWithin levels (i, v)) (below : String → Fin schema.size → Value → α)
    (field : String) : level^[more] below field i v = pass levels field i v := by
  induction levels generalizing more field i v with
  | zero => exact hends.elim
  | succ levels ih =>
    obtain ⟨more, rfl⟩ := Nat.exists_eq_succ_of_ne_zero (Nat.ne_of_gt (Nat.lt_of_lt_of_le
      (Nat.succ_pos levels) hle))
    rw [Function.iterate_succ_apply', h.succ]
    refine h.asks _ _ field i v fun name j w hdescends => ?_
    exact ih (Nat.le_of_succ_le_succ hle) (hends (j, w) hdescends) name

/-! ## Sizing -/

theorem forM_congr {m : Type → Type} [Monad m] {α : Type} {f g : α → m Unit} {xs : List α}
    (h : ∀ x ∈ xs, f x = g x) : xs.forM f = xs.forM g := by
  induction xs with
  | nil => rfl
  | cons x rest ih =>
    obtain ⟨hx, hrest⟩ := List.forall_mem_cons.1 h
    change (f x >>= fun _ => rest.forM f) = (g x >>= fun _ => rest.forM g)
    rw [hx, ih hrest]

section

variable (rules : SizeRules) {f g : String → Fin schema.size → Value → SizeM Unit}

theorem checked_congr {α β : Type} {check : Except WireError β} {k l : β → SizeM α}
    (h : ∀ b, check = .ok b → k b = l b) :
    (MonadExcept.ofExcept check >>= k) = MonadExcept.ofExcept check >>= l := by
  cases check with
  | ok b => exact h b rfl
  | error fault => rfl

theorem addElements_congr {each other : Value → SizeM Unit} {items : List Value}
    (h : ∀ v ∈ items, each v = other v) (field : String) (run : Option Primitive) :
    addElements rules each field run items = addElements rules other field run items := by
  unfold addElements
  cases run with
  | some p => rfl
  | none => exact forM_congr h

theorem addValue_congr (field : String) {t : MemberType schema.size} {v : Value}
    (h : ∀ name j w, t.Part v j w → f name j w = g name j w) :
    addValue schema rules f field t v = addValue schema rules g field t v := by
  induction t generalizing v with
  | sequence element bound ih =>
    cases v with
    | sequence items =>
      have hitems : ∀ item ∈ items, addValue schema rules f field element item =
          addValue schema rules g field element item :=
        fun item hitem => ih fun name j w hpart => h name j w (.item hitem hpart)
      simp only [addValue, addElements_congr rules hitems]
    | _ => rfl
  | array element length ih =>
    cases v with
    | sequence items =>
      have hitems : ∀ item ∈ items, addValue schema rules f field element item =
          addValue schema rules g field element item :=
        fun item hitem => ih fun name j w hpart => h name j w (.element hitem hpart)
      simp only [addValue, addElements_congr rules hitems]
    | _ => rfl
  | type i => exact h field i v .type
  | _ => cases v <;> rfl

theorem addMember_congr (typeName : String) {fields : Entries Value} {m : Member schema.size}
    (h : ∀ v, fields.get? m.name = some v →
      ∀ name j w, m.type.Part v j w → f name j w = g name j w) :
    addMember schema rules f typeName fields m = addMember schema rules g typeName fields m := by
  unfold addMember
  cases hget : fields.get? m.name with
  | none => rfl
  | some v => simp only [addValue_congr rules m.name (h v hget)]

theorem addUnion_congr {u : UnionType schema.size} {d : Int64} {arm : Option (String × Value)}
    (hdisc : ∀ disc, discriminatorValue u.discriminator d = .ok disc →
      ∀ name j w, u.discriminator.type.Part disc j w → f name j w = g name j w)
    (harm : ∀ m v, activeArm schema u d arm = .ok (some (m, v)) →
      ∀ name j w, m.type.Part v j w → f name j w = g name j w) :
    addUnion schema rules f u d arm = addUnion schema rules g u d arm := by
  refine checked_congr fun disc hvalue => ?_
  rw [addValue_congr rules _ (hdisc disc hvalue)]
  refine bind_congr fun _ => checked_congr fun active hactive => ?_
  cases active with
  | none => rfl
  | some active => exact addValue_congr rules _ (harm active.1 active.2 hactive)

variable (schema) in
theorem goesDown_addType : schema.GoesDown (schema.addLevel rules) (addType schema rules) where
  succ _ := rfl
  asks f g field i v h := by
    cases hbody : (schema.get i).body with
    | struct s =>
      cases v with
      | struct fields =>
        simp only [addLevel, hbody]
        refine bind_congr fun _ => forM_congr fun m hm => addMember_congr rules _ ?_
        intro v hget name j w hpart
        exact h name j w (.member hbody (s.perm_wireMembers.mem_iff.1 hm) hget hpart)
      | _ => simp only [addLevel, hbody]
    | union u =>
      cases v with
      | union d arm =>
        simp only [addLevel, hbody]
        refine bind_congr fun _ => addUnion_congr rules ?_ ?_
        · intro disc hvalue name j w hpart
          exact h name j w (.discriminator hbody hvalue hpart)
        · intro m v hactive name j w hpart
          exact h name j w (.arm hbody hactive hpart)
      | _ => simp only [addLevel, hbody]
    | enumeration e => cases v <;> simp only [addLevel, hbody]

/-- A size pass that has as many levels as a value needs does not find it too deep. -/
theorem shallow_of_endsWithin {levels : Nat} (field : String) {i : Fin schema.size} {v : Value}
    (h : schema.EndsWithin levels (i, v)) : Shallow (addType schema rules levels field i v) := by
  induction levels generalizing field i v with
  | zero => exact h.elim
  | succ levels ih =>
    have htype : ∀ field j w, schema.EndsWithin levels (j, w) →
        Shallow (addType schema rules levels field j w) := fun field j w => ih field
    cases hbody : (schema.get i).body with
    | struct s =>
      cases v with
      | struct fields =>
        simp only [addType, hbody]
        refine failsOnly_bind (rules.shallow_addDelimiter _) fun _ => ?_
        refine failsOnly_forM fun m hm => shallow_addMember htype _ fun w hget => ?_
        refine MemberType.hasParts_iff.2 fun j part hpart => h (j, part) ?_
        exact .member hbody (s.perm_wireMembers.mem_iff.1 hm) hget hpart
      | _ =>
        simp only [addType, hbody]
        exact failsOnly_throw rfl
    | union u =>
      cases v with
      | union d arm =>
        simp only [addType, hbody]
        refine failsOnly_bind (rules.shallow_addDelimiter _) fun _ => ?_
        refine shallow_addUnion htype (fun disc hvalue => ?_) fun m w hactive => ?_
        · exact MemberType.hasParts_iff.2 fun j part hpart =>
            h (j, part) (.discriminator hbody hvalue hpart)
        · exact MemberType.hasParts_iff.2 fun j part hpart =>
            h (j, part) (.arm hbody hactive hpart)
      | _ =>
        simp only [addType, hbody]
        exact failsOnly_throw rfl
    | enumeration e =>
      cases v with
      | enumeration n =>
        simp only [addType, hbody]
        exact rules.shallow_addScalar .int32
      | _ =>
        simp only [addType, hbody]
        exact failsOnly_throw rfl

end

/-! ## Writing -/

section

variable (e : Encoding) {f g : String → Fin schema.size → Value → WriteM Unit}

theorem checked_write_congr {α β : Type} {check : Except WireError β} {k l : β → WriteM α}
    (h : ∀ b, check = .ok b → k b = l b) :
    (MonadExcept.ofExcept check >>= k) = MonadExcept.ofExcept check >>= l := by
  cases check with
  | ok b => exact h b rfl
  | error fault => rfl

theorem writeElements_congr {each other : Value → WriteM Unit} {items : List Value}
    (h : ∀ v ∈ items, each v = other v) (field : String) (run : Option Primitive) :
    e.writeElements each field run items = e.writeElements other field run items := by
  unfold Encoding.writeElements
  cases run with
  | some p => rfl
  | none => exact forM_congr h

theorem writeValue_congr (field : String) {t : MemberType schema.size} {v : Value}
    (h : ∀ name j w, t.Part v j w → f name j w = g name j w) :
    writeValue schema e f field t v = writeValue schema e g field t v := by
  induction t generalizing v with
  | sequence element bound ih =>
    cases v with
    | sequence items =>
      have hitems : ∀ item ∈ items, writeValue schema e f field element item =
          writeValue schema e g field element item :=
        fun item hitem => ih fun name j w hpart => h name j w (.item hitem hpart)
      simp only [writeValue, writeElements_congr e hitems]
    | _ => rfl
  | array element length ih =>
    cases v with
    | sequence items =>
      have hitems : ∀ item ∈ items, writeValue schema e f field element item =
          writeValue schema e g field element item :=
        fun item hitem => ih fun name j w hpart => h name j w (.element hitem hpart)
      simp only [writeValue, writeElements_congr e hitems]
    | _ => rfl
  | type i => exact h field i v .type
  | _ => cases v <;> rfl

theorem writeMember_congr (typeName : String) {fields : Entries Value} {m : Member schema.size}
    (h : ∀ v, fields.get? m.name = some v →
      ∀ name j w, m.type.Part v j w → f name j w = g name j w) :
    writeMember schema e f typeName fields m = writeMember schema e g typeName fields m := by
  unfold writeMember
  cases hget : fields.get? m.name with
  | none => rfl
  | some v => simp only [writeValue_congr e m.name (h v hget)]

theorem writeUnion_congr {u : UnionType schema.size} {d : Int64} {arm : Option (String × Value)}
    (hdisc : ∀ disc, discriminatorValue u.discriminator d = .ok disc →
      ∀ name j w, u.discriminator.type.Part disc j w → f name j w = g name j w)
    (harm : ∀ m v, activeArm schema u d arm = .ok (some (m, v)) →
      ∀ name j w, m.type.Part v j w → f name j w = g name j w) :
    writeUnion schema e f u d arm = writeUnion schema e g u d arm := by
  refine checked_write_congr fun disc hvalue => ?_
  rw [writeValue_congr e _ (hdisc disc hvalue)]
  refine bind_congr fun _ => checked_write_congr fun active hactive => ?_
  cases active with
  | none => rfl
  | some active => exact writeValue_congr e _ (harm active.1 active.2 hactive)

variable (schema) in
theorem goesDown_writeType : schema.GoesDown (schema.writeLevel e) (writeType schema e) where
  succ _ := rfl
  asks f g field i v h := by
    cases hbody : (schema.get i).body with
    | struct s =>
      cases v with
      | struct fields =>
        simp only [writeLevel, hbody]
        refine congrArg (e.writeDelimited _) (forM_congr fun m hm => writeMember_congr e _ ?_)
        intro v hget name j w hpart
        exact h name j w (.member hbody (s.perm_wireMembers.mem_iff.1 hm) hget hpart)
      | _ => simp only [writeLevel, hbody]
    | union u =>
      cases v with
      | union d arm =>
        simp only [writeLevel, hbody]
        refine congrArg (e.writeDelimited _) (writeUnion_congr e ?_ ?_)
        · intro disc hvalue name j w hpart
          exact h name j w (.discriminator hbody hvalue hpart)
        · intro m v hactive name j w hpart
          exact h name j w (.arm hbody hactive hpart)
      | _ => simp only [writeLevel, hbody]
    | enumeration es => cases v <;> simp only [writeLevel, hbody]

end

end Schema

end Cdr
