import Cdr.Proofs.AlikeSchemas
import Cdr.Proofs.Descents
import Cdr.Proofs.EncodableDefaults
import Cdr.Proofs.LeastSizes

/-! # Recursion over types ends

Defaults and fewest bytes are found by recursion over the types of a schema, which goes through a
table and not down a structure. Each step from a declared type goes on to a type that it holds by
value, and compiling admits no cycle of these. So the recursion ends from every type, types that
hold themselves through sequences and optional members included, and unfolding it as often as there
are types leaves nothing to be unfolded. What sizing and writing fill in for arms goes on in the
same way, unless a required member shares its name with another member, which then takes its
default.
-/

namespace Cdr

open SizeRules

/-- Whether no other member of a struct bears the name of a required one. -/
def TypeBody.UnsharedNames {n : Nat} : TypeBody n → Prop
  | struct s => ∀ m ∈ s.members, m.optional = false → ∀ other ∈ s.members,
    other.name = m.name → other = m
  | _ => True

instance {n : Nat} (body : TypeBody n) : Decidable body.UnsharedNames :=
  match body with
  | .struct s => inferInstanceAs (Decidable (∀ m ∈ s.members, m.optional = false →
      ∀ other ∈ s.members, other.name = m.name → other = m))
  | .union _ => .isTrue trivial
  | .enumeration _ => .isTrue trivial

namespace Schema

variable (schema : Schema)

/-- The members that the default of a declared type is made of. -/
def neededMembers (i : Fin schema.size) : List (Member schema.size) :=
  match (schema.get i).body with
  | .struct s => s.members.filter fun m => !m.optional
  | _ => []

/-- The members whose fewest bytes add up to those of a declared type. A framed body may be
    empty. -/
def countedMembers (repr : Representation) (i : Fin schema.size) : List (Member schema.size) :=
  if repr.isDelimited (schema.get i).extensibility then []
  else
    match (schema.get i).body with
    | .struct s => s.members.filter fun m => !m.optional
    | .union u => [u.discriminator]
    | .enumeration _ => []

/-- What a recursion over the types of members calls from what. It goes on from an array to the
    elements, and from a declared type to the members that are listed for it. -/
inductive CalledBy (members : Fin schema.size → List (Member schema.size)) :
    MemberType schema.size → MemberType schema.size → Prop
  | element {element : MemberType schema.size} {length : UInt32} :
    CalledBy members element (.array element length)
  | member {i : Fin schema.size} {m : Member schema.size} (mem : m ∈ members i) :
    CalledBy members m.type (.type i)

variable {schema}

/-- A recursion ends from a type when it does from the declared types that are held by value. -/
theorem acc_of_embedded {members : Fin schema.size → List (Member schema.size)}
    {t : MemberType schema.size}
    (h : ∀ j ∈ t.embedded, Acc (schema.CalledBy members) (.type j)) :
    Acc (schema.CalledBy members) t := by
  induction t with
  | array element length ih =>
    refine ⟨_, fun callee hcall => ?_⟩
    cases hcall
    exact ih h
  | type i => exact h i List.mem_cons_self
  | _ => exact ⟨_, nofun⟩

/-- A recursion whose calls follow what types hold by value ends from every declared type. The
    induction is on the longest chain of types. -/
theorem acc_of_chains {members : Fin schema.size → List (Member schema.size)}
    (hheld : ∀ i, ∀ m ∈ members i, ∀ j ∈ m.type.embedded, schema.HoldsByValue i j) {levels : Nat}
    {i : Fin schema.size} (h : schema.ChainsWithin levels i) :
    Acc (schema.CalledBy members) (.type i) := by
  induction levels generalizing i with
  | zero => exact h.elim
  | succ levels ih =>
    refine ⟨_, fun callee hcall => ?_⟩
    cases hcall with
    | member hm => exact acc_of_embedded fun j hj => ih (h j (hheld i _ hm j hj))

variable (schema) in
/-- That a recursion over types ends, with the results `f`. It is given by the members it goes on to
    from a declared type, and by one step of it, which has the results for all types at hand. -/
structure RecursionEnds {α : Type} (members : Fin schema.size → List (Member schema.size))
    (step : (Fin schema.size → α) → Fin schema.size → α) (f : Fin schema.size → α) : Prop where
  /-- A step goes on to types that are held by value. -/
  held : ∀ i, ∀ m ∈ members i, ∀ j ∈ m.type.embedded, schema.HoldsByValue i j
  /-- A step looks at the results for no other types. -/
  asks : ∀ i g h, (∀ m ∈ members i, ∀ j ∈ m.type.embedded, g j = h j) → step g i = step h i
  ends : WellFounded (schema.CalledBy members)
  solves : step f = f
  /-- Unfolded as often as there are types, nothing is left to unfold. -/
  unfolded : ∀ levels, schema.size ≤ levels → ∀ start, step^[levels] start = f

/-- Unfolding a recursion does not reach further than chains of types do. -/
theorem iterate_of_chains {α : Type} {members : Fin schema.size → List (Member schema.size)}
    {step : (Fin schema.size → α) → Fin schema.size → α}
    (hheld : ∀ i, ∀ m ∈ members i, ∀ j ∈ m.type.embedded, schema.HoldsByValue i j)
    (hasks : ∀ i g h, (∀ m ∈ members i, ∀ j ∈ m.type.embedded, g j = h j) → step g i = step h i)
    {levels more : Nat} (hle : levels ≤ more) {i : Fin schema.size}
    (h : schema.ChainsWithin levels i) (start start' : Fin schema.size → α) :
    step^[more] start i = step^[levels] start' i := by
  induction levels generalizing more i with
  | zero => exact h.elim
  | succ levels ih =>
    obtain ⟨more, rfl⟩ := Nat.exists_eq_succ_of_ne_zero (Nat.ne_of_gt (Nat.lt_of_lt_of_le
      (Nat.succ_pos levels) hle))
    rw [Function.iterate_succ_apply', Function.iterate_succ_apply']
    exact hasks i _ _ fun m hm j hj => ih (Nat.le_of_succ_le_succ hle) (h j (hheld i m hm j hj))

theorem recursionEnds {α : Type} {members : Fin schema.size → List (Member schema.size)}
    {step : (Fin schema.size → α) → Fin schema.size → α} {f : Fin schema.size → α}
    (hchains : ∀ i, schema.ChainsWithin schema.size i)
    (hheld : ∀ i, ∀ m ∈ members i, ∀ j ∈ m.type.embedded, schema.HoldsByValue i j)
    (hasks : ∀ i g h, (∀ m ∈ members i, ∀ j ∈ m.type.embedded, g j = h j) → step g i = step h i)
    {start : Fin schema.size → α} (hf : f = step^[schema.size] start) :
    schema.RecursionEnds members step f := by
  have hsame : ∀ levels, schema.size ≤ levels → ∀ other, step^[levels] other = f := by
    intro levels hle other
    funext i
    rw [hf]
    exact iterate_of_chains hheld hasks hle (hchains i) other start
  refine ⟨hheld, hasks, ⟨fun t => ?_⟩, ?_, hsame⟩
  · exact acc_of_embedded fun j _ => acc_of_chains hheld (hchains j)
  · have hmore := hsame (schema.size + 1) (Nat.le_succ _) start
    rw [Function.iterate_succ_apply', ← hf] at hmore
    exact hmore

/-! ## Defaults and fewest bytes -/

variable (schema)

/-- One step of the recursion that makes the default of a type. -/
def defaultStep (ofType : Fin schema.size → Value) (i : Fin schema.size) : Value :=
  match (schema.get i).body with
  | .struct s => .struct (s.defaultFields ofType)
  | .union _ => .union 0 none
  | .enumeration e => .enumeration e.default

/-- One step of the recursion that adds up the fewest bytes of a type. -/
def minSizeStep (repr : Representation) (ofType : Fin schema.size → Nat) (i : Fin schema.size) :
    Nat :=
  if repr.isDelimited (schema.get i).extensibility then 4
  else
    match (schema.get i).body with
    | .enumeration _ => 4
    | _ => ((schema.countedMembers repr i).map fun m => m.type.minSizeWith ofType).foldr (· + ·) 0

theorem defaultWithin_eq_iterate (levels : Nat) :
    schema.defaultWithin levels = schema.defaultStep^[levels] fun _ => .struct [] := by
  induction levels with
  | zero => rfl
  | succ levels ih =>
    rw [Function.iterate_succ_apply', ← ih]
    rfl

theorem minSizeWithin_eq_iterate (repr : Representation) (levels : Nat) :
    schema.minSizeWithin repr levels = (schema.minSizeStep repr)^[levels] fun _ => 0 := by
  induction levels with
  | zero => rfl
  | succ levels ih =>
    rw [Function.iterate_succ_apply', ← ih]
    funext i
    unfold minSizeWithin minSizeStep countedMembers
    by_cases hframed : repr.isDelimited (schema.get i).extensibility = true
    · simp only [hframed, if_true]
    · simp only [hframed, Bool.false_eq_true, if_false]
      cases (schema.get i).body with
      | struct s => rfl
      | union u => rfl
      | enumeration e => rfl

variable {schema}

theorem held_of_needed {i j : Fin schema.size} {m : Member schema.size}
    (hm : m ∈ schema.neededMembers i) (hj : j ∈ m.type.embedded) : schema.HoldsByValue i j := by
  unfold neededMembers at hm
  unfold HoldsByValue
  cases hbody : (schema.get i).body with
  | struct s =>
    rw [hbody] at hm
    exact List.mem_flatMap.2 ⟨m, hm, hj⟩
  | _ =>
    rw [hbody] at hm
    cases hm

theorem held_of_counted {repr : Representation} {i j : Fin schema.size} {m : Member schema.size}
    (hm : m ∈ schema.countedMembers repr i) (hj : j ∈ m.type.embedded) :
    schema.HoldsByValue i j := by
  unfold countedMembers at hm
  unfold HoldsByValue
  split at hm
  · cases hm
  · cases hbody : (schema.get i).body with
    | struct s =>
      rw [hbody] at hm
      exact List.mem_flatMap.2 ⟨m, hm, hj⟩
    | union u =>
      rw [hbody] at hm
      obtain rfl := List.mem_singleton.1 hm
      exact TypeBody.embedded_of_discriminator hj
    | enumeration e =>
      rw [hbody] at hm
      cases hm

theorem defaultStep_congr {i : Fin schema.size} {g h : Fin schema.size → Value}
    (hsame : ∀ m ∈ schema.neededMembers i, ∀ j ∈ m.type.embedded, g j = h j) :
    schema.defaultStep g i = schema.defaultStep h i := by
  unfold neededMembers at hsame
  unfold defaultStep StructType.defaultFields
  cases hbody : (schema.get i).body with
  | struct s =>
    rw [hbody] at hsame
    refine congrArg (fun pairs => Value.struct (Entries.ofList pairs)) ?_
    refine List.map_congr_left fun m hm => ?_
    rw [MemberType.defaultWith_congr (MemberType.groundedWith_of_embedded (hsame m hm))]
  | _ => rfl

theorem minSizeStep_congr {repr : Representation} {i : Fin schema.size}
    {g h : Fin schema.size → Nat}
    (hsame : ∀ m ∈ schema.countedMembers repr i, ∀ j ∈ m.type.embedded, g j = h j) :
    schema.minSizeStep repr g i = schema.minSizeStep repr h i := by
  have hmembers := List.map_congr_left fun m hm => MemberType.minSizeWith_congr (hsame m hm)
  simp only [minSizeStep, hmembers]

theorem defaults_end (hchains : ∀ i, schema.ChainsWithin schema.size i) :
    schema.RecursionEnds schema.neededMembers schema.defaultStep fun i =>
      schema.default (.type i) :=
  recursionEnds hchains (fun _ _ hm _ => held_of_needed hm) (fun _ _ _ => defaultStep_congr)
    (schema.defaultWithin_eq_iterate schema.size)

theorem minSizes_end (hchains : ∀ i, schema.ChainsWithin schema.size i) (repr : Representation) :
    schema.RecursionEnds (schema.countedMembers repr) (schema.minSizeStep repr) fun i =>
      schema.minSize repr (.type i) :=
  recursionEnds hchains (fun _ _ hm _ => held_of_counted hm) (fun _ _ _ => minSizeStep_congr)
    (schema.minSizeWithin_eq_iterate repr schema.size)

/-! ## What is filled in -/

end Schema

/-- A member that the default of a struct has a value for is required and has its own default, where
    no required member shares its name. -/
theorem StructType.get?_defaultFields {n : Nat} {s : StructType n}
    (hnames : (TypeBody.struct s).UnsharedNames) {ofType : Fin n → Value} {m : Member n}
    (hm : m ∈ s.members) {v : Value} (hget : (s.defaultFields ofType).get? m.name = some v) :
    m.optional = false ∧ v = m.type.defaultWith ofType := by
  obtain ⟨other, hother, hrequired, hentry⟩ := StructType.mem_needed (Entries.mem_of_get? hget)
  obtain ⟨hname, rfl⟩ := Prod.mk.inj hentry
  obtain rfl := hnames other hother hrequired m hm hname
  exact ⟨hrequired, rfl⟩

namespace Schema

section

variable (schema : Schema)

/-- Whether no struct has a member with the name of another one that is required. -/
def UnsharedNames : Prop :=
  ∀ i, (schema.get i).body.UnsharedNames

instance : Decidable schema.UnsharedNames :=
  inferInstanceAs (Decidable (∀ i, (schema.get i).body.UnsharedNames))

/-- The values from which a pass goes on to nothing that was given to it: defaults, unions without
    an arm, which have a default in its place, and the enumerators that discriminators are. -/
inductive Bare : Fin schema.size → Value → Prop
  | default {i : Fin schema.size} : Bare i (schema.default (.type i))
  | unarmed {i : Fin schema.size} {d : Int64} : Bare i (.union d none)
  | enumerator {i : Fin schema.size} {n : Int32} : Bare i (.enumeration n)

end

variable {schema : Schema} {i j : Fin schema.size} {v w : Value}

/-- The parts of a discriminator are enumerators. -/
theorem bare_of_discriminator {m : Member schema.size} {d : Int64}
    (hvalue : discriminatorValue m d = .ok v) (hpart : m.type.Part v j w) :
    j ∈ m.type.embedded ∧ schema.Bare j w := by
  unfold discriminatorValue at hvalue
  cases htype : m.type with
  | primitive p =>
    rw [htype] at hpart
    cases hpart
  | type k =>
    rw [htype] at hvalue hpart
    cases hpart
    dsimp only at hvalue
    split at hvalue
    · cases hvalue
      exact ⟨List.mem_cons_self, .enumerator⟩
    · cases hvalue
  | _ =>
    rw [htype] at hvalue
    cases hvalue

theorem bare_of_unarmed {d : Int64} (hdescends : schema.Descends (i, .union d none) (j, w)) :
    schema.HoldsByValue i j ∧ schema.Bare j w := by
  unfold HoldsByValue
  cases hdescends with
  | discriminator body value part =>
    obtain ⟨hheld, hbare⟩ := bare_of_discriminator value part
    rw [body]
    exact ⟨TypeBody.embedded_of_discriminator hheld, hbare⟩
  | arm body active part =>
    cases activeArm_eq_ok active with
    | missing hselect =>
      obtain ⟨hheld, rfl⟩ := MemberType.part_defaultWith part
      rw [body]
      exact ⟨TypeBody.embedded_of_arm (UnionType.mem_of_select _ hselect) hheld, .default⟩

/-- From what is filled in, a pass goes on to what is held by value, and this is filled in in
    turn. -/
theorem bare_of_descends (hchains : ∀ i, schema.ChainsWithin schema.size i)
    (hnames : schema.UnsharedNames) (h : schema.Bare i v)
    (hdescends : schema.Descends (i, v) (j, w)) : schema.HoldsByValue i j ∧ schema.Bare j w := by
  cases h with
  | default =>
    have hstep := congrFun (defaults_end hchains).solves i
    rw [← hstep] at hdescends
    unfold defaultStep at hdescends
    cases hbody : (schema.get i).body with
    | struct s =>
      rw [hbody] at hdescends
      have hunshared := hnames i
      rw [hbody] at hunshared
      cases hdescends with
      | member body mem value part =>
        cases hbody.symm.trans body
        obtain ⟨hrequired, rfl⟩ := StructType.get?_defaultFields hunshared mem value
        obtain ⟨hheld, rfl⟩ := MemberType.part_defaultWith part
        rw [HoldsByValue, hbody]
        exact ⟨TypeBody.embedded_of_member mem hrequired hheld, .default⟩
    | union u =>
      rw [hbody] at hdescends
      exact bare_of_unarmed hdescends
    | enumeration e =>
      rw [hbody] at hdescends
      cases hdescends
  | unarmed => exact bare_of_unarmed hdescends
  | enumerator => cases hdescends

theorem endsWithin_of_bare (hchains : ∀ i, schema.ChainsWithin schema.size i)
    (hnames : schema.UnsharedNames) {levels : Nat} (hlevels : schema.ChainsWithin levels i)
    (h : schema.Bare i v) : schema.EndsWithin levels (i, v) := by
  induction levels generalizing i v with
  | zero => exact hlevels.elim
  | succ levels ih =>
    rintro ⟨j, w⟩ hdescends
    obtain ⟨hheld, hbare⟩ := bare_of_descends hchains hnames h hdescends
    exact ih (hlevels j hheld) hbare

/-- A pass goes no deeper than its value, and from there on by no more levels than there are types.
    The induction is on the levels, where the value is left as soon as something is filled in. -/
theorem endsWithin_of_levels (hchains : ∀ i, schema.ChainsWithin schema.size i)
    (hnames : schema.UnsharedNames) {levels : Nat} (h : v.levels + schema.size ≤ levels) :
    schema.EndsWithin levels (i, v) := by
  induction levels generalizing i v with
  | zero => exact absurd (Nat.lt_of_le_of_lt (Nat.zero_le _) i.isLt) (by omega)
  | succ levels ih =>
    rintro ⟨j, w⟩ hdescends
    cases hdescends with
    | member body mem value part =>
      have hentry := Value.levels_le_fieldLevels (Entries.mem_of_get? value)
      have hpart := part.levels_le
      simp only [Value.levels] at h hentry
      exact ih (by omega)
    | discriminator body value part =>
      have hsize : schema.size ≤ levels := by
        simp only [Value.levels] at h
        omega
      obtain ⟨-, hbare⟩ := bare_of_discriminator value part
      exact endsWithin_of_le hsize (endsWithin_of_bare hchains hnames (hchains j) hbare)
    | arm body active part =>
      simp only [Value.levels] at h
      cases activeArm_eq_ok active with
      | missing hselect =>
        have hsize : schema.size ≤ levels := by omega
        obtain ⟨-, rfl⟩ := MemberType.part_defaultWith part
        exact endsWithin_of_le hsize (endsWithin_of_bare hchains hnames (hchains j) .default)
      | present hselect =>
        have hpart := part.levels_le
        simp only [Value.armLevels] at h
        exact ih (by omega)

variable (schema) in
/-- That what passes fill in ends. From it they go on to what types hold by value, and from no value
    for ever. A pass over a value does what its levels do, however many of them there are beyond
    those of the value and one for each type, and whatever is below them. -/
structure ExpansionEnds : Prop where
  held : ∀ i v, schema.Bare i v → ∀ j w, schema.Descends (i, v) (j, w) →
    schema.HoldsByValue i j ∧ schema.Bare j w
  ends : WellFounded (flip schema.Descends)
  sizing : ∀ rules (v : Value) levels more, v.levels + schema.size ≤ levels → levels ≤ more →
    ∀ below field i,
      (schema.addLevel rules)^[more] below field i v = addType schema rules levels field i v
  writing : ∀ e (v : Value) levels more, v.levels + schema.size ≤ levels → levels ≤ more →
    ∀ below field i,
      (schema.writeLevel e)^[more] below field i v = writeType schema e levels field i v
  sized : ∀ rules (v : Value) levels, v.levels + schema.size ≤ levels → ∀ field i tally name,
    (addType schema rules levels field i v).run tally ≠ .error (.depthExceeded name)
  written : ∀ e (v : Value) levels, v.levels + schema.size ≤ levels → ∀ field i w name after,
    (writeType schema e levels field i v).run w ≠ .error (.depthExceeded name) after

theorem expansionEnds (hchains : ∀ i, schema.ChainsWithin schema.size i)
    (hnames : schema.UnsharedNames) : schema.ExpansionEnds where
  held i v h j w := bare_of_descends hchains hnames h
  ends := ⟨fun _ => acc_of_endsWithin (endsWithin_of_levels hchains hnames (Nat.le_refl _))⟩
  sizing rules v levels more hlevels hle below field i :=
    (schema.goesDown_addType rules).unfold hle (endsWithin_of_levels hchains hnames hlevels) below
      field
  writing e v levels more hlevels hle below field i :=
    (schema.goesDown_writeType e).unfold hle (endsWithin_of_levels hchains hnames hlevels) below
      field
  sized rules v levels hlevels field i tally name hrun := by
    cases shallow_of_endsWithin rules field (endsWithin_of_levels hchains hnames hlevels) _ _ hrun
  written e v levels hlevels field i w name after hrun := by
    have hshallow := shallow_of_endsWithin (unlimited e.repr) field
      (endsWithin_of_levels (i := i) hchains hnames hlevels)
    have himage := Image.shallow_of_counts (counts_type schema e.repr e.order levels field i v)
      hshallow
    cases WriteM.isDeep_of_run (writes_type schema e levels field i v) himage hrun

/-- On a compiled schema, recursion over types ends. No type holds itself by value, over however
    many others. The default and the fewest bytes of every type are what their recursions end with,
    each step of which goes on to types that are held by value. Sizing and writing go on from a
    value to what it descends to. Where no member bears the name of another one that is required,
    what they fill in for the arms of unions is held by value, into which further defaults may be
    filled in, and they end by themselves and not because they are too deep. -/
theorem type_recursions_end {doc : Document} {schema : Schema}
    (hcompile : doc.compile = .ok schema) :
    (∀ i, ¬Relation.TransGen schema.HoldsByValue i i) ∧
    schema.RecursionEnds schema.neededMembers schema.defaultStep
      (fun i => schema.default (.type i)) ∧
    (∀ repr, schema.RecursionEnds (schema.countedMembers repr) (schema.minSizeStep repr)
      fun i => schema.minSize repr (.type i)) ∧
    (∀ rules, schema.GoesDown (schema.addLevel rules) (addType schema rules)) ∧
    (∀ e, schema.GoesDown (schema.writeLevel e) (writeType schema e)) ∧
    (schema.UnsharedNames → schema.ExpansionEnds) := by
  have hchains := chainsWithin_of_compile hcompile
  refine ⟨?acyclic, defaults_end hchains, minSizes_end hchains, schema.goesDown_addType,
    schema.goesDown_writeType, expansionEnds hchains⟩
  case acyclic =>
    obtain ⟨decls, -, hloop⟩ := Document.compile_eq_ok hcompile
    exact Graph.loop_eq_none_iff.1 hloop

/-- Drawings hold drawings behind an optional member and in a sequence, and in an array shapes,
    which are unions. -/
theorem type_recursions_end_drawing :
    ∃ schema, Document.drawingDoc.compile = .ok schema ∧ schema.UnsharedNames ∧
      WellFounded (flip schema.Descends) ∧
      ∀ rules field i (v : Value), v.levels + 4 ≤ maxDepth → ∀ tally name,
        (addType schema rules maxDepth field i v).run tally ≠ .error (.depthExceeded name) := by
  have hfacts : Document.drawingDoc.compile.toOption.map (fun schema =>
      decide (schema.UnsharedNames ∧ schema.size = 4)) = some true := by decide +kernel
  cases hcompile : Document.drawingDoc.compile with
  | error fault => simp [hcompile, Except.toOption] at hfacts
  | ok schema =>
    obtain ⟨hnames, hsize⟩ : schema.UnsharedNames ∧ schema.size = 4 := by
      simpa [hcompile, Except.toOption] using hfacts
    obtain ⟨-, -, -, -, -, hexpansion⟩ := type_recursions_end hcompile
    refine ⟨schema, rfl, hnames, (hexpansion hnames).ends, ?_⟩
    intro rules field i v hlevels
    rw [← hsize] at hlevels
    exact (hexpansion hnames).sized rules v maxDepth hlevels field i

/-- Ropes that end in knots, in which a rope and a cord share a name. -/
def knotDoc : Document where
  types := [
    { name := "Knot"
      scope := ""
      fields := [FieldDecl.new "end" "Rope?", FieldDecl.new "end" "Cord"] },
    { name := "Rope"
      scope := ""
      kind := .union
      fields := [(FieldDecl.new "kind" "int32").discriminator,
        (FieldDecl.new "knot" "Knot").case [0]] },
    { name := "Cord"
      scope := ""
      kind := .union
      fields := [(FieldDecl.new "kind" "int32").discriminator,
        (FieldDecl.new "length" "int32").case [0]] }]

def knots : Schema where
  size := 3
  types :=
    let knot : Extent := ⟨16, 8⟩
    let kind : Member 3 := ⟨"kind", 0, .primitive .int32, false, false⟩
    #v[
      { name := "Knot"
        scope := ""
        extensibility := .final
        layout := .struct [("end", .pointer), ("end", ⟨8, 4⟩)]
        body := .struct ⟨[⟨"end", 0, .type ⟨1, by decide⟩, true, false⟩,
          ⟨"end", 1, .type ⟨2, by decide⟩, false, false⟩]⟩ },
      { name := "Rope"
        scope := ""
        extensibility := .final
        layout := .union ("kind", ⟨4, 4⟩) [("knot", knot)]
        body := .union ⟨kind, [⟨⟨"knot", 1, .type ⟨0, by decide⟩, false, false⟩, [0], false⟩]⟩ },
      { name := "Cord"
        scope := ""
        extensibility := .final
        layout := .union ("kind", ⟨4, 4⟩) [("length", ⟨4, 4⟩)]
        body := .union
          ⟨kind, [⟨⟨"length", 1, .primitive .int32, false, false⟩, [0], false⟩]⟩ }]

/-- A level of a pass over a rope comes to the level below it over a knot, and one over a knot to
    the level below it over a rope. -/
theorem depthExceeded_knots (levels : Nat) (field : String) (tally : Tally) :
    (∃ name, (addType knots (unlimited .xcdr2) levels field (1 : Fin 3) (.union 0 none)).run tally =
      .error (.depthExceeded name)) ∧
    ∃ name, (addType knots (unlimited .xcdr2) levels field (0 : Fin 3)
      (knots.default (.type (0 : Fin 3)))).run tally = .error (.depthExceeded name) := by
  induction levels generalizing field tally with
  | zero => exact ⟨⟨field, rfl⟩, field, rfl⟩
  | succ levels ih =>
    constructor
    · obtain ⟨mid, hmid⟩ : ∃ mid,
          (addType knots (unlimited .xcdr2) (levels + 1) field (1 : Fin 3) (.union 0 none)).run
            tally =
          (addType knots (unlimited .xcdr2) levels "knot" (0 : Fin 3)
            (knots.default (.type (0 : Fin 3)))).run mid := ⟨_, rfl⟩
      rw [hmid]
      exact (ih "knot" mid).2
    · obtain ⟨mid, rest, hmid⟩ : ∃ mid rest,
          (addType knots (unlimited .xcdr2) (levels + 1) field (0 : Fin 3)
            (knots.default (.type (0 : Fin 3)))).run tally =
          (addType knots (unlimited .xcdr2) levels "end" (1 : Fin 3) (.union 0 none)).run mid >>=
            rest := ⟨_, _, rfl⟩
      obtain ⟨name, hdeep⟩ := (ih "end" mid).1
      rw [hmid, hdeep]
      exact ⟨name, rfl⟩

/-- Where names are shared, what is filled in may go on for ever. A knot takes the default of its
    cord for that of the rope, which is optional and not held by value; the rope is written with a
    knot, and so on. However many levels a pass has, it needs more. -/
theorem shared_names_need_limit :
    let knot : Fin knots.size := (0 : Fin 3)
    let rope : Fin knots.size := (1 : Fin 3)
    knotDoc.compile = .ok knots ∧ ¬knots.UnsharedNames ∧
    (knots.Bare rope (.union 0 none) ∧
      knots.Descends (rope, .union 0 none) (knot, knots.default (.type knot)) ∧
      knots.Descends (knot, knots.default (.type knot)) (rope, .union 0 none)) ∧
    ¬knots.HoldsByValue knot rope ∧ ¬WellFounded (flip knots.Descends) ∧
    (∀ levels field tally, ∃ name,
      (addType knots (unlimited .xcdr2) levels field rope (.union 0 none)).run tally =
        .error (.depthExceeded name)) ∧
    (knots.encode ⟨.xcdr2, .little⟩ (.appendingTo #[]) rope (.union 0 none) 0).1 =
      .error (.depthExceeded "end") := by
  intro knot rope
  have hcord : (knots.get knot).body.embedded = [(2 : Fin 3)] := rfl
  have hheld : ¬knots.HoldsByValue knot rope := by
    rw [HoldsByValue, hcord]
    exact (by decide : (1 : Fin 3) ∉ [(2 : Fin 3)])
  have hknot : knots.Descends (rope, .union 0 none) (knot, knots.default (.type knot)) :=
    .arm rfl rfl .type
  have hrope : knots.Descends (knot, knots.default (.type knot)) (rope, .union 0 none) :=
    .member rfl List.mem_cons_self rfl .type
  refine ⟨by decide +kernel, by decide +kernel, ⟨.unarmed, hknot, hrope⟩, hheld, ?_, ?_,
    by decide +kernel⟩
  · exact fun hends => hends.asymmetric _ _ hknot hrope
  · exact fun levels field tally => (depthExceeded_knots levels field tally).1

end Schema

end Cdr
