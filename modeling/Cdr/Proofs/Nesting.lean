import Cdr.Proofs.Bounds

/-! # How deep values nest

A value nests as deep as its structs, unions and enumerations do, and deeper still when it is sized
or written, as a union that has no arm is written with the default of the arm it selects. A default
nests no deeper than types hold each other by value.
-/

namespace Cdr

namespace Value

mutual

/-- How many structs, unions and enumerations deep a value is. -/
def levels : Value → Nat
  | scalar _ => 0
  | string _ => 0
  | enumeration _ => 1
  | sequence items => itemLevels items
  | struct fields => fieldLevels fields + 1
  | union _ arm => armLevels arm + 1

/-- How deep the deepest item is. -/
def itemLevels : List Value → Nat
  | [] => 0
  | v :: vs => max (levels v) (itemLevels vs)

/-- How deep the deepest entry is. -/
def fieldLevels : List (String × Value) → Nat
  | [] => 0
  | (_, v) :: rest => max (levels v) (fieldLevels rest)

/-- How deep the arm is, if there is one. -/
def armLevels : Option (String × Value) → Nat
  | none => 0
  | some (_, v) => levels v

end

variable {n : Nat}

theorem itemLevels_le {items : List Value} (h : ∀ v ∈ items, v.levels ≤ n) :
    itemLevels items ≤ n := by
  induction items with
  | nil => exact Nat.zero_le n
  | cons v vs ih =>
    obtain ⟨hv, hvs⟩ := List.forall_mem_cons.1 h
    exact Nat.max_le.2 ⟨hv, ih hvs⟩

theorem fieldLevels_le {fields : Entries Value} (h : ∀ entry ∈ fields, entry.2.levels ≤ n) :
    fieldLevels fields ≤ n := by
  induction fields with
  | nil => exact Nat.zero_le n
  | cons entry rest ih =>
    obtain ⟨hv, hrest⟩ := List.forall_mem_cons.1 h
    exact Nat.max_le.2 ⟨hv, ih hrest⟩

end Value

namespace MemberType

variable {n : Nat}

/-- The values of a member, given those of every type. -/
def NestsWith (ofType : Fin n → Value → Prop) : MemberType n → Value → Prop
  | primitive _, .scalar _ => True
  | string _, .string _ => True
  | fixedString _, .string _ => True
  | sequence element _, .sequence items => ∀ v ∈ items, element.NestsWith ofType v
  | array element _, .sequence items => ∀ v ∈ items, element.NestsWith ofType v
  | type index, v => ofType index v
  | _, _ => False

theorem NestsWith.mono {p q : Fin n → Value → Prop} (h : ∀ i v, p i v → q i v) {t : MemberType n}
    {v : Value} (hv : t.NestsWith p v) : t.NestsWith q v := by
  induction t generalizing v with
  | primitive p => cases v <;> trivial
  | string bound => cases v <;> trivial
  | fixedString capacity => cases v <;> trivial
  | sequence element bound ih =>
    cases v with
    | sequence items => exact fun item hitem => ih (hv item hitem)
    | _ => exact hv.elim
  | array element length ih =>
    cases v with
    | sequence items => exact fun item hitem => ih (hv item hitem)
    | _ => exact hv.elim
  | type i => exact h i v hv

end MemberType

theorem Entries.mem_insertAll {α : Type} {pairs : List (String × α)} {fields : Entries α}
    {entry : String × α} (h : entry ∈ insertAll pairs fields) :
    entry ∈ pairs ∨ entry ∈ fields := by
  induction pairs generalizing fields with
  | nil => exact .inr h
  | cons pair rest ih =>
    rcases ih h with hrest | hinsert
    · exact .inl (List.mem_cons_of_mem pair hrest)
    · rcases mem_insert hinsert with rfl | hold
      · exact .inl List.mem_cons_self
      · exact .inr hold

/-- The entries of a default are those of the members that a struct needs. -/
theorem StructType.mem_needed {n : Nat} {s : StructType n} {f : MemberType n → Value}
    {entry : String × Value}
    (h : entry ∈ Entries.ofList ((s.members.filter fun m => !m.optional).map fun m =>
      (m.name, f m.type))) :
    ∃ m ∈ s.members, m.optional = false ∧ entry = (m.name, f m.type) := by
  rcases Entries.mem_insertAll h with hpair | hnone
  · obtain ⟨m, hfilter, rfl⟩ := List.mem_map.1 hpair
    obtain ⟨hm, hrequired⟩ := List.mem_filter.1 hfilter
    exact ⟨m, hm, by simpa using hrequired, rfl⟩
  · cases hnone

theorem UnionType.mem_of_select {n : Nat} (u : UnionType n) {d : Int64} {arm : UnionArm n}
    (h : u.select d = some arm) : arm ∈ u.arms := by
  rcases Option.or_eq_some_iff.1 h with hlabel | ⟨-, hdefault⟩
  · exact List.mem_of_find?_eq_some hlabel
  · exact List.mem_of_find?_eq_some hdefault

namespace Schema

variable (schema : Schema)

/-- Whether a value of a type nests within `levels` levels when it is sized and written, with the
    discriminator and the arm that are written for a union. -/
def NestsWithin : Nat → Fin schema.size → Value → Prop
  | 0, _, _ => False
  | levels + 1, i, v =>
    match (schema.get i).body, v with
    | .struct s, .struct fields =>
      ∀ entry ∈ fields, ∃ m ∈ s.members, m.name = entry.1 ∧
        m.type.NestsWith (NestsWithin levels) entry.2
    | .union u, .union d arm =>
      (∀ disc, discriminatorValue u.discriminator d = .ok disc →
        u.discriminator.type.NestsWith (NestsWithin levels) disc) ∧
      ∃ active, activeArm schema u d arm = .ok active ∧
        ∀ m v, active = some (m, v) → m.type.NestsWith (NestsWithin levels) v
    | .enumeration _, .enumeration _ => True
    | _, _ => False

variable {schema}

theorem nestsWithin_succ {levels : Nat} {i : Fin schema.size} {v : Value}
    (h : schema.NestsWithin levels i v) : schema.NestsWithin (levels + 1) i v := by
  induction levels generalizing i v with
  | zero => exact h.elim
  | succ levels ih =>
    simp only [NestsWithin] at h ⊢
    split at h
    next s fields hbody =>
      intro entry hentry
      obtain ⟨m, hm, hname, hv⟩ := h entry hentry
      exact ⟨m, hm, hname, hv.mono fun j w => ih⟩
    next u d arm hbody =>
      obtain ⟨hdisc, active, hactive, harm⟩ := h
      refine ⟨fun disc hd => (hdisc disc hd).mono fun j w => ih, active, hactive, ?_⟩
      exact fun m w hw => (harm m w hw).mono fun j w => ih
    next => trivial
    next => exact h.elim

theorem nestsWithin_of_le {levels more : Nat} (hle : levels ≤ more) {i : Fin schema.size}
    {v : Value} (h : schema.NestsWithin levels i v) : schema.NestsWithin more i v := by
  induction hle with
  | refl => exact h
  | step _ ih => exact nestsWithin_succ ih

theorem levels_of_nestsWith {levels : Nat} {t : MemberType schema.size} {v : Value}
    (h : t.NestsWith (fun _ v => v.levels ≤ levels) v) : v.levels ≤ levels := by
  induction t generalizing v with
  | sequence element bound ih =>
    cases v with
    | sequence items => exact Value.itemLevels_le fun item hitem => ih (h item hitem)
    | _ => exact h.elim
  | array element length ih =>
    cases v with
    | sequence items => exact Value.itemLevels_le fun item hitem => ih (h item hitem)
    | _ => exact h.elim
  | type i => exact h
  | _ =>
    cases v with
    | scalar s => exact Nat.zero_le levels
    | string text => exact Nat.zero_le levels
    | _ => exact h.elim

/-- What nests within a number of levels is no deeper. -/
theorem levels_le {levels : Nat} {i : Fin schema.size} {v : Value}
    (h : schema.NestsWithin levels i v) : v.levels ≤ levels := by
  induction levels generalizing i v with
  | zero => exact h.elim
  | succ levels ih =>
    simp only [NestsWithin] at h
    split at h
    next s fields hbody =>
      refine Nat.succ_le_succ (Value.fieldLevels_le fun entry hentry => ?_)
      obtain ⟨m, -, -, hv⟩ := h entry hentry
      exact levels_of_nestsWith (hv.mono fun j w => ih)
    next u d arm hbody =>
      obtain ⟨-, active, hactive, harm⟩ := h
      refine Nat.succ_le_succ ?_
      cases activeArm_eq_ok hactive with
      | unselected => exact Nat.zero_le levels
      | missing => exact Nat.zero_le levels
      | present => exact levels_of_nestsWith ((harm _ _ rfl).mono fun j w => ih)
    next => exact Nat.succ_le_succ (Nat.zero_le levels)
    next => exact h.elim

/-! ## Defaults -/

variable (schema) in
/-- Whether types that hold each other by value, from this one on, are at most `levels`. -/
def ChainsWithin : Nat → Fin schema.size → Prop
  | 0, _ => False
  | levels + 1, i => ∀ j ∈ (schema.get i).body.embedded, ChainsWithin levels j

theorem groundedWithin_of_chains {levels : Nat} {i : Fin schema.size}
    (h : schema.ChainsWithin levels i) : schema.GroundedWithin levels i := by
  induction levels generalizing i with
  | zero => exact h
  | succ levels ih =>
    simp only [ChainsWithin, GroundedWithin] at h ⊢
    split
    next s hbody =>
      intro m hm hoptional
      refine MemberType.groundedWith_of_embedded fun j hj => ih (h j ?_)
      rw [hbody]
      exact TypeBody.embedded_of_member hm hoptional hj
    next => trivial

theorem chainsWithin_succ {levels : Nat} {i : Fin schema.size} (h : schema.ChainsWithin levels i) :
    schema.ChainsWithin (levels + 1) i := by
  induction levels generalizing i with
  | zero => exact h.elim
  | succ levels ih => exact fun j hj => ih (h j hj)

/-- No chain is longer than there are types. -/
theorem chainsWithin_size {levels : Nat} {i : Fin schema.size} (h : schema.ChainsWithin levels i) :
    schema.ChainsWithin schema.size i := by
  classical
  let s (k : Nat) : Finset (Fin schema.size) := Finset.univ.filter (schema.ChainsWithin k)
  have hmem : ∀ k j, j ∈ s k ↔ schema.ChainsWithin k j := by
    intro k j
    simp [s]
  have hgrows : ∀ k, s k ⊆ s (k + 1) := by
    intro k j hj
    rw [hmem] at hj ⊢
    exact chainsWithin_succ hj
  have hstill : ∀ k, s k = s (k + 1) → s (k + 1) = s (k + 2) := by
    intro k hsame
    refine Finset.Subset.antisymm (hgrows (k + 1)) fun j hj => ?_
    rw [hmem] at hj ⊢
    intro other hother
    have hin := hj other hother
    rw [← hmem] at hin ⊢
    rw [hsame]
    exact hin
  have hsub := subset_of_grows hgrows hstill levels ((hmem levels i).2 h)
  exact (hmem schema.size i).1 hsub

theorem chainsWithin_of_ordered {order : List (Fin schema.size)}
    (h : Graph.Ordered (fun i => (schema.get i).body.embedded) order) :
    ∀ i ∈ order, schema.ChainsWithin order.length i := by
  induction order with
  | nil => nofun
  | cons node rest ih =>
    obtain ⟨hnode, hrest⟩ := h
    intro i hi
    rw [List.length_cons]
    rcases List.mem_cons.1 hi with rfl | hi
    · exact fun j hj => ih hrest j (hnode j hj)
    · exact chainsWithin_succ (ih hrest i hi)

/-- Types of a compiled schema hold each other by value in chains no longer than there are types. -/
theorem chainsWithin_of_compile {doc : Document} (h : doc.compile = .ok schema)
    (i : Fin schema.size) : schema.ChainsWithin schema.size i := by
  obtain ⟨decls, -, hloop⟩ := Document.compile_eq_ok h
  obtain ⟨hordered, hreached⟩ := Graph.ordered_walk hloop
  exact chainsWithin_size (chainsWithin_of_ordered hordered i (hreached i))

theorem nestsWith_defaultWith {p : Fin schema.size → Value → Prop} {f : Fin schema.size → Value}
    {t : MemberType schema.size} (h : ∀ i ∈ t.embedded, p i (f i)) :
    t.NestsWith p (t.defaultWith f) := by
  induction t with
  | sequence element bound => exact nofun
  | array element length ih =>
    intro v hv
    obtain ⟨-, rfl⟩ := List.mem_replicate.1 hv
    exact ih h
  | type i => exact h i List.mem_cons_self
  | _ => trivial

section

variable (hschema : schema.WellFormed)

include hschema

/-- The value of a discriminator takes a level when it is an enumeration. -/
theorem nestsWith_discriminator {i : Fin schema.size} {u : UnionType schema.size}
    (hbody : (schema.get i).body = .union u) {levels : Nat}
    (hlevels : ∀ j, u.discriminator.type = .type j → levels ≠ 0) {d : Int64} {disc : Value}
    (h : discriminatorValue u.discriminator d = .ok disc) :
    u.discriminator.type.NestsWith (schema.NestsWithin levels) disc := by
  have hdisc := hschema.discriminators i u hbody
  unfold discriminatorValue at h
  cases htype : u.discriminator.type with
  | primitive p =>
    rw [htype] at h
    simp only [] at h
    split at h
    · split at h
      · cases h
        trivial
      · cases h
    · cases h
  | type j =>
    rw [htype] at h hdisc
    obtain ⟨e, he⟩ := hdisc
    simp only [] at h
    split at h
    · cases h
      obtain ⟨levels, rfl⟩ := Nat.exists_eq_succ_of_ne_zero (hlevels j htype)
      simp only [MemberType.NestsWith, NestsWithin, he]
    · cases h
  | _ =>
    rw [htype] at hdisc
    exact hdisc.elim

/-- A union without an arm nests as deep as the default of any arm. -/
theorem nestsWithin_unarmed {i : Fin schema.size} {u : UnionType schema.size}
    (hbody : (schema.get i).body = .union u) {levels : Nat}
    (hchains : ∀ j ∈ (schema.get i).body.embedded, schema.ChainsWithin levels j)
    (hdefault : ∀ j, schema.ChainsWithin levels j →
      schema.NestsWithin levels j (schema.defaultWithin levels j)) (d : Int64) :
    schema.NestsWithin (levels + 1) i (.union d none) := by
  rw [hbody] at hchains
  simp only [NestsWithin, hbody]
  refine ⟨fun disc => nestsWith_discriminator hschema hbody ?_, ?_⟩
  · rintro j htype rfl
    refine hchains j (TypeBody.embedded_of_discriminator ?_)
    rw [htype]
    exact List.mem_cons_self
  · unfold activeArm
    cases hselect : u.select d with
    | none => exact ⟨none, rfl, nofun⟩
    | some selected =>
      refine ⟨_, rfl, ?_⟩
      rintro m v ⟨⟩
      have hmem := u.mem_of_select hselect
      have harm : ∀ j ∈ selected.member.type.embedded, schema.ChainsWithin levels j :=
        fun j hj => hchains j (TypeBody.embedded_of_arm hmem hj)
      rw [schema.default_eq (MemberType.groundedWith_of_embedded fun j hj =>
        groundedWithin_of_chains (harm j hj))]
      exact nestsWith_defaultWith fun j hj => hdefault j (harm j hj)

theorem nestsWithin_defaultWithin {levels : Nat} {i : Fin schema.size}
    (h : schema.ChainsWithin levels i) :
    schema.NestsWithin levels i (schema.defaultWithin levels i) := by
  induction levels generalizing i with
  | zero => exact h.elim
  | succ levels ih =>
    cases hbody : (schema.get i).body with
    | struct s =>
      simp only [NestsWithin, defaultWithin, hbody]
      intro entry hentry
      obtain ⟨m, hm, hrequired, rfl⟩ := StructType.mem_needed hentry
      refine ⟨m, hm, rfl, nestsWith_defaultWith fun j hj => ih (h j ?_)⟩
      rw [hbody]
      exact TypeBody.embedded_of_member hm hrequired hj
    | union u =>
      have hunarmed := nestsWithin_unarmed hschema hbody h (fun j => ih) 0
      simpa only [defaultWithin, hbody] using hunarmed
    | enumeration e => simp only [NestsWithin, defaultWithin, hbody]

/-- A default nests no deeper than types hold each other by value. -/
theorem nestsWith_default {levels : Nat} {t : MemberType schema.size}
    (h : ∀ j ∈ t.embedded, schema.ChainsWithin levels j) :
    t.NestsWith (schema.NestsWithin levels) (schema.default t) := by
  rw [schema.default_eq (MemberType.groundedWith_of_embedded fun j hj =>
    groundedWithin_of_chains (h j hj))]
  exact nestsWith_defaultWith fun j hj => nestsWithin_defaultWithin hschema (h j hj)

end

end Schema

end Cdr
