import Cdr.Proofs.Correspondence
import Cdr.Proofs.Validity

/-! # What is compiled

A document is compiled exactly when it is valid. Every loop that looks for something taken twice asks
the same: that what it goes over is fresh, distinct in itself and from what was seen before.
-/

namespace Cdr

section

variable {α β : Type}

/-- That there are no two of a kind in a list, and none of what has been seen. -/
def Fresh (seen xs : List α) : Prop :=
  xs.Nodup ∧ ∀ x ∈ xs, x ∉ seen

theorem fresh_nil {seen : List α} : Fresh seen [] := by
  simp [Fresh]

theorem fresh_cons {seen xs : List α} {x : α} :
    Fresh seen (x :: xs) ↔ x ∉ seen ∧ Fresh (x :: seen) xs := by
  simp only [Fresh, List.nodup_cons, List.mem_cons, not_or]
  constructor
  · rintro ⟨⟨hx, hxs⟩, hseen⟩
    exact ⟨hseen x (.inl rfl), hxs, fun y hy => ⟨fun h => hx (h ▸ hy), hseen y (.inr hy)⟩⟩
  · rintro ⟨hx, hxs, hrest⟩
    refine ⟨⟨fun h => (hrest x h).1 rfl, hxs⟩, ?_⟩
    rintro y (rfl | hy)
    · exact hx
    · exact (hrest y hy).2

theorem fresh_append {seen xs ys : List α} :
    Fresh seen (xs ++ ys) ↔ Fresh seen xs ∧ Fresh (xs.reverse ++ seen) ys := by
  induction xs generalizing seen with
  | nil => simp [fresh_nil]
  | cons x xs ih => simp [fresh_cons, ih, and_assoc]

theorem fresh_start {xs : List α} : Fresh [] xs ↔ xs.Nodup := by
  simp [Fresh]

theorem fresh_singleton {xs : List α} {x : α} : Fresh [x] xs ↔ (x :: xs).Nodup := by
  simp [← fresh_start, fresh_cons]

/-- Items go with some others when each of them goes with one. -/
theorem exists_forall₂_iff {R : α → β → Prop} {xs : List α} :
    (∃ ys, List.Forall₂ R xs ys) ↔ ∀ x ∈ xs, ∃ y, R x y := by
  induction xs with
  | nil => simp
  | cons x xs ih => simp [List.forall₂_cons_left_iff, ← ih]

theorem map_eq_of_forall₂ {γ : Type} {R : α → β → Prop} {f : α → γ} {g : β → γ}
    (hfg : ∀ x y, R x y → g y = f x) {xs : List α} {ys : List β} (h : List.Forall₂ R xs ys) :
    ys.map g = xs.map f := by
  induction h with
  | nil => rfl
  | cons hxy _ ih => simp [hfg _ _ hxy, ih]

theorem map_fst_filter_zipIdx (p : α → Bool) (xs : List α) :
    (xs.zipIdx.filter fun x => p x.1).map Prod.fst = xs.filter p := by
  conv_rhs => rw [← List.zipIdx_map_fst 0 xs, List.filter_map]
  rfl

end

namespace Compile

section

variable {n : Nat} {decls : Fin n → TypeDecl} {owner : TypeDecl}

theorem duplicateName?_eq_none_iff {seen names : List String} :
    duplicateName? seen names = none ↔ Fresh seen names := by
  induction names generalizing seen with
  | nil => simp [duplicateName?, fresh_nil]
  | cons name rest ih =>
    by_cases hname : name ∈ seen
    · simp [duplicateName?, fresh_cons, hname]
    · simp [duplicateName?, fresh_cons, hname, ih]

theorem enumerators_eq_ok_iff {next : Int32} {seen : List Int32} {es : List Enumerator}
    {out : List (String × Int32)} :
    enumerators owner next seen es = .ok out ↔
      Fresh seen (out.map Prod.snd) ∧ out = Enumerator.number next es := by
  induction es generalizing next seen out with
  | nil =>
    constructor
    · rintro ⟨⟩
      exact ⟨fresh_nil, rfl⟩
    · rintro ⟨-, rfl⟩
      rfl
  | cons e rest ih =>
    simp only [enumerators, check_eq_ok_iff, bind_eq_ok_iff, pure_eq_ok_iff, ih, Enumerator.number]
    constructor
    · rintro ⟨hvalue, others, ⟨hfresh, rfl⟩, rfl⟩
      exact ⟨fresh_cons.2 ⟨hvalue, hfresh⟩, rfl⟩
    · rintro ⟨hfresh, rfl⟩
      obtain ⟨hvalue, hrest⟩ := fresh_cons.1 hfresh
      exact ⟨hvalue, _, ⟨hrest, rfl⟩, rfl⟩

theorem structMembers_eq_ok_iff {index : Nat} {ids : List UInt32} {fields : List FieldDecl}
    {ms : List (Member n)} :
    structMembers decls owner index ids fields = .ok ms ↔
      (∀ f ∈ fields, f.annotations.discriminator = false) ∧
        List.Forall₂ (fun f m => member decls owner f.2 f.1 = .ok m) (fields.zipIdx index) ms ∧
          Fresh ids (ms.map Member.id) := by
  induction fields generalizing index ids ms with
  | nil =>
    constructor
    · rintro ⟨⟩
      exact ⟨nofun, .nil, fresh_nil⟩
    · rintro ⟨-, ⟨⟩, -⟩
      rfl
  | cons f rest ih =>
    simp only [structMembers, check_eq_ok_iff, bind_eq_ok_iff, pure_eq_ok_iff, ih, List.zipIdx_cons,
      List.forall₂_cons_left_iff, List.forall_mem_cons, Bool.not_eq_true]
    constructor
    · rintro ⟨hplain, m, hm, hid, ms, ⟨hrest, hms, hfresh⟩, rfl⟩
      exact ⟨⟨hplain, hrest⟩, ⟨m, ms, hm, hms, rfl⟩, fresh_cons.2 ⟨hid, hfresh⟩⟩
    · rintro ⟨⟨hplain, hrest⟩, ⟨m, ms, hm, hms, rfl⟩, hfresh⟩
      obtain ⟨hid, hfresh⟩ := fresh_cons.1 hfresh
      exact ⟨hplain, m, hm, hid, ms, ⟨hrest, hms, hfresh⟩, rfl⟩

theorem addLabels_eq_ok_iff {seen labels out : List Int64} :
    addLabels owner seen labels = .ok out ↔ Fresh seen labels ∧ out = labels.reverse ++ seen := by
  induction labels generalizing seen with
  | nil => simp [addLabels, fresh_nil, eq_comm]
  | cons label rest ih =>
    by_cases hlabel : label ∈ seen
    · simp [addLabels, fresh_cons, hlabel]
    · simp [addLabels, fresh_cons, hlabel, ih]

/-- How many of a list of arms are the default, where `hasDefault` says whether one before is. -/
def defaults (hasDefault : Bool) (arms : List (UnionArm n)) : Nat :=
  hasDefault.toNat + arms.countP UnionArm.isDefault

/-- What an arm has from the field with its index. -/
structure ArmOf (decls : Fin n → TypeDecl) (owner : TypeDecl) (f : FieldDecl × Nat)
    (arm : UnionArm n) : Prop where
  member : member decls owner f.2 f.1 = .ok arm.member
  required : arm.member.optional = false
  labeled : f.1.annotations.labels ≠ [] ∨ f.1.annotations.isDefault = true
  labels : arm.labels = f.1.annotations.labels
  isDefault : arm.isDefault = f.1.annotations.isDefault

theorem defaults_cons_le {hasDefault : Bool} {arm : UnionArm n} {arms : List (UnionArm n)} :
    defaults hasDefault (arm :: arms) ≤ 1 ↔
      ¬(arm.isDefault && hasDefault) = true ∧ defaults (hasDefault || arm.isDefault) arms ≤ 1 := by
  unfold defaults
  rw [List.countP_cons]
  cases hasDefault <;> cases arm.isDefault <;> grind

theorem unionArms_eq_ok_iff {index : Nat} {ids : List UInt32} {labels : List Int64}
    {hasDefault : Bool} {fields : List FieldDecl} {arms : List (UnionArm n)} :
    unionArms decls owner index ids labels hasDefault fields = .ok arms ↔
      List.Forall₂ (ArmOf decls owner)
          ((fields.zipIdx index).filter fun f => !f.1.annotations.discriminator) arms ∧
        Fresh ids (arms.map fun arm => arm.member.id) ∧
          Fresh labels (arms.flatMap UnionArm.labels) ∧ defaults hasDefault arms ≤ 1 := by
  induction fields generalizing index ids labels hasDefault arms with
  | nil =>
    constructor
    · rintro ⟨⟩
      exact ⟨.nil, fresh_nil, fresh_nil, by cases hasDefault <;> simp [defaults]⟩
    · rintro ⟨⟨⟩, -⟩
      rfl
  | cons f rest ih =>
    rw [List.zipIdx_cons, List.filter_cons]
    cases hdisc : f.annotations.discriminator with
    | true =>
      simp only [unionArms, hdisc, if_true, ih]
      rfl
    | false =>
      simp only [unionArms, hdisc, Bool.false_eq_true, Bool.not_false, if_false, if_true,
        check_eq_ok_iff, bind_eq_ok_iff, pure_eq_ok_iff, ih, addLabels_eq_ok_iff,
        List.forall₂_cons_left_iff]
      constructor
      · rintro ⟨m, hm, hrequired, hid, hlabeled, labels', ⟨hlabels, rfl⟩, hdefault, arms,
          ⟨harms, hids, hall, hdefaults⟩, rfl⟩
        refine ⟨⟨_, arms, ⟨hm, ?_, ?_, rfl, rfl⟩, harms, rfl⟩, fresh_cons.2 ⟨hid, hids⟩,
          fresh_append.2 ⟨hlabels, hall⟩, defaults_cons_le.2 ⟨hdefault, hdefaults⟩⟩
        · exact Bool.not_eq_true _ ▸ hrequired
        · by_cases hempty : f.annotations.labels = []
          · exact .inr (by simpa [hempty] using hlabeled)
          · exact .inl hempty
      · rintro ⟨⟨arm, arms, ⟨hm, hrequired, hlabeled, hlabels, hdefault⟩, harms, rfl⟩, hids, hall,
          hdefaults⟩
        obtain ⟨m, labels', isDefault⟩ := arm
        cases hlabels
        cases hdefault
        obtain ⟨hid, hids⟩ := fresh_cons.1 hids
        obtain ⟨hlabels, hall⟩ := fresh_append.1 hall
        obtain ⟨hdefault, hdefaults⟩ := defaults_cons_le.1 hdefaults
        refine ⟨m, hm, ?_, hid, ?_, _, ⟨hlabels, rfl⟩, hdefault, arms,
          ⟨harms, hids, hall, hdefaults⟩, rfl⟩
        · simpa using hrequired
        · simpa [imp_iff_not_or] using hlabeled

theorem isDiscriminatorType_iff {t : MemberType n} :
    isDiscriminatorType decls t = true ↔ Discriminates decls t := by
  constructor
  · intro h
    cases t with
    | primitive p => exact .primitive h
    | type i => exact .enumeration (by simpa [isDiscriminatorType] using h)
    | _ => cases h
  · rintro (integral | kind)
    · exact integral
    · simpa [isDiscriminatorType] using kind

/-- What a union has from its fields, one of which is the discriminator. -/
structure UnionOf (decls : Fin n → TypeDecl) (owner : TypeDecl) (f : FieldDecl × Nat)
    (u : UnionType n) : Prop where
  only : (owner.fields.zipIdx.filter fun f => f.1.annotations.discriminator) = [f]
  discriminator : member decls owner f.2 f.1 = .ok u.discriminator
  required : u.discriminator.optional = false
  type : Discriminates decls u.discriminator.type
  arms : List.Forall₂ (ArmOf decls owner)
    (owner.fields.zipIdx.filter fun f => !f.1.annotations.discriminator) u.arms
  ids : (u.discriminator.id :: u.arms.map fun arm => arm.member.id).Nodup
  labels : (u.arms.flatMap UnionArm.labels).Nodup
  default : u.arms.countP UnionArm.isDefault ≤ 1

theorem unionType_eq_ok_iff {u : UnionType n} :
    unionType decls owner = .ok u ↔ ∃ f, UnionOf decls owner f u := by
  constructor
  · intro h
    unfold unionType at h
    split at h
    next => cases h
    next f index honly =>
      simp only [check_eq_ok_iff, bind_eq_ok_iff, pure_eq_ok_iff, unionArms_eq_ok_iff,
        Bool.or_eq_true, not_or, Bool.not_eq_true, Bool.not_eq_false'] at h
      obtain ⟨m, hm, ⟨hrequired, htype⟩, arms, ⟨harms, hids, hlabels, hdefault⟩, rfl⟩ := h
      refine ⟨(f, index), honly, hm, hrequired, isDiscriminatorType_iff.1 htype, harms,
        fresh_singleton.1 hids, fresh_start.1 hlabels, ?_⟩
      simpa [defaults] using hdefault
    next => cases h
  · rintro ⟨f, h⟩
    unfold unionType
    rw [h.only]
    simp only [check_eq_ok_iff, bind_eq_ok_iff, pure_eq_ok_iff, unionArms_eq_ok_iff]
    refine ⟨u.discriminator, h.discriminator, ?_, u.arms, ⟨h.arms, fresh_singleton.2 h.ids,
      fresh_start.2 h.labels, ?_⟩, rfl⟩
    · simp [h.required, isDiscriminatorType_iff.2 h.type]
    · simpa [defaults] using h.default

theorem perm_fields {f : FieldDecl × Nat}
    (honly : (owner.fields.zipIdx.filter fun f => f.1.annotations.discriminator) = [f]) :
    (f :: owner.fields.zipIdx.filter fun f => !f.1.annotations.discriminator).Perm
      owner.fields.zipIdx := by
  have hperm := List.filter_append_perm (fun f => f.1.annotations.discriminator)
    owner.fields.zipIdx
  rw [honly] at hperm
  exact hperm

end

section

variable {n : Nat} {decls : Fin n → TypeDecl}
  (hnames : Function.Injective fun i => (decls i).full) {owner : TypeDecl}

include hnames

theorem member_id {f : FieldDecl × Nat} {m : Member n} (h : member decls owner f.2 f.1 = .ok m) :
    m.id = f.1.idAt f.2 :=
  ((member_eq_ok_iff hnames).1 h).2.2.1

theorem member_of_declares {index : Nat} {f : FieldDecl} {optional : Bool} {type : MemberType n}
    (h : f.Declares decls owner.scope optional type) :
    member decls owner index f =
      .ok ⟨f.name, f.idAt index, type, optional, f.annotations.key⟩ :=
  (member_eq_ok_iff hnames).2 ⟨h, rfl, rfl, rfl⟩

theorem declares_of_required {index : Nat} {f : FieldDecl} {m : Member n}
    (h : member decls owner index f = .ok m) (hrequired : m.optional = false) :
    f.Declares decls owner.scope false m.type := by
  obtain ⟨hdeclares, -⟩ := (member_eq_ok_iff hnames).1 h
  rw [hrequired] at hdeclares
  exact hdeclares

theorem exists_member_iff {index : Nat} {f : FieldDecl} :
    (∃ m, member decls owner index f = .ok m) ↔
      ∃ optional type, f.Declares decls owner.scope optional type := by
  constructor
  · rintro ⟨m, hm⟩
    exact ⟨_, _, ((member_eq_ok_iff hnames).1 hm).1⟩
  · rintro ⟨optional, type, h⟩
    exact ⟨_, member_of_declares hnames h⟩

theorem exists_struct_iff :
    (∃ ms, structMembers decls owner 0 [] owner.fields = .ok ms) ↔ owner.ValidStruct decls := by
  simp only [structMembers_eq_ok_iff, fresh_start]
  have hids : ∀ ms, List.Forall₂ (fun f m => member decls owner f.2 f.1 = .ok m)
      owner.fields.zipIdx ms → ms.map Member.id = owner.ids :=
    fun ms => map_eq_of_forall₂ fun f m h => member_id hnames h
  have hfields : (∀ f ∈ owner.fields.zipIdx, ∃ m, member decls owner f.2 f.1 = .ok m) ↔
      ∀ f ∈ owner.fields, ∃ optional type, f.Declares decls owner.scope optional type := by
    conv_rhs => rw [← List.zipIdx_map_fst 0 owner.fields]
    simp only [exists_member_iff hnames, List.forall_mem_map]
  constructor
  · rintro ⟨ms, hplain, hms, hnodup⟩
    refine ⟨?_, hplain, hids ms hms ▸ hnodup⟩
    exact hfields.1 (exists_forall₂_iff.1 ⟨ms, hms⟩)
  · intro h
    obtain ⟨ms, hms⟩ := exists_forall₂_iff.2 (hfields.2 h.fields)
    exact ⟨ms, h.plain, hms, hids ms hms ▸ h.ids⟩

theorem exists_arm_iff {f : FieldDecl × Nat} :
    (∃ arm, ArmOf decls owner f arm) ↔
      (∃ type, f.1.Declares decls owner.scope false type) ∧
        (f.1.annotations.labels ≠ [] ∨ f.1.annotations.isDefault = true) := by
  constructor
  · rintro ⟨arm, harm⟩
    exact ⟨⟨_, declares_of_required hnames harm.member harm.required⟩, harm.labeled⟩
  · rintro ⟨⟨type, hdeclares⟩, hlabeled⟩
    exact ⟨⟨_, f.1.annotations.labels, f.1.annotations.isDefault⟩,
      member_of_declares hnames hdeclares, rfl, hlabeled, rfl, rfl⟩

/-- What arms have in common with the fields that they come from. -/
theorem arms_eq {fields : List (FieldDecl × Nat)} {arms : List (UnionArm n)}
    (h : List.Forall₂ (ArmOf decls owner) fields arms) :
    (arms.map fun arm => arm.member.id) = fields.map (fun f => f.1.idAt f.2) ∧
      arms.flatMap UnionArm.labels = (fields.map Prod.fst).flatMap (fun f => f.annotations.labels) ∧
        arms.countP UnionArm.isDefault =
          (fields.map Prod.fst).countP (fun f => f.annotations.isDefault) := by
  induction h with
  | nil => simp
  | cons harm _ ih =>
    obtain ⟨hids, hlabels, hdefault⟩ := ih
    simp only [List.map_cons, List.flatMap_cons, List.countP_cons, hids, hlabels, hdefault,
      member_id hnames harm.member, harm.labels, harm.isDefault, and_self]

/-- A union can be made of fields that fit together. -/
theorem exists_union_iff :
    (∃ u, unionType decls owner = .ok u) ↔ owner.ValidUnion decls := by
  have hdiscs := map_fst_filter_zipIdx (fun f => f.annotations.discriminator) owner.fields
  have hfst : (owner.fields.zipIdx.filter fun f => !f.1.annotations.discriminator).map Prod.fst =
      owner.arms := map_fst_filter_zipIdx (fun f => !f.annotations.discriminator) owner.fields
  have hall : (∀ f ∈ owner.fields.zipIdx.filter fun f => !f.1.annotations.discriminator,
      ∃ arm, ArmOf decls owner f arm) ↔
        ∀ f ∈ owner.arms, (∃ type, f.Declares decls owner.scope false type) ∧
          (f.annotations.labels ≠ [] ∨ f.annotations.isDefault = true) := by
    rw [← hfst, List.forall_mem_map]
    simp only [exists_arm_iff hnames]
  simp only [unionType_eq_ok_iff]
  constructor
  · rintro ⟨u, f, h⟩
    have hdeclares := declares_of_required hnames h.discriminator h.required
    obtain ⟨hids, hlabels, hdefault⟩ := arms_eq hnames h.arms
    have harms := hall.1 (exists_forall₂_iff.1 ⟨_, h.arms⟩)
    rw [h.only] at hdiscs
    refine ⟨⟨f.1, _, hdiscs.symm, hdeclares, h.type⟩, fun f hf => (harms f hf).1,
      fun f hf => (harms f hf).2, ?_, ?_, ?_⟩
    · have hperm := (perm_fields h.only).map fun f => f.1.idAt f.2
      rw [List.map_cons, ← member_id hnames h.discriminator, ← hids] at hperm
      exact hperm.nodup_iff.1 h.ids
    · rw [← hfst, ← hlabels]
      exact h.labels
    · rw [← hfst, ← hdefault]
      exact h.default
  · intro h
    obtain ⟨f, type, honly, hdeclares, htype⟩ := h.discriminator
    rw [honly] at hdiscs
    obtain ⟨⟨g, index⟩, hone, rfl⟩ := List.map_eq_singleton_iff.1 hdiscs
    obtain ⟨arms, harms⟩ := exists_forall₂_iff.2
      (hall.2 fun f hf => ⟨h.arms f hf, h.labeled f hf⟩)
    obtain ⟨hids, hlabels, hdefault⟩ := arms_eq hnames harms
    refine ⟨⟨_, arms⟩, (g, index), hone, member_of_declares hnames hdeclares, rfl, htype, harms,
      ?_, ?_, ?_⟩
    · have hperm := (perm_fields hone).map fun f => f.1.idAt f.2
      rw [hids]
      exact hperm.nodup_iff.2 h.ids
    · rw [hlabels, hfst]
      exact h.labels
    · rw [hdefault, hfst]
      exact h.default

/-- The body of a type can be made of a valid declaration. -/
theorem exists_body_iff : (∃ body, typeBody decls owner = .ok body) ↔ owner.Valid decls := by
  unfold typeBody TypeDecl.Valid
  cases owner.kind with
  | struct => exact exists_map_eq_ok_iff.trans (exists_struct_iff hnames)
  | union => exact exists_map_eq_ok_iff.trans (exists_union_iff hnames)
  | enumeration =>
    refine exists_map_eq_ok_iff.trans ?_
    simp [enumerators_eq_ok_iff, fresh_start, TypeDecl.values]

/-- A member that is there holds by value what its field does. -/
theorem embedded_member_iff {f : FieldDecl × Nat} {m : Member n}
    (h : member decls owner f.2 f.1 = .ok m) (i : Fin n) :
    m.optional = false ∧ i ∈ m.type.embedded ↔
      ∃ type, f.1.Declares decls owner.scope false type ∧ i ∈ type.embedded := by
  constructor
  · rintro ⟨hrequired, hi⟩
    exact ⟨m.type, declares_of_required hnames h hrequired, hi⟩
  · rintro ⟨type, hdeclares, hi⟩
    rw [member_of_declares hnames hdeclares] at h
    cases h
    exact ⟨rfl, hi⟩

theorem embedded_members_iff {fields : List (FieldDecl × Nat)} {ms : List (Member n)}
    (h : List.Forall₂ (fun f m => member decls owner f.2 f.1 = .ok m) fields ms) (i : Fin n) :
    (∃ m ∈ ms, m.optional = false ∧ i ∈ m.type.embedded) ↔
      ∃ f ∈ fields.map Prod.fst, ∃ type, f.Declares decls owner.scope false type ∧
        i ∈ type.embedded := by
  induction h with
  | nil => simp
  | cons hm _ ih =>
    simp only [List.map_cons, List.exists_mem_cons_iff, embedded_member_iff hnames hm, ih]

theorem embedded_iff {body : TypeBody n} (h : typeBody decls owner = .ok body) (i : Fin n) :
    i ∈ body.embedded ↔ owner.Embeds decls i := by
  unfold typeBody at h
  unfold TypeDecl.Embeds
  cases hkind : owner.kind with
  | struct =>
    simp only [hkind, bind_eq_ok_iff, pure_eq_ok_iff, structMembers_eq_ok_iff] at h
    obtain ⟨ms, ⟨-, hms, -⟩, rfl⟩ := h
    have hiff := embedded_members_iff hnames hms i
    rw [List.zipIdx_map_fst] at hiff
    simp [TypeBody.embedded, ← hiff, and_assoc]
  | union =>
    simp only [hkind, bind_eq_ok_iff, pure_eq_ok_iff, unionType_eq_ok_iff] at h
    obtain ⟨u, ⟨f, hu⟩, rfl⟩ := h
    -- The discriminator and the arms are members like those of a struct, none of them optional.
    have hms : List.Forall₂ (fun f m => member decls owner f.2 f.1 = .ok m)
        (f :: owner.fields.zipIdx.filter fun f => !f.1.annotations.discriminator)
        (u.discriminator :: u.arms.map UnionArm.member) :=
      .cons hu.discriminator (List.forall₂_map_right_iff.2 (hu.arms.imp fun _ _ h => h.member))
    have hiff := embedded_members_iff hnames hms i
    have hperm := (perm_fields hu.only).map Prod.fst
    rw [List.zipIdx_map_fst] at hperm
    simp only [hperm.mem_iff] at hiff
    have hrequired : ∀ arm ∈ u.arms, arm.member.optional = false := by
      intro arm harm
      obtain ⟨f, -, h⟩ := exists_left_of_mem hu.arms harm
      exact h.required
    have harms : (∃ m ∈ u.arms.map UnionArm.member, m.optional = false ∧ i ∈ m.type.embedded) ↔
        ∃ arm ∈ u.arms, i ∈ arm.member.type.embedded := by
      constructor
      · rintro ⟨m, hm, -, hi⟩
        obtain ⟨arm, harm, rfl⟩ := List.mem_map.1 hm
        exact ⟨arm, harm, hi⟩
      · rintro ⟨arm, harm, hi⟩
        exact ⟨arm.member, List.mem_map_of_mem harm, hrequired arm harm, hi⟩
    rw [List.exists_mem_cons_iff, harms] at hiff
    simp [TypeBody.embedded, ← hiff, hu.required]
  | enumeration =>
    simp only [hkind, bind_eq_ok_iff, pure_eq_ok_iff] at h
    obtain ⟨es, -, rfl⟩ := h
    simp [TypeBody.embedded]

end

theorem ofFnM_of_eq_ok {ε α : Type} {n : Nat} {f : Fin n → Except ε α} {g : Fin n → α}
    (h : ∀ i, f i = .ok (g i)) : Vector.ofFnM f = .ok (Vector.ofFn g) := by
  have hpure : f = fun i => pure (g i) := funext h
  rw [hpure, Vector.ofFnM_pure]
  rfl

/-- Bodies embed each other as their declarations do. -/
theorem acyclic_iff {n : Nat} {decls : Fin n → TypeDecl}
    (hnames : Function.Injective fun i => (decls i).full) {bodies : Fin n → TypeBody n}
    (h : ∀ i, typeBody decls (decls i) = .ok (bodies i)) :
    (Graph.Acyclic fun i => (bodies i).embedded) ↔
      ∀ i, ¬Relation.TransGen (fun i j => (decls i).Embeds decls j) i i := by
  have hedge : (Graph.Edge fun i => (bodies i).embedded) = fun i j => (decls i).Embeds decls j := by
    funext i j
    exact propext (embedded_iff hnames (h i) j)
  unfold Graph.Acyclic
  rw [hedge]

theorem exists_order_iff {n : Nat} {bodies : Fin n → TypeBody n} :
    (∃ order, dependencyOrder bodies = .ok order) ↔
      Graph.Acyclic fun i => (bodies i).embedded := by
  rw [← Graph.loop_eq_none_iff]
  simp only [dependencyOrder]
  split <;> simp_all

/-- A member of a struct has an id of its own. -/
theorem nodup_ids_of_typeBody {n : Nat} {decls : Fin n → TypeDecl} {owner : TypeDecl}
    {s : StructType n} (h : typeBody decls owner = .ok (.struct s)) :
    (s.members.map Member.id).Nodup := by
  unfold typeBody at h
  cases hkind : owner.kind with
  | struct =>
    simp only [hkind, bind_eq_ok_iff, pure_eq_ok_iff, structMembers_eq_ok_iff] at h
    obtain ⟨ms, ⟨-, -, hfresh⟩, hms⟩ := h
    cases hms
    exact fresh_start.1 hfresh
  | union =>
    simp only [hkind, bind_eq_ok_iff, pure_eq_ok_iff] at h
    obtain ⟨u, -, ⟨⟩⟩ := h
  | enumeration =>
    simp only [hkind, bind_eq_ok_iff, pure_eq_ok_iff] at h
    obtain ⟨es, -, ⟨⟩⟩ := h

end Compile

namespace StructType

/-- Ids that differ from each other ascend strictly on the wire. -/
theorem strict_wireMembers {n : Nat} {s : StructType n} (h : (s.members.map Member.id).Nodup) :
    s.wireMembers.Pairwise fun a b => a.id < b.id := by
  have hnodup : s.wireMembers.Pairwise fun a b => a.id ≠ b.id :=
    List.pairwise_map.1 ((s.perm_wireMembers.map Member.id).nodup_iff.2 h)
  exact (s.sorted_wireMembers.and hnodup).imp fun h => UInt32.lt_of_le_of_ne h.1 h.2

end StructType

namespace Document

theorem full_injective {doc : Document} (h : (doc.types.map fun t => t.full).Nodup) :
    Function.Injective fun i => (doc.types.get i).full := by
  intro i j hij
  have hsame : doc.types.get i = doc.types.get j :=
    List.inj_on_of_nodup_map h (List.get_mem _ i) (List.get_mem _ j) hij
  exact h.of_map.injective_get hsame

/-- Where names are distinct, all else hangs on the bodies of the types. -/
theorem compile_of_names {doc : Document} (h : (doc.types.map fun t => t.full).Nodup) :
    (∃ schema, doc.compile = .ok schema) ↔
      ∃ bodies : Fin doc.types.length → TypeBody doc.types.length,
        (∀ i, Compile.typeBody doc.types.get (doc.types.get i) = .ok (bodies i)) ∧
          Graph.Acyclic fun i => (bodies i).embedded := by
  have hnames := Compile.duplicateName?_eq_none_iff.2 (fresh_start.2 h)
  simp only [compile, hnames, Compile.bind_eq_ok_iff, ← Compile.exists_order_iff]
  constructor
  · rintro ⟨schema, bodies, hbodies, hcompile⟩
    split at hcompile
    next => cases hcompile
    next order horder => exact ⟨bodies.get, Compile.ofFnM_eq_ok hbodies, order, horder⟩
  · rintro ⟨bodies, hbodies, order, horder⟩
    rw [exists_comm]
    refine ⟨Vector.ofFn bodies, ?_⟩
    simp only [Fin.getElem_fin, Vector.getElem_ofFn, horder]
    exact ⟨_, Compile.ofFnM_of_eq_ok hbodies, rfl⟩

theorem nodup_names_of_compile {doc : Document} {schema : Schema} (h : doc.compile = .ok schema) :
    (doc.types.map fun t => t.full).Nodup := by
  simp only [compile] at h
  split at h
  next => cases h
  next hnames => exact fresh_start.1 (Compile.duplicateName?_eq_none_iff.1 hnames)

theorem size_of_compile {doc : Document} {schema : Schema} (h : doc.compile = .ok schema) :
    schema.size = doc.types.length := by
  simp only [compile] at h
  split at h
  next => cases h
  next =>
    simp only [Compile.bind_eq_ok_iff] at h
    obtain ⟨bodies, -, h⟩ := h
    split at h
    next => cases h
    next =>
      cases h
      rfl

/-- A document is compiled exactly when it is valid. The schema has as many types then, which name
    none but each other, and the members of each struct stand on the wire by their ids, no two of
    which are the same. -/
theorem compile_iff_valid (doc : Document) :
    ((∃ schema, doc.compile = .ok schema) ↔ doc.Valid) ∧
      ∀ schema, doc.compile = .ok schema → schema.size = doc.types.length ∧
        (∀ i, ∀ j ∈ (schema.get i).body.mentioned, j.val < doc.types.length) ∧
          ∀ i s, (schema.get i).body = .struct s →
            s.wireMembers.Perm s.members ∧ s.wireMembers.Pairwise fun a b => a.id < b.id := by
  refine ⟨⟨?_, ?_⟩, ?_⟩
  · rintro ⟨schema, h⟩
    have hnames := nodup_names_of_compile h
    have hinj := full_injective hnames
    obtain ⟨bodies, hbodies, hacyclic⟩ := (compile_of_names hnames).1 ⟨schema, h⟩
    refine ⟨hnames, ?_, (Compile.acyclic_iff hinj hbodies).1 hacyclic⟩
    rw [List.forall_mem_iff_get]
    intro i
    exact (Compile.exists_body_iff hinj).1 ⟨bodies i, hbodies i⟩
  · intro h
    have hinj := full_injective h.names
    choose bodies hbodies using fun i =>
      (Compile.exists_body_iff hinj).2 (h.types (doc.types.get i) (List.get_mem _ i))
    rw [compile_of_names h.names]
    exact ⟨bodies, hbodies, (Compile.acyclic_iff hinj hbodies).2 h.acyclic⟩
  · intro schema h
    have hsize := size_of_compile h
    obtain ⟨decls, hbodies, -⟩ := compile_eq_ok h
    refine ⟨hsize, fun i j _ => hsize ▸ j.isLt, ?_⟩
    intro i s hbody
    have hi := hbodies i
    rw [hbody] at hi
    exact ⟨s.perm_wireMembers, StructType.strict_wireMembers (Compile.nodup_ids_of_typeBody hi)⟩

/-- Nodes that hold others in a sequence, and their parent behind an optional member. -/
def nodeDoc : Document where
  types := [
    { name := "Node"
      scope := ""
      fields := [FieldDecl.new "children" "sequence<Node>", FieldDecl.new "parent" "Node?"] }]

/-- A pair that holds pairs by value, in an array. -/
def pairDoc : Document where
  types := [{ name := "Pair", scope := "", fields := [FieldDecl.new "halves" "Pair[2]"] }]

/-- Types may refer to themselves, but not by value. -/
theorem compile_iff_valid_node : nodeDoc.Valid ∧ ¬pairDoc.Valid := by
  have hnode : nodeDoc.compile.toOption.isSome := by decide +kernel
  have hpair : pairDoc.compile = .error (.circularDependency "Pair") := by decide +kernel
  constructor
  · apply (compile_iff_valid nodeDoc).1.1
    cases h : nodeDoc.compile with
    | error fault => simp [h, Except.toOption] at hnode
    | ok schema => exact ⟨schema, rfl⟩
  · intro h
    obtain ⟨schema, hcompile⟩ := (compile_iff_valid pairDoc).1.2 h
    rw [hpair] at hcompile
    cases hcompile

end Document

end Cdr
