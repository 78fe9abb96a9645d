import Cdr.Proofs.Assembly

/-! # Stored layouts

The layouts of all types are found one after the other and read off a table that is filled on the
way. Since each type stands behind those it holds by value, the table has every layout that is looked
up, and what is stored in the end solves the equations that give the layout of a type by those of
its parts.
-/

namespace Cdr

variable {n : Nat}

namespace Graph

variable {next : Fin n → List (Fin n)}

theorem ordered_of_append {front rest : List (Fin n)} (h : Ordered next (front ++ rest)) :
    Ordered next rest := by
  induction front with
  | nil => exact h
  | cons node front ih => exact ih h.2

/-- What holds of a node when it holds of all that it points to, holds of all in order. -/
theorem induction_of_ordered {p : Fin n → Prop} {order : List (Fin n)} (h : Ordered next order)
    (hstep : ∀ node, (∀ other ∈ next node, p other) → p node) : ∀ node ∈ order, p node := by
  induction order with
  | nil => nofun
  | cons first rest ih =>
    obtain ⟨hfirst, hrest⟩ := h
    have hbehind := ih hrest
    intro node hnode
    rcases List.mem_cons.1 hnode with rfl | hnode
    · exact hstep node fun other hother => hbehind other (hfirst other hother)
    · exact hbehind node hnode

end Graph

namespace MemberType

/-- The place of a value in memory, given the places of the declared types. -/
def extentWith (ofType : Fin n → Extent) : MemberType n → Extent
  | primitive p => ⟨p.size, p.size⟩
  | string _ => .pointer
  | fixedString capacity => ⟨capacity.toNat, 1⟩
  | sequence _ _ => .sequence
  | array element length => .array (element.extentWith ofType) length.toNat
  | type index => ofType index

theorem extentWith_congr {f g : Fin n → Extent} {t : MemberType n}
    (h : ∀ i ∈ t.embedded, f i = g i) : t.extentWith f = t.extentWith g := by
  induction t with
  | array element length ih => simp only [extentWith, ih h]
  | type i => exact h i List.mem_cons_self
  | _ => rfl

end MemberType

/-- The part that a member has in the layout of its type. An optional member is a pointer. -/
def Member.part (ofType : Fin n → Extent) (m : Member n) : String × Extent :=
  (m.name, if m.optional then .pointer else m.type.extentWith ofType)

namespace TypeBody

/-- The members in the order in which they lie in memory. Those of a union are its discriminator and
    its arms. -/
def inMemory : TypeBody n → List (Member n)
  | struct s => s.members
  | union u => u.discriminator :: u.arms.map UnionArm.member
  | enumeration _ => []

/-- The layout of a type, given the places of the types it is made of. -/
def layoutWith (ofType : Fin n → Extent) : TypeBody n → NativeLayout
  | struct s => .struct (s.members.map (Member.part ofType))
  | union u =>
    .union (u.discriminator.part ofType) (u.arms.map fun arm => arm.member.part ofType)
  | enumeration _ => .enumeration

/-- What is held by a member in place is held by its type. -/
theorem mem_embedded {body : TypeBody n} {m : Member n} (hm : m ∈ body.inMemory)
    (hrequired : m.optional = false) {i : Fin n} (hi : i ∈ m.type.embedded) :
    i ∈ body.embedded := by
  cases body with
  | struct s => exact List.mem_flatMap.2 ⟨m, List.mem_filter.2 ⟨hm, by simp [hrequired]⟩, hi⟩
  | union u =>
    apply List.mem_append.2
    rcases List.mem_cons.1 hm with rfl | hm
    · exact .inl hi
    · obtain ⟨arm, harm, rfl⟩ := List.mem_map.1 hm
      exact .inr (List.mem_flatMap.2 ⟨arm, harm, hi⟩)
  | enumeration e => cases hm

theorem part_congr {f g : Fin n → Extent} {body : TypeBody n}
    (h : ∀ i ∈ body.embedded, f i = g i) {m : Member n} (hm : m ∈ body.inMemory) :
    m.part f = m.part g := by
  unfold Member.part
  cases hoptional : m.optional with
  | true => rfl
  | false =>
    have htype : m.type.extentWith f = m.type.extentWith g := by
      apply MemberType.extentWith_congr
      intro i hi
      exact h i (mem_embedded hm hoptional hi)
    simp [htype]

/-- A layout hangs on the embedded types only. -/
theorem layoutWith_congr {f g : Fin n → Extent} {body : TypeBody n}
    (h : ∀ i ∈ body.embedded, f i = g i) : body.layoutWith f = body.layoutWith g := by
  have hpart : ∀ m ∈ body.inMemory, m.part f = m.part g := fun m hm => part_congr h hm
  cases body with
  | struct s => exact congrArg NativeLayout.struct (List.map_congr_left hpart)
  | union u =>
    have harms : (u.arms.map fun arm => arm.member.part f) =
        u.arms.map fun arm => arm.member.part g := by
      apply List.map_congr_left
      intro arm harm
      exact hpart arm.member (List.mem_cons_of_mem _ (List.mem_map_of_mem harm))
    simp only [layoutWith, hpart u.discriminator List.mem_cons_self, harms]
  | enumeration e => rfl

end TypeBody

namespace Compile

/-- The place of a type by a table of layouts, in which nothing stands for a type without one. -/
def placeIn (table : Fin n → Option NativeLayout) (i : Fin n) : Extent :=
  ((table i).map NativeLayout.extent).getD ⟨0, 1⟩

theorem typeExtent_eq (table : Fin n → Option NativeLayout) (t : MemberType n) :
    typeExtent table t = t.extentWith (placeIn table) := by
  induction t with
  | array element length ih => simp only [typeExtent, MemberType.extentWith, ih]
  | type i =>
    simp only [typeExtent, MemberType.extentWith, placeIn]
    cases table i <;> rfl
  | _ => rfl

theorem nativeLayout_eq (table : Fin n → Option NativeLayout) (body : TypeBody n) :
    nativeLayout table body = body.layoutWith (placeIn table) := by
  have hmember : memberExtent table = Member.part (placeIn table) := by
    funext m
    simp only [memberExtent, Member.part, typeExtent_eq]
  cases body with
  | struct s => simp only [nativeLayout, TypeBody.layoutWith, hmember]
  | union u => simp only [nativeLayout, TypeBody.layoutWith, hmember]
  | enumeration e => rfl

/-- Tables with the same layouts of the embedded types give the same layout. -/
theorem nativeLayout_congr {table other : Fin n → Option NativeLayout} {body : TypeBody n}
    (h : ∀ i ∈ body.embedded, table i = other i) :
    nativeLayout table body = nativeLayout other body := by
  rw [nativeLayout_eq, nativeLayout_eq]
  apply TypeBody.layoutWith_congr
  intro i hi
  simp only [placeIn, h i hi]

variable {bodies : Fin n → TypeBody n}

theorem get_set {α : Type} (table : Vector α n) (node i : Fin n) (a : α) :
    (table.set node.val a node.isLt).get i = if node = i then a else table.get i := by
  simp only [Fin.ext_iff]
  exact Vector.getElem_set node.isLt i.isLt

theorem layoutTable_append (order : List (Fin n)) (node : Fin n) :
    layoutTable bodies (order ++ [node]) = (layoutTable bodies order).set node.val
      (some (nativeLayout (layoutTable bodies order).get (bodies node))) node.isLt := by
  simp only [layoutTable, List.foldl_append, List.foldl_cons, List.foldl_nil]
  rfl

/-- That a table has the layout of a type, which is the one that the table itself gives it. -/
def Settled (bodies : Fin n → TypeBody n) (table : Vector (Option NativeLayout) n) (i : Fin n) :
    Prop :=
  table.get i = some (nativeLayout table.get (bodies i))

/-- What a table has settled, it holds when the next type is added. Should that be one of them, it
    is given the layout that it has. -/
theorem kept_of_settled {rest : List (Fin n)}
    (h : ∀ i ∈ rest, Settled bodies (layoutTable bodies rest.reverse) i) (node : Fin n) :
    ∀ i ∈ rest,
      (layoutTable bodies (node :: rest).reverse).get i = (layoutTable bodies rest.reverse).get i := by
  intro i hi
  rw [List.reverse_cons, layoutTable_append, get_set]
  split
  next hsame =>
    subst hsame
    exact (h node hi).symm
  next => rfl

/-- A table that is filled in order has settled all that it has gone through. The next type adds its
    own layout, and those that are settled look up others that are. -/
theorem settled_of_ordered {done : List (Fin n)}
    (h : Graph.Ordered (fun i => (bodies i).embedded) done) :
    ∀ i ∈ done, Settled bodies (layoutTable bodies done.reverse) i := by
  induction done with
  | nil => nofun
  | cons node rest ih =>
    obtain ⟨hnode, hrest⟩ := h
    have hsettled := ih hrest
    have hkept := kept_of_settled hsettled node
    have hlayout : ∀ i, (∀ j ∈ (bodies i).embedded, j ∈ rest) →
        nativeLayout (layoutTable bodies (node :: rest).reverse).get (bodies i) =
          nativeLayout (layoutTable bodies rest.reverse).get (bodies i) :=
      fun i hi => nativeLayout_congr fun j hj => hkept j (hi j hj)
    intro i hi
    unfold Settled
    by_cases hbehind : i ∈ rest
    · rw [hkept i hbehind, hlayout i fun j hj => Graph.mem_of_ordered hrest hbehind hj]
      exact hsettled i hbehind
    · rcases List.mem_cons.1 hi with rfl | hmem
      · rw [hlayout i hnode, List.reverse_cons, layoutTable_append, get_set, if_pos rfl]
      · exact absurd hmem hbehind

/-- What a table has settled, it holds to the end. -/
theorem kept_of_ordered {front rest : List (Fin n)}
    (h : Graph.Ordered (fun i => (bodies i).embedded) (front ++ rest)) : ∀ i ∈ rest,
      (layoutTable bodies (front ++ rest).reverse).get i = (layoutTable bodies rest.reverse).get i := by
  induction front with
  | nil => exact fun i _ => rfl
  | cons node front ih =>
    intro i hi
    have hmem : i ∈ front ++ rest := List.mem_append_right front hi
    exact (kept_of_settled (settled_of_ordered h.2) node i hmem).trans (ih h.2 i hi)

/-- An order of the types is one in which each stands behind those it holds by value, and none is
    missing. -/
theorem ordered_of_dependencyOrder {order : List (Fin n)} (h : dependencyOrder bodies = .ok order) :
    Graph.Ordered (fun i => (bodies i).embedded) order.reverse ∧ ∀ i, i ∈ order := by
  simp only [dependencyOrder] at h
  split at h
  next => cases h
  next hloop =>
    cases h
    obtain ⟨hordered, hreached⟩ := Graph.ordered_walk hloop
    simp only [Graph.Walk.order, List.reverse_reverse, List.mem_reverse]
    exact ⟨hordered, hreached⟩

end Compile

/-! ## Places that tile -/

/-- That a number is a boundary in memory, which is a power of two and at most that of a pointer. -/
def IsBoundary (a : Nat) : Prop :=
  a ∈ [1, 2, 4, 8]

theorem IsBoundary.exists_shift {a : Nat} (h : IsBoundary a) : ∃ exponent, a = 1 <<< exponent := by
  simp only [IsBoundary, List.mem_cons, List.not_mem_nil, or_false] at h
  rcases h with rfl | rfl | rfl | rfl
  · exact ⟨0, rfl⟩
  · exact ⟨1, rfl⟩
  · exact ⟨2, rfl⟩
  · exact ⟨3, rfl⟩

theorem IsBoundary.dvd_alignUp {a : Nat} (h : IsBoundary a) (position : Nat) :
    a ∣ alignUp position a := by
  obtain ⟨exponent, rfl⟩ := h.exists_shift
  exact Cdr.dvd_alignUp position exponent

theorem IsBoundary.max {a b : Nat} (ha : IsBoundary a) (hb : IsBoundary b) :
    IsBoundary (max a b) := by
  by_cases hle : a ≤ b
  · rw [Nat.max_eq_right hle]
    exact hb
  · rw [Nat.max_eq_left (Nat.le_of_not_le hle)]
    exact ha

namespace Extent

/-- That places of this extent can stand one behind the other, each on its boundary. -/
structure Tiles (e : Extent) : Prop where
  alignment : IsBoundary e.alignment
  size : e.alignment ∣ e.size

theorem tiles_primitive (p : Primitive) : Tiles ⟨p.size, p.size⟩ where
  alignment := by cases p <;> simp [IsBoundary, Primitive.size]
  size := Nat.dvd_refl _

theorem tiles_pointer : pointer.Tiles :=
  ⟨by simp [IsBoundary, pointer], Nat.dvd_refl _⟩

theorem tiles_sequence : sequence.Tiles :=
  ⟨by simp [IsBoundary, sequence_eq], by decide⟩

theorem Tiles.array {e : Extent} (h : e.Tiles) (length : Nat) : (array e length).Tiles :=
  ⟨h.alignment, Nat.dvd_mul_right_of_dvd h.size length⟩

end Extent

theorem MemberType.tiles_extentWith {ofType : Fin n → Extent} {t : MemberType n}
    (h : ∀ i ∈ t.embedded, (ofType i).Tiles) : (t.extentWith ofType).Tiles := by
  induction t with
  | primitive p => exact Extent.tiles_primitive p
  | string bound => exact Extent.tiles_pointer
  | fixedString capacity => exact ⟨by simp [IsBoundary, extentWith], Nat.one_dvd _⟩
  | sequence element bound ih => exact Extent.tiles_sequence
  | array element length ih => exact (ih h).array length.toNat
  | type i => exact h i List.mem_cons_self

namespace NativeLayout

/-- The names and the extents of the fields, in their order. -/
def parts (layout : NativeLayout) : List (String × Extent) :=
  layout.fields.map fun f => (f.name, ⟨f.size, f.alignment⟩)

theorem map_place (cursor : Nat) (members : List (String × Extent)) :
    ((place cursor members).1.map fun f => (f.name, (⟨f.size, f.alignment⟩ : Extent))) =
      members := by
  induction members generalizing cursor with
  | nil => rfl
  | cons m rest ih =>
    simp only [place, List.map_cons, ih]

theorem parts_struct (members : List (String × Extent)) :
    (NativeLayout.struct members).parts = members :=
  map_place 0 members

theorem parts_union (discriminator : String × Extent) (arms : List (String × Extent)) :
    (union discriminator arms).parts = discriminator :: arms := by
  simp only [parts, union, List.map_cons, List.map_map]
  exact congrArg (discriminator :: ·) (List.map_id arms)

theorem tiles_struct {members : List (String × Extent)} (h : ∀ m ∈ members, m.2.Tiles) :
    (NativeLayout.struct members).extent.Tiles := by
  have halignment : IsBoundary (members.foldl (fun a m => max a m.2.alignment) 1) := by
    apply List.foldlRecOn (motive := IsBoundary)
    · simp [IsBoundary]
    · intro a ha m hm
      exact ha.max (h m hm).alignment
  exact ⟨halignment, halignment.dvd_alignUp _⟩

theorem tiles_union {discriminator : String × Extent} {arms : List (String × Extent)}
    (hdisc : discriminator.2.Tiles) (h : ∀ arm ∈ arms, arm.2.Tiles) :
    (union discriminator arms).extent.Tiles := by
  have harms : IsBoundary ((arms.map fun arm => arm.2.alignment).max?.getD 1) := by
    cases hmax : (arms.map fun arm => arm.2.alignment).max? with
    | none => simp [IsBoundary]
    | some a =>
      obtain ⟨arm, harm, rfl⟩ := List.mem_map.1 (List.max?_mem hmax)
      exact (h arm harm).alignment
  have halignment := hdisc.alignment.max harms
  exact ⟨halignment, halignment.dvd_alignUp _⟩

theorem tiles_enumeration : enumeration.extent.Tiles :=
  ⟨by simp [IsBoundary, enumeration, extent, Extent.enumeration], Nat.dvd_refl _⟩

end NativeLayout

namespace TypeBody

theorem parts_layoutWith (ofType : Fin n → Extent) (body : TypeBody n) :
    (body.layoutWith ofType).parts = body.inMemory.map (Member.part ofType) := by
  cases body with
  | struct s => exact NativeLayout.parts_struct _
  | union u =>
    simp only [layoutWith, inMemory, NativeLayout.parts_union, List.map_cons, List.map_map]
    rfl
  | enumeration e => rfl

variable {ofType : Fin n → Extent} {body : TypeBody n}
  (h : ∀ i ∈ body.embedded, (ofType i).Tiles)

include h

theorem tiles_part {m : Member n} (hm : m ∈ body.inMemory) : (m.part ofType).2.Tiles := by
  unfold Member.part
  cases hoptional : m.optional with
  | true => exact Extent.tiles_pointer
  | false =>
    apply MemberType.tiles_extentWith
    intro i hi
    exact h i (mem_embedded hm hoptional hi)

theorem tiles_layoutWith : (body.layoutWith ofType).extent.Tiles := by
  have hparts : ∀ m ∈ body.inMemory, (m.part ofType).2.Tiles := fun m => tiles_part h
  cases body with
  | struct s =>
    apply NativeLayout.tiles_struct
    intro part hpart
    obtain ⟨m, hm, rfl⟩ := List.mem_map.1 hpart
    exact hparts m hm
  | union u =>
    apply NativeLayout.tiles_union (hparts u.discriminator List.mem_cons_self)
    intro part hpart
    obtain ⟨arm, harm, rfl⟩ := List.mem_map.1 hpart
    exact hparts arm.member (List.mem_cons_of_mem _ (List.mem_map_of_mem harm))
  | enumeration e => exact NativeLayout.tiles_enumeration

end TypeBody

/-! ## What is stored -/

namespace Compile

variable {bodies : Fin n → TypeBody n} {order : List (Fin n)}
  (horder : dependencyOrder bodies = .ok order)

include horder

/-- A table that is filled in order has the layout of every type. -/
theorem table_eq_stored (i : Fin n) :
    (layoutTable bodies order).get i = some (storedLayout bodies order i) := by
  obtain ⟨hordered, hall⟩ := ordered_of_dependencyOrder horder
  have hsettled := settled_of_ordered hordered i (List.mem_reverse.2 (hall i))
  rw [List.reverse_reverse] at hsettled
  simp only [storedLayout, show (layoutTable bodies order).get i = some _ from hsettled,
    Option.getD_some]

/-- When a type is laid out, the table has the layouts of all that it holds by value. -/
theorem table_eq_stored_of_embedded {before after : List (Fin n)} {node : Fin n}
    (hsplit : order = before ++ node :: after) {i : Fin n} (hi : i ∈ (bodies node).embedded) :
    (layoutTable bodies before).get i = some (storedLayout bodies order i) := by
  obtain ⟨hordered, -⟩ := ordered_of_dependencyOrder horder
  rw [hsplit, List.reverse_append, List.reverse_cons, List.append_assoc] at hordered
  have hbehind := Graph.ordered_of_append hordered
  rw [← List.append_assoc] at hordered
  have hkept := kept_of_ordered hordered i (hbehind.1 i hi)
  rw [← table_eq_stored horder i, hsplit]
  simpa using hkept.symm

/-- A stored layout is that of a type whose parts have the places that are stored for their types. -/
theorem storedLayout_eq (i : Fin n) :
    storedLayout bodies order i =
      (bodies i).layoutWith fun j => (storedLayout bodies order j).extent := by
  obtain ⟨hordered, hall⟩ := ordered_of_dependencyOrder horder
  have hsettled := settled_of_ordered hordered i (List.mem_reverse.2 (hall i))
  rw [List.reverse_reverse, Settled, table_eq_stored horder i, nativeLayout_eq] at hsettled
  rw [Option.some.inj hsettled]
  apply TypeBody.layoutWith_congr
  intro j _
  simp only [placeIn, table_eq_stored horder j, Option.map_some, Option.getD_some]

/-- A table that has what is stored for the embedded types is all that a layout needs. -/
theorem nativeLayout_eq_stored {node : Fin n} {table : Fin n → Option NativeLayout}
    (h : ∀ i ∈ (bodies node).embedded, table i = some (storedLayout bodies order i)) :
    nativeLayout table (bodies node) = storedLayout bodies order node := by
  rw [storedLayout_eq horder, nativeLayout_eq]
  apply TypeBody.layoutWith_congr
  intro i hi
  rw [placeIn, h i hi]
  rfl

theorem tiles_storedLayout (i : Fin n) : (storedLayout bodies order i).extent.Tiles := by
  obtain ⟨hordered, hall⟩ := ordered_of_dependencyOrder horder
  have htiles : ∀ j ∈ order.reverse, (storedLayout bodies order j).extent.Tiles := by
    refine Graph.induction_of_ordered (p := fun j => (storedLayout bodies order j).extent.Tiles)
      hordered ?_
    intro j hembedded
    rw [storedLayout_eq horder j]
    exact TypeBody.tiles_layoutWith hembedded
  exact htiles i (List.mem_reverse.2 (hall i))

end Compile

namespace Schema

variable (schema : Schema)

/-- That the types of a schema were laid out in an order: each when the layouts of all that it embeds
    were there, on which alone its own hangs, so that none was made up in the place of another. -/
structure LaidOut (sequence : List (Fin schema.size)) : Prop where
  order : Compile.dependencyOrder (fun i => (schema.get i).body) = .ok sequence
  stored : ∀ i, (Compile.layoutTable (fun i => (schema.get i).body) sequence).get i =
    some (schema.get i).layout
  known : ∀ before node after, sequence = before ++ node :: after →
    ∀ i ∈ (schema.get node).body.embedded,
      (Compile.layoutTable (fun i => (schema.get i).body) before).get i =
        some (schema.get i).layout
  enough : ∀ node (table : Fin schema.size → Option NativeLayout),
    (∀ i ∈ (schema.get node).body.embedded, table i = some (schema.get i).layout) →
      Compile.nativeLayout table (schema.get node).body = (schema.get node).layout

/-- The extent of a value of a type, as its layout has it. -/
def extentOf (i : Fin schema.size) : Extent :=
  (schema.get i).layout.extent

/-- What the layout of a type has to do with those of the types it is made of. -/
structure LayoutEquations (i : Fin schema.size) : Prop where
  layout : (schema.get i).layout = (schema.get i).body.layoutWith schema.extentOf
  parts : (schema.get i).layout.parts =
    (schema.get i).body.inMemory.map (Member.part schema.extentOf)
  alignment : IsBoundary (schema.get i).layout.alignment
  size : (schema.get i).layout.alignment ∣ (schema.get i).layout.size
  fields : ∀ f ∈ (schema.get i).layout.fields, IsBoundary f.alignment

theorem layoutEquations_of_laidOut {schema : Schema} {sequence : List (Fin schema.size)}
    (h : schema.LaidOut sequence) (i : Fin schema.size) : schema.LayoutEquations i := by
  have hstored : ∀ j, Compile.storedLayout (fun i => (schema.get i).body) sequence j =
      (schema.get j).layout := by
    intro j
    simp only [Compile.storedLayout, h.stored j, Option.getD_some]
  have htiles : ∀ j, (schema.extentOf j).Tiles := by
    intro j
    rw [extentOf, ← hstored j]
    exact Compile.tiles_storedLayout h.order j
  have hlayout : (schema.get i).layout = (schema.get i).body.layoutWith schema.extentOf := by
    rw [← hstored i, Compile.storedLayout_eq h.order i]
    simp only [hstored]
    rfl
  have hparts : (schema.get i).layout.parts =
      (schema.get i).body.inMemory.map (Member.part schema.extentOf) := by
    rw [hlayout, TypeBody.parts_layoutWith]
  refine ⟨hlayout, hparts, (htiles i).alignment, (htiles i).size, ?_⟩
  intro f hf
  have hpart : (f.name, (⟨f.size, f.alignment⟩ : Extent)) ∈ (schema.get i).layout.parts :=
    List.mem_map_of_mem hf
  rw [hparts] at hpart
  obtain ⟨m, hm, heq⟩ := List.mem_map.1 hpart
  have htile := TypeBody.tiles_part (fun j _ => htiles j) hm
  rw [heq] at htile
  exact htile.alignment

end Schema

namespace Document

theorem laidOut_of_compile {doc : Document} {schema : Schema} (h : doc.compile = .ok schema) :
    ∃ sequence, schema.LaidOut sequence := by
  obtain ⟨-, bodies, order, -, horder, rfl⟩ := compile_eq_ok_iff.1 h
  have hbodies : (fun i => ((doc.assemble bodies (Compile.storedLayout bodies order)).get i).body) =
      bodies := funext fun i => congrArg CompiledType.body (get_assemble doc bodies _ i)
  have hlayout : ∀ i, ((doc.assemble bodies (Compile.storedLayout bodies order)).get i).layout =
      Compile.storedLayout bodies order i :=
    fun i => congrArg CompiledType.layout (get_assemble doc bodies _ i)
  refine ⟨order, ?_, ?_, ?_, ?_⟩
  · rw [hbodies]
    exact horder
  · intro i
    rw [hbodies, hlayout]
    exact Compile.table_eq_stored horder i
  · intro before node after hsplit i hi
    rw [congrFun hbodies node] at hi
    rw [hbodies, hlayout]
    exact Compile.table_eq_stored_of_embedded horder hsplit hi
  · intro node table htable
    have hbody := congrFun hbodies node
    simp only [hbody, hlayout] at htable ⊢
    exact Compile.nativeLayout_eq_stored horder htable

/-- The layouts that are stored in a schema are consistent. The types can be laid out in an order in
    which every layout that is looked up is there, and what is stored in the end solves the equations
    that give the layout of each type by those of its parts. The boundaries are powers of two, at most
    that of a pointer, and the types fill them up. -/
theorem layouts_consistent {doc : Document} {schema : Schema} (h : doc.compile = .ok schema) :
    (∃ sequence, schema.LaidOut sequence) ∧ ∀ i, schema.LayoutEquations i := by
  obtain ⟨sequence, hlaidOut⟩ := laidOut_of_compile h
  exact ⟨⟨sequence, hlaidOut⟩, Schema.layoutEquations_of_laidOut hlaidOut⟩

/-- Drawings with shapes in an array, which are unions of points and texts, and with drawings behind
    an optional member and in a sequence. -/
def drawingDoc : Document where
  types := [
    { name := "Drawing"
      scope := ""
      fields := [(FieldDecl.new "tag" "string").fixedLength 5, FieldDecl.new "shapes" "Shape[2]",
        FieldDecl.new "parent" "Drawing?", FieldDecl.new "parts" "sequence<Drawing>"] },
    { name := "Shape"
      scope := ""
      kind := .union
      fields := [(FieldDecl.new "kind" "Kind").discriminator, (FieldDecl.new "at" "Point").case [0],
        (FieldDecl.new "text" "string").defaultCase] },
    { name := "Point"
      scope := ""
      fields := [FieldDecl.new "x" "int8", FieldDecl.new "y" "double"] },
    TypeDecl.enumeration "Kind" ["DOT", "TEXT"]]

/-- A shape is as large as a point behind its kind, and a drawing has two of them in place. -/
theorem layouts_consistent_drawing :
    ∃ schema, drawingDoc.compile = .ok schema ∧
      ((∃ sequence, schema.LaidOut sequence) ∧ ∀ i, schema.LayoutEquations i) ∧
        schema.types.toList.map (fun t => (t.layout.size, t.layout.alignment)) =
          [(88, 8), (24, 8), (16, 8), (4, 4)] := by
  have hextents : drawingDoc.compile.toOption.map (fun schema =>
      schema.types.toList.map fun t => (t.layout.size, t.layout.alignment)) =
        some [(88, 8), (24, 8), (16, 8), (4, 4)] := by decide +kernel
  cases h : drawingDoc.compile with
  | error fault => simp [h, Except.toOption] at hextents
  | ok schema =>
    refine ⟨schema, rfl, layouts_consistent h, ?_⟩
    simpa [h, Except.toOption] using hextents

end Document

end Cdr
