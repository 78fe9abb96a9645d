import Cdr.Proofs.Canonical
import Cdr.Proofs.WriterImage

/-! # Byte order and lengths

The order of bytes changes neither the length of an image nor where it is missing. What is asked of
a canonical value goes by lengths, so a value that is canonical in one byte order is so in the
other.
-/

namespace Cdr

open Image

/-- Both results have bytes, equally many, or there is the same obstacle to both. -/
inductive SameLength : Except Obstacle (List UInt8) → Except Obstacle (List UInt8) → Prop where
  | ok {a b : List UInt8} (h : a.length = b.length) : SameLength (.ok a) (.ok b)
  | error (obstacle : Obstacle) : SameLength (.error obstacle) (.error obstacle)

namespace Image

/-- Two images that differ in the values of their bytes only. -/
def Alike (f g : Image) : Prop :=
  ∀ x, SameLength (f x) (g x)

theorem Alike.ok_of_ok {f g : Image} (h : Alike f g) {x : Nat} {b : List UInt8}
    (hg : g x = .ok b) : ∃ a, f x = .ok a ∧ a.length = b.length := by
  have hx := h x
  rw [hg] at hx
  cases hfx : f x with
  | ok a =>
    rw [hfx] at hx
    cases hx with
    | ok hlength => exact ⟨a, rfl, hlength⟩
  | error obstacle =>
    rw [hfx] at hx
    cases hx

theorem Alike.refl (f : Image) : Alike f f := by
  intro x
  cases f x with
  | ok b => exact .ok rfl
  | error obstacle => exact .error obstacle

theorem Alike.symm {f g : Image} (h : Alike f g) : Alike g f := by
  intro x
  have hx := h x
  generalize f x = a at hx
  generalize g x = b at hx
  cases hx with
  | ok hlength => exact .ok hlength.symm
  | error obstacle => exact .error obstacle

theorem alike_bytes {a b : List UInt8} (h : a.length = b.length) : Alike (bytes a) (bytes b) :=
  fun _ => .ok h

variable {f g f' g' : Image}

theorem alike_andThen (hf : Alike f f') (hg : Alike g g') :
    Alike (f.andThen g) (f'.andThen g') := by
  intro x
  have hx := hf x
  simp only [andThen, bind, Except.bind, pure, Except.pure]
  generalize f x = a at hx
  generalize f' x = a' at hx
  cases hx with
  | error obstacle => exact .error obstacle
  | @ok a a' hlength =>
    have hnext := hg (x + a.length)
    rw [hlength] at hnext
    simp only [hlength]
    generalize g (x + a'.length) = b at hnext
    generalize g' (x + a'.length) = b' at hnext
    cases hnext with
    | error obstacle => exact .error obstacle
    | ok hmore =>
      refine .ok ?_
      rw [List.length_append, List.length_append, hlength, hmore]

theorem alike_each {α : Type} {f f' : α → Image} {items : List α}
    (h : ∀ a, Alike (f a) (f' a)) : Alike (each f items) (each f' items) := by
  induction items with
  | nil => exact .refl _
  | cons a as ih => exact alike_andThen (h a) ih

theorem alike_checked (check : Except WireError Unit) (h : Alike f f') :
    Alike (checked check f) (checked check f') := by
  cases check with
  | ok u => exact h
  | error fault => exact .refl _

end Image

namespace Encoding

variable (repr : Representation) (order order' : ByteOrder)

theorem alike_word (n : Nat) :
    Alike (Encoding.wordImage ⟨repr, order⟩ n) (Encoding.wordImage ⟨repr, order'⟩ n) := by
  refine alike_andThen (.refl _) (alike_bytes ?_)
  rw [length_wordBytes, length_wordBytes]

theorem alike_count (n : Nat) :
    Alike (Encoding.countImage ⟨repr, order⟩ n) (Encoding.countImage ⟨repr, order'⟩ n) := by
  unfold countImage
  split
  · exact alike_word repr order order' n
  · exact .refl _

theorem alike_headed {body body' : Image} (h : Alike body body') (limit : Nat)
    (header : Nat → Nat) (tooLong : Nat → Obstacle) :
    Alike (headed ⟨repr, order⟩ limit header tooLong body)
      (headed ⟨repr, order'⟩ limit header tooLong body') := by
  intro x
  have hx := h (x + padding x 4 + 4)
  simp only [headed, bind, Except.bind]
  generalize body (x + padding x 4 + 4) = b at hx
  generalize body' (x + padding x 4 + 4) = b' at hx
  cases hx with
  | error obstacle => exact .error obstacle
  | ok hlength =>
    simp only [hlength]
    split
    · refine .ok ?_
      simp only [List.length_append, length_wordBytes, hlength]
    · exact .error _

theorem alike_scalar (field : String) (p : Primitive) (v : Value) :
    Alike (Encoding.scalarImage ⟨repr, order⟩ field p v)
      (Encoding.scalarImage ⟨repr, order'⟩ field p v) := by
  cases v with
  | scalar s =>
    simp only [scalarImage]
    split
    · cases s.wideChar? with
      | some c => exact .refl _
      | none =>
        refine alike_andThen (.refl _) (alike_bytes ?_)
        rw [length_scalarBytes, length_scalarBytes]
    · exact .refl _
  | _ => exact .refl _

theorem alike_run (field : String) (p : Primitive) (items : List Value) :
    Alike (Encoding.runImage ⟨repr, order⟩ field p items)
      (Encoding.runImage ⟨repr, order'⟩ field p items) := by
  induction items with
  | nil => exact .refl _
  | cons v vs ih =>
    cases v with
    | scalar s =>
      simp only [runImage]
      split
      · refine alike_andThen (alike_bytes ?_) ih
        rw [length_scalarBytes, length_scalarBytes]
      · exact .refl _
    | _ => exact .refl _

theorem alike_elements {f f' : Value → Image} (h : ∀ v, Alike (f v) (f' v)) (field : String)
    (run : Option Primitive) (items : List Value) :
    Alike (Encoding.elementsImage ⟨repr, order⟩ f field run items)
      (Encoding.elementsImage ⟨repr, order'⟩ f' field run items) := by
  unfold elementsImage
  cases run with
  | none => exact alike_each h
  | some p =>
    simp only []
    split
    · exact .refl _
    · exact alike_andThen (.refl _) (alike_run repr order order' field p items)

theorem alike_delimited {body body' : Image} (h : Alike body body')
    (extensibility : Extensibility) :
    Alike (Encoding.delimitedImage ⟨repr, order⟩ extensibility body)
      (Encoding.delimitedImage ⟨repr, order'⟩ extensibility body') := by
  unfold delimitedImage
  simp only []
  split
  · exact alike_headed repr order order' h _ _ _
  · exact h

end Encoding

section

open Encoding

variable {schema : Schema} {repr : Representation} {order order' : ByteOrder}
  {ofType ofType' : String → Fin schema.size → Value → Image}
  (htype : ∀ field i v, Alike (ofType field i v) (ofType' field i v))

include htype

theorem alike_value (field : String) (t : MemberType schema.size) (v : Value) :
    Alike (valueImage schema ⟨repr, order⟩ ofType field t v)
      (valueImage schema ⟨repr, order'⟩ ofType' field t v) := by
  induction t generalizing v with
  | primitive p => exact alike_scalar repr order order' field p v
  | string bound =>
    cases v with
    | string content =>
      exact alike_checked _ (alike_andThen (alike_count repr order order' _) (.refl _))
    | _ => exact .refl _
  | fixedString capacity =>
    cases v with
    | string content => exact .refl _
    | _ => exact .refl _
  | sequence element bound ih =>
    cases v with
    | sequence items =>
      exact alike_checked _ (alike_andThen (alike_count repr order order' _)
        (alike_elements repr order order' ih field _ items))
    | _ => exact .refl _
  | array element length ih =>
    cases v with
    | sequence items =>
      exact alike_checked _ (alike_elements repr order order' ih field _ items)
    | _ => exact .refl _
  | type i => exact htype field i v

theorem alike_member (typeName : String) (fields : Entries Value) (m : Member schema.size) :
    Alike (memberImage schema ⟨repr, order⟩ ofType typeName fields m)
      (memberImage schema ⟨repr, order'⟩ ofType' typeName fields m) := by
  unfold memberImage
  cases fields.get? m.name with
  | none => exact .refl _
  | some v =>
    simp only []
    split
    · exact alike_headed repr order order' (alike_value htype m.name m.type v) _ _ _
    · exact alike_value htype m.name m.type v

theorem alike_union (u : UnionType schema.size) (d : Int64) (arm : Option (String × Value)) :
    Alike (unionImage schema ⟨repr, order⟩ ofType u d arm)
      (unionImage schema ⟨repr, order'⟩ ofType' u d arm) := by
  unfold unionImage
  cases discriminatorValue u.discriminator d with
  | error fault => exact .refl _
  | ok disc =>
    refine alike_andThen (alike_value htype _ _ disc) ?_
    cases activeArm schema u d arm with
    | error fault => exact .refl _
    | ok active =>
      cases active with
      | none => exact .refl _
      | some selected => exact alike_value htype _ _ selected.2

end

theorem alike_type (schema : Schema) (repr : Representation) (order order' : ByteOrder)
    (levels : Nat) (field : String) (i : Fin schema.size) (v : Value) :
    Alike (typeImage schema ⟨repr, order⟩ levels field i v)
      (typeImage schema ⟨repr, order'⟩ levels field i v) := by
  induction levels generalizing field i v with
  | zero => exact .refl _
  | succ levels ih =>
    simp only [typeImage]
    cases (schema.get i).body with
    | struct s =>
      cases v with
      | struct fields =>
        exact Encoding.alike_delimited repr order order'
          (alike_each fun m => alike_member ih _ fields m) _
      | _ => exact .refl _
    | union u =>
      cases v with
      | union d arm =>
        exact Encoding.alike_delimited repr order order' (alike_union ih u d arm) _
      | _ => exact .refl _
    | enumeration enum =>
      cases v with
      | enumeration n => exact Encoding.alike_scalar repr order order' field _ _
      | _ => exact .refl _

namespace Demand

/-- The first demand asks for all that the second does. -/
def Implies (d d' : Demand) : Prop :=
  ∀ x stop, d x stop → d' x stop

variable {f f' : Image} {d d' : Demand}

theorem implies_behind (hf : Alike f f') (hd : Implies d d') :
    Implies (behind f d) (behind f' d') := by
  intro x stop h b hb
  obtain ⟨a, ha, hlength⟩ := hf.ok_of_ok hb
  rw [← hlength]
  exact hd _ _ (h a ha)

theorem implies_each {α : Type} {f f' : α → Image} {d d' : α → Demand} {items : List α}
    (hf : ∀ a, Alike (f a) (f' a)) (hd : ∀ a, Implies (d a) (d' a)) :
    Implies (each f d items) (each f' d' items) := by
  induction items with
  | nil => exact fun _ _ h => h
  | cons a as ih =>
    intro x stop h
    exact ⟨hd a x stop h.1, implies_behind (hf a) ih x stop h.2⟩

theorem implies_enclosed (hf : Alike f f') (hd : Implies d d') :
    Implies (enclosed f d) (enclosed f' d') := by
  intro x stop h b hb
  obtain ⟨a, ha, hlength⟩ := hf.ok_of_ok hb
  rw [← hlength]
  exact hd _ _ (h a ha)

theorem implies_delimited (repr : Representation) (order order' : ByteOrder)
    (extensibility : Extensibility) (hf : Alike f f') (hd : Implies d d') :
    Implies (delimited ⟨repr, order⟩ extensibility f d)
      (delimited ⟨repr, order'⟩ extensibility f' d') := by
  unfold delimited
  simp only []
  split
  · exact implies_enclosed hf hd
  · exact hd

end Demand

section

open Demand

variable {schema : Schema} {repr : Representation} {order order' : ByteOrder}
  {ofType ofType' : String → Fin schema.size → Value → Image}
  {ask ask' : String → Fin schema.size → Value → Demand}
  (htype : ∀ field i v, Alike (ofType field i v) (ofType' field i v))
  (hask : ∀ field i v, Implies (ask field i v) (ask' field i v))

include htype

theorem implies_announces {typeName : String} {fields : Entries Value} {m : Member schema.size}
    {x : Nat} {ms : List (Member schema.size)}
    (h : Announces schema ⟨repr, order⟩ ofType typeName fields m x ms) :
    Announces schema ⟨repr, order'⟩ ofType' typeName fields m x ms := by
  induction ms with
  | nil => exact h
  | cons other rest ih =>
    simp only [Announces] at h ⊢
    split at h
    next hpresent =>
      rw [if_pos hpresent]
      exact h
    next habsent =>
      rw [if_neg habsent]
      obtain ⟨b, hb, hlength⟩ := (alike_member htype typeName fields other).symm.ok_of_ok h.1
      rw [List.eq_nil_of_length_eq_zero hlength] at hb
      exact ⟨hb, ih h.2⟩

include hask

theorem implies_value (field : String) (t : MemberType schema.size) (v : Value) :
    Implies (valueDemand schema ⟨repr, order⟩ ofType ask field t v)
      (valueDemand schema ⟨repr, order'⟩ ofType' ask' field t v) := by
  induction t generalizing v with
  | fixedString capacity =>
    cases v with
    | string content => exact fun _ _ h => h
    | _ => exact fun _ _ h => h
  | sequence element bound ih =>
    cases v with
    | sequence items =>
      simp only [valueDemand]
      refine implies_behind (Encoding.alike_count repr order order' _) ?_
      intro x stop h
      refine ⟨fun hzero b hb => ?_, implies_each (alike_value htype field element) ih x stop h.2⟩
      obtain ⟨a, ha, hlength⟩ := (Encoding.alike_elements repr order order'
        (alike_value htype field element) field _ items).ok_of_ok hb
      rw [← hlength]
      exact h.1 hzero a ha
    | _ => exact fun _ _ h => h
  | array element length ih =>
    cases v with
    | sequence items => exact implies_each (alike_value htype field element) ih
    | _ => exact fun _ _ h => h
  | type i => exact hask field i v
  | _ => exact fun _ _ h => h

theorem implies_members (typeName : String) (fields : Entries Value)
    (ms : List (Member schema.size)) :
    Implies (membersDemand schema ⟨repr, order⟩ ofType ask typeName fields ms)
      (membersDemand schema ⟨repr, order'⟩ ofType' ask' typeName fields ms) := by
  induction ms with
  | nil => exact fun _ _ h => h
  | cons m rest ih =>
    intro x stop h
    refine ⟨?_, implies_behind (alike_member htype typeName fields m) ih x stop h.2⟩
    have hm := h.1
    cases hget : fields.get? m.name with
    | none =>
      rw [hget] at hm
      exact hm.imp id (implies_announces htype)
    | some v =>
      rw [hget] at hm
      simp only [] at hm ⊢
      split at hm
      next hoptional =>
        rw [if_pos hoptional]
        exact implies_enclosed (alike_value htype _ _ v) (implies_value htype hask _ _ v) x stop hm
      next halways =>
        rw [if_neg halways]
        exact implies_value htype hask _ _ v x stop hm

theorem implies_union (u : UnionType schema.size) (d : Int64) (arm : Option (String × Value)) :
    Implies (unionDemand schema ⟨repr, order⟩ ofType ask u d arm)
      (unionDemand schema ⟨repr, order'⟩ ofType' ask' u d arm) := by
  intro x stop h
  refine ⟨h.1, ?_⟩
  have harm := h.2
  cases hdisc : discriminatorValue u.discriminator d with
  | error fault => trivial
  | ok disc =>
    rw [hdisc] at harm
    refine implies_behind (alike_value htype _ _ disc) ?_ x stop harm
    cases u.select d with
    | none => exact fun _ _ h => h
    | some selected =>
      cases arm with
      | none => exact fun _ _ h => h
      | some entry => exact implies_value htype hask _ _ entry.2

end

theorem implies_type (schema : Schema) (repr : Representation) (order order' : ByteOrder)
    (levels : Nat) (field : String) (i : Fin schema.size) (v : Value) :
    Demand.Implies (typeDemand schema ⟨repr, order⟩ levels field i v)
      (typeDemand schema ⟨repr, order'⟩ levels field i v) := by
  induction levels generalizing field i v with
  | zero => exact fun _ _ h => h
  | succ levels ih =>
    have htype := alike_type schema repr order order' levels
    simp only [typeDemand]
    cases (schema.get i).body with
    | struct s =>
      cases v with
      | struct fields =>
        intro x stop h
        refine ⟨h.1, h.2.1, ?_⟩
        exact Demand.implies_delimited repr order order' _
          (alike_each fun m => alike_member htype _ fields m)
          (implies_members htype ih _ fields _) x stop h.2.2
      | _ => exact fun _ _ h => h
    | union u =>
      cases v with
      | union d arm =>
        exact Demand.implies_delimited repr order order' _ (alike_union htype u d arm)
          (implies_union htype ih u d arm)
      | _ => exact fun _ _ h => h
    | enumeration enum => exact fun _ _ h => h

namespace Schema

variable (schema : Schema) {e : Encoding} {i : Fin schema.size} {v : Value} {offset : Nat}

/-- A value with an image in one byte order has one in the other. -/
theorem image_of_order {b : List UInt8} (h : schema.image e i v offset = .ok b)
    (order : ByteOrder) : ∃ b', schema.image ⟨e.repr, order⟩ i v offset = .ok b' := by
  obtain ⟨b', hb', -⟩ := (alike_type schema e.repr order e.order maxDepth "" i v).ok_of_ok h
  exact ⟨b', hb'⟩

/-- A value that is canonical in one byte order is so in the other. -/
theorem canonical_of_order (h : schema.Canonical e i v offset) (order : ByteOrder) :
    schema.Canonical ⟨e.repr, order⟩ i v offset := by
  intro b hb
  obtain ⟨a, ha, hlength⟩ := (alike_type schema e.repr e.order order maxDepth "" i v).ok_of_ok hb
  rw [← hlength]
  exact implies_type schema e.repr e.order order maxDepth "" i v _ _ (h a ha)

end Schema

end Cdr
