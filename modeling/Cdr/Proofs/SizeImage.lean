import Cdr.Proofs.WriterImage
import Cdr.Wire.Size

/-! # Sizes and images

Sizing goes over a value as its image does and counts the bytes. It finds every fault that stands
in the way of an image, apart from the obstacles that only a writer minds.
-/

namespace Cdr

open Image

namespace SizeRules

/-- What sizing without a limit does at a position. Behind an obstacle that only a writer minds it
    goes on, and nothing is said of it. -/
def Counted (s : SizeM Unit) (position total : Nat) : Except Obstacle (List UInt8) → Prop
  | .ok b => s.run ⟨position, total⟩ = .ok ((), ⟨position + b.length, total + b.length⟩)
  | .error obstacle => obstacle.OnlyWritten ∨ s.run ⟨position, total⟩ = .error obstacle.error

def Counts (s : SizeM Unit) (image : Image) : Prop :=
  ∀ position total, Counted s position total (image position)

theorem counts_andThen {s k : SizeM Unit} {f g : Image} (hs : Counts s f) (hk : Counts k g) :
    Counts (do s; k) (f.andThen g) := by
  intro position total
  have first := hs position total
  cases hf : f position with
  | error obstacle =>
    rw [andThen_error g hf]
    rw [hf] at first
    refine first.imp id fun h => ?_
    rw [StateT.run_bind, h]
    rfl
  | ok a =>
    rw [hf] at first
    have hrun : (do s; k).run ⟨position, total⟩ =
        k.run ⟨position + a.length, total + a.length⟩ := by
      rw [StateT.run_bind, show s.run ⟨position, total⟩ = _ from first]
      rfl
    have second := hk (position + a.length) (total + a.length)
    cases hg : g (position + a.length) with
    | error obstacle =>
      rw [andThen_error_right hf hg]
      rw [hg] at second
      exact second.imp id fun h => hrun.trans h
    | ok b =>
      rw [andThen_ok hf hg]
      rw [hg] at second
      simp only [Counted, hrun, List.length_append, ← Nat.add_assoc]
      exact second

theorem counts_nothing : Counts (pure ()) (bytes []) :=
  fun _ _ => rfl

theorem counts_throw (fault : WireError) : Counts (throw fault) (fail (.refused fault)) :=
  fun _ _ => .inr rfl

theorem counts_checked (check : Except WireError Unit) {s : SizeM Unit} {f : Image}
    (hs : Counts s f) : Counts (do MonadExcept.ofExcept check; s) (checked check f) := by
  cases check with
  | error fault => exact counts_throw fault
  | ok u => exact hs

theorem counts_each {α : Type} {s : α → SizeM Unit} {f : α → Image} {xs : List α}
    (h : ∀ x ∈ xs, Counts (s x) (f x)) : Counts (xs.forM s) (each f xs) := by
  induction xs with
  | nil => exact counts_nothing
  | cons x xs ih =>
    apply counts_andThen
    · exact h x List.mem_cons_self
    · exact ih fun y hy => h y (List.mem_cons_of_mem x hy)

variable (repr : Representation) (order : ByteOrder)

/-- Sizing that no limit ends. -/
abbrev unlimited : SizeRules := ⟨repr, none⟩

theorem counts_add {n : Nat} {b : List UInt8} (h : b.length = n) :
    Counts ((unlimited repr).add n) (bytes b) := by
  intro position total
  subst h
  rfl

theorem counts_pad (alignment : Nat) :
    Counts ((unlimited repr).pad alignment) (zeros alignment) := by
  intro position total
  simp only [Counted, zeros, List.length_replicate]
  rfl

variable {repr order}

theorem counts_word (n : Nat) :
    Counts ((unlimited repr).addScalar .uint32) ((Encoding.mk repr order).wordImage n) := by
  have halignment := Encoding.alignmentOf_uint32 ⟨repr, order⟩
  unfold addScalar Encoding.wordImage
  rw [show (unlimited repr).repr.alignmentOf Primitive.uint32.size = 4 from halignment]
  exact counts_andThen (counts_pad _ _) (counts_add _ (Encoding.length_wordBytes _ n))

theorem counts_count (n : Nat) :
    Counts ((unlimited repr).addScalar .uint32) ((Encoding.mk repr order).countImage n) := by
  unfold Encoding.countImage
  split
  next => exact counts_word n
  next h => exact fun _ _ => .inl (Nat.le_of_not_lt h)

theorem wideChar_of_wideChar? {s : Scalar} {c : Char} (h : s.wideChar? = some c) :
    0x80 ≤ c.toNat := by
  cases s with
  | char d =>
    simp only [Scalar.wideChar?] at h
    split at h
    next => cases h
    next hd =>
      cases h
      omega
  | _ => cases h

theorem counts_scalar (field : String) (p : Primitive) (v : Value) :
    Counts (if v.primitive? = some p then (unlimited repr).addScalar p
      else throw (.mismatch field p.idlName v.kindName))
      ((Encoding.mk repr order).scalarImage field p v) := by
  cases v with
  | scalar s =>
    simp only [Value.primitive?, Option.some.injEq, Encoding.scalarImage]
    split
    next hp =>
      cases hwide : s.wideChar? with
      | some c => exact fun _ _ => .inl (wideChar_of_wideChar? hwide)
      | none =>
        refine counts_andThen (counts_pad _ _) (counts_add _ ?_)
        rw [Encoding.length_scalarBytes, hp]
    next => exact counts_throw _
  | _ => exact counts_throw _

/-- A run has an image unless one of its items is no scalar of its type. -/
theorem runImage_eq (e : Encoding) (field : String) (p : Primitive) (items : List Value) :
    (∃ b : List UInt8, e.runImage field p items = bytes b ∧ b.length = p.size * items.length ∧
      firstOther? p items = none) ∨
    (∃ found, e.runImage field p items = fail (.refused (.mismatch field p.idlName found)) ∧
      firstOther? p items = some found) := by
  induction items with
  | nil => exact .inl ⟨[], rfl, rfl, rfl⟩
  | cons v vs ih =>
    cases v with
    | scalar s =>
      by_cases hp : s.primitive = p
      · have hfirst : firstOther? p (.scalar s :: vs) = firstOther? p vs := by
          simp [firstOther?, Value.primitive?, hp]
        have himage : e.runImage field p (.scalar s :: vs) =
            (bytes (e.scalarBytes s)).andThen (e.runImage field p vs) := by
          simp only [Encoding.runImage, if_pos hp]
        rw [hfirst, himage]
        rcases ih with ⟨b, hb, hlength, hnone⟩ | ⟨found, hfail, hsome⟩
        · refine .inl ⟨e.scalarBytes s ++ b, ?_, ?_, hnone⟩
          · rw [hb, bytes_andThen_bytes]
          · rw [List.length_append, Encoding.length_scalarBytes, hp, hlength, List.length_cons,
              Nat.mul_succ, Nat.add_comm]
        · exact .inr ⟨found, by rw [hfail]; rfl, hsome⟩
      · refine .inr ⟨s.primitive.idlName, ?_, ?_⟩
        · simp only [Encoding.runImage, if_neg hp]
        · simp [firstOther?, Value.primitive?, hp, Value.kindName]
    | _ => exact .inr ⟨_, rfl, rfl⟩

theorem counts_elements {addItem : Value → SizeM Unit} {ofItem : Value → Image}
    (h : ∀ v, Counts (addItem v) (ofItem v)) (field : String) (run : Option Primitive)
    (items : List Value) :
    Counts (addElements (unlimited repr) addItem field run items)
      ((Encoding.mk repr order).elementsImage ofItem field run items) := by
  cases run with
  | none => exact counts_each fun v _ => h v
  | some p =>
    simp only [addElements, Encoding.elementsImage]
    split
    · exact counts_nothing
    · rcases runImage_eq ⟨repr, order⟩ field p items with
        ⟨b, hb, hlength, hnone⟩ | ⟨found, hfail, hsome⟩
      · rw [hnone, hb]
        exact counts_andThen (counts_pad _ _) (counts_add _ hlength)
      · rw [hsome, hfail, zeros_andThen_fail]
        exact counts_throw _

/-- Four bytes of header are counted in front of what they are the header of. -/
theorem counts_headed {s : SizeM Unit} {body : Image} (hs : Counts s body) {limit : Nat}
    (header : Nat → Nat) {tooLong : Nat → Obstacle}
    (hlong : ∀ n, limit ≤ n → (tooLong n).OnlyWritten) :
    Counts (do (unlimited repr).pad 4; (unlimited repr).add 4; s)
      (headed ⟨repr, order⟩ limit header tooLong body) := by
  intro x total
  have hrun : (do (unlimited repr).pad 4; (unlimited repr).add 4; s : SizeM Unit).run ⟨x, total⟩ =
      s.run ⟨x + padding x 4 + 4, total + padding x 4 + 4⟩ := rfl
  have inside := hs (x + padding x 4 + 4) (total + padding x 4 + 4)
  cases hbody : body (x + padding x 4 + 4) with
  | error obstacle =>
    rw [headed_error hbody]
    rw [hbody] at inside
    exact inside.imp id fun h => hrun.trans h
  | ok b =>
    rw [hbody] at inside
    by_cases hlength : b.length < limit
    · rw [headed_ok hbody hlength]
      simp only [Counted, hrun, List.length_append, List.length_replicate,
        Encoding.length_wordBytes, ← Nat.add_assoc]
      exact inside
    · rw [headed_tooLong hbody hlength]
      exact .inl (hlong _ (Nat.le_of_not_lt hlength))

theorem counts_delimited {s : SizeM Unit} {body : Image} (hs : Counts s body)
    (extensibility : Extensibility) :
    Counts (do (unlimited repr).addDelimiter extensibility; s)
      ((Encoding.mk repr order).delimitedImage extensibility body) := by
  unfold addDelimiter Encoding.delimitedImage
  split
  · have halignment := Encoding.alignmentOf_uint32 ⟨repr, order⟩
    have hheaded := @counts_headed repr order s body hs 0x100000000 (fun length => length) .longBody
      fun _ h => h
    unfold addScalar
    rw [show (unlimited repr).repr.alignmentOf Primitive.uint32.size = 4 from halignment,
      bind_assoc]
    exact hheaded
  · rw [pure_bind]
    exact hs

end SizeRules

open SizeRules

section

variable {schema : Schema} {repr : Representation} {order : ByteOrder}
  {addType : String → Fin schema.size → Value → SizeM Unit}
  {ofType : String → Fin schema.size → Value → Image}
  (htype : ∀ field i v, Counts (addType field i v) (ofType field i v))

include htype

theorem counts_value (field : String) (type : MemberType schema.size) (v : Value) :
    Counts (addValue schema (unlimited repr) addType field type v)
      (valueImage schema ⟨repr, order⟩ ofType field type v) := by
  induction type generalizing v with
  | primitive p => exact counts_scalar field p v
  | string bound =>
    cases v with
    | string text =>
      apply counts_checked
      refine counts_andThen (counts_count _) (counts_add _ ?_)
      rw [List.length_append, Text.length_utf8, List.length_singleton]
    | _ => exact counts_throw _
  | fixedString capacity =>
    cases v with
    | string text =>
      intro position total
      simp only [addValue, valueImage]
      -- The zeros behind the text fill the capacity, which the check has found to be large enough.
      by_cases hfits : capacity.toNat < text.utf8ByteSize
      · rw [show checkCapacity field text.utf8ByteSize capacity = .error _ from if_pos hfits]
        exact counts_throw _ position total
      · rw [show checkCapacity field text.utf8ByteSize capacity = .ok () from if_neg hfits]
        refine counts_add repr ?_ position total
        rw [List.length_append, Text.length_utf8, List.length_replicate]
        omega
    | _ => exact counts_throw _
  | sequence element bound ih =>
    cases v with
    | sequence items =>
      apply counts_checked
      exact counts_andThen (counts_count _) (counts_elements ih field _ items)
    | _ => exact counts_throw _
  | array element length ih =>
    cases v with
    | sequence items =>
      apply counts_checked
      exact counts_elements ih field _ items
    | _ => exact counts_throw _
  | type i => exact htype field i v

theorem counts_member (typeName : String) (fields : Entries Value) (m : Member schema.size) :
    Counts (addMember schema (unlimited repr) addType typeName fields m)
      (memberImage schema ⟨repr, order⟩ ofType typeName fields m) := by
  unfold addMember memberImage
  cases fields.get? m.name with
  | some v =>
    simp only []
    have hvalue : Counts (addValue schema (unlimited repr) addType m.name m.type v)
        (valueImage schema ⟨repr, order⟩ ofType m.name m.type v) :=
      counts_value htype m.name m.type v
    by_cases hoptional : m.optional
    · simp only [hoptional, if_true]
      exact counts_headed hvalue _ fun _ h => h
    · simp only [hoptional, Bool.false_eq_true, if_false]
      exact hvalue
  | none =>
    simp only []
    split
    · exact counts_nothing
    · exact counts_throw _

theorem counts_union (u : UnionType schema.size) (d : Int64) (arm : Option (String × Value)) :
    Counts (addUnion schema (unlimited repr) addType u d arm)
      (unionImage schema ⟨repr, order⟩ ofType u d arm) := by
  unfold addUnion unionImage
  cases discriminatorValue u.discriminator d with
  | error fault => exact counts_throw fault
  | ok disc =>
    apply counts_andThen (counts_value htype _ _ disc)
    cases activeArm schema u d arm with
    | error fault => exact counts_throw fault
    | ok active =>
      cases active with
      | none => exact counts_nothing
      | some selected => exact counts_value htype _ _ selected.2

end

theorem counts_type (schema : Schema) (repr : Representation) (order : ByteOrder) (levels : Nat)
    (field : String) (i : Fin schema.size) (v : Value) :
    Counts (addType schema (unlimited repr) levels field i v)
      (typeImage schema ⟨repr, order⟩ levels field i v) := by
  induction levels generalizing field i v with
  | zero => exact counts_throw _
  | succ levels ih =>
    simp only [addType, typeImage]
    cases (schema.get i).body with
    | struct s =>
      cases v with
      | struct fields =>
        exact counts_delimited (counts_each fun m _ => counts_member ih _ fields m) _
      | _ => exact counts_throw _
    | union u =>
      cases v with
      | union d arm => exact counts_delimited (counts_union ih u d arm) _
      | _ => exact counts_throw _
    | enumeration _ =>
      cases v with
      | enumeration n => exact counts_scalar field .int32 (.scalar (.int32 n))
      | _ => exact counts_throw _

namespace Schema

variable (schema : Schema) (e : Encoding) (i : Fin schema.size) (v : Value)

/-- A value with an image has the size of its image. -/
theorem sizeOf_of_image {offset : Nat} {b : List UInt8} (h : schema.image e i v offset = .ok b) :
    schema.sizeOf (unlimited e.repr) i v offset = .ok b.length := by
  have hcounts := counts_type schema e.repr e.order maxDepth "" i v offset 0
  rw [show typeImage schema e maxDepth "" i v offset = .ok b from h] at hcounts
  have hrun : addType schema (unlimited e.repr) maxDepth "" i v ⟨offset, 0⟩ = _ := hcounts
  simp only [sizeOf, hrun, Nat.zero_add]
  rfl

/-- An obstacle that sizing minds is what it fails with. -/
theorem sizeOf_of_obstacle {offset : Nat} {obstacle : Obstacle}
    (h : schema.image e i v offset = .error obstacle) :
    obstacle.OnlyWritten ∨
      schema.sizeOf (unlimited e.repr) i v offset = .error obstacle.error := by
  have hcounts := counts_type schema e.repr e.order maxDepth "" i v offset 0
  rw [show typeImage schema e maxDepth "" i v offset = .error obstacle from h] at hcounts
  refine hcounts.imp id fun hrun => ?_
  have hrun : addType schema (unlimited e.repr) maxDepth "" i v ⟨offset, 0⟩ = _ := hrun
  simp only [sizeOf, hrun]
  rfl

/-- Sizing and writing agree. What is written takes as many bytes as sizing counts. Where only one
    of the two fails, or the two fail with different errors, the writer met an obstacle on its way
    that sizing does not look for: a character outside of ASCII, or a length that does not fit its
    count, its body length or its header. The obstacle is the first one there is. -/
theorem sizeOf_agrees_with_encode (bytes : Array UInt8) (offset : Nat) :
    (∀ n, (schema.encode e (.appendingTo bytes) i v offset).1 = .ok n →
      schema.sizeOf (unlimited e.repr) i v offset = .ok n ∧
        ∃ b : List UInt8, b.length = n ∧
          (schema.encode e (.appendingTo bytes) i v offset).2 = .appendingTo (bytes ++ b)) ∧
    (∀ n, schema.sizeOf (unlimited e.repr) i v offset = .ok n →
      (schema.encode e (.appendingTo bytes) i v offset).1 = .ok n ∨
        ∃ obstacle : Obstacle, obstacle.OnlyWritten ∧
          schema.image e i v offset = .error obstacle ∧
          (schema.encode e (.appendingTo bytes) i v offset).1 = .error obstacle.error) ∧
    (∀ fault, schema.sizeOf (unlimited e.repr) i v offset = .error fault →
      (schema.encode e (.appendingTo bytes) i v offset).1 = .error fault ∨
        ∃ obstacle : Obstacle, obstacle.OnlyWritten ∧
          schema.image e i v offset = .error obstacle ∧
          (schema.encode e (.appendingTo bytes) i v offset).1 = .error obstacle.error) := by
  cases himage : schema.image e i v offset with
  | ok b =>
    have hsize := schema.sizeOf_of_image e i v himage
    have hencode := schema.encode_of_image e i v bytes himage
    rw [hencode, hsize]
    refine ⟨?_, ?_, ?_⟩
    · intro n h
      cases h
      exact ⟨rfl, b, rfl, rfl⟩
    · intro n h
      exact .inl h
    · intro fault h
      cases h
  | error obstacle =>
    obtain ⟨rest, hencode⟩ := schema.encode_of_obstacle e i v bytes himage
    rw [hencode]
    refine ⟨?_, ?_, ?_⟩
    · intro n h
      cases h
    · intro n h
      rcases schema.sizeOf_of_obstacle e i v himage with honly | hsize
      · exact .inr ⟨obstacle, honly, rfl, rfl⟩
      · rw [hsize] at h
        cases h
    · intro fault h
      rcases schema.sizeOf_of_obstacle e i v himage with honly | hsize
      · exact .inr ⟨obstacle, honly, rfl, rfl⟩
      · rw [hsize] at h
        cases h
        exact .inl rfl

end Schema

end Cdr
