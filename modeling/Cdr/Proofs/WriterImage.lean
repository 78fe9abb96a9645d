import Cdr.Proofs.Image
import Cdr.Proofs.Script

/-! # Writers and images

A writer goes through the bytes of an image in order and goes back to fill in lengths. Whatever
the sink is, it performs a balanced script whose bytes are the image; where there is no image, it
performs a torn script and then fails with the error of the obstacle.
-/

namespace Cdr

open Image Script

namespace Image

theorem andThen_ok {f g : Image} {position : Nat} {a b : List UInt8} (hf : f position = .ok a)
    (hg : g (position + a.length) = .ok b) : (f.andThen g) position = .ok (a ++ b) := by
  simp only [andThen, hf, hg, bind, Except.bind, pure, Except.pure]

theorem andThen_error {f : Image} (g : Image) {position : Nat} {obstacle : Obstacle}
    (hf : f position = .error obstacle) : (f.andThen g) position = .error obstacle := by
  simp only [andThen, hf, bind, Except.bind]

theorem andThen_error_right {f g : Image} {position : Nat} {a : List UInt8} {obstacle : Obstacle}
    (hf : f position = .ok a) (hg : g (position + a.length) = .error obstacle) :
    (f.andThen g) position = .error obstacle := by
  simp only [andThen, hf, hg, bind, Except.bind]

/-- What stands behind each other has both parts. -/
theorem andThen_eq_ok {f g : Image} {position : Nat} {b : List UInt8}
    (h : (f.andThen g) position = .ok b) :
    ∃ first second, f position = .ok first ∧ g (position + first.length) = .ok second ∧
      b = first ++ second := by
  cases hf : f position with
  | error obstacle =>
    rw [andThen_error g hf] at h
    cases h
  | ok first =>
    cases hg : g (position + first.length) with
    | error obstacle =>
      rw [andThen_error_right hf hg] at h
      cases h
    | ok second =>
      rw [andThen_ok hf hg] at h
      cases h
      exact ⟨first, second, rfl, hg, rfl⟩

theorem andThen_assoc (f g h : Image) : (f.andThen g).andThen h = f.andThen (g.andThen h) := by
  funext position
  simp only [andThen, bind, Except.bind, pure, Except.pure]
  cases f position with
  | error obstacle => rfl
  | ok a =>
    simp only []
    cases g (position + a.length) with
    | error obstacle => rfl
    | ok b =>
      simp only [List.length_append, Nat.add_assoc]
      cases h (position + (a.length + b.length)) with
      | error obstacle => rfl
      | ok c => simp only [List.append_assoc]

theorem bytes_andThen_bytes (a b : List UInt8) : (bytes a).andThen (bytes b) = bytes (a ++ b) := rfl

theorem nil_andThen (f : Image) : (bytes []).andThen f = f := by
  funext position
  simp only [andThen, bytes, bind, Except.bind, pure, Except.pure, List.length_nil, Nat.add_zero,
    List.nil_append]
  cases f position <;> rfl

theorem headed_ok {e : Encoding} {limit : Nat} {header : Nat → Nat} {tooLong : Nat → Obstacle}
    {body : Image} {x : Nat} {b : List UInt8} (hbody : body (x + padding x 4 + 4) = .ok b)
    (hlimit : b.length < limit) :
    headed e limit header tooLong body x =
      .ok (List.replicate (padding x 4) 0 ++ (e.wordBytes (header b.length) ++ b)) := by
  simp only [headed, hbody, bind, Except.bind, if_pos hlimit, pure, Except.pure]

theorem headed_tooLong {e : Encoding} {limit : Nat} {header : Nat → Nat}
    {tooLong : Nat → Obstacle} {body : Image} {x : Nat} {b : List UInt8}
    (hbody : body (x + padding x 4 + 4) = .ok b) (hlimit : ¬b.length < limit) :
    headed e limit header tooLong body x = .error (tooLong b.length) := by
  simp only [headed, hbody, bind, Except.bind, if_neg hlimit]

theorem headed_error {e : Encoding} {limit : Nat} {header : Nat → Nat} {tooLong : Nat → Obstacle}
    {body : Image} {x : Nat} {obstacle : Obstacle}
    (hbody : body (x + padding x 4 + 4) = .error obstacle) :
    headed e limit header tooLong body x = .error obstacle := by
  simp only [headed, hbody, bind, Except.bind]

/-- What comes behind zeros alone decides whether there is an image. -/
theorem zeros_andThen_fail (alignment : Nat) (obstacle : Obstacle) :
    (zeros alignment).andThen (fail obstacle) = fail obstacle := rfl

end Image

namespace Encoding

theorem alignmentOf_uint32 (e : Encoding) : e.alignmentOf .uint32 = 4 := by
  obtain ⟨repr, order⟩ := e
  cases repr <;> rfl

theorem length_wordBytes (e : Encoding) (n : Nat) : (e.wordBytes n).length = 4 :=
  ByteOrder.length_encode _ _ _

theorem length_scalarBytes (e : Encoding) (s : Scalar) :
    (e.scalarBytes s).length = s.primitive.size :=
  ByteOrder.length_encode _ _ _

theorem wordBytes_zero (e : Encoding) : e.wordBytes 0 = placeholder := by
  obtain ⟨repr, order⟩ := e
  cases order <;> rfl

end Encoding

namespace WriteM

theorem run_position (w : Writer) : position.run w = .ok w.position w := rfl

/-- What a writer does at a position, whatever its sink is. -/
def Performs (m : WriteM Unit) (position : Nat) : Except Obstacle (List UInt8) → Prop
  | .ok b => ∃ ops, Balanced ops b ∧
      ∀ sink, m.run ⟨sink, position⟩ = (perform ops).run ⟨sink, position⟩
  | .error obstacle => ∃ ops, Torn ops ∧
      ∀ sink, m.run ⟨sink, position⟩ =
        (do perform ops; throw obstacle.error : WriteM Unit).run ⟨sink, position⟩

def Writes (m : WriteM Unit) (image : Image) : Prop :=
  ∀ position, Performs m position (image position)

/-- Behind a balanced script the position is known, so what follows need agree there only. -/
theorem run_bind_perform {m : WriteM Unit} {ops : Script} {a : List UInt8} {position : Nat}
    (balanced : Balanced ops a)
    (hm : ∀ sink, m.run ⟨sink, position⟩ = (perform ops).run ⟨sink, position⟩)
    {k : Unit → WriteM Unit} {rest : WriteM Unit}
    (hk : ∀ sink, (k ()).run ⟨sink, position + a.length⟩ =
      rest.run ⟨sink, position + a.length⟩) (sink : Sink) :
    (m >>= k).run ⟨sink, position⟩ = (do perform ops; rest).run ⟨sink, position⟩ := by
  simp only [EStateM.run_bind, hm]
  cases h : (perform ops).run ⟨sink, position⟩ with
  | error fault after => rfl
  | ok u after =>
    have hposition := position_of_perform h
    rw [balanced.advance_eq] at hposition
    have hafter : after = ⟨after.sink, position + a.length⟩ := by
      rw [← hposition]
    rw [hafter]
    exact hk _

theorem writes_andThen {m k : WriteM Unit} {f g : Image} (hm : Writes m f) (hk : Writes k g) :
    Writes (do m; k) (f.andThen g) := by
  intro position
  have first := hm position
  cases hf : f position with
  | error obstacle =>
    rw [andThen_error g hf]
    rw [hf] at first
    obtain ⟨ops, torn, hrun⟩ := first
    refine ⟨ops, torn, fun sink => ?_⟩
    simp only [EStateM.run_bind, hrun]
    cases (perform ops).run ⟨sink, position⟩ <;> rfl
  | ok a =>
    rw [hf] at first
    obtain ⟨ops, balanced, hrun⟩ := first
    have second := hk (position + a.length)
    cases hg : g (position + a.length) with
    | error obstacle =>
      rw [andThen_error_right hf hg]
      rw [hg] at second
      obtain ⟨more, torn, hmore⟩ := second
      refine ⟨ops ++ more, torn.append balanced, fun sink => ?_⟩
      rw [run_bind_perform balanced hrun hmore, perform_append, bind_assoc]
    | ok b =>
      rw [andThen_ok hf hg]
      rw [hg] at second
      obtain ⟨more, tail, hmore⟩ := second
      refine ⟨ops ++ more, balanced.append tail, fun sink => ?_⟩
      rw [run_bind_perform balanced hrun hmore, perform_append]

/-- Where there is an image, it is put behind the bytes that were there. -/
theorem Writes.run_of_image {m : WriteM Unit} {image : Image} (h : Writes m image) {position : Nat}
    {b : List UInt8} (himage : image position = .ok b) (bytes : Array UInt8) :
    m.run ⟨.appendingTo bytes, position⟩ =
      .ok () ⟨.appendingTo (bytes ++ b), position + b.length⟩ := by
  have hperforms := h position
  rw [himage] at hperforms
  obtain ⟨ops, balanced, hrun⟩ := hperforms
  exact (hrun _).trans (balanced.perform_appendingTo bytes position)

/-- Where there is none, the error is that of the obstacle, and some bytes may have been put there
    by then. -/
theorem Writes.run_of_obstacle {m : WriteM Unit} {image : Image} (h : Writes m image)
    {position : Nat} {obstacle : Obstacle} (himage : image position = .error obstacle)
    (bytes : Array UInt8) :
    ∃ rest : List UInt8, m.run ⟨.appendingTo bytes, position⟩ =
      .error obstacle.error ⟨.appendingTo (bytes ++ rest), position + rest.length⟩ := by
  have hperforms := h position
  rw [himage] at hperforms
  obtain ⟨ops, torn, hrun⟩ := hperforms
  obtain ⟨rest, hdone⟩ := torn.perform_appendingTo bytes position
  refine ⟨rest, (hrun _).trans ?_⟩
  simp only [EStateM.run_bind, hdone, EStateM.run_throw]

/-- What a write that succeeds puts behind the bytes that were there is the image. -/
theorem Writes.image_of_run {m : WriteM Unit} {image : Image} (h : Writes m image)
    {bytes : Array UInt8} {position : Nat} {w : Writer}
    (hrun : m.run ⟨.appendingTo bytes, position⟩ = .ok () w) :
    ∃ b, image position = .ok b ∧ w.sink = .appendingTo (bytes ++ b) := by
  cases himage : image position with
  | error obstacle =>
    obtain ⟨rest, hfault⟩ := h.run_of_obstacle himage bytes
    rw [hfault] at hrun
    cases hrun
  | ok b =>
    rw [h.run_of_image himage bytes] at hrun
    cases hrun
    exact ⟨b, rfl, rfl⟩

theorem writes_nothing : Writes (pure ()) (bytes []) :=
  fun _ => ⟨[], .nil, fun _ => rfl⟩

theorem writes_emit (b : List UInt8) : Writes (emit b) (bytes b) := by
  intro position
  refine ⟨[.emit b], balanced_single b, fun sink => ?_⟩
  simp only [perform, SinkOp.run, EStateM.run_bind]
  cases (emit b).run ⟨sink, position⟩ <;> rfl

theorem writes_throw (obstacle : Obstacle) : Writes (throw obstacle.error) (fail obstacle) :=
  fun _ => ⟨[], .whole .nil, fun _ => rfl⟩

theorem writes_checked (check : Except WireError Unit) {m : WriteM Unit} {f : Image}
    (hm : Writes m f) : Writes (do MonadExcept.ofExcept check; m) (checked check f) := by
  cases check with
  | error fault => exact writes_throw (.refused fault)
  | ok u => exact hm

theorem writes_each {α : Type} {m : α → WriteM Unit} {f : α → Image} {xs : List α}
    (h : ∀ x ∈ xs, Writes (m x) (f x)) : Writes (xs.forM m) (each f xs) := by
  induction xs with
  | nil => exact writes_nothing
  | cons x xs ih =>
    apply writes_andThen
    · exact h x List.mem_cons_self
    · exact ih fun y hy => h y (List.mem_cons_of_mem x hy)

/-- Zeros are written unless there are none. -/
theorem writes_zeros (n : Nat) :
    Writes (if 0 < n then emit (List.replicate n 0) else pure ()) (bytes (List.replicate n 0)) := by
  split
  next => exact writes_emit _
  next h =>
    have hn : n = 0 := by omega
    subst hn
    exact writes_nothing

theorem writes_pad (alignment : Nat) : Writes (pad alignment) (zeros alignment) := by
  intro position
  obtain ⟨ops, balanced, hrun⟩ := writes_zeros (padding position alignment) position
  refine ⟨ops, balanced, fun sink => ?_⟩
  rw [← hrun sink]
  rfl

end WriteM

open WriteM

namespace Encoding

variable (e : Encoding)

theorem writes_word (n : Nat) : Writes (e.writeWord n) (e.wordImage n) := by
  unfold writeWord wordImage
  rw [alignmentOf_uint32]
  exact writes_andThen (writes_pad 4) (writes_emit _)

theorem writes_count (n : Nat) : Writes (e.writeCount n) (e.countImage n) := by
  unfold writeCount countImage
  split
  · exact e.writes_word n
  · exact writes_throw (.longCount n)

theorem writes_scalar (field : String) (p : Primitive) (v : Value) :
    Writes (e.writeScalar field p v) (e.scalarImage field p v) := by
  have hrefused : ∀ obstacle, Writes (do pad (e.alignmentOf p); throw obstacle.error)
      (fail obstacle) := by
    intro obstacle
    rw [← zeros_andThen_fail (e.alignmentOf p) obstacle]
    exact writes_andThen (writes_pad _) (writes_throw obstacle)
  unfold writeScalar
  cases v with
  | scalar s =>
    simp only [scalarImage]
    split
    · cases s.wideChar? with
      | some c => exact hrefused (.wideChar c)
      | none => exact writes_andThen (writes_pad _) (writes_emit _)
    · exact hrefused (.refused _)
  | _ => exact hrefused (.refused _)

/-- A run is written in chunks; what is staged stands in front of what is to come. -/
theorem writes_run (field : String) (p : Primitive) (items : List Value) (chunk : List UInt8) :
    Writes (e.writeRun field p chunk items) ((bytes chunk).andThen (e.runImage field p items)) := by
  have hrefused : ∀ obstacle, Writes (throw obstacle.error)
      ((bytes chunk).andThen (fail obstacle)) := fun obstacle => writes_throw obstacle
  induction items generalizing chunk with
  | nil =>
    simp only [writeRun, runImage, bytes_andThen_bytes, List.append_nil]
    split
    next hempty =>
      rw [List.isEmpty_iff.1 hempty]
      exact writes_nothing
    next => exact writes_emit chunk
  | cons v vs ih =>
    cases v with
    | scalar s =>
      simp only [writeRun, runImage]
      split
      next =>
        rw [← andThen_assoc, bytes_andThen_bytes]
        split
        next => exact ih (chunk ++ e.scalarBytes s) fun obstacle => writes_throw obstacle
        next =>
          have hrest := ih [] fun obstacle => writes_throw obstacle
          rw [nil_andThen] at hrest
          exact writes_andThen (writes_emit _) hrest
      next => exact hrefused (.refused _)
    | _ => exact hrefused (.refused _)

theorem writes_elements {each : Value → WriteM Unit} {ofItem : Value → Image}
    (h : ∀ v, Writes (each v) (ofItem v)) (field : String) (run : Option Primitive)
    (items : List Value) :
    Writes (e.writeElements each field run items) (e.elementsImage ofItem field run items) := by
  cases run with
  | none => exact writes_each fun v _ => h v
  | some p =>
    simp only [writeElements, elementsImage]
    split
    · exact writes_nothing
    · have hrun := e.writes_run field p items []
      rw [nil_andThen] at hrun
      exact writes_andThen (writes_pad _) hrun

/-- What is written in front of a body, and the position at which the body begins. -/
theorem run_behind_placeholder {gap : Script} {x : Nat}
    (hgap : Balanced gap (List.replicate (padding x 4) 0))
    (hpad : ∀ sink, (pad 4).run ⟨sink, x⟩ = (perform gap).run ⟨sink, x⟩)
    {tail : Nat → WriteM Unit} (rest : WriteM Unit)
    (htail : ∀ sink, (tail (x + padding x 4 + 4)).run ⟨sink, x + padding x 4 + 4⟩ =
      rest.run ⟨sink, x + padding x 4 + 4⟩) (sink : Sink) :
    (do e.writeWord 0; let start ← position; tail start).run ⟨sink, x⟩ =
      (do perform gap; perform [.emit placeholder]; rest).run ⟨sink, x⟩ := by
  unfold writeWord
  rw [alignmentOf_uint32, wordBytes_zero, bind_assoc]
  refine run_bind_perform hgap hpad (fun sink => ?_) sink
  rw [List.length_replicate]
  refine run_bind_perform (balanced_single placeholder) (fun sink => ?_) (fun sink => ?_) sink
  · simp only [perform, SinkOp.run, EStateM.run_bind]
    cases (emit placeholder).run ⟨sink, x + padding x 4⟩ <;> rfl
  · rw [EStateM.run_bind, run_position]
    exact htail sink

/-- The patch behind a body fills the placeholder in front of it, as the position has moved by the
    length of the body in between. -/
theorem writes_headed {m : WriteM Unit} {body : Image} (hm : Writes m body) (limit : Nat)
    (header : Nat → Nat) {tooLong : Nat → Obstacle} (hlong : ∀ n, (tooLong n).error = .outOfRange) :
    Writes (do
      e.writeWord 0
      let start ← position
      m
      let length := (← position) - start
      if length < limit then patch (length + 4) (e.wordBytes (header length))
      else throw .outOfRange) (headed e limit header tooLong body) := by
  intro x
  obtain ⟨gap, hgap, hpad⟩ := writes_pad 4 x
  have inside := hm (x + padding x 4 + 4)
  cases hbody : body (x + padding x 4 + 4) with
  | error obstacle =>
    rw [headed_error hbody]
    rw [hbody] at inside
    obtain ⟨ops, torn, hrun⟩ := inside
    refine ⟨gap ++ .emit placeholder :: ops, .opened hgap torn, fun sink => ?_⟩
    rw [e.run_behind_placeholder hgap hpad (do perform ops; throw obstacle.error)
      (fun sink => ?_) sink]
    · simp only [perform_append, perform, bind_assoc, pure_bind]
    · simp only [EStateM.run_bind, hrun]
      cases (perform ops).run ⟨sink, x + padding x 4 + 4⟩ <;> rfl
  | ok b =>
    rw [hbody] at inside
    obtain ⟨ops, balanced, hrun⟩ := inside
    by_cases hlength : b.length < limit
    · rw [headed_ok hbody hlength]
      have hword : (e.wordBytes (header b.length)).length = placeholder.length :=
        e.length_wordBytes _
      have hbalanced := Balanced.patched hword balanced .nil
      rw [List.append_nil] at hbalanced
      refine ⟨_, hgap.append hbalanced, fun sink => ?_⟩
      rw [e.run_behind_placeholder hgap hpad
        (do perform ops; perform [.patch (b.length + 4) (e.wordBytes (header b.length))])
        (fun sink => ?_) sink]
      · simp only [perform_append, perform, bind_assoc, pure_bind]
      · refine run_bind_perform balanced hrun (fun sink => ?_) sink
        rw [EStateM.run_bind, run_position]
        simp only [Nat.add_sub_cancel_left, if_pos hlength, perform, bind_pure_unit, SinkOp.run]
    · rw [headed_tooLong hbody hlength]
      refine ⟨gap ++ .emit placeholder :: ops, .opened hgap (.whole balanced), fun sink => ?_⟩
      rw [e.run_behind_placeholder hgap hpad (do perform ops; throw (tooLong b.length).error)
        (fun sink => ?_) sink]
      · simp only [perform_append, perform, bind_assoc, pure_bind]
      · refine run_bind_perform balanced hrun (fun sink => ?_) sink
        rw [EStateM.run_bind, run_position]
        simp only [Nat.add_sub_cancel_left, if_neg hlength, hlong]

theorem writes_delimited {m : WriteM Unit} {body : Image} (hm : Writes m body)
    (extensibility : Extensibility) :
    Writes (e.writeDelimited extensibility m) (e.delimitedImage extensibility body) := by
  unfold writeDelimited delimitedImage
  split
  · exact e.writes_headed hm 0x100000000 (fun length => length) fun _ => rfl
  · exact hm

/-- The header of an optional member, as one number. -/
theorem optionalHeader_eq (length : Nat) (id : UInt32) :
    length <<< 3 ||| id.toNat &&& 7 = length * 8 + id.toNat % 8 := by
  have hlow : id.toNat &&& 7 = id.toNat % 8 := Nat.and_two_pow_sub_one_eq_mod id.toNat 3
  have hlt : id.toNat % 8 < 2 ^ 3 := Nat.mod_lt _ (by decide)
  rw [hlow, ← Nat.shiftLeft_add_eq_or_of_lt hlt, Nat.shiftLeft_eq]

theorem writes_optional {m : WriteM Unit} {value : Image} (hm : Writes m value) (id : UInt32) :
    Writes (e.writeOptional id m) (e.optionalImage id value) := by
  unfold optionalImage
  simp only [optionalHeader_eq]
  exact e.writes_headed hm 0x20000000 (fun length => length * 8 + id.toNat % 8) fun _ => rfl

end Encoding

section

variable {schema : Schema} {e : Encoding}
  {writeType : String → Fin schema.size → Value → WriteM Unit}
  {ofType : String → Fin schema.size → Value → Image}
  (htype : ∀ field i v, Writes (writeType field i v) (ofType field i v))

include htype

theorem writes_value (field : String) (type : MemberType schema.size) (v : Value) :
    Writes (writeValue schema e writeType field type v)
      (valueImage schema e ofType field type v) := by
  induction type generalizing v with
  | primitive p => exact e.writes_scalar field p v
  | string bound =>
    cases v with
    | string text =>
      apply writes_checked
      apply writes_andThen (e.writes_count _)
      exact writes_andThen (writes_emit _) (writes_emit _)
    | _ => exact writes_throw (.refused _)
  | fixedString capacity =>
    cases v with
    | string text =>
      apply writes_checked
      exact writes_andThen (writes_emit _) (writes_zeros _)
    | _ => exact writes_throw (.refused _)
  | sequence element bound ih =>
    cases v with
    | sequence items =>
      apply writes_checked
      exact writes_andThen (e.writes_count _) (e.writes_elements ih field _ items)
    | _ => exact writes_throw (.refused _)
  | array element length ih =>
    cases v with
    | sequence items =>
      apply writes_checked
      exact e.writes_elements ih field _ items
    | _ => exact writes_throw (.refused _)
  | type i => exact htype field i v

theorem writes_member (typeName : String) (fields : Entries Value) (m : Member schema.size) :
    Writes (writeMember schema e writeType typeName fields m)
      (memberImage schema e ofType typeName fields m) := by
  unfold writeMember memberImage
  cases fields.get? m.name with
  | some v =>
    simp only []
    split
    · exact e.writes_optional (writes_value htype m.name m.type v) m.id
    · exact writes_value htype m.name m.type v
  | none =>
    simp only []
    split
    · exact writes_nothing
    · exact writes_throw (.refused (.missingField typeName m.name))

theorem writes_union (u : UnionType schema.size) (d : Int64) (arm : Option (String × Value)) :
    Writes (writeUnion schema e writeType u d arm) (unionImage schema e ofType u d arm) := by
  unfold writeUnion unionImage
  cases discriminatorValue u.discriminator d with
  | error fault => exact writes_throw (.refused fault)
  | ok disc =>
    apply writes_andThen (writes_value htype _ _ disc)
    cases activeArm schema u d arm with
    | error fault => exact writes_throw (.refused fault)
    | ok active =>
      cases active with
      | none => exact writes_nothing
      | some selected => exact writes_value htype _ _ selected.2

end

theorem writes_type (schema : Schema) (e : Encoding) (levels : Nat) (field : String)
    (i : Fin schema.size) (v : Value) :
    Writes (writeType schema e levels field i v) (typeImage schema e levels field i v) := by
  induction levels generalizing field i v with
  | zero => exact writes_throw (.refused (.depthExceeded field))
  | succ levels ih =>
    simp only [writeType, typeImage]
    cases (schema.get i).body with
    | struct s =>
      cases v with
      | struct fields =>
        exact e.writes_delimited (writes_each fun m _ => writes_member ih _ fields m) _
      | _ => exact writes_throw (.refused _)
    | union u =>
      cases v with
      | union d arm => exact e.writes_delimited (writes_union ih u d arm) _
      | _ => exact writes_throw (.refused _)
    | enumeration _ =>
      cases v with
      | enumeration n => exact e.writes_scalar field .int32 _
      | _ => exact writes_throw (.refused _)

namespace Schema

variable (schema : Schema) (e : Encoding) (i : Fin schema.size) (v : Value)

/-- A value with an image is written, and its image is appended. -/
theorem encode_of_image (bytes : Array UInt8) {offset : Nat} {b : List UInt8}
    (h : schema.image e i v offset = .ok b) :
    schema.encode e (.appendingTo bytes) i v offset =
      (.ok b.length, .appendingTo (bytes ++ b)) := by
  have hdone := (writes_type schema e maxDepth "" i v).run_of_image h bytes
  simp only [encode, write, outcome, hdone, Except.map, Nat.add_sub_cancel_left]

/-- A value without an image is refused with the error of the obstacle, and some bytes may have
    been appended by then. -/
theorem encode_of_obstacle (bytes : Array UInt8) {offset : Nat} {obstacle : Obstacle}
    (h : schema.image e i v offset = .error obstacle) :
    ∃ rest : List UInt8, schema.encode e (.appendingTo bytes) i v offset =
      (.error obstacle.error, .appendingTo (bytes ++ rest)) := by
  obtain ⟨rest, hfault⟩ := (writes_type schema e maxDepth "" i v).run_of_obstacle h bytes
  refine ⟨rest, ?_⟩
  simp only [encode, write, outcome, hfault, Except.map]

/-- What is written without fault is the image. -/
theorem image_of_encode {offset n : Nat} {sink : Sink}
    (h : schema.encode e (.appendingTo #[]) i v offset = (.ok n, sink)) :
    ∃ b, schema.image e i v offset = .ok b ∧ n = b.length ∧ sink.bytes = b.toArray := by
  cases himage : schema.image e i v offset with
  | error obstacle =>
    obtain ⟨rest, hencode⟩ := schema.encode_of_obstacle e i v #[] himage
    rw [hencode] at h
    cases h
  | ok b =>
    rw [schema.encode_of_image e i v #[] himage] at h
    cases h
    refine ⟨b, rfl, rfl, Array.toList_inj.1 ?_⟩
    simp [Sink.appendingTo]

/-- Filling in lengths afterwards comes to the same as putting them in front in the first place. A
    write that succeeds leaves the bytes that were there with the image behind them, and what it
    does to a sink, whichever it is, is a balanced script for the image: every placeholder is
    replaced once, by the patch that belongs to it. A write that fails, which it does for want of
    an image, leaves the bytes that were there at the front. -/
theorem encode_refines_image (bytes : Array UInt8) (offset : Nat) :
    (∀ n sink, schema.encode e (.appendingTo bytes) i v offset = (.ok n, sink) →
      ∃ b ops, schema.image e i v offset = .ok b ∧ n = b.length ∧
        sink = .appendingTo (bytes ++ b) ∧ Balanced ops b ∧
        ∀ other, (schema.write e "" i v).run ⟨other, offset⟩ =
          (perform ops).run ⟨other, offset⟩) ∧
    (∀ fault sink, schema.encode e (.appendingTo bytes) i v offset = (.error fault, sink) →
      ∃ obstacle, ∃ rest : List UInt8, schema.image e i v offset = .error obstacle ∧
        fault = obstacle.error ∧ sink = .appendingTo (bytes ++ rest)) := by
  cases himage : schema.image e i v offset with
  | ok b =>
    have hencode := schema.encode_of_image e i v bytes himage
    refine ⟨?_, ?_⟩
    · intro n sink h
      have hwrites := writes_type schema e maxDepth "" i v offset
      rw [show typeImage schema e maxDepth "" i v offset = .ok b from himage] at hwrites
      obtain ⟨ops, balanced, hrun⟩ := hwrites
      rw [hencode] at h
      cases h
      exact ⟨b, ops, rfl, rfl, rfl, balanced, hrun⟩
    · intro fault sink h
      rw [hencode] at h
      cases h
  | error obstacle =>
    obtain ⟨rest, hencode⟩ := schema.encode_of_obstacle e i v bytes himage
    refine ⟨?_, ?_⟩
    · intro n sink h
      rw [hencode] at h
      cases h
    · intro fault sink h
      rw [hencode] at h
      cases h
      exact ⟨obstacle, rest, rfl, rfl, rfl⟩

end Schema

end Cdr
