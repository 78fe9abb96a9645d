import Cdr.Proofs.Canonical
import Cdr.Proofs.SizeImage

/-! # What the bytes of an image tell

An image that is there tells what it is the image of: each has the form that its type gives it. It
has at least the bytes that a value of the type needs, and where it has none, the value is the
default of its type.
-/

namespace Cdr

open Image

namespace Image

theorem checked_eq_ok {check : Except WireError Unit} {f : Image} {x : Nat} {b : List UInt8}
    (h : checked check f x = .ok b) : check = .ok () ∧ f x = .ok b := by
  cases check with
  | ok u => exact ⟨rfl, h⟩
  | error fault => cases h

/-- What stands behind a length is as long as that tells. -/
theorem headed_eq_ok {e : Encoding} {limit : Nat} {header : Nat → Nat} {tooLong : Nat → Obstacle}
    {body : Image} {x : Nat} {b : List UInt8}
    (h : headed e limit header tooLong body x = .ok b) :
    ∃ inner, body (x + padding x 4 + 4) = .ok inner ∧ inner.length < limit ∧
      b = List.replicate (padding x 4) 0 ++ (e.wordBytes (header inner.length) ++ inner) := by
  cases hbody : body (x + padding x 4 + 4) with
  | error obstacle =>
    rw [headed_error hbody] at h
    cases h
  | ok inner =>
    by_cases hlimit : inner.length < limit
    · rw [headed_ok hbody hlimit] at h
      cases h
      exact ⟨inner, rfl, hlimit, rfl⟩
    · rw [headed_tooLong hbody hlimit] at h
      cases h

/-- Each member of a list has at least `least` bytes, so the list has that often as many. -/
theorem length_each {α : Type} {f : α → Image} {least : Nat} {items : List α}
    (hitem : ∀ a ∈ items, ∀ x b, f a x = .ok b → least ≤ b.length) {x : Nat} {b : List UInt8}
    (h : each f items x = .ok b) : items.length * least ≤ b.length := by
  induction items generalizing x b with
  | nil => simp
  | cons a as ih =>
    obtain ⟨first, rest, hfirst, hrest, rfl⟩ := andThen_eq_ok h
    have hleast := hitem a List.mem_cons_self x first hfirst
    have hmore := ih (fun c hc => hitem c (List.mem_cons_of_mem a hc)) hrest
    rw [List.length_cons, Nat.succ_mul, List.length_append]
    omega

end Image

namespace Encoding

theorem countImage_eq_ok {e : Encoding} {n x : Nat} {b : List UInt8}
    (h : e.countImage n x = .ok b) :
    n < 0x100000000 ∧ b = List.replicate (padding x 4) 0 ++ e.wordBytes n := by
  unfold countImage at h
  split at h
  next hn =>
    cases h
    exact ⟨hn, rfl⟩
  next => cases h

theorem scalarImage_eq_ok {e : Encoding} {field : String} {p : Primitive} {v : Value} {x : Nat}
    {b : List UInt8} (h : e.scalarImage field p v x = .ok b) :
    ∃ s : Scalar, v = .scalar s ∧ s.primitive = p ∧ s.wideChar? = none ∧
      b = List.replicate (padding x (e.alignmentOf p)) 0 ++ e.scalarBytes s := by
  cases v with
  | scalar s =>
    simp only [scalarImage] at h
    split at h
    next hp =>
      cases hwide : s.wideChar? with
      | some c =>
        rw [hwide] at h
        cases h
      | none =>
        rw [hwide] at h
        cases h
        exact ⟨s, rfl, hp, hwide, rfl⟩
    next => cases h
  | _ => cases h

theorem length_scalarImage_pos {e : Encoding} {field : String} {p : Primitive} {v : Value} {x : Nat}
    {b : List UInt8} (h : e.scalarImage field p v x = .ok b) : 0 < b.length := by
  obtain ⟨s, -, -, -, rfl⟩ := scalarImage_eq_ok h
  rw [List.length_append, length_scalarBytes]
  exact Nat.add_pos_right _ s.primitive.size_pos

/-- There are bytes wherever a length is written. -/
theorem append_wordBytes_ne_nil (e : Encoding) (gap : List UInt8) (n : Nat) (inner : List UInt8) :
    gap ++ (e.wordBytes n ++ inner) ≠ [] := by
  intro h
  have hlength := congrArg List.length h
  simp only [List.length_append, length_wordBytes, List.length_nil] at hlength
  omega

theorem runImage_eq_ok {e : Encoding} {field : String} {p : Primitive} {items : List Value}
    {x : Nat} {b : List UInt8} (h : e.runImage field p items x = .ok b) :
    ∃ ss : List Scalar, items = ss.map .scalar ∧ (∀ s ∈ ss, s.primitive = p) ∧
      b = ss.flatMap e.scalarBytes := by
  induction items generalizing x b with
  | nil =>
    cases h
    exact ⟨[], rfl, nofun, rfl⟩
  | cons v vs ih =>
    cases v with
    | scalar s =>
      simp only [runImage] at h
      split at h
      next hp =>
        obtain ⟨first, rest, hfirst, hrest, rfl⟩ := andThen_eq_ok h
        cases hfirst
        obtain ⟨ss, rfl, hss, rfl⟩ := ih hrest
        refine ⟨s :: ss, rfl, ?_, rfl⟩
        intro t ht
        rcases List.mem_cons.1 ht with rfl | ht
        · exact hp
        · exact hss t ht
      next => cases h
    | _ => cases h

theorem length_runBytes {e : Encoding} {p : Primitive} {ss : List Scalar}
    (h : ∀ s ∈ ss, s.primitive = p) : (ss.flatMap e.scalarBytes).length = ss.length * p.size := by
  induction ss with
  | nil => simp
  | cons s ss ih =>
    rw [List.flatMap_cons, List.length_append, length_scalarBytes, h s List.mem_cons_self,
      ih fun t ht => h t (List.mem_cons_of_mem s ht), List.length_cons, Nat.succ_mul, Nat.add_comm]

theorem delimitedImage_eq_ok {e : Encoding} {extensibility : Extensibility} {body : Image} {x : Nat}
    {b : List UInt8} (h : e.delimitedImage extensibility body x = .ok b) :
    (e.repr.isDelimited extensibility = false ∧ body x = .ok b) ∨
    (e.repr.isDelimited extensibility = true ∧ ∃ inner,
      body (x + padding x 4 + 4) = .ok inner ∧ inner.length < 0x100000000 ∧
      b = List.replicate (padding x 4) 0 ++ (e.wordBytes inner.length ++ inner)) := by
  unfold delimitedImage at h
  split at h
  next hframed => exact .inr ⟨hframed, headed_eq_ok h⟩
  next hframed => exact .inl ⟨Bool.eq_false_iff.2 hframed, h⟩

/-- Only a body without a length in front has no bytes. -/
theorem delimitedImage_eq_nil {e : Encoding} {extensibility : Extensibility} {body : Image}
    {x : Nat} (h : e.delimitedImage extensibility body x = .ok []) :
    e.repr.isDelimited extensibility = false ∧ body x = .ok [] := by
  rcases delimitedImage_eq_ok h with hbare | ⟨-, inner, -, -, hbytes⟩
  · exact hbare
  · exact absurd hbytes.symm (e.append_wordBytes_ne_nil _ _ _)

/-- Elements of a run are scalars of its type, which are padded once, if there are any. -/
theorem elementsImage_run_eq_ok {e : Encoding} {ofItem : Value → Image} {field : String}
    {p : Primitive} {items : List Value} {x : Nat} {b : List UInt8}
    (h : e.elementsImage ofItem field (some p) items x = .ok b) :
    (items = [] ∧ b = []) ∨
    ∃ ss : List Scalar, ss ≠ [] ∧ items = ss.map .scalar ∧ (∀ s ∈ ss, s.primitive = p) ∧
      b = List.replicate (padding x (e.alignmentOf p)) 0 ++ ss.flatMap e.scalarBytes := by
  cases items with
  | nil =>
    cases h
    exact .inl ⟨rfl, rfl⟩
  | cons v vs =>
    obtain ⟨first, rest, hfirst, hrest, rfl⟩ := andThen_eq_ok (f := zeros (e.alignmentOf p)) h
    cases hfirst
    obtain ⟨ss, hitems, hss, rfl⟩ := runImage_eq_ok hrest
    refine .inr ⟨ss, ?_, hitems, hss, rfl⟩
    rintro rfl
    cases hitems

end Encoding

namespace MemberType

theorem eq_of_blittable? {n : Nat} {t : MemberType n} {p : Primitive} (h : t.blittable? = some p) :
    t = .primitive p ∧ p.isBlittable := by
  cases t with
  | primitive q =>
    simp only [blittable?] at h
    split at h
    next hq =>
      cases h
      exact ⟨rfl, hq⟩
    next => cases h
  | _ => cases h

end MemberType

section

variable {schema : Schema} {e : Encoding} {ofType : String → Fin schema.size → Value → Image}
  {x : Nat} {b : List UInt8}

/-- A member of a struct is absent, always there, or there behind a header. -/
theorem memberImage_eq_ok {typeName : String} {fields : Entries Value} {m : Member schema.size}
    (h : memberImage schema e ofType typeName fields m x = .ok b) :
    (fields.get? m.name = none ∧ m.optional = true ∧ b = []) ∨
    (∃ v, fields.get? m.name = some v ∧ m.optional = false ∧
      valueImage schema e ofType m.name m.type v x = .ok b) ∨
    (∃ v inner, fields.get? m.name = some v ∧ m.optional = true ∧
      valueImage schema e ofType m.name m.type v (x + padding x 4 + 4) = .ok inner ∧
      inner.length < 0x20000000 ∧
      b = List.replicate (padding x 4) (0 : UInt8) ++
        (e.wordBytes (inner.length * 8 + m.id.toNat % 8) ++ inner)) := by
  unfold memberImage at h
  cases hget : fields.get? m.name with
  | none =>
    rw [hget] at h
    cases hoptional : m.optional with
    | true =>
      rw [hoptional] at h
      cases h
      exact .inl ⟨rfl, rfl, rfl⟩
    | false =>
      rw [hoptional] at h
      cases h
  | some v =>
    rw [hget] at h
    cases hoptional : m.optional with
    | true =>
      rw [hoptional] at h
      have h : e.optionalImage m.id (valueImage schema e ofType m.name m.type v) x = .ok b := h
      obtain ⟨inner, hinner, hlimit, rfl⟩ := headed_eq_ok h
      refine .inr (.inr ⟨v, inner, rfl, rfl, hinner, hlimit, ?_⟩)
      rw [Encoding.optionalHeader_eq]
    | false =>
      rw [hoptional] at h
      exact .inr (.inl ⟨v, rfl, rfl, h⟩)

theorem unionImage_eq_ok {u : UnionType schema.size} {d : Int64} {arm : Option (String × Value)}
    (h : unionImage schema e ofType u d arm x = .ok b) :
    ∃ disc active first rest, discriminatorValue u.discriminator d = .ok disc ∧
      valueImage schema e ofType u.discriminator.name u.discriminator.type disc x = .ok first ∧
      activeArm schema u d arm = .ok active ∧
      armImage schema e ofType active (x + first.length) = .ok rest ∧ b = first ++ rest := by
  unfold unionImage at h
  cases hdisc : discriminatorValue u.discriminator d with
  | error fault =>
    rw [hdisc] at h
    cases h
  | ok disc =>
    rw [hdisc] at h
    obtain ⟨first, rest, hfirst, hrest, rfl⟩ := andThen_eq_ok h
    cases hactive : activeArm schema u d arm with
    | error fault =>
      rw [hactive] at hrest
      cases hrest
    | ok active =>
      rw [hactive] at hrest
      exact ⟨disc, active, first, rest, rfl, hfirst, rfl, hrest, rfl⟩

/-- A value of a declared type is of the kind of its body. -/
theorem typeImage_eq_ok {levels : Nat} {field : String} {i : Fin schema.size} {v : Value}
    (h : typeImage schema e (levels + 1) field i v x = .ok b) :
    (∃ s fields, (schema.get i).body = .struct s ∧ v = .struct fields ∧
      e.delimitedImage (schema.get i).extensibility
        (each (memberImage schema e (typeImage schema e levels) (schema.get i).full fields)
          s.wireMembers) x = .ok b) ∨
    (∃ u d arm, (schema.get i).body = .union u ∧ v = .union d arm ∧
      e.delimitedImage (schema.get i).extensibility
        (unionImage schema e (typeImage schema e levels) u d arm) x = .ok b) ∨
    (∃ enum n, (schema.get i).body = .enumeration enum ∧ v = .enumeration n ∧
      e.scalarImage field .int32 (.scalar (.int32 n)) x = .ok b) := by
  simp only [typeImage] at h
  cases hbody : (schema.get i).body with
  | struct s =>
    rw [hbody] at h
    cases v with
    | struct fields => exact .inl ⟨s, fields, rfl, rfl, h⟩
    | _ => cases h
  | union u =>
    rw [hbody] at h
    cases v with
    | union d arm => exact .inr (.inl ⟨u, d, arm, rfl, rfl, h⟩)
    | _ => cases h
  | enumeration enum =>
    rw [hbody] at h
    cases v with
    | enumeration n => exact .inr (.inr ⟨enum, n, rfl, rfl, h⟩)
    | _ => cases h

end

section

variable {schema : Schema} {e : Encoding} {ofType : String → Fin schema.size → Value → Image}
  {least : Fin schema.size → Nat}
  (htype : ∀ field i v x b, ofType field i v x = .ok b → least i ≤ b.length)

theorem length_elements {field : String} {element : MemberType schema.size} {items : List Value}
    {x : Nat} {b : List UInt8}
    (hitem : ∀ v x b, valueImage schema e ofType field element v x = .ok b →
      element.minSizeWith least ≤ b.length)
    (h : e.elementsImage (valueImage schema e ofType field element) field element.blittable? items x
      = .ok b) : items.length * element.minSizeWith least ≤ b.length := by
  cases hrun : element.blittable? with
  | some p =>
    rw [hrun] at h
    obtain ⟨rfl, -⟩ := MemberType.eq_of_blittable? hrun
    rcases Encoding.elementsImage_run_eq_ok h with ⟨rfl, rfl⟩ | ⟨ss, -, rfl, hss, rfl⟩
    · simp
    · rw [List.length_append, Encoding.length_runBytes hss, List.length_map]
      exact Nat.le_add_left _ _
  | none =>
    rw [hrun] at h
    exact length_each (fun v _ => hitem v) h

include htype

/-- A value of a member has at least the bytes that its type needs. -/
theorem minSizeWith_le_length {field : String} {t : MemberType schema.size} {v : Value} {x : Nat}
    {b : List UInt8} (h : valueImage schema e ofType field t v x = .ok b) :
    t.minSizeWith least ≤ b.length := by
  induction t generalizing v x b with
  | primitive p =>
    obtain ⟨s, rfl, rfl, -, rfl⟩ := Encoding.scalarImage_eq_ok h
    rw [List.length_append, Encoding.length_scalarBytes]
    exact Nat.le_add_left _ _
  | string bound =>
    cases v with
    | string text =>
      obtain ⟨-, h⟩ := checked_eq_ok h
      obtain ⟨first, rest, hfirst, -, rfl⟩ := andThen_eq_ok h
      obtain ⟨-, rfl⟩ := Encoding.countImage_eq_ok hfirst
      simp only [MemberType.minSizeWith, List.length_append, Encoding.length_wordBytes]
      omega
    | _ => cases h
  | fixedString capacity =>
    cases v with
    | string text =>
      obtain ⟨hfits, h⟩ := checked_eq_ok h
      cases h
      have hle := checkCapacity_eq_ok hfits
      rw [List.length_append, Text.length_utf8, List.length_replicate]
      simp only [MemberType.minSizeWith]
      omega
    | _ => cases h
  | sequence element bound ih =>
    cases v with
    | sequence items =>
      obtain ⟨-, h⟩ := checked_eq_ok h
      obtain ⟨first, rest, hfirst, -, rfl⟩ := andThen_eq_ok h
      obtain ⟨-, rfl⟩ := Encoding.countImage_eq_ok hfirst
      simp only [MemberType.minSizeWith, List.length_append, Encoding.length_wordBytes]
      omega
    | _ => cases h
  | array element length ih =>
    cases v with
    | sequence items =>
      obtain ⟨hlength, h⟩ := checked_eq_ok h
      rw [MemberType.minSizeWith, Nat.mul_comm, ← checkLength_eq_ok hlength]
      exact length_elements (fun _ _ _ => ih) h
    | _ => cases h
  | type i => exact htype field i v x b h

theorem sum_minSizeWith_le_length {typeName : String} {fields : Entries Value}
    {ms : List (Member schema.size)} {x : Nat} {b : List UInt8}
    (h : each (memberImage schema e ofType typeName fields) ms x = .ok b) :
    ((ms.filter fun m => !m.optional).map fun m => m.type.minSizeWith least).foldr (· + ·) 0 ≤
      b.length := by
  induction ms generalizing x b with
  | nil => simp
  | cons m rest ih =>
    obtain ⟨first, others, hfirst, hothers, rfl⟩ := andThen_eq_ok h
    have hrest := ih hothers
    rw [List.length_append]
    cases hoptional : m.optional with
    | true =>
      rw [List.filter_cons_of_neg (by simp [hoptional])]
      omega
    | false =>
      have hvalue : m.type.minSizeWith least ≤ first.length := by
        rcases memberImage_eq_ok hfirst with ⟨-, h, -⟩ | ⟨v, -, -, h⟩ | ⟨v, inner, -, h, -⟩
        · rw [hoptional] at h
          cases h
        · exact minSizeWith_le_length htype h
        · rw [hoptional] at h
          cases h
      rw [List.filter_cons_of_pos (by simp [hoptional]), List.map_cons, List.foldr_cons]
      omega

end

/-- A value of a declared type has at least the bytes that the type needs, however deep these are
    looked for. -/
theorem minSizeWithin_le_length (schema : Schema) (e : Encoding) (levels deep : Nat)
    (field : String) (i : Fin schema.size) (v : Value) (x : Nat) (b : List UInt8)
    (h : typeImage schema e levels field i v x = .ok b) :
    schema.minSizeWithin e.repr deep i ≤ b.length := by
  induction levels generalizing deep field i v x b with
  | zero => cases h
  | succ levels ih =>
    cases deep with
    | zero => exact Nat.zero_le _
    | succ deep =>
      have hframed : ∀ {inner : List UInt8},
          e.repr.isDelimited (schema.get i).extensibility = true →
          schema.minSizeWithin e.repr (deep + 1) i ≤
            (List.replicate (padding x 4) 0 ++ (e.wordBytes inner.length ++ inner)).length := by
        intro inner hframed
        simp only [Schema.minSizeWithin, hframed, if_true, List.length_append,
          Encoding.length_wordBytes]
        omega
      rcases typeImage_eq_ok h with ⟨s, fields, hbody, rfl, himage⟩ |
        ⟨u, d, arm, hbody, rfl, himage⟩ | ⟨enum, n, hbody, rfl, himage⟩
      · rcases Encoding.delimitedImage_eq_ok himage with
          ⟨hbare, hbytes⟩ | ⟨hdelimited, inner, -, -, rfl⟩
        · have hperm := (s.perm_wireMembers.filter fun m => !m.optional).map fun m =>
            m.type.minSizeWith (schema.minSizeWithin e.repr deep)
          simp only [Schema.minSizeWithin, hbare, hbody, Bool.false_eq_true, if_false]
          rw [← hperm.foldr_eq' (f := (· + ·)) (fun _ _ _ _ _ => Nat.add_left_comm _ _ _) 0]
          exact sum_minSizeWith_le_length (ih deep) hbytes
        · exact hframed hdelimited
      · rcases Encoding.delimitedImage_eq_ok himage with
          ⟨hbare, hbytes⟩ | ⟨hdelimited, inner, -, -, rfl⟩
        · obtain ⟨disc, active, first, rest, -, hfirst, -, -, rfl⟩ := unionImage_eq_ok hbytes
          simp only [Schema.minSizeWithin, hbare, hbody, Bool.false_eq_true, if_false]
          rw [List.length_append]
          exact Nat.le_trans (minSizeWith_le_length (ih deep) hfirst) (Nat.le_add_right _ _)
        · exact hframed hdelimited
      · obtain ⟨s, hs, hp, -, rfl⟩ := Encoding.scalarImage_eq_ok himage
        rw [List.length_append, Encoding.length_scalarBytes, hp]
        simp only [Schema.minSizeWithin, hbody]
        split
        · exact Nat.le_add_left _ _
        · exact Nat.le_add_left _ _

end Cdr
