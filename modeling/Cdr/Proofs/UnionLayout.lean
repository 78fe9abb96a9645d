import Cdr.Proofs.StructLayout
import Mathlib

/-! # Unions as tagged structs

Under the rules of the C language a union with its discriminator is a struct of two members, the
discriminator and the arms laid over each other. The arms together are rounded up to their own
alignment before the struct rounds again. The layout of a union leaves the first rounding out, and
loses nothing by it: the arms begin at a multiple of their alignment, and the alignment of the whole
is a multiple of theirs.
-/

namespace Cdr

variable {a b position : Nat}

/-! ## Rounding up twice -/

theorem IsPowerOfTwo.dvd_of_le (ha : IsPowerOfTwo a) (hb : IsPowerOfTwo b) (h : a ≤ b) : a ∣ b := by
  obtain ⟨i, rfl⟩ := ha
  obtain ⟨j, rfl⟩ := hb
  exact Nat.pow_dvd_pow 2 ((Nat.pow_le_pow_iff_right (by decide)).1 h)

/-- There is one least multiple only. -/
theorem alignUp_eq (ha : IsPowerOfTwo a) {multiple : Nat}
    (h : IsLeastMultiple a position multiple) : alignUp position a = multiple :=
  IsLeast.unique (isLeastMultiple_alignUp ha position) h

theorem alignUp_zero (alignment : Nat) : alignUp 0 alignment = 0 := by
  simp [alignUp]

/-- What lies in front of a boundary takes no part in the rounding. -/
theorem alignUp_add_of_dvd (ha : IsPowerOfTwo a) (h : a ∣ position) (size : Nat) :
    alignUp (position + size) a = position + alignUp size a := by
  obtain ⟨⟨hdvd, hle⟩, hleast⟩ := isLeastMultiple_alignUp ha size
  apply alignUp_eq ha
  refine ⟨⟨Nat.dvd_add h hdvd, Nat.add_le_add_left hle position⟩, ?_⟩
  rintro multiple ⟨hmultiple, hbehind⟩
  have hrest : alignUp size a ≤ multiple - position :=
    hleast ⟨Nat.dvd_sub hmultiple h, by omega⟩
  omega

/-- Rounding up to a boundary first changes nothing for the boundaries among its multiples. -/
theorem alignUp_alignUp (ha : IsPowerOfTwo a) (hb : IsPowerOfTwo b) (h : a ∣ b) :
    alignUp (alignUp position a) b = alignUp position b := by
  have hfirst := isLeastMultiple_alignUp ha position
  have hsecond := isLeastMultiple_alignUp hb (alignUp position a)
  refine (alignUp_eq hb ⟨⟨hsecond.1.1, hfirst.1.2.trans hsecond.1.2⟩, ?_⟩).symm
  rintro multiple ⟨hmultiple, hle⟩
  exact hsecond.2 ⟨hmultiple, hfirst.2 ⟨h.trans hmultiple, hle⟩⟩

/-! ## Arms over each other -/

/-- The place of arms that begin at one byte: it is as strictly aligned as the strictest of them,
    and as large as the largest of them when that is rounded up to the alignment. -/
structure IsOverlay (arms : List Extent) (largest : Nat) (whole : Extent) : Prop where
  isLargest : IsGreatest {size | ∃ arm ∈ arms, arm.size = size} largest
  isStrictest : IsGreatest {alignment | ∃ arm ∈ arms, arm.alignment = alignment} whole.alignment
  isRounded : IsLeastMultiple whole.alignment largest whole.size

theorem isGreatest_max? {α : Type} {xs : List α} (hne : xs ≠ []) (f : α → Nat) (other : Nat) :
    IsGreatest {n | ∃ x ∈ xs, f x = n} ((xs.map f).max?.getD other) := by
  have hmap : xs.map f ≠ [] := fun h => hne (List.map_eq_nil_iff.1 h)
  obtain ⟨most, hmost⟩ := Option.isSome_iff_exists.1 (List.isSome_max?_of_ne_nil hmap)
  rw [hmost, Option.getD_some]
  obtain ⟨hmem, hle⟩ := List.max?_eq_some_iff.1 hmost
  refine ⟨List.mem_map.1 hmem, ?_⟩
  rintro n ⟨x, hx, rfl⟩
  exact hle (f x) (List.mem_map_of_mem hx)

namespace NativeLayout

variable {discriminator : String × Extent} {arms : List (String × Extent)}

/-- The size of the largest arm. -/
def largestArm (arms : List (String × Extent)) : Nat :=
  (arms.map fun arm => arm.2.size).max?.getD 0

/-- The arms of a union as one member of a struct. -/
def overlay (arms : List (String × Extent)) : Extent :=
  let alignment := (arms.map fun arm => arm.2.alignment).max?.getD 1
  ⟨alignUp (largestArm arms) alignment, alignment⟩

theorem isPowerOfTwo_overlay (hne : arms ≠ []) (h : ∀ arm ∈ arms, IsPowerOfTwo arm.2.alignment) :
    IsPowerOfTwo (overlay arms).alignment := by
  obtain ⟨arm, harm, halignment⟩ := (isGreatest_max? hne (fun arm => arm.2.alignment) 1).1
  have halignment : arm.2.alignment = (overlay arms).alignment := halignment
  rw [← halignment]
  exact h arm harm

theorem isOverlay_overlay (hne : arms ≠ []) (h : ∀ arm ∈ arms, IsPowerOfTwo arm.2.alignment) :
    IsOverlay (arms.map Prod.snd) (largestArm arms) (overlay arms) := by
  have hmap : arms.map Prod.snd ≠ [] := fun hnil => hne (List.map_eq_nil_iff.1 hnil)
  have hlargest := isGreatest_max? hmap Extent.size 0
  have hstrictest := isGreatest_max? hmap Extent.alignment 1
  rw [List.map_map] at hlargest hstrictest
  exact ⟨hlargest, hstrictest, isLeastMultiple_alignUp (isPowerOfTwo_overlay hne h) _⟩

/-- Where the arms of a union begin. -/
def payloadStart (discriminator : String × Extent) (arms : List (String × Extent)) : Nat :=
  alignUp discriminator.2.size (overlay arms).alignment

theorem size_union (discriminator : String × Extent) (arms : List (String × Extent)) :
    (union discriminator arms).size =
      alignUp (payloadStart discriminator arms + largestArm arms)
        (max discriminator.2.alignment (overlay arms).alignment) := rfl

theorem padding_union (discriminator : String × Extent) (arms : List (String × Extent)) :
    (union discriminator arms).padding =
      gap discriminator.2.size (payloadStart discriminator arms) ++
        gap (payloadStart discriminator arms + largestArm arms) (union discriminator arms).size :=
  rfl

/-- The rounding of the arms alone is made up for by that of the whole. -/
theorem extent_tagged (name : String) (hne : arms ≠ [])
    (hdisc : IsPowerOfTwo discriminator.2.alignment)
    (harms : ∀ arm ∈ arms, IsPowerOfTwo arm.2.alignment) :
    (NativeLayout.struct [discriminator, (name, overlay arms)]).extent =
      (union discriminator arms).extent := by
  have hinner := isPowerOfTwo_overlay hne harms
  let inner := (overlay arms).alignment
  let whole := max discriminator.2.alignment inner
  have hwhole : IsPowerOfTwo whole := max_rec' IsPowerOfTwo hdisc hinner
  have hdvd : inner ∣ whole := hinner.dvd_of_le hwhole (Nat.le_max_right _ _)
  have hpayload : inner ∣ payloadStart discriminator arms := (isLeastMultiple_alignUp hinner _).1.1
  have hone : max (max 1 discriminator.2.alignment) inner = whole := by
    rw [Nat.max_eq_right hdisc.pos]
  have hsize : alignUp (payloadStart discriminator arms + alignUp (largestArm arms) inner) whole =
      alignUp (payloadStart discriminator arms + largestArm arms) whole := by
    rw [← alignUp_add_of_dvd hinner hpayload, alignUp_alignUp hinner hwhole hdvd]
  have hstruct : (NativeLayout.struct [discriminator, (name, overlay arms)]).extent =
      ⟨alignUp (payloadStart discriminator arms + alignUp (largestArm arms) inner)
        (max (max 1 discriminator.2.alignment) inner),
        max (max 1 discriminator.2.alignment) inner⟩ := by
    simp only [extent, NativeLayout.struct, place, alignUp_zero, Nat.zero_add, List.foldl_cons,
      List.foldl_nil]
    rfl
  rw [hstruct, hone, hsize]
  rfl

theorem offsets_tagged (discriminator : String × Extent) (name : String)
    (arms : List (String × Extent)) :
    (NativeLayout.struct [discriminator, (name, overlay arms)]).fields.map FieldLayout.offset =
      [0, payloadStart discriminator arms] := by
  simp only [NativeLayout.struct, place, alignUp_zero, Nat.zero_add, List.map_cons, List.map_nil]
  rfl

theorem map_stretch_gap (start stop : Nat) :
    (gap start stop).map Gap.stretch =
      [(⟨start, stop - start⟩ : Stretch)].filter fun s => 0 < s.size := by
  unfold gap
  by_cases h : start < stop
  · simp [h, Gap.stretch]
  · simp [h]

theorem end_le_size_union (hne : arms ≠ []) (hdisc : IsPowerOfTwo discriminator.2.alignment)
    (harms : ∀ arm ∈ arms, IsPowerOfTwo arm.2.alignment) :
    payloadStart discriminator arms + largestArm arms ≤ (union discriminator arms).size := by
  rw [size_union]
  exact le_alignUp (max_rec' IsPowerOfTwo hdisc (isPowerOfTwo_overlay hne harms)) _

theorem contains_gap_iff {start stop byte : Nat} :
    (∃ g ∈ gap start stop, g.stretch.Contains byte) ↔ start ≤ byte ∧ byte < stop := by
  unfold gap
  by_cases h : start < stop
  · simp only [h, if_true, List.mem_singleton, exists_eq_left, Gap.stretch, Stretch.Contains]
    omega
  · simp only [h, if_false, List.not_mem_nil, false_and, exists_false, false_iff]
    omega

theorem free_of_fields_iff {byte : Nat} :
    (∀ f ∈ (union discriminator arms).fields, ¬f.stretch.Contains byte) ↔
      discriminator.2.size ≤ byte ∧ ∀ arm ∈ arms,
        ¬(payloadStart discriminator arms ≤ byte ∧
          byte < payloadStart discriminator arms + arm.2.size) := by
  have hfirst : ¬Stretch.Contains ⟨0, discriminator.2.size⟩ byte ↔ discriminator.2.size ≤ byte := by
    simp [Stretch.Contains]
  rw [← hfirst]
  simp only [union, List.forall_mem_cons, List.forall_mem_map]
  rfl

/-- The gaps of a union are the bytes that neither its discriminator nor any of its arms takes. -/
theorem contains_padding_union_iff (hne : arms ≠ [])
    (hdisc : IsPowerOfTwo discriminator.2.alignment)
    (harms : ∀ arm ∈ arms, IsPowerOfTwo arm.2.alignment) (byte : Nat) :
    (∃ g ∈ (union discriminator arms).padding, g.stretch.Contains byte) ↔
      byte < (union discriminator arms).size ∧
        ∀ f ∈ (union discriminator arms).fields, ¬f.stretch.Contains byte := by
  have hstop := end_le_size_union hne hdisc harms
  have hstart : discriminator.2.size ≤ payloadStart discriminator arms :=
    le_alignUp (isPowerOfTwo_overlay hne harms) _
  -- The largest arm takes all that any arm takes.
  have harm : (∀ arm ∈ arms, ¬(payloadStart discriminator arms ≤ byte ∧
      byte < payloadStart discriminator arms + arm.2.size)) ↔
      ¬(payloadStart discriminator arms ≤ byte ∧
        byte < payloadStart discriminator arms + largestArm arms) := by
    obtain ⟨⟨arm, harm, hlargest⟩, hmost⟩ := isGreatest_max? hne (fun arm => arm.2.size) 0
    have hlargest : arm.2.size = largestArm arms := hlargest
    constructor
    · intro h
      rw [← hlargest]
      exact h arm harm
    · intro h other hother
      have hle : other.2.size ≤ largestArm arms := hmost ⟨other, hother, rfl⟩
      omega
  rw [padding_union, free_of_fields_iff, harm]
  simp only [List.mem_append, or_and_right, exists_or, contains_gap_iff]
  omega

/-- A union lies in memory as the struct of its discriminator and its arms laid over each other:
    with the same size and alignment, and the arms where the second member of the struct begins. All
    arms begin there, behind the discriminator and on a boundary of their own, and end inside of the
    union. What is recorded as gaps are the bytes between the discriminator and the arms and those
    behind the largest arm, as far as there are any, which are the bytes that no field takes. -/
theorem union_as_tagged_struct (discriminator : String × Extent) (arms : List (String × Extent))
    (hne : arms ≠ []) (hdisc : IsPowerOfTwo discriminator.2.alignment)
    (harms : ∀ arm ∈ arms, IsPowerOfTwo arm.2.alignment) :
    let layout := NativeLayout.union discriminator arms
    ∃ payload largest inner, layout.payloadOffset = some payload ∧
      IsOverlay (arms.map Prod.snd) largest inner ∧
      (∀ name, let tagged := NativeLayout.struct [discriminator, (name, inner)]
        tagged.extent = layout.extent ∧ tagged.fields.map FieldLayout.offset = [0, payload]) ∧
      layout.parts = discriminator :: arms ∧
      layout.fields.map FieldLayout.offset = 0 :: arms.map (fun _ => payload) ∧
      (∀ arm ∈ arms, arm.2.alignment ∣ payload ∧ discriminator.2.size ≤ payload ∧
        payload + arm.2.size ≤ layout.size) ∧
      layout.padding.map Gap.stretch =
        ([⟨discriminator.2.size, payload - discriminator.2.size⟩,
          ⟨payload + largest, layout.size - (payload + largest)⟩] : List Stretch).filter
            (fun s => 0 < s.size) ∧
      ∀ byte, (∃ g ∈ layout.padding, g.stretch.Contains byte) ↔
        byte < layout.size ∧ ∀ f ∈ layout.fields, ¬f.stretch.Contains byte := by
  intro layout
  have hinner := isPowerOfTwo_overlay hne harms
  have hoverlay := isOverlay_overlay hne harms
  refine ⟨payloadStart discriminator arms, largestArm arms, overlay arms, rfl, hoverlay, ?tagged,
    parts_union discriminator arms, ?offsets, ?arms, ?gaps,
    contains_padding_union_iff hne hdisc harms⟩
  case tagged =>
    intro name
    exact ⟨extent_tagged name hne hdisc harms, offsets_tagged discriminator name arms⟩
  case offsets =>
    simp only [layout, union, List.map_cons, List.map_map]
    rfl
  case arms =>
    intro arm harm
    have hmem : arm.2 ∈ arms.map Prod.snd := List.mem_map_of_mem harm
    have hle : arm.2.alignment ≤ (overlay arms).alignment :=
      hoverlay.isStrictest.2 ⟨arm.2, hmem, rfl⟩
    have hsize : arm.2.size ≤ largestArm arms := hoverlay.isLargest.2 ⟨arm.2, hmem, rfl⟩
    obtain ⟨hdvd, hbehind⟩ := (isLeastMultiple_alignUp hinner discriminator.2.size).1
    have hstop := end_le_size_union hne hdisc harms
    refine ⟨((harms arm harm).dvd_of_le hinner hle).trans hdvd, hbehind, ?_⟩
    exact (Nat.add_le_add_left hsize _).trans hstop
  case gaps =>
    simp only [layout, padding_union, List.map_append, map_stretch_gap, ← List.filter_append]
    rfl

/-- Arms of twelve bytes at most, which alone are rounded up to sixteen: together with the
    discriminator they take twenty-four bytes either way. -/
theorem union_as_tagged_struct_shape :
    let kind : String × Extent := ("kind", ⟨2, 2⟩)
    let arms : List (String × Extent) := [("code", ⟨5, 1⟩), ("wide", ⟨12, 4⟩), ("big", ⟨8, 8⟩)]
    arms ≠ [] ∧ IsPowerOfTwo kind.2.alignment ∧ (∀ arm ∈ arms, IsPowerOfTwo arm.2.alignment) ∧
      ∃ inner, IsOverlay (arms.map Prod.snd) 12 inner ∧ inner = ⟨16, 8⟩ ∧
        (NativeLayout.struct [kind, ("arms", inner)]).extent = ⟨24, 8⟩ ∧
        (NativeLayout.union kind arms).extent = ⟨24, 8⟩ ∧
        (NativeLayout.union kind arms).padding.map Gap.stretch = [⟨2, 6⟩, ⟨20, 4⟩] := by
  intro kind arms
  have hne : arms ≠ [] := List.cons_ne_nil _ _
  have hkind : IsPowerOfTwo kind.2.alignment := ⟨1, rfl⟩
  have harms : ∀ arm ∈ arms, IsPowerOfTwo arm.2.alignment := by
    simp only [arms, List.forall_mem_cons, List.not_mem_nil, false_implies, implies_true, and_true]
    exact ⟨⟨0, rfl⟩, ⟨2, rfl⟩, ⟨3, rfl⟩⟩
  obtain ⟨payload, largest, inner, hpayload, hoverlay, htagged, -⟩ :=
    union_as_tagged_struct kind arms hne hkind harms
  have hextent : (NativeLayout.union kind arms).extent = ⟨24, 8⟩ := by decide
  have hwhole : IsOverlay (arms.map Prod.snd) 12 ⟨16, 8⟩ := by
    have h := isOverlay_overlay hne harms
    rwa [show largestArm arms = 12 by decide, show overlay arms = ⟨16, 8⟩ by decide] at h
  have hlargest : largest = 12 := hoverlay.isLargest.unique hwhole.isLargest
  have halignment : inner.alignment = 8 := hoverlay.isStrictest.unique hwhole.isStrictest
  subst hlargest
  have hinner : inner = ⟨16, 8⟩ := by
    obtain ⟨size, alignment⟩ := inner
    cases halignment
    exact congrArg (Extent.mk · 8) (hoverlay.isRounded.unique hwhole.isRounded)
  exact ⟨hne, hkind, harms, inner, hoverlay, hinner, (htagged "arms").1.trans hextent, hextent,
    by decide⟩

end NativeLayout

end Cdr
