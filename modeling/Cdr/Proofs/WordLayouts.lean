import Cdr.Proofs.PaddedPositions
import Cdr.Proofs.UnionLayout
import Mathlib

/-! # Layouts on machine words

Layouts are sums of sizes that are rounded up, which a machine adds and rounds on words. All that is
met on the way to the size of a layout is not above it: the end of each field, the bytes that are
skipped behind it and the bits that rounding adds before it clears them. So where the size fits into
a word, no sum overflows, and the layout on words is the one on numbers.
-/

namespace Cdr.Word

open NativeLayout

/-- The size and the alignment of one value in memory, as a machine has them. -/
structure Extent where
  size : UInt64
  alignment : UInt64
  deriving DecidableEq, Repr

namespace Extent

def toNat (e : Extent) : Cdr.Extent := ⟨e.size.toNat, e.alignment.toNat⟩

def array (element : Extent) (length : UInt32) : Extent :=
  ⟨element.size * length.toUInt64, element.alignment⟩

end Extent

/-- The members of a struct or the arms of a union, read as numbers. -/
def numbers (parts : List (String × Extent)) : List (String × Cdr.Extent) :=
  parts.map fun part => (part.1, part.2.toNat)

def gap (start stop : UInt64) : List Gap :=
  if start < stop then [⟨start.toNat, (stop - start).toNat⟩] else []

/-- Puts fields one behind the other from `cursor` on. -/
def place : UInt64 → List (String × Extent) → List FieldLayout × List Gap × UInt64
  | cursor, [] => ([], [], cursor)
  | cursor, (name, e) :: rest =>
    let offset := alignUp cursor e.alignment
    let (fields, gaps, stop) := place (offset + e.size) rest
    (⟨name, offset.toNat, e.size.toNat, e.alignment.toNat⟩ :: fields, gap cursor offset ++ gaps,
      stop)

/-- The layout of a struct that a machine computes, read as numbers. -/
def struct (members : List (String × Extent)) : NativeLayout :=
  let (fields, gaps, stop) := place 0 members
  let alignment := members.foldl (fun a m => max a m.2.alignment) 1
  let size := alignUp stop alignment
  ⟨size.toNat, alignment.toNat, fields, gaps ++ gap stop size, none⟩

/-- The alignment of the strictest arm. -/
def armAlignment (arms : List (String × Extent)) : UInt64 :=
  (arms.map fun arm => arm.2.alignment).max?.getD 1

def largestArm (arms : List (String × Extent)) : UInt64 :=
  (arms.map fun arm => arm.2.size).max?.getD 0

/-- The layout of a union that a machine computes, read as numbers. -/
def union (discriminator : String × Extent) (arms : List (String × Extent)) : NativeLayout :=
  let disc := discriminator.2
  let payload := alignUp disc.size (armAlignment arms)
  let stop := payload + largestArm arms
  let alignment := max disc.alignment (armAlignment arms)
  let size := alignUp stop alignment
  { size := size.toNat, alignment := alignment.toNat,
    fields := ⟨discriminator.1, 0, disc.size.toNat, disc.alignment.toNat⟩ ::
      arms.map fun arm => ⟨arm.1, payload.toNat, arm.2.size.toNat, arm.2.alignment.toNat⟩,
    padding := gap disc.size payload ++ gap stop size,
    payloadOffset := some payload.toNat }

/-! ## Words as numbers -/

theorem toNat_max (a b : UInt64) : (max a b).toNat = max a.toNat b.toNat := by
  change (if a ≤ b then b else a).toNat = _
  rw [Nat.max_def]
  simp only [UInt64.le_iff_toNat_le]
  split <;> rfl

theorem toNat_foldl_max {α : Type} (f : α → UInt64) (xs : List α) (start : UInt64) :
    (xs.foldl (fun a x => max a (f x)) start).toNat =
      xs.foldl (fun a x => max a (f x).toNat) start.toNat := by
  induction xs generalizing start with
  | nil => rfl
  | cons x rest ih => rw [List.foldl_cons, List.foldl_cons, ih, toNat_max]

theorem toNat_max? {α : Type} (f : α → UInt64) (xs : List α) (other : UInt64) :
    ((xs.map f).max?.getD other).toNat = (xs.map fun x => (f x).toNat).max?.getD other.toNat := by
  cases xs with
  | nil => rfl
  | cons x rest =>
    simp only [List.map_cons, List.max?_cons', Option.getD_some, List.foldl_map]
    exact toNat_foldl_max f rest (f x)

theorem gap_eq (start stop : UInt64) :
    gap start stop = NativeLayout.gap start.toNat stop.toNat := by
  unfold gap NativeLayout.gap
  by_cases h : start < stop
  · rw [if_pos h, if_pos (UInt64.lt_iff_toNat_lt.1 h),
      UInt64.toNat_sub_of_le _ _ (UInt64.le_of_lt h)]
  · rw [if_neg h, if_neg (UInt64.lt_iff_toNat_lt.not.1 h)]

theorem toNat_add {a b : UInt64} (h : a.toNat + b.toNat < 2 ^ 64) :
    (a + b).toNat = a.toNat + b.toNat := by
  rw [UInt64.toNat_add, Nat.mod_eq_of_lt h]

/-- A position that is rounded up to what fits into a word is rounded without overflow, since the
    next multiple is 2 to the 64th at most. -/
theorem toNat_alignUp_of_fits {position alignment : UInt64} (h : IsPowerOfTwo alignment.toNat)
    (hfits : Cdr.alignUp position.toNat alignment.toNat < 2 ^ 64) :
    (alignUp position alignment).toNat = Cdr.alignUp position.toNat alignment.toNat := by
  apply toNat_alignUp h.pos
  obtain ⟨⟨hdvd, hle⟩, -⟩ := isLeastMultiple_alignUp h position.toNat
  have hwhole : alignment.toNat ∣ 2 ^ 64 :=
    h.dvd_of_le ⟨64, rfl⟩ (Nat.le_of_lt alignment.toNat_lt)
  have hnext : alignment.toNat ≤ 2 ^ 64 - Cdr.alignUp position.toNat alignment.toNat :=
    Nat.le_of_dvd (Nat.sub_pos_of_lt hfits) (Nat.dvd_sub hwhole hdvd)
  have hpos := h.pos
  omega

/-! ## Structs and unions -/

theorem array_of_fits {element : Extent} {length : UInt32}
    (hfits : (Cdr.Extent.array element.toNat length.toNat).size < 2 ^ 64) :
    (element.array length).toNat = Cdr.Extent.array element.toNat length.toNat := by
  simp only [Extent.array, Extent.toNat, Cdr.Extent.array] at hfits ⊢
  rw [UInt64.toNat_mul, UInt32.toNat_toUInt64, Nat.mod_eq_of_lt hfits]

theorem le_stop {parts : List (String × Cdr.Extent)} (h : ∀ m ∈ parts, IsPowerOfTwo m.2.alignment)
    (cursor : Nat) : cursor ≤ (NativeLayout.place cursor parts).2.2 := by
  obtain ⟨row, -, hrow⟩ := consecutive_place h cursor
  rw [← Stretch.sum_size hrow]
  exact Nat.le_add_right _ _

variable {members : List (String × Extent)}

theorem isPowerOfTwo_numbers (h : ∀ m ∈ members, IsPowerOfTwo m.2.alignment.toNat) :
    ∀ m ∈ numbers members, IsPowerOfTwo m.2.alignment :=
  List.forall_mem_map.2 h

/-- Fields that end within a word are placed on words as they are on numbers. -/
theorem place_of_fits (h : ∀ m ∈ members, IsPowerOfTwo m.2.alignment.toNat) (cursor : UInt64)
    (hfits : (NativeLayout.place cursor.toNat (numbers members)).2.2 < 2 ^ 64) :
    (place cursor members).1 = (NativeLayout.place cursor.toNat (numbers members)).1 ∧
      (place cursor members).2.1 = (NativeLayout.place cursor.toNat (numbers members)).2.1 ∧
      (place cursor members).2.2.toNat =
        (NativeLayout.place cursor.toNat (numbers members)).2.2 := by
  induction members generalizing cursor with
  | nil => exact ⟨rfl, rfl, rfl⟩
  | cons m rest ih =>
    obtain ⟨name, e⟩ := m
    obtain ⟨he, hrest⟩ := List.forall_mem_cons.1 h
    have hstop : Cdr.alignUp cursor.toNat e.alignment.toNat + e.size.toNat ≤
        (NativeLayout.place cursor.toNat (numbers ((name, e) :: rest))).2.2 :=
      le_stop (isPowerOfTwo_numbers hrest) _
    have hoffset : (alignUp cursor e.alignment).toNat =
        Cdr.alignUp cursor.toNat e.alignment.toNat := toNat_alignUp_of_fits he (by omega)
    have hend : (alignUp cursor e.alignment + e.size).toNat =
        Cdr.alignUp cursor.toNat e.alignment.toNat + e.size.toNat := by
      rw [← hoffset]
      exact toNat_add (by omega)
    have hbehind := ih hrest (alignUp cursor e.alignment + e.size)
    rw [hend] at hbehind
    obtain ⟨hfields, hgaps, hlast⟩ := hbehind hfits
    refine ⟨?_, ?_, hlast⟩
    · simp only [place, hfields, hoffset]
      rfl
    · simp only [place, hgaps, gap_eq, hoffset]
      rfl

/-- Where its size fits into a word, the layout of a struct on words is the one on numbers. -/
theorem struct_of_fits (h : ∀ m ∈ members, IsPowerOfTwo m.2.alignment.toNat)
    (hfits : (NativeLayout.struct (numbers members)).size < 2 ^ 64) :
    struct members = NativeLayout.struct (numbers members) := by
  have hpower := isPowerOfTwo_alignment (isPowerOfTwo_numbers h)
  have hstop : (NativeLayout.place 0 (numbers members)).2.2 ≤
      (NativeLayout.struct (numbers members)).size := le_alignUp hpower _
  obtain ⟨hfields, hgaps, hlast⟩ := place_of_fits h 0 (Nat.lt_of_le_of_lt hstop hfits)
  have halignment : (members.foldl (fun a (m : String × Extent) => max a m.2.alignment) 1).toNat =
      (NativeLayout.struct (numbers members)).alignment := by
    rw [toNat_foldl_max]
    simp only [NativeLayout.struct, numbers, List.foldl_map]
    rfl
  have hsize : (alignUp (place 0 members).2.2
      (members.foldl (fun a (m : String × Extent) => max a m.2.alignment) 1)).toNat =
      (NativeLayout.struct (numbers members)).size := by
    rw [toNat_alignUp_of_fits, hlast, halignment]
    · rfl
    · rw [halignment]
      exact hpower
    · rw [hlast, halignment]
      exact hfits
  simp only [struct, hfields, hgaps, hsize, halignment, gap_eq, hlast]
  rfl

/-- Two members of 2 to the 63rd bytes end where a word begins anew. -/
example : (struct [("low", ⟨0x8000000000000000, 1⟩), ("high", ⟨0x8000000000000000, 1⟩)]).size =
    0 := by
  decide

variable {arms : List (String × Extent)}

theorem toNat_armAlignment (arms : List (String × Extent)) :
    (armAlignment arms).toNat = (overlay (numbers arms)).alignment := by
  rw [armAlignment, toNat_max?]
  simp only [overlay, numbers, List.map_map]
  rfl

theorem toNat_largestArm (arms : List (String × Extent)) :
    (largestArm arms).toNat = NativeLayout.largestArm (numbers arms) := by
  rw [largestArm, toNat_max?]
  simp only [NativeLayout.largestArm, numbers, List.map_map]
  rfl

theorem isPowerOfTwo_armAlignment (h : ∀ arm ∈ arms, IsPowerOfTwo arm.2.alignment.toNat) :
    IsPowerOfTwo (armAlignment arms).toNat := by
  rw [toNat_armAlignment]
  by_cases hne : numbers arms = []
  · rw [hne]
    exact ⟨0, rfl⟩
  · exact isPowerOfTwo_overlay hne (isPowerOfTwo_numbers h)

/-- Where its size fits into a word, the layout of a union on words is the one on numbers. -/
theorem union_of_fits {name : String} {disc : Extent} (hdisc : IsPowerOfTwo disc.alignment.toNat)
    (harms : ∀ arm ∈ arms, IsPowerOfTwo arm.2.alignment.toNat)
    (hfits : (NativeLayout.union (name, disc.toNat) (numbers arms)).size < 2 ^ 64) :
    union (name, disc) arms = NativeLayout.union (name, disc.toNat) (numbers arms) := by
  have hinner := isPowerOfTwo_armAlignment harms
  have hwhole : (max disc.alignment (armAlignment arms)).toNat =
      max disc.alignment.toNat (overlay (numbers arms)).alignment := by
    rw [toNat_max, toNat_armAlignment]
  have hpower : IsPowerOfTwo (max disc.alignment (armAlignment arms)).toNat := by
    rw [toNat_max]
    exact max_rec' IsPowerOfTwo hdisc hinner
  let payload := payloadStart (name, disc.toNat) (numbers arms)
  let stop := payload + NativeLayout.largestArm (numbers arms)
  have hround : Cdr.alignUp stop (max disc.alignment (armAlignment arms)).toNat =
      (NativeLayout.union (name, disc.toNat) (numbers arms)).size := by
    rw [size_union, hwhole]
    rfl
  have hstop : stop < 2 ^ 64 := by
    refine Nat.lt_of_le_of_lt ?_ hfits
    rw [← hround]
    exact le_alignUp hpower stop
  have hpayload : (alignUp disc.size (armAlignment arms)).toNat = payload := by
    have hstart : Cdr.alignUp disc.size.toNat (armAlignment arms).toNat = payload := by
      rw [toNat_armAlignment]
      rfl
    rw [toNat_alignUp_of_fits hinner, hstart]
    rw [hstart]
    omega
  have hend : (alignUp disc.size (armAlignment arms) + largestArm arms).toNat = stop := by
    rw [toNat_add, hpayload, toNat_largestArm]
    rw [hpayload, toNat_largestArm]
    exact hstop
  have hsize : (alignUp (alignUp disc.size (armAlignment arms) + largestArm arms)
      (max disc.alignment (armAlignment arms))).toNat =
        (NativeLayout.union (name, disc.toNat) (numbers arms)).size := by
    rw [toNat_alignUp_of_fits hpower, hend, hround]
    rw [hend, hround]
    exact hfits
  have hfields : (numbers arms).map (fun arm =>
      (⟨arm.1, payload, arm.2.size, arm.2.alignment⟩ : FieldLayout)) =
        arms.map fun arm => ⟨arm.1, payload, arm.2.size.toNat, arm.2.alignment.toNat⟩ := by
    rw [numbers, List.map_map]
    rfl
  simp only [union, gap_eq, hsize, hend, hpayload, hwhole]
  rw [← hfields]
  rfl

end Cdr.Word
