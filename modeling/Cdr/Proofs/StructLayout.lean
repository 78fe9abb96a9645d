import Cdr.Proofs.StoredLayouts
import Mathlib

/-! # How a struct fills its memory

The fields of a struct lie in the order of their declaration, each at the first boundary behind the
one before it. They and the gaps between them take every byte of the struct exactly once: whatever a
boundary skips is recorded as a gap, before a field as well as behind the last one.
-/

namespace Cdr

/-- That a number is the least multiple of `alignment` not below `position`. -/
def IsLeastMultiple (alignment position : Nat) : Nat → Prop :=
  IsLeast {multiple | alignment ∣ multiple ∧ position ≤ multiple}

def IsPowerOfTwo (a : Nat) : Prop :=
  ∃ exponent, a = 2 ^ exponent

theorem IsPowerOfTwo.pos {a : Nat} (h : IsPowerOfTwo a) : 0 < a := by
  obtain ⟨exponent, rfl⟩ := h
  exact Nat.two_pow_pos exponent

/-- Rounding up by the bits below a power of two gives the least multiple. -/
theorem isLeastMultiple_alignUp {a : Nat} (h : IsPowerOfTwo a) (position : Nat) :
    IsLeastMultiple a position (alignUp position a) := by
  have hpos := h.pos
  obtain ⟨exponent, rfl⟩ := h
  have hvalue := alignUp_two_pow position exponent
  have hdvd := dvd_alignUp position exponent
  rw [Nat.one_shiftLeft] at hvalue hdvd
  have hlt : (position + (2 ^ exponent - 1)) % 2 ^ exponent < 2 ^ exponent := Nat.mod_lt _ hpos
  refine ⟨⟨hdvd, by omega⟩, ?_⟩
  rintro multiple ⟨hmultiple, hle⟩
  -- Two multiples that are less than the alignment apart are the same.
  have hnear : alignUp position (2 ^ exponent) - multiple < 2 ^ exponent := by omega
  have hzero := Nat.eq_zero_of_dvd_of_lt (Nat.dvd_sub hdvd hmultiple) hnear
  omega

theorem le_alignUp {a : Nat} (h : IsPowerOfTwo a) (position : Nat) :
    position ≤ alignUp position a :=
  (isLeastMultiple_alignUp h position).1.2

/-! ## Stretches of bytes -/

/-- Bytes that lie one behind the other. -/
structure Stretch where
  offset : Nat
  size : Nat
  deriving DecidableEq, Repr

namespace Stretch

def Contains (s : Stretch) (byte : Nat) : Prop :=
  s.offset ≤ byte ∧ byte < s.offset + s.size

instance (s : Stretch) (byte : Nat) : Decidable (s.Contains byte) :=
  inferInstanceAs (Decidable (_ ∧ _))

/-- That stretches lie one behind the other, from the start of the first to the end of the last. -/
def Consecutive : Nat → List Stretch → Nat → Prop
  | start, [], stop => start = stop
  | start, s :: rest, stop => s.offset = start ∧ Consecutive (start + s.size) rest stop

variable {start middle stop : Nat} {front back row : List Stretch}

theorem consecutive_append (hfront : Consecutive start front middle)
    (hback : Consecutive middle back stop) : Consecutive start (front ++ back) stop := by
  induction front generalizing start with
  | nil =>
    cases hfront
    exact hback
  | cons s rest ih => exact ⟨hfront.1, ih hfront.2⟩

theorem sum_size (h : Consecutive start row stop) :
    start + (row.map size).sum = stop := by
  induction row generalizing start with
  | nil => exact h
  | cons s rest ih =>
    rw [List.map_cons, List.sum_cons, ← Nat.add_assoc]
    exact ih h.2

/-- Consecutive stretches hold every byte between their ends once, and no other. -/
theorem countP_contains (h : Consecutive start row stop) (byte : Nat) :
    row.countP (fun s => s.Contains byte) = if start ≤ byte ∧ byte < stop then 1 else 0 := by
  induction row generalizing start with
  | nil =>
    cases h
    rw [List.countP_nil, if_neg]
    omega
  | cons s rest ih =>
    obtain ⟨rfl, hrest⟩ := h
    have hle : s.offset + s.size ≤ stop := by
      rw [← sum_size hrest]
      exact Nat.le_add_right _ _
    have hcontains : s.Contains byte ↔ s.offset ≤ byte ∧ byte < s.offset + s.size := Iff.rfl
    rw [List.countP_cons, ih hrest]
    simp only [decide_eq_true_eq, hcontains]
    split <;> split <;> split <;> omega

end Stretch

open Stretch

def FieldLayout.stretch (f : FieldLayout) : Stretch := ⟨f.offset, f.size⟩

def Gap.stretch (g : Gap) : Stretch := ⟨g.offset, g.size⟩

namespace NativeLayout

/-- What the fields take up and what lies between them. -/
def stretches (layout : NativeLayout) : List Stretch :=
  layout.fields.map FieldLayout.stretch ++ layout.padding.map Gap.stretch

/-- That each field lies at the least multiple of its alignment not below the end of the one before
    it, the first one behind `cursor`, and that the last one ends at `stop`. -/
def Placed : Nat → List FieldLayout → Nat → Prop
  | cursor, [], stop => cursor = stop
  | cursor, f :: rest, stop =>
    IsLeastMultiple f.alignment cursor f.offset ∧ Placed (f.offset + f.size) rest stop

theorem consecutive_gap {start stop : Nat} (h : start ≤ stop) :
    Consecutive start ((gap start stop).map Gap.stretch) stop := by
  unfold gap
  split
  · exact ⟨rfl, Nat.add_sub_of_le h⟩
  · exact Nat.le_antisymm h (by omega)

variable {members : List (String × Extent)}

theorem placed_place (h : ∀ m ∈ members, IsPowerOfTwo m.2.alignment) (cursor : Nat) :
    Placed cursor (place cursor members).1 (place cursor members).2.2 := by
  induction members generalizing cursor with
  | nil => rfl
  | cons m rest ih =>
    obtain ⟨hm, hrest⟩ := List.forall_mem_cons.1 h
    exact ⟨isLeastMultiple_alignUp hm cursor, ih hrest _⟩

/-- What a step places, the gap and the field behind it, goes in front of what the others place. -/
theorem consecutive_place (h : ∀ m ∈ members, IsPowerOfTwo m.2.alignment) (cursor : Nat) :
    ∃ row : List Stretch,
      row.Perm ((place cursor members).1.map FieldLayout.stretch ++
        (place cursor members).2.1.map Gap.stretch) ∧
      Consecutive cursor row (place cursor members).2.2 := by
  induction members generalizing cursor with
  | nil => exact ⟨[], .nil, rfl⟩
  | cons m rest ih =>
    obtain ⟨hm, hrest⟩ := List.forall_mem_cons.1 h
    let offset := alignUp cursor m.2.alignment
    let before := (gap cursor offset).map Gap.stretch
    obtain ⟨row, hperm, hrow⟩ := ih hrest (offset + m.2.size)
    refine ⟨before ++ ⟨offset, m.2.size⟩ :: row, ?_, ?_⟩
    · simp only [place, List.map_cons, List.map_append, List.cons_append]
      refine List.perm_middle.trans (.cons _ ?_)
      exact (hperm.append_left before).trans (List.perm_append_comm_assoc _ _ _)
    · exact consecutive_append (consecutive_gap (le_alignUp hm cursor)) ⟨rfl, hrow⟩

theorem isPowerOfTwo_alignment (h : ∀ m ∈ members, IsPowerOfTwo m.2.alignment) :
    IsPowerOfTwo (NativeLayout.struct members).alignment := by
  have hfold : IsPowerOfTwo (members.foldl (fun a m => max a m.2.alignment) 1) := by
    apply List.foldlRecOn (motive := IsPowerOfTwo)
    · exact ⟨0, rfl⟩
    · intro a ha m hm
      exact max_rec' IsPowerOfTwo ha (h m hm)
  exact hfold

theorem alignment_struct (h : ∀ m ∈ members, IsPowerOfTwo m.2.alignment) :
    (NativeLayout.struct members).alignment =
      (members.map fun m => m.2.alignment).max?.getD 1 := by
  cases members with
  | nil => rfl
  | cons m rest =>
    have hm : max 1 m.2.alignment = m.2.alignment := Nat.max_eq_right (h m List.mem_cons_self).pos
    rw [List.map_cons, List.max?_cons', Option.getD_some, List.foldl_map]
    simp only [NativeLayout.struct, List.foldl_cons, hm]

/-- The gap behind the last field fills the struct up to its size. -/
theorem consecutive_struct (h : ∀ m ∈ members, IsPowerOfTwo m.2.alignment) :
    ∃ row : List Stretch, row.Perm (NativeLayout.struct members).stretches ∧
      Consecutive 0 row (NativeLayout.struct members).size := by
  obtain ⟨row, hperm, hrow⟩ := consecutive_place h 0
  let stop := (place 0 members).2.2
  have hstop : stop ≤ (NativeLayout.struct members).size :=
    le_alignUp (isPowerOfTwo_alignment h) stop
  refine ⟨row ++ (gap stop (NativeLayout.struct members).size).map Gap.stretch, ?_, ?_⟩
  · unfold NativeLayout.stretches
    rw [show (NativeLayout.struct members).padding =
      (place 0 members).2.1 ++ gap stop (NativeLayout.struct members).size from rfl,
      List.map_append, ← List.append_assoc]
    exact hperm.append_right _
  · exact consecutive_append hrow (consecutive_gap hstop)

/-- The fields of a struct keep their order, each lies at the first boundary behind the one before
    it, and the struct ends at the first of its own boundaries behind the last one. In the order in
    which they lie in memory, the fields and the gaps follow each other without a hole from the
    first byte to the last, so that every byte belongs to one of them only. -/
theorem struct_fills_memory (members : List (String × Extent))
    (h : ∀ m ∈ members, IsPowerOfTwo m.2.alignment) :
    let layout := NativeLayout.struct members
    layout.parts = members ∧
      layout.alignment = (members.map fun m => m.2.alignment).max?.getD 1 ∧
      (∃ stop, Placed 0 layout.fields stop ∧
        IsLeastMultiple layout.alignment stop layout.size) ∧
      (∃ row : List Stretch, row.Perm layout.stretches ∧ Consecutive 0 row layout.size) ∧
      (∀ byte, layout.stretches.countP (fun s => s.Contains byte) =
        if byte < layout.size then 1 else 0) ∧
      (layout.fields.map FieldLayout.size).sum + (layout.padding.map Gap.size).sum =
        layout.size := by
  intro layout
  obtain ⟨row, hperm, hrow⟩ := consecutive_struct h
  refine ⟨parts_struct members, alignment_struct h, ?placed, ⟨row, hperm, hrow⟩, ?bytes,
    ?sizes⟩
  case placed =>
    exact ⟨_, placed_place h 0, isLeastMultiple_alignUp (isPowerOfTwo_alignment h) _⟩
  case bytes =>
    intro byte
    rw [← hperm.countP_eq, countP_contains hrow]
    simp only [Nat.zero_le, true_and, layout]
  case sizes =>
    have hsum : (layout.stretches.map Stretch.size).sum = layout.size := by
      rw [← (hperm.map Stretch.size).sum_nat, ← sum_size hrow, Nat.zero_add]
    rw [← hsum, NativeLayout.stretches, List.map_append, List.sum_append, List.map_map,
      List.map_map]
    rfl

/-- A member without bytes still moves those behind it to its boundary. -/
theorem struct_fills_memory_sample :
    let members : List (String × Extent) :=
      [("flag", ⟨1, 1⟩), ("none", ⟨0, 4⟩), ("small", ⟨2, 2⟩), ("large", ⟨8, 8⟩), ("last", ⟨1, 1⟩)]
    (∀ m ∈ members, IsPowerOfTwo m.2.alignment) ∧
      (NativeLayout.struct members).stretches =
        [⟨0, 1⟩, ⟨4, 0⟩, ⟨4, 2⟩, ⟨8, 8⟩, ⟨16, 1⟩, ⟨1, 3⟩, ⟨6, 2⟩, ⟨17, 7⟩] ∧
      ∃ row : List Stretch, row.Perm (NativeLayout.struct members).stretches ∧
        Consecutive 0 row 24 := by
  intro members
  have hpowers : ∀ m ∈ members, IsPowerOfTwo m.2.alignment := by
    simp only [members, List.forall_mem_cons, List.not_mem_nil, false_implies, implies_true,
      and_true]
    exact ⟨⟨0, rfl⟩, ⟨2, rfl⟩, ⟨1, rfl⟩, ⟨3, rfl⟩, ⟨0, rfl⟩⟩
  have hsize : (NativeLayout.struct members).size = 24 := by decide
  obtain ⟨-, -, -, ⟨row, hperm, hrow⟩, -⟩ := struct_fills_memory members hpowers
  rw [hsize] at hrow
  exact ⟨hpowers, by decide, row, hperm, hrow⟩

end NativeLayout

end Cdr
