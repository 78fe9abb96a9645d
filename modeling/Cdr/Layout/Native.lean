import Cdr.Alignment

/-! # Native layouts

Where the fields of a type lie in memory under the rules of the C language, with pointers of eight
bytes. Strings and optional members are pointers, fixed-size strings lie inline, and a sequence is
a header of two 32-bit counts, a pointer to the elements and a flag.
-/

namespace Cdr

/-- The size and the alignment of one value in memory. -/
structure Extent where
  size : Nat
  alignment : Nat
  deriving DecidableEq, Repr

namespace Extent

def pointer : Extent := ⟨8, 8⟩

/-- The header of a sequence. -/
def sequence : Extent :=
  let buffer := alignUp 8 pointer.alignment
  let release := buffer + pointer.size
  ⟨alignUp (release + 1) pointer.alignment, pointer.alignment⟩

def array (element : Extent) (length : Nat) : Extent :=
  ⟨element.size * length, element.alignment⟩

def enumeration : Extent := ⟨4, 4⟩

theorem sequence_eq : sequence = ⟨24, 8⟩ := rfl

end Extent

structure FieldLayout where
  name : String
  offset : Nat
  size : Nat
  alignment : Nat
  deriving DecidableEq, Repr

/-- Bytes between two fields or behind the last one. -/
structure Gap where
  offset : Nat
  size : Nat
  deriving DecidableEq, Repr

structure NativeLayout where
  size : Nat
  alignment : Nat
  fields : List FieldLayout
  padding : List Gap
  /-- The offset that all arms of a union share. -/
  payloadOffset : Option Nat
  deriving DecidableEq, Repr

namespace NativeLayout

/-- The gap between two offsets, if there is one. -/
def gap (start stop : Nat) : List Gap :=
  if start < stop then [⟨start, stop - start⟩] else []

def extent (layout : NativeLayout) : Extent :=
  ⟨layout.size, layout.alignment⟩

/-- The first field with a name. -/
def field? (layout : NativeLayout) (name : String) : Option FieldLayout :=
  layout.fields.find? fun f => f.name == name

/-- The layout of nothing at all. -/
def empty : NativeLayout := ⟨0, 0, [], [], none⟩

def enumeration : NativeLayout :=
  ⟨Extent.enumeration.size, Extent.enumeration.alignment, [], [], none⟩

/-- Puts fields one behind the other from `cursor` on. The result holds the fields, the gaps before
    them and the end of the last one. -/
def place : Nat → List (String × Extent) → List FieldLayout × List Gap × Nat
  | cursor, [] => ([], [], cursor)
  | cursor, (name, e) :: rest =>
    let offset := alignUp cursor e.alignment
    let (fields, gaps, stop) := place (offset + e.size) rest
    (⟨name, offset, e.size, e.alignment⟩ :: fields, gap cursor offset ++ gaps, stop)

/-- The fields of a struct in the order of their declaration. -/
def struct (members : List (String × Extent)) : NativeLayout :=
  let (fields, gaps, stop) := place 0 members
  let alignment := members.foldl (fun a m => max a m.2.alignment) 1
  let size := alignUp stop alignment
  ⟨size, alignment, fields, gaps ++ gap stop size, none⟩

/-- The discriminator of a union at offset 0 and behind it all arms at one offset. -/
def union (discriminator : String × Extent) (arms : List (String × Extent)) : NativeLayout :=
  let disc := discriminator.2
  let armAlignment := (arms.map fun arm => arm.2.alignment).max?.getD 1
  let armSize := (arms.map fun arm => arm.2.size).max?.getD 0
  let payload := alignUp disc.size armAlignment
  let stop := payload + armSize
  let alignment := max disc.alignment armAlignment
  let size := alignUp stop alignment
  { size, alignment,
    fields := ⟨discriminator.1, 0, disc.size, disc.alignment⟩ ::
      arms.map fun arm => ⟨arm.1, payload, arm.2.size, arm.2.alignment⟩,
    padding := gap disc.size payload ++ gap stop size,
    payloadOffset := some payload }

end NativeLayout

end Cdr
