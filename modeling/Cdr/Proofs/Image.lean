import Cdr.Wire.Writer

/-! # Images

The bytes of a value, found by recursion over its type: the length of a framed body and the header
of an optional member are put in front of what is behind them once that is known, and no byte is
ever replaced. What an image is asked for is the position of its first byte, counted from the
alignment origin.
-/

namespace Cdr

/-- The first thing, in the order of the bytes, for which a value has no image. -/
inductive Obstacle where
  /-- A fault of the value that sizing finds as well. -/
  | refused (fault : WireError)
  /-- A character outside of ASCII. -/
  | wideChar (c : Char)
  /-- The count of a sequence, or the bytes of a string with its terminator. -/
  | longCount (n : Nat)
  /-- The length of a framed body. -/
  | longBody (length : Nat)
  /-- The length of the value of an optional member. -/
  | longOptional (length : Nat)
  deriving DecidableEq, Repr

namespace Obstacle

/-- The error of a writer that meets the obstacle. -/
def error : Obstacle → WireError
  | refused fault => fault
  | wideChar c => .wideChar c
  | longCount _ => .outOfRange
  | longBody _ => .outOfRange
  | longOptional _ => .outOfRange

/-- Obstacles that only a writer minds, as they are no fault of sizes: a character that is no byte
    of ASCII, and a length that does not fit where it is to be written. -/
def OnlyWritten : Obstacle → Prop
  | refused _ => False
  | wideChar c => 0x80 ≤ c.toNat
  | longCount n => 0x100000000 ≤ n
  | longBody length => 0x100000000 ≤ length
  | longOptional length => 0x20000000 ≤ length

end Obstacle

/-- The bytes that stand at a position. -/
abbrev Image := Nat → Except Obstacle (List UInt8)

namespace Image

def bytes (b : List UInt8) : Image := fun _ => .ok b

def fail (obstacle : Obstacle) : Image := fun _ => .error obstacle

/-- The zeros up to the next boundary. -/
def zeros (alignment : Nat) : Image := fun position =>
  .ok (List.replicate (padding position alignment) 0)

/-- One image behind another. -/
def andThen (first second : Image) : Image := fun position => do
  let a ← first position
  let b ← second (position + a.length)
  return a ++ b

/-- The images of the members of a list, one behind the other. -/
def each {α : Type} (f : α → Image) : List α → Image
  | [] => bytes []
  | x :: xs => (f x).andThen (each f xs)

/-- An image that is there only when a check passes. -/
def checked (check : Except WireError Unit) (image : Image) : Image :=
  match check with
  | .ok () => image
  | .error fault => fail (.refused fault)

/-- Four bytes, on a boundary of four, that tell of the image behind them by its length. The length
    has to be below `limit`. -/
def headed (e : Encoding) (limit : Nat) (header : Nat → Nat) (tooLong : Nat → Obstacle)
    (body : Image) : Image := fun position => do
  let gap := padding position 4
  let b ← body (position + gap + 4)
  if b.length < limit then return List.replicate gap 0 ++ (e.wordBytes (header b.length) ++ b)
  else .error (tooLong b.length)

end Image

open Image

namespace Encoding

/-- A count or a length, on its boundary. -/
def wordImage (e : Encoding) (n : Nat) : Image :=
  (zeros 4).andThen (bytes (e.wordBytes n))

def countImage (e : Encoding) (n : Nat) : Image :=
  if n < 0x100000000 then e.wordImage n else fail (.longCount n)

/-- A scalar of the given type, on its boundary. -/
def scalarImage (e : Encoding) (field : String) (p : Primitive) : Value → Image
  | .scalar s =>
    if s.primitive = p then
      match s.wideChar? with
      | some c => fail (.wideChar c)
      | none => (zeros (e.alignmentOf p)).andThen (bytes (e.scalarBytes s))
    else fail (.refused (.mismatch field p.idlName s.primitive.idlName))
  | v => fail (.refused (.mismatch field p.idlName v.kindName))

/-- The scalars of a run, with nothing between them. -/
def runImage (e : Encoding) (field : String) (p : Primitive) : List Value → Image
  | [] => bytes []
  | .scalar s :: vs =>
    if s.primitive = p then (bytes (e.scalarBytes s)).andThen (e.runImage field p vs)
    else fail (.refused (.mismatch field p.idlName s.primitive.idlName))
  | v :: _ => fail (.refused (.mismatch field p.idlName v.kindName))

/-- Elements: a run as one block, all others one by one. -/
def elementsImage (e : Encoding) (ofItem : Value → Image) (field : String)
    (run : Option Primitive) (items : List Value) : Image :=
  match run with
  | some p =>
    if items.isEmpty then bytes []
    else (zeros (e.alignmentOf p)).andThen (e.runImage field p items)
  | none => each ofItem items

/-- A body, behind its length when the type is framed. -/
def delimitedImage (e : Encoding) (extensibility : Extensibility) (body : Image) : Image :=
  if e.repr.isDelimited extensibility then
    headed e 0x100000000 (fun length => length) .longBody body
  else body

/-- The value of an optional member behind its header, which holds the length of the value and the
    lowest three bits of the member id. -/
def optionalImage (e : Encoding) (id : UInt32) (value : Image) : Image :=
  headed e 0x20000000 (fun length => length <<< 3 ||| id.toNat &&& 7) .longOptional value

end Encoding

section

variable (schema : Schema) (e : Encoding) (ofType : String → Fin schema.size → Value → Image)

/-- The image of the value of a member, where `ofType` gives those of declared types. -/
def valueImage (field : String) : MemberType schema.size → Value → Image
  | .primitive p, v => e.scalarImage field p v
  | .string bound, .string text =>
    checked (checkBound field text.utf8ByteSize bound) <|
      (e.countImage (text.utf8ByteSize + 1)).andThen (bytes (Text.utf8 text ++ [0]))
  | .fixedString capacity, .string text =>
    checked (checkCapacity field text.utf8ByteSize capacity) <|
      bytes (Text.utf8 text ++ List.replicate (capacity.toNat - text.utf8ByteSize) 0)
  | .sequence element bound, .sequence items =>
    checked (checkBound field items.length bound) <|
      (e.countImage items.length).andThen
        (e.elementsImage (valueImage field element) field element.blittable? items)
  | .array element length, .sequence items =>
    checked (checkLength field items.length length) <|
      e.elementsImage (valueImage field element) field element.blittable? items
  | .type i, v => ofType field i v
  | type, v => fail (.refused (.mismatch field (schema.describe type) v.kindName))

/-- The image of a member of a struct. -/
def memberImage (typeName : String) (fields : Entries Value) (m : Member schema.size) : Image :=
  match fields.get? m.name with
  | some v =>
    if m.optional then e.optionalImage m.id (valueImage schema e ofType m.name m.type v)
    else valueImage schema e ofType m.name m.type v
  | none => if m.optional then bytes [] else fail (.refused (.missingField typeName m.name))

/-- The arm that goes with a discriminator, if one does. -/
def armImage : Option (Member schema.size × Value) → Image
  | some (m, v) => valueImage schema e ofType m.name m.type v
  | none => bytes []

/-- The image of a union: its discriminator, then the arm that goes with it. -/
def unionImage (u : UnionType schema.size) (d : Int64) (arm : Option (String × Value)) : Image :=
  match discriminatorValue u.discriminator d with
  | .error fault => fail (.refused fault)
  | .ok disc =>
    (valueImage schema e ofType u.discriminator.name u.discriminator.type disc).andThen <|
      match activeArm schema u d arm with
      | .error fault => fail (.refused fault)
      | .ok active => armImage schema e ofType active

end

/-- What stands behind a discriminator: nothing where it selects no arm, and else the selected arm
    with the value that there is or with its default. -/
inductive ActiveArm (schema : Schema) (u : UnionType schema.size) (d : Int64) :
    Option (String × Value) → Option (Member schema.size × Value) → Prop where
  | unselected (select : u.select d = none) : ActiveArm schema u d none none
  | missing {selected : UnionArm schema.size} (select : u.select d = some selected) :
    ActiveArm schema u d none (some (selected.member, schema.default selected.member.type))
  | present {selected : UnionArm schema.size} {v : Value} (select : u.select d = some selected) :
    ActiveArm schema u d (some (selected.member.name, v)) (some (selected.member, v))

theorem activeArm_eq_ok {schema : Schema} {u : UnionType schema.size} {d : Int64}
    {arm : Option (String × Value)} {active : Option (Member schema.size × Value)}
    (h : activeArm schema u d arm = .ok active) : ActiveArm schema u d arm active := by
  unfold activeArm at h
  split at h
  next selected name v hselect =>
    split at h
    next hname =>
      cases h
      rw [hname]
      exact .present hselect
    next => cases h
  next selected hselect =>
    cases h
    exact .missing hselect
  next => cases h
  next hselect =>
    cases h
    exact .unselected hselect

/-- The image of a value of a declared type that may be `levels` types deep. -/
def typeImage (schema : Schema) (e : Encoding) : Nat → String → Fin schema.size → Value → Image
  | 0, field, _, _ => fail (.refused (.depthExceeded field))
  | levels + 1, field, i, v =>
    let t := schema.get i
    match t.body, v with
    | .struct s, .struct fields =>
      e.delimitedImage t.extensibility <|
        each (memberImage schema e (typeImage schema e levels) t.full fields) s.wireMembers
    | .union u, .union d arm =>
      e.delimitedImage t.extensibility (unionImage schema e (typeImage schema e levels) u d arm)
    | .enumeration _, .enumeration n => e.scalarImage field .int32 (.scalar (.int32 n))
    | _, v => fail (.refused (.mismatch field t.full v.kindName))

namespace Schema

/-- The image of the body of a payload. -/
def image (schema : Schema) (e : Encoding) (i : Fin schema.size) (v : Value) : Image :=
  typeImage schema e maxDepth "" i v

end Schema

end Cdr
