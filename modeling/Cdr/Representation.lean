/-! # Data representations

The two encodings of a payload, and the three extensibility kinds of a type, which decide whether
a body is framed by its length.
-/

namespace Cdr

/-- How far a type may change without breaking its readers. -/
inductive Extensibility where
  | final
  | appendable
  | mutable
  deriving DecidableEq, Repr, Inhabited

/-- The data representation a payload is encoded with. -/
inductive Representation where
  /-- Scalars align to their width and no body is framed. -/
  | xcdr1
  /-- Alignment ends at four bytes, and the bodies of appendable and mutable types stand behind
      their length. -/
  | xcdr2
  deriving DecidableEq, Repr

namespace Representation

/-- The representation of a payload when none is asked for. -/
def standard : Representation := xcdr2

/-- The widest boundary a scalar is padded to. -/
def maxAlignment : Representation → Nat
  | xcdr1 => 8
  | xcdr2 => 4

/-- Whether the body of a type stands behind its length. -/
def isDelimited (repr : Representation) (extensibility : Extensibility) : Bool :=
  repr == xcdr2 && extensibility != .final

/-- The boundary a scalar of `width` bytes is padded to. -/
def alignmentOf (repr : Representation) (width : Nat) : Nat :=
  min (max 1 width) repr.maxAlignment

theorem isDelimited_iff (repr : Representation) (extensibility : Extensibility) :
    repr.isDelimited extensibility ↔ repr = xcdr2 ∧ extensibility ≠ .final := by
  simp [isDelimited]

theorem alignmentOf_le (repr : Representation) (width : Nat) :
    repr.alignmentOf width ≤ repr.maxAlignment :=
  Nat.min_le_right _ _

end Representation

end Cdr
