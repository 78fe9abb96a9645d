import Cdr.Wire.Error

/-! # Sinks

Where bytes are written to. A sink writes at its head and can replace bytes behind it, so that a
length may be written before the body whose length it is.
-/

namespace Cdr

/-- What a sink does at the end of its bytes. -/
inductive SinkKind where
  /-- Every write is at the end. -/
  | appending
  /-- The head moves freely; bytes are added where it passes the end. -/
  | growing
  /-- The head moves freely; no byte is added. -/
  | fixed
  deriving DecidableEq, Repr

structure Sink where
  kind : SinkKind
  bytes : Array UInt8
  /-- The position of the next write, for sinks whose head moves. -/
  position : Nat
  deriving DecidableEq, Repr

/-- The bytes with others put over them from an index on; what reaches behind the end is lost. -/
def overwrite (bytes : Array UInt8) : Nat → List UInt8 → Array UInt8
  | _, [] => bytes
  | start, b :: bs => overwrite (bytes.setIfInBounds start b) (start + 1) bs

namespace Sink

/-- A sink that appends to the given bytes. -/
def appendingTo (bytes : Array UInt8) : Sink := ⟨.appending, bytes, 0⟩

/-- The position of the next write. -/
def head (sink : Sink) : Nat :=
  match sink.kind with
  | .appending => sink.bytes.size
  | _ => sink.position

/-- Moves the head. -/
def seek (sink : Sink) (position : Nat) : Sink :=
  { sink with position }

/-- Writes at the head. A growing sink is filled with zeros up to its head first; a fixed sink
    takes what fits and then fails. -/
def write (sink : Sink) (chunk : List UInt8) : Sink × Option SinkError :=
  match sink.kind with
  | .appending => ({ sink with bytes := sink.bytes ++ chunk }, none)
  | .growing =>
    let filled := sink.bytes ++ List.replicate (sink.position - sink.bytes.size) (0 : UInt8)
    let inside := filled.size - sink.position
    let bytes := overwrite filled sink.position (chunk.take inside) ++ chunk.drop inside
    (⟨sink.kind, bytes, sink.position + chunk.length⟩, none)
  | .fixed =>
    let fits := min chunk.length (sink.bytes.size - sink.position)
    let written := ⟨sink.kind, overwrite sink.bytes sink.position (chunk.take fits),
      sink.position + fits⟩
    (written, if fits < chunk.length then some .full else none)

/-- Replaces the bytes that begin `back` bytes before the head. They have to lie inside of what was
    written; otherwise nothing is replaced. -/
def patch (sink : Sink) (back : Nat) (chunk : List UInt8) : Sink × Option SinkError :=
  if sink.head < back then (sink, some .beforeStart)
  else
    let start := sink.head - back
    if sink.bytes.size < start + chunk.length then (sink, some .pastEnd)
    else ({ sink with bytes := overwrite sink.bytes start chunk }, none)

end Sink

theorem size_overwrite (bytes : Array UInt8) (start : Nat) (chunk : List UInt8) :
    (overwrite bytes start chunk).size = bytes.size := by
  induction chunk generalizing bytes start with
  | nil => rfl
  | cons b bs ih => simp [overwrite, ih]

namespace Sink

/-- A patch changes no byte count. -/
theorem size_patch (sink : Sink) (back : Nat) (chunk : List UInt8) :
    (sink.patch back chunk).1.bytes.size = sink.bytes.size := by
  unfold patch
  split
  · rfl
  · dsimp only
    split
    · rfl
    · exact size_overwrite _ _ _

end Sink

end Cdr
