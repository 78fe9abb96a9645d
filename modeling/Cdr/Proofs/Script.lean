import Cdr.Wire.Writer

/-! # Scripts of sink operations

What a writer does to its sink, as a list of operations. In a balanced script every patch replaces
the four zeros that were emitted for it and no others, and every such placeholder is patched once;
in a torn one, which a fault cut off, some placeholders are still open. On a sink that appends, a
balanced script appends its bytes, and no script changes what was there.
-/

namespace Cdr

inductive SinkOp where
  | emit (chunk : List UInt8)
  /-- Replaces the bytes that begin `back` bytes before the head. -/
  | patch (back : Nat) (chunk : List UInt8)
  deriving DecidableEq, Repr

def SinkOp.run : SinkOp → WriteM Unit
  | emit chunk => WriteM.emit chunk
  | patch back chunk => WriteM.patch back chunk

abbrev Script := List SinkOp

namespace Script

def perform : Script → WriteM Unit
  | [] => pure ()
  | op :: rest => do
    op.run
    perform rest

/-- The bytes that stand where a length is to be put. -/
def placeholder : List UInt8 := [0, 0, 0, 0]

/-- Scripts that close every placeholder they open, with the bytes they leave behind. A patch goes
    back over the bytes that were emitted since its placeholder, and over the placeholder. -/
inductive Balanced : Script → List UInt8 → Prop where
  | nil : Balanced [] []
  | emit (chunk : List UInt8) {rest : Script} {b : List UInt8} (tail : Balanced rest b) :
      Balanced (.emit chunk :: rest) (chunk ++ b)
  | patched {word : List UInt8} {inner rest : Script} {body b : List UInt8}
      (width : word.length = placeholder.length) (inside : Balanced inner body)
      (tail : Balanced rest b) :
      Balanced (.emit placeholder :: (inner ++ .patch (body.length + 4) word :: rest))
        (word ++ (body ++ b))

/-- Scripts that were cut off, perhaps behind some open placeholders. -/
inductive Torn : Script → Prop where
  | whole {ops : Script} {b : List UInt8} (closed : Balanced ops b) : Torn ops
  | opened {before inner : Script} {b : List UInt8} (closed : Balanced before b)
      (inside : Torn inner) : Torn (before ++ .emit placeholder :: inner)

theorem balanced_single (chunk : List UInt8) : Balanced [.emit chunk] chunk := by
  simpa using Balanced.emit chunk .nil

theorem Balanced.append {first second : Script} {a b : List UInt8} (ha : Balanced first a)
    (hb : Balanced second b) : Balanced (first ++ second) (a ++ b) := by
  induction ha with
  | nil => exact hb
  | emit chunk tail ih =>
    rw [List.cons_append, List.append_assoc]
    exact .emit chunk ih
  | patched width inside tail _ ih =>
    have h := Balanced.patched width inside ih
    simpa using h

theorem Torn.append {first second : Script} {a : List UInt8} (ha : Balanced first a)
    (hb : Torn second) : Torn (first ++ second) := by
  cases hb with
  | whole closed => exact .whole (ha.append closed)
  | opened closed inside =>
    rw [← List.append_assoc]
    exact .opened (ha.append closed) inside

theorem perform_append (first second : Script) :
    perform (first ++ second) = (do perform first; perform second) := by
  induction first with
  | nil => simp [perform]
  | cons op rest ih => simp [perform, ih]

/-- How far a script moves the head. -/
def advance : Script → Nat
  | [] => 0
  | .emit chunk :: rest => chunk.length + advance rest
  | .patch _ _ :: rest => advance rest

theorem advance_append (first second : Script) :
    advance (first ++ second) = advance first + advance second := by
  induction first with
  | nil => simp [advance]
  | cons op rest ih =>
    cases op with
    | emit chunk =>
      simp only [List.cons_append, advance, ih]
      omega
    | patch back chunk => simpa only [List.cons_append, advance] using ih

theorem Balanced.advance_eq {ops : Script} {b : List UInt8} (h : Balanced ops b) :
    advance ops = b.length := by
  induction h with
  | nil => rfl
  | emit chunk tail ih => simp [advance, ih]
  | patched width inside tail ihInside ihTail =>
    simp only [advance, advance_append, ihInside, ihTail, List.length_append, width]

/-- On any sink, a script that is performed to its end moves the position by what it emits. -/
theorem position_of_perform {ops : Script} {w after : Writer}
    (h : (perform ops).run w = .ok () after) : after.position = w.position + advance ops := by
  induction ops generalizing w with
  | nil =>
    simp only [perform, EStateM.run_pure, EStateM.Result.ok.injEq, true_and] at h
    simp [advance, ← h]
  | cons op rest ih =>
    simp only [perform, EStateM.run_bind] at h
    cases op with
    | emit chunk =>
      cases hw : w.sink.write chunk with
      | mk sink fault =>
        cases fault with
        | none =>
          simp only [SinkOp.run, WriteM.emit, EStateM.run, hw] at h
          rw [ih h, advance, Nat.add_assoc]
        | some fault => simp [SinkOp.run, WriteM.emit, EStateM.run, hw] at h
    | patch back chunk =>
      cases hw : w.sink.patch back chunk with
      | mk sink fault =>
        cases fault with
        | none =>
          simp only [SinkOp.run, WriteM.patch, EStateM.run, hw] at h
          rw [ih h, advance]
        | some fault => simp [SinkOp.run, WriteM.patch, EStateM.run, hw] at h

end Script

theorem append_append_list (bytes : Array UInt8) (b c : List UInt8) :
    bytes ++ b ++ c = bytes ++ (b ++ c) := by
  apply Array.toList_inj.1
  simp

theorem size_append_list (bytes : Array UInt8) (b : List UInt8) :
    (bytes ++ b).size = bytes.size + b.length := by
  rw [← Array.length_toList, ← Array.length_toList, Array.toList_appendList, List.length_append]

/-- Bytes put over as many others. -/
theorem toList_overwrite {bytes : Array UInt8} {before slot after chunk : List UInt8}
    (hlength : chunk.length = slot.length) (h : bytes.toList = before ++ (slot ++ after)) :
    (overwrite bytes before.length chunk).toList = before ++ (chunk ++ after) := by
  induction chunk generalizing bytes before slot with
  | nil =>
    have hslot : slot = [] := List.length_eq_zero_iff.1 hlength.symm
    subst hslot
    exact h
  | cons b bs ih =>
    cases slot with
    | nil => simp at hlength
    | cons s slot =>
      have hset : (bytes.setIfInBounds before.length b).toList =
          (before ++ [b]) ++ (slot ++ after) := by
        rw [Array.toList_setIfInBounds, h, List.set_append_right _ _ (Nat.le_refl _)]
        simp
      have hrest := ih (by simpa using hlength) hset
      simpa [overwrite] using hrest

namespace Sink

/-- A patch that goes back over a slot of its own width and what is behind it replaces that slot. -/
theorem patch_appendingTo {bytes : Array UInt8} {slot chunk body : List UInt8}
    (hlength : chunk.length = slot.length) :
    (appendingTo (bytes ++ slot ++ body)).patch (body.length + slot.length) chunk =
      (appendingTo (bytes ++ chunk ++ body), none) := by
  have hsize : (bytes ++ slot ++ body).size = bytes.size + slot.length + body.length := by
    rw [size_append_list, size_append_list]
  have hbefore : bytes.toList.length = bytes.size := Array.length_toList
  have hstart : bytes.size + slot.length + body.length - (body.length + slot.length) =
      bytes.toList.length := by
    omega
  have hbytes : (bytes ++ slot ++ body).toList = bytes.toList ++ (slot ++ body) := by simp
  have hover : overwrite (bytes ++ slot ++ body) bytes.toList.length chunk =
      bytes ++ chunk ++ body := by
    apply Array.toList_inj.1
    rw [toList_overwrite hlength hbytes]
    simp
  simp only [patch, head, appendingTo, hsize, hstart, hover]
  rw [if_neg (by omega), if_neg (by omega)]

end Sink

namespace Script

theorem perform_emit (chunk : List UInt8) (rest : Script) (bytes : Array UInt8) (position : Nat) :
    (perform (.emit chunk :: rest)).run ⟨.appendingTo bytes, position⟩ =
      (perform rest).run ⟨.appendingTo (bytes ++ chunk), position + chunk.length⟩ := rfl

/-- A balanced script appends its bytes. -/
theorem Balanced.perform_appendingTo {ops : Script} {b : List UInt8} (h : Balanced ops b)
    (bytes : Array UInt8) (position : Nat) :
    (perform ops).run ⟨.appendingTo bytes, position⟩ =
      .ok () ⟨.appendingTo (bytes ++ b), position + b.length⟩ := by
  induction h generalizing bytes position with
  | nil => simp [perform]
  | emit chunk tail ih =>
    rw [perform_emit, ih, append_append_list]
    simp [Nat.add_assoc]
  | @patched word inner rest body b width inside tail ihInside ihTail =>
    have hpatch : (SinkOp.patch (body.length + 4) word).run.run
        ⟨.appendingTo (bytes ++ placeholder ++ body), position + 4 + body.length⟩ =
          .ok () ⟨.appendingTo (bytes ++ word ++ body), position + 4 + body.length⟩ := by
      have h := @Sink.patch_appendingTo bytes placeholder word body width
      simp only [SinkOp.run, WriteM.patch, EStateM.run]
      rw [show body.length + 4 = body.length + placeholder.length from rfl, h]
    rw [perform_emit, perform_append, EStateM.run_bind, ihInside]
    simp only [perform, EStateM.run_bind]
    rw [show placeholder.length = 4 from rfl, hpatch]
    simp only []
    rw [ihTail]
    have hword : word.length = 4 := width
    simp only [append_append_list, List.append_assoc, List.length_append, hword, Nat.add_assoc]

/-- A torn script keeps what was there. -/
theorem Torn.perform_appendingTo {ops : Script} (h : Torn ops) (bytes : Array UInt8)
    (position : Nat) :
    ∃ b : List UInt8, (perform ops).run ⟨.appendingTo bytes, position⟩ =
      .ok () ⟨.appendingTo (bytes ++ b), position + b.length⟩ := by
  induction h generalizing bytes position with
  | whole closed => exact ⟨_, closed.perform_appendingTo bytes position⟩
  | @opened before inner b closed inside ih =>
    obtain ⟨c, hc⟩ := ih (bytes ++ b ++ placeholder) (position + b.length + placeholder.length)
    refine ⟨b ++ (placeholder ++ c), ?_⟩
    rw [perform_append, EStateM.run_bind, closed.perform_appendingTo]
    simp only []
    rw [perform_emit, hc]
    simp only [append_append_list, List.append_assoc, List.length_append, Nat.add_assoc]

end Script

end Cdr
