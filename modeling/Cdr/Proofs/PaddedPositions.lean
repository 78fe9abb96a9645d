import Cdr.Proofs.Presence
import Cdr.Proofs.StructLayout
import Mathlib

/-! # Padded positions

A position comes to a boundary in two ways: it is rounded up, or the bytes that it lacks are counted
and skipped. On machine words both mask the bits below the boundary, the one to clear them and the
other to subtract them. The place is the same, the least multiple of the alignment that is not below
the position, and so every pass that pads comes there: the header of an optional member is looked
for where it was written.
-/

namespace Cdr

open WriteM

variable {a : Nat}

theorem padding_lt (h : IsPowerOfTwo a) (position : Nat) : padding position a < a := by
  have hpos := h.pos
  obtain ⟨exponent, rfl⟩ := h
  have hvalue := padding_two_pow position exponent
  rw [Nat.one_shiftLeft] at hvalue
  split at hvalue <;> omega

/-- Less than the alignment is skipped, so no multiple is passed by. -/
theorem add_padding_eq_alignUp (h : IsPowerOfTwo a) (position : Nat) :
    position + padding position a = alignUp position a := by
  have hlt := padding_lt h position
  have hleast := isLeastMultiple_alignUp h position
  have hdvd : a ∣ position + padding position a := by
    obtain ⟨exponent, rfl⟩ := h
    have hshift := dvd_add_padding position exponent
    rwa [Nat.one_shiftLeft] at hshift
  have hpadded : IsLeastMultiple a position (position + padding position a) := by
    refine ⟨⟨hdvd, Nat.le_add_right position _⟩, ?_⟩
    rintro multiple ⟨hmultiple, hle⟩
    have hnear : position + padding position a - multiple < a := by omega
    have hzero := Nat.eq_zero_of_dvd_of_lt (Nat.dvd_sub hdvd hmultiple) hnear
    omega
  exact hpadded.unique hleast

theorem alignUp_sub (h : IsPowerOfTwo a) (position : Nat) :
    alignUp position a - position = padding position a := by
  rw [← add_padding_eq_alignUp h, Nat.add_sub_cancel_left]

/-! ## Machine words -/

namespace Word

/-- The position rounded up, as a machine does it: by clearing the bits of the mask. -/
def alignUp (position alignment : UInt64) : UInt64 :=
  let mask := alignment - 1
  (position + mask) &&& ~~~mask

/-- The bytes up to the next boundary, as a machine counts them. -/
def padding (position alignment : UInt64) : UInt64 :=
  match position &&& (alignment - 1) with
  | 0 => 0
  | past => alignment - past

/-- The bits that a mask clears and those that it leaves make up the word. -/
theorem toNat_and_not (x mask : UInt64) :
    (x &&& ~~~mask).toNat = x.toNat - (x.toNat &&& mask.toNat) := by
  let cleared := x.toBitVec &&& ~~~mask.toBitVec
  let left := x.toBitVec &&& mask.toBitVec
  have hdisjoint : cleared &&& left = 0#64 := by
    ext i
    simp only [cleared, left, BitVec.getElem_and, BitVec.getElem_not]
    cases mask.toBitVec[i] <;> simp
  have hjoin : cleared ||| left = x.toBitVec := by
    ext i
    simp only [cleared, left, BitVec.getElem_or, BitVec.getElem_and, BitVec.getElem_not]
    cases mask.toBitVec[i] <;> simp
  have hsum : x.toNat = cleared.toNat + left.toNat := by
    rw [← BitVec.toNat_add_of_and_eq_zero hdisjoint, BitVec.add_eq_or_of_and_eq_zero _ _ hdisjoint,
      hjoin]
    rfl
  have hleft : left.toNat = x.toNat &&& mask.toNat := BitVec.toNat_and _ _
  show cleared.toNat = _
  omega

variable {position alignment : UInt64}

theorem toNat_mask (h : 0 < alignment.toNat) : (alignment - 1).toNat = alignment.toNat - 1 := by
  rw [UInt64.toNat_sub_of_le]
  · rfl
  · exact UInt64.le_iff_toNat_le.2 h

/-- Where nothing overflows, words are rounded up as numbers are. -/
theorem toNat_alignUp (hpos : 0 < alignment.toNat)
    (hroom : position.toNat + (alignment.toNat - 1) < 2 ^ 64) :
    (alignUp position alignment).toNat = Cdr.alignUp position.toNat alignment.toNat := by
  have hsum : (position + (alignment - 1)).toNat = position.toNat + (alignment.toNat - 1) := by
    rw [UInt64.toNat_add, toNat_mask hpos, Nat.mod_eq_of_lt hroom]
  simp only [alignUp, toNat_and_not, hsum, toNat_mask hpos, Cdr.alignUp]

theorem toNat_padding (hpos : 0 < alignment.toNat) :
    (padding position alignment).toNat = Cdr.padding position.toNat alignment.toNat := by
  have hpast : (position &&& (alignment - 1)).toNat =
      position.toNat &&& (alignment.toNat - 1) := by
    rw [UInt64.toNat_and, toNat_mask hpos]
  have hle : position.toNat &&& (alignment.toNat - 1) ≤ alignment.toNat - 1 := Nat.and_le_right
  unfold padding Cdr.padding
  by_cases hzero : position &&& (alignment - 1) = 0
  · have hnone : position.toNat &&& (alignment.toNat - 1) = 0 := by
      rw [← hpast, hzero]
      rfl
    rw [hzero, hnone]
    rfl
  · have hsome : position.toNat &&& (alignment.toNat - 1) ≠ 0 := by
      intro hnone
      exact hzero (UInt64.toNat_inj.1 (hpast.trans hnone))
    split
    next h => exact absurd h hzero
    next =>
      split
      next h => exact absurd h hsome
      next =>
        rw [UInt64.toNat_sub_of_le, hpast]
        rw [UInt64.le_iff_toNat_le, hpast]
        omega

end Word

/-! ## Passes that pad -/

theorem SizeRules.position_of_pad (h : IsPowerOfTwo a) {rules : SizeRules} {tally after : Tally}
    (hrun : (rules.pad a).run tally = .ok ((), after)) :
    after.position = alignUp tally.position a := by
  have hadd : (rules.add (padding tally.position a)).run tally = .ok ((), after) := hrun
  simp only [add, StateT.run] at hadd
  split at hadd
  · cases hadd
  · cases hadd
    exact add_padding_eq_alignUp h tally.position

namespace WriteM

theorem position_of_pad (h : IsPowerOfTwo a) {w after : Writer}
    (hrun : (pad a).run w = .ok () after) : after.position = alignUp w.position a := by
  obtain ⟨ops, balanced, hperform⟩ := writes_pad a w.position
  rw [hperform w.sink] at hrun
  rw [Script.position_of_perform hrun, balanced.advance_eq, List.length_replicate]
  exact add_padding_eq_alignUp h w.position

/-- A sink that takes all that is appended has zeros up to the boundary. -/
theorem run_pad (h : IsPowerOfTwo a) (bytes : Array UInt8) (position : Nat) :
    (pad a).run ⟨.appendingTo bytes, position⟩ =
      .ok () ⟨.appendingTo (bytes ++ List.replicate (alignUp position a - position) (0 : UInt8)),
        alignUp position a⟩ := by
  rw [(writes_pad a).run_of_image rfl, List.length_replicate, add_padding_eq_alignUp h,
    alignUp_sub h]

end WriteM

namespace Source

variable {src : Source} {field : String} {c after : Cursor}

/-- Bytes that are read lie at the cursor, which moves behind them. -/
theorem eq_of_take {size : Nat} {bytes : List UInt8}
    (hrun : (src.take field size).run c = .ok bytes after) :
    bytes = (src.bytes.extract c.position (c.position + size)).toList ∧
      after.position = c.position + size := by
  by_cases hroom : size ≤ c.remaining
  · rcases run_take_of_le src field hroom with ⟨limit, highWater, htake⟩ | htake
    · rw [htake] at hrun
      cases hrun
      exact ⟨rfl, rfl⟩
    · rw [htake] at hrun
      cases hrun
  · rw [run_take_of_lt src field (Nat.lt_of_not_le hroom)] at hrun
    cases hrun

theorem take_of_skipPadding (hrun : (src.skipPadding field a).run c = .ok () after) :
    ∃ bytes, (src.take field (padding (src.origin + c.position) a)).run c = .ok bytes after := by
  simp only [skipPadding, EStateM.run_bind, EStateM.run_get] at hrun
  cases htake : (src.take field (padding (src.origin + c.position) a)).run c with
  | error fault last =>
    rw [htake] at hrun
    cases hrun
  | ok bytes last =>
    rw [htake] at hrun
    cases hrun
    exact ⟨bytes, rfl⟩

theorem position_of_skipPadding (h : IsPowerOfTwo a)
    (hrun : (src.skipPadding field a).run c = .ok () after) :
    src.origin + after.position = alignUp (src.origin + c.position) a := by
  obtain ⟨bytes, htake⟩ := take_of_skipPadding hrun
  rw [(eq_of_take htake).2, ← Nat.add_assoc, add_padding_eq_alignUp h]

end Source

/-- That every pass that pads to a boundary comes to where its position is rounded up to. Sizing and
    writing count from the alignment origin, and a reader's first byte lies `origin` bytes behind
    it. -/
structure PadsTo (a : Nat) : Prop where
  sizing : ∀ (rules : SizeRules) tally after, (rules.pad a).run tally = .ok ((), after) →
    after.position = alignUp tally.position a
  writing : ∀ w after, (pad a).run w = .ok () after → after.position = alignUp w.position a
  appending : ∀ bytes position, (pad a).run ⟨.appendingTo bytes, position⟩ =
    .ok () ⟨.appendingTo (bytes ++ List.replicate (alignUp position a - position) (0 : UInt8)),
      alignUp position a⟩
  reading : ∀ (src : Source) field c after, (src.skipPadding field a).run c = .ok () after →
    src.origin + after.position = alignUp (src.origin + c.position) a
  fitting : ∀ (src : Source) field c, c.limit = .infinite →
    alignUp (src.origin + c.position) a ≤ src.origin + c.stop →
      ∃ after, (src.skipPadding field a).run c = .ok () after

theorem padsTo_alignUp (h : IsPowerOfTwo a) : PadsTo a where
  sizing _ _ _ := SizeRules.position_of_pad h
  writing _ _ := position_of_pad h
  appending := run_pad h
  reading _ _ _ _ := Source.position_of_skipPadding h
  fitting src field c hlimit hroom := by
    have hfits : padding (src.origin + c.position) a ≤ c.remaining := by
      rw [← add_padding_eq_alignUp h] at hroom
      unfold Cursor.remaining
      omega
    refine ⟨c.reach (c.position + padding (src.origin + c.position) a), ?_⟩
    simp only [Source.skipPadding, EStateM.run_bind, EStateM.run_get,
      src.run_take_reach field hfits hlimit]
    rfl

theorem isPowerOfTwo_four : IsPowerOfTwo 4 :=
  ⟨2, rfl⟩

theorem Source.headerStart_eq (src : Source) (position : Nat) :
    src.origin + src.headerStart position = alignUp (src.origin + position) 4 := by
  rw [headerStart, ← Nat.add_assoc, add_padding_eq_alignUp isPowerOfTwo_four]

/-- A word comes from the boundary that the padding in front of it reaches. -/
theorem Source.eq_of_word {src : Source} {field : String} {c after : Cursor} {n : Nat}
    (hrun : (src.word field).run c = .ok n after) :
    n = src.headerWord c.position ∧ after.position = src.valueStart c.position := by
  simp only [word, EStateM.run_bind, Encoding.alignmentOf_uint32] at hrun
  cases hskip : (src.skipPadding field 4).run c with
  | error fault mid =>
    rw [hskip] at hrun
    cases hrun
  | ok u mid =>
    simp only [hskip] at hrun
    have hmid : mid.position = src.headerStart c.position := by
      have hreached := position_of_skipPadding isPowerOfTwo_four hskip
      rw [← headerStart_eq] at hreached
      exact Nat.add_left_cancel hreached
    cases htake : (src.take field Primitive.uint32.size).run mid with
    | error fault last =>
      rw [htake] at hrun
      cases hrun
    | ok bytes last =>
      rw [htake] at hrun
      cases hrun
      obtain ⟨rfl, hlast⟩ := eq_of_take htake
      rw [hmid] at hlast ⊢
      exact ⟨rfl, hlast⟩

/-- A word that is written stands at the boundary, behind zeros. -/
theorem Encoding.run_writeWord (e : Encoding) (n : Nat) (bytes : Array UInt8) (position : Nat) :
    (e.writeWord n).run ⟨.appendingTo bytes, position⟩ =
      .ok () ⟨.appendingTo (bytes ++
        (List.replicate (alignUp position 4 - position) 0 ++ e.wordBytes n)),
        alignUp position 4 + 4⟩ := by
  have hword : e.wordImage n position =
      .ok (List.replicate (padding position 4) 0 ++ e.wordBytes n) := rfl
  rw [(e.writes_word n).run_of_image hword, List.length_append, List.length_replicate,
    length_wordBytes, ← Nat.add_assoc, add_padding_eq_alignUp isPowerOfTwo_four,
    alignUp_sub isPowerOfTwo_four]

/-- That the header of an optional member is looked for where the padded read of it comes to, and
    where a writer at the same distance from the alignment origin puts it. -/
structure MeetsHeader {schema : Schema} (src : Source) (m : Member schema.size) (c : Cursor) :
    Prop where
  start : src.origin + src.headerStart c.position = alignUp (src.origin + c.position) 4
  looking : ∀ readType, (readPresent schema src readType m).run c =
    (if src.headerStart c.position + 4 ≤ c.stop then do
      let header ← src.word m.name
      let c ← get
      if header % 8 = m.id.toNat % 8 && header / 8 ≤ c.remaining then
        readWithin schema src readType m (c.position + header / 8)
      else return none
    else return none : ReadM (Option Value)).run c
  padded : ∀ field after,
    (src.skipPadding field (src.encoding.alignmentOf .uint32)).run c = .ok () after →
      after.position = src.headerStart c.position
  word : ∀ field n after, (src.word field).run c = .ok n after →
    n = src.headerWord c.position ∧ after.position = src.valueStart c.position
  written : ∀ (e : Encoding) n bytes,
    (e.writeWord n).run ⟨.appendingTo bytes, src.origin + c.position⟩ =
      .ok () ⟨.appendingTo (bytes ++
        (List.replicate (src.headerStart c.position - c.position) 0 ++ e.wordBytes n)),
        src.origin + src.valueStart c.position⟩

theorem meetsHeader {schema : Schema} (src : Source) (m : Member schema.size) (c : Cursor) :
    MeetsHeader src m c where
  start := src.headerStart_eq c.position
  looking readType := run_readPresent schema src readType m c
  padded field after hrun := by
    rw [Encoding.alignmentOf_uint32] at hrun
    have hreached := Source.position_of_skipPadding isPowerOfTwo_four hrun
    rw [← Source.headerStart_eq] at hreached
    exact Nat.add_left_cancel hreached
  word _ _ _ := Source.eq_of_word
  written e n bytes := by
    rw [e.run_writeWord, ← Source.headerStart_eq, Nat.add_sub_add_left]
    rfl

/-- Rounding a position up and adding its padding come to the same, which is the least multiple of
    the alignment that is not below it and less than the alignment away. Machine words do as numbers
    do where nothing overflows. So all passes that pad come to the same boundary, and a reader looks
    for the header of an optional member where its own padded read and the padding of a writer come
    to. -/
theorem padding_meets_alignUp :
    (∀ a, IsPowerOfTwo a → ∀ position,
      position + padding position a = alignUp position a ∧
        IsLeastMultiple a position (alignUp position a) ∧ padding position a < a) ∧
    (∀ position alignment : UInt64, IsPowerOfTwo alignment.toNat →
      position.toNat + alignment.toNat < 2 ^ 64 →
        position + Word.padding position alignment = Word.alignUp position alignment ∧
        (Word.alignUp position alignment).toNat = alignUp position.toNat alignment.toNat ∧
        (Word.padding position alignment).toNat = padding position.toNat alignment.toNat) ∧
    (∀ a, IsPowerOfTwo a → PadsTo a) ∧
    ∀ (schema : Schema) (src : Source) (m : Member schema.size) (c : Cursor),
      MeetsHeader src m c := by
  refine ⟨?numbers, ?words, fun a => padsTo_alignUp, fun schema src m c => meetsHeader src m c⟩
  case numbers =>
    intro a h position
    exact ⟨add_padding_eq_alignUp h position, isLeastMultiple_alignUp h position,
      padding_lt h position⟩
  case words =>
    intro position alignment h hroom
    have hmask : position.toNat + (alignment.toNat - 1) < 2 ^ 64 := by omega
    have hup := Word.toNat_alignUp h.pos hmask
    have hpadding : (Word.padding position alignment).toNat =
        padding position.toNat alignment.toNat := Word.toNat_padding h.pos
    refine ⟨UInt64.toNat_inj.1 ?_, hup, hpadding⟩
    have hlt := padding_lt h position.toNat
    rw [UInt64.toNat_add, hpadding, Nat.mod_eq_of_lt (by omega), hup, add_padding_eq_alignUp h]

/-- The last multiple of eight in the 64-bit range, from the byte before it. -/
theorem padding_meets_alignUp_last :
    let position : UInt64 := 0xfffffffffffffff7
    IsPowerOfTwo 8 ∧ position.toNat + 8 < 2 ^ 64 ∧
      position + Word.padding position 8 = Word.alignUp position 8 ∧
      (Word.alignUp position 8).toNat = 0xfffffffffffffff8 ∧ padding position.toNat 8 < 8 := by
  intro position
  have height : IsPowerOfTwo 8 := ⟨3, rfl⟩
  have hroom : position.toNat + 8 < 2 ^ 64 := by decide
  obtain ⟨hnumbers, hwords, -⟩ := padding_meets_alignUp
  obtain ⟨hmeets, -, -⟩ := hwords position 8 height hroom
  obtain ⟨-, -, hlt⟩ := hnumbers 8 height position.toNat
  exact ⟨height, hroom, hmeets, by decide, hlt⟩

end Cdr
