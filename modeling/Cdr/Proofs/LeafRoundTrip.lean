import Cdr.Text.Utf8
import Cdr.Wire.Arm
import Cdr.Wire.Encoding

/-! # Texts, scalars and discriminators from their bytes

What holds no other value comes back from its bytes as it was: a text from its UTF-8 form, a
scalar from its bits in either byte order, and a discriminator from the value that stands for it.
-/

namespace Cdr

namespace Text

theorem toNat_byte {n : Nat} (h : n < 256) : (UInt8.ofNat n).toNat = n := by
  rw [UInt8.toNat_ofNat']
  omega

theorem le_byte {b : UInt8} {n : Nat} (hn : n < 256) (h : b.toNat ≤ n) : b ≤ UInt8.ofNat n := by
  rw [UInt8.le_iff_toNat_le, toNat_byte hn]
  exact h

theorem byte_le {b : UInt8} {n : Nat} (hn : n < 256) (h : n ≤ b.toNat) : UInt8.ofNat n ≤ b := by
  rw [UInt8.le_iff_toNat_le, toNat_byte hn]
  exact h

theorem byte_inj {n m : Nat} (hn : n < 256) (hm : m < 256) :
    UInt8.ofNat n = UInt8.ofNat m ↔ n = m := by
  rw [← UInt8.toNat_inj, toNat_byte hn, toNat_byte hm]

/-- A byte with the lowest six bits of a number, of the form of those that continue a character. -/
theorem continuation (n : Nat) :
    (UInt8.ofNat (n % 64 + 128)).toNat - 0x80 = n % 64 ∧
      (0x80 : UInt8) ≤ UInt8.ofNat (n % 64 + 128) ∧ UInt8.ofNat (n % 64 + 128) ≤ 0xbf := by
  have hn : n % 64 + 128 < 256 := by omega
  refine ⟨?_, le_byte hn ?_, byte_le hn ?_⟩
  · rw [toNat_byte hn]
    omega
  · show 128 ≤ n % 64 + 128
    omega
  · show n % 64 + 128 ≤ 191
    omega

theorem openChar_two {b : UInt8} (start : Nat) (hlow : 0xc2 ≤ b) (hhigh : b ≤ 0xdf) :
    openChar? start b = some ⟨start, 1, 1, b.toNat - 0xc0, 0x80, 0xbf⟩ := by
  rw [openChar?, if_pos ⟨hlow, hhigh⟩]

theorem openChar_three {b : UInt8} (start : Nat) (hlow : 0xe0 ≤ b) (hhigh : b ≤ 0xef) :
    openChar? start b = some ⟨start, 1, 2, b.toNat - 0xe0, if b = 0xe0 then 0xa0 else 0x80,
      if b = 0xed then 0x9f else 0xbf⟩ := by
  have htwo : ¬(0xc2 ≤ b ∧ b ≤ 0xdf) := by
    rintro ⟨-, h⟩
    exact absurd (UInt8.le_trans hlow h) (by decide)
  rw [openChar?, if_neg htwo, if_pos ⟨hlow, hhigh⟩]

theorem openChar_four {b : UInt8} (start : Nat) (hlow : 0xf0 ≤ b) (hhigh : b ≤ 0xf4) :
    openChar? start b = some ⟨start, 1, 3, b.toNat - 0xf0, if b = 0xf0 then 0x90 else 0x80,
      if b = 0xf4 then 0x8f else 0xbf⟩ := by
  have htwo : ¬(0xc2 ≤ b ∧ b ≤ 0xdf) := by
    rintro ⟨-, h⟩
    exact absurd (UInt8.le_trans hlow h) (by decide)
  have hthree : ¬(0xe0 ≤ b ∧ b ≤ 0xef) := by
    rintro ⟨-, h⟩
    exact absurd (UInt8.le_trans hlow h) (by decide)
  rw [openChar?, if_neg htwo, if_neg hthree, if_pos ⟨hlow, hhigh⟩]

theorem readUtf8From_open {b : UInt8} {p : PartialChar} {i : Nat} (hb : 0x80 ≤ b)
    (hopen : openChar? i b = some p) (bs : List UInt8) :
    readUtf8From (b :: bs) i none = readUtf8From bs (i + 1) (some p) := by
  rw [readUtf8From, if_neg (UInt8.not_lt.2 hb), hopen]

/-- A byte behind which the character it continues goes on. -/
theorem readUtf8From_next {b : UInt8} {p : PartialChar} (hlow : p.low ≤ b) (hhigh : b ≤ p.high)
    (howed : p.owed ≠ 1) (bs : List UInt8) (i : Nat) :
    readUtf8From (b :: bs) i (some p) =
      readUtf8From bs (i + 1)
        (some ⟨p.start, p.seen + 1, p.owed - 1, p.bits * 64 + (b.toNat - 0x80), 0x80, 0xbf⟩) := by
  rw [readUtf8From, if_pos ⟨hlow, hhigh⟩, if_neg howed]

/-- A byte that ends the character it continues. -/
theorem readUtf8From_last {b : UInt8} {p : PartialChar} (hlow : p.low ≤ b) (hhigh : b ≤ p.high)
    (howed : p.owed = 1) (bs : List UInt8) (i : Nat) :
    readUtf8From (b :: bs) i (some p) =
      (Char.ofNat (p.bits * 64 + (b.toNat - 0x80)) :: ·) <$> readUtf8From bs (i + 1) none := by
  rw [readUtf8From, if_pos ⟨hlow, hhigh⟩, if_pos howed]

theorem readUtf8From_one {v : Nat} (hhigh : v ≤ 0x7f) (bs : List UInt8) (i : Nat) :
    readUtf8From (UInt8.ofNat v :: bs) i none =
      (Char.ofNat v :: ·) <$> readUtf8From bs (i + 1) none := by
  have hv : v < 256 := by omega
  have hbyte : UInt8.ofNat v < 0x80 := by
    rw [UInt8.lt_iff_toNat_lt, toNat_byte hv]
    exact Nat.lt_succ_of_le hhigh
  rw [readUtf8From, if_pos hbyte, toNat_byte hv]

theorem readUtf8From_two {v : Nat} (hlow : ¬v ≤ 0x7f) (hhigh : v ≤ 0x7ff) (bs : List UInt8)
    (i : Nat) :
    readUtf8From (UInt8.ofNat (v / 64 % 32 + 192) :: UInt8.ofNat (v % 64 + 128) :: bs) i none =
      (Char.ofNat v :: ·) <$> readUtf8From bs (i + 2) none := by
  have hv : v / 64 % 32 + 192 < 256 := by omega
  have hfirst : (0xc2 : UInt8) ≤ UInt8.ofNat (v / 64 % 32 + 192) := by
    apply le_byte hv
    show 194 ≤ v / 64 % 32 + 192
    omega
  have hlast : UInt8.ofNat (v / 64 % 32 + 192) ≤ 0xdf := by
    apply byte_le hv
    show v / 64 % 32 + 192 ≤ 223
    omega
  have hopen : (0x80 : UInt8) ≤ UInt8.ofNat (v / 64 % 32 + 192) :=
    UInt8.le_trans (by decide) hfirst
  obtain ⟨hbits, hleast, hmost⟩ := continuation v
  have hsum : (v / 64 % 32 + 192 - 192) * 64 + v % 64 = v := by omega
  rw [readUtf8From_open hopen (openChar_two i hfirst hlast), readUtf8From_last hleast hmost rfl,
    hbits, toNat_byte hv, hsum]

/-- The second of three bytes rules out overlong forms and surrogates. -/
theorem readUtf8From_three {v : Nat} (hlow : ¬v ≤ 0x7ff) (hhigh : v ≤ 0xffff)
    (hvalid : v < 0xd800 ∨ 0xdfff < v) (bs : List UInt8) (i : Nat) :
    readUtf8From (UInt8.ofNat (v / 4096 % 16 + 224) :: UInt8.ofNat (v / 64 % 64 + 128) ::
        UInt8.ofNat (v % 64 + 128) :: bs) i none =
      (Char.ofNat v :: ·) <$> readUtf8From bs (i + 3) none := by
  have hv : v / 4096 % 16 + 224 < 256 := by omega
  have hsecond : v / 64 % 64 + 128 < 256 := by omega
  have hfirst : (0xe0 : UInt8) ≤ UInt8.ofNat (v / 4096 % 16 + 224) := by
    apply le_byte hv
    show 224 ≤ v / 4096 % 16 + 224
    omega
  have hlast : UInt8.ofNat (v / 4096 % 16 + 224) ≤ 0xef := by
    apply byte_le hv
    show v / 4096 % 16 + 224 ≤ 239
    omega
  have hopen : (0x80 : UInt8) ≤ UInt8.ofNat (v / 4096 % 16 + 224) :=
    UInt8.le_trans (by decide) hfirst
  obtain ⟨hbits, hleast, hmost⟩ := continuation v
  obtain ⟨hbits₁, hleast₁, hmost₁⟩ := continuation (v / 64)
  have hlower : (if UInt8.ofNat (v / 4096 % 16 + 224) = 0xe0 then (0xa0 : UInt8) else 0x80) ≤
      UInt8.ofNat (v / 64 % 64 + 128) := by
    split
    next h =>
      have h : v / 4096 % 16 + 224 = 224 := (byte_inj hv (by decide)).1 h
      apply le_byte hsecond
      show 160 ≤ v / 64 % 64 + 128
      omega
    next => exact hleast₁
  have hupper : UInt8.ofNat (v / 64 % 64 + 128) ≤
      (if UInt8.ofNat (v / 4096 % 16 + 224) = 0xed then (0x9f : UInt8) else 0xbf) := by
    split
    next h =>
      have h : v / 4096 % 16 + 224 = 237 := (byte_inj hv (by decide)).1 h
      apply byte_le hsecond
      show v / 64 % 64 + 128 ≤ 159
      omega
    next => exact hmost₁
  have hsum : ((v / 4096 % 16 + 224 - 224) * 64 + v / 64 % 64) * 64 + v % 64 = v := by omega
  rw [readUtf8From_open hopen (openChar_three i hfirst hlast),
    readUtf8From_next ?lower ?upper ?owed]
  case lower => exact hlower
  case upper => exact hupper
  case owed => exact Nat.succ_ne_self 1
  rw [readUtf8From_last hleast hmost rfl, hbits, hbits₁, toNat_byte hv, hsum]

/-- The second of four bytes rules out overlong forms and what lies beyond the characters. -/
theorem readUtf8From_four {v : Nat} (hlow : ¬v ≤ 0xffff) (hvalid : v < 0x110000) (bs : List UInt8)
    (i : Nat) :
    readUtf8From (UInt8.ofNat (v / 262144 % 8 + 240) :: UInt8.ofNat (v / 4096 % 64 + 128) ::
        UInt8.ofNat (v / 64 % 64 + 128) :: UInt8.ofNat (v % 64 + 128) :: bs) i none =
      (Char.ofNat v :: ·) <$> readUtf8From bs (i + 4) none := by
  have hv : v / 262144 % 8 + 240 < 256 := by omega
  have hsecond : v / 4096 % 64 + 128 < 256 := by omega
  have hfirst : (0xf0 : UInt8) ≤ UInt8.ofNat (v / 262144 % 8 + 240) := by
    apply le_byte hv
    show 240 ≤ v / 262144 % 8 + 240
    omega
  have hlast : UInt8.ofNat (v / 262144 % 8 + 240) ≤ 0xf4 := by
    apply byte_le hv
    show v / 262144 % 8 + 240 ≤ 244
    omega
  have hopen : (0x80 : UInt8) ≤ UInt8.ofNat (v / 262144 % 8 + 240) :=
    UInt8.le_trans (by decide) hfirst
  obtain ⟨hbits, hleast, hmost⟩ := continuation v
  obtain ⟨hbits₁, hleast₁, hmost₁⟩ := continuation (v / 64)
  obtain ⟨hbits₂, hleast₂, hmost₂⟩ := continuation (v / 4096)
  have hlower : (if UInt8.ofNat (v / 262144 % 8 + 240) = 0xf0 then (0x90 : UInt8) else 0x80) ≤
      UInt8.ofNat (v / 4096 % 64 + 128) := by
    split
    next h =>
      have h : v / 262144 % 8 + 240 = 240 := (byte_inj hv (by decide)).1 h
      apply le_byte hsecond
      show 144 ≤ v / 4096 % 64 + 128
      omega
    next => exact hleast₂
  have hupper : UInt8.ofNat (v / 4096 % 64 + 128) ≤
      (if UInt8.ofNat (v / 262144 % 8 + 240) = 0xf4 then (0x8f : UInt8) else 0xbf) := by
    split
    next h =>
      have h : v / 262144 % 8 + 240 = 244 := (byte_inj hv (by decide)).1 h
      apply byte_le hsecond
      show v / 4096 % 64 + 128 ≤ 143
      omega
    next => exact hmost₂
  have hsum : (((v / 262144 % 8 + 240 - 240) * 64 + v / 4096 % 64) * 64 + v / 64 % 64) * 64 +
      v % 64 = v := by omega
  rw [readUtf8From_open hopen (openChar_four i hfirst hlast), readUtf8From_next ?lower ?upper ?owed]
  case lower => exact hlower
  case upper => exact hupper
  case owed => exact Nat.succ_succ_ne_one 1
  rw [readUtf8From_next hleast₁ hmost₁ (Nat.succ_ne_self 1), readUtf8From_last hleast hmost rfl,
    hbits, hbits₁, hbits₂, toNat_byte hv, hsum]

/-- The bytes of a character are read as this character. -/
theorem readUtf8From_encodeChar (c : Char) (bs : List UInt8) (i : Nat) :
    readUtf8From (String.utf8EncodeChar c ++ bs) i none =
      (c :: ·) <$> readUtf8From bs (i + (String.utf8EncodeChar c).length) none := by
  have hvalid : c.toNat < 0xd800 ∨ 0xdfff < c.toNat ∧ c.toNat < 0x110000 := c.valid
  have hchar : Char.ofNat c.toNat = c := Char.ofNat_toNat c
  unfold String.utf8EncodeChar
  simp only [show c.val.toNat = c.toNat from rfl]
  generalize c.toNat = v at hvalid hchar
  subst hchar
  split
  next hone => exact readUtf8From_one hone bs i
  next hone =>
    split
    next htwo => exact readUtf8From_two hone htwo bs i
    next htwo =>
      split
      next hthree => exact readUtf8From_three htwo hthree (by omega) bs i
      next hthree => exact readUtf8From_four hthree (by omega) bs i

/-- A text is what its bytes are read as. -/
theorem readUtf8_utf8 (text : String) : readUtf8 (utf8 text) = .ok text := by
  have hchars : ∀ (cs : List Char) (i : Nat),
      readUtf8From (cs.flatMap String.utf8EncodeChar) i none = .ok cs := by
    intro cs
    induction cs with
    | nil => exact fun _ => rfl
    | cons c cs ih =>
      intro i
      rw [List.flatMap_cons, readUtf8From_encodeChar, ih]
      rfl
  unfold readUtf8 utf8
  rw [hchars]
  exact congrArg Except.ok String.ofList_toList

/-- Only the character NUL has a byte that is zero. -/
theorem zero_notMem_encodeChar {c : Char} (h : c ≠ '\x00') : 0 ∉ String.utf8EncodeChar c := by
  have hpos : 0 < c.toNat := by
    apply Nat.pos_of_ne_zero
    intro hzero
    apply h
    rw [← Char.ofNat_toNat c, hzero]
  have hbyte : ∀ n : Nat, 0 < n → n < 256 → (0 : UInt8) ≠ UInt8.ofNat n := by
    intro n hn hlt heq
    exact Nat.ne_of_lt hn ((byte_inj (by decide) hlt).1 heq)
  have hmarked : ∀ n m k : Nat, 0 < m → 0 < k → m + k ≤ 256 →
      (0 : UInt8) ≠ UInt8.ofNat (n % m + k) := by
    intro n m k hm hk hle
    have hlt := Nat.mod_lt n hm
    exact hbyte _ (by omega) (by omega)
  unfold String.utf8EncodeChar
  simp only [show c.val.toNat = c.toNat from rfl]
  generalize c.toNat = v at hpos
  intro hmem
  split at hmem
  next hone => exact hbyte v hpos (by omega) (List.mem_singleton.1 hmem)
  next =>
    split at hmem
    next =>
      simp only [List.mem_cons, List.not_mem_nil, or_false] at hmem
      rcases hmem with h | h
      · exact hmarked _ 32 192 (by decide) (by decide) (by decide) h
      · exact hmarked _ 64 128 (by decide) (by decide) (by decide) h
    next =>
      split at hmem
      next =>
        simp only [List.mem_cons, List.not_mem_nil, or_false] at hmem
        rcases hmem with h | h | h
        · exact hmarked _ 16 224 (by decide) (by decide) (by decide) h
        · exact hmarked _ 64 128 (by decide) (by decide) (by decide) h
        · exact hmarked _ 64 128 (by decide) (by decide) (by decide) h
      next =>
        simp only [List.mem_cons, List.not_mem_nil, or_false] at hmem
        rcases hmem with h | h | h | h
        · exact hmarked _ 8 240 (by decide) (by decide) (by decide) h
        · exact hmarked _ 64 128 (by decide) (by decide) (by decide) h
        · exact hmarked _ 64 128 (by decide) (by decide) (by decide) h
        · exact hmarked _ 64 128 (by decide) (by decide) (by decide) h

/-- A text without the character NUL ends where the first zero behind it stands. -/
theorem takeWhile_utf8 {text : String} (h : '\x00' ∉ text.toList) (count : Nat) :
    (utf8 text ++ List.replicate count 0).takeWhile (· != 0) = utf8 text := by
  have hbytes : ∀ b ∈ utf8 text, (b != 0) = true := by
    intro b hb
    obtain ⟨c, hc, hmem⟩ := List.mem_flatMap.1 hb
    rw [bne_iff_ne]
    rintro rfl
    refine zero_notMem_encodeChar ?_ hmem
    rintro rfl
    exact h hc
  rw [List.takeWhile_append_of_pos hbytes]
  cases count with
  | zero => exact List.append_nil _
  | succ count =>
    rw [List.replicate_succ, List.takeWhile_cons_of_neg (by decide), List.append_nil]

end Text

namespace Scalar

/-- A scalar comes back from its bits, unless it is a character outside of ASCII. -/
theorem ofBits?_bits {s : Scalar} (h : s.wideChar? = none) :
    ofBits? s.primitive s.bits = some s := by
  cases s with
  | bool b => cases b <;> rfl
  | char c =>
    simp only [wideChar?] at h
    split at h
    next hascii =>
      simp only [primitive, bits, ofBits?, if_pos hascii, Char.ofNat_toNat]
    next => cases h
  | octet n => simp [primitive, bits, ofBits?]
  | int8 n => simp [primitive, bits, ofBits?]
  | int16 n => simp [primitive, bits, ofBits?]
  | uint16 n => simp [primitive, bits, ofBits?]
  | int32 n => simp [primitive, bits, ofBits?]
  | uint32 n => simp [primitive, bits, ofBits?]
  | int64 n => simp [primitive, bits, ofBits?]
  | uint64 n => simp [primitive, bits, ofBits?]
  | float32 n => simp [primitive, bits, ofBits?]
  | float64 n => simp [primitive, bits, ofBits?]

theorem bits_lt {s : Scalar} (h : s.wideChar? = none) :
    s.bits < 1 <<< (8 * s.primitive.size) := by
  cases s with
  | bool b => cases b <;> decide
  | char c =>
    simp only [wideChar?] at h
    split at h
    next hascii => exact Nat.lt_trans hascii (show 0x80 < 0x100 by decide)
    next => cases h
  | octet n => exact n.toNat_lt
  | int8 n => exact n.toUInt8.toNat_lt
  | int16 n => exact n.toUInt16.toNat_lt
  | uint16 n => exact n.toNat_lt
  | int32 n => exact n.toUInt32.toNat_lt
  | uint32 n => exact n.toNat_lt
  | int64 n => exact n.toUInt64.toNat_lt
  | uint64 n => exact n.toNat_lt
  | float32 n => exact n.toNat_lt
  | float64 n => exact n.toNat_lt

end Scalar

namespace Encoding

/-- A scalar comes back from its bytes. -/
theorem readScalar_scalarBytes (e : Encoding) {s : Scalar} (h : s.wideChar? = none) :
    e.readScalar s.primitive (e.scalarBytes s) = .ok s := by
  simp only [readScalar, scalarBytes, ByteOrder.decode_encode e.order (Scalar.bits_lt h),
    Scalar.ofBits?_bits h]

theorem decode_wordBytes (e : Encoding) {n : Nat} (h : n < 0x100000000) :
    e.order.decode (e.wordBytes n) = n :=
  ByteOrder.decode_encode e.order h

end Encoding

namespace Scalar

/-- A number without a sign as its bits. -/
theorem toNat_toUInt64_of_nonneg {d : Int64} (h : 0 ≤ d.toInt) :
    (d.toUInt64.toNat : Int) = d.toInt := by
  rw [Int64.toNat_toUInt64_of_le (Int64.le_iff_toInt_le.2 h)]
  exact Int.toNat_of_nonneg h

theorem toInt64_eq {u : UInt64} {d : Int64} (h : u.toNat = d.toUInt64.toNat) : u.toInt64 = d := by
  have hbits : u = d.toUInt64 := UInt64.toNat_inj.1 h
  rw [hbits, Int64.toInt64_toUInt64]

/-- The scalar that stands for a discriminator stands for no other. -/
theorem discriminator?_of_ofDiscriminator? {p : Primitive} {d : Int64} {s : Scalar}
    (h : ofDiscriminator? p d = some s) : s.discriminator? = some d := by
  have hlimits : ∀ {low high : Int} {t : Scalar},
      (if low ≤ d.toInt ∧ d.toInt ≤ high then some t else none) = some s →
        t = s ∧ low ≤ d.toInt ∧ d.toInt ≤ high := by
    intro low high t ht
    split at ht
    next hrange => exact ⟨Option.some.inj ht, hrange⟩
    next => cases ht
  cases p with
  | bool =>
    obtain ⟨rfl, hlow, hhigh⟩ := hlimits h
    by_cases hone : d = 1
    · simp [discriminator?, hone]
    · have hzero : d = 0 := by
        apply Int64.toInt_inj.1
        have hne : d.toInt ≠ 1 := fun heq => hone (Int64.toInt_inj.1 heq)
        show d.toInt = 0
        omega
      simp [discriminator?, hzero]
  | char =>
    obtain ⟨rfl, hlow, hhigh⟩ := hlimits h
    have hvalid : d.toInt.toNat.isValidChar := .inl (by omega)
    have hchar : (Char.ofNat d.toInt.toNat).toNat = d.toInt.toNat := by
      rw [Char.ofNat, dif_pos hvalid]
      rfl
    refine congrArg some (Int64.toInt_inj.1 ?_)
    rw [hchar, Int64.toInt_ofNat_of_lt (by omega)]
    exact Int.toNat_of_nonneg hlow
  | octet =>
    obtain ⟨rfl, hlow, hhigh⟩ := hlimits h
    have hbits := toNat_toUInt64_of_nonneg hlow
    refine congrArg some (toInt64_eq ?_)
    show d.toUInt64.toNat % 256 = d.toUInt64.toNat
    omega
  | uint16 =>
    obtain ⟨rfl, hlow, hhigh⟩ := hlimits h
    have hbits := toNat_toUInt64_of_nonneg hlow
    refine congrArg some (toInt64_eq ?_)
    show d.toUInt64.toNat % 65536 = d.toUInt64.toNat
    omega
  | uint32 =>
    obtain ⟨rfl, hlow, hhigh⟩ := hlimits h
    have hbits := toNat_toUInt64_of_nonneg hlow
    refine congrArg some (toInt64_eq ?_)
    show d.toUInt64.toNat % 4294967296 = d.toUInt64.toNat
    omega
  | int8 =>
    obtain ⟨rfl, hlow, hhigh⟩ := hlimits h
    refine congrArg some (Int64.toInt_inj.1 ?_)
    rw [Int8.toInt_toInt64, Int64.toInt_toInt8]
    exact Int.bmod_eq_of_le hlow (by omega)
  | int16 =>
    obtain ⟨rfl, hlow, hhigh⟩ := hlimits h
    refine congrArg some (Int64.toInt_inj.1 ?_)
    rw [Int16.toInt_toInt64, Int64.toInt_toInt16]
    exact Int.bmod_eq_of_le hlow (by omega)
  | int32 =>
    obtain ⟨rfl, hlow, hhigh⟩ := hlimits h
    refine congrArg some (Int64.toInt_inj.1 ?_)
    rw [Int32.toInt_toInt64, Int64.toInt_toInt32]
    exact Int.bmod_eq_of_le hlow (by omega)
  | int64 =>
    cases h
    rfl
  | uint64 =>
    cases h
    exact congrArg some (Int64.toInt64_toUInt64 d)
  | float32 => cases h
  | float64 => cases h

end Scalar

/-- A discriminator comes back from the value that stands for it. -/
theorem discriminatorOf?_of_discriminatorValue {n : Nat} {m : Member n} {d : Int64} {disc : Value}
    (h : discriminatorValue m d = .ok disc) : discriminatorOf? disc = some d := by
  unfold discriminatorValue at h
  split at h
  next p htype =>
    split at h
    next =>
      split at h
      next s hs =>
        cases h
        exact Scalar.discriminator?_of_ofDiscriminator? hs
      next => cases h
    next => cases h
  next i htype =>
    split at h
    next hrange =>
      cases h
      refine congrArg some (Int64.toInt_inj.1 ?_)
      rw [Int32.toInt_toInt64, Int64.toInt_toInt32]
      exact Int.bmod_eq_of_le hrange.1 (by omega)
    next => cases h
  next => cases h

end Cdr
