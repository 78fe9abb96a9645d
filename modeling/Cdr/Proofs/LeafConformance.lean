import Cdr.Proofs.LeafRoundTrip
import Cdr.Wire.Reader

/-! # What texts, scalars and discriminators are read as

Bytes that are read as a text are the UTF-8 form of this text, so reading makes no text longer and
puts no NUL into it. A scalar is of the type it is read for, and ASCII if it is a character. A
discriminator that was read is one that can be written.
-/

namespace Cdr

namespace Text

/-- The bytes of a character by its number. -/
theorem encodeChar_ofNat {v : Nat} (h : v.isValidChar) :
    String.utf8EncodeChar (Char.ofNat v) =
      if v ≤ 0x7f then [UInt8.ofNat v]
      else if v ≤ 0x7ff then [UInt8.ofNat (v / 64 % 32 + 192), UInt8.ofNat (v % 64 + 128)]
      else if v ≤ 0xffff then
        [UInt8.ofNat (v / 4096 % 16 + 224), UInt8.ofNat (v / 64 % 64 + 128),
          UInt8.ofNat (v % 64 + 128)]
      else
        [UInt8.ofNat (v / 262144 % 8 + 240), UInt8.ofNat (v / 4096 % 64 + 128),
          UInt8.ofNat (v / 64 % 64 + 128), UInt8.ofNat (v % 64 + 128)] := by
  have hv : (Char.ofNat v).val.toNat = v := by
    rw [Char.ofNat, dif_pos h]
    rfl
  unfold String.utf8EncodeChar
  simp only [hv]

/-- A byte is the one with its number. -/
theorem ofNat_eq {n : Nat} {b : UInt8} (h : n = b.toNat) : UInt8.ofNat n = b := by
  rw [h, UInt8.ofNat_toNat]

theorem encodeChar_two {a b : UInt8} (hlow : 0xc2 ≤ a.toNat) (hhigh : a.toNat ≤ 0xdf)
    (hb : 0x80 ≤ b.toNat ∧ b.toNat ≤ 0xbf) :
    String.utf8EncodeChar (Char.ofNat ((a.toNat - 0xc0) * 64 + (b.toNat - 0x80))) = [a, b] := by
  have hvalid : ((a.toNat - 0xc0) * 64 + (b.toNat - 0x80)).isValidChar := .inl (by omega)
  rw [encodeChar_ofNat hvalid, if_neg (by omega), if_pos (by omega), ofNat_eq (b := a) (by omega),
    ofNat_eq (b := b) (by omega)]

/-- The limits of the second byte rule out surrogates and overlong forms. -/
theorem encodeChar_three {a b c : UInt8} (hlow : 0xe0 ≤ a.toNat) (hhigh : a.toNat ≤ 0xef)
    (hb : 0x80 ≤ b.toNat ∧ b.toNat ≤ 0xbf) (hc : 0x80 ≤ c.toNat ∧ c.toNat ≤ 0xbf)
    (hoverlong : a.toNat = 0xe0 → 0xa0 ≤ b.toNat) (hsurrogate : a.toNat = 0xed → b.toNat ≤ 0x9f) :
    String.utf8EncodeChar
      (Char.ofNat (((a.toNat - 0xe0) * 64 + (b.toNat - 0x80)) * 64 + (c.toNat - 0x80))) =
        [a, b, c] := by
  have hvalid : (((a.toNat - 0xe0) * 64 + (b.toNat - 0x80)) * 64 + (c.toNat - 0x80)).isValidChar := by
    by_cases h : a.toNat ≤ 0xed
    · exact .inl (by omega)
    · exact .inr ⟨by omega, by omega⟩
  rw [encodeChar_ofNat hvalid, if_neg (by omega), if_neg (by omega), if_pos (by omega),
    ofNat_eq (b := a) (by omega), ofNat_eq (b := b) (by omega), ofNat_eq (b := c) (by omega)]

/-- The limits of the second byte rule out overlong forms and what lies beyond the characters. -/
theorem encodeChar_four {a b c d : UInt8} (hlow : 0xf0 ≤ a.toNat) (hhigh : a.toNat ≤ 0xf4)
    (hb : 0x80 ≤ b.toNat ∧ b.toNat ≤ 0xbf) (hc : 0x80 ≤ c.toNat ∧ c.toNat ≤ 0xbf)
    (hd : 0x80 ≤ d.toNat ∧ d.toNat ≤ 0xbf)
    (hoverlong : a.toNat = 0xf0 → 0x90 ≤ b.toNat) (hbeyond : a.toNat = 0xf4 → b.toNat ≤ 0x8f) :
    String.utf8EncodeChar
      (Char.ofNat ((((a.toNat - 0xf0) * 64 + (b.toNat - 0x80)) * 64 + (c.toNat - 0x80)) * 64 +
        (d.toNat - 0x80))) = [a, b, c, d] := by
  have hvalid : ((((a.toNat - 0xf0) * 64 + (b.toNat - 0x80)) * 64 + (c.toNat - 0x80)) * 64 +
      (d.toNat - 0x80)).isValidChar := .inr ⟨by omega, by omega⟩
  rw [encodeChar_ofNat hvalid, if_neg (by omega), if_neg (by omega), if_neg (by omega),
    ofNat_eq (b := a) (by omega), ofNat_eq (b := b) (by omega), ofNat_eq (b := c) (by omega),
    ofNat_eq (b := d) (by omega)]

/-- What a first byte opens, by the count of bytes it asks for. -/
theorem openChar?_eq_some {start : Nat} {b : UInt8} {p : PartialChar}
    (h : openChar? start b = some p) :
    (0xc2 ≤ b ∧ b ≤ 0xdf ∧ p = ⟨start, 1, 1, b.toNat - 0xc0, 0x80, 0xbf⟩) ∨
    (0xe0 ≤ b ∧ b ≤ 0xef ∧ p = ⟨start, 1, 2, b.toNat - 0xe0, if b = 0xe0 then 0xa0 else 0x80,
      if b = 0xed then 0x9f else 0xbf⟩) ∨
    (0xf0 ≤ b ∧ b ≤ 0xf4 ∧ p = ⟨start, 1, 3, b.toNat - 0xf0, if b = 0xf0 then 0x90 else 0x80,
      if b = 0xf4 then 0x8f else 0xbf⟩) := by
  unfold openChar? at h
  split at h
  next hrange =>
    cases h
    exact .inl ⟨hrange.1, hrange.2, rfl⟩
  next =>
    split at h
    next hrange =>
      cases h
      exact .inr (.inl ⟨hrange.1, hrange.2, rfl⟩)
    next =>
      split at h
      next hrange =>
        cases h
        exact .inr (.inr ⟨hrange.1, hrange.2, rfl⟩)
      next => cases h

/-- What a limit from below says, which for one first byte is another than for the rest. -/
theorem toNat_of_lower {a b k low : UInt8} (hlow : 0x80 ≤ low)
    (h : (if a = k then low else 0x80) ≤ b) :
    0x80 ≤ b.toNat ∧ (a.toNat = k.toNat → low.toNat ≤ b.toNat) := by
  split at h
  next => exact ⟨UInt8.le_trans hlow h, fun _ => h⟩
  next hother => exact ⟨h, fun heq => absurd (UInt8.toNat_inj.1 heq) hother⟩

theorem toNat_of_upper {a b k high : UInt8} (hhigh : high ≤ 0xbf)
    (h : b ≤ (if a = k then high else 0xbf)) :
    b.toNat ≤ 0xbf ∧ (a.toNat = k.toNat → b.toNat ≤ high.toNat) := by
  split at h
  next => exact ⟨UInt8.le_trans h hhigh, fun _ => h⟩
  next hother => exact ⟨h, fun heq => absurd (UInt8.toNat_inj.1 heq) hother⟩

/-- Inside of a character a byte within its limits follows. -/
theorem readUtf8From_continue {bytes : List UInt8} {i : Nat} {p : PartialChar} {cs : List Char}
    (h : readUtf8From bytes i (some p) = .ok cs) :
    ∃ b bs, bytes = b :: bs ∧ p.low ≤ b ∧ b ≤ p.high := by
  cases bytes with
  | nil => cases h
  | cons b bs =>
    unfold readUtf8From at h
    split at h
    next hrange => exact ⟨b, bs, rfl, hrange.1, hrange.2⟩
    next => cases h

theorem readUtf8From_continue_next {bytes : List UInt8} {i : Nat} {p : PartialChar}
    {cs : List Char} (h : readUtf8From bytes i (some p) = .ok cs) (howed : p.owed ≠ 1) :
    ∃ b bs, bytes = b :: bs ∧ p.low ≤ b ∧ b ≤ p.high ∧
      readUtf8From bs (i + 1)
        (some ⟨p.start, p.seen + 1, p.owed - 1, p.bits * 64 + (b.toNat - 0x80), 0x80, 0xbf⟩) =
          .ok cs := by
  obtain ⟨b, bs, rfl, hlow, hhigh⟩ := readUtf8From_continue h
  rw [readUtf8From_next hlow hhigh howed] at h
  exact ⟨b, bs, rfl, hlow, hhigh, h⟩

theorem map_eq_ok {ε α β : Type} {f : α → β} {r : Except ε α} {b : β} (h : f <$> r = .ok b) :
    ∃ a, r = .ok a ∧ b = f a := by
  cases r with
  | error fault => cases h
  | ok a =>
    cases h
    exact ⟨a, rfl, rfl⟩

theorem readUtf8From_continue_last {bytes : List UInt8} {i : Nat} {p : PartialChar}
    {cs : List Char} (h : readUtf8From bytes i (some p) = .ok cs) (howed : p.owed = 1) :
    ∃ b bs rest, bytes = b :: bs ∧ p.low ≤ b ∧ b ≤ p.high ∧
      readUtf8From bs (i + 1) none = .ok rest ∧
      cs = Char.ofNat (p.bits * 64 + (b.toNat - 0x80)) :: rest := by
  obtain ⟨b, bs, rfl, hlow, hhigh⟩ := readUtf8From_continue h
  rw [readUtf8From_last hlow hhigh howed] at h
  obtain ⟨rest, hrest, rfl⟩ := map_eq_ok h
  exact ⟨b, bs, rest, rfl, hlow, hhigh, hrest, rfl⟩

/-- Bytes between two characters are none, or those of the character that is read first with
    others behind them. -/
theorem readUtf8From_eq_ok {bytes : List UInt8} {i : Nat} {cs : List Char}
    (h : readUtf8From bytes i none = .ok cs) :
    (bytes = [] ∧ cs = []) ∨
    ∃ c rest back j, cs = c :: rest ∧ bytes = String.utf8EncodeChar c ++ back ∧
      readUtf8From back j none = .ok rest := by
  cases bytes with
  | nil =>
    cases h
    exact .inl ⟨rfl, rfl⟩
  | cons a bs =>
    right
    unfold readUtf8From at h
    split at h
    next hascii =>
      obtain ⟨rest, hrest, rfl⟩ := map_eq_ok h
      have hlt : a.toNat < 0x80 := UInt8.lt_iff_toNat_lt.1 hascii
      refine ⟨_, rest, bs, _, rfl, ?_, hrest⟩
      rw [encodeChar_ofNat (.inl (by omega)), if_pos (by omega), UInt8.ofNat_toNat]
      rfl
    next =>
      split at h
      next p hopen =>
        rcases openChar?_eq_some hopen with ⟨hlow, hhigh, rfl⟩ | ⟨hlow, hhigh, rfl⟩ |
          ⟨hlow, hhigh, rfl⟩
        · obtain ⟨b, back, rest, rfl, hb, hb', hrest, rfl⟩ := readUtf8From_continue_last h rfl
          refine ⟨_, rest, back, _, rfl, ?_, hrest⟩
          rw [encodeChar_two hlow hhigh ⟨hb, hb'⟩]
          rfl
        · obtain ⟨b, bs, rfl, hb, hb', h⟩ := readUtf8From_continue_next h (Nat.succ_ne_self 1)
          obtain ⟨c, back, rest, rfl, hc, hc', hrest, rfl⟩ := readUtf8From_continue_last h rfl
          obtain ⟨hb, hoverlong⟩ := toNat_of_lower (by decide) hb
          obtain ⟨hb', hsurrogate⟩ := toNat_of_upper (by decide) hb'
          refine ⟨_, rest, back, _, rfl, ?_, hrest⟩
          rw [encodeChar_three hlow hhigh ⟨hb, hb'⟩ ⟨hc, hc'⟩ hoverlong hsurrogate]
          rfl
        · obtain ⟨b, bs, rfl, hb, hb', h⟩ := readUtf8From_continue_next h (Nat.succ_succ_ne_one 1)
          obtain ⟨c, bs, rfl, hc, hc', h⟩ := readUtf8From_continue_next h (Nat.succ_ne_self 1)
          obtain ⟨d, back, rest, rfl, hd, hd', hrest, rfl⟩ := readUtf8From_continue_last h rfl
          obtain ⟨hb, hoverlong⟩ := toNat_of_lower (by decide) hb
          obtain ⟨hb', hbeyond⟩ := toNat_of_upper (by decide) hb'
          refine ⟨_, rest, back, _, rfl, ?_, hrest⟩
          rw [encodeChar_four hlow hhigh ⟨hb, hb'⟩ ⟨hc, hc'⟩ ⟨hd, hd'⟩ hoverlong hbeyond]
          rfl
      next => cases h

/-- Bytes that are read as a text are its UTF-8 form. -/
theorem utf8_of_readUtf8 {bytes : List UInt8} {text : String} (h : readUtf8 bytes = .ok text) :
    utf8 text = bytes := by
  have hchars : ∀ (cs : List Char) (bytes : List UInt8) (i : Nat),
      readUtf8From bytes i none = .ok cs → cs.flatMap String.utf8EncodeChar = bytes := by
    intro cs
    induction cs with
    | nil =>
      intro bytes i h
      rcases readUtf8From_eq_ok h with ⟨rfl, -⟩ | ⟨c, rest, back, j, hcs, -, -⟩
      · rfl
      · cases hcs
    | cons c cs ih =>
      intro bytes i h
      rcases readUtf8From_eq_ok h with ⟨-, hcs⟩ | ⟨c, rest, back, j, hcs, rfl, hrest⟩
      · cases hcs
      · cases hcs
        rw [List.flatMap_cons, ih back j hrest]
  obtain ⟨cs, hcs, rfl⟩ := map_eq_ok h
  rw [utf8, String.toList_ofList]
  exact hchars cs bytes 0 hcs

/-- Reading makes no text longer than its bytes. -/
theorem utf8ByteSize_of_readUtf8 {bytes : List UInt8} {text : String}
    (h : readUtf8 bytes = .ok text) : text.utf8ByteSize = bytes.length := by
  rw [← utf8_of_readUtf8 h, length_utf8]

/-- Where no byte is zero, no character is NUL. -/
theorem nul_notMem_of_readUtf8 {bytes : List UInt8} {text : String} (h : readUtf8 bytes = .ok text)
    (hbytes : 0 ∉ bytes) : '\x00' ∉ text.toList := by
  intro hmem
  apply hbytes
  rw [← utf8_of_readUtf8 h]
  exact List.mem_flatMap.2 ⟨_, hmem, by decide⟩

end Text

namespace Scalar

/-- Bits never give a character outside of ASCII. -/
theorem wideChar?_of_ofBits? {p : Primitive} {n : Nat} {s : Scalar} (h : ofBits? p n = some s) :
    s.wideChar? = none := by
  cases p with
  | bool =>
    simp only [ofBits?] at h
    split at h
    · cases h
      rfl
    · split at h
      · cases h
        rfl
      · cases h
  | char =>
    simp only [ofBits?] at h
    split at h
    next hascii =>
      cases h
      have hchar : (Char.ofNat n).toNat = n := by
        rw [Char.ofNat, dif_pos (.inl (by omega))]
        rfl
      rw [wideChar?, hchar, if_pos hascii]
    next => cases h
  | _ =>
    cases h
    rfl

theorem wideChar?_zero (p : Primitive) : (zero p).wideChar? = none := by
  cases p <;> rfl

/-- The discriminator that an integer stands for is in the range of its type, which an ASCII
    character is, too. -/
theorem ofDiscriminator?_of_discriminator? {s : Scalar} {d : Int64} (hascii : s.wideChar? = none)
    (h : s.discriminator? = some d) : ∃ t, ofDiscriminator? s.primitive d = some t := by
  have hlimits : ∀ {low high : Int} {t : Scalar}, low ≤ d.toInt ∧ d.toInt ≤ high →
      ∃ u, (if low ≤ d.toInt ∧ d.toInt ≤ high then some t else none) = some u := by
    intro low high t hrange
    exact ⟨t, if_pos hrange⟩
  have hunsigned : ∀ {n : UInt64}, n.toNat < 0x100000000 → n.toInt64.toInt = n.toNat := by
    intro n hn
    have hnat := Int64.toInt_ofNat_of_lt (n := n.toNat) (by omega)
    rw [← hnat, ← UInt64.toInt64_ofNat', UInt64.ofNat_toNat]
  cases s with
  | bool b =>
    cases h
    apply hlimits
    cases b <;> decide
  | char c =>
    cases h
    simp only [wideChar?] at hascii
    split at hascii
    next hc =>
      apply hlimits
      rw [Int64.toInt_ofNat_of_lt (by omega)]
      omega
    next => cases hascii
  | octet n =>
    cases h
    have hn := n.toNat_lt
    apply hlimits
    rw [hunsigned (by rw [UInt8.toNat_toUInt64]; omega), UInt8.toNat_toUInt64]
    omega
  | uint16 n =>
    cases h
    have hn := n.toNat_lt
    apply hlimits
    rw [hunsigned (by rw [UInt16.toNat_toUInt64]; omega), UInt16.toNat_toUInt64]
    omega
  | uint32 n =>
    cases h
    have hn := n.toNat_lt
    apply hlimits
    rw [hunsigned (by rw [UInt32.toNat_toUInt64]; omega), UInt32.toNat_toUInt64]
    omega
  | int8 n =>
    cases h
    apply hlimits
    rw [Int8.toInt_toInt64]
    exact ⟨n.le_toInt, Int.le_of_lt_add_one n.toInt_lt⟩
  | int16 n =>
    cases h
    apply hlimits
    rw [Int16.toInt_toInt64]
    exact ⟨n.le_toInt, Int.le_of_lt_add_one n.toInt_lt⟩
  | int32 n =>
    cases h
    apply hlimits
    rw [Int32.toInt_toInt64]
    exact ⟨n.le_toInt, Int.le_of_lt_add_one n.toInt_lt⟩
  | int64 n => exact ⟨_, rfl⟩
  | uint64 n => exact ⟨_, rfl⟩
  | float32 n => cases h
  | float64 n => cases h

/-- A scalar for a discriminator is of the type that is asked for. -/
theorem primitive_of_ofDiscriminator? {p : Primitive} {d : Int64} {s : Scalar}
    (h : ofDiscriminator? p d = some s) : s.primitive = p := by
  have hlimits : ∀ {low high : Int} {t : Scalar},
      (if low ≤ d.toInt ∧ d.toInt ≤ high then some t else none) = some s → t = s := by
    intro low high t ht
    split at ht
    · exact Option.some.inj ht
    · cases ht
  cases p with
  | int64 =>
    cases h
    rfl
  | uint64 =>
    cases h
    rfl
  | float32 => cases h
  | float64 => cases h
  | _ =>
    obtain rfl := hlimits h
    rfl

theorem ofDiscriminator?_zero {p : Primitive} (h : p.isIntegral = true) :
    ∃ s, ofDiscriminator? p 0 = some s := by
  cases p with
  | float32 => cases h
  | float64 => cases h
  | _ => exact ⟨_, rfl⟩

end Scalar

end Cdr
