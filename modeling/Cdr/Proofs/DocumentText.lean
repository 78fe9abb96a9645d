import Cdr.Proofs.JsonText
import Cdr.Schema.DocumentJson
import Mathlib.Data.List.Nodup
import Mathlib.Data.List.TakeWhile

/-! # The text of a document

A document that is written as text is read back as it was. Every record is written with all of its
keys, each once, so that reading it depends on no default; numbers, texts and words are read back as
what they are of.
-/

namespace Cdr

namespace Json

/-! ## Numbers -/

theorem ofWord?_of_number {cs : List Char} (h : isUnsignedNumber (unsigned cs).2 = true) :
    Token.ofWord? cs = some (.number (String.ofList cs)) := by
  unfold Token.ofWord?
  rw [if_neg, if_neg, if_neg, if_pos h]
  all_goals
    rintro rfl
    exact absurd h (by decide)

theorem isDigit_of_mem_toDigits {n : Nat} {c : Char} (h : c ∈ Nat.toDigits 10 n) :
    c.isDigit = true :=
  Nat.isDigit_of_mem_toDigits (by decide) (by decide) h

theorem unsigned_toDigits (n : Nat) :
    unsigned (Nat.toDigits 10 n) = (false, Nat.toDigits 10 n) := by
  unfold unsigned
  split
  next digits heq =>
    have hminus : '-' ∈ Nat.toDigits 10 n := by
      rw [heq]
      exact List.mem_cons_self
    exact absurd (isDigit_of_mem_toDigits hminus) (by decide)
  next => rfl

/-- No zero leads the digits of a number above zero. -/
theorem head?_toDigits_ne {n : Nat} (h : 0 < n) : (Nat.toDigits 10 n).head? ≠ some '0' := by
  induction n using Nat.strongRecOn with
  | ind n ih =>
    rw [Nat.toDigits_eq_if (by decide)]
    split
    next => simpa using Nat.ne_of_gt h
    next hge =>
      rw [List.head?_append_of_ne_nil _ Nat.toDigits_ne_nil]
      exact ih (n / 10) (by omega) (by omega)

theorem isUnsignedNumber_toDigits (n : Nat) : isUnsignedNumber (Nat.toDigits 10 n) = true := by
  have hdigits : ∀ c ∈ Nat.toDigits 10 n, c.isDigit = true := fun c => isDigit_of_mem_toDigits
  have htake : (Nat.toDigits 10 n).takeWhile Char.isDigit = Nat.toDigits 10 n :=
    List.takeWhile_eq_self_iff.2 hdigits
  have hdrop : (Nat.toDigits 10 n).dropWhile Char.isDigit = [] :=
    List.dropWhile_eq_nil_iff.2 hdigits
  simp only [isUnsignedNumber, htake, hdrop, isNumberTail, Bool.and_true]
  cases hcs : Nat.toDigits 10 n with
  | nil => exact absurd hcs Nat.toDigits_ne_nil
  | cons d ds =>
    rcases Nat.eq_zero_or_pos n with rfl | hpos
    · rw [Nat.toDigits_zero] at hcs
      cases hcs
      rfl
    · have hlead := head?_toDigits_ne hpos
      rw [hcs] at hlead
      simpa using .inl fun hd => hlead (congrArg some hd)

theorem endsWord_of_isDigit {c : Char} (h : c.isDigit = true) : Scan.endsWord c = false := by
  unfold Scan.endsWord
  split
  next => rfl
  next hplace =>
    unfold Scan.fresh at hplace
    split at hplace
    all_goals first | exact absurd h (by decide) | exact absurd rfl (hplace _)

theorem toList_decimal (n : Nat) : (Text.decimal n).toList = Nat.toDigits 10 n :=
  String.toList_ofList

theorem toList_signedDecimal_negSucc (n : Nat) :
    (Text.signedDecimal (.negSucc n)).toList = '-' :: Nat.toDigits 10 (n + 1) := by
  simp [Text.signedDecimal, toList_decimal]

/-- An integer is written as a number, in digits behind a minus if need be. -/
theorem isNumber_signedDecimal (n : Int) : IsNumber (Text.signedDecimal n) := by
  have hdigits : ∀ n, ∀ c ∈ Nat.toDigits 10 n, Scan.endsWord c = false :=
    fun n c hc => endsWord_of_isDigit (isDigit_of_mem_toDigits hc)
  have hword : ∀ literal : String, isUnsignedNumber (unsigned literal.toList).2 = true →
      Token.ofWord? literal.toList = some (.number literal) := by
    intro literal h
    rw [ofWord?_of_number h, String.ofList_toList]
  cases n with
  | ofNat n =>
    refine ⟨hword _ ?_, ?_⟩
    · rw [Text.signedDecimal, toList_decimal, unsigned_toDigits]
      exact isUnsignedNumber_toDigits n
    · rw [Text.signedDecimal, toList_decimal]
      exact hdigits n
  | negSucc n =>
    refine ⟨hword _ ?_, ?_⟩
    · rw [toList_signedDecimal_negSucc]
      exact isUnsignedNumber_toDigits (n + 1)
    · rw [toList_signedDecimal_negSucc]
      exact List.forall_mem_cons.2 ⟨by decide, hdigits (n + 1)⟩

theorem int?_int (n : Int) : (int n).int? = some n := by
  have hall : ∀ n, (Nat.toDigits 10 n).all Char.isDigit = true :=
    fun n => List.all_eq_true.2 fun c hc => isDigit_of_mem_toDigits hc
  cases n with
  | ofNat n =>
    rw [int, int?, Text.signedDecimal, toList_decimal, unsigned_toDigits]
    simp [hall]
  | negSucc n =>
    rw [int, int?, toList_signedDecimal_negSucc]
    simp [unsigned, hall, Int.negSucc_eq]

theorem uint32?_nat (n : UInt32) : uint32? (nat n.toNat) = some n := by
  have hint : (nat n.toNat).int? = some (n.toNat : Int) := int?_int n.toNat
  have hrange : (0 : Int) ≤ n.toNat ∧ (n.toNat : Int) < 0x100000000 := by
    have hlt := n.toNat_lt
    omega
  rw [uint32?, hint, Option.bind_some, if_pos hrange, Int.toNat_natCast, UInt32.ofNat_toNat]

theorem int32?_int (n : Int32) : int32? (int n.toInt) = some n := by
  have hrange : -0x80000000 ≤ n.toInt ∧ n.toInt < 0x80000000 := ⟨n.le_toInt, n.toInt_lt⟩
  simp only [int32?, int?_int, Option.bind_some, if_pos hrange, Int32.ofInt_toInt]

theorem int64?_int (n : Int64) : int64? (int n.toInt) = some n := by
  have hrange : -0x8000000000000000 ≤ n.toInt ∧ n.toInt < 0x8000000000000000 :=
    ⟨n.le_toInt, n.toInt_lt⟩
  simp only [int64?, int?_int, Option.bind_some, if_pos hrange, Int64.ofInt_toInt]

theorem wellSpelled_int (n : Int) : (int n).WellSpelled :=
  .number (isNumber_signedDecimal n)

theorem wellSpelled_nat (n : Nat) : (nat n).WellSpelled :=
  wellSpelled_int n

/-! ## Records -/

section

variable {keys : List String} {vs : List Json}

theorem map_find?_zip (hkeys : keys.Nodup) (hlength : keys.length = vs.length) :
    (keys.map fun key => ((keys.zip vs).find? fun entry => entry.1 == key).map Prod.snd) =
      vs.map some := by
  induction keys generalizing vs with
  | nil =>
    cases vs with
    | nil => rfl
    | cons v vs => cases hlength
  | cons key keys ih =>
    cases vs with
    | nil => cases hlength
    | cons v vs =>
      obtain ⟨hkey, hrest⟩ := List.nodup_cons.1 hkeys
      rw [List.map_cons, List.map_cons, ← ih hrest (Nat.succ.inj hlength)]
      congr 1
      · simp
      · refine List.map_congr_left fun other hother => ?_
        have hne : (key == other) = false := by
          rw [beq_eq_false_iff_ne]
          rintro rfl
          exact hkey hother
        rw [List.zip_cons_cons, List.find?_cons, hne]

theorem length_filter_zip_le (hkeys : keys.Nodup) (hlength : keys.length = vs.length)
    (key : String) : ((keys.zip vs).filter fun entry => entry.1 == key).length ≤ 1 := by
  have hcount := List.nodup_iff_count_le_one.1 hkeys key
  rw [← List.map_fst_zip (Nat.le_of_eq hlength), List.count, List.countP_map,
    List.countP_eq_length_filter] at hcount
  exact hcount

/-- A record is read as the values it is written with. -/
theorem values?_record (hkeys : keys.Nodup) (hlength : keys.length = vs.length) :
    (record (keys.zip vs)).values? keys = some (vs.map some) := by
  have htexts : (((keys.zip vs).map fun entry => (some entry.1, entry.2)).all
      fun entry => entry.1.isSome) = true := by
    simp
  have honce : (keys.all fun key =>
      (((keys.zip vs).map fun entry => (some entry.1, entry.2)).filter
        fun entry => entry.1 == some key).length ≤ 1) = true := by
    rw [List.all_eq_true]
    intro key _
    rw [List.filter_map, List.length_map, decide_eq_true_iff]
    exact length_filter_zip_le hkeys hlength key
  simp only [record, values?, htexts, honce, Bool.and_self, if_true]
  rw [← map_find?_zip hkeys hlength]
  refine congrArg some (List.map_congr_left fun key _ => ?_)
  rw [List.find?_map, Option.map_map]
  rfl

theorem wellSpelled_record (h : ∀ v ∈ vs, v.WellSpelled) : (record (keys.zip vs)).WellSpelled := by
  refine .object fun entry hmem => ?_
  obtain ⟨pair, hpair, rfl⟩ := List.mem_map.1 hmem
  exact h pair.2 (List.of_mem_zip hpair).2

end

/-! ## Values that may be absent, and lists -/

section

variable {α : Type} {read : Json → Option α} {write : α → Json}

theorem nullable?_orNull (h : ∀ a, read (write a) = some a) (hnull : ∀ a, write a ≠ .null)
    (a : Option α) : nullable? read (orNull write a) = some a := by
  cases a with
  | none => rfl
  | some a =>
    unfold nullable? orNull
    split
    next heq => exact absurd heq (hnull a)
    next => rw [h, Option.map_some]

theorem listOf?_map (h : ∀ a, read (write a) = some a) (as : List α) :
    listOf? read (.array (as.map write)) = some as := by
  simp only [listOf?, List.mapM_map]
  induction as with
  | nil => rfl
  | cons a as ih => simp [h, ih]

theorem wellSpelled_orNull (h : ∀ a, (write a).WellSpelled) (a : Option α) :
    (orNull write a).WellSpelled := by
  cases a with
  | none => exact .null
  | some a => exact h a

theorem wellSpelled_list (h : ∀ a, (write a).WellSpelled) (as : List α) :
    (array (as.map write)).WellSpelled := by
  refine .array fun v hv => ?_
  obtain ⟨a, -, rfl⟩ := List.mem_map.1 hv
  exact h a

end

end Json

/-! ## Declarations -/

namespace Annotations

theorem ofJson?_toJson (a : Annotations) : ofJson? a.toJson = some a := by
  have hlabels := Json.listOf?_map Json.int64?_int a.labels
  have hcount := Json.nullable?_orNull Json.uint32?_nat fun _ => nofun
  have hvalues : a.toJson.values? keys = some _ := Json.values?_record (by decide) rfl
  simp only [ofJson?, hvalues, List.map_cons, List.map_nil, Json.orDefault?, Json.bool?, hlabels,
    hcount, Option.bind_eq_bind, Option.bind_some, Option.pure_def]

theorem wellSpelled_toJson (a : Annotations) : a.toJson.WellSpelled := by
  have hlabels := Json.wellSpelled_list (fun n : Int64 => Json.wellSpelled_int n.toInt) a.labels
  have hcount := Json.wellSpelled_orNull fun n : UInt32 => Json.wellSpelled_nat n.toNat
  refine Json.wellSpelled_record ?_
  simp only [List.forall_mem_cons]
  exact ⟨.bool, .bool, hlabels, .bool, .bool, hcount _, hcount _, nofun⟩

end Annotations

namespace FieldDecl

theorem ofJson?_toJson (f : FieldDecl) : ofJson? f.toJson = some f := by
  have hid := Json.nullable?_orNull Json.uint32?_nat (fun _ => nofun) f.id
  have hvalues : f.toJson.values? keys = some _ := Json.values?_record (by decide) rfl
  simp only [ofJson?, hvalues, List.map_cons, List.map_nil, Json.required?, Json.orDefault?,
    Json.text?, Json.text, hid, f.annotations.ofJson?_toJson, Option.bind_eq_bind, Option.bind_some,
    Option.pure_def]

theorem wellSpelled_toJson (f : FieldDecl) : f.toJson.WellSpelled := by
  have hid := Json.wellSpelled_orNull (fun n : UInt32 => Json.wellSpelled_nat n.toNat) f.id
  refine Json.wellSpelled_record ?_
  simp only [List.forall_mem_cons]
  exact ⟨.string, .string, hid, f.annotations.wellSpelled_toJson, nofun⟩

end FieldDecl

namespace Enumerator

theorem ofJson?_toJson (e : Enumerator) : ofJson? e.toJson = some e := by
  have hvalue := Json.nullable?_orNull Json.int32?_int (fun _ => nofun) e.value
  have hvalues : e.toJson.values? keys = some _ := Json.values?_record (by decide) rfl
  simp only [ofJson?, hvalues, List.map_cons, List.map_nil, Json.required?, Json.orDefault?,
    Json.text?, Json.text, hvalue, Option.bind_eq_bind, Option.bind_some, Option.pure_def]

theorem wellSpelled_toJson (e : Enumerator) : e.toJson.WellSpelled := by
  have hvalue := Json.wellSpelled_orNull (fun n : Int32 => Json.wellSpelled_int n.toInt) e.value
  refine Json.wellSpelled_record ?_
  simp only [List.forall_mem_cons]
  exact ⟨.string, hvalue, nofun⟩

end Enumerator

namespace TypeDecl

theorem ofJson?_toJson (t : TypeDecl) : ofJson? t.toJson = some t := by
  have hfields := Json.listOf?_map FieldDecl.ofJson?_toJson t.fields
  have henumerators := Json.listOf?_map Enumerator.ofJson?_toJson t.enumerators
  have hvalues : t.toJson.values? keys = some _ := Json.values?_record (by decide) rfl
  simp only [ofJson?, hvalues, List.map_cons, List.map_nil, Json.required?, Json.orDefault?,
    Json.text?, Json.text, Json.word?, Kind.ofWord?_word, Extensibility.ofWord?_word, hfields,
    henumerators, Option.bind_eq_bind, Option.bind_some, Option.pure_def]

theorem wellSpelled_toJson (t : TypeDecl) : t.toJson.WellSpelled := by
  have hfields := Json.wellSpelled_list FieldDecl.wellSpelled_toJson t.fields
  have henumerators := Json.wellSpelled_list Enumerator.wellSpelled_toJson t.enumerators
  refine Json.wellSpelled_record ?_
  simp only [List.forall_mem_cons]
  exact ⟨.string, .string, .string, .string, hfields, henumerators, nofun⟩

end TypeDecl

namespace Document

theorem ofJson?_toJson (doc : Document) : ofJson? doc.toJson = some doc := by
  have htypes := Json.listOf?_map TypeDecl.ofJson?_toJson doc.types
  have hvalues : doc.toJson.values? keys = some _ := Json.values?_record (by decide) rfl
  simp only [ofJson?, hvalues, List.map_cons, List.map_nil, Json.required?, htypes,
    Option.bind_eq_bind, Option.bind_some, Option.pure_def]

theorem wellSpelled_toJson (doc : Document) : doc.toJson.WellSpelled := by
  refine Json.wellSpelled_record ?_
  simp only [List.forall_mem_cons]
  exact ⟨Json.wellSpelled_list TypeDecl.wellSpelled_toJson doc.types, nofun⟩

/-- A document is read from any text of its JSON value, however it is laid out. -/
theorem parse_of_json {doc : Document} {text : String} (h : Json.parse? text = some doc.toJson) :
    parse text = .ok doc := by
  simp only [parse, h, Option.bind_some, ofJson?_toJson]

/-- Every document comes back from its text: any strings in it, any ids, bounds, case labels and
    values of enumerators, and what is absent. -/
theorem parse_render (doc : Document) : parse doc.render = .ok doc :=
  parse_of_json (Json.parse?_pretty doc.wellSpelled_toJson)

end Document

end Cdr
