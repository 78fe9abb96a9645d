import Cdr.Proofs.BracketedText
import Cdr.Proofs.Validity

/-! # Type texts

A type text is read from its ends: the last character says which container stands outermost, and a
search for a bracket, not a grammar, says where its element ends. On the canonical text of a type
all these searches find the bracket that belongs there, so the text is read back as the type. The
names in a type that was read are such as can be read again, which makes the canonical text a normal
form.
-/

namespace Cdr

open Text Compile

namespace TypeExpr

/-- The names that types go by: words of letters, digits, underscores and dots of ASCII, maybe with
    blanks between them, that do not spell a string or the beginning of a fixed-size one. -/
structure IsName (name : String) : Prop where
  nonempty : name.toList ≠ []
  characters : ∀ c ∈ name.toList, c.isAlphanum = true ∨ c = '_' ∨ c = '.' ∨ c = ' '
  noBlankFirst : name.toList.head? ≠ some ' '
  noBlankLast : name.toList.getLast? ≠ some ' '
  noString : name ≠ "string" ∧ name ≠ "String"
  noFixedString : ¬"FixedString".toList <+: name.toList

/-- That everything that stands for a name in a tree is a name. -/
def Named : TypeExpr → Prop
  | named name => IsName name
  | string _ => True
  | fixedString _ => True
  | sequence element _ => element.Named
  | list element => element.Named
  | array element _ => element.Named
  | optional inner => inner.Named

theorem isName_iff {name : String} : IsName name ↔
    (name.toList ≠ [] ∧ name.toList.all isNameChar = true ∧ name.toList.head? ≠ some ' ' ∧
      name.toList.getLast? ≠ some ' ' ∧ (name ≠ "string" ∧ name ≠ "String") ∧
      "FixedString".toList.isPrefixOf name.toList = false) := by
  rw [List.all_eq_true, Bool.eq_false_iff, ne_eq ("FixedString".toList.isPrefixOf _),
    List.isPrefixOf_iff_prefix]
  simp only [isNameChar, Bool.or_eq_true, beq_iff_eq, or_assoc]
  constructor
  · rintro ⟨h₁, h₂, h₃, h₄, h₅, h₆⟩
    exact ⟨h₁, h₂, h₃, h₄, h₅, h₆⟩
  · rintro ⟨h₁, h₂, h₃, h₄, h₅, h₆⟩
    exact ⟨h₁, h₂, h₃, h₄, h₅, h₆⟩

instance (name : String) : Decidable (IsName name) :=
  decidable_of_iff _ isName_iff.symm

instance decidableNamed : (t : TypeExpr) → Decidable t.Named
  | named name => inferInstanceAs (Decidable (IsName name))
  | string _ => .isTrue trivial
  | fixedString _ => .isTrue trivial
  | sequence element _ => decidableNamed element
  | list element => decidableNamed element
  | array element _ => decidableNamed element
  | optional inner => decidableNamed inner

variable {cs ds inside : List Char} {t : TypeExpr} {name : String}

/-! ## The shape of a canonical text -/

/-- A text without blanks at its ends and with matching brackets. -/
structure Written (cs : List Char) : Prop extends Trimmed cs where
  closed : Closed 0 cs

theorem Written.append (h : Written cs) (hclosed : Closed 0 ds)
    (hlast : ∃ c, ds.getLast? = some c ∧ isBlank c = false) : Written (cs ++ ds) :=
  ⟨h.toTrimmed.append hlast, h.closed.append hclosed⟩

theorem isBlank_of_isAlphanum {c : Char} (h : c.isAlphanum = true) : isBlank c = false := by
  have hcode : ((0x41 ≤ c.toNat ∧ c.toNat ≤ 0x5a) ∨ (0x61 ≤ c.toNat ∧ c.toNat ≤ 0x7a)) ∨
      (0x30 ≤ c.toNat ∧ c.toNat ≤ 0x39) := by
    have hranges : ((decide ('A'.val ≤ c.val ∧ c.val ≤ 'Z'.val) ||
        (decide ('a'.val ≤ c.val) && decide (c.val ≤ 'z'.val))) ||
        (decide ('0'.val ≤ c.val) && decide (c.val ≤ '9'.val))) = true := h
    simp only [Bool.or_eq_true, Bool.and_eq_true, decide_eq_true_eq, UInt32.le_iff_toNat_le]
      at hranges
    exact hranges
  rw [isBlank, List.any_eq_false]
  simp only [blankRanges, List.forall_mem_cons, Bool.and_eq_true, decide_eq_true_eq,
    List.not_mem_nil, IsEmpty.forall_iff, implies_true, and_true]
  omega

/-- Of the characters of a name only the blank is blank. -/
theorem IsName.isBlank_of_ne (h : IsName name) {c : Char} (hc : c ∈ name.toList) (hne : c ≠ ' ') :
    isBlank c = false := by
  rcases h.characters c hc with hword | rfl | rfl | hblank
  · exact isBlank_of_isAlphanum hword
  · decide
  · decide
  · exact absurd hblank hne

theorem isInner_of_isAlphanum {c : Char} (h : c.isAlphanum = true) : IsInner 0 c := by
  refine ⟨?_, ?_, ?_, ?_, ?_⟩ <;> rintro rfl <;> exact absurd h (by decide)

theorem IsName.isInner (h : IsName name) {c : Char} (hc : c ∈ name.toList) : IsInner 0 c := by
  rcases h.characters c hc with hword | rfl | rfl | rfl
  · exact isInner_of_isAlphanum hword
  all_goals decide

theorem IsName.written (h : IsName name) : Written name.toList := by
  obtain ⟨c, hc⟩ : ∃ c, name.toList.head? = some c := ⟨_, List.head?_eq_some_head h.nonempty⟩
  obtain ⟨d, hd⟩ : ∃ d, name.toList.getLast? = some d :=
    ⟨_, List.getLast?_eq_some_getLast h.nonempty⟩
  have hfirst : c ≠ ' ' := fun heq => h.noBlankFirst (heq ▸ hc)
  have hlast : d ≠ ' ' := fun heq => h.noBlankLast (heq ▸ hd)
  exact { first := ⟨c, hc, h.isBlank_of_ne (List.mem_of_head? hc) hfirst⟩
          last := ⟨d, hd, h.isBlank_of_ne (List.mem_of_getLast? hd) hlast⟩
          closed := closed_of_inner fun _ => h.isInner }

/-! ## Lengths -/

/-- A length as its digits. -/
def digits (n : UInt32) : List Char :=
  Nat.toDigits 10 n.toNat

theorem isDigit_of_mem_digits {n : UInt32} {c : Char} (h : c ∈ digits n) : c.isDigit = true :=
  Nat.isDigit_of_mem_toDigits (by decide) (by decide) h

theorem isAlphanum_of_mem_digits {n : UInt32} {c : Char} (h : c ∈ digits n) :
    c.isAlphanum = true := by
  show (c.isAlpha || c.isDigit) = true
  rw [isDigit_of_mem_digits h, Bool.or_true]

theorem written_of_isAlphanum (hne : cs ≠ []) (h : ∀ c ∈ cs, c.isAlphanum = true) :
    Written cs where
  toTrimmed := trimmed_of_forall hne fun c hc => isBlank_of_isAlphanum (h c hc)
  closed := closed_of_inner fun c hc => isInner_of_isAlphanum (h c hc)

/-- The words that call containers. -/
theorem written_word {word : String} (hne : word.toList ≠ [])
    (h : word.toList.all Char.isAlphanum = true) : Written word.toList :=
  written_of_isAlphanum hne (List.all_eq_true.1 h)

theorem written_digits (n : UInt32) : Written (digits n) :=
  written_of_isAlphanum (by simp [digits]) fun _ => isAlphanum_of_mem_digits

theorem notMem_digits {n : UInt32} {c : Char} (hc : c.isDigit = false) : c ∉ digits n := by
  intro h
  rw [isDigit_of_mem_digits h] at hc
  cases hc

theorem readLength_digits (n : UInt32) : readLength (digits n) = .ok n := by
  have hplus : ∀ rest, digits n ≠ '+' :: rest := by
    intro rest h
    exact absurd (h ▸ List.mem_cons_self : '+' ∈ digits n) (notMem_digits (by decide))
  have hlt : n.toNat < 0x100000000 := n.toNat_lt
  have hcount : readCount? (digits n) = some n := by
    unfold readCount?
    split
    next rest h => exact absurd h (hplus rest)
    next => simp [digits, readDecimal?_toDigits, hlt]
  rw [readLength, (written_digits n).trimChars_eq, hcount]

/-! ## Canonical texts -/

/-- The text of a container that is called by a word. -/
def generic (head inside : List Char) : List Char :=
  head ++ ('<' :: (inside ++ ['>']))

theorem written_generic {head : List Char} (hhead : Written head) (hinside : Closed 1 inside) :
    Written (generic head inside) :=
  hhead.append (closed_brackets (.inl rfl) (.inl rfl) hinside)
    ⟨'>', by rw [← List.cons_append, List.getLast?_concat], by decide⟩

theorem closed_bounded (h : Written cs) (n : UInt32) :
    Closed 1 (cs ++ (',' :: ' ' :: digits n)) := by
  refine h.closed.inside.append (closed_of_inner ?_)
  simp only [List.forall_mem_cons]
  refine ⟨by decide, by decide, fun c hc => ?_⟩
  obtain ⟨h₁, h₂, h₃, h₄, -⟩ := isInner_of_isAlphanum (isAlphanum_of_mem_digits hc)
  exact ⟨h₁, h₂, h₃, h₄, fun _ => Nat.one_pos⟩

/-- The characters of the canonical text. -/
def chars : TypeExpr → List Char
  | named name => name.toList
  | string none => "string".toList
  | string (some bound) => generic "string".toList (digits bound)
  | fixedString capacity => generic "fixed_string".toList (digits capacity)
  | sequence element none => generic "sequence".toList element.chars
  | sequence element (some bound) =>
    generic "sequence".toList (element.chars ++ (',' :: ' ' :: digits bound))
  | list element => generic "List".toList element.chars
  | array element length => element.chars ++ ('[' :: (digits length ++ [']']))
  | optional inner => inner.chars ++ ['?']

theorem toList_render (t : TypeExpr) : t.render.toList = t.chars := by
  have hdigits : ∀ n : UInt32, (decimal n.toNat).toList = digits n := fun n => String.toList_ofList
  induction t with
  | named name => rfl
  | string bound => cases bound <;> simp [render, chars, generic, hdigits]
  | fixedString n => simp [render, chars, generic, hdigits]
  | sequence element bound ih => cases bound <;> simp [render, chars, generic, hdigits, ih]
  | list element ih => simp [render, chars, generic, ih]
  | array element n ih => simp [render, chars, hdigits, ih]
  | optional inner ih => simp [render, chars, ih]

theorem written_string : Written "string".toList :=
  written_word (by decide) (by decide)

theorem written_sequence : Written "sequence".toList :=
  written_word (by decide) (by decide)

theorem written_list : Written "List".toList :=
  written_word (by decide) (by decide)

theorem written_fixedString : Written "fixed_string".toList where
  first := ⟨'f', by decide, by decide⟩
  last := ⟨'g', by decide, by decide⟩
  closed := by
    have hall : "fixed_string".toList.all (IsInner 0 ·) = true := by decide
    exact closed_of_inner fun c hc => of_decide_eq_true (List.all_eq_true.1 hall c hc)

theorem written_chars (h : t.Named) : Written t.chars := by
  induction t with
  | named name => exact IsName.written h
  | string bound =>
    cases bound with
    | none => exact written_string
    | some n => exact written_generic written_string (written_digits n).closed.inside
  | fixedString n => exact written_generic written_fixedString (written_digits n).closed.inside
  | sequence element bound ih =>
    have helement := ih h
    cases bound with
    | none => exact written_generic written_sequence helement.closed.inside
    | some n => exact written_generic written_sequence (closed_bounded helement n)
  | list element ih => exact written_generic written_list (ih h).closed.inside
  | array element n ih =>
    exact (ih h).append (closed_brackets (.inr rfl) (.inr rfl) (written_digits n).closed.inside)
      ⟨']', by rw [← List.cons_append, List.getLast?_concat], by decide⟩
  | optional inner ih =>
    exact (ih h).append (closed_of_inner (List.forall_mem_singleton.2 (by decide)))
      ⟨'?', by simp, by decide⟩

/-! ## Reading a canonical text -/

/-- The blanks around a text are left out before anything else is looked at. -/
theorem parseWithin_congr {limit : Nat} (h : trimChars cs = trimChars ds) :
    parseWithin limit cs = parseWithin limit ds := by
  cases limit with
  | zero => rfl
  | succ limit => simp only [parseWithin, h]

theorem parseWithin_optional (limit : Nat) (cs : List Char) :
    parseWithin (limit + 1) (cs ++ ['?']) =
      (do let inner ← parseWithin limit cs; return optional inner) := by
  have hrev : (trimChars (cs ++ ['?'])).reverse = '?' :: (cs.dropWhile isBlank).reverse := by
    rw [trimChars_concat (by decide), List.reverse_append]
    rfl
  rw [← parseWithin_congr (trimChars_dropWhile cs)]
  simp only [parseWithin, hrev, List.reverse_reverse]

/-- The last opening bracket is the one in front of the length, as there is none in a length. -/
theorem parseWithin_array (limit : Nat) (cs : List Char) {length : List Char} {n : UInt32}
    (hread : readLength length = .ok n) (hopen : '[' ∉ length) :
    parseWithin (limit + 1) (cs ++ ('[' :: (length ++ [']']))) =
      (do let element ← parseWithin limit cs; return array element n) := by
  have hrev : (trimChars (cs ++ ('[' :: (length ++ [']'])))).reverse =
      ']' :: (length.reverse ++ '[' :: (cs.dropWhile isBlank).reverse) := by
    rw [← List.cons_append, ← List.append_assoc, trimChars_concat (by decide),
      dropWhile_isBlank_append (by decide)]
    simp
  have hopen' : '[' ∉ length.reverse := fun h => hopen (List.mem_reverse.1 h)
  rw [← parseWithin_congr (trimChars_dropWhile cs)]
  simp only [parseWithin, hrev, splitFirst_append hopen', List.reverse_reverse, hread]
  rfl

/-- The first angle bracket is the one behind the word that calls the container. -/
theorem parseWithin_generic (limit : Nat) {head : List Char} {word : String}
    {arguments : List (List Char)} (hhead : trimChars head = word.toList) (hopen : '<' ∉ head)
    (harguments : splitArguments inside = .ok arguments) :
    parseWithin (limit + 1) (generic head inside) =
      ofGeneric (parseWithin limit) word arguments := by
  have hrev : (trimChars (generic head inside)).reverse =
      '>' :: (head.dropWhile isBlank ++ '<' :: inside).reverse := by
    rw [generic, ← List.cons_append, ← List.append_assoc, trimChars_concat (by decide),
      dropWhile_isBlank_append (by decide)]
    simp
  have hopen' : '<' ∉ head.dropWhile isBlank :=
    fun h => hopen ((List.dropWhile_sublist _).mem h)
  simp only [parseWithin, hrev, List.reverse_reverse, splitFirst_append hopen', harguments,
    trimChars_dropWhile, hhead, String.ofList_toList]
  rfl

/-- Without a suffix that a container would have, a text is taken for a word. -/
theorem parseWithin_word (limit : Nat) (h : Written cs) (hquestion : cs.getLast? ≠ some '?')
    (hsquare : cs.getLast? ≠ some ']') (hangle : cs.getLast? ≠ some '>') :
    parseWithin (limit + 1) cs = ofWord cs := by
  obtain ⟨c, hc, -⟩ := h.last
  obtain ⟨rev, hrev⟩ := List.head?_eq_some_iff.1 ((List.head?_reverse).trans hc)
  rw [hc] at hquestion hsquare hangle
  simp only [parseWithin, h.trimChars_eq, hrev]
  split
  next heq => cases heq
  next heq => exact absurd (congrArg some (List.cons.inj heq).1) hquestion
  next heq => exact absurd (congrArg some (List.cons.inj heq).1) hsquare
  next heq => exact absurd (congrArg some (List.cons.inj heq).1) hangle
  next => rfl

theorem IsName.ofWord (h : IsName name) : TypeExpr.ofWord name.toList = .ok (named name) := by
  obtain ⟨-, hall, -, -, ⟨hstring, hstring'⟩, hprefix⟩ := isName_iff.1 h
  have hfixed : fixedStringLength? name.toList = none := by
    rw [fixedStringLength?, hprefix]
    rfl
  simp only [TypeExpr.ofWord, String.ofList_toList, if_neg (not_or.2 ⟨hstring, hstring'⟩), hfixed,
    hall, if_true]

theorem IsName.parseWithin (h : IsName name) (limit : Nat) :
    TypeExpr.parseWithin (limit + 1) name.toList = .ok (named name) := by
  have hlast : ∀ c, isNameChar c = false → name.toList.getLast? ≠ some c := by
    intro c hc heq
    have hall := (isName_iff.1 h).2.1
    rw [List.all_eq_true.1 hall c (List.mem_of_getLast? heq)] at hc
    cases hc
  rw [parseWithin_word limit h.written (hlast _ rfl) (hlast _ rfl) (hlast _ rfl), h.ofWord]

/-- The canonical text of a type is read back as the type. -/
theorem parseWithin_chars {limit : Nat} (h : t.Named) (hlimit : t.chars.length ≤ limit) :
    parseWithin limit t.chars = .ok t := by
  induction limit generalizing t with
  | zero =>
    exact absurd (List.eq_nil_of_length_eq_zero (Nat.le_zero.1 hlimit)) (written_chars h).ne_nil
  | succ limit ih =>
    have hwritten := written_chars h
    have hdigits : ∀ n, splitArguments (digits n) = .ok [digits n] := by
      intro n
      rw [splitArguments_one (written_digits n).closed, (written_digits n).trimChars_eq]
    cases t with
    | named name => exact IsName.parseWithin h limit
    | string bound =>
      cases bound with
      | none => exact parseWithin_word limit hwritten (by decide) (by decide) (by decide)
      | some n =>
        refine (parseWithin_generic limit written_string.trimChars_eq (by decide)
          (hdigits n)).trans ?_
        simp [ofGeneric, readLength_digits]
    | fixedString n =>
      refine (parseWithin_generic limit written_fixedString.trimChars_eq (by decide)
        (hdigits n)).trans ?_
      simp [ofGeneric, readLength_digits]
    | sequence element bound =>
      have helement : Written element.chars := written_chars h
      have hread : element.chars.length ≤ limit → parseWithin limit element.chars = .ok element :=
        fun hshort => ih h hshort
      cases bound with
      | none =>
        refine (parseWithin_generic limit written_sequence.trimChars_eq (by decide)
          (splitArguments_one helement.closed)).trans ?_
        simp only [chars, generic, List.length_append, List.length_cons] at hlimit
        simp [helement.trimChars_eq, ofGeneric, hread (by omega)]
      | some n =>
        have hclosed : Closed 0 (' ' :: digits n) :=
          closed_of_inner (List.forall_mem_cons.2 ⟨by decide, fun _ hc =>
            isInner_of_isAlphanum (isAlphanum_of_mem_digits hc)⟩)
        have hbound : trimChars (' ' :: digits n) = digits n := by
          rw [trimChars_cons (by decide), (written_digits n).trimChars_eq]
        refine (parseWithin_generic limit written_sequence.trimChars_eq (by decide)
          (splitArguments_two helement.closed hclosed)).trans ?_
        simp only [chars, generic, List.length_append, List.length_cons] at hlimit
        simp [helement.trimChars_eq, hbound, ofGeneric, hread (by omega), readLength_digits]
        rfl
    | list element =>
      have helement : Written element.chars := written_chars h
      refine (parseWithin_generic limit written_list.trimChars_eq (by decide)
        (splitArguments_one helement.closed)).trans ?_
      simp only [chars, generic, List.length_append, List.length_cons] at hlimit
      have hread : parseWithin limit element.chars = .ok element := ih h (by omega)
      simp [helement.trimChars_eq, ofGeneric, hread]
    | array element n =>
      refine (parseWithin_array limit element.chars (readLength_digits n)
        (notMem_digits (by decide))).trans ?_
      simp only [chars, List.length_append, List.length_cons] at hlimit
      have hread : parseWithin limit element.chars = .ok element := ih h (by omega)
      rw [hread]
      rfl
    | optional inner =>
      refine (parseWithin_optional limit inner.chars).trans ?_
      simp only [chars, List.length_append, List.length_cons] at hlimit
      have hread : parseWithin limit inner.chars = .ok inner := ih h (by omega)
      rw [hread]
      rfl

/-! ## What is read -/

/-- A word of the right characters without blanks at its ends is a name, once it is known to be
    neither kind of string. -/
theorem isName_of_trimmed (hcs : Trimmed cs) (hall : cs.all isNameChar = true)
    (hstring : ¬(String.ofList cs = "string" ∨ String.ofList cs = "String"))
    (hfixed : fixedStringLength? cs = none) : IsName (String.ofList cs) := by
  obtain ⟨c, hc, hfirst⟩ := hcs.first
  obtain ⟨d, hd, hlast⟩ := hcs.last
  have htext : (String.ofList cs).toList = cs := String.toList_ofList
  rw [isName_iff, htext]
  refine ⟨hcs.ne_nil, hall, ?_, ?_, not_or.1 hstring, ?_⟩
  · rw [hc]
    rintro ⟨⟩
    exact absurd hfirst (by decide)
  · rw [hd]
    rintro ⟨⟩
    exact absurd hlast (by decide)
  · rw [Bool.eq_false_iff]
    intro hprefix
    rw [fixedStringLength?, if_pos hprefix] at hfixed
    cases hfixed

theorem named_of_ofWord (hcs : Trimmed cs) (h : ofWord cs = .ok t) : t.Named := by
  unfold ofWord at h
  split at h
  next =>
    cases h
    trivial
  next hstring =>
    split at h
    next =>
      obtain ⟨capacity, -, hresult⟩ := bind_eq_ok_iff.1 h
      cases hresult
      trivial
    next hfixed =>
      split at h
      next hall =>
        cases h
        exact isName_of_trimmed hcs hall hstring hfixed
      next => cases h

/-- A container holds what is read among its arguments, or only a length. -/
theorem named_of_ofGeneric {parse : List Char → Except Fault TypeExpr}
    (hparse : ∀ {text inner}, parse text = .ok inner → inner.Named) {head : String}
    {arguments : List (List Char)} (h : ofGeneric parse head arguments = .ok t) : t.Named := by
  have hinner : ∀ {text : List Char} {container : TypeExpr → TypeExpr},
      (do let inner ← parse text; return container inner) = .ok t →
      (∀ inner, (container inner).Named = inner.Named) → t.Named := by
    intro text container h hcontainer
    obtain ⟨inner, hinner, hresult⟩ := bind_eq_ok_iff.1 h
    cases hresult
    exact (hcontainer inner).mpr (hparse hinner)
  have hlength : ∀ {text : List Char} {container : UInt32 → TypeExpr},
      (do let n ← readLength text; return container n) = .ok t → (∀ n, (container n).Named) →
        t.Named := by
    intro text container h hcontainer
    obtain ⟨n, -, hresult⟩ := bind_eq_ok_iff.1 h
    cases hresult
    exact hcontainer n
  unfold ofGeneric at h
  split at h
  next =>
    split at h
    · exact hinner h fun _ => rfl
    · cases h
  next =>
    split at h
    next =>
      split at h
      · exact hinner h fun _ => rfl
      · obtain ⟨element, helement, hbound⟩ := bind_eq_ok_iff.1 h
        obtain ⟨bound, -, hresult⟩ := bind_eq_ok_iff.1 hbound
        cases hresult
        have hnamed : element.Named := hparse helement
        exact hnamed
      · cases h
    next =>
      split at h
      next =>
        split at h
        · exact hinner h fun _ => rfl
        · cases h
      next =>
        split at h
        next =>
          split at h
          · exact hlength h fun _ => trivial
          · cases h
        next =>
          split at h
          next =>
            split at h
            · exact hlength h fun _ => trivial
            · cases h
          next => cases h

theorem named_of_parseWithin {limit : Nat} {text : List Char} (h : parseWithin limit text = .ok t) :
    t.Named := by
  induction limit generalizing text t with
  | zero => cases h
  | succ limit ih =>
    simp only [parseWithin] at h
    split at h
    next => cases h
    next =>
      obtain ⟨inner, hinner, hresult⟩ := bind_eq_ok_iff.1 h
      cases hresult
      have hnamed : inner.Named := ih hinner
      exact hnamed
    next =>
      split at h
      next => cases h
      next =>
        obtain ⟨length, -, hrest⟩ := bind_eq_ok_iff.1 h
        obtain ⟨element, helement, hresult⟩ := bind_eq_ok_iff.1 hrest
        cases hresult
        have hnamed : element.Named := ih helement
        exact hnamed
    next =>
      split at h
      next => cases h
      next =>
        obtain ⟨arguments, -, hresult⟩ := bind_eq_ok_iff.1 h
        exact named_of_ofGeneric ih hresult
    next hnil _ _ _ =>
      refine named_of_ofWord (trimmed_trimChars fun htrim => hnil ?_) h
      rw [htrim, List.reverse_nil]

/-- Reading inverts printing on every tree whose names are names, and only such trees are read: so
    the canonical text of what was read from a text is read as the text itself. -/
theorem parse_normal_form :
    (∀ t : TypeExpr, t.Named → parse t.render = .ok t) ∧
      ∀ text t, parse text = .ok t → t.Named ∧ parse t.render = parse text := by
  have hrender : ∀ t : TypeExpr, t.Named → parse t.render = .ok t := by
    intro t h
    rw [parse, ← String.length_toList, toList_render]
    exact parseWithin_chars h (Nat.le_refl _)
  refine ⟨hrender, fun text t h => ?_⟩
  have hnamed : t.Named := named_of_parseWithin h
  exact ⟨hnamed, (hrender t hnamed).trans h.symm⟩

/-- Lists in a bounded sequence in an optional array, as it is written canonically and in other
    words with blanks: both texts are read as one tree. -/
theorem parse_normal_form_nested :
    let t := optional (array (sequence (list (named "unsigned long")) (some 4)) 3)
    let text := "Optional< BoundedSeq<list<unsigned long> , +4> [03] >"
    (t.Named ∧ parse t.render = .ok t) ∧ parse text = .ok t ∧ parse t.render = parse text := by
  intro t text
  have hnamed : t.Named := by decide
  have hread : parse text = .ok t := by decide +kernel
  exact ⟨⟨hnamed, parse_normal_form.1 t hnamed⟩, hread, (parse_normal_form.2 text t hread).2⟩

end TypeExpr

end Cdr
