import Cdr.Proofs.TypeText

/-! # Spellings of types over a name

A type over a name can be spelled in many ways. The words that call a container have several forms,
blanks may stand around every part, and a length may have a sign and zeros in front. How such a text
is read hangs on the name alone: where the name is read as a name, the text is read as the type that
it spells, and where it is not, the text has the fault of the name. No other text is read as a tree
over the name, so the spellings are all there are.
-/

namespace Cdr

open Text Compile

namespace TypeExpr

variable {name word : String} {t : TypeExpr} {make : TypeExpr → TypeExpr}
  {cs ds gap inside text : List Char} {n : UInt32}

theorem isInner_of_isBlank {c : Char} (h : isBlank c = true) : IsInner 0 c := by
  refine ⟨?_, ?_, ?_, ?_, ?_⟩ <;> rintro rfl <;> exact absurd h (by decide)

theorem closed_of_blank (h : ∀ c ∈ cs, isBlank c = true) : Closed 0 cs :=
  closed_of_inner fun c hc => isInner_of_isBlank (h c hc)

/-! ## Lengths -/

theorem mem_of_readCount? (h : readCount? cs = some n) :
    ∀ c ∈ cs, c = '+' ∨ c.isDigit = true := by
  have hdecimal : ∀ {digits : List Char} {value : Nat}, readDecimal? digits = some value →
      ∀ c ∈ digits, c.isDigit = true := by
    intro digits value hread
    unfold readDecimal? at hread
    split at hread
    next hall => exact List.all_eq_true.1 (Bool.and_eq_true_iff.1 hall).2
    next => cases hread
  unfold readCount? at h
  obtain ⟨value, hread, -⟩ := Option.bind_eq_some_iff.1 h
  split at hread
  next rest =>
    intro c hc
    exact (List.mem_cons.1 hc).imp_right (hdecimal hread c)
  next => exact fun c hc => .inr (hdecimal hread c hc)

/-- A length has no brackets and no commas in it. -/
theorem isInner_of_readLength (h : readLength cs = .ok n) {c : Char} (hc : c ∈ cs) :
    IsInner 0 c := by
  unfold readLength at h
  split at h
  next hcount =>
    rcases isBlank_or_mem_trimChars hc with hblank | hmem
    · exact isInner_of_isBlank hblank
    · rcases mem_of_readCount? hcount c hmem with rfl | hdigit
      · decide
      · apply isInner_of_isAlphanum
        show (c.isAlpha || c.isDigit) = true
        rw [hdigit, Bool.or_true]
  next => cases h

theorem closed_of_readLength (h : readLength cs = .ok n) : Closed 0 cs :=
  closed_of_inner fun _ => isInner_of_readLength h

@[simp] theorem readLength_trimChars (cs : List Char) :
    readLength (trimChars cs) = readLength cs := by
  simp only [readLength, trimChars_trimChars]

/-! ## Words -/

/-- A word of letters, digits and underscores. -/
structure IsWord (name : String) : Prop where
  nonempty : name.toList ≠ []
  characters : ∀ c ∈ name.toList, c.isAlphanum = true ∨ c = '_'

theorem isWord_iff : IsWord name ↔
    name.toList ≠ [] ∧ name.toList.all (fun c => c.isAlphanum || c == '_') = true := by
  simp only [List.all_eq_true, Bool.or_eq_true, beq_iff_eq]
  exact ⟨fun h => ⟨h.nonempty, h.characters⟩, fun h => ⟨h.1, h.2⟩⟩

instance (name : String) : Decidable (IsWord name) :=
  decidable_of_iff _ isWord_iff.symm

namespace IsWord

theorem isBlank_eq_false (h : IsWord name) {c : Char} (hc : c ∈ name.toList) :
    isBlank c = false := by
  rcases h.characters c hc with halphanum | rfl
  · exact isBlank_of_isAlphanum halphanum
  · decide

theorem isInner (h : IsWord name) {c : Char} (hc : c ∈ name.toList) : IsInner 0 c := by
  rcases h.characters c hc with halphanum | rfl
  · exact isInner_of_isAlphanum halphanum
  · decide

theorem written (h : IsWord name) : Written name.toList where
  toTrimmed := trimmed_of_forall h.nonempty fun _ => h.isBlank_eq_false
  closed := closed_of_inner fun _ => h.isInner

theorem getLast?_ne (h : IsWord name) {c : Char} (halphanum : c.isAlphanum = false)
    (hunderscore : c ≠ '_') : name.toList.getLast? ≠ some c := by
  intro hlast
  rcases h.characters c (List.mem_of_getLast? hlast) with hc | hc
  · rw [hc] at halphanum
    cases halphanum
  · exact hunderscore hc

/-- A word and the blanks behind it, in front of an angle bracket. -/
theorem head (h : IsWord word) (hgap : ∀ c ∈ gap, isBlank c = true) :
    trimChars (word.toList ++ gap) = word.toList ∧ '<' ∉ word.toList ++ gap ∧
      Closed 0 (word.toList ++ gap) := by
  refine ⟨?_, fun hmem => ?_, h.written.closed.append (closed_of_blank hgap)⟩
  · rw [trimChars_append_blank hgap, h.written.trimChars_eq]
  · rcases List.mem_append.1 hmem with hword | hblank
    · exact (h.isInner hword).1 rfl
    · exact (isInner_of_isBlank (hgap _ hblank)).1 rfl

end IsWord

/-- The words that call a sequence, which may give it a bound. -/
def sequenceWords : List String :=
  ["sequence", "Sequence", "BoundedSeq", "bounded_sequence"]

theorem isWord_sequence : ∀ word ∈ sequenceWords, IsWord word := by
  decide

/-- What a word makes of the one type between its angle brackets. -/
inductive Calls : String → (TypeExpr → TypeExpr) → Prop
  | optional {word : String} (called : word ∈ ["optional", "Optional"]) : Calls word optional
  | sequence {word : String} (called : word ∈ sequenceWords) : Calls word (sequence · none)
  | list {word : String} (called : word ∈ ["List", "list"]) : Calls word list

theorem Calls.isWord (h : Calls word make) : IsWord word := by
  have hoptional : ∀ word ∈ ["optional", "Optional"], IsWord word := by decide
  have hlist : ∀ word ∈ ["List", "list"], IsWord word := by decide
  cases h with
  | optional called => exact hoptional word called
  | sequence called => exact isWord_sequence word called
  | list called => exact hlist word called

theorem notOptional_of_sequence : ∀ word ∈ sequenceWords, word ∉ ["optional", "Optional"] := by
  decide

variable {read : List Char → Except Fault TypeExpr}

theorem Calls.ofGeneric (h : Calls word make) (cs : List Char) :
    ofGeneric read word [cs] = (read cs).map make := by
  cases h with
  | optional called =>
    simp only [TypeExpr.ofGeneric, if_pos called]
    cases read cs <;> rfl
  | sequence called =>
    simp only [TypeExpr.ofGeneric, if_neg (notOptional_of_sequence word called),
      if_pos (show word ∈ ["sequence", "Sequence", "BoundedSeq", "bounded_sequence"] from called)]
    cases read cs <;> rfl
  | list called =>
    have hother : ∀ word ∈ ["List", "list"], word ∉ ["optional", "Optional"] ∧
        word ∉ ["sequence", "Sequence", "BoundedSeq", "bounded_sequence"] := by decide
    obtain ⟨hoptional, hsequence⟩ := hother word called
    simp only [TypeExpr.ofGeneric, if_neg hoptional, if_neg hsequence, if_pos called]
    cases read cs <;> rfl

theorem ofGeneric_bounded (h : word ∈ sequenceWords) (hread : readLength ds = .ok n)
    (cs : List Char) : ofGeneric read word [cs, ds] = (read cs).map (sequence · (some n)) := by
  simp only [TypeExpr.ofGeneric, if_neg (notOptional_of_sequence word h),
    if_pos (show word ∈ ["sequence", "Sequence", "BoundedSeq", "bounded_sequence"] from h), hread]
  cases read cs <;> rfl

/-! ## Spellings -/

/-- The texts that spell a type over a name. -/
inductive Spells (name : String) : TypeExpr → List Char → Prop
  | name : Spells name (named name) name.toList
  | blanks {t : TypeExpr} {text front back : List Char} (spells : Spells name t text)
    (blankFront : ∀ c ∈ front, isBlank c = true) (blankBack : ∀ c ∈ back, isBlank c = true) :
    Spells name t (front ++ text ++ back)
  | mark {t : TypeExpr} {text : List Char} (spells : Spells name t text) :
    Spells name (optional t) (text ++ ['?'])
  | array {t : TypeExpr} {text length : List Char} {n : UInt32} (spells : Spells name t text)
    (read : readLength length = .ok n) :
    Spells name (array t n) (text ++ ('[' :: (length ++ [']'])))
  | container {word : String} {make : TypeExpr → TypeExpr} {t : TypeExpr} {gap text : List Char}
    (calls : Calls word make) (blank : ∀ c ∈ gap, isBlank c = true) (spells : Spells name t text) :
    Spells name (make t) (generic (word.toList ++ gap) text)
  | bounded {word : String} {t : TypeExpr} {gap text bound : List Char} {n : UInt32}
    (called : word ∈ sequenceWords) (blank : ∀ c ∈ gap, isBlank c = true)
    (spells : Spells name t text) (read : readLength bound = .ok n) :
    Spells name (sequence t (some n)) (generic (word.toList ++ gap) (text ++ ',' :: bound))

variable {verdict : Except Fault Unit}

theorem Spells.closed (hname : IsWord name) (h : Spells name t text) : Closed 0 text := by
  induction h with
  | name => exact hname.written.closed
  | blanks _ hfront hback ih =>
    exact ((closed_of_blank hfront).append ih).append (closed_of_blank hback)
  | mark _ ih => exact ih.append (closed_of_inner (List.forall_mem_singleton.2 (by decide)))
  | array _ hread ih =>
    exact ih.append (closed_brackets (.inr rfl) (.inr rfl) (closed_of_readLength hread).inside)
  | container hcalls hblank _ ih =>
    exact (hcalls.isWord.head hblank).2.2.append (closed_brackets (.inl rfl) (.inl rfl) ih.inside)
  | bounded hcalled hblank _ hread ih =>
    have hcomma : Closed 1 [','] := closed_of_inner (List.forall_mem_singleton.2 (by decide))
    have hinside := (ih.inside.append hcomma).append (closed_of_readLength hread).inside
    rw [List.append_assoc, List.singleton_append] at hinside
    exact ((isWord_sequence _ hcalled).head hblank).2.2.append
      (closed_brackets (.inl rfl) (.inl rfl) hinside)

/-- A text that spells a type is read as this type, unless the name in it is not read. -/
theorem Spells.parseWithin (hname : IsWord name)
    (hword : ofWord name.toList = verdict.map fun _ => named name) (h : Spells name t text)
    {limit : Nat} (hlimit : text.length ≤ limit) :
    parseWithin limit text = verdict.map fun _ => t := by
  induction h generalizing limit with
  | name =>
    have hpos := List.length_pos_of_ne_nil hname.nonempty
    obtain ⟨short, rfl⟩ := Nat.exists_eq_add_of_le' (show 1 ≤ limit by omega)
    have hlast : ∀ c, c.isAlphanum = false → c ≠ '_' → name.toList.getLast? ≠ some c :=
      fun c => hname.getLast?_ne
    rw [parseWithin_word short hname.written (hlast '?' (by decide) (by decide))
      (hlast ']' (by decide) (by decide)) (hlast '>' (by decide) (by decide)), hword]
  | blanks spells hfront hback ih =>
    simp only [List.length_append] at hlimit
    refine (parseWithin_congr ?_).trans (ih (by omega))
    rw [trimChars_append_blank hback, trimChars_blank_append hfront]
  | mark spells ih =>
    simp only [List.length_append, List.length_cons] at hlimit
    obtain ⟨short, rfl⟩ := Nat.exists_eq_add_of_le' (show 1 ≤ limit by omega)
    rw [parseWithin_optional, ih (show _ ≤ short by omega)]
    cases verdict <;> rfl
  | array spells hread ih =>
    simp only [List.length_append, List.length_cons] at hlimit
    obtain ⟨short, rfl⟩ := Nat.exists_eq_add_of_le' (show 1 ≤ limit by omega)
    have hopen : '[' ∉ _ := fun hmem => (isInner_of_readLength hread hmem).2.1 rfl
    rw [parseWithin_array short _ hread hopen, ih (show _ ≤ short by omega)]
    cases verdict <;> rfl
  | container hcalls hblank spells ih =>
    simp only [generic, List.length_append, List.length_cons] at hlimit
    obtain ⟨short, rfl⟩ := Nat.exists_eq_add_of_le' (show 1 ≤ limit by omega)
    obtain ⟨htrim, hopen, -⟩ := hcalls.isWord.head hblank
    rw [parseWithin_generic short htrim hopen (splitArguments_one (spells.closed hname)),
      hcalls.ofGeneric, parseWithin_congr (trimChars_trimChars _), ih (show _ ≤ short by omega)]
    cases verdict <;> rfl
  | bounded hcalled hblank spells hread ih =>
    simp only [generic, List.length_append, List.length_cons] at hlimit
    obtain ⟨short, rfl⟩ := Nat.exists_eq_add_of_le' (show 1 ≤ limit by omega)
    obtain ⟨htrim, hopen, -⟩ := (isWord_sequence _ hcalled).head hblank
    have harguments := splitArguments_two (spells.closed hname) (closed_of_readLength hread)
    rw [parseWithin_generic short htrim hopen harguments,
      ofGeneric_bounded hcalled ((readLength_trimChars _).trans hread),
      parseWithin_congr (trimChars_trimChars _), ih (show _ ≤ short by omega)]
    cases verdict <;> rfl

/-- That all that stands in a tree of containers is one name. -/
def HoldsOnly (name : String) : TypeExpr → Prop
  | named other => other = name
  | string _ => False
  | fixedString _ => False
  | sequence element _ => element.HoldsOnly name
  | list element => element.HoldsOnly name
  | array element _ => element.HoldsOnly name
  | optional inner => inner.HoldsOnly name

theorem Spells.holdsOnly (h : Spells name t text) : t.HoldsOnly name := by
  induction h with
  | name => rfl
  | blanks _ _ _ ih => exact ih
  | mark _ ih => exact ih
  | array _ _ ih => exact ih
  | container hcalls _ _ ih => cases hcalls <;> exact ih
  | bounded _ _ _ _ ih => exact ih

/-- What is made of a name is made of all texts over it. -/
theorem Spells.parse {text : String} (hname : IsWord name)
    (hword : ofWord name.toList = verdict.map fun _ => named name)
    (h : Spells name t text.toList) : parse text = verdict.map fun _ => t :=
  h.parseWithin hname hword (Nat.le_of_eq String.length_toList)

/-! ## No other texts -/

theorem splitFirst_eq_some {c : Char} {before behind : List Char}
    (h : splitFirst c cs = some (before, behind)) : cs = before ++ c :: behind := by
  induction cs generalizing before with
  | nil => cases h
  | cons d cs ih =>
    unfold splitFirst at h
    split at h
    next heq =>
      cases h
      rw [heq, List.nil_append]
    next =>
      obtain ⟨⟨_, _⟩, hparts, heq⟩ := Option.map_eq_some_iff.1 h
      cases heq
      rw [ih hparts, List.cons_append]

/-- The characters that were taken of an argument list. -/
def Arguments.taken (a : Arguments) : List Char :=
  (a.done.reverse.map (· ++ [','])).flatten ++ a.current.reverse

theorem Arguments.taken_of_step {a b : Arguments} {c : Char} (h : a.step c = some b) :
    b.taken = a.taken ++ [c] := by
  unfold step at h
  split at h
  next =>
    cases h
    simp [taken]
  next =>
    split at h
    next =>
      split at h
      next => cases h
      next =>
        cases h
        simp [taken]
    next =>
      split at h
      next hcomma =>
        cases h
        simp [taken, hcomma.1]
      next =>
        cases h
        simp [taken]

theorem Arguments.taken_of_foldlM {a b : Arguments} (h : cs.foldlM Arguments.step a = some b) :
    b.taken = a.taken ++ cs := by
  induction cs generalizing a with
  | nil =>
    cases h
    rw [List.append_nil]
  | cons c cs ih =>
    obtain ⟨mid, hstep, hrest⟩ := Option.bind_eq_some_iff.1 h
    rw [ih hrest, taken_of_step hstep, List.append_assoc]
    rfl

/-- What is split at commas is put together from its parts. -/
theorem exists_of_splitArguments {arguments : List (List Char)}
    (h : splitArguments cs = .ok arguments) :
    ∃ done last, arguments = (done ++ [last]).map trimChars ∧
      cs = (done.map (· ++ [','])).flatten ++ last := by
  unfold splitArguments at h
  split at h
  next parts hparts =>
    cases h
    obtain ⟨a, hrun, hfinish⟩ := Option.bind_eq_some_iff.1 hparts
    unfold Arguments.finish at hfinish
    split at hfinish
    next =>
      cases hfinish
      refine ⟨a.done.reverse, a.current.reverse, by rw [List.reverse_cons], ?_⟩
      have htaken := Arguments.taken_of_foldlM hrun
      exact htaken.symm
    next => cases hfinish
  next => cases h

theorem eq_of_splitArguments_one (h : splitArguments cs = .ok [ds]) : trimChars cs = ds := by
  obtain ⟨done, last, harguments, rfl⟩ := exists_of_splitArguments h
  cases done with
  | nil =>
    simp only [List.nil_append, List.map_cons, List.map_nil, List.cons.injEq] at harguments
    exact harguments.1.symm
  | cons first done =>
    have hlength := congrArg List.length harguments
    simp at hlength

theorem eq_of_splitArguments_two {first second : List Char}
    (h : splitArguments cs = .ok [first, second]) :
    ∃ xs ys, cs = xs ++ ',' :: ys ∧ trimChars xs = first ∧ trimChars ys = second := by
  obtain ⟨done, last, harguments, rfl⟩ := exists_of_splitArguments h
  match done, harguments with
  | [xs], harguments =>
    simp only [List.singleton_append, List.map_cons, List.map_nil, List.cons.injEq] at harguments
    exact ⟨xs, last, by simp, harguments.1.symm, harguments.2.1.symm⟩
  | [], harguments =>
    have hlength := congrArg List.length harguments
    simp at hlength
  | _ :: _ :: _, harguments =>
    have hlength := congrArg List.length harguments
    simp at hlength

/-- A text spells what it spells without the blanks around it. -/
theorem Spells.of_trimChars (h : Spells name t (trimChars cs)) : Spells name t cs := by
  obtain ⟨front, back, hfront, hback, heq⟩ := exists_blanks cs
  rw [heq]
  exact .blanks h hfront hback

theorem Calls.holdsOnly_iff (h : Calls word make) : (make t).HoldsOnly name ↔ t.HoldsOnly name := by
  cases h <;> exact Iff.rfl

/-- Of the arguments of a container only what is spelled is made. -/
theorem spells_of_ofGeneric {arguments : List (List Char)} (hold : t.HoldsOnly name)
    (hread : ∀ {cs : List Char} {inner : TypeExpr}, inner.HoldsOnly name → read cs = .ok inner →
      Spells name inner cs)
    (hgap : ∀ c ∈ gap, isBlank c = true) (harguments : splitArguments inside = .ok arguments)
    (h : TypeExpr.ofGeneric read word arguments = .ok t) :
    Spells name t (generic (word.toList ++ gap) inside) := by
  have hone : ∀ {make : TypeExpr → TypeExpr} {argument : List Char}, Calls word make →
      splitArguments inside = .ok [argument] →
        (do let inner ← read argument; return make inner) = .ok t →
          Spells name t (generic (word.toList ++ gap) inside) := by
    intro make argument hcalls hsplit hmake
    obtain ⟨inner, hinner, hresult⟩ := bind_eq_ok_iff.1 hmake
    cases hresult
    have hspells := hread (hcalls.holdsOnly_iff.1 hold) hinner
    rw [← eq_of_splitArguments_one hsplit] at hspells
    exact .container hcalls hgap hspells.of_trimChars
  have hlength : ∀ {make : UInt32 → TypeExpr} {argument : List Char},
      (∀ n, ¬(make n).HoldsOnly name) →
        (do let n ← readLength argument; return make n) ≠ .ok t := by
    intro make argument hmake h
    obtain ⟨n, -, hresult⟩ := bind_eq_ok_iff.1 h
    cases hresult
    exact hmake n hold
  unfold TypeExpr.ofGeneric at h
  split at h
  next hword =>
    split at h
    · exact hone (.optional hword) harguments h
    · cases h
  next =>
    split at h
    next hword =>
      split at h
      · exact hone (.sequence hword) harguments h
      · obtain ⟨element, helement, hbound⟩ := bind_eq_ok_iff.1 h
        obtain ⟨n, hn, hresult⟩ := bind_eq_ok_iff.1 hbound
        cases hresult
        obtain ⟨xs, ys, rfl, rfl, rfl⟩ := eq_of_splitArguments_two harguments
        have helementHolds : element.HoldsOnly name := hold
        exact .bounded hword hgap (hread helementHolds helement).of_trimChars
          ((readLength_trimChars ys).symm.trans hn)
      · cases h
    next =>
      split at h
      next hword =>
        split at h
        · exact hone (.list hword) harguments h
        · cases h
      next =>
        split at h
        next =>
          split at h
          · exact absurd h (hlength fun _ => id)
          · cases h
        next =>
          split at h
          next =>
            split at h
            · exact absurd h (hlength fun _ => id)
            · cases h
          next => cases h

theorem spells_of_ofWord (hold : t.HoldsOnly name) (h : ofWord cs = .ok t) : Spells name t cs := by
  unfold ofWord at h
  split at h
  next =>
    cases h
    cases hold
  next =>
    split at h
    next =>
      obtain ⟨n, -, hresult⟩ := bind_eq_ok_iff.1 h
      cases hresult
      cases hold
    next =>
      split at h
      next =>
        cases h
        obtain rfl : String.ofList cs = name := hold
        have hname : Spells (String.ofList cs) (named (String.ofList cs))
            (String.ofList cs).toList := .name
        rwa [String.toList_ofList] at hname
      next => cases h

/-- Only what is spelled is read as a tree over a name. -/
theorem spells_of_parseWithin {limit : Nat} (hold : t.HoldsOnly name)
    (h : TypeExpr.parseWithin limit text = .ok t) : Spells name t text := by
  induction limit generalizing text t with
  | zero => cases h
  | succ limit ih =>
    apply Spells.of_trimChars
    simp only [TypeExpr.parseWithin] at h
    split at h
    next => cases h
    next rev hrev =>
      obtain ⟨inner, hinner, hresult⟩ := bind_eq_ok_iff.1 h
      cases hresult
      rw [List.reverse_eq_cons_iff.1 hrev]
      exact .mark (ih hold hinner)
    next rev hrev =>
      split at h
      next => cases h
      next length element hsplit =>
        obtain ⟨n, hn, hrest⟩ := bind_eq_ok_iff.1 h
        obtain ⟨inner, hinner, hresult⟩ := bind_eq_ok_iff.1 hrest
        cases hresult
        have hinnerHolds : inner.HoldsOnly name := hold
        have hspells := Spells.array (ih hinnerHolds hinner) hn
        rw [List.reverse_eq_cons_iff.1 hrev, splitFirst_eq_some hsplit]
        simpa using hspells
    next rev hrev =>
      split at h
      next => cases h
      next head inside hsplit =>
        obtain ⟨arguments, harguments, hresult⟩ := bind_eq_ok_iff.1 h
        obtain ⟨front, back, hfront, hback, heq⟩ := exists_blanks head
        have hspells := spells_of_ofGeneric hold ih hback harguments hresult
        rw [String.toList_ofList] at hspells
        have hwhole : trimChars text = front ++ generic (trimChars head ++ back) inside ++ [] := by
          rw [List.reverse_eq_cons_iff.1 hrev, splitFirst_eq_some hsplit, generic, List.append_nil]
          conv_lhs => rw [heq]
          simp
        rw [hwhole]
        exact .blanks hspells hfront (List.forall_mem_nil _)
    next => exact spells_of_ofWord hold h

/-- Where a name is read as a name, the texts over it are those that spell their types. -/
theorem parse_eq_ok_iff_spells {text : String} (hname : IsWord name)
    (hword : ofWord name.toList = .ok (named name)) :
    TypeExpr.parse text = .ok t ∧ t.HoldsOnly name ↔ Spells name t text.toList := by
  have hread : ofWord name.toList = (Except.ok ()).map fun _ => named name := hword
  constructor
  · rintro ⟨hparse, hold⟩
    exact spells_of_parseWithin hold hparse
  · intro h
    exact ⟨h.parse hname hread, h.holdsOnly⟩

end TypeExpr

end Cdr
