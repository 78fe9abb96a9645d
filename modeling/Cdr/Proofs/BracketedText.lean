import Cdr.Schema.TypeExpr
import Mathlib.Data.List.DropRight

/-! # Texts with brackets

What the reader of type texts makes of a text by its ends and its brackets alone: the blanks around
it are left out, it is cut at the first of some character, and it is split at the commas that stand
outside of all brackets. A text whose brackets match goes through the last of these in one piece.
-/

namespace Cdr

namespace Text

/-- That a text begins and ends with characters that are not blank. -/
structure Trimmed (cs : List Char) : Prop where
  first : ∃ c, cs.head? = some c ∧ isBlank c = false
  last : ∃ c, cs.getLast? = some c ∧ isBlank c = false

variable {cs ds : List Char}

theorem Trimmed.ne_nil (h : Trimmed cs) : cs ≠ [] := by
  rintro rfl
  obtain ⟨c, hc, -⟩ := h.first
  cases hc

theorem Trimmed.append (h : Trimmed cs) (hlast : ∃ c, ds.getLast? = some c ∧ isBlank c = false) :
    Trimmed (cs ++ ds) := by
  obtain ⟨c, hc, hblank⟩ := h.first
  obtain ⟨d, hd, hblank'⟩ := hlast
  exact ⟨⟨c, by simp [hc], hblank⟩, d, by simp [hd], hblank'⟩

theorem trimmed_of_forall (hne : cs ≠ []) (h : ∀ c ∈ cs, isBlank c = false) : Trimmed cs where
  first := ⟨_, List.head?_eq_some_head hne, h _ (List.head_mem hne)⟩
  last := ⟨_, List.getLast?_eq_some_getLast hne, h _ (List.getLast_mem hne)⟩

theorem dropWhile_isBlank (h : ∃ c, cs.head? = some c ∧ isBlank c = false) :
    cs.dropWhile isBlank = cs := by
  obtain ⟨c, hc, hblank⟩ := h
  cases cs with
  | nil => cases hc
  | cons d ds =>
    cases hc
    simp [hblank]

theorem Trimmed.trimChars_eq (h : Trimmed cs) : trimChars cs = cs := by
  have hlast : ∃ c, cs.reverse.head? = some c ∧ isBlank c = false := by
    simpa using h.last
  rw [trimChars, dropWhile_isBlank h.first, dropWhile_isBlank hlast, List.reverse_reverse]

theorem trimChars_cons {c : Char} (hc : isBlank c = true) (cs : List Char) :
    trimChars (c :: cs) = trimChars cs := by
  simp [trimChars, hc]

/-- A character that is not blank ends the search for the first one. -/
theorem dropWhile_isBlank_append {c : Char} (hc : isBlank c = false) (cs ds : List Char) :
    (cs ++ c :: ds).dropWhile isBlank = cs.dropWhile isBlank ++ c :: ds := by
  induction cs with
  | nil => simp [hc]
  | cons d cs ih =>
    by_cases hd : isBlank d = true
    · simp only [List.cons_append, List.dropWhile_cons_of_pos hd, ih]
    · simp only [List.cons_append, List.dropWhile_cons_of_neg hd]

theorem trimChars_concat {c : Char} (hc : isBlank c = false) (cs : List Char) :
    trimChars (cs ++ [c]) = cs.dropWhile isBlank ++ [c] := by
  rw [trimChars, dropWhile_isBlank_append hc, List.reverse_append, List.reverse_singleton,
    List.singleton_append, List.dropWhile_cons_of_neg (Bool.not_eq_true _ ▸ hc),
    List.reverse_cons, List.reverse_reverse]

@[simp] theorem trimChars_dropWhile (cs : List Char) :
    trimChars (cs.dropWhile isBlank) = trimChars cs := by
  rw [trimChars, List.dropWhile_idempotent]
  rfl

/-- Blanks in front make no difference. -/
theorem trimChars_blank_append (h : ∀ c ∈ cs, isBlank c = true) (ds : List Char) :
    trimChars (cs ++ ds) = trimChars ds := by
  rw [trimChars, List.dropWhile_append_of_pos h]
  rfl

/-- Nor do blanks behind. -/
theorem trimChars_append_blank (h : ∀ c ∈ ds, isBlank c = true) (cs : List Char) :
    trimChars (cs ++ ds) = trimChars cs := by
  have hback : ∀ front : List Char, (front ++ ds).reverse.dropWhile isBlank =
      front.reverse.dropWhile isBlank := by
    intro front
    rw [List.reverse_append, List.dropWhile_append_of_pos]
    intro c hc
    exact h c (List.mem_reverse.1 hc)
  by_cases hblank : cs.dropWhile isBlank = []
  · rw [trimChars, trimChars, List.dropWhile_append, hblank, if_pos List.isEmpty_nil,
      List.dropWhile_eq_nil_iff.2 h]
  · rw [trimChars, trimChars, List.dropWhile_append,
      if_neg (by rwa [List.isEmpty_iff]), hback]

theorem head?_dropWhile_isBlank {c : Char} (h : (cs.dropWhile isBlank).head? = some c) :
    isBlank c = false := by
  have hnot := List.head?_dropWhile_not isBlank cs
  rw [h] at hnot
  exact hnot

/-- What is left without the blanks at either end has none there. -/
theorem trimmed_trimChars (h : trimChars cs ≠ []) : Trimmed (trimChars cs) := by
  let front := cs.dropWhile isBlank
  let back := front.reverse.dropWhile isBlank
  have hback : back ≠ [] := fun hnil => h (by rw [trimChars, List.reverse_eq_nil_iff]; exact hnil)
  obtain ⟨before, hsplit⟩ : back <:+ front.reverse := List.dropWhile_suffix _
  obtain ⟨c, hc⟩ : ∃ c, back.head? = some c := ⟨_, List.head?_eq_some_head hback⟩
  obtain ⟨d, hd⟩ : ∃ d, back.getLast? = some d := ⟨_, List.getLast?_eq_some_getLast hback⟩
  have hfront : front.head? = some d := by
    rw [← List.getLast?_reverse, ← hsplit, List.getLast?_append, hd, Option.some_or]
  refine ⟨⟨d, ?_, head?_dropWhile_isBlank hfront⟩, c, ?_, head?_dropWhile_isBlank hc⟩
  · rw [trimChars, List.head?_reverse]
    exact hd
  · rw [trimChars, List.getLast?_reverse]
    exact hc

@[simp] theorem trimChars_trimChars (cs : List Char) : trimChars (trimChars cs) = trimChars cs := by
  by_cases h : trimChars cs = []
  · rw [h, trimChars_nil]
  · exact (trimmed_trimChars h).trimChars_eq

/-- A text is what is left of it between the blanks that are left out. -/
theorem exists_blanks (cs : List Char) :
    ∃ front back, (∀ c ∈ front, isBlank c = true) ∧ (∀ c ∈ back, isBlank c = true) ∧
      cs = front ++ trimChars cs ++ back := by
  let behind := cs.dropWhile isBlank
  refine ⟨cs.takeWhile isBlank, (behind.reverse.takeWhile isBlank).reverse, ?_, ?_, ?_⟩
  · exact fun c => List.mem_takeWhile_imp
  · intro c hc
    exact List.mem_takeWhile_imp (List.mem_reverse.1 hc)
  · rw [trimChars, List.append_assoc, ← List.reverse_append, List.takeWhile_append_dropWhile,
      List.reverse_reverse, List.takeWhile_append_dropWhile]

theorem isBlank_or_mem_trimChars {c : Char} (h : c ∈ cs) :
    isBlank c = true ∨ c ∈ trimChars cs := by
  obtain ⟨front, back, hfront, hback, heq⟩ := exists_blanks cs
  rw [heq, List.append_assoc] at h
  rcases List.mem_append.1 h with hc | h
  · exact .inl (hfront c hc)
  · rcases List.mem_append.1 h with hc | hc
    · exact .inr hc
    · exact .inl (hback c hc)

end Text

open Text

namespace TypeExpr

variable {cs ds : List Char}

theorem splitFirst_append {c : Char} (h : c ∉ cs) (ds : List Char) :
    splitFirst c (cs ++ c :: ds) = some (cs, ds) := by
  induction cs with
  | nil => simp [splitFirst]
  | cons d cs ih =>
    obtain ⟨hne, hrest⟩ := List.ne_and_not_mem_of_not_mem_cons h
    rw [List.cons_append, splitFirst, if_neg (Ne.symm hne), ih hrest]
    rfl

/-! ## Matching brackets -/

/-- That a text goes into the current argument as a whole, inside of `depth` brackets or more: its
    own brackets match, and no comma in it ends the argument. -/
def Closed (depth : Nat) (cs : List Char) : Prop :=
  ∀ level current done, depth ≤ level →
    cs.foldlM Arguments.step ⟨level, current, done⟩ = some ⟨level, cs.reverse ++ current, done⟩

variable {depth : Nat}

theorem Closed.inside (h : Closed 0 cs) : Closed depth cs :=
  fun level current done _ => h level current done (Nat.zero_le _)

theorem Closed.append (h : Closed depth cs) (h' : Closed depth ds) : Closed depth (cs ++ ds) := by
  intro level current done hlevel
  simp only [List.foldlM_append, h level _ _ hlevel, Option.bind_eq_bind, Option.bind_some,
    h' level _ _ hlevel, List.reverse_append, List.append_assoc]

/-- A character that is no bracket, and no comma where one would end the argument. -/
def IsInner (depth : Nat) (c : Char) : Prop :=
  c ≠ '<' ∧ c ≠ '[' ∧ c ≠ '>' ∧ c ≠ ']' ∧ (c = ',' → 0 < depth)

instance (depth : Nat) (c : Char) : Decidable (IsInner depth c) :=
  inferInstanceAs (Decidable (_ ∧ _))

theorem closed_of_inner (h : ∀ c ∈ cs, IsInner depth c) : Closed depth cs := by
  intro level current done hlevel
  induction cs generalizing current with
  | nil => rfl
  | cons c cs ih =>
    obtain ⟨⟨hangle, hsquare, hangle', hsquare', hcomma⟩, hrest⟩ := List.forall_mem_cons.1 h
    have hend : ¬(c = ',' ∧ level = 0) := by
      rintro ⟨hc, hzero⟩
      have hpos := hcomma hc
      omega
    have hstep : Arguments.step ⟨level, current, done⟩ c = some ⟨level, c :: current, done⟩ := by
      simp [Arguments.step, hangle, hsquare, hangle', hsquare', hend]
    simp only [List.foldlM_cons, hstep, Option.bind_eq_bind, Option.bind_some, ih hrest,
      List.reverse_cons, List.append_assoc, List.singleton_append]

/-- Inside of brackets a comma does no harm. -/
theorem closed_brackets {opening closing : Char} (hopening : opening = '<' ∨ opening = '[')
    (hclosing : closing = '>' ∨ closing = ']') (h : Closed 1 cs) :
    Closed 0 (opening :: (cs ++ [closing])) := by
  intro level current done _
  have hopen : Arguments.step ⟨level, current, done⟩ opening =
      some ⟨level + 1, opening :: current, done⟩ := by
    rcases hopening with rfl | rfl <;> simp [Arguments.step]
  have hclose : ∀ inside, Arguments.step ⟨level + 1, inside, done⟩ closing =
      some ⟨level, closing :: inside, done⟩ := by
    intro inside
    rcases hclosing with rfl | rfl <;> simp [Arguments.step]
  have hinside := h (level + 1) (opening :: current) done (Nat.le_add_left 1 level)
  simp only [List.foldlM_cons, hopen, Option.bind_eq_bind, Option.bind_some, List.foldlM_append,
    hinside, hclose, List.foldlM_nil]
  simp

/-! ## Splitting -/

theorem splitArguments_one (h : Closed 0 cs) : splitArguments cs = .ok [trimChars cs] := by
  have hrun : cs.foldlM Arguments.step Arguments.start = some ⟨0, cs.reverse, []⟩ := by
    rw [Arguments.start, h 0 [] [] (Nat.le_refl 0), List.append_nil]
  simp [splitArguments, hrun, Arguments.finish]

theorem splitArguments_two (h : Closed 0 cs) (h' : Closed 0 ds) :
    splitArguments (cs ++ ',' :: ds) = .ok [trimChars cs, trimChars ds] := by
  have hfirst : cs.foldlM Arguments.step Arguments.start = some ⟨0, cs.reverse, []⟩ := by
    rw [Arguments.start, h 0 [] [] (Nat.le_refl 0), List.append_nil]
  have hcomma : Arguments.step ⟨0, cs.reverse, []⟩ ',' = some ⟨0, [], [cs]⟩ := by
    simp [Arguments.step]
  have hsecond := h' 0 [] [cs] (Nat.le_refl 0)
  have hrun : (cs ++ ',' :: ds).foldlM Arguments.step Arguments.start =
      some ⟨0, ds.reverse, [cs]⟩ := by
    simp only [List.foldlM_append, hfirst, Option.bind_eq_bind, Option.bind_some, List.foldlM_cons,
      hcomma, hsecond, List.append_nil]
  simp [splitArguments, hrun, Arguments.finish]

end TypeExpr

end Cdr
