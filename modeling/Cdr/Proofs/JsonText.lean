import Cdr.Json.Printer
import Cdr.Json.Reader
import Mathlib.Data.List.Forall2

/-! # The text of a JSON value

A value that is printed is read back. The scanner finds in the text of a value its tokens, whatever
stands before it, and leaves at most the last word open until the next character ends it. The
builder makes the value of its tokens, inside of any containers.
-/

namespace Cdr.Json

variable {rev : List Token} {cs ds es : List Char} {ts us vs : List Token}

/-! ## Scanning -/

namespace Scan

/-- The scanner has read the tokens, latest first. Of the latest one it may not know yet that it has
    ended. -/
inductive Holds : Scan → List Token → Prop where
  | settled {rev : List Token} : Holds ⟨rev, .between⟩ rev
  | pending {rev : List Token} {word : List Char} {token : Token}
    (complete : Token.ofWord? word.reverse = some token) : Holds ⟨rev, .word word⟩ (token :: rev)

theorem Holds.step {s : Scan} (h : s.Holds rev) {c : Char} (hc : endsWord c = true) :
    s.step c = some (fresh rev c) := by
  cases h with
  | settled => rfl
  | pending complete => simp only [Scan.step, if_pos hc, complete, Option.map_some]

theorem Holds.finish {s : Scan} (h : s.Holds rev) : s.finish = some rev.reverse := by
  cases h with
  | settled => rfl
  | pending complete => simp only [Scan.finish, complete, Option.map_some]

end Scan

open Scan

/-- Blanks and punctuation, with the tokens that the punctuation is. -/
inductive Marks : List Char → List Token → Prop where
  | nil : Marks [] []
  | blank {c : Char} {cs : List Char} {ts : List Token}
    (skipped : ∀ rev, fresh rev c = ⟨rev, .between⟩) (rest : Marks cs ts) : Marks (c :: cs) ts
  | punctuation {c : Char} {token : Token} {cs : List Char} {ts : List Token}
    (taken : ∀ rev, fresh rev c = ⟨token :: rev, .between⟩) (rest : Marks cs ts) :
    Marks (c :: cs) (token :: ts)

theorem marks_of_char {c : Char} {token : Token}
    (h : ∀ rev, fresh rev c = ⟨token :: rev, .between⟩) : Marks [c] [token] :=
  .punctuation h .nil

theorem Marks.append (h : Marks cs ts) (h' : Marks ds us) : Marks (cs ++ ds) (ts ++ us) := by
  induction h with
  | nil => exact h'
  | blank skipped _ ih => exact .blank skipped ih
  | punctuation taken _ ih => exact .punctuation taken ih

theorem marks_replicate (n : Nat) : Marks (List.replicate n ' ') [] := by
  induction n with
  | zero => exact .nil
  | succ n ih => exact .blank (fun _ => rfl) ih

theorem marks_newline (level : Nat) : Marks (newline level).toList [] := by
  rw [newline, String.toList_ofList]
  exact .blank (fun _ => rfl) (marks_replicate _)

theorem newline_ne_nil (level : Nat) : (newline level).toList ≠ [] := by
  rw [newline, String.toList_ofList]
  exact nofun

theorem Marks.run (h : Marks cs ts) (rev : List Token) :
    cs.foldlM Scan.step ⟨rev, .between⟩ = some ⟨ts.reverse ++ rev, .between⟩ := by
  induction h generalizing rev with
  | nil => rfl
  | blank skipped _ ih =>
    simp only [List.foldlM_cons, Scan.step, skipped, Option.bind_eq_bind, Option.bind_some, ih]
  | punctuation taken _ ih =>
    simp only [List.foldlM_cons, Scan.step, taken, Option.bind_eq_bind, Option.bind_some, ih,
      List.reverse_cons, List.append_assoc, List.singleton_append]

theorem endsWord_of_fresh {c : Char} (h : (fresh [] c).place = .between) : endsWord c = true := by
  simp only [endsWord, h]

/-- Marks end the word that stands before them. -/
theorem Marks.run_behind (h : Marks cs ts) (hsome : cs ≠ []) {s : Scan} (hs : s.Holds rev) :
    cs.foldlM Scan.step s = some ⟨ts.reverse ++ rev, .between⟩ := by
  cases h with
  | nil => exact absurd rfl hsome
  | blank skipped rest =>
    have hends := endsWord_of_fresh (congrArg Scan.place (skipped []))
    rw [List.foldlM_cons, hs.step hends, skipped]
    exact rest.run rev
  | @punctuation c token _ _ taken rest =>
    have hends := endsWord_of_fresh (congrArg Scan.place (taken []))
    rw [List.foldlM_cons, hs.step hends, taken, List.reverse_cons, List.append_assoc]
    exact rest.run (token :: rev)

/-- Characters that spell tokens, behind any others. -/
def Spells (cs : List Char) (ts : List Token) : Prop :=
  ∀ rev, ∃ s, cs.foldlM Scan.step ⟨rev, .between⟩ = some s ∧ s.Holds (ts.reverse ++ rev)

theorem Marks.spells (h : Marks cs ts) : Spells cs ts :=
  fun rev => ⟨_, h.run rev, .settled⟩

/-- Behind marks, something else can stand. -/
theorem Spells.marked (h : Spells cs ts) (hmarks : Marks ds us) (hsome : ds ≠ [])
    (h' : Spells es vs) : Spells (cs ++ (ds ++ es)) (ts ++ (us ++ vs)) := by
  intro rev
  obtain ⟨s, hrun, hholds⟩ := h rev
  obtain ⟨last, hlast, hend⟩ := h' (us.reverse ++ (ts.reverse ++ rev))
  refine ⟨last, ?_, ?_⟩
  · simp only [List.foldlM_append, hrun, Option.bind_eq_bind, Option.bind_some,
      hmarks.run_behind hsome hholds, hlast]
  · simpa only [List.reverse_append, List.append_assoc] using hend

/-- Texts with marks between them. -/
theorem spells_intercalate {parts : List (List Char)} {tokens : List (List Token)}
    (hmarks : Marks ds us) (hsome : ds ≠ []) (h : List.Forall₂ Spells parts tokens) :
    Spells (ds.intercalate parts) (us.intercalate tokens) := by
  induction h with
  | nil => exact Marks.nil.spells
  | cons hfirst hrest ih =>
    cases hrest with
    | nil =>
      rw [List.intercalate_singleton, List.intercalate_singleton]
      exact hfirst
    | cons hnext hrest =>
      rw [List.intercalate_cons_cons, List.intercalate_cons_cons, List.append_assoc,
        List.append_assoc]
      exact hfirst.marked hmarks hsome ih

/-- Texts on lines of their own between two brackets. -/
theorem spells_block {level : Nat} {opening closing : String} {before after : Token}
    {parts : List String} {tokens : List (List Token)} (hopening : Marks opening.toList [before])
    (hclosing : Marks closing.toList [after])
    (h : List.Forall₂ Spells (parts.map String.toList) tokens) :
    Spells (block level opening parts closing).toList
      (before :: ([.comma].intercalate tokens ++ [after])) := by
  have hcomma : Marks ("," ++ newline (level + 1)).toList [.comma] := by
    rw [String.toList_append]
    exact (marks_of_char fun _ => rfl).append (marks_newline _)
  have hitems := spells_intercalate hcomma (by simp) h
  have hend := hitems.marked ((marks_newline level).append hclosing)
    (List.append_ne_nil_of_left_ne_nil (newline_ne_nil level) _) Marks.nil.spells
  have hall := Marks.nil.spells.marked (hopening.append (marks_newline (level + 1)))
    (List.append_ne_nil_of_right_ne_nil _ (newline_ne_nil (level + 1))) hend
  simpa only [block, String.toList_append, String.toList_intercalate, List.append_assoc,
    List.nil_append, List.append_nil, List.cons_append] using hall

/-! ## Texts without any others inside -/

theorem run_word (h : ∀ c ∈ cs, endsWord c = false) (rev : List Token) (word : List Char) :
    cs.foldlM Scan.step ⟨rev, .word word⟩ = some ⟨rev, .word (cs.reverse ++ word)⟩ := by
  induction cs generalizing word with
  | nil => rfl
  | cons c cs ih =>
    obtain ⟨hc, hcs⟩ := List.forall_mem_cons.1 h
    simp [Scan.step, hc, ih hcs (c :: word)]

theorem fresh_of_not_endsWord {c : Char} (h : endsWord c = false) (rev : List Token) :
    fresh rev c = ⟨rev, .word [c]⟩ := by
  unfold fresh
  split
  all_goals first | rfl | exact absurd h (by decide)

theorem solid_of_all (h : cs.all (fun c => !endsWord c) = true) :
    ∀ c ∈ cs, endsWord c = false := by
  simpa using h

/-- Characters none of which ends a word are one. -/
theorem spells_word {token : Token} (hsolid : ∀ c ∈ cs, endsWord c = false)
    (hword : Token.ofWord? cs = some token) : Spells cs [token] := by
  intro rev
  cases cs with
  | nil => cases hword
  | cons c rest =>
    obtain ⟨hc, hrest⟩ := List.forall_mem_cons.1 hsolid
    refine ⟨⟨rev, .word (rest.reverse ++ [c])⟩, ?_, .pending ?_⟩
    · simp only [List.foldlM_cons, Scan.step, fresh_of_not_endsWord hc, Option.bind_eq_bind,
        Option.bind_some, run_word hrest]
    · rw [← List.reverse_cons, List.reverse_reverse]
      exact hword

theorem hexDigit?_digitChar {d : Nat} (h : d < 16) : Text.hexDigit? (Nat.digitChar d) = some d := by
  have hall : ∀ d : Fin 16, Text.hexDigit? (Nat.digitChar d) = some d.val := by decide
  exact hall ⟨d, h⟩

/-- A character stands in a string behind a backslash, by its number or as it is. -/
theorem escape_cases (c : Char) :
    (∃ d, escape c = ['\\', d] ∧ d ≠ 'u' ∧ unescape? d = some c) ∨
    (escape c = ['\\', 'u', '0', '0', Nat.digitChar (c.toNat / 16), Nat.digitChar (c.toNat % 16)] ∧
      c.toNat < 0x20) ∨
    (escape c = [c] ∧ c ≠ '"' ∧ c ≠ '\\' ∧ ¬c.toNat < 0x20) := by
  unfold escape
  split_ifs with hquote hslash hback htab hline hfeed hreturn hcontrol
  case pos => exact .inl ⟨'"', rfl, by decide, by rw [hquote]; rfl⟩
  case pos => exact .inl ⟨'\\', rfl, by decide, by rw [hslash]; rfl⟩
  case pos => exact .inl ⟨'b', rfl, by decide, by rw [hback]; rfl⟩
  case pos => exact .inl ⟨'t', rfl, by decide, by rw [htab]; rfl⟩
  case pos => exact .inl ⟨'n', rfl, by decide, by rw [hline]; rfl⟩
  case pos => exact .inl ⟨'f', rfl, by decide, by rw [hfeed]; rfl⟩
  case pos => exact .inl ⟨'r', rfl, by decide, by rw [hreturn]; rfl⟩
  case pos => exact .inr (.inl ⟨rfl, hcontrol⟩)
  case neg => exact .inr (.inr ⟨rfl, hquote, hslash, hcontrol⟩)

namespace Scan

/-- A character is read from its place in a string. -/
theorem run_escape (rev : List Token) (q : Quoted) (c : Char) :
    (escape c).foldlM Scan.step ⟨rev, .quoted q⟩ = some ⟨rev, .quoted (q.push c)⟩ := by
  rcases escape_cases c with ⟨d, hescape, hd, hstands⟩ | ⟨hescape, hcontrol⟩ | ⟨hescape, hplain⟩
  · rw [hescape]
    simp [Scan.step, hd, hstands]
  · have hzero : Text.hexDigit? '0' = some 0 := by decide
    have hhigh := hexDigit?_digitChar (d := c.toNat / 16) (by omega)
    have hlow := hexDigit?_digitChar (d := c.toNat % 16) (by omega)
    have hnumber : 16 * (c.toNat / 16) + c.toNat % 16 = c.toNat := by omega
    have hunit : q.pushUnit c.toNat = q.push c := by
      rw [Quoted.pushUnit, if_neg (by omega), if_neg (by omega), Char.ofNat_toNat]
    rw [hescape]
    simp [Scan.step, hzero, hhigh, hlow, hnumber, hunit]
  · obtain ⟨hquote, hslash, hprints⟩ := hplain
    rw [hescape]
    simp [Scan.step, hquote, hslash, hprints]

/-- The characters of a string, one behind the other. -/
theorem run_escapes (rev : List Token) (content : List Char) (read : List Char) :
    (content.flatMap escape).foldlM Scan.step ⟨rev, .quoted ⟨read, true, none⟩⟩ =
      some ⟨rev, .quoted ⟨content.reverse ++ read, true, none⟩⟩ := by
  induction content generalizing read with
  | nil => rfl
  | cons c content ih =>
    rw [List.flatMap_cons, List.foldlM_append, run_escape, Option.bind_eq_bind, Option.bind_some]
    simpa only [Quoted.push, Option.isNone_none, Bool.and_true, List.reverse_cons,
      List.append_assoc, List.singleton_append] using ih (c :: read)

end Scan

theorem spells_quote (content : Option String) :
    Spells (quote content).toList [.string content] := by
  intro rev
  refine ⟨⟨.string content :: rev, .between⟩, ?_, .settled⟩
  cases content with
  | none => rfl
  | some content =>
    have hopen : Scan.step ⟨rev, .between⟩ '"' = some ⟨rev, .quoted ⟨[], true, none⟩⟩ := rfl
    have hclose : Scan.step ⟨rev, .quoted ⟨content.toList.reverse ++ [], true, none⟩⟩ '"' =
        some ⟨.string (some content) :: rev, .between⟩ := by
      simp [Scan.step, Quoted.content]
    simp only [quote, String.toList_ofList, List.cons_append, List.foldlM_cons, hopen,
      List.foldlM_append, run_escapes, hclose, Option.bind_eq_bind, Option.bind_some,
      List.foldlM_nil]
    rfl

/-! ## Tokens -/

mutual

/-- The tokens of a value. -/
def tokens : Json → List Token
  | .null => [.null]
  | .bool value => [.bool value]
  | .number literal => [.number literal]
  | .string content => [.string content]
  | .array items => .openArray :: ([.comma].intercalate (itemTokens items) ++ [.closeArray])
  | .object entries => .openObject :: ([.comma].intercalate (entryTokens entries) ++ [.closeObject])

/-- The tokens of each item of an array. -/
def itemTokens : List Json → List (List Token)
  | [] => []
  | v :: vs => tokens v :: itemTokens vs

/-- The tokens of each entry of an object. -/
def entryTokens : List (Option String × Json) → List (List Token)
  | [] => []
  | (key, v) :: entries => (.string key :: .colon :: tokens v) :: entryTokens entries

end

/-- A literal that is a number and ends where it does. -/
structure IsNumber (literal : String) : Prop where
  word : Token.ofWord? literal.toList = some (.number literal)
  solid : ∀ c ∈ literal.toList, endsWord c = false

/-- The values whose number literals all are numbers. -/
inductive WellSpelled : Json → Prop where
  | null : WellSpelled .null
  | bool {value : Bool} : WellSpelled (.bool value)
  | number {literal : String} (number : IsNumber literal) : WellSpelled (.number literal)
  | string {content : Option String} : WellSpelled (.string content)
  | array {items : List Json} (each : ∀ v ∈ items, WellSpelled v) : WellSpelled (.array items)
  | object {entries : List (Option String × Json)} (each : ∀ entry ∈ entries, WellSpelled entry.2) :
    WellSpelled (.object entries)

theorem spells_items {items : List Json} {level : Nat}
    (h : ∀ v ∈ items, Spells (prettyAt level v).toList v.tokens) :
    List.Forall₂ Spells ((prettyItems level items).map String.toList) (itemTokens items) := by
  induction items with
  | nil => exact .nil
  | cons v vs ih =>
    obtain ⟨hv, hvs⟩ := List.forall_mem_cons.1 h
    exact .cons hv (ih hvs)

theorem spells_entries {entries : List (Option String × Json)} {level : Nat}
    (h : ∀ entry ∈ entries, Spells (prettyAt level entry.2).toList entry.2.tokens) :
    List.Forall₂ Spells ((prettyEntries level entries).map String.toList)
      (entryTokens entries) := by
  induction entries with
  | nil => exact .nil
  | cons entry entries ih =>
    obtain ⟨hentry, hentries⟩ := List.forall_mem_cons.1 h
    obtain ⟨key, v⟩ := entry
    refine .cons ?_ (ih hentries)
    have hcolon : Marks ": ".toList [.colon] :=
      .punctuation (fun _ => rfl) (.blank (fun _ => rfl) .nil)
    rw [String.toList_append, String.toList_append, List.append_assoc]
    exact (spells_quote key).marked hcolon (by decide) hentry

/-- The text of a value spells its tokens, at whatever level it stands. -/
theorem spells_prettyAt {v : Json} (h : v.WellSpelled) (level : Nat) :
    Spells (prettyAt level v).toList v.tokens := by
  induction h generalizing level with
  | null =>
    show Spells "null".toList [.null]
    exact spells_word (solid_of_all (by decide)) (by decide)
  | @bool value =>
    cases value with
    | true =>
      show Spells "true".toList [.bool true]
      exact spells_word (solid_of_all (by decide)) (by decide)
    | false =>
      show Spells "false".toList [.bool false]
      exact spells_word (solid_of_all (by decide)) (by decide)
  | number number => exact spells_word number.solid number.word
  | string => exact spells_quote _
  | @array items each ih =>
    have hopening : Marks "[".toList [.openArray] := marks_of_char fun _ => rfl
    have hclosing : Marks "]".toList [.closeArray] := marks_of_char fun _ => rfl
    cases items with
    | nil =>
      show Spells "[]".toList [.openArray, .closeArray]
      exact (hopening.append hclosing).spells
    | cons item items =>
      exact spells_block hopening hclosing (spells_items fun v hv => ih v hv (level + 1))
  | @object entries each ih =>
    have hopening : Marks "\x7b".toList [.openObject] := marks_of_char fun _ => rfl
    have hclosing : Marks "\x7d".toList [.closeObject] := marks_of_char fun _ => rfl
    cases entries with
    | nil =>
      show Spells "\x7b\x7d".toList [.openObject, .closeObject]
      exact (hopening.append hclosing).spells
    | cons entry entries =>
      refine spells_block hopening hclosing (spells_entries fun e he => ih e he (level + 1))

/-! ## Building -/

namespace Build

/-- From the tokens the builder makes the value, whatever it stands in. -/
def Makes (ts : List Token) (v : Json) : Prop :=
  ∀ mayClose outer, ts.foldlM Build.step (.value mayClose outer) = some (.next v outer)

theorem run_items {v : Json} {vs : List Json} (hv : Makes v.tokens v)
    (h : ∀ v ∈ vs, Makes v.tokens v) (mayClose : Bool) (read : List Json) (outer : List Open) :
    ([Token.comma].intercalate (itemTokens (v :: vs)) ++ [Token.closeArray]).foldlM Build.step
        (.value mayClose (.array read :: outer)) =
      some (.next (.array (read.reverse ++ v :: vs)) outer) := by
  induction vs generalizing v mayClose read with
  | nil =>
    simp only [itemTokens, List.intercalate_singleton, List.foldlM_append, hv mayClose]
    simp [Build.step]
  | cons w ws ih =>
    obtain ⟨hw, hws⟩ := List.forall_mem_cons.1 h
    have hrest := ih hw hws false (v :: read)
    simp only [itemTokens, List.intercalate_cons_cons, List.append_assoc, List.foldlM_append,
      hv mayClose] at hrest ⊢
    simpa [Build.step] using hrest

theorem run_entries (key : Option String) {v : Json} {entries : List (Option String × Json)}
    (hv : Makes v.tokens v) (h : ∀ entry ∈ entries, Makes entry.2.tokens entry.2) (mayClose : Bool)
    (read : List (Option String × Json)) (outer : List Open) :
    ([Token.comma].intercalate (entryTokens ((key, v) :: entries)) ++
        [Token.closeObject]).foldlM Build.step (.key mayClose read outer) =
      some (.next (.object (read.reverse ++ (key, v) :: entries)) outer) := by
  induction entries generalizing key v mayClose read with
  | nil =>
    simp only [entryTokens, List.intercalate_singleton, List.cons_append, List.foldlM_cons,
      List.foldlM_append, Build.step, Option.bind_eq_bind, Option.bind_some, hv false]
    simp
  | cons entry entries ih =>
    obtain ⟨hentry, hentries⟩ := List.forall_mem_cons.1 h
    have hrest := ih entry.1 hentry hentries false ((key, v) :: read)
    simp only [entryTokens, List.intercalate_cons_cons, List.append_assoc, List.cons_append,
      List.foldlM_cons, List.foldlM_append, Build.step, Option.bind_eq_bind, Option.bind_some,
      hv false] at hrest ⊢
    simpa [Build.step] using hrest

end Build

open Build

theorem makes_tokens {v : Json} (h : v.WellSpelled) : Makes v.tokens v := by
  induction h with
  | @array items each ih =>
    intro mayClose outer
    cases items with
    | nil => rfl
    | cons v vs =>
      obtain ⟨hv, hvs⟩ := List.forall_mem_cons.1 ih
      exact run_items hv hvs true [] outer
  | @object entries each ih =>
    intro mayClose outer
    cases entries with
    | nil => rfl
    | cons entry entries =>
      obtain ⟨hentry, hentries⟩ := List.forall_mem_cons.1 ih
      exact run_entries _ hentry hentries true [] outer
  | _ => exact fun _ _ => rfl

/-- What is printed is read back. -/
theorem parse?_pretty {v : Json} (h : v.WellSpelled) : parse? v.pretty = some v := by
  obtain ⟨s, hrun, hholds⟩ := spells_prettyAt h 0 []
  have htokens : tokens? v.pretty.toList = some v.tokens := by
    rw [List.append_nil] at hholds
    simp only [tokens?, pretty, Scan.start, hrun, Option.bind_some, hholds.finish,
      List.reverse_reverse]
  simp only [parse?, ofTokens?, Build.start, htokens, makes_tokens h false [], Option.bind_some,
    Build.finish]

end Cdr.Json
