import Cdr.Proofs.DeclaredMembers
import Cdr.Proofs.TypeSpellings

/-! # Names of declared types

A type that is declared outside of any namespace can be referred to by its name, alone or inside of
containers, when the name spells nothing else. Only where it begins as the names of fixed-size
strings do, it is not read as a name: what stands behind is taken for a length, and the declared
type is out of reach of every field.
-/

namespace Cdr

open Text Compile

namespace TypeExpr

variable {name : String} {t : TypeExpr} {rest text : List Char}

/-! ## Ordinary names -/

/-- A word that spells neither a primitive nor a string, and no fixed-size string of some length. -/
structure IsOrdinary (name : String) : Prop extends IsWord name where
  noPrimitive : ∀ p : Primitive, name ∉ p.spellings
  noString : name ≠ "string" ∧ name ≠ "String"
  noFixedString : ∀ length : List Char, length ≠ [] → (∀ c ∈ length, c.isDigit = true) →
    name.toList ≠ "FixedString".toList ++ length

namespace IsOrdinary

theorem ofName?_eq_none (h : IsOrdinary name) : Primitive.ofName? name = none := by
  have htrim : trim name = name := by
    rw [trim, h.written.trimChars_eq, String.ofList_toList]
  rw [Primitive.ofName?, List.find?_eq_none]
  intro p _ hspelled
  rw [htrim, List.contains_iff_mem] at hspelled
  exact h.noPrimitive p hspelled

theorem isName (h : IsOrdinary name) (hfixed : ¬"FixedString".toList <+: name.toList) :
    IsName name := by
  have hblank : ∀ c ∈ name.toList, c ≠ ' ' := by
    rintro c hc rfl
    exact absurd (h.isBlank_eq_false hc) (by decide)
  refine ⟨h.nonempty, fun c hc => ?_, fun hhead => ?_, fun hlast => ?_, h.noString, hfixed⟩
  · exact (h.characters c hc).imp_right .inl
  · exact hblank _ (List.mem_of_head? hhead) rfl
  · exact hblank _ (List.mem_of_getLast? hlast) rfl

/-- What stands behind the opening word of a fixed-size string is no length, or else the name would
    be that of one. -/
theorem readLength_eq_error (h : IsOrdinary name)
    (hrest : name.toList = "FixedString".toList ++ rest) :
    readLength rest = .error (.badLength (String.ofList rest)) := by
  have hmem : ∀ c ∈ rest, c ∈ name.toList := by
    intro c hc
    rw [hrest]
    exact List.mem_append_right _ hc
  have htrim : trimChars rest = rest := by
    by_cases hne : rest = []
    · rw [hne, trimChars_nil]
    · exact (trimmed_of_forall hne fun c hc => h.isBlank_eq_false (hmem c hc)).trimChars_eq
  have hdecimal : readDecimal? rest = none := by
    unfold readDecimal?
    split
    next hall =>
      obtain ⟨hne, hdigits⟩ := Bool.and_eq_true_iff.1 hall
      refine absurd hrest (h.noFixedString rest ?_ (List.all_eq_true.1 hdigits))
      rintro rfl
      cases hne
    next => rfl
  have hcount : readCount? rest = none := by
    unfold readCount?
    split
    next signed =>
      rcases h.characters '+' (hmem _ List.mem_cons_self) with halphanum | hunderscore
      · exact absurd halphanum (by decide)
      · exact absurd hunderscore (by decide)
    next => simp only [hdecimal, Option.bind_none]
  rw [readLength, htrim, hcount]

theorem ofWord_fixedString (h : IsOrdinary name)
    (hrest : name.toList = "FixedString".toList ++ rest) :
    ofWord name.toList = .error (.badLength (String.ofList rest)) := by
  have hprefix : fixedStringLength? name.toList = some rest := by
    rw [fixedStringLength?, hrest, if_pos]
    · rw [List.drop_left]
    · exact List.isPrefixOf_iff_prefix.2 (List.prefix_append _ _)
  simp only [ofWord, String.ofList_toList, if_neg (not_or.2 h.noString), hprefix,
    h.readLength_eq_error hrest]
  rfl

end IsOrdinary

/-! ## Trees over a name -/

/-- That nothing in a type is optional and no array in it is empty, so that it may stand inside of
    another. -/
def Solid : TypeExpr → Prop
  | sequence element _ => element.Solid
  | list element => element.Solid
  | array element length => length ≠ 0 ∧ element.Solid
  | optional _ => False
  | _ => True

def isOptional : TypeExpr → Bool
  | optional _ => true
  | _ => false

/-- The type below an optional mark. -/
def core : TypeExpr → TypeExpr
  | optional inner => inner
  | t => t

/-- The containers of a tree, put around a declared type. -/
def around {n : Nat} (i : Fin n) : TypeExpr → MemberType n
  | named _ => .type i
  | string bound => .string bound
  | fixedString capacity => .fixedString capacity
  | sequence element bound => .sequence (element.around i) bound
  | list element => .sequence (element.around i) none
  | array element length => .array (element.around i) length
  | optional inner => inner.around i

variable {bound fixedLength : Option UInt32}

theorem solid_constrain : (t.constrain bound fixedLength).Solid ↔ t.Solid := by
  cases t with
  | string own => cases fixedLength <;> exact Iff.rfl
  | list element => cases bound <;> exact Iff.rfl
  | _ => exact Iff.rfl

theorem HoldsOnly.core (h : t.HoldsOnly name) : t.core.HoldsOnly name := by
  cases t <;> exact h

theorem HoldsOnly.constrain (h : t.HoldsOnly name) :
    (t.constrain bound fixedLength).HoldsOnly name := by
  induction t with
  | string own => cases h
  | list element => cases bound <;> exact h
  | optional inner ih => exact ih h
  | _ => exact h

theorem core_eq_self (hrequired : t.isOptional = false) : t.core = t := by
  cases t with
  | optional inner => cases hrequired
  | _ => rfl

theorem isOptional_constrain (hrequired : t.isOptional = false) :
    (t.constrain bound fixedLength).isOptional = false := by
  cases t with
  | string own => cases fixedLength <;> rfl
  | list element => cases bound <;> rfl
  | optional inner => cases hrequired
  | _ => rfl

/-- The annotations of a field reach below its optional mark, and may give it one. -/
theorem annotate_eq (t : TypeExpr) (a : Annotations) :
    t.annotate a = if t.isOptional || a.optional then
      optional (t.core.constrain a.bound a.fixedLength) else
        t.core.constrain a.bound a.fixedLength := by
  cases hmarked : t.isOptional with
  | true =>
    cases t with
    | optional inner => rfl
    | _ => cases hmarked
  | false =>
    have hplain : (t.constrain a.bound a.fixedLength).isOptional = false :=
      isOptional_constrain hmarked
    rw [core_eq_self hmarked, Bool.false_or, annotate]
    split
    next heq =>
      rw [heq] at hplain
      cases hplain
    next => rfl

end TypeExpr

/-! ## Resolving a name -/

namespace Compile

variable {n : Nat} {decls : Fin n → TypeDecl} {i : Fin n} {owner : TypeDecl} {f : FieldDecl}
  {name : String} {t : TypeExpr}

/-- Outside of any namespace a full name refers to the type that is declared by it. -/
theorem resolve_eq_some (hdistinct : Function.Injective fun i => (decls i).full)
    (hdeclared : (decls i).toTypeName = ⟨name, ""⟩) : resolve decls "" name = some i := by
  rw [resolve_eq_some_iff hdistinct]
  refine .full (fun j hnear => hnear.1 rfl) ?_
  rw [hdeclared]
  rfl

/-- A tree over a name that refers to a type is resolved to the tree over the type. -/
theorem memberType_eq_ok_iff_around {type : MemberType n}
    (hprimitive : Primitive.ofName? name = none)
    (hresolve : resolve decls owner.scope name = some i) (h : t.HoldsOnly name) :
    memberType decls owner f t = .ok type ↔ t.Solid ∧ type = t.around i := by
  induction t generalizing type with
  | named other =>
    obtain rfl : other = name := h
    simp only [memberType, hprimitive, hresolve, Except.ok.injEq, TypeExpr.Solid, TypeExpr.around,
      true_and]
    exact eq_comm
  | string own => cases h
  | fixedString capacity => cases h
  | sequence element own ih =>
    simp only [memberType, bind_eq_ok_iff, pure_eq_ok_iff, ih h, TypeExpr.Solid, TypeExpr.around]
    constructor
    · rintro ⟨_, ⟨hsolid, rfl⟩, rfl⟩
      exact ⟨hsolid, rfl⟩
    · rintro ⟨hsolid, rfl⟩
      exact ⟨_, ⟨hsolid, rfl⟩, rfl⟩
  | list element ih =>
    simp only [memberType, bind_eq_ok_iff, pure_eq_ok_iff, ih h, TypeExpr.Solid, TypeExpr.around]
    constructor
    · rintro ⟨_, ⟨hsolid, rfl⟩, rfl⟩
      exact ⟨hsolid, rfl⟩
    · rintro ⟨hsolid, rfl⟩
      exact ⟨_, ⟨hsolid, rfl⟩, rfl⟩
  | array element length ih =>
    simp only [memberType, check_eq_ok_iff, bind_eq_ok_iff, pure_eq_ok_iff, ih h, TypeExpr.Solid,
      TypeExpr.around]
    constructor
    · rintro ⟨hlength, _, ⟨hsolid, rfl⟩, rfl⟩
      exact ⟨⟨hlength, hsolid⟩, rfl⟩
    · rintro ⟨⟨hlength, hsolid⟩, rfl⟩
      exact ⟨hlength, _, ⟨hsolid, rfl⟩, rfl⟩
  | optional inner =>
    simp only [memberType, TypeExpr.Solid, false_and, iff_false]
    rintro ⟨⟩

end Compile

/-- The member that a field declares whose type is a tree over the name of a declared type. -/
def FieldDecl.memberAround {n : Nat} (f : FieldDecl) (index : Nat) (t : TypeExpr) (i : Fin n) :
    Member n where
  name := f.name
  id := f.idAt index
  type := (t.core.constrain f.annotations.bound f.annotations.fixedLength).around i
  optional := t.isOptional || f.annotations.optional
  key := f.annotations.key

namespace Compile

variable {n : Nat} {decls : Fin n → TypeDecl} {i : Fin n} {owner : TypeDecl} {f : FieldDecl}
  {name : String} {t : TypeExpr}

/-- A member is made of the type that its field has with the annotations folded in. -/
theorem member_of_parse (decls : Fin n → TypeDecl) (owner : TypeDecl) (index : Nat)
    (hparse : TypeExpr.parse f.typeText = .ok t) :
    member decls owner index f = (do
      let type ← memberType decls owner f
        (t.core.constrain f.annotations.bound f.annotations.fixedLength)
      return ⟨f.name, f.idAt index, type, t.isOptional || f.annotations.optional,
        f.annotations.key⟩) := by
  simp only [member, hparse, TypeExpr.annotate_eq]
  cases hmarked : (t.isOptional || f.annotations.optional) with
  | true => rfl
  | false =>
    have hrequired := (Bool.or_eq_false_iff.1 hmarked).1
    have hplain : (t.core.constrain f.annotations.bound f.annotations.fixedLength).isOptional =
        false := by
      rw [TypeExpr.core_eq_self hrequired]
      exact TypeExpr.isOptional_constrain hrequired
    generalize t.core.constrain f.annotations.bound f.annotations.fixedLength = plain at hplain ⊢
    cases plain with
    | optional inner => cases hplain
    | _ => rfl

theorem member_eq_ok_iff_around {index : Nat} {m : Member n}
    (hprimitive : Primitive.ofName? name = none)
    (hresolve : resolve decls owner.scope name = some i) (h : t.HoldsOnly name)
    (hparse : TypeExpr.parse f.typeText = .ok t) :
    member decls owner index f = .ok m ↔ t.core.Solid ∧ m = f.memberAround index t i := by
  rw [member_of_parse decls owner index hparse]
  simp only [bind_eq_ok_iff, pure_eq_ok_iff,
    memberType_eq_ok_iff_around hprimitive hresolve h.core.constrain, TypeExpr.solid_constrain]
  constructor
  · rintro ⟨_, ⟨hsolid, rfl⟩, rfl⟩
    exact ⟨hsolid, rfl⟩
  · rintro ⟨hsolid, rfl⟩
    exact ⟨_, ⟨hsolid, rfl⟩, rfl⟩

end Compile

/-! ## Names that are read and names that are not -/

namespace TypeExpr

/-- That a name is one to refer by. The texts over it are read, and where a type of this name is
    declared outside of any namespace, every field there with such a text has a member of that
    type. -/
structure RefersByName (name : String) : Prop where
  alone : parse name = .ok (named name)
  texts : ∀ t (text : String),
    parse text = .ok t ∧ t.HoldsOnly name ↔ Spells name t text.toList
  fields : ∀ {n : Nat} {decls : Fin n → TypeDecl} {i : Fin n} {owner : TypeDecl},
    (Function.Injective fun i => (decls i).full) → (decls i).toTypeName = ⟨name, ""⟩ →
      owner.scope = "" → ∀ t (f : FieldDecl), Spells name t f.typeText.toList → ∀ index m,
        member decls owner index f = .ok m ↔ t.core.Solid ∧ m = f.memberAround index t i
  compiled : ∀ {doc : Document} {schema : Schema}, doc.compile = .ok schema →
    ∀ (i j : Fin schema.size) declared owner, doc.types[i.val]? = some declared →
      declared.toTypeName = ⟨name, ""⟩ → doc.types[j.val]? = some owner → owner.scope = "" →
        owner.kind ≠ .enumeration → ∀ f ∈ owner.fields, ∀ t, Spells name t f.typeText.toList →
          ∃ index, f.memberAround index t i ∈ (schema.get j).body.inMemory

/-- That no text over a name is read, so that no field can have one. -/
structure NeverRead (name : String) (fault : Fault) : Prop where
  texts : ∀ t (text : String), Spells name t text.toList → parse text = .error fault
  unreachable : ∀ t (text : String), parse text = .ok t → ¬t.HoldsOnly name
  fields : ∀ {n : Nat} (decls : Fin n → TypeDecl) (owner : TypeDecl) (f : FieldDecl) t,
    Spells name t f.typeText.toList → ∀ index,
      member decls owner index f = .error (invalidType owner f (.unreadable fault))
  documents : ∀ (doc : Document), ∀ owner ∈ doc.types, owner.kind ≠ .enumeration →
    ∀ f ∈ owner.fields, ∀ t, Spells name t f.typeText.toList → ∀ schema, doc.compile ≠ .ok schema

namespace IsOrdinary

theorem refersByName (h : IsOrdinary name) (hfixed : ¬"FixedString".toList <+: name.toList) :
    RefersByName name := by
  have hword : ofWord name.toList = .ok (named name) := (h.isName hfixed).ofWord
  have htexts : ∀ t (text : String),
      parse text = .ok t ∧ t.HoldsOnly name ↔ Spells name t text.toList :=
    fun t text => parse_eq_ok_iff_spells h.toIsWord hword
  have hfields : ∀ {n : Nat} {decls : Fin n → TypeDecl} {i : Fin n} {owner : TypeDecl},
      (Function.Injective fun i => (decls i).full) → (decls i).toTypeName = ⟨name, ""⟩ →
        owner.scope = "" → ∀ t (f : FieldDecl), Spells name t f.typeText.toList → ∀ index m,
          member decls owner index f = .ok m ↔ t.core.Solid ∧ m = f.memberAround index t i := by
    intro n decls i owner hdistinct hdeclared hscope t f hspells index m
    have hresolve : resolve decls owner.scope name = some i := by
      rw [hscope]
      exact resolve_eq_some hdistinct hdeclared
    obtain ⟨hparse, hold⟩ := (htexts t _).2 hspells
    exact member_eq_ok_iff_around h.ofName?_eq_none hresolve hold hparse
  refine ⟨((htexts _ _).2 .name).1, htexts, hfields, ?_⟩
  intro doc schema hcompile i j declared owner hi hdeclared hj hscope hkind f hf t hspells
  obtain ⟨decls, hdecls, hdistinct, hbodies⟩ := Document.declarations_of_compile hcompile
  obtain rfl := Option.some.inj ((hdecls i).symm.trans hi)
  obtain rfl := Option.some.inj ((hdecls j).symm.trans hj)
  obtain ⟨index, m, hm, hmember⟩ := exists_member_of_field (hbodies j) hkind hf
  obtain ⟨-, rfl⟩ := (hfields hdistinct hdeclared hscope t f hspells index m).1 hmember
  exact ⟨index, hm⟩

theorem neverRead (h : IsOrdinary name) (hrest : name.toList = "FixedString".toList ++ rest) :
    NeverRead name (.badLength (String.ofList rest)) := by
  have hword : ofWord name.toList =
      (Except.error (.badLength (String.ofList rest))).map fun (_ : Unit) => named name :=
    h.ofWord_fixedString hrest
  have htexts : ∀ t (text : String), Spells name t text.toList →
      parse text = .error (.badLength (String.ofList rest)) :=
    fun t text hspells => hspells.parse h.toIsWord hword
  have hfields : ∀ {n : Nat} (decls : Fin n → TypeDecl) (owner : TypeDecl) (f : FieldDecl) t,
      Spells name t f.typeText.toList → ∀ index, member decls owner index f =
        .error (invalidType owner f (.unreadable (.badLength (String.ofList rest)))) := by
    intro n decls owner f t hspells index
    simp only [member, htexts t _ hspells]
    rfl
  refine ⟨htexts, fun t text hparse hold => ?_, hfields, ?_⟩
  · have hrefused := htexts t text (spells_of_parseWithin hold hparse)
    rw [hparse] at hrefused
    cases hrefused
  · intro doc owner howner hkind f hf t hspells schema hcompile
    obtain ⟨decls, hdecls, -, hbodies⟩ := Document.declarations_of_compile hcompile
    obtain ⟨j, hj, rfl⟩ := List.mem_iff_getElem.1 howner
    have hsize := Document.size_of_compile hcompile
    have hget := hdecls ⟨j, hsize ▸ hj⟩
    rw [List.getElem?_eq_getElem hj] at hget
    have hbody := hbodies ⟨j, hsize ▸ hj⟩
    rw [← Option.some.inj hget] at hbody
    obtain ⟨index, m, -, hmember⟩ := exists_member_of_field hbody hkind hf
    rw [hfields decls _ f t hspells index] at hmember
    cases hmember

end IsOrdinary

/-- An ordinary name refers to the type that is declared by it, alone and in all containers, unless
    it begins like the name of a fixed-size string. Then what stands behind is taken for a length,
    which it is not, and no text over the name is read. -/
theorem declared_names_refer {name : String} (h : IsOrdinary name) :
    (¬"FixedString".toList <+: name.toList → RefersByName name) ∧
      ∀ rest, name.toList = "FixedString".toList ++ rest →
        NeverRead name (.badLength (String.ofList rest)) :=
  ⟨h.refersByName, fun _ => h.neverRead⟩

theorem isOrdinary_sequence : IsOrdinary "sequence" where
  toIsWord := by decide
  noPrimitive p := by cases p <;> decide
  noString := by decide
  noFixedString length _ _ hname := by
    have hprefix : ¬"FixedString".toList <+: "sequence".toList := by decide
    exact hprefix ⟨length, hname.symm⟩

theorem isOrdinary_fixedStringPool : IsOrdinary "FixedStringPool" where
  toIsWord := by decide
  noPrimitive p := by cases p <;> decide
  noString := by decide
  noFixedString length _ hdigits hname := by
    have hpool : "FixedStringPool".toList = "FixedString".toList ++ "Pool".toList := by decide
    obtain rfl := List.append_cancel_left (hpool.symm.trans hname)
    exact absurd (hdigits 'P' (by decide)) (by decide)

/-- The word that calls sequences is a name where no angle bracket stands behind it. A pool of fixed
    strings cannot be referred to, nor can an array of them. -/
theorem declared_names_refer_sequence :
    let t := optional (sequence (array (named "sequence") 3) (some 4))
    let text := "BoundedSeq <sequence [03], +4> ?"
    (IsOrdinary "sequence" ∧ Spells "sequence" t text.toList ∧ parse text = .ok t) ∧
      IsOrdinary "FixedStringPool" ∧
        parse "FixedStringPool[2]" = .error (.badLength "Pool") := by
  intro t text
  have hblank : ∀ c ∈ [' '], isBlank c = true := List.forall_mem_singleton.2 (by decide)
  have hname : Spells "sequence" (named "sequence") "sequence ".toList :=
    .blanks .name (List.forall_mem_nil _) hblank
  have helement : Spells "sequence" (array (named "sequence") 3) "sequence [03]".toList :=
    .array hname (show readLength ['0', '3'] = .ok 3 by decide)
  have hcontainer : Spells "sequence" (sequence (array (named "sequence") 3) (some 4))
      "BoundedSeq <sequence [03], +4>".toList :=
    .bounded (show "BoundedSeq" ∈ sequenceWords by decide) hblank helement
      (show readLength [' ', '+', '4'] = .ok 4 by decide)
  have hspaced : Spells "sequence" (sequence (array (named "sequence") 3) (some 4))
      "BoundedSeq <sequence [03], +4> ".toList :=
    .blanks hcontainer (List.forall_mem_nil _) hblank
  have hspells : Spells "sequence" t "BoundedSeq <sequence [03], +4> ?".toList :=
    .mark hspaced
  have harray : Spells "FixedStringPool" (array (named "FixedStringPool") 2)
      "FixedStringPool[2]".toList :=
    .array .name (show readLength ['2'] = .ok 2 by decide)
  have hsequence := (declared_names_refer isOrdinary_sequence).1 (by decide)
  have hpool := (declared_names_refer isOrdinary_fixedStringPool).2 "Pool".toList (by decide)
  exact ⟨⟨isOrdinary_sequence, hspells, ((hsequence.texts t text).2 hspells).1⟩,
    isOrdinary_fixedStringPool, hpool.texts _ _ harray⟩

/-- A tank with a pool of fixed strings in it, which are declared. -/
def tankDoc : Document where
  types := [
    { name := "FixedStringPool"
      scope := ""
      fields := [FieldDecl.new "count" "int32"] },
    { name := "Tank"
      scope := ""
      fields := [FieldDecl.new "pool" "FixedStringPool"] }]

/-- The name of a pool of fixed strings is ordinary, but no field has the type that it declares. -/
theorem fixedStringPool_unread :
    (IsOrdinary "FixedStringPool" ∧ (tankDoc.types.map TypeDecl.toTypeName).head? =
      some ⟨"FixedStringPool", ""⟩) ∧
    parse "FixedStringPool" = .error (.badLength "Pool") ∧
    tankDoc.compile = .error (.invalidType "Tank" "pool" "FixedStringPool"
      (.unreadable (.badLength "Pool"))) ∧
    ¬RefersByName "FixedStringPool" := by
  have hparse : parse "FixedStringPool" = .error (.badLength "Pool") := by decide +kernel
  refine ⟨⟨isOrdinary_fixedStringPool, rfl⟩, hparse, by decide +kernel, fun hrefers => ?_⟩
  have halone := hrefers.alone
  rw [hparse] at halone
  cases halone

end TypeExpr

end Cdr
