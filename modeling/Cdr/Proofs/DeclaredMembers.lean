import Cdr.Proofs.StoredLayouts

/-! # The members of a declaration

A compiled type has one member for each field of its declaration: a struct in the order of the
fields, a union with its discriminator in front. What the fields are called does not matter here, so
two members may bear one name.
-/

namespace Cdr

open Compile

/-- The fields that are compiled to members; those of an enumeration are not looked at. -/
def TypeDecl.memberFields (t : TypeDecl) : List FieldDecl :=
  match t.kind with
  | .enumeration => []
  | _ => t.fields

theorem TypeDecl.memberFields_eq {t : TypeDecl} (h : t.kind ≠ .enumeration) :
    t.memberFields = t.fields := by
  unfold memberFields
  cases hkind : t.kind with
  | enumeration => exact absurd hkind h
  | _ => rfl

namespace Compile

variable {n : Nat} {decls : Fin n → TypeDecl} {owner : TypeDecl} {body : TypeBody n}

/-- The members that lie in memory are those of the fields, each with the index of its field. -/
theorem members_of_typeBody (h : typeBody decls owner = .ok body) :
    ∃ fields, fields.Perm owner.memberFields.zipIdx ∧
      List.Forall₂ (fun f m => member decls owner f.2 f.1 = .ok m) fields body.inMemory := by
  unfold typeBody at h
  unfold TypeDecl.memberFields
  cases hkind : owner.kind with
  | struct =>
    simp only [hkind, bind_eq_ok_iff, pure_eq_ok_iff] at h ⊢
    obtain ⟨members, hmembers, rfl⟩ := h
    exact ⟨_, .refl _, (structMembers_eq_ok_iff.1 hmembers).2.1⟩
  | union =>
    simp only [hkind, bind_eq_ok_iff, pure_eq_ok_iff] at h ⊢
    obtain ⟨u, hu, rfl⟩ := h
    obtain ⟨f, hunion⟩ := unionType_eq_ok_iff.1 hu
    refine ⟨_, perm_fields hunion.only, .cons hunion.discriminator ?_⟩
    rw [List.forall₂_map_right_iff]
    exact hunion.arms.imp fun _ _ harm => harm.member
  | enumeration =>
    simp only [hkind, bind_eq_ok_iff, pure_eq_ok_iff] at h ⊢
    obtain ⟨es, -, rfl⟩ := h
    exact ⟨[], .nil, .nil⟩

theorem exists_member_of_field (h : typeBody decls owner = .ok body)
    (hkind : owner.kind ≠ .enumeration) {f : FieldDecl} (hf : f ∈ owner.fields) :
    ∃ index, ∃ m ∈ body.inMemory, member decls owner index f = .ok m := by
  obtain ⟨fields, hperm, hmembers⟩ := members_of_typeBody h
  rw [TypeDecl.memberFields_eq hkind] at hperm
  obtain ⟨index, hindex⟩ : ∃ index, (f, index) ∈ owner.fields.zipIdx := by
    rw [← List.zipIdx_map_fst 0 owner.fields] at hf
    obtain ⟨⟨_, index⟩, hmem, rfl⟩ := List.mem_map.1 hf
    exact ⟨index, hmem⟩
  obtain ⟨m, hm, hmember⟩ := exists_right_of_mem hmembers (hperm.mem_iff.2 hindex)
  exact ⟨index, m, hm, hmember⟩

theorem names_inMemory (hdistinct : Function.Injective fun i => (decls i).full)
    (h : typeBody decls owner = .ok body) :
    (body.inMemory.map Member.name).Perm (owner.memberFields.map FieldDecl.name) := by
  obtain ⟨fields, hperm, hmembers⟩ := members_of_typeBody h
  have hnames : body.inMemory.map Member.name = (fields.map Prod.fst).map FieldDecl.name := by
    rw [List.map_map]
    apply map_eq_of_forall₂ _ hmembers
    intro f m hm
    exact ((member_eq_ok_iff hdistinct).1 hm).2.1
  rw [hnames]
  have hfields := hperm.map Prod.fst
  rw [List.zipIdx_map_fst] at hfields
  exact hfields.map FieldDecl.name

end Compile

/-- A schema is compiled from the declarations at the indices of its types. -/
theorem Document.declarations_of_compile {doc : Document} {schema : Schema}
    (h : doc.compile = .ok schema) :
    ∃ decls : Fin schema.size → TypeDecl, (∀ i, doc.types[i.val]? = some (decls i)) ∧
      (Function.Injective fun i => (decls i).full) ∧
        ∀ i, typeBody decls (decls i) = .ok (schema.get i).body := by
  obtain ⟨hnames, bodies, order, hbodies, -, rfl⟩ := compile_eq_ok_iff.1 h
  refine ⟨doc.types.get, fun i => List.getElem?_eq_getElem i.isLt, full_injective hnames,
    fun i => ?_⟩
  have hbody := congrArg CompiledType.body (get_assemble doc bodies (storedLayout bodies order) i)
  exact (hbodies i).trans (congrArg Except.ok hbody.symm)

end Cdr
