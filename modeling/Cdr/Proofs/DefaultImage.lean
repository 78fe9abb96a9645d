import Cdr.Proofs.Correspondence
import Cdr.Proofs.ImageBytes
import Mathlib.Data.Fintype.Card

/-! # Values without bytes

A reader gives the default to a member that a framed body does not reach. This is right for what is
written as no bytes at all, as nothing but the default of its type is, also where it is read under
another schema than it is written under. The types of such a value hold each other by value no
deeper than there are types, which is how deep a default is built.
-/

namespace Cdr

open Image

variable {n : Nat}

/-- A chain of sets of the first `n` numbers that grows until it stands still does so at most `n`
    times. -/
theorem subset_of_grows {s : Nat → Finset (Fin n)} (hgrows : ∀ k, s k ⊆ s (k + 1))
    (hstill : ∀ k, s k = s (k + 1) → s (k + 1) = s (k + 2)) (k : Nat) : s k ⊆ s n := by
  have hmono : ∀ k m, s k ⊆ s (k + m) := by
    intro k m
    induction m with
    | zero => exact Finset.Subset.refl _
    | succ m ih => exact Finset.Subset.trans ih (hgrows (k + m))
  -- Until the chain stands still, each step adds a number.
  have hcard : ∀ k, s k = s (k + 1) ∨ k + 1 ≤ (s (k + 1)).card := by
    intro k
    induction k with
    | zero =>
      by_cases h : s 0 = s 1
      · exact .inl h
      · have hlt := Finset.card_lt_card ((hgrows 0).ssubset_of_ne h)
        exact .inr (by omega)
    | succ k ih =>
      by_cases h : s (k + 1) = s (k + 2)
      · exact .inl h
      · have hlt := Finset.card_lt_card ((hgrows (k + 1)).ssubset_of_ne h)
        rcases ih with hsame | hle
        · exact absurd (hstill k hsame) h
        · exact .inr (by omega)
  have hend : s n = s (n + 1) := by
    rcases hcard n with h | h
    · exact h
    · have hle := Finset.card_le_univ (s (n + 1))
      rw [Fintype.card_fin] at hle
      omega
  have hafter : ∀ m, s (n + m) = s n ∧ s (n + m) = s (n + m + 1) := by
    intro m
    induction m with
    | zero => exact ⟨rfl, hend⟩
    | succ m ih => exact ⟨ih.2.symm.trans ih.1, hstill (n + m) ih.2⟩
  rcases Nat.le_total k n with h | h
  · obtain ⟨m, rfl⟩ := Nat.exists_eq_add_of_le h
    exact hmono k m
  · obtain ⟨m, rfl⟩ := Nat.exists_eq_add_of_le h
    rw [(hafter m).1]

namespace MemberType

/-- Whether a default can be built for a member, given the types for which one can. -/
def GroundedWith (ofType : Fin n → Prop) : MemberType n → Prop
  | array element length => length.toNat = 0 ∨ element.GroundedWith ofType
  | type index => ofType index
  | _ => True

theorem GroundedWith.mono {p q : Fin n → Prop} (h : ∀ i, p i → q i) {t : MemberType n}
    (ht : t.GroundedWith p) : t.GroundedWith q := by
  induction t with
  | array element length ih => exact ht.imp id ih
  | type i => exact h i ht
  | _ => trivial

theorem defaultWith_congr {f g : Fin n → Value} {t : MemberType n}
    (h : t.GroundedWith fun i => f i = g i) : t.defaultWith f = t.defaultWith g := by
  induction t with
  | array element length ih =>
    simp only [defaultWith]
    rcases h with hnone | h
    · rw [hnone, List.replicate_zero, List.replicate_zero]
    · rw [ih h]
  | type i => exact h
  | _ => rfl

end MemberType

namespace Schema

variable (schema : Schema)

/-- Whether the default of a type is built within `levels` levels. -/
def GroundedWithin : Nat → Fin schema.size → Prop
  | 0, _ => False
  | levels + 1, i =>
    match (schema.get i).body with
    | .struct s =>
      ∀ m ∈ s.members, m.optional = false → m.type.GroundedWith (GroundedWithin levels)
    | _ => True

theorem groundedWithin_congr {p q : Nat}
    (h : ∀ i, schema.GroundedWithin p i → schema.GroundedWithin q i) (i : Fin schema.size)
    (hi : schema.GroundedWithin (p + 1) i) : schema.GroundedWithin (q + 1) i := by
  simp only [GroundedWithin] at hi ⊢
  split at hi
  next s _ => exact fun m hm hoptional => (hi m hm hoptional).mono h
  next => trivial

theorem groundedWithin_succ (levels : Nat) (i : Fin schema.size)
    (h : schema.GroundedWithin levels i) : schema.GroundedWithin (levels + 1) i := by
  induction levels generalizing i with
  | zero => exact h.elim
  | succ levels ih => exact schema.groundedWithin_congr ih i h

/-- No default takes more levels than there are types. -/
theorem groundedWithin_size {levels : Nat} {i : Fin schema.size}
    (h : schema.GroundedWithin levels i) : schema.GroundedWithin schema.size i := by
  classical
  let s (k : Nat) : Finset (Fin schema.size) := Finset.univ.filter (schema.GroundedWithin k)
  have hmem : ∀ k j, j ∈ s k ↔ schema.GroundedWithin k j := by
    intro k j
    simp [s]
  have hgrows : ∀ k, s k ⊆ s (k + 1) := by
    intro k j hj
    rw [hmem] at hj ⊢
    exact schema.groundedWithin_succ k j hj
  have hstill : ∀ k, s k = s (k + 1) → s (k + 1) = s (k + 2) := by
    intro k hsame
    refine Finset.Subset.antisymm (hgrows (k + 1)) fun j hj => ?_
    rw [hmem] at hj ⊢
    refine schema.groundedWithin_congr (fun other h => ?_) j hj
    rw [← hmem] at h ⊢
    rw [hsame]
    exact h
  have hsub := subset_of_grows hgrows hstill levels ((hmem levels i).2 h)
  exact (hmem schema.size i).1 hsub

/-- More levels than a default takes change nothing. -/
theorem defaultWithin_of_le {levels more : Nat} {i : Fin schema.size}
    (h : schema.GroundedWithin levels i) (hle : levels ≤ more) :
    schema.defaultWithin more i = schema.defaultWithin levels i := by
  induction levels generalizing more i with
  | zero => exact h.elim
  | succ levels ih =>
    obtain ⟨more, rfl⟩ : ∃ k, more = k + 1 := ⟨more - 1, by omega⟩
    simp only [GroundedWithin, defaultWithin] at h ⊢
    cases hbody : (schema.get i).body with
    | struct s =>
      rw [hbody] at h
      simp only [] at h ⊢
      refine congrArg (fun pairs => Value.struct (Entries.ofList pairs)) ?_
      refine List.map_congr_left fun m hm => ?_
      obtain ⟨hm, hoptional⟩ := List.mem_filter.1 hm
      have hground := h m hm (by simpa using hoptional)
      have hlevels := Nat.le_of_succ_le_succ hle
      rw [MemberType.defaultWith_congr (hground.mono fun j hj => ih hj hlevels)]
    | _ => rfl

/-- The levels that a default is built from do not show in it, once they are enough. -/
theorem default_eq {levels : Nat} {t : MemberType schema.size}
    (h : t.GroundedWith (schema.GroundedWithin levels)) :
    schema.default t = t.defaultWith (schema.defaultWithin levels) := by
  refine MemberType.defaultWith_congr (h.mono fun i hi => ?_)
  rcases Nat.le_total levels schema.size with hle | hle
  · exact schema.defaultWithin_of_le hi hle
  · exact (schema.defaultWithin_of_le (schema.groundedWithin_size hi) hle).symm

end Schema

section

variable {schema : Schema} {e : Encoding} {ofType : String → Fin schema.size → Value → Image}
  {ask : String → Fin schema.size → Value → Demand}
  {absence : Member schema.size → List (Member schema.size) → Demand} {x stop : Nat}

/-- Where a list has no bytes, none of its members has, and all of them stand at its position. -/
theorem each_of_no_bytes {α : Type} {f : α → Image} {demand : α → Demand} {items : List α}
    (h : Image.each f items x = .ok []) (hdemand : Demand.each f demand items x stop) :
    ∀ a ∈ items, f a x = .ok [] ∧ demand a x stop := by
  induction items with
  | nil => nofun
  | cons a as ih =>
    obtain ⟨first, rest, hfirst, hrest, hnil⟩ := andThen_eq_ok h
    obtain ⟨rfl, rfl⟩ := List.append_eq_nil_iff.1 hnil.symm
    intro b hb
    rcases List.mem_cons.1 hb with rfl | hb
    · exact ⟨hfirst, hdemand.1⟩
    · exact ih hrest (hdemand.2 [] hfirst) b hb

theorem members_of_no_bytes {typeName : String} {fields : Entries Value}
    {ms : List (Member schema.size)}
    (h : Image.each (memberImage schema e ofType typeName fields) ms x = .ok [])
    (hdemand : membersDemandBy schema e ofType ask absence typeName fields ms x stop) :
    ∀ m ∈ ms, (m.optional = true → fields.get? m.name = none) ∧
      (m.optional = false → ∃ v, fields.get? m.name = some v ∧
        valueImage schema e ofType m.name m.type v x = .ok [] ∧
        valueDemand schema e ofType ask m.name m.type v x stop) := by
  induction ms with
  | nil => simp
  | cons m rest ih =>
    obtain ⟨first, others, hfirst, hothers, hnil⟩ := andThen_eq_ok h
    obtain ⟨rfl, rfl⟩ := List.append_eq_nil_iff.1 hnil.symm
    intro other hmem
    rcases List.mem_cons.1 hmem with rfl | hmem
    · rcases memberImage_eq_ok hfirst with ⟨hget, hoptional, -⟩ | ⟨v, hget, hoptional, hvalue⟩ |
        ⟨v, inner, -, -, -, -, hbytes⟩
      · refine ⟨fun _ => hget, fun h => ?_⟩
        rw [hoptional] at h
        cases h
      · refine ⟨fun h => ?_, fun _ => ⟨v, hget, hvalue, ?_⟩⟩
        · rw [hoptional] at h
          cases h
        · have hd := hdemand.1
          simp only [hget, hoptional, Bool.false_eq_true, if_false] at hd
          exact hd
      · exact absurd hbytes.symm (e.append_wordBytes_ne_nil _ _ _)
    · exact ih hothers (hdemand.2 [] hfirst) other hmem

/-- A value of a member that is written as no bytes is read as the default of the member, which is
    built from types for which that holds. -/
theorem value_of_no_bytes {k : Nat} {Meets : Fin schema.size → Fin k → Prop} {p : Fin k → Prop}
    {f : Fin k → Value} {view : Fin k → Value → Value}
    (htype : ∀ field i j v, Meets i j → ofType field i v x = .ok [] → ask field i v x stop →
      p j ∧ view j v = f j)
    {field : String} {t : MemberType schema.size} {t' : MemberType k}
    (hmeets : t.Corresponds Meets t') {v : Value}
    (h : valueImage schema e ofType field t v x = .ok [])
    (hdemand : valueDemand schema e ofType ask field t v x stop) :
    t'.GroundedWith p ∧ t'.mapWith view v = t'.defaultWith f := by
  induction hmeets generalizing v with
  | primitive q =>
    have hpos := Encoding.length_scalarImage_pos h
    exact absurd hpos (Nat.lt_irrefl 0)
  | string bound =>
    have hle := minSizeWith_le_length (fun _ _ _ _ _ _ => Nat.zero_le _) h
    exact absurd hle (by decide : ¬4 ≤ 0)
  | fixedString capacity =>
    cases v with
    | string text =>
      obtain ⟨-, h⟩ := checked_eq_ok h
      obtain ⟨htext, -⟩ := List.append_eq_nil_iff.1 (Except.ok.inj h)
      have hsize : text.utf8ByteSize = 0 := by
        rw [← Text.length_utf8, htext, List.length_nil]
      refine ⟨trivial, congrArg Value.string ?_⟩
      exact String.utf8ByteSize_eq_zero_iff.1 hsize
    | _ => cases h
  | sequence bound _ ih =>
    have hle := minSizeWith_le_length (fun _ _ _ _ _ _ => Nat.zero_le _) h
    exact absurd hle (by decide : ¬4 ≤ 0)
  | @array element other length _ ih =>
    cases v with
    | sequence items =>
      obtain ⟨hlength, h⟩ := checked_eq_ok h
      have hlength := checkLength_eq_ok hlength
      cases items with
      | nil =>
        refine ⟨.inl hlength.symm, ?_⟩
        rw [MemberType.defaultWith, ← hlength]
        rfl
      | cons first rest =>
        cases hrun : element.blittable? with
        | some q =>
          rw [hrun] at h
          rcases Encoding.elementsImage_run_eq_ok h with ⟨hnil, -⟩ | ⟨ss, hss, -, hp, hbytes⟩
          · cases hnil
          · obtain ⟨-, hnone⟩ := List.append_eq_nil_iff.1 hbytes.symm
            have hsize := Encoding.length_runBytes (e := e) hp
            rw [hnone, List.length_nil] at hsize
            have hpos := Nat.mul_pos (List.length_pos_of_ne_nil hss) q.size_pos
            omega
        | none =>
          rw [hrun] at h
          have hitems := each_of_no_bytes h hdemand
          have hground := ih (hitems first List.mem_cons_self).1 (hitems first List.mem_cons_self).2
          refine ⟨.inr hground.1, congrArg Value.sequence ?_⟩
          rw [← hlength, ← List.length_map (other.mapWith view)]
          apply List.eq_replicate_of_mem
          intro shown hshown
          obtain ⟨item, hitem, rfl⟩ := List.mem_map.1 hshown
          exact (ih (hitems item hitem).1 (hitems item hitem).2).2
    | _ => cases h
  | type hmeets => exact htype field _ _ v hmeets h hdemand

end

/-- Entries with the defaults of the members that are always there, and with no others, are those of
    a default. -/
theorem ofList_defaults {n : Nat} {members : List (Member n)} {f : Fin n → Value}
    {out : Entries Value} (hsorted : out.Sorted)
    (hnames : ∀ name ∈ out.names, name ∈ members.map Member.name)
    (hshown : ∀ m ∈ members,
      out.get? m.name = if m.optional then none else some (m.type.defaultWith f)) :
    Entries.ofList ((members.filter fun m => !m.optional).map fun m =>
      (m.name, m.type.defaultWith f)) = out := by
  apply Entries.insertAll_eq hsorted
  · intro pair hpair
    obtain ⟨m, hm, rfl⟩ := List.mem_map.1 hpair
    obtain ⟨hm, halways⟩ := List.mem_filter.1 hm
    rw [hshown m hm, if_neg (by simpa using halways)]
  · intro name hname
    obtain ⟨m, hm, rfl⟩ := List.mem_map.1 (hnames name hname)
    rw [List.map_map]
    refine List.mem_map.2 ⟨m, List.mem_filter.2 ⟨hm, ?_⟩, rfl⟩
    cases hoptional : m.optional with
    | false => rfl
    | true =>
      have hnone := hshown m hm
      rw [hoptional, if_pos rfl, Entries.get?_eq_none_iff] at hnone
      exact absurd hname hnone

/-- A discriminator has bytes. -/
theorem length_discriminator_pos {schema : Schema} {e : Encoding} {levels : Nat}
    {m : Member schema.size} {d : Int64} {disc : Value} {field : String} {x : Nat}
    {b : List UInt8} (hdisc : discriminatorValue m d = .ok disc)
    (h : valueImage schema e (typeImage schema e levels) field m.type disc x = .ok b) :
    0 < b.length := by
  unfold discriminatorValue at hdisc
  split at hdisc
  next p htype =>
    rw [htype] at h
    exact Encoding.length_scalarImage_pos h
  next i htype =>
    split at hdisc
    next =>
      cases hdisc
      rw [htype] at h
      cases levels with
      | zero => cases h
      | succ levels =>
        rcases typeImage_eq_ok h with ⟨s, fields, -, hv, -⟩ | ⟨u, d, arm, -, hv, -⟩ |
          ⟨enum, k, -, -, himage⟩
        · cases hv
        · cases hv
        · exact Encoding.length_scalarImage_pos himage
    next => cases hdisc
  next => cases hdisc

/-- A union has the bytes of its discriminator. -/
theorem unionImage_ne_nil {schema : Schema} {e : Encoding} {levels : Nat}
    {u : UnionType schema.size} {d : Int64} {arm : Option (String × Value)} {x : Nat} :
    unionImage schema e (typeImage schema e levels) u d arm x ≠ .ok [] := by
  intro h
  obtain ⟨disc, active, first, rest, hdisc, hfirst, -, -, hbytes⟩ := unionImage_eq_ok h
  obtain ⟨rfl, -⟩ := List.append_eq_nil_iff.1 hbytes.symm
  exact absurd (length_discriminator_pos hdisc hfirst) (Nat.lt_irrefl 0)

section

variable {writer reader : Schema} {e : Encoding} (across : Crossing e.repr writer reader)
  {absence : Absence writer.size}

/-- A value of a declared type that is written as no bytes is read as the default of the type. -/
theorem type_of_no_bytes (levels : Nat) (field : String) (i : Fin writer.size)
    (j : Fin reader.size) (v : Value) (x stop : Nat) (hmeets : across.Meets i j)
    (h : typeImage writer e levels field i v x = .ok [])
    (hdemand : typeDemandBy writer e absence levels field i v x stop) :
    reader.GroundedWithin levels j ∧ across.view levels j v = reader.defaultWithin levels j := by
  induction levels generalizing field i j v x stop with
  | zero => cases h
  | succ levels ih =>
    rcases typeImage_eq_ok h with ⟨s, fields, hbody, rfl, himage⟩ |
      ⟨u, d, arm, hbody, rfl, himage⟩ | ⟨enum, n, hbody, rfl, himage⟩
    · obtain ⟨hunframed, hmembers⟩ := Encoding.delimitedImage_eq_nil himage
      simp only [typeDemandBy, hbody, Demand.delimited, hunframed, Bool.false_eq_true, if_false]
        at hdemand
      obtain ⟨hsorted, hnames, hdemand⟩ := hdemand
      have hparts := members_of_no_bytes hmembers hdemand
      obtain ⟨s', own, beyond, common, missing, hbody', hoverlap, hview⟩ :=
        across.struct hmeets hbody
      obtain ⟨rfl, rfl⟩ := hoverlap.bare hunframed
      have hwritten := hoverlap.written.trans (List.append_nil own)
      have hknown := hoverlap.known.trans (List.append_nil common)
      obtain ⟨out, hout, hshows⟩ := hview levels fields hsorted hnames (by
        intro m hm hoptional
        obtain ⟨v, hget, -⟩ := (hparts m (s.perm_wireMembers.mem_iff.2 hm)).2 hoptional
        rw [hget]
        rfl)
      -- What is always there has its default, and what is optional is absent.
      have hshown : ∀ m ∈ s'.members,
          (m.optional = false → m.type.GroundedWith (reader.GroundedWithin levels)) ∧
            out.get? m.name = if m.optional then none
              else some (m.type.defaultWith (reader.defaultWithin levels)) := by
        intro m hm
        have hcommon : m ∈ common := hknown ▸ s'.perm_wireMembers.mem_iff.2 hm
        obtain ⟨origin, horigin, hm⟩ := exists_left_of_mem hoverlap.common hcommon
        have hpart := hparts origin (hwritten ▸ horigin)
        rw [hshows.common m hcommon, hm.name]
        cases hoptional : m.optional with
        | true =>
          rw [if_pos rfl, hpart.1 (hm.optional.symm.trans hoptional)]
          exact ⟨nofun, rfl⟩
        | false =>
          obtain ⟨v, hget, hvalue, hd⟩ := hpart.2 (hm.optional.symm.trans hoptional)
          obtain ⟨hground, hdefault⟩ :=
            value_of_no_bytes (fun field i j v => ih field i j v x stop) hm.type hvalue hd
          rw [if_neg Bool.false_ne_true, hget, ← hdefault]
          exact ⟨fun _ => hground, rfl⟩
      have hmember : ∀ name ∈ out.names, name ∈ s'.members.map Member.name := by
        intro name hname
        have hname := hshows.names name hname
        rw [← hoverlap.known] at hname
        exact (s'.perm_wireMembers.map Member.name).mem_iff.1 hname
      simp only [Schema.GroundedWithin, Schema.defaultWithin, hbody', hout]
      refine ⟨fun m hm => (hshown m hm).1, congrArg Value.struct ?_⟩
      exact (ofList_defaults hshows.sorted hmember fun m hm => (hshown m hm).2).symm
    · exact absurd (Encoding.delimitedImage_eq_nil himage).2 unionImage_ne_nil
    · have hpos := Encoding.length_scalarImage_pos himage
      exact absurd hpos (Nat.lt_irrefl 0)

/-- A value of a member that is written as no bytes is read as what the member takes when it is
    missing. -/
theorem default_of_no_bytes {levels : Nat} {field : String} {t : MemberType writer.size}
    {t' : MemberType reader.size} (hmeets : t.Corresponds across.Meets t') {v : Value}
    {x stop : Nat} (h : valueImage writer e (typeImage writer e levels) field t v x = .ok [])
    (hdemand : valueDemand writer e (typeImage writer e levels)
      (typeDemandBy writer e absence levels) field t v x stop) :
    t'.mapWith (across.view levels) v = reader.default t' := by
  obtain ⟨hground, hdefault⟩ := value_of_no_bytes
    (fun field i j v => type_of_no_bytes across levels field i j v x stop) hmeets h hdemand
  rw [reader.default_eq hground]
  exact hdefault

end

end Cdr
