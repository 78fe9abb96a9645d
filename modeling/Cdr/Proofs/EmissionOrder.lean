import Cdr.Idl
import Cdr.Proofs.Cycles

/-! # The order of definitions

A walk lists every node once, whether or not the graph has cycles. What a node points to stands in
front of it, unless it leads back to the node: then it may have been open when the node was done. So
a type is defined behind all that it names and that does not name it in turn.
-/

namespace Cdr

open Relation

namespace Graph

variable {n : Nat} {next : Fin n → List (Fin n)}

/-- A depth-first search that comes to its end, from nodes one after the other while those of `path`
    are open. No number says how deep it may be: it is as deep as its derivation. -/
inductive Searches (next : Fin n → List (Fin n)) :
    List (Fin n) → List (Fin n) → Walk n → Walk n → Prop
  | nil {path : List (Fin n)} {walk : Walk n} : Searches next path [] walk walk
  | known {path nodes : List (Fin n)} {node : Fin n} {walk after : Walk n}
    (done : node ∈ walk.done) (rest : Searches next path nodes walk after) :
    Searches next path (node :: nodes) walk after
  | met {path nodes : List (Fin n)} {node : Fin n} {walk after : Walk n}
    (pending : node ∉ walk.done) (opened : node ∈ path)
    (rest : Searches next path nodes ⟨walk.done, walk.loop.or (some node)⟩ after) :
    Searches next path (node :: nodes) walk after
  | visit {path nodes : List (Fin n)} {node : Fin n} {walk below after : Walk n}
    (pending : node ∉ walk.done) (fresh : node ∉ path)
    (inside : Searches next (node :: path) (next node) walk below)
    (rest : Searches next path nodes ⟨node :: below.done, below.loop⟩ after) :
    Searches next path (node :: nodes) walk after

namespace Searches

variable {path nodes : List (Fin n)} {walk after : Walk n}

theorem append {others : List (Fin n)} {mid : Walk n} (h : Searches next path nodes walk mid)
    (hothers : Searches next path others mid after) :
    Searches next path (nodes ++ others) walk after := by
  induction h with
  | nil => exact hothers
  | known done rest ih => exact .known done (ih hothers)
  | met pending opened rest ih => exact .met pending opened (ih hothers)
  | visit pending fresh inside rest _ ih => exact .visit pending fresh inside (ih hothers)

/-- What is done stays done, and every node that is searched from is done or open. -/
theorem reaches (h : Searches next path nodes walk after) :
    (∀ node ∈ walk.done, node ∈ after.done) ∧
      ∀ node ∈ nodes, node ∈ after.done ∨ node ∈ path := by
  induction h with
  | nil => exact ⟨fun _ hdone => hdone, nofun⟩
  | known done rest ih =>
    obtain ⟨hkept, hreached⟩ := ih
    exact ⟨hkept, List.forall_mem_cons.2 ⟨.inl (hkept _ done), hreached⟩⟩
  | met pending opened rest ih =>
    obtain ⟨hkept, hreached⟩ := ih
    exact ⟨hkept, List.forall_mem_cons.2 ⟨.inr opened, hreached⟩⟩
  | visit pending fresh inside rest ihInside ih =>
    obtain ⟨hkept, hreached⟩ := ih
    refine ⟨?_, List.forall_mem_cons.2 ⟨.inl (hkept _ List.mem_cons_self), hreached⟩⟩
    intro other hdone
    exact hkept other (List.mem_cons_of_mem _ (ihInside.1 other hdone))

end Searches

/-- Every node, latest first, stands in front of those it points to, apart from those that lead back
    to it. -/
def NearlyOrdered (next : Fin n → List (Fin n)) : List (Fin n) → Prop
  | [] => True
  | node :: rest =>
    (∀ other ∈ next node, other ∈ rest ∨ TransGen (Edge next) other node) ∧
      NearlyOrdered next rest

theorem NearlyOrdered.of_append {later earlier : List (Fin n)}
    (h : NearlyOrdered next (later ++ earlier)) : NearlyOrdered next earlier := by
  induction later with
  | nil => exact h
  | cons node later ih => exact ih h.2

namespace Searches

variable {path nodes : List (Fin n)} {walk after : Walk n}

/-- A search keeps this, when every open node leads to those it is searched from. What a node points
    to is done or open when the node is done, and what is open leads to it. -/
theorem nearlyOrdered (h : Searches next path nodes walk after)
    (hpath : ∀ before ∈ path, ∀ node ∈ nodes, TransGen (Edge next) before node)
    (hordered : NearlyOrdered next walk.done) : NearlyOrdered next after.done := by
  induction h with
  | nil => exact hordered
  | known done rest ih =>
    exact ih (fun before hbefore => (List.forall_mem_cons.1 (hpath before hbefore)).2) hordered
  | met pending opened rest ih =>
    exact ih (fun before hbefore => (List.forall_mem_cons.1 (hpath before hbefore)).2) hordered
  | @visit path nodes node walk below after pending fresh inside rest ihInside ih =>
    have hopen : ∀ before ∈ path, TransGen (Edge next) before node :=
      fun before hbefore => (List.forall_mem_cons.1 (hpath before hbefore)).1
    refine ih (fun before hbefore => (List.forall_mem_cons.1 (hpath before hbefore)).2) ⟨?_, ?_⟩
    · intro other hedge
      rcases inside.reaches.2 other hedge with hdone | hother
      · exact .inl hdone
      · rcases List.mem_cons.1 hother with rfl | hother
        · exact .inr (.single hedge)
        · exact .inr (hopen other hother)
    · refine ihInside ?_ hordered
      intro before hbefore other hedge
      rcases List.mem_cons.1 hbefore with rfl | hbefore
      · exact .single hedge
      · exact (hopen before hbefore).tail hedge

/-- Steps that are searches are a search, one after the other. -/
theorem foldl (step : Fin n → Walk n → Walk n)
    (hstep : ∀ node walk, Searches next path [node] walk (step node walk)) (nodes : List (Fin n))
    (walk : Walk n) :
    Searches next path nodes walk (nodes.foldl (fun walk node => step node walk) walk) := by
  induction nodes generalizing walk with
  | nil => exact .nil
  | cons node nodes ih => exact (hstep node walk).append (ih (step node walk))

end Searches

/-- A visit is a search. Its levels do not run out, as the open nodes differ from each other. -/
theorem searches_visit (levels : Nat) (path : List (Fin n)) (node : Fin n) (walk : Walk n)
    (hpath : path.Nodup) (hlevels : n < levels + path.length) :
    Searches next path [node] walk (Walk.visit next levels path node walk) := by
  induction levels generalizing path node walk with
  | zero =>
    have hfew := hpath.length_le_card
    rw [Fintype.card_fin] at hfew
    omega
  | succ levels ih =>
    unfold Walk.visit
    by_cases hdone : node ∈ walk.done
    · rw [if_pos hdone]
      exact .known hdone .nil
    · rw [if_neg hdone]
      by_cases hopen : node ∈ path
      · rw [if_pos hopen]
        exact .met hdone hopen .nil
      · rw [if_neg hopen]
        have hmore : (node :: path).Nodup := List.nodup_cons.2 ⟨hopen, hpath⟩
        have hdeep : n < levels + (node :: path).length := by
          rw [List.length_cons]
          omega
        refine .visit hdone hopen ?_ .nil
        exact .foldl (Walk.visit next levels (node :: path))
          (fun other walk => ih (node :: path) other walk hmore hdeep) (next node) walk

variable (next) in
theorem searches_walk : Searches next [] (List.finRange n) Walk.start (walk next) :=
  .foldl (Walk.visit next (n + 1) [])
    (fun node walk => searches_visit (n + 1) [] node walk List.nodup_nil (Nat.lt_succ_self n))
    (List.finRange n) Walk.start

variable (next) in
/-- A walk lists every node once, also where there are cycles. -/
theorem perm_order_walk : (walk next).order.Perm (List.finRange n) := by
  have hnodup : (walk next).order.Nodup := List.nodup_reverse.2 (clean_walk next).nodup
  refine (List.perm_ext_iff_of_nodup hnodup (List.nodup_finRange n)).2 fun node => ?_
  have hreached := (searches_walk next).reaches.2 node (List.mem_finRange node)
  have hdone : node ∈ (walk next).done := hreached.resolve_right List.not_mem_nil
  exact iff_of_true (List.mem_reverse.2 hdone) (List.mem_finRange node)

/-- What a node points to stands in front of it, or leads back to it. -/
theorem before_or_leads_back {before after : List (Fin n)} {node : Fin n}
    (hsplit : (walk next).order = before ++ node :: after) :
    ∀ other ∈ next node, other ∈ before ∨ TransGen (Edge next) other node := by
  have hdone : (walk next).done = after.reverse ++ node :: before.reverse := by
    rw [← (walk next).done.reverse_reverse]
    show (walk next).order.reverse = _
    rw [hsplit, List.reverse_append, List.reverse_cons, List.append_assoc, List.singleton_append]
  have hordered := (searches_walk next).nearlyOrdered nofun trivial
  rw [hdone] at hordered
  intro other hedge
  exact (hordered.of_append.1 other hedge).imp List.mem_reverse.1 id

/-- Of two nodes that point to each other, the one is done before the other that was met first. -/
example : (walk (n := 3) fun node => if node = 0 then [2, 1] else [0]).order = [2, 1, 0] := by
  decide

end Graph

/-- That a type names a declared one: as itself, or as the type of its elements. -/
inductive MemberType.Mentions {n : Nat} (i : Fin n) : MemberType n → Prop
  | type : Mentions i (.type i)
  | sequence {element : MemberType n} {bound : Option UInt32} (inside : Mentions i element) :
    Mentions i (.sequence element bound)
  | array {element : MemberType n} {length : UInt32} (inside : Mentions i element) :
    Mentions i (.array element length)

theorem MemberType.mem_mentioned_iff {n : Nat} {i : Fin n} {t : MemberType n} :
    i ∈ t.mentioned ↔ t.Mentions i := by
  induction t with
  | type j =>
    constructor
    · intro h
      rw [List.mem_singleton.1 h]
      exact .type
    · rintro ⟨⟩
      exact List.mem_singleton_self i
  | sequence element bound ih =>
    constructor
    · exact fun h => .sequence (ih.1 h)
    · rintro ⟨⟩
      exact ih.2 ‹_›
  | array element length ih =>
    constructor
    · exact fun h => .array (ih.1 h)
    · rintro ⟨⟩
      exact ih.2 ‹_›
  | _ =>
    constructor
    · nofun
    · nofun

/-- That a type refers to another one, in a member that is optional or not, in its discriminator or
    in an arm. -/
inductive Schema.RefersTo (schema : Schema) (t d : Fin schema.size) : Prop
  | member {s : StructType schema.size} {m : Member schema.size}
    (body : (schema.get t).body = .struct s) (mem : m ∈ s.members) (mentions : m.type.Mentions d)
  | discriminator {u : UnionType schema.size} (body : (schema.get t).body = .union u)
    (mentions : u.discriminator.type.Mentions d)
  | arm {u : UnionType schema.size} {arm : UnionArm schema.size}
    (body : (schema.get t).body = .union u) (mem : arm ∈ u.arms)
    (mentions : arm.member.type.Mentions d)

theorem Schema.refersTo_iff {schema : Schema} {t d : Fin schema.size} :
    schema.RefersTo t d ↔ d ∈ (schema.get t).body.mentioned := by
  constructor
  · rintro (⟨hbody, hmem, hmentions⟩ | ⟨hbody, hmentions⟩ | ⟨hbody, hmem, hmentions⟩)
    · rw [hbody]
      exact List.mem_flatMap.2 ⟨_, hmem, MemberType.mem_mentioned_iff.2 hmentions⟩
    · rw [hbody]
      exact List.mem_append_left _ (MemberType.mem_mentioned_iff.2 hmentions)
    · rw [hbody]
      apply List.mem_append_right
      exact List.mem_flatMap.2 ⟨_, hmem, MemberType.mem_mentioned_iff.2 hmentions⟩
  · intro h
    cases hbody : (schema.get t).body with
    | struct s =>
      rw [hbody] at h
      obtain ⟨m, hmem, hmentions⟩ := List.mem_flatMap.1 h
      exact .member hbody hmem (MemberType.mem_mentioned_iff.1 hmentions)
    | union u =>
      rw [hbody] at h
      rcases List.mem_append.1 h with hdisc | harms
      · exact .discriminator hbody (MemberType.mem_mentioned_iff.1 hdisc)
      · obtain ⟨arm, hmem, hmentions⟩ := List.mem_flatMap.1 harms
        exact .arm hbody hmem (MemberType.mem_mentioned_iff.1 hmentions)
    | enumeration e =>
      rw [hbody] at h
      cases h

namespace Idl

theorem perm_emissionOrder (schema : Schema) :
    (emissionOrder schema).Perm (List.finRange schema.size) :=
  Graph.perm_order_walk _

theorem before_or_refers_back {schema : Schema} {before after : List (Fin schema.size)}
    {t d : Fin schema.size} (hsplit : emissionOrder schema = before ++ t :: after)
    (h : schema.RefersTo t d) : d ∈ before ∨ TransGen schema.RefersTo d t := by
  have hedge : (fun t d => schema.RefersTo t d) =
      Graph.Edge fun t => (schema.get t).body.mentioned := by
    funext t d
    exact propext Schema.refersTo_iff
  rw [show schema.RefersTo = _ from hedge] at h ⊢
  exact Graph.before_or_leads_back hsplit d h

/-- Types are put in the order of their definitions by a search that comes to its end, whatever they
    refer to. It lists each of them once, and behind all that it refers to, apart from types that
    refer back to it over however many others. Where there are no such cycles, none is excepted. -/
theorem emissionOrder_sorts (schema : Schema) :
    (∃ walk, Graph.Searches (fun t => (schema.get t).body.mentioned) []
      (List.finRange schema.size) Graph.Walk.start walk ∧ emissionOrder schema = walk.order) ∧
    (emissionOrder schema).Perm (List.finRange schema.size) ∧
    (∀ before t after, emissionOrder schema = before ++ t :: after →
      ∀ d, schema.RefersTo t d → d ∈ before ∨ TransGen schema.RefersTo d t) ∧
    ((∀ t, ¬TransGen schema.RefersTo t t) →
      ∀ before t after, emissionOrder schema = before ++ t :: after →
        ∀ d, schema.RefersTo t d → d ∈ before) := by
  refine ⟨⟨_, Graph.searches_walk _, rfl⟩, perm_emissionOrder schema, ?_, ?_⟩
  · intro before t after hsplit d hrefers
    exact before_or_refers_back hsplit hrefers
  · intro hacyclic before t after hsplit d hrefers
    rcases before_or_refers_back hsplit hrefers with hbefore | hback
    · exact hbefore
    · exact absurd (TransGen.head hrefers hback) (hacyclic t)

end Idl

end Cdr
