import Cdr.Proofs.LookAhead
import Cdr.Proofs.WellFormed

/-! # What a value that comes back tells

A value that is canonical but for its absent members comes back from its bytes only if the bytes
behind none of them are taken for the member. The reader has then met the parts of the value one by
one, and found every absent member to be absent.
-/

namespace Cdr

open Image ReadM

/-! ## What a read has met -/

namespace ReadM

variable {α β : Type} {src : Source} {c : Cursor} {b : List UInt8}

/-- A read that comes to a value. -/
def Returns (m : ReadM α) (c : Cursor) (x : α) : Prop :=
  ∃ after, m.run c = .ok x after

theorem returns_bind {m : ReadM α} {k : α → ReadM β} {y : β} (h : Returns (m >>= k) c y) :
    ∃ x after, m.run c = .ok x after ∧ Returns (k x) after y := by
  obtain ⟨last, hrun⟩ := h
  rw [EStateM.run_bind] at hrun
  cases hfirst : m.run c with
  | ok x after =>
    rw [hfirst] at hrun
    exact ⟨x, after, rfl, last, hrun⟩
  | error fault after =>
    rw [hfirst] at hrun
    cases hrun

/-- A read leaves its cursor behind the bytes that it comes to its value by. -/
theorem moved_of_reads {m : ReadM α} {x y : α} {after : Cursor} (h : Reads src m c b x)
    (hholds : c.Holds src b) (hrun : m.run c = .ok y after) : c.Moved b.length after := by
  obtain ⟨after', hrun', hmoved⟩ := h hholds
  rw [hrun] at hrun'
  cases hrun'
  exact hmoved

/-- What a read goes on to behind bytes whose value is known. -/
theorem returns_behind {m : ReadM α} {k : α → ReadM β} {x : α} {y : β} {a : List UInt8}
    (h : Returns (m >>= k) c y) (hm : Reads src m c a x) (hholds : c.Holds src (a ++ b)) :
    ∃ after, c.Moved a.length after ∧ after.Holds src b ∧ Returns (k x) after y := by
  obtain ⟨after, hrun, hmoved⟩ := hm hholds.left
  obtain ⟨x', after', hrun', hnext⟩ := returns_bind h
  rw [hrun] at hrun'
  cases hrun'
  exact ⟨after, hmoved, hholds.right hmoved, hnext⟩

end ReadM

namespace Source

variable {src : Source} {c : Cursor} {b : List UInt8} {each : ReadM Value}

theorem exists_of_many {count : Nat} {rev out : List Value}
    (h : Returns (many each count rev) c out) : ∃ more, out = rev.reverse ++ more := by
  induction count generalizing rev c with
  | zero =>
    obtain ⟨after, hrun⟩ := h
    cases hrun
    exact ⟨[], (List.append_nil _).symm⟩
  | succ count ih =>
    obtain ⟨v, after, -, hrest⟩ := returns_bind h
    obtain ⟨more, rfl⟩ := ih hrest
    exact ⟨v :: more, by simp⟩

/-- Where a list comes back, each of its members has. -/
theorem each_of_many {f : Value → Image} {demand demand' : Value → Demand}
    (hback : ∀ v (c : Cursor) b, c.Holds src b → f v (src.origin + c.position) = .ok b →
      demand v (src.origin + c.position) (src.origin + c.stop) → Returns each c v →
      demand' v (src.origin + c.position) (src.origin + c.stop))
    (hitem : ∀ v (c : Cursor) b, f v (src.origin + c.position) = .ok b →
      demand' v (src.origin + c.position) (src.origin + c.stop) → Reads src each c b v)
    {items : List Value} (rev : List Value) (hholds : c.Holds src b)
    (himage : Image.each f items (src.origin + c.position) = .ok b)
    (hdemand : Demand.each f demand items (src.origin + c.position) (src.origin + c.stop))
    (hread : Returns (many each items.length rev) c (rev.reverse ++ items)) :
    Demand.each f demand' items (src.origin + c.position) (src.origin + c.stop) := by
  induction items generalizing c b rev with
  | nil => trivial
  | cons v vs ih =>
    obtain ⟨first, others, hfirst, hothers, rfl⟩ := andThen_eq_ok himage
    obtain ⟨w, after, hrun, hrest⟩ := returns_bind hread
    obtain ⟨more, hmore⟩ := exists_of_many hrest
    rw [List.reverse_cons, List.append_assoc] at hmore
    cases List.append_cancel_left hmore
    have hv := hback v c first hholds.left hfirst hdemand.1 ⟨after, hrun⟩
    have hmoved := moved_of_reads (hitem v c first hfirst hv) hholds.left hrun
    rw [hmoved.from_origin] at hothers
    refine ⟨hv, (hmoved.behind_iff hfirst).2 ?_⟩
    refine ih (v :: rev) (hholds.right hmoved) hothers ((hmoved.behind_iff hfirst).1 hdemand.2) ?_
    rw [List.reverse_cons, List.append_assoc]
    exact hrest

end Source

theorem eq_of_run_checkCount {schema : Schema} {src : Source} {field : String}
    {element : MemberType schema.size} {count : Nat} {c after : Cursor}
    (h : (checkCount schema src field element count).run c = .ok () after) : after = c := by
  simp only [checkCount, EStateM.run_bind, EStateM.run_get] at h
  split at h
  · cases h
  · cases h
    rfl

/-- Where bytes are not taken for absent members, a value of a member is read from its image. -/
theorem reads_untaken_value (schema : Schema) (src : Source) (levels : Nat) {field : String}
    {t : MemberType schema.size} {v : Value} {c : Cursor} {b : List UInt8}
    (himage : valueImage schema src.encoding (typeImage schema src.encoding levels) field t v
      (src.origin + c.position) = .ok b)
    (hdemand : valueDemand schema src.encoding (typeImage schema src.encoding levels)
      (typeDemandBy schema src.encoding (untaken schema src) levels) field t v
      (src.origin + c.position) (src.origin + c.stop)) :
    Reads src (readValue schema src (readType schema src levels) field t) c b v := by
  have hvalue := reads_value (reads_type src (.same src.encoding.repr schema)
    (untaken_tells schema src) levels) (.refl t) himage hdemand
  have hview : t.mapWith ((Crossing.same src.encoding.repr schema).view levels) v = v :=
    t.mapWith_id v
  rw [hview] at hvalue
  exact hvalue

/-- Where elements come back, each of them has. -/
theorem untaken_of_elements {schema : Schema} {src : Source} {levels : Nat} {c : Cursor}
    {b : List UInt8} {field : String} {element : MemberType schema.size}
    (hitem : ∀ v (c : Cursor) b, c.Holds src b →
      valueImage schema src.encoding (typeImage schema src.encoding levels) field element v
        (src.origin + c.position) = .ok b →
      valueDemand schema src.encoding (typeImage schema src.encoding levels)
        (typeDemandBy schema src.encoding (unasked schema.size) levels) field element v
        (src.origin + c.position) (src.origin + c.stop) →
      Returns (readValue schema src (readType schema src levels) field element) c v →
      valueDemand schema src.encoding (typeImage schema src.encoding levels)
        (typeDemandBy schema src.encoding (untaken schema src) levels) field element v
        (src.origin + c.position) (src.origin + c.stop))
    {items : List Value} (hholds : c.Holds src b)
    (himage : src.encoding.elementsImage
      (valueImage schema src.encoding (typeImage schema src.encoding levels) field element) field
      element.blittable? items (src.origin + c.position) = .ok b)
    (hdemand : Demand.each
      (valueImage schema src.encoding (typeImage schema src.encoding levels) field element)
      (valueDemand schema src.encoding (typeImage schema src.encoding levels)
        (typeDemandBy schema src.encoding (unasked schema.size) levels) field element) items
      (src.origin + c.position) (src.origin + c.stop))
    (hread : Returns (src.elements (readValue schema src (readType schema src levels) field element)
      field element.blittable? items.length) c (.sequence items)) :
    Demand.each
      (valueImage schema src.encoding (typeImage schema src.encoding levels) field element)
      (valueDemand schema src.encoding (typeImage schema src.encoding levels)
        (typeDemandBy schema src.encoding (untaken schema src) levels) field element) items
      (src.origin + c.position) (src.origin + c.stop) := by
  cases hrun : element.blittable? with
  | some p =>
    obtain ⟨rfl, -⟩ := MemberType.eq_of_blittable? hrun
    exact each_of_primitive
  | none =>
    rw [hrun] at himage hread
    obtain ⟨out, after, hmany, last, hout⟩ := returns_bind hread
    cases hout
    exact Source.each_of_many hitem (fun v c b => reads_untaken_value schema src levels) [] hholds
      himage hdemand ⟨after, hmany⟩

/-! ## What the members of a struct have been read from -/

section

variable {schema : Schema} {src : Source} {readType : String → Fin schema.size → ReadM Value}
  {c : Cursor}

/-- Members that are read leave the entries of other names alone. -/
theorem get?_of_readMembers {framed : Bool} {ms : List (Member schema.size)} {name : String}
    {acc out : Entries Value} (hother : name ∉ ms.map Member.name)
    (hread : Returns (readMembers schema src readType framed ms acc) c out) :
    out.get? name = acc.get? name := by
  induction ms generalizing acc c with
  | nil =>
    obtain ⟨after, hrun⟩ := hread
    cases hrun
    rfl
  | cons m rest ih =>
    rw [List.map_cons, List.mem_cons, not_or] at hother
    obtain ⟨hne, hother⟩ := hother
    have hinsert : ∀ v : Value, (acc.insert m.name v).get? name = acc.get? name := by
      intro v
      rw [Entries.get?_insert, if_neg (Ne.symm hne)]
    obtain ⟨last, hrun⟩ := hread
    by_cases hended : (framed && decide (c.stop ≤ c.position)) = true
    · rw [run_readMembers_ended hended] at hrun
      have h := ih hother ⟨last, hrun⟩
      cases hoptional : m.optional with
      | true => simpa only [hoptional, if_true] using h
      | false => simpa only [hoptional, Bool.false_eq_true, if_false, hinsert] using h
    · rw [run_readMembers_more hended] at hrun
      cases hoptional : m.optional with
      | true =>
        simp only [hoptional, if_true] at hrun
        obtain ⟨v?, after, -, hrest⟩ := returns_bind ⟨last, hrun⟩
        have h := ih hother hrest
        cases v? with
        | none => exact h
        | some v => exact h.trans (hinsert v)
      | false =>
        simp only [hoptional, Bool.false_eq_true, if_false] at hrun
        obtain ⟨v, after, -, hrest⟩ := returns_bind ⟨last, hrun⟩
        exact (ih hother hrest).trans (hinsert v)

/-- An optional member comes from what stands where it is looked for. -/
theorem returns_readPresent {m : Member schema.size} {v? : Option Value}
    (hread : Returns (readOptional schema src readType m) c v?) :
    Returns (readPresent schema src readType m) c v? := by
  obtain ⟨_, _, hget, hread⟩ := returns_bind hread
  cases hget
  obtain ⟨found, after, hrun, last, hlast⟩ := returns_bind hread
  cases found with
  | some v =>
    cases hlast
    exact ⟨_, hrun⟩
  | none =>
    cases hlast
    exact ⟨_, hrun⟩

/-- A member that is read up to an end comes from a value there. -/
theorem returns_readWithin {m : Member schema.size} {stop : Nat} {v : Value}
    (hread : Returns (readWithin schema src readType m stop) c (some v)) :
    Returns (readValue schema src readType m.name m.type) { c with stop } v := by
  obtain ⟨last, hrun⟩ := hread
  simp only [EStateM.run, readWithin] at hrun
  cases hvalue : readValue schema src readType m.name m.type { c with stop } with
  | ok w after =>
    simp only [hvalue] at hrun
    split at hrun
    · cases hrun
      exact ⟨after, hvalue⟩
    · cases hrun
  | error fault after =>
    simp only [hvalue] at hrun
    split at hrun
    · cases hrun
    · cases hrun

/-- An optional member that is found behind its header comes from a value there. -/
theorem returns_body {m : Member schema.size} {v : Value} {inner : List UInt8}
    (hlength : inner.length < 0x20000000)
    (hholds : c.Holds src (List.replicate (padding (src.origin + c.position) 4) 0 ++
      (src.encoding.wordBytes (inner.length * 8 + m.id.toNat % 8) ++ inner)))
    (hread : Returns (readPresent schema src readType m) c (some v)) :
    ∃ body : Cursor, src.origin + body.position =
        src.origin + c.position + padding (src.origin + c.position) 4 + 4 ∧
      body.stop = body.position + inner.length ∧ body.Holds src inner ∧
      Returns (readValue schema src readType m.name m.type) body v := by
  rw [← List.append_assoc] at hholds
  have hroom : c.position + padding (src.origin + c.position) 4 + 4 ≤ c.stop := by
    have hfits := hholds.left.fits
    rw [List.length_append, List.length_replicate, Encoding.length_wordBytes] at hfits
    omega
  obtain ⟨last, hrun⟩ := hread
  rw [run_readPresent, if_pos hroom] at hrun
  obtain ⟨after, hmoved, hinner, hread⟩ := returns_behind ⟨last, hrun⟩
    (Source.reads_word m.name (show inner.length * 8 + m.id.toNat % 8 < 0x100000000 by omega))
    hholds
  have hdiv : (inner.length * 8 + m.id.toNat % 8) / 8 = inner.length := by omega
  obtain ⟨_, _, hget, last, hrun⟩ := returns_bind hread
  cases hget
  rw [hdiv] at hrun
  split at hrun
  · let body : Cursor := { after with stop := after.position + inner.length }
    refine ⟨body, ?_, rfl, ?_, ?_⟩
    · show src.origin + after.position = _
      rw [hmoved.position, List.length_append, List.length_replicate, Encoding.length_wordBytes]
      omega
    · exact ⟨hinner.bytes, Nat.le_refl _, Nat.le_trans hinner.fits hinner.inside, hinner.unlimited⟩
    · exact returns_readWithin ⟨last, hrun⟩
  · cases hrun

end

/-- Where an optional member is found to be absent, what stands there is not taken for it. -/
theorem untaken_of_absent {schema : Schema} {src : Source} {levels : Nat} {m : Member schema.size}
    {c after : Cursor} (hsound : c.Sound src) (hlimit : c.limit = .infinite)
    (hrun : (readOptional schema src (readType schema src levels) m).run c = .ok none after) :
    ¬TakenFor schema src levels m c.position c.stop ∧ c.Moved 0 after := by
  obtain ⟨last, hpresent⟩ := returns_readPresent ⟨after, hrun⟩
  have huntaken :=
    (run_readPresent_none_iff schema src levels m hsound hlimit).1 ⟨last, hpresent⟩
  obtain ⟨after', hrun', hmoved⟩ :=
    run_readOptional_of_untaken schema src levels m hsound hlimit huntaken
  rw [hrun] at hrun'
  cases hrun'
  exact ⟨huntaken, hmoved⟩

section

variable {schema : Schema} {src : Source} {levels : Nat}
  (hback : ∀ field i v (c : Cursor) b, c.Holds src b →
    typeImage schema src.encoding levels field i v (src.origin + c.position) = .ok b →
    typeDemandBy schema src.encoding (unasked schema.size) levels field i v
      (src.origin + c.position) (src.origin + c.stop) →
    Returns (readType schema src levels field i) c v →
    typeDemandBy schema src.encoding (untaken schema src) levels field i v
      (src.origin + c.position) (src.origin + c.stop))
  {c : Cursor} {b : List UInt8}

include hback

/-- Where the value of a member comes back, no bytes in it have been taken for absent members. -/
theorem untaken_of_readValue {field : String} {t : MemberType schema.size} {v : Value}
    (hholds : c.Holds src b)
    (himage : valueImage schema src.encoding (typeImage schema src.encoding levels) field t v
      (src.origin + c.position) = .ok b)
    (hdemand : valueDemand schema src.encoding (typeImage schema src.encoding levels)
      (typeDemandBy schema src.encoding (unasked schema.size) levels) field t v
      (src.origin + c.position) (src.origin + c.stop))
    (hread : Returns (readValue schema src (readType schema src levels) field t) c v) :
    valueDemand schema src.encoding (typeImage schema src.encoding levels)
      (typeDemandBy schema src.encoding (untaken schema src) levels) field t v
      (src.origin + c.position) (src.origin + c.stop) := by
  induction t generalizing v c b with
  | primitive p => trivial
  | string bound => trivial
  | fixedString capacity =>
    cases v with
    | string text => exact hdemand
    | _ => trivial
  | sequence element bound ih =>
    cases v with
    | sequence items =>
      obtain ⟨hbound, himage⟩ := checked_eq_ok himage
      obtain ⟨first, rest, hfirst, hrest, rfl⟩ := andThen_eq_ok himage
      obtain ⟨hcount, hword⟩ := Encoding.countImage_eq_ok hfirst
      subst hword
      simp only [valueDemand] at hdemand ⊢
      obtain ⟨after, hmoved, hafter, hread⟩ :=
        returns_behind hread (Source.reads_word field hcount) hholds
      obtain ⟨hfew, hitems⟩ := (hmoved.behind_iff hfirst).1 hdemand
      obtain ⟨_, checked, hbounded, hread⟩ := returns_bind hread
      rw [hbound] at hbounded
      cases hbounded
      obtain ⟨_, counted, hcounted, hread⟩ := returns_bind hread
      cases eq_of_run_checkCount hcounted
      rw [hmoved.from_origin] at hrest
      refine (hmoved.behind_iff hfirst).2 ⟨hfew, ?_⟩
      exact untaken_of_elements (fun v c b => ih) hafter hrest hitems hread
    | _ => cases himage
  | array element length ih =>
    cases v with
    | sequence items =>
      obtain ⟨hlength, himage⟩ := checked_eq_ok himage
      simp only [readValue, ← checkLength_eq_ok hlength] at hread
      exact untaken_of_elements (fun v c b => ih) hholds himage hdemand hread
    | _ => cases himage
  | type i => exact hback field i v c b hholds himage hdemand hread

/-- Where an optional member comes back from behind its header, no bytes in it have been taken for
    absent members. -/
theorem untaken_of_present {m : Member schema.size} {v : Value} {inner : List UInt8}
    {after : Cursor} (hlength : inner.length < 0x20000000)
    (hholds : c.Holds src (List.replicate (padding (src.origin + c.position) 4) 0 ++
      (src.encoding.wordBytes (inner.length * 8 + m.id.toNat % 8) ++ inner)))
    (himage : valueImage schema src.encoding (typeImage schema src.encoding levels) m.name m.type v
      (src.origin + c.position + padding (src.origin + c.position) 4 + 4) = .ok inner)
    (hdemand : Demand.enclosed
      (valueImage schema src.encoding (typeImage schema src.encoding levels) m.name m.type v)
      (valueDemand schema src.encoding (typeImage schema src.encoding levels)
        (typeDemandBy schema src.encoding (unasked schema.size) levels) m.name m.type v)
      (src.origin + c.position) (src.origin + c.stop))
    (hrun : (readOptional schema src (readType schema src levels) m).run c = .ok (some v) after) :
    Demand.enclosed
      (valueImage schema src.encoding (typeImage schema src.encoding levels) m.name m.type v)
      (valueDemand schema src.encoding (typeImage schema src.encoding levels)
        (typeDemandBy schema src.encoding (untaken schema src) levels) m.name m.type v)
      (src.origin + c.position) (src.origin + c.stop) ∧
    c.Moved (List.replicate (padding (src.origin + c.position) 4) (0 : UInt8) ++
      (src.encoding.wordBytes (inner.length * 8 + m.id.toNat % 8) ++ inner)).length after := by
  have hregion : ∀ body : Cursor, src.origin + body.position =
      src.origin + c.position + padding (src.origin + c.position) 4 + 4 →
      body.stop = body.position + inner.length → src.origin + body.stop =
        src.origin + c.position + padding (src.origin + c.position) 4 + 4 + inner.length := by
    intro body hat hstop
    rw [hstop, ← Nat.add_assoc, hat]
  obtain ⟨body, hat, hstop, hinner, hread⟩ :=
    returns_body hlength hholds (returns_readPresent ⟨after, hrun⟩)
  have hplain := hdemand inner himage
  have huntaken : valueDemand schema src.encoding (typeImage schema src.encoding levels)
      (typeDemandBy schema src.encoding (untaken schema src) levels) m.name m.type v
      (src.origin + c.position + padding (src.origin + c.position) 4 + 4)
      (src.origin + c.position + padding (src.origin + c.position) 4 + 4 + inner.length) := by
    rw [← hregion body hat hstop, ← hat] at hplain ⊢
    exact untaken_of_readValue hback hinner (hat ▸ himage) hplain hread
  have hreads := reads_present (c := c) (v := v) hlength fun body hat hstop => by
    rw [← hregion body hat hstop, ← hat] at huntaken
    exact reads_untaken_value schema src levels (hat ▸ himage) huntaken
  refine ⟨fun b hb => ?_, moved_of_reads hreads hholds hrun⟩
  rw [himage] at hb
  cases hb
  exact huntaken

/-- Where a member comes back with those behind it, it has not been taken to be there if it is
    absent. The entries tell whether it was found, as the members behind it have other names. -/
theorem untaken_of_readMember {typeName : String} {fields : Entries Value} {framed : Bool}
    {m : Member schema.size} {rest : List (Member schema.size)}
    (hname : m.name ∉ rest.map Member.name) {acc out : Entries Value}
    (hfresh : acc.get? m.name = none) (hsame : out.get? m.name = fields.get? m.name)
    (hmore : ¬(framed = true ∧ c.stop ≤ c.position)) (hholds : c.Holds src b)
    (himage : Image.each (memberImage schema src.encoding (typeImage schema src.encoding levels)
      typeName fields) (m :: rest) (src.origin + c.position) = .ok b)
    (hdemand : membersDemandBy schema src.encoding (typeImage schema src.encoding levels)
      (typeDemandBy schema src.encoding (unasked schema.size) levels)
      (unasked schema.size levels typeName fields) typeName fields (m :: rest)
      (src.origin + c.position) (src.origin + c.stop))
    (hread : Returns (readMembers schema src (readType schema src levels) framed (m :: rest) acc) c
      out)
    (hnext : ∀ (others : List UInt8) (after : Cursor) (found : Option Value),
      after.Holds src others →
      Image.each (memberImage schema src.encoding (typeImage schema src.encoding levels) typeName
        fields) rest (src.origin + after.position) = .ok others →
      membersDemandBy schema src.encoding (typeImage schema src.encoding levels)
        (typeDemandBy schema src.encoding (unasked schema.size) levels)
        (unasked schema.size levels typeName fields) typeName fields rest
        (src.origin + after.position) (src.origin + after.stop) →
      Returns (readMembers schema src (readType schema src levels) framed rest
        (found.elim acc (acc.insert m.name))) after out →
      membersDemandBy schema src.encoding (typeImage schema src.encoding levels)
        (typeDemandBy schema src.encoding (untaken schema src) levels)
        (untaken schema src levels typeName fields) typeName fields rest
        (src.origin + after.position) (src.origin + after.stop)) :
    membersDemandBy schema src.encoding (typeImage schema src.encoding levels)
      (typeDemandBy schema src.encoding (untaken schema src) levels)
      (untaken schema src levels typeName fields) typeName fields (m :: rest)
      (src.origin + c.position) (src.origin + c.stop) := by
  obtain ⟨first, others, hfirst, hothers, rfl⟩ := andThen_eq_ok himage
  obtain ⟨hplain, hplains⟩ := hdemand
  have hbehind : ∀ (after : Cursor) (found : Option Value), c.Moved first.length after →
      Returns (readMembers schema src (readType schema src levels) framed rest
        (found.elim acc (acc.insert m.name))) after out →
      Demand.behind (memberImage schema src.encoding (typeImage schema src.encoding levels)
          typeName fields m)
        (membersDemandBy schema src.encoding (typeImage schema src.encoding levels)
          (typeDemandBy schema src.encoding (untaken schema src) levels)
          (untaken schema src levels typeName fields) typeName fields rest)
        (src.origin + c.position) (src.origin + c.stop) := by
    intro after found hmoved hrest
    rw [hmoved.from_origin] at hothers
    refine (hmoved.behind_iff hfirst).2 ?_
    exact hnext others after found (hholds.right hmoved) hothers
      ((hmoved.behind_iff hfirst).1 hplains) hrest
  obtain ⟨last, hrun⟩ := hread
  rcases memberImage_eq_ok hfirst with ⟨hnone, hoptional, rfl⟩ | ⟨v, hsome, halways, hvalue⟩ |
    ⟨v, inner, hsome, hoptional, hvalue, hlimit, rfl⟩
  · rw [run_readMembers_optional hmore hoptional] at hrun
    obtain ⟨found, after, hfound, hrest⟩ := returns_bind ⟨last, hrun⟩
    cases found with
    | some w =>
      -- An entry once made stays, and the struct that came back has none of this name.
      have hout := get?_of_readMembers hname hrest
      rw [hsame, hnone, Option.elim_some, Entries.get?_insert, if_pos rfl] at hout
      cases hout
    | none =>
      obtain ⟨huntaken, hmoved⟩ := untaken_of_absent hholds.sound hholds.unlimited hfound
      refine ⟨?_, hbehind after none hmoved hrest⟩
      rw [hnone]
      unfold untaken
      rw [Nat.add_sub_cancel_left, Nat.add_sub_cancel_left]
      exact huntaken
  · simp only [hsome, halways, Bool.false_eq_true, if_false] at hplain
    rw [run_readMembers_required hmore halways] at hrun
    obtain ⟨w, after, hfound, hrest⟩ := returns_bind ⟨last, hrun⟩
    have hout := get?_of_readMembers hname hrest
    rw [hsame, hsome, Entries.get?_insert, if_pos rfl] at hout
    cases hout
    have huntaken := untaken_of_readValue hback hholds.left hvalue hplain ⟨after, hfound⟩
    have hmoved := moved_of_reads (reads_untaken_value schema src levels hvalue huntaken)
      hholds.left hfound
    refine ⟨?_, hbehind after (some v) hmoved hrest⟩
    simp only [hsome, halways, Bool.false_eq_true, if_false]
    exact huntaken
  · simp only [hsome, hoptional, if_true] at hplain
    rw [run_readMembers_optional hmore hoptional] at hrun
    obtain ⟨found, after, hfound, hrest⟩ := returns_bind ⟨last, hrun⟩
    have hout := get?_of_readMembers hname hrest
    rw [hsame, hsome] at hout
    cases found with
    | none =>
      rw [Option.elim_none, hfresh] at hout
      cases hout
    | some w =>
      rw [Option.elim_some, Entries.get?_insert, if_pos rfl] at hout
      cases hout
      obtain ⟨huntaken, hmoved⟩ := untaken_of_present hback hlimit hholds.left hvalue hplain hfound
      refine ⟨?_, hbehind after (some v) hmoved hrest⟩
      simp only [hsome, hoptional, if_true]
      exact huntaken

/-- Where members come back, none that is absent has been taken to be there. The induction is on the
    members, and ends early where the body does. -/
theorem untaken_of_readMembers {typeName : String} {fields : Entries Value} (framed : Bool)
    {ms : List (Member schema.size)} (hnodup : (ms.map Member.name).Nodup) {acc out : Entries Value}
    (hfresh : ∀ m ∈ ms, acc.get? m.name = none)
    (hsame : ∀ m ∈ ms, out.get? m.name = fields.get? m.name) (hholds : c.Holds src b)
    (himage : Image.each (memberImage schema src.encoding (typeImage schema src.encoding levels)
      typeName fields) ms (src.origin + c.position) = .ok b)
    (hdemand : membersDemandBy schema src.encoding (typeImage schema src.encoding levels)
      (typeDemandBy schema src.encoding (unasked schema.size) levels)
      (unasked schema.size levels typeName fields) typeName fields ms (src.origin + c.position)
      (src.origin + c.stop))
    (hread : Returns (readMembers schema src (readType schema src levels) framed ms acc) c out) :
    membersDemandBy schema src.encoding (typeImage schema src.encoding levels)
      (typeDemandBy schema src.encoding (untaken schema src) levels)
      (untaken schema src levels typeName fields) typeName fields ms (src.origin + c.position)
      (src.origin + c.stop) := by
  induction ms generalizing acc c b with
  | nil => trivial
  | cons m rest ih =>
    by_cases hended : framed = true ∧ c.stop ≤ c.position
    · obtain ⟨hstop, rfl⟩ := hholds.of_ended (bodyEnded_iff.2 hended)
      have hend : src.origin + c.stop ≤ src.origin + c.position := Nat.add_le_add_left hstop _
      exact membersDemand_of_no_bytes (untaken_of_no_bytes schema src levels hend)
        (fun _ _ => untaken_at_end schema src hend) himage hdemand
    · rw [List.map_cons, List.nodup_cons] at hnodup
      obtain ⟨hname, hnodup⟩ := hnodup
      refine untaken_of_readMember hback hname (hfresh m List.mem_cons_self)
        (hsame m List.mem_cons_self) hended hholds himage hdemand hread ?_
      intro others after found hafter hothers hplains hrest
      refine ih hnodup (fun other hother => ?_)
        (fun other hother => hsame other (List.mem_cons_of_mem m hother)) hafter hothers hplains
        hrest
      have hold := hfresh other (List.mem_cons_of_mem m hother)
      cases found with
      | none => exact hold
      | some v =>
        have hne : m.name ≠ other.name := fun h => hname (h ▸ List.mem_map_of_mem hother)
        rw [Option.elim_some, Entries.get?_insert, if_neg hne]
        exact hold

theorem untaken_of_readStruct {i : Fin schema.size} {s : StructType schema.size}
    (hnodup : (s.members.map Member.name).Nodup) {fields : Entries Value} (hholds : c.Holds src b)
    (himage : src.encoding.delimitedImage (schema.get i).extensibility
      (Image.each (memberImage schema src.encoding (typeImage schema src.encoding levels)
        (schema.get i).full fields) s.wireMembers) (src.origin + c.position) = .ok b)
    (hdemand : Demand.delimited src.encoding (schema.get i).extensibility
      (Image.each (memberImage schema src.encoding (typeImage schema src.encoding levels)
        (schema.get i).full fields) s.wireMembers)
      (membersDemandBy schema src.encoding (typeImage schema src.encoding levels)
        (typeDemandBy schema src.encoding (unasked schema.size) levels)
        (unasked schema.size levels (schema.get i).full fields) (schema.get i).full fields
        s.wireMembers) (src.origin + c.position) (src.origin + c.stop))
    (hread : Returns (readStruct schema src (readType schema src levels) (schema.get i).full
      (schema.get i).extensibility s) c (.struct fields)) :
    Demand.delimited src.encoding (schema.get i).extensibility
      (Image.each (memberImage schema src.encoding (typeImage schema src.encoding levels)
        (schema.get i).full fields) s.wireMembers)
      (membersDemandBy schema src.encoding (typeImage schema src.encoding levels)
        (typeDemandBy schema src.encoding (untaken schema src) levels)
        (untaken schema src levels (schema.get i).full fields) (schema.get i).full fields
        s.wireMembers) (src.origin + c.position) (src.origin + c.stop) := by
  obtain ⟨frame, inner, after, hopen, hinner, henters, hasks⟩ :=
    run_frame (schema.get i).full rfl himage hholds
  obtain ⟨_, _, hrun, hread⟩ := returns_bind hread
  rw [hopen] at hrun
  cases hrun
  obtain ⟨out, closed, hmembers, hread⟩ := returns_bind hread
  obtain ⟨_, _, -, last, hout⟩ := returns_bind hread
  cases hout
  have hwire : (s.wireMembers.map Member.name).Nodup :=
    (s.perm_wireMembers.map Member.name).nodup_iff.2 hnodup
  exact (hasks _).2 (untaken_of_readMembers hback frame.isSome hwire (fun _ _ => rfl)
    (fun _ _ => rfl) henters.holds hinner ((hasks _).1 hdemand) ⟨closed, hmembers⟩)

theorem untaken_of_readArm {typeName : String} {framed : Bool} {u : UnionType schema.size}
    {d : Int64} {arm : Option (String × Value)} {active : Option (Member schema.size × Value)}
    (hactive : activeArm schema u d arm = .ok active) (hholds : c.Holds src b)
    (himage : armImage schema src.encoding (typeImage schema src.encoding levels) active
      (src.origin + c.position) = .ok b)
    (hdemand : armDemand schema src.encoding (typeImage schema src.encoding levels)
      (typeDemandBy schema src.encoding (unasked schema.size) levels) (u.select d) arm
      (src.origin + c.position) (src.origin + c.stop))
    (hread : Returns (readArm schema src (readType schema src levels) typeName framed u d) c arm) :
    armDemand schema src.encoding (typeImage schema src.encoding levels)
      (typeDemandBy schema src.encoding (untaken schema src) levels) (u.select d) arm
      (src.origin + c.position) (src.origin + c.stop) := by
  unfold readArm at hread
  unfold activeArm at hactive
  cases hselect : u.select d with
  | none => trivial
  | some selected =>
    rw [hselect] at hactive hdemand hread
    cases arm with
    | none => trivial
    | some entry =>
      obtain ⟨name, v⟩ := entry
      simp only [] at hactive
      split at hactive
      next hname =>
        cases hactive
        obtain ⟨last, hrun⟩ := hread
        by_cases hended : (framed && decide (c.stop ≤ c.position)) = true
        · obtain ⟨hstop, rfl⟩ := hholds.of_ended hended
          have hend : src.origin + c.stop ≤ src.origin + c.position := Nat.add_le_add_left hstop _
          exact valueDemand_of_no_bytes (untaken_of_no_bytes schema src levels hend) himage hdemand
        · simp only [EStateM.run_bind, run_atEnd, hended] at hrun
          obtain ⟨w, after, hvalue, _, hout⟩ := returns_bind ⟨last, hrun⟩
          cases hout
          exact untaken_of_readValue hback hholds himage hdemand ⟨after, hvalue⟩
      next => cases hactive

theorem untaken_of_readUnion {i : Fin schema.size} {u : UnionType schema.size} {d : Int64}
    {arm : Option (String × Value)} (hholds : c.Holds src b)
    (himage : src.encoding.delimitedImage (schema.get i).extensibility
      (unionImage schema src.encoding (typeImage schema src.encoding levels) u d arm)
      (src.origin + c.position) = .ok b)
    (hdemand : Demand.delimited src.encoding (schema.get i).extensibility
      (unionImage schema src.encoding (typeImage schema src.encoding levels) u d arm)
      (unionDemand schema src.encoding (typeImage schema src.encoding levels)
        (typeDemandBy schema src.encoding (unasked schema.size) levels) u d arm)
      (src.origin + c.position) (src.origin + c.stop))
    (hread : Returns (readUnion schema src (readType schema src levels) (schema.get i).full
      (schema.get i).extensibility u) c (.union d arm)) :
    Demand.delimited src.encoding (schema.get i).extensibility
      (unionImage schema src.encoding (typeImage schema src.encoding levels) u d arm)
      (unionDemand schema src.encoding (typeImage schema src.encoding levels)
        (typeDemandBy schema src.encoding (untaken schema src) levels) u d arm)
      (src.origin + c.position) (src.origin + c.stop) := by
  obtain ⟨frame, inner, after, hopen, hinner, henters, hasks⟩ :=
    run_frame (schema.get i).full rfl himage hholds
  have hplain := (hasks _).1 hdemand
  refine (hasks _).2 ?_
  obtain ⟨disc, active, first, rest, hdisc, hfirst, hactive, hrest, rfl⟩ := unionImage_eq_ok hinner
  have hbytes := henters.holds
  have hmore := hbytes.not_ended (length_discriminator_pos hdisc hfirst) frame.isSome
  obtain ⟨_, _, hrun, last, hread⟩ := returns_bind hread
  rw [hopen] at hrun
  cases hrun
  simp only [EStateM.run_bind, run_atEnd, hmore, Bool.false_eq_true, if_false] at hread
  obtain ⟨behind, hmoved, hbehind, hread⟩ := returns_behind ⟨last, hread⟩
    (reads_untaken_value schema src levels hfirst (demand_discriminator hdisc)) hbytes
  simp only [discriminatorOf?_of_discriminatorValue hdisc] at hread
  obtain ⟨found, closed, harm, hread⟩ := returns_bind hread
  obtain ⟨_, _, -, _, hout⟩ := returns_bind hread
  cases hout
  obtain ⟨hselected, hplain⟩ := hplain
  refine ⟨hselected, ?_⟩
  rw [hdisc] at hplain ⊢
  rw [hmoved.from_origin] at hrest
  refine (hmoved.behind_iff hfirst).2 ?_
  exact untaken_of_readArm hback hactive hbehind hrest ((hmoved.behind_iff hfirst).1 hplain)
    ⟨closed, harm⟩

end

/-- Where a value comes back, no bytes in it have been taken for absent members. -/
theorem untaken_of_readType {schema : Schema} (hnames : schema.DistinctNames) (src : Source)
    (levels : Nat) (field : String) (i : Fin schema.size) (v : Value) (c : Cursor) (b : List UInt8)
    (hholds : c.Holds src b)
    (himage : typeImage schema src.encoding levels field i v (src.origin + c.position) = .ok b)
    (hdemand : typeDemandBy schema src.encoding (unasked schema.size) levels field i v
      (src.origin + c.position) (src.origin + c.stop))
    (hread : Returns (readType schema src levels field i) c v) :
    typeDemandBy schema src.encoding (untaken schema src) levels field i v
      (src.origin + c.position) (src.origin + c.stop) := by
  induction levels generalizing field i v c b with
  | zero => trivial
  | succ levels ih =>
    rcases typeImage_eq_ok himage with ⟨s, fields, hbody, rfl, hstruct⟩ |
      ⟨u, d, arm, hbody, rfl, hunion⟩ | ⟨enum, n, hbody, rfl, -⟩
    · simp only [typeDemandBy, hbody] at hdemand ⊢
      simp only [readType, hbody] at hread
      obtain ⟨hsorted, hentries, hmembers⟩ := hdemand
      exact ⟨hsorted, hentries,
        untaken_of_readStruct ih (hnames.nodup hbody) hholds hstruct hmembers hread⟩
    · simp only [typeDemandBy, hbody] at hdemand ⊢
      simp only [readType, hbody] at hread
      exact untaken_of_readUnion ih hholds hunion hdemand hread
    · simp only [typeDemandBy, hbody]
      trivial

end Cdr
