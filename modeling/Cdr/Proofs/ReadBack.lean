import Cdr.Proofs.DefaultImage
import Cdr.Proofs.LeafRoundTrip
import Cdr.Proofs.ReaderInvariant

/-! # Reading images

A reader that stands in front of the image of a canonical value reads this value, and stands
behind the image then. That it finds no less and no more follows from the length of the image, from
the header that is announced where an optional member is absent, and from values without bytes
being defaults.
-/

namespace Cdr

open Image

/-- The bytes stand in front of the cursor, all of them before the end, and no limit is set. -/
structure Cursor.Holds (src : Source) (c : Cursor) (b : List UInt8) : Prop where
  bytes : b <+: src.bytes.toList.drop c.position
  fits : c.position + b.length ≤ c.stop
  inside : c.stop ≤ src.bytes.size
  unlimited : c.limit = .infinite

/-- The cursor `after` lies `count` bytes behind the cursor, with the same end and limit. -/
structure Cursor.Moved (c : Cursor) (count : Nat) (after : Cursor) : Prop where
  position : after.position = c.position + count
  stop : after.stop = c.stop
  owner : after.owner = c.owner
  limit : after.limit = c.limit

namespace Cursor

variable {src : Source} {c after last : Cursor} {a b : List UInt8} {m n : Nat}

theorem Moved.trans (h : c.Moved m after) (hnext : after.Moved n last) : c.Moved (m + n) last where
  position := by rw [hnext.position, h.position, Nat.add_assoc]
  stop := hnext.stop.trans h.stop
  owner := hnext.owner.trans h.owner
  limit := hnext.limit.trans h.limit

theorem Moved.refl (c : Cursor) : c.Moved 0 c := ⟨rfl, rfl, rfl, rfl⟩

theorem Holds.left (h : c.Holds src (a ++ b)) : c.Holds src a where
  bytes := (List.prefix_append a b).trans h.bytes
  fits := by
    have hfits := h.fits
    rw [List.length_append] at hfits
    omega
  inside := h.inside
  unlimited := h.unlimited

theorem Holds.right (h : c.Holds src (a ++ b)) (hmoved : c.Moved a.length after) :
    after.Holds src b where
  bytes := by
    have hdrop := h.bytes.drop a.length
    rw [List.drop_left, List.drop_drop] at hdrop
    rw [hmoved.position]
    exact hdrop
  fits := by
    have hfits := h.fits
    rw [List.length_append] at hfits
    rw [hmoved.position, hmoved.stop]
    omega
  inside := by
    rw [hmoved.stop]
    exact h.inside
  unlimited := hmoved.limit.trans h.unlimited

/-- The same bytes stand in front of a cursor at the same place. -/
theorem Holds.congr (h : c.Holds src b) (hmoved : c.Moved 0 after) : after.Holds src b :=
  Holds.right (a := []) h hmoved

/-- Places are counted from the alignment origin where images are. -/
theorem Moved.from_origin (h : c.Moved n after) (origin : Nat) :
    origin + c.position + n = origin + after.position := by
  rw [h.position, Nat.add_assoc]

/-- What is asked behind an image is asked at the cursor that lies behind it. -/
theorem Moved.behind_iff {f : Image} {demand : Demand} {origin : Nat}
    (h : c.Moved a.length after) (himage : f (origin + c.position) = .ok a) :
    Demand.behind f demand (origin + c.position) (origin + c.stop) ↔
      demand (origin + after.position) (origin + after.stop) := by
  simp only [Demand.behind, himage, Except.ok.injEq, forall_eq', h.from_origin, h.stop]

theorem Holds.sound (h : c.Holds src b) : c.Sound src :=
  ⟨Nat.le_trans (Nat.le_add_right _ _) h.fits, h.inside⟩

/-- There are no bytes behind the end of a framed body. -/
theorem Holds.of_ended (h : c.Holds src b) {framed : Bool}
    (hended : (framed && decide (c.stop ≤ c.position)) = true) :
    c.stop ≤ c.position ∧ b = [] := by
  have hstop : c.stop ≤ c.position := of_decide_eq_true (Bool.and_eq_true_iff.1 hended).2
  have hfits := h.fits
  exact ⟨hstop, List.eq_nil_of_length_eq_zero (by omega)⟩

/-- A body is not at its end where bytes stand in front of the cursor. -/
theorem Holds.not_ended (h : c.Holds src (a ++ b)) (hpos : 0 < a.length) (framed : Bool) :
    (framed && decide (c.stop ≤ c.position)) = false := by
  have hfits := h.left.fits
  rw [decide_eq_false (by omega), Bool.and_false]

theorem Holds.start (b : List UInt8) (e : Encoding) (offset : Nat) :
    (Source.start ⟨b.toArray, e, offset⟩ .infinite).Holds ⟨b.toArray, e, offset⟩ b :=
  ⟨List.prefix_rfl, Nat.le_of_eq (Nat.zero_add _), Nat.le_refl _, rfl⟩

end Cursor

namespace ReadM

variable {α β : Type} {src : Source} {c : Cursor} {a b : List UInt8}

/-- A read that comes to a value by the bytes in front of it, and to the place behind them. -/
def Reads (src : Source) (m : ReadM α) (c : Cursor) (b : List UInt8) (x : α) : Prop :=
  c.Holds src b → ∃ after, m.run c = .ok x after ∧ c.Moved b.length after

theorem reads_pure (x : α) : Reads src (pure x) c [] x :=
  fun _ => ⟨c, rfl, .refl c⟩

theorem reads_bind {m : ReadM α} {k : α → ReadM β} {x : α} {y : β} (hm : Reads src m c a x)
    (hk : ∀ after, c.Moved a.length after → Reads src (k x) after b y) :
    Reads src (m >>= k) c (a ++ b) y := by
  intro hholds
  obtain ⟨after, hrun, hmoved⟩ := hm hholds.left
  obtain ⟨last, hlast, hmore⟩ := hk after hmoved (hholds.right hmoved)
  refine ⟨last, ?_, ?_⟩
  · rw [EStateM.run_bind, hrun]
    exact hlast
  · rw [List.length_append]
    exact hmoved.trans hmore

/-- A read behind which nothing more is read. -/
theorem reads_last {m : ReadM α} {k : α → ReadM β} {x : α} {y : β} (hm : Reads src m c b x)
    (hk : ∀ after, c.Moved b.length after → Reads src (k x) after [] y) :
    Reads src (m >>= k) c b y := by
  have h := reads_bind hm hk
  rw [List.append_nil] at h
  exact h

theorem reads_map {m : ReadM α} {x : α} (f : α → β) (hm : Reads src m c b x) :
    Reads src (do let x ← m; return f x) c b (f x) :=
  reads_last hm fun _ _ => reads_pure (f x)

/-- What is decided before does not read. -/
theorem reads_ofExcept {check : Except WireError α} {m : α → ReadM β} {x : α} {y : β}
    (hcheck : check = .ok x) (hm : Reads src (m x) c b y) :
    Reads src (do let x ← MonadExcept.ofExcept check; m x) c b y := by
  rw [hcheck]
  exact hm

theorem run_charge_infinite (h : c.limit = .infinite) :
    ∃ after, charge.run c = .ok () after ∧ c.Moved 0 after := by
  by_cases hpast : c.highWater < c.position
  · refine ⟨{ c with highWater := c.position }, ?_, ⟨rfl, rfl, rfl, rfl⟩⟩
    simp only [EStateM.run, charge, if_pos hpast, h, Limit.charge_infinite]
  · refine ⟨c, ?_, .refl c⟩
    simp only [EStateM.run, charge, if_neg hpast]

theorem run_atEnd (c : Cursor) : atEnd.run c = .ok (decide (c.stop ≤ c.position)) c := rfl

end ReadM

open ReadM

namespace Source

variable {src : Source} {c : Cursor} {b : List UInt8}

/-- Without a limit, a read that fits comes to the bytes in front of it. -/
theorem run_take_infinite (src : Source) (field : String) {size : Nat} (h : size ≤ c.remaining)
    (hlimit : c.limit = .infinite) :
    ∃ after, (src.take field size).run c =
      .ok (src.bytes.extract c.position (c.position + size)).toList after ∧ c.Moved size after := by
  have hcursor : c.Moved size { c with position := c.position + size } := ⟨rfl, rfl, rfl, rfl⟩
  obtain ⟨after, hcharge, hmoved⟩ := run_charge_infinite (hcursor.limit.trans hlimit)
  refine ⟨after, ?_, hcursor.trans hmoved⟩
  simp only [take, EStateM.run_bind, EStateM.run_get, if_neg (Nat.not_lt.2 h), EStateM.run_set,
    hcharge]
  rfl

theorem reads_take (field : String) {size : Nat} (hsize : b.length = size) :
    Reads src (src.take field size) c b b := by
  subst hsize
  intro hholds
  have hfits := hholds.fits
  have hroom : b.length ≤ c.remaining := by
    unfold Cursor.remaining
    omega
  have hbytes : (src.bytes.extract c.position (c.position + b.length)).toList = b := by
    rw [Array.toList_extract, List.extract_eq_take_drop, Nat.add_sub_cancel_left]
    exact List.prefix_iff_eq_take.1 hholds.bytes ▸ rfl
  obtain ⟨after, hrun, hmoved⟩ := run_take_infinite src field hroom hholds.unlimited
  rw [hbytes] at hrun
  exact ⟨after, hrun, hmoved⟩

theorem reads_skipPadding (field : String) (alignment : Nat) :
    Reads src (src.skipPadding field alignment) c
      (List.replicate (padding (src.origin + c.position) alignment) 0) () := by
  have htake : Reads src (src.take field (padding (src.origin + c.position) alignment)) c
      (List.replicate (padding (src.origin + c.position) alignment) 0) _ :=
    reads_take field List.length_replicate
  exact reads_map (fun _ => ()) htake

/-- Bytes on a boundary, and what is made of them. -/
theorem reads_block {α : Type} (field : String) (alignment : Nat) {size : Nat}
    (hsize : b.length = size) {k : List UInt8 → ReadM α} {x : α}
    (hk : ∀ after, Reads src (k b) after [] x) :
    Reads src (do src.skipPadding field alignment; let bytes ← src.take field size; k bytes) c
      (List.replicate (padding (src.origin + c.position) alignment) 0 ++ b) x := by
  refine reads_bind (reads_skipPadding field alignment) fun after _ => ?_
  exact reads_last (reads_take field hsize) fun last _ => hk last

theorem reads_word (field : String) {n : Nat} (h : n < 0x100000000) :
    Reads src (src.word field) c
      (List.replicate (padding (src.origin + c.position) 4) 0 ++ src.encoding.wordBytes n) n := by
  unfold word
  rw [Encoding.alignmentOf_uint32]
  refine reads_block field 4 (Encoding.length_wordBytes _ n) fun after => ?_
  rw [Encoding.decode_wordBytes src.encoding h]
  exact reads_pure n

theorem reads_scalar (field : String) {s : Scalar} (h : s.wideChar? = none) :
    Reads src (src.scalar field s.primitive) c
      (List.replicate
        (padding (src.origin + c.position) (src.encoding.alignmentOf s.primitive)) 0 ++
          src.encoding.scalarBytes s) s := by
  refine reads_block field _ (Encoding.length_scalarBytes _ s) fun after => ?_
  rw [Encoding.readScalar_scalarBytes src.encoding h]
  exact reads_pure s

/-- A run comes back scalar by scalar. -/
theorem scalars_runBytes (e : Encoding) {p : Primitive} {ss : List Scalar}
    (h : ∀ s ∈ ss, s.primitive = p ∧ s.wideChar? = none) :
    scalars e p ss.length (ss.flatMap e.scalarBytes) = .ok (ss.map .scalar) := by
  induction ss with
  | nil => rfl
  | cons s ss ih =>
    obtain ⟨hp, hwide⟩ := h s List.mem_cons_self
    have hlength : (e.scalarBytes s).length = p.size := by
      rw [Encoding.length_scalarBytes, hp]
    have hscalar : e.readScalar p (e.scalarBytes s) = .ok s := by
      rw [← hp]
      exact Encoding.readScalar_scalarBytes e hwide
    have hrest := ih fun t ht => h t (List.mem_cons_of_mem s ht)
    rw [List.flatMap_cons, List.length_cons, scalars, List.take_left' hlength,
      List.drop_left' hlength, hscalar, hrest]
    rfl

theorem reads_many {each : ReadM Value} {f : Value → Image} {demand : Value → Demand}
    {g : Value → Value} (hitem : ∀ v (c : Cursor) b, f v (src.origin + c.position) = .ok b →
      demand v (src.origin + c.position) (src.origin + c.stop) → Reads src each c b (g v))
    {items : List Value} (rev : List Value)
    (himage : Image.each f items (src.origin + c.position) = .ok b)
    (hdemand : Demand.each f demand items (src.origin + c.position) (src.origin + c.stop)) :
    Reads src (many each items.length rev) c b (rev.reverse ++ items.map g) := by
  induction items generalizing c b rev with
  | nil =>
    cases himage
    rw [List.map_nil, List.append_nil]
    exact reads_pure _
  | cons v vs ih =>
    obtain ⟨first, rest, hfirst, hrest, rfl⟩ := andThen_eq_ok himage
    refine reads_bind (hitem v c first hfirst hdemand.1) fun after hmoved => ?_
    rw [hmoved.from_origin] at hrest
    have hmore := (hmoved.behind_iff hfirst).1 hdemand.2
    have h := ih (g v :: rev) hrest hmore
    rw [List.reverse_cons, List.append_assoc] at h
    exact h

/-- Only characters have values without bytes, and they are never moved as one block. -/
theorem wideChar?_of_isBlittable {s : Scalar} (h : s.primitive.isBlittable) :
    s.wideChar? = none := by
  cases s with
  | char c => cases h
  | _ => rfl

theorem reads_elements {each : ReadM Value} {f : Value → Image} {demand : Value → Demand}
    {g : Value → Value} (hitem : ∀ v (c : Cursor) b, f v (src.origin + c.position) = .ok b →
      demand v (src.origin + c.position) (src.origin + c.stop) → Reads src each c b (g v))
    {field : String} {run : Option Primitive}
    (hrun : ∀ p, run = some p → p.isBlittable ∧ ∀ v, g v = v)
    {items : List Value}
    (himage : src.encoding.elementsImage f field run items (src.origin + c.position) = .ok b)
    (hdemand : Demand.each f demand items (src.origin + c.position) (src.origin + c.stop)) :
    Reads src (src.elements each field run items.length) c b (.sequence (items.map g)) := by
  unfold elements
  cases run with
  | none => exact reads_map Value.sequence (reads_many hitem [] himage hdemand)
  | some p =>
    rcases Encoding.elementsImage_run_eq_ok himage with ⟨rfl, rfl⟩ | ⟨ss, hsome, rfl, hp, rfl⟩
    · exact reads_pure _
    · have hcount : (ss.map Value.scalar).length ≠ 0 := by
        rw [List.length_map]
        exact Nat.ne_of_gt (List.length_pos_of_ne_nil hsome)
      obtain ⟨hblittable, hg⟩ := hrun p rfl
      have hscalars := scalars_runBytes src.encoding fun s hs =>
        ⟨hp s hs, wideChar?_of_isBlittable (hp s hs ▸ hblittable)⟩
      simp only [if_neg hcount]
      rw [List.map_id'' hg, List.length_map]
      refine reads_block field _ (Encoding.length_runBytes hp) fun after => ?_
      rw [hscalars]
      exact reads_pure _

theorem reads_text (content : String) :
    Reads src (text (Text.utf8 content)) c [] (.string content) := by
  unfold text
  rw [Text.readUtf8_utf8]
  exact reads_pure _

end Source

theorem dropTerminator_append (bytes : List UInt8) : dropTerminator (bytes ++ [0]) = bytes := by
  rw [dropTerminator, List.getLast?_concat, if_pos rfl, List.dropLast_concat]

section

variable {schema : Schema} {e : Encoding} {ofType : String → Fin schema.size → Value → Image}

/-- What is announced begins with a header that is not that of the absent member. -/
theorem Announces.header {typeName : String} {fields : Entries Value} {m : Member schema.size}
    {x : Nat} {ms : List (Member schema.size)} {b : List UInt8}
    (h : Announces schema e ofType typeName fields m x ms)
    (himage : Image.each (memberImage schema e ofType typeName fields) ms x = .ok b) :
    ∃ header tail, header < 0x100000000 ∧ header % 8 ≠ m.id.toNat % 8 ∧
      b = List.replicate (padding x 4) (0 : UInt8) ++ e.wordBytes header ++ tail := by
  induction ms generalizing b with
  | nil => exact h.elim
  | cons other rest ih =>
    obtain ⟨first, others, hfirst, hothers, rfl⟩ := andThen_eq_ok himage
    simp only [Announces] at h
    split at h
    next hpresent =>
      obtain ⟨hoptional, hsome⟩ := hpresent
      rcases memberImage_eq_ok hfirst with ⟨hget, -, -⟩ | ⟨v, -, halways, -⟩ |
        ⟨v, inner, -, -, -, hlimit, rfl⟩
      · rw [hget] at hsome
        cases hsome
      · rw [hoptional] at halways
        cases halways
      · refine ⟨inner.length * 8 + other.id.toNat % 8, inner ++ others, by omega, by omega, ?_⟩
        simp only [List.append_assoc]
    next =>
      obtain ⟨hnone, hrest⟩ := h
      rw [hnone] at hfirst
      cases hfirst
      exact ih hrest hothers

/-- The members that a struct has entries for, each with its entry. -/
def present (fields : Entries Value) (ms : List (Member schema.size)) : List (String × Value) :=
  ms.filterMap fun m => (fields.get? m.name).map fun v => (m.name, v)

theorem present_cons_none {fields : Entries Value} {m : Member schema.size}
    (h : fields.get? m.name = none) (ms : List (Member schema.size)) :
    present fields (m :: ms) = present fields ms := by
  simp only [present, List.filterMap_cons, h, Option.map_none]

theorem present_cons_some {fields : Entries Value} {m : Member schema.size} {v : Value}
    (h : fields.get? m.name = some v) (ms : List (Member schema.size)) :
    present fields (m :: ms) = (m.name, v) :: present fields ms := by
  simp only [present, List.filterMap_cons, h, Option.map_some]

/-- A struct with entries for its members only is made of those that are present. -/
theorem insertAll_present {fields : Entries Value} {ms : List (Member schema.size)}
    (hsorted : fields.Sorted) (hnames : ∀ name ∈ fields.names, name ∈ ms.map Member.name) :
    Entries.insertAll (present fields ms) [] = fields := by
  refine Entries.insertAll_eq hsorted ?_ ?_
  · intro pair hpair
    obtain ⟨m, -, hm⟩ := List.mem_filterMap.1 hpair
    cases hget : fields.get? m.name with
    | none =>
      rw [hget] at hm
      cases hm
    | some v =>
      rw [hget] at hm
      cases hm
      exact hget
  · intro name hname
    obtain ⟨m, hm, rfl⟩ := List.mem_map.1 (hnames name hname)
    cases hget : fields.get? m.name with
    | none => exact absurd hname ((Entries.get?_eq_none_iff fields m.name).1 hget)
    | some v =>
      refine List.mem_map.2 ⟨(m.name, v), List.mem_filterMap.2 ⟨m, hm, ?_⟩, rfl⟩
      rw [hget]
      rfl

end

section

variable {schema : Schema} {src : Source} {readType : String → Fin schema.size → ReadM Value}
  {c : Cursor} {b : List UInt8}

theorem run_readMembers_ended {framed : Bool} {m : Member schema.size}
    {rest : List (Member schema.size)} {acc : Entries Value}
    (h : (framed && decide (c.stop ≤ c.position)) = true) :
    (readMembers schema src readType framed (m :: rest) acc).run c =
      (readMembers schema src readType framed rest
        (if m.optional then acc else acc.insert m.name (schema.default m.type))).run c := by
  simp only [readMembers, EStateM.run_bind, run_atEnd, h, if_true]

theorem run_readMembers_more {framed : Bool} {m : Member schema.size}
    {rest : List (Member schema.size)} {acc : Entries Value}
    (h : ¬(framed && decide (c.stop ≤ c.position)) = true) :
    (readMembers schema src readType framed (m :: rest) acc).run c =
      (if m.optional then do
        let v? ← readOptional schema src readType m
        readMembers schema src readType framed rest (v?.elim acc (acc.insert m.name))
      else do
        let v ← readValue schema src readType m.name m.type
        readMembers schema src readType framed rest (acc.insert m.name v)).run c := by
  simp only [readMembers, EStateM.run_bind, run_atEnd, h]
  cases m.optional with
  | false => rfl
  | true =>
    simp only [Bool.false_eq_true, if_false, if_true, EStateM.run_bind]
    cases (readOptional schema src readType m).run c with
    | error fault after => rfl
    | ok v? after => cases v? <;> rfl

theorem bodyEnded_iff {framed : Bool} :
    (framed && decide (c.stop ≤ c.position)) = true ↔ framed = true ∧ c.stop ≤ c.position := by
  rw [Bool.and_eq_true_iff, decide_eq_true_iff]

theorem run_readMembers_required {framed : Bool} {m : Member schema.size}
    {rest : List (Member schema.size)} {acc : Entries Value}
    (hmore : ¬(framed = true ∧ c.stop ≤ c.position)) (halways : m.optional = false) :
    (readMembers schema src readType framed (m :: rest) acc).run c = (do
      let v ← readValue schema src readType m.name m.type
      readMembers schema src readType framed rest (acc.insert m.name v)).run c := by
  rw [run_readMembers_more (bodyEnded_iff.not.2 hmore), halways, if_neg Bool.false_ne_true]

theorem run_readMembers_optional {framed : Bool} {m : Member schema.size}
    {rest : List (Member schema.size)} {acc : Entries Value}
    (hmore : ¬(framed = true ∧ c.stop ≤ c.position)) (hsometimes : m.optional = true) :
    (readMembers schema src readType framed (m :: rest) acc).run c = (do
      let found ← readOptional schema src readType m
      readMembers schema src readType framed rest (found.elim acc (acc.insert m.name))).run c := by
  rw [run_readMembers_more (bodyEnded_iff.not.2 hmore), hsometimes, if_pos rfl]

/-- A reader that finds no header of an optional member goes back to where it stood. -/
theorem run_readOptional_of_none (m : Member schema.size) {last : Cursor}
    (hrun : (readPresent schema src readType m).run c = .ok none last) (hstop : last.stop = c.stop)
    (howner : last.owner = c.owner) (hlimit : last.limit = c.limit) :
    ∃ after, (readOptional schema src readType m).run c = .ok none after ∧ c.Moved 0 after := by
  refine ⟨{ last with
    position := c.position
    events := .absent m.name c.position :: last.events }, ?_, ⟨rfl, hstop, howner, hlimit⟩⟩
  simp only [readOptional, EStateM.run_bind, EStateM.run_get, hrun, EStateM.run_modify, report]
  rfl

/-- An optional member is found to be absent at the end of what may be read, and in front of a
    header that is not its own. -/
theorem run_readOptional_absent (m : Member schema.size) (hholds : c.Holds src b)
    (h : c.position = c.stop ∨ ∃ header tail, header < 0x100000000 ∧ header % 8 ≠ m.id.toNat % 8 ∧
      b = List.replicate (padding (src.origin + c.position) 4) 0 ++
        src.encoding.wordBytes header ++ tail) :
    ∃ after, (readOptional schema src readType m).run c = .ok none after ∧ c.Moved 0 after := by
  have hpresent : ∃ last, (readPresent schema src readType m).run c = .ok none last ∧
      last.stop = c.stop ∧ last.owner = c.owner ∧ last.limit = c.limit := by
    rw [run_readPresent]
    rcases h with hend | ⟨header, tail, hword, hother, rfl⟩
    · have hroom : ¬c.position + padding (src.origin + c.position) 4 + 4 ≤ c.stop := by omega
      rw [if_neg hroom]
      exact ⟨c, rfl, rfl, rfl, rfl⟩
    · have hroom : c.position + padding (src.origin + c.position) 4 + 4 ≤ c.stop := by
        have hfits := hholds.left.fits
        rw [List.length_append, List.length_replicate, Encoding.length_wordBytes] at hfits
        omega
      obtain ⟨after, hrun, hmoved⟩ := Source.reads_word m.name hword hholds.left
      refine ⟨after, ?_, hmoved.stop, hmoved.owner, hmoved.limit⟩
      have hmatch : (header % 8 = m.id.toNat % 8 && header / 8 ≤ after.remaining) = false := by
        simp [hother]
      simp only [if_pos hroom, EStateM.run_bind, hrun, EStateM.run_get, hmatch, Bool.false_eq_true,
        if_false]
      rfl
  obtain ⟨last, hrun, hstop, howner, hlimit⟩ := hpresent
  exact run_readOptional_of_none m hrun hstop howner hlimit

/-- An optional member is read where its header and a value of the announced length stand. -/
theorem reads_present {m : Member schema.size} {v : Value} {inner : List UInt8}
    (hlength : inner.length < 0x20000000)
    (hvalue : ∀ body : Cursor,
      src.origin + body.position =
        src.origin + c.position + padding (src.origin + c.position) 4 + 4 →
      body.stop = body.position + inner.length →
      Reads src (readValue schema src readType m.name m.type) body inner v) :
    Reads src (readOptional schema src readType m) c
      (List.replicate (padding (src.origin + c.position) 4) 0 ++
        (src.encoding.wordBytes (inner.length * 8 + m.id.toNat % 8) ++ inner)) (some v) := by
  rw [← List.append_assoc]
  intro hholds
  have hroom : c.position + padding (src.origin + c.position) 4 + 4 ≤ c.stop := by
    have hfits := hholds.left.fits
    rw [List.length_append, List.length_replicate, Encoding.length_wordBytes] at hfits
    omega
  obtain ⟨after, hrun, hmoved⟩ := Source.reads_word m.name
    (show inner.length * 8 + m.id.toNat % 8 < 0x100000000 by omega) hholds.left
  have hinner := hholds.right hmoved
  have hfits := hinner.fits
  have hdiv : (inner.length * 8 + m.id.toNat % 8) / 8 = inner.length := by omega
  have hmod : (inner.length * 8 + m.id.toNat % 8) % 8 = m.id.toNat % 8 := by omega
  have hbody : Cursor.Holds src { after with stop := after.position + inner.length } inner :=
    ⟨hinner.bytes, Nat.le_refl _, Nat.le_trans hfits hinner.inside, hinner.unlimited⟩
  have hat : src.origin + after.position =
      src.origin + c.position + padding (src.origin + c.position) 4 + 4 := by
    rw [hmoved.position, List.length_append, List.length_replicate, Encoding.length_wordBytes]
    omega
  obtain ⟨last, hlast, hend⟩ :=
    hvalue { after with stop := after.position + inner.length } hat rfl hbody
  have hmatch : ((inner.length * 8 + m.id.toNat % 8) % 8 = m.id.toNat % 8 &&
      (inner.length * 8 + m.id.toNat % 8) / 8 ≤ after.remaining) = true := by
    unfold Cursor.remaining
    rw [hmod, hdiv, Bool.and_eq_true_iff]
    exact ⟨decide_eq_true rfl, decide_eq_true (by omega)⟩
  have hpresent : (readPresent schema src readType m).run c =
      .ok (some v) { last with stop := after.stop, owner := after.owner } := by
    rw [run_readPresent]
    simp only [if_pos hroom, EStateM.run_bind, hrun, EStateM.run_get, hmatch, if_true]
    simp only [EStateM.run] at hlast
    simp only [EStateM.run, hdiv, readWithin, hlast, if_pos hend.position]
  refine ⟨{ last with stop := after.stop, owner := after.owner }, ?_, ?_⟩
  · simp only [readOptional, EStateM.run_bind, EStateM.run_get, hpresent]
    rfl
  · refine ⟨?_, hmoved.stop, hmoved.owner, hend.limit.trans hmoved.limit⟩
    rw [List.length_append, ← Nat.add_assoc, ← hmoved.position]
    exact hend.position

end

/-- Without a limit, a frame is closed wherever in it its body ends. -/
theorem run_closeFrame_of_le (typeName : String) {frame : Frame} {c : Cursor}
    (hle : c.position ≤ frame.stop) (hlimit : c.limit = .infinite) :
    ∃ final, (closeFrame typeName (some frame)).run c = .ok () final ∧
      final.position = frame.stop ∧ final.stop = frame.outerStop ∧
      final.owner = frame.outerOwner ∧ final.limit = .infinite := by
  have hreached : ¬frame.stop < c.position := Nat.not_lt.2 hle
  by_cases hskip : c.position < frame.stop
  · let skipped : Cursor := { c with
      position := frame.stop
      events := .skipped (frame.stop - c.position) typeName :: c.events }
    have hunlimited : skipped.limit = .infinite := hlimit
    obtain ⟨after, hcharge, hmoved⟩ := run_charge_infinite hunlimited
    refine ⟨{ after with stop := frame.outerStop, owner := frame.outerOwner }, ?_,
      hmoved.position, rfl, rfl, hmoved.limit.trans hlimit⟩
    simp only [closeFrame, EStateM.run_bind, EStateM.run_get, if_neg hreached, if_pos hskip, report,
      EStateM.run_modify]
    rw [show charge.run _ = .ok () after from hcharge]
  · refine ⟨{ c with stop := frame.outerStop, owner := frame.outerOwner }, ?_,
      Nat.le_antisymm hle (Nat.le_of_not_lt hskip), rfl, rfl, hlimit⟩
    simp only [closeFrame, EStateM.run_bind, EStateM.run_get, if_neg hreached, if_neg hskip,
      EStateM.run_modify]

theorem run_closeFrame_of_lt (typeName : String) {frame : Frame} {c : Cursor}
    (h : frame.stop < c.position) :
    (closeFrame typeName (some frame)).run c =
      .error (.overrun typeName frame.stop c.position) c := by
  simp only [closeFrame, EStateM.run_bind, EStateM.run_get, if_pos h]
  rfl

/-- The cursor `after` stands in front of a body that a read has opened, which may be left from
    wherever a framed body is read to, and at its end otherwise. -/
structure Cursor.Enters (src : Source) (c : Cursor) (b : List UInt8) (typeName : String)
    (framed : Bool) (frame : Option Frame) (body : List UInt8) (after : Cursor) : Prop where
  opened : frame.isSome = framed
  holds : after.Holds src body
  stop : framed = true → after.stop = after.position + body.length
  leave : ∀ count last, after.Moved count last → count ≤ body.length →
    (framed = false → count = body.length) →
    ∃ final, (closeFrame typeName frame).run last = .ok () final ∧ c.Moved b.length final

/-- A frame is opened around what stands in the body, and what is asked of the body is asked
    there. -/
theorem run_frame {src : Source} {c : Cursor} {b : List UInt8}
    {extensibility extensibility' : Extensibility} {body : Image} (typeName : String)
    (hsame : src.encoding.repr.isDelimited extensibility' =
      src.encoding.repr.isDelimited extensibility)
    (himage : src.encoding.delimitedImage extensibility body (src.origin + c.position) = .ok b)
    (hholds : c.Holds src b) :
    ∃ frame inner after, (openFrame src typeName extensibility').run c = .ok frame after ∧
      body (src.origin + after.position) = .ok inner ∧
      c.Enters src b typeName (src.encoding.repr.isDelimited extensibility) frame inner after ∧
      ∀ demand, Demand.delimited src.encoding extensibility body demand (src.origin + c.position)
        (src.origin + c.stop) ↔ demand (src.origin + after.position) (src.origin + after.stop) := by
  rcases Encoding.delimitedImage_eq_ok himage with ⟨hframed, hbody⟩ |
    ⟨hframed, inner, hinner, hlength, rfl⟩
  · simp only [Demand.delimited]
    rw [hframed] at hsame ⊢
    have hopen : (openFrame src typeName extensibility').run c = .ok none c :=
      run_openFrame_of_not (Bool.eq_false_iff.1 hsame)
    refine ⟨none, b, c, hopen, hbody, ⟨rfl, hholds, nofun, ?_⟩, fun demand => Iff.rfl⟩
    intro count last hmoved _ hall
    rw [hall rfl] at hmoved
    exact ⟨last, rfl, hmoved⟩
  · simp only [Demand.delimited]
    rw [hframed] at hsame ⊢
    rw [← List.append_assoc] at hholds ⊢
    obtain ⟨after, hword, hmoved⟩ := Source.reads_word typeName hlength hholds.left
    have hrest := hholds.right hmoved
    have hfits := hrest.fits
    have hroom : ¬after.remaining < inner.length := by
      unfold Cursor.remaining
      omega
    have hat : src.origin + c.position + padding (src.origin + c.position) 4 + 4 =
        src.origin + after.position := by
      rw [hmoved.position, List.length_append, List.length_replicate, Encoding.length_wordBytes]
      omega
    rw [hat] at hinner
    refine ⟨_, inner, _, run_openFrame_of_fits hsame hword hroom, hinner, ?_, ?_⟩
    · refine ⟨rfl, ?_, fun _ => rfl, ?_⟩
      · exact ⟨hrest.bytes, Nat.le_refl _, Nat.le_trans hfits hrest.inside, hrest.unlimited⟩
      · intro count last hlast hle _
        let extent : Frame := ⟨after.position + inner.length, after.stop, after.owner⟩
        have hdone : last.position ≤ extent.stop := by
          rw [hlast.position]
          exact Nat.add_le_add_left hle after.position
        obtain ⟨final, hclose, hend, hstop, howner, hlimit⟩ := run_closeFrame_of_le typeName hdone
          (hlast.limit.trans (hmoved.limit.trans hholds.unlimited))
        refine ⟨final, hclose, ?_, hstop.trans hmoved.stop, howner.trans hmoved.owner,
          hlimit.trans hholds.unlimited.symm⟩
        rw [List.length_append, ← Nat.add_assoc, ← hmoved.position]
        exact hend
    · intro demand
      simp only [if_true, Demand.enclosed, hat, hinner, Except.ok.injEq, forall_eq']
      rw [Nat.add_assoc src.origin]

end Cdr
