import Cdr.Proofs.EmissionOrder

/-! # Modules in each other

The steps of a text close the module that was opened last, and leave none open. Between two
definitions they close the modules that the paths do not share and open the others, so each type is
defined inside the modules of its namespace. Steps that do so are those of a tree of modules, and
the text is the text of this tree: each module in it is a line that opens it, what stands inside,
deeper by one, and a line that closes it, and each type a line that names it, one for each of its
members, and one that closes it.
-/

namespace Cdr.Idl

/-! ## Namespaces -/

theorem segments_eq_splitOn (cs : List Char) : segments cs = cs.splitOn '.' := by
  induction cs with
  | nil => rfl
  | cons c cs ih =>
    rw [List.splitOn_cons_eq_if_modifyHead, ← ih, segments]
    cases hsegments : segments cs with
    | nil =>
      rw [hsegments] at ih
      exact absurd ih.symm (List.splitOn_ne_nil '.' cs)
    | cons segment rest =>
      by_cases hdot : c = '.'
      · simp [hdot]
      · simp [hdot]

theorem modulePath_eq_splitOn (scope : String) :
    modulePath scope = if scope = "" then [] else (scope.toList.splitOn '.').map String.ofList := by
  rw [modulePath, segments_eq_splitOn]
  by_cases hscope : scope = ""
  · simp [hscope]
  · simp [hscope]

/-! ## Steps -/

variable {n : Nat}

/-- Steps that begin inside the modules `opened`, outermost first, and end outside of all modules. A
    module that is closed is the innermost one. The types they define are listed with the modules
    that are open where they are defined. -/
inductive Nests : List String → List (Piece n) → List (Fin n × List String) → Prop
  | nil : Nests [] [] []
  | openModule {opened : List String} {name : String} {steps : List (Piece n)}
    {placed : List (Fin n × List String)} (rest : Nests (opened ++ [name]) steps placed) :
    Nests opened (.openModule name :: steps) placed
  | closeModule {opened : List String} {name : String} {steps : List (Piece n)}
    {placed : List (Fin n × List String)} (rest : Nests opened steps placed) :
    Nests (opened ++ [name]) (.closeModule :: steps) placed
  | definition {opened : List String} {i : Fin n} {steps : List (Piece n)}
    {placed : List (Fin n × List String)} (rest : Nests opened steps placed) :
    Nests opened (.definition i :: steps) ((i, opened) :: placed)

namespace Nests

variable {steps : List (Piece n)} {placed : List (Fin n × List String)}

theorem openAll {opened : List String} (names : List String)
    (h : Nests (opened ++ names) steps placed) :
    Nests opened (names.map Piece.openModule ++ steps) placed := by
  induction names generalizing opened with
  | nil => simpa using h
  | cons name names ih =>
    apply Nests.openModule
    apply ih
    simpa using h

theorem closeAll {opened : List String} (names : List String) (h : Nests opened steps placed) :
    Nests (opened ++ names) (List.replicate names.length .closeModule ++ steps) placed := by
  induction names using List.reverseRecOn with
  | nil => simpa using h
  | append_singleton names name ih =>
    rw [← List.append_assoc, List.length_append, List.length_singleton, List.replicate_succ]
    exact .closeModule ih

end Nests

theorem take_sharedDepth (opened path : List String) :
    opened.take (sharedDepth opened path) = path.take (sharedDepth opened path) := by
  fun_induction sharedDepth opened path with
  | case1 a as bs ih => simp [ih]
  | case2 => rfl
  | case3 => rfl

/-- The steps between two paths lead from inside the one to inside the other. -/
theorem nests_moves {opened path : List String} {steps : List (Piece n)}
    {placed : List (Fin n × List String)} (h : Nests path steps placed) :
    Nests opened (moves opened path ++ steps) placed := by
  have hlength : (opened.drop (sharedDepth opened path)).length =
      opened.length - sharedDepth opened path := List.length_drop
  rw [moves, List.append_assoc, ← hlength]
  nth_rewrite 1 [← List.take_append_drop (sharedDepth opened path) opened]
  apply Nests.closeAll
  apply Nests.openAll
  rw [take_sharedDepth, List.take_append_drop]
  exact h

/-- Siblings are left and entered inside the module that they share. -/
example : moves (n := 0) ["a", "b"] ["a", "c"] = [.closeModule, .openModule "c"] := by decide

/-- All types are defined inside the modules of their paths, whatever the order. -/
theorem nests_piecesFrom (path : Fin n → List String) (opened : List String)
    (order : List (Fin n)) :
    Nests opened (piecesFrom path opened order) (order.map fun i => (i, path i)) := by
  induction order generalizing opened with
  | nil =>
    have h := Nests.nil (n := n).closeAll opened
    simpa [piecesFrom] using h
  | cons i order ih =>
    apply nests_moves
    exact .definition (ih (path i))

/-! ## Trees -/

/-- What stands inside a module or outside of all: definitions and modules, one behind the other. -/
inductive Contents (n : Nat) where
  | nil
  | definition (index : Fin n) (rest : Contents n)
  | block (name : String) (inside rest : Contents n)

namespace Contents

def steps : Contents n → List (Piece n)
  | nil => []
  | definition i rest => .definition i :: rest.steps
  | block name inside rest => .openModule name :: (inside.steps ++ .closeModule :: rest.steps)

/-- The types that are defined, with the modules around them, outermost first. -/
def placed (path : List String) : Contents n → List (Fin n × List String)
  | nil => []
  | definition i rest => (i, path) :: rest.placed path
  | block name inside rest => inside.placed (path ++ [name]) ++ rest.placed path

/-- The lines of contents that stand inside `depth` modules. -/
def lines (schema : Schema) (depth : Nat) : Contents schema.size → List String
  | nil => []
  | definition i rest => definitionLines schema depth (schema.get i) ++ rest.lines schema depth
  | block name inside rest =>
    line depth ("module " ++ name ++ " \x7b") :: (inside.lines schema (depth + 1) ++
      line depth "\x7d;" :: rest.lines schema depth)

theorem linesFrom_append (schema : Schema) (depth : Nat) (contents : Contents schema.size)
    (behind : List (Piece schema.size)) :
    linesFrom schema depth (contents.steps ++ behind) =
      contents.lines schema depth ++ linesFrom schema depth behind := by
  induction contents generalizing depth behind with
  | nil => rfl
  | definition i rest ih =>
    simp only [steps, lines, List.cons_append, linesFrom, ih, List.append_assoc]
  | block name inside rest ihInside ih =>
    simp only [steps, lines, List.cons_append, List.append_assoc, linesFrom, ihInside, ih,
      Nat.add_sub_cancel]

/-- The steps that close modules, innermost first, each with what stands behind it. -/
def closing : List (String × Contents n) → List (Piece n)
  | [] => []
  | (_, behind) :: outer => .closeModule :: (behind.steps ++ closing outer)

def closingPath (outer : List (String × Contents n)) : List String :=
  (outer.map Prod.fst).reverse

def closingPlaced : List (String × Contents n) → List (Fin n × List String)
  | [] => []
  | (_, behind) :: outer => behind.placed (closingPath outer) ++ closingPlaced outer

end Contents

open Contents

/-- Steps that begin inside modules are those of the contents behind, up to the end of each of these
    modules. -/
theorem Nests.exists_contents {opened : List String} {steps : List (Piece n)}
    {placed : List (Fin n × List String)} (h : Nests opened steps placed) :
    ∃ (inside : Contents n) (outer : List (String × Contents n)),
      opened = closingPath outer ∧ steps = inside.steps ++ closing outer ∧
        placed = inside.placed opened ++ closingPlaced outer := by
  induction h with
  | nil => exact ⟨.nil, [], rfl, rfl, rfl⟩
  | @openModule opened name steps placed rest ih =>
    obtain ⟨inside, outer, hopened, rfl, rfl⟩ := ih
    cases outer with
    | nil => simp [closingPath] at hopened
    | cons first outer =>
      obtain ⟨other, behind⟩ := first
      simp only [closingPath, List.map_cons, List.reverse_cons] at hopened
      obtain ⟨rfl, hname⟩ := List.append_inj' hopened rfl
      cases hname
      refine ⟨.block name inside behind, outer, rfl, ?_, ?_⟩
      · simp [Contents.steps, closing]
      · simp [Contents.placed, closingPlaced, closingPath]
  | @closeModule opened name steps placed rest ih =>
    obtain ⟨inside, outer, rfl, rfl, rfl⟩ := ih
    refine ⟨.nil, (name, inside) :: outer, ?_, rfl, rfl⟩
    simp [closingPath]
  | @definition opened i steps placed rest ih =>
    obtain ⟨inside, outer, hopened, rfl, rfl⟩ := ih
    exact ⟨.definition i inside, outer, hopened, rfl, rfl⟩

/-- Steps that begin outside of all modules are those of a tree. -/
theorem Nests.exists_tree {steps : List (Piece n)} {placed : List (Fin n × List String)}
    (h : Nests [] steps placed) :
    ∃ contents : Contents n, steps = contents.steps ∧ placed = contents.placed [] := by
  obtain ⟨inside, outer, hopened, rfl, rfl⟩ := h.exists_contents
  have houter : outer = [] := by simpa [closingPath] using hopened
  subst houter
  exact ⟨inside, List.append_nil _, List.append_nil _⟩

/-! ## Lines -/

section

variable (schema : Schema)

/-- The annotations that may stand in front of a struct member. -/
def Annotates (m : Member schema.size) (marks : String) : Prop :=
  ∃ key ∈ ["", "@key "], ∃ optional ∈ ["", "@optional "],
    ∃ id ∈ ["", "@id(" ++ Text.decimal m.id.toNat ++ ") "], marks = key ++ optional ++ id

/-- The labels in front of an arm, each once. -/
def Labels (u : UnionType schema.size) (arm : UnionArm schema.size) (marks : String) : Prop :=
  ∃ last ∈ ["", "default: "], marks = String.join (arm.labels.map fun label =>
    "case " ++ caseLabel schema u.discriminator.type label ++ ": ") ++ last

/-- That a text declares a member behind such marks. -/
def Declares (scope : String) (Marks : String → Prop) (m : Member schema.size) (text : String) :
    Prop :=
  ∃ marks, Marks marks ∧ text = marks ++ (declarator schema scope m.type).1 ++ " " ++ m.name ++
    (declarator schema scope m.type).2 ++ ";"

/-- That a text declares an enumerator, whose value is given where it does not follow from the one
    before it. -/
def DeclaresEnumerator (entry : String × Int32) (text : String) : Prop :=
  ∃ value ∈ ["", "@value(" ++ Text.signedDecimal entry.2.toInt ++ ") "], ∃ separator ∈ ["", ","],
    text = value ++ entry.1 ++ separator

/-- The texts that open the definition of a type. The last of them names it. -/
inductive Opens (t : CompiledType schema.size) : List String → Prop
  | struct {s : StructType schema.size} (body : t.body = .struct s) :
    Opens t [extensibilityLine t.extensibility, "struct " ++ t.name ++ " \x7b"]
  | union {u : UnionType schema.size} (body : t.body = .union u) :
    Opens t [extensibilityLine t.extensibility, "union " ++ t.name ++ " switch (" ++
      typeName schema t.scope u.discriminator.type ++ ") \x7b"]
  | enumeration {e : EnumType} (body : t.body = .enumeration e) :
    Opens t ["enum " ++ t.name ++ " \x7b"]

/-- The texts inside of the definition of a type: one for each member, arm or enumerator, in the
    order of their declaration. -/
inductive Fills (t : CompiledType schema.size) : List String → Prop
  | struct {s : StructType schema.size} {texts : List String} (body : t.body = .struct s)
    (members : List.Forall₂ (fun m => Declares schema t.scope (Annotates schema m) m) s.members
      texts) : Fills t texts
  | union {u : UnionType schema.size} {texts : List String} (body : t.body = .union u)
    (arms : List.Forall₂ (fun arm => Declares schema t.scope (Labels schema u arm) arm.member)
      u.arms texts) : Fills t texts
  | enumeration {e : EnumType} {texts : List String} (body : t.body = .enumeration e)
    (enumerators : List.Forall₂ DeclaresEnumerator e.enumerators texts) : Fills t texts

/-- The lines of a definition, each with the number of modules and definitions around it. -/
inductive Defines (depth : Nat) (t : CompiledType schema.size) : List (Nat × String) → Prop
  | lines {opening texts : List String} (opens : Opens schema t opening)
    (fills : Fills schema t texts) :
    Defines depth t (opening.map (depth, ·) ++ texts.map (depth + 1, ·) ++ [(depth, "\x7d;")])

/-- The lines of contents, each with the number of modules and definitions around it. -/
inductive Prints : Nat → Contents schema.size → List (Nat × String) → Prop
  | nil {depth : Nat} : Prints depth .nil []
  | definition {depth : Nat} {i : Fin schema.size} {rest : Contents schema.size}
    {lines behind : List (Nat × String)} (defines : Defines schema depth (schema.get i) lines)
    (prints : Prints depth rest behind) : Prints depth (.definition i rest) (lines ++ behind)
  | block {depth : Nat} {name : String} {inside rest : Contents schema.size}
    {lines behind : List (Nat × String)} (inner : Prints (depth + 1) inside lines)
    (prints : Prints depth rest behind) :
    Prints depth (.block name inside rest)
      ((depth, "module " ++ name ++ " \x7b") :: (lines ++ (depth, "\x7d;") :: behind))

end

/-- A line as it is written, behind four blanks for each module and definition around it. -/
def written (l : Nat × String) : String :=
  String.ofList (List.replicate (4 * l.1) ' ') ++ l.2 ++ "\n"

variable {schema : Schema}

theorem opens_headLines (t : CompiledType schema.size) : Opens schema t (headLines schema t) := by
  unfold headLines
  cases hbody : t.body with
  | struct s => exact .struct hbody
  | union u => exact .union hbody
  | enumeration e => exact .enumeration hbody

theorem declares_declaration (scope : String) {Marks : String → Prop} {marks : String}
    (h : Marks marks) (m : Member schema.size) :
    Declares schema scope Marks m (marks ++ declaration schema scope m) :=
  ⟨marks, h, by simp only [declaration, String.append_assoc]⟩

theorem ite_mem_pair {p : Prop} [Decidable p] {a b : String} : (if p then a else b) ∈ [b, a] := by
  by_cases h : p
  · simp [h]
  · simp [h]

theorem annotates_annotations (index : Nat) (m : Member schema.size) :
    Annotates schema m (annotations schema index m) := by
  refine ⟨_, ite_mem_pair, _, ite_mem_pair, _, ?_, rfl⟩
  rw [← ite_not]
  exact ite_mem_pair

theorem labels_armLabels (u : UnionType schema.size) (arm : UnionArm schema.size) :
    Labels schema u arm (armLabels schema u arm) :=
  ⟨_, ite_mem_pair, rfl⟩

theorem declares_enumeratorTexts (next : Int32) (entries : List (String × Int32)) :
    List.Forall₂ DeclaresEnumerator entries (enumeratorTexts next entries) := by
  induction entries generalizing next with
  | nil => exact .nil
  | cons entry rest ih =>
    obtain ⟨name, value⟩ := entry
    refine .cons ?_ (ih (value + 1))
    have hvalue : ∃ mark ∈ ["", "@value(" ++ Text.signedDecimal value.toInt ++ ") "],
        (if value = next then name else
          "@value(" ++ Text.signedDecimal value.toInt ++ ") " ++ name) = mark ++ name := by
      split
      · exact ⟨"", List.mem_cons_self, String.empty_append.symm⟩
      · exact ⟨_, List.mem_cons_of_mem _ List.mem_cons_self, rfl⟩
    obtain ⟨mark, hmark, htext⟩ := hvalue
    refine ⟨mark, hmark, ?_⟩
    dsimp only
    rw [htext]
    split
    · exact ⟨"", List.mem_cons_self, String.append_empty.symm⟩
    · exact ⟨",", List.mem_cons_of_mem _ List.mem_cons_self, rfl⟩

theorem fills_bodyLines (t : CompiledType schema.size) : Fills schema t (bodyLines schema t) := by
  unfold bodyLines
  cases hbody : t.body with
  | struct s =>
    refine .struct hbody ?_
    have hmembers : s.members.zipIdx.map Prod.fst = s.members := List.zipIdx_map_fst 0 s.members
    nth_rewrite 1 [← hmembers]
    rw [List.forall₂_map_left_iff, List.forall₂_map_right_iff, List.forall₂_same]
    exact fun m _ => declares_declaration _ (annotates_annotations m.2 m.1) _
  | union u =>
    refine .union hbody ?_
    rw [List.forall₂_map_right_iff, List.forall₂_same]
    exact fun arm _ => declares_declaration _ (labels_armLabels u arm) _
  | enumeration e => exact .enumeration hbody (declares_enumeratorTexts 0 e.enumerators)

theorem defines_definitionLines (depth : Nat) (t : CompiledType schema.size) :
    ∃ lines, Defines schema depth t lines ∧
      (definitionLines schema depth t).map (fun text => text ++ "\n") = lines.map written := by
  refine ⟨_, .lines (opens_headLines t) (fills_bodyLines t), ?_⟩
  simp only [definitionLines, List.map_append, List.map_map, List.map_singleton]
  rfl

theorem Contents.prints_lines (depth : Nat) (contents : Contents schema.size) :
    ∃ lines, Prints schema depth contents lines ∧
      (contents.lines schema depth).map (fun text => text ++ "\n") = lines.map written := by
  induction contents generalizing depth with
  | nil => exact ⟨[], .nil, rfl⟩
  | definition i rest ih =>
    obtain ⟨lines, hdefines, hlines⟩ := defines_definitionLines depth (schema.get i)
    obtain ⟨behind, hprints, hbehind⟩ := ih depth
    refine ⟨lines ++ behind, .definition hdefines hprints, ?_⟩
    rw [Contents.lines, List.map_append, List.map_append, hlines, hbehind]
  | block name inside rest ihInside ih =>
    obtain ⟨lines, hinner, hlines⟩ := ihInside (depth + 1)
    obtain ⟨behind, hprints, hbehind⟩ := ih depth
    refine ⟨_, .block hinner hprints, ?_⟩
    simp only [Contents.lines, List.map_cons, List.map_append, hlines, hbehind]
    rfl

/-- Modules nest. The steps of a text close the module that was opened last and none is left open at
    the end; each type is defined once, where the open modules are the segments of its namespace.
    The text they make up is that of a tree of modules, in which each type stands at the path of its
    namespace: for each type the lines that define it, and around them for each module the line that
    opens it and the line that closes it. -/
theorem render_nests (schema : Schema) :
    let placed := (emissionOrder schema).map fun i => (i, modulePath (schema.get i).scope)
    (emissionOrder schema).Perm (List.finRange schema.size) ∧
    Nests [] (pieces schema) placed ∧
    (∃ (contents : Contents schema.size) (lines : List (Nat × String)),
      contents.placed [] = placed ∧ contents.steps = pieces schema ∧
        Prints schema 0 contents lines ∧ render schema = String.join (lines.map written)) ∧
    ∀ scope, modulePath scope =
      if scope = "" then [] else (scope.toList.splitOn '.').map String.ofList := by
  intro placed
  have hnests : Nests [] (pieces schema) placed :=
    nests_piecesFrom (fun i => modulePath (schema.get i).scope) [] (emissionOrder schema)
  refine ⟨perm_emissionOrder schema, hnests, ?_, modulePath_eq_splitOn⟩
  obtain ⟨contents, hsteps, hplaced⟩ := hnests.exists_tree
  obtain ⟨lines, hprints, hwritten⟩ := contents.prints_lines 0
  refine ⟨contents, lines, hplaced.symm, hsteps.symm, hprints, ?_⟩
  have hlines := contents.linesFrom_append schema 0 []
  rw [List.append_nil, ← hsteps, linesFrom, List.append_nil] at hlines
  rw [render, hlines, hwritten]

/-- A fleet, some of which is in the air and some at sea, and its crews, which are outside of it. -/
def fleetDoc : Document where
  types := [
    { name := "Plane"
      scope := "Fleet.Air"
      fields := [FieldDecl.new "home" "Fleet.Port"] },
    { name := "Port"
      scope := "Fleet"
      kind := .enumeration
      enumerators := [{ name := "North" }, { name := "South" }] },
    { name := "Ship"
      scope := "Fleet.Sea"
      kind := .union
      fields := [(FieldDecl.new "manned" "bool").discriminator,
        (FieldDecl.new "crew" "Crew").case [1]] },
    { name := "Crew"
      scope := ""
      fields := [FieldDecl.new "heads" "uint16[2]"] },
    { name := "Convoy"
      scope := "Fleet"
      fields := [FieldDecl.new "ships" "sequence<Fleet.Sea.Ship>"] }]

/-- The types of the fleet in the order of their definitions, with the modules around them. -/
def fleetPlaces : List (String × List String) :=
  [("Port", ["Fleet"]), ("Plane", ["Fleet", "Air"]), ("Crew", []), ("Ship", ["Fleet", "Sea"]),
    ("Convoy", ["Fleet"])]

def fleetLines : List (Nat × String) :=
  [(0, "module Fleet \x7b"),
    (1, "enum Port \x7b"), (2, "North,"), (2, "South"), (1, "\x7d;"),
    (1, "module Air \x7b"),
    (2, "@final"), (2, "struct Plane \x7b"), (3, "::Fleet::Port home;"), (2, "\x7d;"),
    (1, "\x7d;"), (0, "\x7d;"),
    (0, "@final"), (0, "struct Crew \x7b"), (1, "unsigned short heads[2];"), (0, "\x7d;"),
    (0, "module Fleet \x7b"), (1, "module Sea \x7b"),
    (2, "@final"), (2, "union Ship switch (boolean) \x7b"), (3, "case TRUE: ::Crew crew;"),
    (2, "\x7d;"), (1, "\x7d;"),
    (1, "@final"), (1, "struct Convoy \x7b"), (2, "sequence<::Fleet::Sea::Ship> ships;"),
    (1, "\x7d;"), (0, "\x7d;")]

/-- The modules of the fleet are closed for the crew, which a ship refers to, and opened again. -/
theorem render_nests_fleet :
    ∃ schema, fleetDoc.compile = .ok schema ∧
      ∃ (contents : Contents schema.size) (lines : List (Nat × String)),
        (contents.placed []).map (fun p => ((schema.get p.1).name, p.2)) = fleetPlaces ∧
        Prints schema 0 contents lines ∧
        String.join (lines.map written) = String.join (fleetLines.map written) := by
  have hfacts : fleetDoc.compile.toOption.map (fun schema => decide
      ((emissionOrder schema).map (fun i =>
        ((schema.get i).name, modulePath (schema.get i).scope)) = fleetPlaces ∧
      render schema = String.join (fleetLines.map written))) = some true := by decide +kernel
  cases hcompile : fleetDoc.compile with
  | error fault => simp [hcompile, Except.toOption] at hfacts
  | ok schema =>
    obtain ⟨hplaces, htext⟩ : (emissionOrder schema).map (fun i =>
        ((schema.get i).name, modulePath (schema.get i).scope)) = fleetPlaces ∧
        render schema = String.join (fleetLines.map written) := by
      simpa [hcompile, Except.toOption] using hfacts
    obtain ⟨-, -, ⟨contents, lines, hplaced, -, hprints, hrender⟩, -⟩ := render_nests schema
    refine ⟨schema, rfl, contents, lines, ?_, hprints, hrender.symm.trans htext⟩
    rw [hplaced, List.map_map]
    exact hplaces

end Cdr.Idl
