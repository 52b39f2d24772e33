import PlanningDomain.Proofs.Reader.Branches

namespace PlanningDomain

/-!
# Declarations, the first of each name

Declarations that are derived from the grammar may still be in error.  A word may name
no type, and a name may be declared again.  Neither keeps the reader from going on.
What it enters and what it notes is told here by the list of the declarations
alone: the first declaration of each name is entered, and the problems of every
declaration are noted in turn.
-/

namespace Grammar

/-! ## What is entered and what is noted -/

/-- The words that name no type are noted one by one. -/
def unknownTypes (source : Source) (types : List Token) : List Diagnostic :=
  (types.filter (fun type => (DataType.ofKeyword? type.text).isNone)).map (fun type =>
    source.diagnose type.span (.unknownType type.text))

namespace Declared

/-- The declarations of names that were not declared before, neither among the given names nor
by a declaration in front. -/
def firsts (names : List String) : List Declared -> List Declared
  | [] => []
  | one :: rest =>
      if one.name.text ∈ names then firsts names rest
      else one :: firsts (names ++ [one.name.text]) rest

/-- The problems of some declarations: of each the unknown types, and then its name if
that was declared before. -/
def problems (source : Source) (names : List String) : List Declared -> List Diagnostic
  | [] => []
  | one :: rest =>
      if one.name.text ∈ names then
        unknownTypes source one.types ++
          source.diagnose one.name.span (.redeclaredFact one.name.text) ::
            problems source names rest
      else
        unknownTypes source one.types ++ problems source (names ++ [one.name.text]) rest

/-- The names that are declared after some declarations. -/
def namesAfter (names : List String) (declared : List Declared) : List String :=
  names ++ (firsts names declared).map (fun one => one.name.text)

variable {one : Declared} {names : List String}

theorem firsts_of_known (known : one.name.text ∈ names) (rest : List Declared) :
    firsts names (one :: rest) = firsts names rest := by
  rw [firsts, if_pos known]

theorem firsts_of_new (new : one.name.text ∉ names) (rest : List Declared) :
    firsts names (one :: rest) = one :: firsts (names ++ [one.name.text]) rest := by
  rw [firsts, if_neg new]

theorem namesAfter_of_known (known : one.name.text ∈ names) (rest : List Declared) :
    namesAfter names (one :: rest) = namesAfter names rest := by
  rw [namesAfter, firsts_of_known known, namesAfter]

theorem namesAfter_of_new (new : one.name.text ∉ names) (rest : List Declared) :
    namesAfter names (one :: rest) = namesAfter (names ++ [one.name.text]) rest := by
  rw [namesAfter, firsts_of_new new, List.map_cons, ← List.singleton_append, ← List.append_assoc,
    namesAfter]

/-- Declarations are gone through in order. -/
theorem append_eq (source : Source) (first later : List Declared) : forall names : List String,
    firsts names (first ++ later) = firsts names first ++ firsts (namesAfter names first) later ∧
      problems source names (first ++ later) =
        problems source names first ++ problems source (namesAfter names first) later := by
  induction first with
  | nil =>
      intro names
      have same : namesAfter names [] = names := List.append_nil names
      rw [same]
      exact ⟨rfl, rfl⟩
  | cons one first ih =>
      intro names
      rw [List.cons_append]
      by_cases known : one.name.text ∈ names
      · rcases ih names with ⟨entered, noted⟩
        rw [firsts_of_known known, firsts_of_known known, namesAfter_of_known known, problems,
          if_pos known, problems, if_pos known, entered, noted, List.append_assoc, List.cons_append]
        exact ⟨rfl, rfl⟩
      · rcases ih (names ++ [one.name.text]) with ⟨entered, noted⟩
        rw [firsts_of_new known, firsts_of_new known, namesAfter_of_new known, problems,
          if_neg known, problems, if_neg known, entered, noted, List.append_assoc, List.cons_append]
        exact ⟨rfl, rfl⟩

def isNamed (name : String) (declared : Declared) : Bool :=
  declared.name.text == name

/-- A name that was not declared before has its first declaration. -/
theorem find?_firsts (declared : List Declared) (name : String) : forall names : List String,
    name ∉ names -> (firsts names declared).find? (isNamed name) = declared.find? (isNamed name) := by
  induction declared with
  | nil => exact fun _ _ => rfl
  | cons one declared ih =>
      intro names absent
      by_cases same : one.name.text = name
      · have found : one.isNamed name = true := beq_iff_eq.mpr same
        rw [firsts_of_new (same ▸ absent), List.find?_cons_of_pos found,
          List.find?_cons_of_pos found]
      · have other : ¬ one.isNamed name = true := fun found => same (beq_iff_eq.mp found)
        rw [List.find?_cons_of_neg other]
        by_cases known : one.name.text ∈ names
        · rw [firsts_of_known known, ih names absent]
        · rw [firsts_of_new known, List.find?_cons_of_neg other]
          refine ih _ (fun member => ?_)
          rcases List.mem_append.mp member with early | last
          · exact absent early
          · exact same (List.mem_singleton.mp last).symm

end Declared

end Grammar

namespace Reader

open Grammar

/-! ## Parameters -/

/-- Some tokens are read and some problems are noted, and nothing is declared. -/
structure Notes (before after : Reader) (noted : List Diagnostic) (rest : List Token) : Prop where
  shows : after.Shows rest
  source : after.source = before.source
  world : after.world = before.world
  diagnostics : after.diagnostics = before.diagnostics ++ noted

namespace Notes

variable {before middle after : Reader} {token : Token} {first later : List Diagnostic}
  {between rest : List Token}

theorem advance (shows : before.Shows (token :: rest)) : Notes before before.advance [] rest where
  shows := shows.advance
  source := rfl
  world := rfl
  diagnostics := (List.append_nil _).symm

theorem report (shows : before.Shows rest) (span : Span) (problem : Problem) :
    Notes before (before.report span problem) [before.source.diagnose span problem] rest :=
  ⟨shows, rfl, rfl, rfl⟩

theorem trans (begun : Notes before middle first between) (ended : Notes middle after later rest) :
    Notes before after (first ++ later) rest where
  shows := ended.shows
  source := ended.source.trans begun.source
  world := ended.world.trans begun.world
  diagnostics := by rw [ended.diagnostics, begun.diagnostics, List.append_assoc]

theorem closeGroup {closing : Token} (shows : before.Shows (closing :: rest))
    (closes : closing.kind = .rightParen) (opened : Span) :
    Notes before (before.closeGroup opened) [] rest := by
  rw [closeGroup_of_close (shows.sees_of closes)]
  exact advance shows

end Notes

theorem parameter_notes {before : Reader} {type : Token} {rest : List Token}
    (shows : before.Shows (type :: rest)) (isName : type.kind = .identifier) :
    before.parameter.value.toList = dataTypes [type] ∧
      Notes before before.parameter.reader (unknownTypes before.source [type]) rest := by
  have named := shows.sees_of isName
  rw [value_parameter_of_named named, shows.current_eq]
  cases known : DataType.ofKeyword? type.text with
  | some dataType =>
      have same : DataType.ofKeyword? before.current.text = some dataType := by
        rw [shows.current_eq]
        exact known
      have silent : unknownTypes before.source [type] = [] := by simp [unknownTypes, known]
      rw [(parameter_of_known named same).2, silent]
      exact ⟨by simp [dataTypes, known], .advance shows⟩
  | none =>
      have same : DataType.ofKeyword? before.current.text = none := by
        rw [shows.current_eq]
        exact known
      have noted : unknownTypes before.source [type] =
          [before.source.diagnose type.span (.unknownType type.text)] := by
        simp [unknownTypes, known]
      rw [parameter_of_unknown named same, shows.current_eq, noted]
      exact ⟨by simp [dataTypes, known], (Notes.advance shows).trans (.report shows.advance _ _)⟩

theorem unknownTypes_cons (source : Source) (type : Token) (types : List Token) :
    unknownTypes source (type :: types) =
      unknownTypes source [type] ++ unknownTypes source types := by
  rw [unknownTypes, ← List.singleton_append, List.filter_append, List.map_append]
  rfl

theorem dataTypes_append (type : Token) (types : List Token) :
    dataTypes (type :: types) = dataTypes [type] ++ dataTypes types := by
  rw [dataTypes, ← List.singleton_append, List.filterMap_append]
  rfl

theorem parameters_notes {tokens types : List Token} (derived : Types tokens types)
    {before : Reader} {closing : Token} {rest : List Token}
    (shows : before.Shows (tokens ++ closing :: rest)) (isClosing : closing.kind = .rightParen) :
    before.parameters.value = dataTypes types ∧
      Notes before before.parameters.reader (unknownTypes before.source types)
        (closing :: rest) := by
  induction derived generalizing before with
  | @last type isName =>
      rcases parameter_notes shows isName with ⟨value, notes⟩
      have unseparated : before.parameter.reader.sees .comma = false := by
        rw [notes.shows.sees_eq, isClosing]
        rfl
      rcases parameters_of_not_comma unseparated with ⟨values, ends⟩
      rw [values, ends]
      exact ⟨value, notes⟩
  | @cons type comma others types isName isComma _ ih =>
      rcases parameter_notes shows isName with ⟨value, notes⟩
      rcases parameters_of_comma (notes.shows.sees_of isComma) with ⟨values, ends⟩
      rcases ih notes.shows.advance with ⟨valuesLater, notesLater⟩
      have same : before.parameter.reader.advance.source = before.source := notes.source
      rw [same] at notesLater
      rw [values, ends, value, valuesLater, ← dataTypes_append, unknownTypes_cons]
      exact ⟨rfl, notes.trans ((Notes.advance notes.shows).trans notesLater)⟩

theorem parameterList_notes {name : Token} {tokens types : List Token}
    (derived : Declaration (name :: tokens) ⟨name, types⟩) {before : Reader} {rest : List Token}
    (shows : before.Shows (tokens ++ rest)) :
    before.parameterList.value = dataTypes types ∧
      Notes before before.parameterList.reader (unknownTypes before.source types) rest := by
  cases derived with
  | @untyped _ opening closing _ isOpening isClosing =>
      rcases parameterList_of_empty (shows.sees_of isOpening) (shows.advance.sees_of isClosing) with
        ⟨values, ends⟩
      rw [values, ends]
      exact ⟨rfl, (Notes.advance shows).trans (Notes.advance shows.advance)⟩
  | @typed _ opening tokens closing _ _ isOpening derived isClosing =>
      have shows : before.Shows (opening :: tokens ++ [closing] ++ rest) := shows
      rw [List.append_assoc] at shows
      have unclosed : before.advance.sees .rightParen = false := by
        cases derived with
        | last isName => exact sees_eq_false_of_sees (shows.advance.sees_of isName) (by decide)
        | cons isName => exact sees_eq_false_of_sees (shows.advance.sees_of isName) (by decide)
      rcases parameterList_of_types (shows.sees_of isOpening) unclosed with ⟨values, ends⟩
      rcases parameters_notes derived shows.advance isClosing with ⟨inside, notes⟩
      have closed := notes.trans
        (Notes.closeGroup notes.shows isClosing before.current.span)
      rw [List.append_nil] at closed
      rw [values, ends]
      exact ⟨inside, (Notes.advance shows).trans closed⟩

/-! ## Declarations -/

/-- The names that are declared. -/
def names (reader : Reader) : List String :=
  reader.world.facts.map Fact.name

/-- Some declarations are read.  Those of new names are entered, and all problems are noted. -/
structure Registers (before after : Reader) (declared : List Declared) (rest : List Token) :
    Prop where
  shows : after.Shows rest
  source : after.source = before.source
  facts : after.world.facts =
    before.world.facts ++ (Declared.firsts before.names declared).map Declared.fact
  diagnostics : after.diagnostics =
    before.diagnostics ++ Declared.problems before.source before.names declared

namespace Registers

variable {before middle after : Reader} {token : Token} {first later : List Declared}
  {between rest : List Token}

theorem advance (shows : before.Shows (token :: rest)) :
    Registers before before.advance [] rest where
  shows := shows.advance
  source := rfl
  facts := (List.append_nil _).symm
  diagnostics := (List.append_nil _).symm

theorem names_eq (registers : Registers before after first rest) :
    after.names = Declared.namesAfter before.names first := by
  rw [names, registers.facts, List.map_append, List.map_map]
  rfl

theorem trans (begun : Registers before middle first between)
    (ended : Registers middle after later rest) :
    Registers before after (first ++ later) rest := by
  rcases Declared.append_eq before.source first later before.names with ⟨entered, noted⟩
  refine ⟨ended.shows, ended.source.trans begun.source, ?_, ?_⟩
  · rw [ended.facts, begun.facts, begun.names_eq, entered, List.map_append, List.append_assoc]
  · rw [ended.diagnostics, begun.diagnostics, begun.names_eq, begun.source, noted,
      List.append_assoc]

end Registers

/-- The name of a declaration comes into the table if it is new, and is noted if it is
not. -/
theorem declare_registers {before middle : Reader} {declared : Declared} {rest : List Token}
    (notes : Notes before middle (unknownTypes before.source declared.types) rest) :
    Registers before (middle.declare declared.fact) [declared] rest := by
  have facts : middle.world.facts = before.world.facts := congrArg World.facts notes.world
  have isName : declared.fact.name = declared.name.text := rfl
  by_cases known : declared.name.text ∈ before.names
  · obtain ⟨existing, found⟩ : Exists fun existing : Fact =>
        middle.world.find? declared.fact.name = some existing := by
      refine Option.isSome_iff_exists.mp (List.find?_isSome.mpr ?_)
      rcases List.mem_map.mp known with ⟨fact, isFact, same⟩
      exact ⟨fact, facts ▸ isFact, beq_iff_eq.mpr same⟩
    rw [declare_of_known found]
    refine ⟨notes.shows, notes.source, ?_, ?_⟩
    · rw [Declared.firsts_of_known known]
      exact facts.trans (List.append_nil _).symm
    · rw [Declared.problems, if_pos known, ← List.append_assoc, ← notes.diagnostics, isName,
        ← notes.source]
      rfl
  · have absent : middle.world.find? declared.fact.name = none := by
      refine List.find?_eq_none.mpr (fun fact isFact same => known ?_)
      exact List.mem_map.mpr ⟨fact, facts ▸ isFact, beq_iff_eq.mp same⟩
    rw [declare_of_new absent]
    refine ⟨notes.shows, notes.source, ?_, ?_⟩
    · rw [Declared.firsts_of_new known]
      exact congrArg (· ++ [declared.fact]) facts
    · rw [Declared.problems, if_neg known, Declared.problems, List.append_nil]
      exact notes.diagnostics

theorem factDeclaration_registers {tokens : List Token} {declared : Declared}
    (derived : Declaration tokens declared) {before : Reader} {rest : List Token}
    (shows : before.Shows (tokens ++ rest)) :
    before.sees .identifier = true ∧ Registers before before.factDeclaration [declared] rest := by
  obtain ⟨others, isName, begins⟩ : Exists fun others : List Token =>
      declared.name.kind = .identifier ∧ tokens = declared.name :: others := by
    cases derived with
    | untyped isName => exact ⟨_, isName, rfl⟩
    | typed isName => exact ⟨_, isName, rfl⟩
  rw [begins] at shows derived
  rcases parameterList_notes derived shows.advance with ⟨values, notes⟩
  have same : before.factDeclaration =
      before.advance.parameterList.reader.declare declared.fact := by
    have isFact : declared.fact =
        ⟨before.current.text, before.current.span, before.advance.parameterList.value⟩ := by
      rw [shows.current_eq, values]
      rfl
    rw [isFact]
    rfl
  refine ⟨shows.sees_of isName, ?_⟩
  rw [same]
  exact declare_registers ((Notes.advance shows).trans notes)

theorem factDeclarations_registers {tokens : List Token} {declared : List Declared}
    (derived : Declarations tokens declared) {before : Reader} {closing : Token}
    {rest : List Token} (shows : before.Shows (tokens ++ closing :: rest))
    (isClosing : closing.kind = .rightBrace) (opened : Span) :
    Registers before (factDeclarations opened before).reader declared rest := by
  induction derived generalizing before with
  | nil =>
      rw [factDeclarations_of_close (shows.sees_of isClosing)]
      exact .advance shows
  | cons derived _ ih =>
      rw [List.append_assoc] at shows
      rcases factDeclaration_registers derived shows with ⟨named, registers⟩
      rw [factDeclarations_of_name named]
      exact registers.trans (ih registers.shows)

theorem factBlock_registers {tokens : List Token} {declared : List Declared}
    (derived : Block tokens declared) {before : Reader} {rest : List Token}
    (shows : before.Shows (tokens ++ rest)) :
    before.sees .fact = true ∧ Registers before before.factBlock.reader declared rest := by
  cases derived with
  | @braces keyword opening tokens closing _ isKeyword isOpening derived isClosing =>
      rw [List.append_assoc] at shows
      have block := shows.sees_of isKeyword
      rw [factBlock_of_opens block (shows.advance.sees_of isOpening)]
      have opens := (Registers.advance shows).trans (Registers.advance shows.advance)
      exact ⟨block, opens.trans (factDeclarations_registers derived opens.shows isClosing _)⟩

/-- A source that consists of blocks has no preconditions.  All its declarations are gone
through in order. -/
theorem preconditions_registers {tokens : List Token} {declared : List Declared}
    {terms : List Term} (derived : File tokens declared terms) (none : terms = [])
    {before : Reader} (shows : before.Shows tokens) :
    before.preconditions.1 = [] ∧ Registers before before.preconditions.2 declared [] := by
  induction derived generalizing before with
  | nil =>
      rw [preconditions_of_end shows.sees_end]
      exact ⟨rfl, shows, rfl, (List.append_nil _).symm, (List.append_nil _).symm⟩
  | block derived _ ih =>
      rcases factBlock_registers derived shows with ⟨block, registers⟩
      rw [preconditions_of_fact block]
      rcases ih none registers.shows with ⟨noTrees, later⟩
      exact ⟨noTrees, registers.trans later⟩
  | precondition => exact (List.cons_ne_nil _ _ none).elim

end Reader

end PlanningDomain
