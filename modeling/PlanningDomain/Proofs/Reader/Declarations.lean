import PlanningDomain.Proofs.Reader.Completeness
import PlanningDomain.Proofs.Reader.Steps
import PlanningDomain.Reader.Declaration

namespace PlanningDomain

/-!
# Reading declarations

A block of facts is read silently if and only if it is derived from the grammar,
its types are all known, and no name of it was declared before.  The world then
has one more fact for each declaration, in order.
-/

namespace Grammar

namespace Declared

/-- All types of a declaration are keywords. -/
def Known (declared : Declared) : Prop :=
  forall type, type ∈ declared.types -> (DataType.ofKeyword? type.text).isSome = true

theorem known_iff {declared : Declared} : declared.Known ↔
    forall type, type ∈ declared.types ->
      type.text ∈ ["int8", "int32", "int64", "float", "id32", "id64"] :=
  forall₂_congr (fun _ _ => DataType.isSome_ofKeyword?_iff)

end Declared

end Grammar

namespace Reader

open Grammar

/-! ## Parameters -/

/-- The types that some words name.  Other words are left out. -/
def dataTypes (types : List Token) : List DataType :=
  types.filterMap (fun type => DataType.ofKeyword? type.text)

theorem dataTypes_cons {type : Token} {dataType : DataType}
    (known : DataType.ofKeyword? type.text = some dataType) (types : List Token) :
    dataTypes (type :: types) = dataType :: dataTypes types :=
  List.filterMap_cons_some known

section Branches

variable {reader : Reader}

theorem parameter_of_known {type : DataType} (named : reader.sees .identifier = true)
    (known : DataType.ofKeyword? reader.current.text = some type) :
    reader.parameter.value = some type ∧ reader.parameter.reader = reader.advance := by
  unfold parameter
  rw [if_pos named]
  simp only [known, and_self]

theorem parameter_of_unknown (named : reader.sees .identifier = true)
    (unknown : DataType.ofKeyword? reader.current.text = none) :
    reader.parameter.reader =
      reader.advance.report reader.current.span (.unknownType reader.current.text) := by
  unfold parameter
  rw [if_pos named]
  simp only [unknown]

theorem parameter_of_missing (unnamed : reader.sees .identifier = false) :
    reader.parameter.reader = reader.unexpected .parameterType := by
  unfold parameter
  rw [if_neg (Bool.eq_false_iff.mp unnamed)]

theorem parameters_of_comma (separated : reader.parameter.reader.sees .comma = true) :
    reader.parameters.value =
        reader.parameter.value.toList ++ reader.parameter.reader.advance.parameters.value ∧
      reader.parameters.reader = reader.parameter.reader.advance.parameters.reader := by
  rw [parameters]
  simp only [dif_pos separated, and_self]

theorem parameters_of_not_comma (unseparated : reader.parameter.reader.sees .comma = false) :
    reader.parameters.value = reader.parameter.value.toList ∧
      reader.parameters.reader = reader.parameter.reader := by
  rw [parameters]
  simp only [dif_neg (Bool.eq_false_iff.mp unseparated), and_self]

theorem parameterList_of_empty (opens : reader.sees .leftParen = true)
    (closes : reader.advance.sees .rightParen = true) :
    reader.parameterList.value = [] ∧ reader.parameterList.reader = reader.advance.advance := by
  unfold parameterList
  simp only [if_pos opens, if_pos closes, and_self]

theorem parameterList_of_types (opens : reader.sees .leftParen = true)
    (unclosed : reader.advance.sees .rightParen = false) :
    reader.parameterList.value = reader.advance.parameters.value ∧
      reader.parameterList.reader =
        reader.advance.parameters.reader.closeGroup reader.current.span := by
  unfold parameterList
  simp only [if_pos opens, if_neg (Bool.eq_false_iff.mp unclosed), and_self]

theorem parameterList_of_missing (unopened : reader.sees .leftParen = false) :
    reader.parameterList.reader = reader.unexpected .openingParen := by
  unfold parameterList
  rw [if_neg (Bool.eq_false_iff.mp unopened)]

end Branches

theorem parameter_steps (reader : Reader) : Steps reader reader.parameter.reader := by
  cases named : reader.sees .identifier with
  | false => exact parameter_of_missing named ▸ .single (.report _ _)
  | true =>
      have moved : Steps reader reader.advance := .single (.advance_of_sees named (by decide))
      cases known : DataType.ofKeyword? reader.current.text with
      | some type => exact (parameter_of_known named known).2 ▸ moved
      | none => exact parameter_of_unknown named known ▸ moved.tail (.report _ _)

theorem parameters_steps (reader : Reader) : Steps reader reader.parameters.reader := by
  induction reader using parameters.induct with
  | case1 reader first _ separated _ _ ih =>
      rw [(parameters_of_comma separated).2]
      exact (reader.parameter_steps.tail (.advance_of_sees separated (by decide))).trans ih
  | case2 reader first _ unseparated =>
      rw [(parameters_of_not_comma (Bool.eq_false_iff.mpr unseparated)).2]
      exact reader.parameter_steps

theorem parameterList_steps (reader : Reader) : Steps reader reader.parameterList.reader := by
  cases opens : reader.sees .leftParen with
  | false => exact parameterList_of_missing opens ▸ .single (.report _ _)
  | true =>
      have moved : Steps reader reader.advance := .single (.advance_of_sees opens (by decide))
      cases closes : reader.advance.sees .rightParen with
      | true =>
          rw [(parameterList_of_empty opens closes).2]
          exact moved.tail (.advance_of_sees closes (by decide))
      | false =>
          rw [(parameterList_of_types opens closes).2]
          exact moved.trans ((parameters_steps _).trans (closeGroup_steps _ _))

theorem parameter_accounts (reader : Reader) :
    Accounts reader reader.parameter.reader (fun read => read = [reader.current] ∧
      reader.current.kind = .identifier ∧ Exists fun type : DataType =>
        DataType.ofKeyword? reader.current.text = some type ∧
          reader.parameter.value = some type) := by
  cases named : reader.sees .identifier with
  | false =>
      rw [parameter_of_missing named]
      exact .of_not_silent (not_silent_report _ _ _)
  | true =>
      cases known : DataType.ofKeyword? reader.current.text with
      | none =>
          rw [parameter_of_unknown named known]
          exact .of_not_silent (not_silent_report _ _ _)
      | some type =>
          rcases parameter_of_known named known with ⟨value, after⟩
          rw [value, after]
          apply (Accounts.token named (by decide) (by decide)).weaken
          rintro read ⟨single, isName⟩
          exact ⟨single, isName, type, rfl, rfl⟩

/-- The types of a declaration were all read and are all known. -/
def Lists (types : List Token) (values : List DataType) : Prop :=
  (forall type, type ∈ types -> (DataType.ofKeyword? type.text).isSome = true) ∧
    values = dataTypes types

theorem parameters_accounts (reader : Reader) :
    Accounts reader reader.parameters.reader (fun read => Exists fun types : List Token =>
      Types read types ∧ Lists types reader.parameters.value) := by
  have knows {type : DataType} {token : Token}
      (known : DataType.ofKeyword? token.text = some type) :
      (DataType.ofKeyword? token.text).isSome = true := by
    rw [known]
    rfl
  induction reader using parameters.induct with
  | case1 reader first _ separated _ _ ih =>
      rw [(parameters_of_comma separated).1, (parameters_of_comma separated).2]
      refine ((reader.parameter_accounts.trans (Accounts.token separated (by decide)
        (by decide))).trans ih).weaken ?_
      intro read ⟨_, _, split, ⟨_, _, splitFirst, ⟨single, isName, type, known, value⟩, comma,
        isComma⟩, types, derived, knownLater, values⟩
      refine ⟨reader.current :: types, ?_, List.forall_mem_cons.mpr ⟨knows known, knownLater⟩, ?_⟩
      · rw [split, splitFirst, single, comma]
        exact .cons isName isComma derived
      · rw [value, values, dataTypes_cons known]
        rfl
  | case2 reader first _ unseparated =>
      have unseparated := Bool.eq_false_iff.mpr unseparated
      rw [(parameters_of_not_comma unseparated).1, (parameters_of_not_comma unseparated).2]
      apply reader.parameter_accounts.weaken
      intro read ⟨single, isName, type, known, value⟩
      refine ⟨[reader.current], single ▸ .last isName,
        List.forall_mem_singleton.mpr (knows known), ?_⟩
      rw [value, dataTypes_cons known]
      rfl

theorem parameterList_accounts (reader : Reader) :
    Accounts reader reader.parameterList.reader (fun read => Exists fun types : List Token =>
      (forall name : Token, name.kind = .identifier -> Declaration (name :: read) ⟨name, types⟩) ∧
        Lists types reader.parameterList.value) := by
  cases opens : reader.sees .leftParen with
  | false =>
      rw [parameterList_of_missing opens]
      exact .of_not_silent (not_silent_report _ _ _)
  | true =>
      have opening := Accounts.token opens (by decide) (by decide)
      cases closes : reader.advance.sees .rightParen with
      | true =>
          rw [(parameterList_of_empty opens closes).1, (parameterList_of_empty opens closes).2]
          apply (opening.trans (Accounts.token closes (by decide) (by decide))).weaken
          intro read ⟨_, _, split, ⟨first, isOpening⟩, last, isClosing⟩
          rw [split, first, last]
          refine ⟨[], fun name isName => .untyped isName isOpening isClosing, ?_, rfl⟩
          exact fun _ impossible => (List.not_mem_nil impossible).elim
      | false =>
          rw [(parameterList_of_types opens closes).1, (parameterList_of_types opens closes).2]
          apply (opening.trans ((parameters_accounts _).trans (Accounts.closeGroup _ _))).weaken
          intro read ⟨_, _, split, ⟨first, isOpening⟩, _, _, splitLater, ⟨types, derived, lists⟩,
            last,
            isClosing⟩
          rw [split, first, splitLater, last]
          exact ⟨types, fun name isName => .typed isName isOpening derived isClosing, lists⟩

/-! ## Declarations -/

theorem declare_of_new {reader : Reader} {fact : Fact}
    (absent : reader.world.find? fact.name = none) :
    reader.declare fact = { reader with world := reader.world.add fact absent } := by
  unfold declare World.declare
  split
  case h_1 world declared =>
    split at declared
    case h_1 => cases declared
    case h_2 => rw [← Except.ok.inj declared]
  case h_2 existing known =>
    split at known
    case h_1 found => exact (Option.some_ne_none _ (found.symm.trans absent)).elim
    case h_2 => cases known

theorem declare_of_known {reader : Reader} {fact existing : Fact}
    (found : reader.world.find? fact.name = some existing) :
    reader.declare fact = reader.report fact.span (.redeclaredFact fact.name) := by
  unfold declare World.declare
  split
  case h_1 world declared =>
    split at declared
    case h_1 => cases declared
    case h_2 absent => exact (Option.some_ne_none _ (found.symm.trans absent)).elim
  case h_2 => rfl

/-- A silent declaration reads nothing and adds its fact to the world. -/
theorem Accounts.declare (reader : Reader) (fact : Fact) :
    Accounts reader (reader.declare fact) (fun read => read = [] ∧
      (reader.declare fact).world.facts = reader.world.facts ++ [fact]) := by
  cases found : reader.world.find? fact.name with
  | some existing =>
      rw [declare_of_known found]
      exact .of_not_silent (not_silent_report _ _ _)
  | none =>
      rw [declare_of_new found]
      have nothing : Accounts reader reader (· = []) := .nothing rfl
      exact nothing.weaken (fun read none => ⟨none, rfl⟩)

theorem factDeclaration_accounts {reader : Reader} (named : reader.sees .identifier = true) :
    Accounts reader reader.factDeclaration (fun read => Exists fun declared : Declared =>
      Declaration read declared ∧ declared.Known ∧
        reader.factDeclaration.world.facts = reader.world.facts ++ [declared.fact]) := by
  refine ((Accounts.token named (by decide) (by decide)).trans
    ((parameterList_accounts _).trans (Accounts.declare _ _))).weaken ?_
  intro read ⟨_, _, split, ⟨name, isName⟩, _, _, splitLater, ⟨types, derived, known, values⟩, last,
    facts⟩
  have steps : Steps reader reader.advance.parameterList.reader :=
    .head (.advance_of_sees named (by decide)) (parameterList_steps _)
  refine ⟨⟨reader.current, types⟩, ?_, known, ?_⟩
  · rw [split, name, splitLater, last, List.append_nil]
    exact derived reader.current isName
  · rw [steps.unchanged.1] at facts
    apply facts.trans
    rw [values]
    rfl

/-! ## Blocks -/

/-- Some declarations were read, and their facts were added to the world. -/
def Declares (before after : Reader) (declared : List Declared) : Prop :=
  (forall one, one ∈ declared -> one.Known) ∧
    after.world.facts = before.world.facts ++ declared.map Declared.fact

theorem Declares.nil {before after : Reader} (same : after.world = before.world) :
    Declares before after [] :=
  ⟨fun _ impossible => (List.not_mem_nil impossible).elim,
    by rw [same]; exact (List.append_nil _).symm⟩

theorem Declares.append {before middle after : Reader} {first later : List Declared}
    (begun : Declares before middle first) (ended : Declares middle after later) :
    Declares before after (first ++ later) := by
  refine ⟨fun one member => ?_, ?_⟩
  · rcases List.mem_append.mp member with isFirst | isLater
    · exact begun.1 one isFirst
    · exact ended.1 one isLater
  · rw [ended.2, begun.2, List.map_append, List.append_assoc]

theorem factDeclarations_accounts (opened : Span) (reader : Reader) :
    Accounts reader (factDeclarations opened reader).reader (fun read =>
      Exists fun tokens : List Token => Exists fun closing : Token =>
        Exists fun declared : List Declared =>
        read = tokens ++ [closing] ∧ closing.kind = .rightBrace ∧ Declarations tokens declared ∧
          Declares reader (factDeclarations opened reader).reader declared) := by
  induction reader using factDeclarations.induct opened with
  | case1 reader closes =>
      rw [factDeclarations, if_pos closes]
      apply (Accounts.token closes (by decide) (by decide)).weaken
      exact fun read ⟨single, isClosing⟩ => ⟨[], _, [], single, isClosing, .nil, .nil rfl⟩
  | case2 reader unclosed ended =>
      rw [factDeclarations, if_neg unclosed, dif_pos ended]
      exact .of_not_silent (not_silent_report _ _ _)
  | case3 reader unclosed notEnded _ named _ ih =>
      rw [factDeclarations, if_neg unclosed, dif_neg notEnded, if_pos named]
      apply ((factDeclaration_accounts named).trans ih).weaken
      intro read ⟨_, _, split, ⟨first, derived, known, facts⟩, tokens, closing, declared,
        splitLater,
        isClosing, later, declares⟩
      refine ⟨_, closing, first :: declared, ?_, isClosing, .cons derived later, ?_⟩
      · rw [split, splitLater, List.append_assoc]
      · exact Declares.append ⟨List.forall_mem_singleton.mpr known, facts⟩ declares
  | case4 reader unclosed notEnded _ unnamed ih =>
      rw [factDeclarations, if_neg unclosed, dif_neg notEnded, if_neg unnamed]
      intro silent
      exact (not_silent_report _ _ _ (ih silent).1).elim

theorem factBlock_accounts {reader : Reader} (seen : reader.sees .fact = true) :
    Accounts reader reader.factBlock.reader (fun read => Exists fun declared : List Declared =>
      Block read declared ∧ Declares reader reader.factBlock.reader declared) := by
  unfold factBlock
  rw [if_pos seen]
  by_cases opens : reader.advance.sees .leftBrace = true
  · simp only [if_pos opens]
    refine ((Accounts.token seen (by decide) (by decide)).trans
      ((Accounts.token opens (by decide) (by decide)).trans
        (factDeclarations_accounts _ _))).weaken ?_
    intro read ⟨_, _, split, ⟨keyword, isKeyword⟩, _, _, splitLater, ⟨opening, isOpening⟩, tokens,
      closing, declared, last, isClosing, derived, declares⟩
    rw [split, splitLater, keyword, opening, last]
    exact ⟨declared, .braces isKeyword isOpening derived isClosing, declares⟩
  · simp only [if_neg opens]
    exact .of_not_silent (not_silent_report _ _ _)

/-! ## Derived declarations are read silently -/

theorem parameters_reads {tokens types : List Token} (derived : Types tokens types)
    (known : forall type, type ∈ types -> (DataType.ofKeyword? type.text).isSome = true)
    {before : Reader} {closing : Token} {rest : List Token}
    (shows : before.Shows (tokens ++ closing :: rest)) (isClosing : closing.kind = .rightParen) :
    before.parameters.value = dataTypes types ∧
      Passes before before.parameters.reader (closing :: rest) := by
  induction derived generalizing before with
  | @last type isName =>
      rcases Option.isSome_iff_exists.mp (known type List.mem_cons_self) with ⟨dataType, isKnown⟩
      obtain ⟨value, after⟩ := parameter_of_known (shows.sees_of isName)
        (by rw [shows.current_eq]; exact isKnown)
      have unseparated : before.parameter.reader.sees .comma = false := by
        rw [after, shows.advance.sees_eq, isClosing]
        rfl
      rcases parameters_of_not_comma unseparated with ⟨values, ends⟩
      rw [values, ends, value, after, dataTypes_cons isKnown]
      exact ⟨rfl, .advance shows⟩
  | @cons type comma others types isName isComma _ ih =>
      rcases List.forall_mem_cons.mp known with ⟨knownFirst, knownLater⟩
      rcases Option.isSome_iff_exists.mp knownFirst with ⟨dataType, isKnown⟩
      obtain ⟨value, after⟩ := parameter_of_known (shows.sees_of isName)
        (by rw [shows.current_eq]; exact isKnown)
      have separated : before.parameter.reader.sees .comma = true := by
        rw [after]
        exact shows.advance.sees_of isComma
      rcases parameters_of_comma separated with ⟨values, ends⟩
      rcases ih knownLater shows.advance.advance with ⟨valuesLater, passes⟩
      rw [values, ends, value, after, valuesLater, dataTypes_cons isKnown]
      exact ⟨rfl, (Passes.advance shows).trans ((Passes.advance shows.advance).trans passes)⟩

theorem parameterList_reads {name : Token} {tokens types : List Token}
    (derived : Declaration (name :: tokens) ⟨name, types⟩)
    (known : forall type, type ∈ types -> (DataType.ofKeyword? type.text).isSome = true)
    {before : Reader} {rest : List Token} (shows : before.Shows (tokens ++ rest)) :
    before.parameterList.value = dataTypes types ∧
      Passes before before.parameterList.reader rest := by
  cases derived with
  | @untyped _ opening closing _ isOpening isClosing =>
      rcases parameterList_of_empty (shows.sees_of isOpening) (shows.advance.sees_of isClosing) with
        ⟨values, ends⟩
      rw [values, ends]
      exact ⟨rfl, (Passes.advance shows).trans (Passes.advance shows.advance)⟩
  | @typed _ opening tokens closing _ _ isOpening derived isClosing =>
      have shows : before.Shows (opening :: tokens ++ [closing] ++ rest) := shows
      rw [List.append_assoc] at shows
      have unclosed : before.advance.sees .rightParen = false := by
        cases derived with
        | last isName => exact sees_eq_false_of_sees (shows.advance.sees_of isName) (by decide)
        | cons isName => exact sees_eq_false_of_sees (shows.advance.sees_of isName) (by decide)
      rcases parameterList_of_types (shows.sees_of isOpening) unclosed with ⟨values, ends⟩
      rcases parameters_reads derived known shows.advance isClosing with ⟨valuesInside, passes⟩
      rw [values, ends]
      exact ⟨valuesInside,
        (Passes.advance shows).trans (passes.trans (Passes.closeGroup passes.shows isClosing _))⟩

/-- Some tokens are read, nothing is noted, and the facts of some declarations
are added to the world. -/
structure Enters (before after : Reader) (declared : List Declared) (rest : List Token) : Prop where
  shows : after.Shows rest
  diagnostics : after.diagnostics = before.diagnostics
  options : after.options = before.options
  facts : after.world.facts = before.world.facts ++ declared.map Declared.fact

namespace Enters

variable {before middle after : Reader} {first later : List Declared} {between rest : List Token}

theorem of_passes (passes : Passes before after rest) : Enters before after [] rest where
  shows := passes.shows
  diagnostics := passes.diagnostics
  options := passes.options
  facts := by rw [passes.world]; exact (List.append_nil _).symm

theorem trans (begun : Enters before middle first between)
    (ended : Enters middle after later rest) :
    Enters before after (first ++ later) rest where
  shows := ended.shows
  diagnostics := ended.diagnostics.trans begun.diagnostics
  options := ended.options.trans begun.options
  facts := by rw [ended.facts, begun.facts, List.map_append, List.append_assoc]

end Enters

/-- The names of the declarations are new, and different from each other. -/
def Fresh (reader : Reader) (declared : List Declared) : Prop :=
  (reader.world.facts.map Fact.name ++ declared.map (fun one => one.name.text)).Nodup

theorem Fresh.first {before : Reader} {first later : List Declared}
    (fresh : Fresh before (first ++ later)) : Fresh before first := by
  unfold Fresh at fresh
  rw [List.map_append] at fresh
  exact fresh.sublist (List.Sublist.append_left (List.sublist_append_left _ _) _)

theorem Fresh.later {before after : Reader} {first later : List Declared} {rest : List Token}
    (fresh : Fresh before (first ++ later)) (enters : Enters before after first rest) :
    Fresh after later := by
  unfold Fresh at fresh ⊢
  rw [enters.facts, List.map_append, List.map_map, List.append_assoc]
  rw [List.map_append] at fresh
  exact fresh

theorem factDeclaration_reads {tokens : List Token} {declared : Declared}
    (derived : Declaration tokens declared) (known : declared.Known) {before : Reader}
    (fresh : Fresh before [declared]) {rest : List Token} (shows : before.Shows (tokens ++ rest)) :
    before.sees .identifier = true ∧ Enters before before.factDeclaration [declared] rest := by
  obtain ⟨others, isName, begins⟩ : Exists fun others : List Token =>
      declared.name.kind = .identifier ∧ tokens = declared.name :: others := by
    cases derived with
    | untyped isName => exact ⟨_, isName, rfl⟩
    | typed isName => exact ⟨_, isName, rfl⟩
  rw [begins] at shows derived
  rcases parameterList_reads derived known shows.advance with ⟨values, passes⟩
  have absent : before.advance.parameterList.reader.world.find? declared.name.text = none := by
    rw [passes.world]
    refine List.find?_eq_none.mpr (fun fact isFact same => ?_)
    have apart := (List.nodup_append.mp fresh).2.2
    exact apart fact.name (List.mem_map.mpr ⟨fact, isFact, rfl⟩) _ List.mem_cons_self
      (beq_iff_eq.mp same)
  have same : before.factDeclaration =
      before.advance.parameterList.reader.declare declared.fact := by
    have isFact : declared.fact =
        ⟨before.current.text, before.current.span, before.advance.parameterList.value⟩ := by
      rw [shows.current_eq, values]
      rfl
    rw [isFact]
    rfl
  refine ⟨shows.sees_of isName, ?_⟩
  rw [same, declare_of_new absent]
  exact ⟨passes.shows, passes.diagnostics, passes.options,
    congrArg (· ++ [declared.fact]) (congrArg World.facts passes.world)⟩

theorem factDeclarations_reads {tokens : List Token} {declared : List Declared}
    (derived : Declarations tokens declared) (known : forall one, one ∈ declared -> one.Known)
    {before : Reader} (fresh : Fresh before declared) {closing : Token} {rest : List Token}
    (shows : before.Shows (tokens ++ closing :: rest)) (isClosing : closing.kind = .rightBrace)
    (opened : Span) : Enters before (factDeclarations opened before).reader declared rest := by
  induction derived generalizing before with
  | nil =>
      rw [factDeclarations, if_pos (shows.sees_of isClosing)]
      exact .of_passes (.advance shows)
  | @cons tokens others first later derived _ ih =>
      rcases List.forall_mem_cons.mp known with ⟨knownFirst, knownLater⟩
      rw [List.append_assoc] at shows
      have freshFirst := @Fresh.first before [first] later fresh
      rcases factDeclaration_reads derived knownFirst freshFirst shows with ⟨named, enters⟩
      have unclosed := sees_eq_false_of_sees named (by decide : TokenKind.identifier ≠ .rightBrace)
      have notEnded := sees_eq_false_of_sees named (by decide : TokenKind.identifier ≠ .endOfInput)
      rw [factDeclarations, if_neg (Bool.eq_false_iff.mp unclosed),
        dif_neg (Bool.eq_false_iff.mp notEnded), if_pos named]
      exact enters.trans (ih knownLater (Fresh.later fresh enters) enters.shows)

theorem factBlock_reads {tokens : List Token} {declared : List Declared}
    (derived : Block tokens declared) (known : forall one, one ∈ declared -> one.Known)
    {before : Reader} (fresh : Fresh before declared) {rest : List Token}
    (shows : before.Shows (tokens ++ rest)) :
    before.sees .fact = true ∧ Enters before before.factBlock.reader declared rest := by
  cases derived with
  | @braces keyword opening tokens closing _ isKeyword isOpening derived isClosing =>
      rw [List.append_assoc] at shows
      have entered := Enters.of_passes ((Passes.advance shows).trans (Passes.advance shows.advance))
      have freshInside : Fresh before.advance.advance declared := fresh
      have enters := factDeclarations_reads derived known freshInside shows.advance.advance
        isClosing
        before.advance.current.span
      refine ⟨shows.sees_of isKeyword, ?_⟩
      unfold factBlock
      rw [if_pos (shows.sees_of isKeyword)]
      simp only [if_pos (shows.advance.sees_of isOpening)]
      exact entered.trans enters

end Reader

end PlanningDomain
