import PlanningDomain.Proofs.Reader.Registrations
import PlanningDomain.Proofs.Token.Signs

namespace PlanningDomain

/-!
# Declarations are read back

An announcement is a declaration as one would write it down: a name, and the words for
the types of its parameters.  Announcements are written in blocks, in any layout.  What
is read has the first announcement of each name, in order, with those of its words
that name a type.  Every other word is noted where it stands, and so is every name that
comes again.
-/

namespace Grammar

/-! ## The words of declarations -/

/-- The names and types among some tokens. -/
def identifiers (tokens : List Token) : List Token :=
  tokens.filter (fun token => token.kind == .identifier)

theorem identifiers_append (first later : List Token) :
    identifiers (first ++ later) = identifiers first ++ identifiers later :=
  List.filter_append _ _

/-- The name of a declaration, and behind it its types. -/
def Declared.words (declared : Declared) : List Token :=
  declared.name :: declared.types

theorem Types.identifiers_eq {tokens types : List Token} (derived : Types tokens types) :
    identifiers tokens = types := by
  induction derived with
  | last isName => simp [identifiers, isName]
  | cons isName isComma _ ih =>
      rw [← ih]
      simp [identifiers, isName, isComma]

theorem Declaration.identifiers_eq {tokens : List Token} {declared : Declared}
    (derived : Declaration tokens declared) : identifiers tokens = declared.words := by
  cases derived with
  | untyped isName isOpening isClosing =>
      simp [identifiers, Declared.words, isName, isOpening, isClosing]
  | typed isName isOpening derived isClosing =>
      rw [Declared.words, ← derived.identifiers_eq]
      simp [identifiers, isName, isOpening, isClosing]

theorem Declarations.identifiers_eq {tokens : List Token} {declared : List Declared}
    (derived : Declarations tokens declared) :
    identifiers tokens = declared.flatMap Declared.words := by
  induction derived with
  | nil => rfl
  | cons first _ ih => rw [identifiers_append, first.identifiers_eq, ih, List.flatMap_cons]

theorem Block.identifiers_eq {tokens : List Token} {declared : List Declared}
    (derived : Block tokens declared) : identifiers tokens = declared.flatMap Declared.words := by
  cases derived with
  | braces isKeyword isOpening derived isClosing =>
      rw [← derived.identifiers_eq]
      simp [identifiers, isKeyword, isOpening, isClosing]

/-- The identifiers of a source of blocks are the words of its declarations, in order. -/
theorem File.identifiers_eq {tokens : List Token} {declared : List Declared} {terms : List Term}
    (derived : File tokens declared terms) (none : terms = []) :
    identifiers tokens = declared.flatMap Declared.words := by
  induction derived with
  | nil => rfl
  | block first _ ih =>
      rw [identifiers_append, first.identifiers_eq, ih none, List.flatMap_append]
  | precondition => exact (List.cons_ne_nil _ _ none).elim

end Grammar

open Grammar

/-! ## Announcements -/

/-- A name, and the words that are written for the types of its parameters. -/
structure Announcement where
  name : Name
  types : List Name

namespace Announcement

open Sign

/-- The announcement as it is written. -/
def signs (announcement : Announcement) : List Sign :=
  .name announcement.name :: .leftParen ::
    ((announcement.types.map Sign.name).intersperse .comma ++ [.rightParen])

/-- A block of announcements. -/
def blockSigns (block : List Announcement) : List Sign :=
  .fact :: .leftBrace :: (block.flatMap signs ++ [.rightBrace])

/-- A declaration has the name and the types of an announcement. -/
structure IsDeclared (announcement : Announcement) (declared : Declared) : Prop where
  name : (Sign.name announcement.name).IsToken declared.name
  types : List.Forall₂ (fun type token => (Sign.name type).IsToken token) announcement.types
    declared.types

/-- The tokens of two lists of signs. -/
theorem exists_append {first later : List Sign} {tokens : List Token}
    (spelled : List.Forall₂ IsToken (first ++ later) tokens) :
    Exists fun before : List Token => Exists fun after : List Token =>
      tokens = before ++ after ∧ List.Forall₂ IsToken first before ∧
        List.Forall₂ IsToken later after := by
  induction first generalizing tokens with
  | nil => exact ⟨[], tokens, rfl, .nil, spelled⟩
  | cons sign first ih =>
      rcases List.forall₂_cons_left_iff.mp spelled with ⟨token, others, same, further, split⟩
      rcases ih further with ⟨before, after, isOthers, isFirst, isLater⟩
      subst split isOthers
      exact ⟨token :: before, after, rfl, .cons same isFirst, isLater⟩

/-- The tokens of signs of which the last is given. -/
theorem exists_concat {signs : List Sign} {last : Sign} {tokens : List Token}
    (spelled : List.Forall₂ IsToken (signs ++ [last]) tokens) :
    Exists fun inner : List Token => Exists fun closing : Token =>
      tokens = inner ++ [closing] ∧ List.Forall₂ IsToken signs inner ∧
        closing.kind = last.kind := by
  rcases exists_append spelled with ⟨inner, after, split, isInner, isLast⟩
  rcases List.forall₂_cons_left_iff.mp isLast with ⟨closing, others, same, none, isAfter⟩
  rw [List.forall₂_nil_left_iff.mp none] at isAfter
  exact ⟨inner, closing, isAfter ▸ split, isInner, same.kind⟩

theorem exists_types {types : List Name} (notEmpty : types ≠ []) {tokens : List Token}
    (spelled : List.Forall₂ IsToken ((types.map Sign.name).intersperse .comma) tokens) :
    Exists fun words : List Token => Types tokens words ∧
      List.Forall₂ (fun type token => (Sign.name type).IsToken token) types words := by
  induction types generalizing tokens with
  | nil => exact (notEmpty rfl).elim
  | cons type types ih =>
      cases types with
      | nil =>
          rcases List.forall₂_cons_left_iff.mp spelled with ⟨word, others, same, none, split⟩
          rw [List.forall₂_nil_left_iff.mp none] at split
          subst split
          exact ⟨[word], .last same.kind, .cons same .nil⟩
      | cons next types =>
          rcases List.forall₂_cons_left_iff.mp spelled with ⟨word, _, same, further, split⟩
          rcases List.forall₂_cons_left_iff.mp further with ⟨comma, _, isComma, later, splitLater⟩
          subst split splitLater
          rcases ih (List.cons_ne_nil _ _) later with ⟨words, derived, areTypes⟩
          exact ⟨word :: words, .cons same.kind isComma.kind derived, .cons same areTypes⟩

theorem exists_declaration (announcement : Announcement) {tokens : List Token}
    (spelled : List.Forall₂ IsToken announcement.signs tokens) :
    Exists fun declared : Declared => Declaration tokens declared ∧
      announcement.IsDeclared declared := by
  rcases announcement with ⟨name, types⟩
  rcases List.forall₂_cons_left_iff.mp spelled with ⟨word, _, isName, further, split⟩
  rcases List.forall₂_cons_left_iff.mp further with ⟨opening, _, isOpening, inside, splitLater⟩
  rcases exists_concat inside with ⟨inner, closing, isInside, areTypes, isClosing⟩
  subst split splitLater isInside
  cases types with
  | nil =>
      rw [List.forall₂_nil_left_iff.mp areTypes]
      exact ⟨⟨word, []⟩, .untyped isName.kind isOpening.kind isClosing, isName, .nil⟩
  | cons type types =>
      rcases exists_types (List.cons_ne_nil _ _) areTypes with ⟨words, derived, areWords⟩
      exact ⟨⟨word, words⟩, .typed isName.kind isOpening.kind derived isClosing, isName, areWords⟩

theorem exists_declarations (block : List Announcement) : forall {tokens : List Token},
    List.Forall₂ IsToken (block.flatMap signs) tokens ->
      Exists fun declared : List Declared => Declarations tokens declared ∧
        List.Forall₂ IsDeclared block declared := by
  induction block with
  | nil =>
      intro tokens spelled
      rw [List.forall₂_nil_left_iff.mp spelled]
      exact ⟨[], .nil, .nil⟩
  | cons announcement block ih =>
      intro tokens spelled
      rw [List.flatMap_cons] at spelled
      rcases exists_append spelled with ⟨before, after, split, isFirst, areOthers⟩
      rcases announcement.exists_declaration isFirst with ⟨first, derived, isDeclared⟩
      rcases ih areOthers with ⟨declared, derivedLater, areDeclared⟩
      subst split
      exact ⟨first :: declared, .cons derived derivedLater, .cons isDeclared areDeclared⟩

/-- The tokens of blocks of announcements are a source with their declarations. -/
theorem exists_file (blocks : List (List Announcement)) : forall {tokens : List Token},
    List.Forall₂ IsToken (blocks.flatMap blockSigns) tokens ->
      Exists fun declared : List Declared => File tokens declared [] ∧
        List.Forall₂ IsDeclared blocks.flatten declared := by
  induction blocks with
  | nil =>
      intro tokens spelled
      rw [List.forall₂_nil_left_iff.mp spelled]
      exact ⟨[], .nil, .nil⟩
  | cons block blocks ih =>
      intro tokens spelled
      rw [List.flatMap_cons] at spelled
      rcases exists_append spelled with ⟨before, after, split, isBlock, areOthers⟩
      rcases List.forall₂_cons_left_iff.mp isBlock with ⟨keyword, _, isKeyword, further, begins⟩
      rcases List.forall₂_cons_left_iff.mp further with ⟨opening, _, isOpening, inside, opens⟩
      rcases exists_concat inside with ⟨inner, closing, ends, areSigns, isClosing⟩
      rcases exists_declarations block areSigns with ⟨first, derived, areDeclared⟩
      rcases ih areOthers with ⟨later, file, areLater⟩
      subst split begins opens ends
      exact ⟨first ++ later,
        .block (.braces isKeyword.kind isOpening.kind derived isClosing) file,
        List.rel_append areDeclared areLater⟩

end Announcement

namespace Domain

/-- Blocks of announcements are read back, however they are laid out.  Their names and types are
the identifiers of the source.  The first declaration of each name is in the table, in order,
with the types that are known and the range of the name, and it is what is found under the
name.  The problems are the unknown types of each declaration and after them its
name if that was declared before, in order, and there are no others. -/
theorem read_announcements (blocks : List (List Announcement)) {text : List Char}
    (written : Sign.Written (blocks.flatMap Announcement.blockSigns) text) (options : Options) :
    let source : Source := ⟨text⟩
    let read := Domain.read source options
    Exists fun declared : List Declared =>
      List.Forall₂ Announcement.IsDeclared blocks.flatten declared ∧
      declared.flatMap Declared.words = identifiers source.tokens ∧
      (forall word, word ∈ declared.flatMap Declared.words -> word.Stands source) ∧
      read.1.world.facts = (Declared.firsts [] declared).map Declared.fact ∧
      (forall name, read.1.world.find? name =
        (declared.find? (Declared.isNamed name)).map Declared.fact) ∧
      read.1.preconditions = [] ∧
      read.2 = Declared.problems source [] declared := by
  intro source read
  rcases Announcement.exists_file blocks written.tokens with ⟨declared, file, areDeclared⟩
  have words := file.identifiers_eq rfl
  rcases Reader.preconditions_registers file rfl (Reader.shows_start source options) with
    ⟨noTrees, registers⟩
  have facts : read.1.world.facts = (Declared.firsts [] declared).map Declared.fact :=
    registers.facts
  refine ⟨declared, areDeclared, words.symm, fun word member => ?_, facts, fun name => ?_, ?_,
    registers.diagnostics⟩
  · rw [← words] at member
    exact source.stands_of_mem_tokens (List.mem_of_mem_filter member)
  · rw [World.find?, facts, List.find?_map, ← Declared.find?_firsts declared name []
      List.not_mem_nil]
    rfl
  · exact congrArg (List.map Node.handle) noTrees

/-- A name is declared in one block and again in the next, and one of its types is unknown. -/
theorem read_announcements_repeated :
    let source : Source := ⟨['f', 'a', 'c', 't', '{', 'g', '(', 'x', ',', 'f', 'l', 'o', 'a', 't',
      ')', '}', '\n', 'f', 'a', 'c', 't', '{', 'g', '(', ')', '}']⟩
    let read := Domain.read source .standard
    read.1.world.facts = [⟨"g", ⟨5, 6⟩, [.float]⟩] ∧
    read.2 = [⟨⟨7, 8⟩, ⟨1, 8⟩, .unknownType "x"⟩, ⟨⟨22, 23⟩, ⟨2, 6⟩, .redeclaredFact "g"⟩] := by
  intro source read
  have single : ([] : List Char).all Lexer.isWordPart = true := rfl
  have word : ['l', 'o', 'a', 't'].all Lexer.isWordPart = true := by decide
  let fact : Name := ⟨'g', [], rfl, List.all_eq_true.mp single, by decide⟩
  let unknown : Name := ⟨'x', [], rfl, List.all_eq_true.mp single, by decide⟩
  let known : Name := ⟨'f', ['l', 'o', 'a', 't'], rfl, List.all_eq_true.mp word, by decide⟩
  have written : Sign.Written
      ([[⟨fact, [unknown, known]⟩], [⟨fact, []⟩]].flatMap Announcement.blockSigns)
      source.chars := by
    refine .word rfl (.mark rfl (.word rfl (.mark rfl (.word rfl (.mark rfl (.word rfl
      (.mark rfl (.mark rfl ?_))))))))
    refine .cons (.blank rfl .nothing) (fun _ _ isFirst => Option.some.inj isFirst ▸ rfl) ?_
    exact .mark rfl (.word rfl (.mark rfl (.mark rfl (.mark rfl (.nil .nothing)))))
  rcases read_announcements _ written .standard with
    ⟨declared, areDeclared, words, -, facts, -, -, problems⟩
  have found : identifiers source.tokens = [⟨.identifier, ⟨5, 6⟩, "g"⟩,
      ⟨.identifier, ⟨7, 8⟩, "x"⟩, ⟨.identifier, ⟨9, 14⟩, "float"⟩,
      ⟨.identifier, ⟨22, 23⟩, "g"⟩] := by decide +kernel
  rw [found] at words
  -- The numbers of types tell the names from the types.
  rcases List.length_eq_two.mp areDeclared.length_eq.symm with
    ⟨⟨name, types⟩, ⟨again, noTypes⟩, two⟩
  subst two
  rcases areDeclared with _ | ⟨first, _ | ⟨second, _⟩⟩
  rcases List.length_eq_two.mp first.types.length_eq.symm with ⟨unknownType, knownType, areTypes⟩
  have none : noTypes = [] := List.length_eq_zero_iff.mp second.types.length_eq.symm
  change types = [unknownType, knownType] at areTypes
  subst areTypes none
  simp only [List.flatMap_cons, List.flatMap_nil, Declared.words, List.cons_append, List.nil_append,
    List.cons.injEq, and_true] at words
  rcases words with ⟨isName, isUnknown, isKnown, isAgain⟩
  subst isName isUnknown isKnown isAgain
  exact ⟨facts.trans (by decide +kernel), problems.trans (by decide +kernel)⟩

end Domain

end PlanningDomain
