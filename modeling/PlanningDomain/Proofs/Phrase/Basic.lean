import PlanningDomain.Proofs.Grammar.Levels
import PlanningDomain.Proofs.Phrase.Words

namespace PlanningDomain

/-!
# Phrases

A phrase is an expression with its names and constants as they are written, and
without any place in a source.  It is written with parentheses
around an operand only where the operand is looser than its place allows.  The
first operand of an operator may be as loose as the operator itself and the
second may not.  The operands of a connective are of the next tighter level, so
an operand with the same connective stands in parentheses.  Arguments of calls
never do.

The words of a phrase are derived from the grammar with a term of the same
meaning.
-/

inductive Phrase where
  | connective (symbol : Connective) (first second : Phrase) (others : List Phrase)
  | not (operand : Phrase)
  | operation (operator : Operator) (left right : Phrase)
  | call (name : Name) (arguments : List Phrase)
  | var (name : Name)
  | constant (value : Constant)

namespace Phrase

/-! ## Writing phrases -/

/-- The words of a phrase of some level at a place for another level. -/
def enclose (place level : Level) (words : List Word) : List Word :=
  if place.rank < level.rank then Mark.leftParen.word :: words ++ [Mark.rightParen.word] else words

mutual

/-- The words of a phrase at a place for a level. -/
def words (place : Level) : Phrase -> List Word
  | connective symbol first second others =>
      enclose place (.connective symbol)
        (first.words symbol.operand ++ (Mark.connective symbol).word ::
          second.words symbol.operand ++ wordsAfter (.connective symbol) symbol.operand others)
  | not operand => enclose place .negation (Mark.not.word :: operand.words .negation)
  | operation operator left right =>
      enclose place (.chain operator.chain)
        (left.words (.chain operator.chain) ++ (Mark.operator operator).word ::
          right.words operator.chain.operand)
  | call name arguments =>
      name.word :: Mark.leftParen.word :: wordsOfArguments arguments ++ [Mark.rightParen.word]
  | var name => [name.word]
  | constant value => [value.word]

/-- The words of further phrases, each after a mark. -/
def wordsAfter (mark : Mark) (place : Level) : List Phrase -> List Word
  | [] => []
  | phrase :: rest => mark.word :: phrase.words place ++ wordsAfter mark place rest

def wordsOfArguments : List Phrase -> List Word
  | [] => []
  | phrase :: rest => phrase.words .loosest ++ wordsAfter .comma .loosest rest

end

/-- The source that is a phrase in its parentheses. -/
def source (phrase : Phrase) : Source :=
  Word.source (Mark.leftParen.word :: phrase.words .loosest ++ [Mark.rightParen.word])

/-! ## What terms mean -/

/-- A term of a source means a phrase. -/
inductive Means (source : Source) : Phrase -> Term -> Prop
  | connective {symbol first second others left right terms} :
      Means source first left ->
      Means source second right ->
      List.Forall₂ (Means source) others terms ->
      Means source (.connective symbol first second others)
        (.mk (.connective symbol) (left :: right :: terms))
  | not {operand term} :
      Means source operand term ->
      Means source (.not operand) (.mk .not [term])
  | operation {operator left right first second} :
      Means source left first ->
      Means source right second ->
      Means source (.operation operator left right) (.mk operator.kind [first, second])
  | call {name arguments span terms} :
      source.slice? span = some (String.ofList name.text) ->
      List.Forall₂ (Means source) arguments terms ->
      Means source (.call name arguments) (.mk (.func span) terms)
  | var {name span} :
      source.slice? span = some (String.ofList name.text) ->
      Means source (.var name) (.mk (.var span) [])
  | constant {constant value} :
      constant.IsLiteral source value ->
      Means source (.constant constant) (.mk (.literal value) [])

end Phrase

/-- Tokens of a source that are some words. -/
abbrev Source.Spells (source : Source) : List Word -> List Token -> Prop :=
  List.Forall₂ (fun word token => word.IsToken token ∧ token.Stands source)

namespace Source.Spells

variable {source : Source} {first later : List Word} {word : Word} {tokens : List Token}

theorem split : forall {first : List Word} {tokens : List Token},
    source.Spells (first ++ later) tokens ->
      Exists fun left : List Token => Exists fun right : List Token =>
        tokens = left ++ right ∧ source.Spells first left ∧ source.Spells later right
  | [], tokens => fun spells => ⟨[], tokens, rfl, .nil, spells⟩
  | _ :: _, _ => fun spells => by
      cases spells with
      | cons same rest =>
          rcases split rest with ⟨left, right, parts, spellsFirst, spellsLater⟩
          rw [parts]
          exact ⟨_ :: left, right, rfl, .cons same spellsFirst, spellsLater⟩

theorem mark {mark : Mark} {rest : List Word} (spells : source.Spells (mark.word :: rest) tokens) :
    Exists fun token : Token => Exists fun others : List Token =>
      tokens = token :: others ∧ token.kind = mark.kind ∧ source.Spells rest others := by
  cases spells with
  | cons same rest => exact ⟨_, _, rfl, same.1.kind, rest⟩

theorem lastMark {mark : Mark} (spells : source.Spells (first ++ [mark.word]) tokens) :
    Exists fun others : List Token => Exists fun token : Token =>
      tokens = others ++ [token] ∧ source.Spells first others ∧ token.kind = mark.kind := by
  rcases spells.split with ⟨left, right, parts, spellsFirst, last⟩
  rcases last.mark with ⟨token, none, single, kind, empty⟩
  cases empty
  subst single
  exact ⟨left, token, parts, spellsFirst, kind⟩

end Source.Spells

namespace Phrase

open Grammar

variable {source : Source}

/-! ## Deriving phrases -/

/-- All tokens that are some words are derived with a term that means a
phrase. -/
def Derives (source : Source) (level : Level) (words : List Word) (phrase : Phrase) : Prop :=
  forall tokens, source.Spells words tokens ->
    Exists fun term : Term => Expression level tokens term ∧ Means source phrase term

theorem derives_enclose {place level : Level} {words : List Word} {phrase : Phrase}
    (derives : Derives source level words phrase) :
    Derives source place (enclose place level words) phrase := by
  intro tokens spells
  unfold enclose at spells
  split at spells
  case isTrue =>
    rcases Source.Spells.mark spells with ⟨opening, others, starts, isOpening, rest⟩
    rcases rest.lastMark with ⟨inner, closing, ends, spellsInner, isClosing⟩
    rcases derives inner spellsInner with ⟨term, derived, meant⟩
    subst starts ends
    have group := Expression.group isOpening (derived.loosen level.rank_le_loosest) isClosing
    exact ⟨term, group.loosen (Nat.zero_le _), meant⟩
  case isFalse tight =>
    rcases derives tokens spells with ⟨term, derived, meant⟩
    exact ⟨term, derived.loosen (Nat.le_of_not_lt tight), meant⟩

mutual

theorem derives_words (place : Level) : (phrase : Phrase) ->
    Derives source place (phrase.words place) phrase
  | connective symbol first second others => by
      rw [words]
      refine derives_enclose (fun tokens spells => ?_)
      rw [List.append_assoc, List.cons_append] at spells
      rcases Source.Spells.split spells with ⟨left, later, parts, spellsFirst, rest⟩
      rcases rest.mark with ⟨mark, behind, starts, isMark, restLater⟩
      rcases restLater.split with ⟨middle, right, partsLater, spellsSecond, spellsOthers⟩
      rcases derives_words symbol.operand first left spellsFirst with ⟨head, derived, meant⟩
      rcases derives_words symbol.operand second middle spellsSecond with
        ⟨next, derivedNext, meantNext⟩
      rcases derives_wordsAfter symbol others right spellsOthers with
        ⟨terms, operands, meantOthers⟩
      subst parts starts partsLater
      exact ⟨_, .connective derived (.cons isMark derivedNext operands),
        .connective meant meantNext meantOthers⟩
  | not operand => by
      rw [words]
      refine derives_enclose (fun tokens spells => ?_)
      rcases Source.Spells.mark spells with ⟨mark, others, starts, isMark, rest⟩
      rcases derives_words .negation operand others rest with ⟨term, derived, meant⟩
      subst starts
      exact ⟨_, .negation isMark derived, .not meant⟩
  | operation operator left right => by
      rw [words]
      refine derives_enclose (fun tokens spells => ?_)
      rcases Source.Spells.split spells with ⟨before, later, parts, spellsLeft, rest⟩
      rcases rest.mark with ⟨mark, behind, starts, isMark, spellsRight⟩
      rcases derives_words (.chain operator.chain) left before spellsLeft with
        ⟨first, derived, meant⟩
      rcases derives_words operator.chain.operand right behind spellsRight with
        ⟨second, derivedRight, meantRight⟩
      have isOperator : operator.chain.kind? mark.kind = some operator.kind := by
        rw [isMark]
        exact operator.kind?_token
      subst parts starts
      exact ⟨_, derived.operate isOperator derivedRight, .operation meant meantRight⟩
  | call name arguments => by
      intro tokens spells
      rw [words, List.cons_append, List.cons_append] at spells
      cases spells with
      | @cons _ word _ _ isName rest =>
          rcases Source.Spells.mark rest with ⟨opening, others, starts, isOpening, behind⟩
          rcases behind.lastMark with ⟨inner, closing, ends, spellsInner, isClosing⟩
          have text := isName.1.slice?_eq isName.2
          rcases derives_wordsOfArguments arguments inner spellsInner with
            ⟨terms, ⟨empty, noTerms⟩ | list, meant⟩
          · subst starts ends empty noTerms
            have derived := Expression.call isName.1.kind isOpening isClosing
            exact ⟨_, derived.loosen (Nat.zero_le _), .call text meant⟩
          · subst starts ends
            have derived := Expression.callWith isName.1.kind isOpening list isClosing
            exact ⟨_, derived.loosen (Nat.zero_le _), .call text meant⟩
  | var name => by
      intro tokens spells
      rw [words] at spells
      cases spells with
      | @cons _ word _ _ isName rest =>
          cases rest
          have derived := Expression.var isName.1.kind
          exact ⟨_, derived.loosen (Nat.zero_le _), .var (isName.1.slice?_eq isName.2)⟩
  | constant value => by
      intro tokens spells
      rw [words] at spells
      cases spells with
      | cons isConstant rest =>
          cases rest
          rcases value.exists_literal isConstant.1 isConstant.2 with ⟨literal, found, isLiteral⟩
          exact ⟨_, (Expression.constant found).loosen (Nat.zero_le _), .constant isLiteral⟩

theorem derives_wordsAfter (symbol : Connective) : (others : List Phrase) -> forall tokens,
    source.Spells (wordsAfter (.connective symbol) symbol.operand others) tokens ->
      Exists fun terms : List Term =>
        Operands symbol tokens terms ∧ List.Forall₂ (Means source) others terms
  | [] => fun tokens spells => by
      rw [wordsAfter] at spells
      cases spells
      exact ⟨[], .nil, .nil⟩
  | phrase :: rest => fun tokens spells => by
      rw [wordsAfter] at spells
      rcases Source.Spells.mark spells with ⟨mark, behind, starts, isMark, later⟩
      rcases later.split with ⟨left, right, parts, spellsFirst, spellsRest⟩
      rcases derives_words symbol.operand phrase left spellsFirst with ⟨term, derived, meant⟩
      rcases derives_wordsAfter symbol rest right spellsRest with ⟨terms, operands, meantRest⟩
      subst starts parts
      exact ⟨_, .cons isMark derived operands, .cons meant meantRest⟩

theorem derives_wordsAfterComma : (others : List Phrase) -> forall {first : List Token}
    {term : Term} tokens, Expression .loosest first term ->
      source.Spells (wordsAfter .comma .loosest others) tokens ->
        Exists fun terms : List Term =>
          ArgumentList (first ++ tokens) (term :: terms) ∧
            List.Forall₂ (Means source) others terms
  | [] => fun tokens derived spells => by
      rw [wordsAfter] at spells
      cases spells
      rw [List.append_nil]
      exact ⟨[], .last derived, .nil⟩
  | phrase :: rest => fun tokens derived spells => by
      rw [wordsAfter] at spells
      rcases Source.Spells.mark spells with ⟨mark, behind, starts, isMark, later⟩
      rcases later.split with ⟨left, right, parts, spellsFirst, spellsRest⟩
      rcases derives_words .loosest phrase left spellsFirst with ⟨term, next, meant⟩
      rcases derives_wordsAfterComma rest right next spellsRest with ⟨terms, list, meantRest⟩
      subst starts parts
      exact ⟨_, .cons derived isMark list, .cons meant meantRest⟩

theorem derives_wordsOfArguments : (arguments : List Phrase) -> forall tokens,
    source.Spells (wordsOfArguments arguments) tokens ->
      Exists fun terms : List Term =>
        (tokens = [] ∧ terms = [] ∨ ArgumentList tokens terms) ∧
          List.Forall₂ (Means source) arguments terms
  | [] => fun tokens spells => by
      rw [wordsOfArguments] at spells
      cases spells
      exact ⟨[], .inl ⟨rfl, rfl⟩, .nil⟩
  | phrase :: rest => fun tokens spells => by
      rw [wordsOfArguments] at spells
      rcases Source.Spells.split spells with ⟨left, right, parts, spellsFirst, spellsRest⟩
      rcases derives_words .loosest phrase left spellsFirst with ⟨term, derived, meant⟩
      rcases derives_wordsAfterComma rest right derived spellsRest with ⟨terms, list, meantRest⟩
      subst parts
      exact ⟨_, .inr list, .cons meant meantRest⟩

end

end Phrase

end PlanningDomain
