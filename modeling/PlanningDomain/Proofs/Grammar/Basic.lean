import PlanningDomain.Proofs.Term.Basic
import PlanningDomain.Reader.Expression

namespace PlanningDomain

/-!
# The grammar of sources

A source is a sequence of blocks of facts and of preconditions:

- a source is `(block | precondition)*`,
- a block is `fact { declaration* }`,
- a declaration is `name ( (type (, type)*)? )`,
- a precondition is `( expression* )`.

An expression of a connective, of a comparison, of a sum or of a product is
`operand (operator operand)*`, with operands of the next tighter level.  Between
connectives and comparisons stand the negations, `~ negation` or an operand.
The tightest level is `name ( (expression (, expression)*)? )`, a name,
a constant, or `( expression )`.

The grammar says nothing of windows, of reports, or of what is done about a
missing token.  It is ambiguous, because a name before a parenthesis may be a
call or the end of an expression.  Every derivation has its term.
-/

namespace Grammar

/-! ## Expressions -/

/-- The term of the operands of a connective.  A single operand stands for
itself. -/
def joined (symbol : Connective) (first : Term) : List Term -> Term
  | [] => first
  | others => .mk (.connective symbol) (first :: others)

mutual

/-- Tokens that are an expression of a level. -/
inductive Expression : Level -> List Token -> Term -> Prop
  | connective {symbol first others term terms} :
      Expression (Connective.operand symbol) first term ->
      Operands symbol others terms ->
      Expression (.connective symbol) (first ++ others) (joined symbol term terms)
  | negation {mark tokens term} :
      mark.kind = .not ->
      Expression .negation tokens term ->
      Expression .negation (mark :: tokens) (.mk .not [term])
  | unnegated {tokens term} :
      Expression (.chain .comparison) tokens term ->
      Expression .negation tokens term
  | chain {operators first others left term} :
      Expression (Chain.operand operators) first left ->
      Chained operators left others term ->
      Expression (.chain operators) (first ++ others) term
  | call {name opening closing} :
      name.kind = .identifier ->
      opening.kind = .leftParen ->
      closing.kind = .rightParen ->
      Expression .primary [name, opening, closing] (.mk (.func name.span) [])
  | callWith {name opening tokens closing terms} :
      name.kind = .identifier ->
      opening.kind = .leftParen ->
      ArgumentList tokens terms ->
      closing.kind = .rightParen ->
      Expression .primary (name :: opening :: tokens ++ [closing]) (.mk (.func name.span) terms)
  | var {name} :
      name.kind = .identifier ->
      Expression .primary [name] (.mk (.var name.span) [])
  | constant {token value problems} :
      Token.constant? token = some (value, problems) ->
      Expression .primary [token] (.mk (.literal value) [])
  | group {opening tokens closing term} :
      opening.kind = .leftParen ->
      Expression .loosest tokens term ->
      closing.kind = .rightParen ->
      Expression .primary (opening :: tokens ++ [closing]) term

/-- The further operands of a connective, each after its mark. -/
inductive Operands : Connective -> List Token -> List Term -> Prop
  | nil {symbol} : Operands symbol [] []
  | cons {symbol mark tokens others term terms} :
      mark.kind = Connective.token symbol ->
      Expression symbol.operand tokens term ->
      Operands symbol others terms ->
      Operands symbol (mark :: tokens ++ others) (term :: terms)

/-- The operators of a level with their right operands, given the term to the
left of them. -/
inductive Chained : Chain -> Term -> List Token -> Term -> Prop
  | nil {operators left} : Chained operators left [] left
  | cons {operators left mark kind tokens right others term} :
      Chain.kind? operators mark.kind = some kind ->
      Expression operators.operand tokens right ->
      Chained operators (.mk kind [left, right]) others term ->
      Chained operators left (mark :: tokens ++ others) term

inductive ArgumentList : List Token -> List Term -> Prop
  | last {tokens term} :
      Expression .loosest tokens term ->
      ArgumentList tokens [term]
  | cons {tokens comma others term terms} :
      Expression .loosest tokens term ->
      comma.kind = .comma ->
      ArgumentList others terms ->
      ArgumentList (tokens ++ comma :: others) (term :: terms)

end

/-! ## Sources -/

/-- The term of a precondition. -/
def conjoined : List Term -> Term
  | [only] => only
  | terms => .mk .and terms

inductive Conjuncts : List Token -> List Term -> Prop
  | nil : Conjuncts [] []
  | cons {tokens others term terms} :
      Expression .loosest tokens term ->
      Conjuncts others terms ->
      Conjuncts (tokens ++ others) (term :: terms)

inductive Precondition : List Token -> Term -> Prop
  | group {opening tokens closing terms} :
      opening.kind = .leftParen ->
      Conjuncts tokens terms ->
      closing.kind = .rightParen ->
      Precondition (opening :: tokens ++ [closing]) (conjoined terms)

/-- The name and the types of a declaration, as they are written. -/
structure Declared where
  name : Token
  types : List Token

namespace Declared

/-- The kind of facts that a declaration names. -/
def fact (declared : Declared) : Fact :=
  ⟨declared.name.text, declared.name.span,
    declared.types.filterMap (fun type => DataType.ofKeyword? type.text)⟩

end Declared

inductive Types : List Token -> List Token -> Prop
  | last {type} :
      type.kind = .identifier ->
      Types [type] [type]
  | cons {type comma others types} :
      type.kind = .identifier ->
      comma.kind = .comma ->
      Types others types ->
      Types (type :: comma :: others) (type :: types)

inductive Declaration : List Token -> Declared -> Prop
  | untyped {name opening closing} :
      name.kind = .identifier ->
      opening.kind = .leftParen ->
      closing.kind = .rightParen ->
      Declaration [name, opening, closing] ⟨name, []⟩
  | typed {name opening tokens closing types} :
      name.kind = .identifier ->
      opening.kind = .leftParen ->
      Types tokens types ->
      closing.kind = .rightParen ->
      Declaration (name :: opening :: tokens ++ [closing]) ⟨name, types⟩

inductive Declarations : List Token -> List Declared -> Prop
  | nil : Declarations [] []
  | cons {tokens others first declared} :
      Declaration tokens first ->
      Declarations others declared ->
      Declarations (tokens ++ others) (first :: declared)

inductive Block : List Token -> List Declared -> Prop
  | braces {keyword opening tokens closing declared} :
      keyword.kind = .fact ->
      opening.kind = .leftBrace ->
      Declarations tokens declared ->
      closing.kind = .rightBrace ->
      Block (keyword :: opening :: tokens ++ [closing]) declared

/-- Tokens that are a source, with all its declarations and the terms of its
preconditions. -/
inductive File : List Token -> List Declared -> List Term -> Prop
  | nil : File [] [] []
  | block {tokens others declared later terms} :
      Block tokens declared ->
      File others later terms ->
      File (tokens ++ others) (declared ++ later) terms
  | precondition {tokens others declared term terms} :
      Precondition tokens term ->
      File others declared terms ->
      File (tokens ++ others) declared (term :: terms)

/-! ## How expressions begin -/

/-- The kinds of tokens at which an expression begins. -/
def begins : TokenKind -> Bool
  | .leftParen => true
  | .not => true
  | .identifier => true
  | .integer => true
  | .float => true
  | .string => true
  | _ => false

theorem begins_of_constant {token : Token} {constant : Literal × List Problem}
    (found : token.constant? = some constant) : begins token.kind = true := by
  rcases Token.kind_of_constant found with kind | kind | kind
  · rw [kind]; rfl
  · rw [kind]; rfl
  · rw [kind]; rfl

/-- A constant is none of the other tokens at which an expression begins. -/
theorem ne_of_constant {token : Token} {constant : Literal × List Problem}
    (found : token.constant? = some constant) :
    token.kind ≠ .leftParen ∧ token.kind ≠ .not ∧ token.kind ≠ .identifier := by
  rcases Token.kind_of_constant found with kind | kind | kind
  · rw [kind]; decide
  · rw [kind]; decide
  · rw [kind]; decide

theorem Expression.head {level : Level} {tokens : List Token} {term : Term} :
    Expression level tokens term ->
      Exists fun token : Token => Exists fun rest : List Token =>
        tokens = token :: rest ∧ begins token.kind = true
  | .connective first _ => by
      rcases first.head with ⟨token, rest, same, begin⟩
      exact ⟨token, rest ++ _, congrArg (· ++ _) same, begin⟩
  | .negation mark _ => ⟨_, _, rfl, by rw [mark]; rfl⟩
  | .unnegated derived => derived.head
  | .chain first _ => by
      rcases first.head with ⟨token, rest, same, begin⟩
      exact ⟨token, rest ++ _, congrArg (· ++ _) same, begin⟩
  | .call name _ _ => ⟨_, _, rfl, by rw [name]; rfl⟩
  | .callWith name _ _ _ => ⟨_, _, rfl, by rw [name]; rfl⟩
  | .var name => ⟨_, _, rfl, by rw [name]; rfl⟩
  | .constant found => ⟨_, _, rfl, begins_of_constant found⟩
  | .group opening _ _ => ⟨_, _, rfl, by rw [opening]; rfl⟩

theorem Expression.ne_nil {level : Level} {tokens : List Token} {term : Term}
    (derived : Expression level tokens term) : tokens ≠ [] := by
  rcases derived.head with ⟨token, rest, same, _⟩
  rw [same]
  exact List.cons_ne_nil token rest

/-- A comparison and its operands do not begin with a negation. -/
theorem Expression.head_ne_not {level : Level} {tokens : List Token} {term : Term} :
    Expression level tokens term -> level.rank < Level.negation.rank ->
      Exists fun token : Token => Exists fun rest : List Token =>
        tokens = token :: rest ∧ token.kind ≠ .not
  | @Expression.connective symbol _ _ _ _ _ _ => fun tight => by
      have high : Level.negation.rank < (Level.connective symbol).rank := by
        cases symbol <;> decide
      exact (Nat.lt_asymm tight high).elim
  | .negation _ _ => fun tight => (Nat.lt_irrefl _ tight).elim
  | .unnegated _ => fun tight => (Nat.lt_irrefl _ tight).elim
  | @Expression.chain operators _ _ _ _ first _ => fun tight => by
      rcases first.head_ne_not (Nat.lt_trans operators.rank_operand_lt tight) with
        ⟨token, rest, same, other⟩
      exact ⟨token, rest ++ _, congrArg (· ++ _) same, other⟩
  | .call name _ _ => fun _ => ⟨_, _, rfl, by rw [name]; decide⟩
  | .callWith name _ _ _ => fun _ => ⟨_, _, rfl, by rw [name]; decide⟩
  | .var name => fun _ => ⟨_, _, rfl, by rw [name]; decide⟩
  | .constant found => fun _ => ⟨_, _, rfl, (ne_of_constant found).2.1⟩
  | .group opening _ _ => fun _ => ⟨_, _, rfl, by rw [opening]; decide⟩

theorem ArgumentList.head {tokens : List Token} {terms : List Term}
    (arguments : ArgumentList tokens terms) :
    Exists fun token : Token => Exists fun rest : List Token =>
      tokens = token :: rest ∧ begins token.kind = true := by
  cases arguments with
  | last only => exact only.head
  | cons first _ _ =>
      rcases first.head with ⟨token, rest, same, begin⟩
      exact ⟨token, rest ++ _, congrArg (· ++ _) same, begin⟩

end Grammar

end PlanningDomain
