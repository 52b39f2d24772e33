import PlanningDomain.Source.Position
import PlanningDomain.Token.Kind

namespace PlanningDomain

/-!
# Diagnostics

A diagnostic says what is wrong with a source, and where.  What is wrong is
one of a fixed set of problems, and each of them has its words.  The place is
a range of the source.  The position of its beginning is worked out when the
diagnostic is made, so that it can be shown without the source.
-/

/-- What a reader of tokens may have expected and not found. -/
inductive Expectation where
  | declarationOrPrecondition
  | factKeyword
  | openingBrace
  | factDeclaration
  | openingParen
  | parameterType
  | closingParen
  | preconditionStart
  | operand
deriving DecidableEq, Repr

namespace Expectation

def description : Expectation -> String
  | declarationOrPrecondition => "'fact' block or precondition"
  | factKeyword => "'fact'"
  | openingBrace => "'\x7b'"
  | factDeclaration => "fact declaration"
  | openingParen => "'('"
  | parameterType => "parameter type"
  | closingParen => "')'"
  | preconditionStart => "'(' to start a precondition"
  | operand => "operand"

end Expectation

/-- What can be wrong with a source. -/
inductive Problem where
  | unexpected (expected : Expectation) (found : TokenKind)
  | unterminatedFactBlock
  | unbalancedParen
  | unknownType (word : String)
  | redeclaredFact (name : String)
  | emptyArgument
  | integerOutOfRange
  | unknownFact (name : String)
  | wrongArity (name : String) (arity found : Nat)
  /-- A remark in words of the caller's own. -/
  | remark (text : String)
deriving DecidableEq, Repr

namespace Problem

def message : Problem -> String
  | unexpected expected found =>
      "expected " ++ expected.description ++ ", found " ++ found.description
  | unterminatedFactBlock => "unterminated fact block, missing '\x7d'"
  | unbalancedParen => "unbalanced parenthesis, missing ')'"
  | unknownType word => "unknown type '" ++ word ++ "'"
  | redeclaredFact name => "fact '" ++ name ++ "' already declared"
  | emptyArgument => "empty function argument"
  | integerOutOfRange => "integer literal out of range"
  | unknownFact name => "unknown fact '" ++ name ++ "'"
  | wrongArity name arity found =>
      "fact '" ++ name ++ "' expects " ++ toString arity ++ " argument(s), found " ++
        toString found
  | remark text => text

end Problem

/-- A problem and its place. -/
structure Diagnostic where
  span : Span
  position : Position
  problem : Problem
deriving DecidableEq, Repr

namespace Diagnostic

def message (diagnostic : Diagnostic) : String :=
  diagnostic.problem.message

def toText (diagnostic : Diagnostic) : String :=
  toString diagnostic.position.line ++ ":" ++ toString diagnostic.position.column ++ ": " ++
    diagnostic.message

end Diagnostic

namespace Source

/-- The diagnostic of a problem with a range of the source. -/
def diagnose (source : Source) (span : Span) (problem : Problem) : Diagnostic :=
  ⟨span, source.position span.start, problem⟩

/-- The diagnostic of a problem, if its range begins at a place that has a
position. -/
def diagnose? (source : Source) (span : Span) (problem : Problem) : Option Diagnostic :=
  if source.hasPosition span.start then some (source.diagnose span problem) else none

end Source

/-- One line for each diagnostic, in order. -/
def diagnosticsText (diagnostics : List Diagnostic) : String :=
  "\n".intercalate (diagnostics.map Diagnostic.toText)

end PlanningDomain
