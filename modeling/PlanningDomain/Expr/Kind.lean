import PlanningDomain.Number.Shortest
import PlanningDomain.Source.Text

namespace PlanningDomain

/-!
# Kinds of expression nodes

A kind is the label of a node in an expression, together with the payload
that goes with it.  Names and the texts of strings are not copied into
the label.  It holds the range of the source where they stand.
-/

/-- A constant of the source.  Strings are given by the range between their
quotes. -/
inductive Literal where
  | int (value : Int64)
  | float (value : Binary64)
  | string (text : Span)
deriving DecidableEq, Repr

/-- The two connectives that take any number of operands. -/
inductive Connective where
  | and
  | or
deriving DecidableEq, Repr

namespace Connective

/-- The connective that De Morgan's laws exchange for this one. -/
def dual : Connective -> Connective
  | and => or
  | or => and

@[simp] theorem dual_dual (connective : Connective) : connective.dual.dual = connective := by
  cases connective <;> rfl

/-- A conjunction is exchanged for a disjunction, and a disjunction for a conjunction. -/
theorem dual_eq_iff {symbol other : Connective} :
    symbol.dual = other ↔ symbol = and ∧ other = or ∨ symbol = or ∧ other = and := by
  cases symbol <;> cases other <;> decide

end Connective

inductive Comparison where
  | equal
  | notEqual
  | less
  | lessEqual
  | greater
  | greaterEqual
deriving DecidableEq, Repr

inductive Arithmetic where
  | plus
  | minus
  | multiply
  | divide
deriving DecidableEq, Repr

/-- The label of a node.  `var` is a variable, and `func` is a call or the
mention of a fact, whose arguments are the operands of the node. -/
inductive Kind where
  | connective (symbol : Connective)
  | not
  | comparison (symbol : Comparison)
  | arithmetic (symbol : Arithmetic)
  | var (name : Span)
  | func (name : Span)
  | literal (value : Literal)
deriving DecidableEq, Repr

namespace Kind

@[match_pattern] abbrev and : Kind := connective .and

@[match_pattern] abbrev or : Kind := connective .or

def isLogical : Kind -> Bool
  | connective _ => true
  | not => true
  | _ => false

/-- Whether operands of the same kind may be merged into a node. -/
def isAssociative : Kind -> Bool
  | connective _ => true
  | _ => false

def isRelational : Kind -> Bool
  | comparison _ => true
  | _ => false

def isArithmetic : Kind -> Bool
  | arithmetic _ => true
  | _ => false

def isLeaf : Kind -> Bool
  | var _ => true
  | func _ => true
  | literal _ => true
  | _ => false

def dual? : Kind -> Option Kind
  | connective symbol => some (connective symbol.dual)
  | _ => none

/-- The range of the identifier that names a variable or a call. -/
def name? : Kind -> Option Span
  | var name => some name
  | func name => some name
  | _ => none

def literal? : Kind -> Option Literal
  | literal value => some value
  | _ => none

/-- The word for a kind, without its payload. -/
def typeName : Kind -> String
  | connective .and => "And"
  | connective .or => "Or"
  | not => "Not"
  | comparison .equal => "Equal"
  | comparison .notEqual => "NotEqual"
  | comparison .less => "Less"
  | comparison .lessEqual => "LessEqual"
  | comparison .greater => "Greater"
  | comparison .greaterEqual => "GreaterEqual"
  | arithmetic .plus => "Plus"
  | arithmetic .minus => "Minus"
  | arithmetic .multiply => "Multiply"
  | arithmetic .divide => "Divide"
  | var _ => "Var"
  | func _ => "Func"
  | literal _ => "Literal"

end Kind

namespace Literal

/-- Numbers from one ten-thousandth on, and below ten to the sixteenth, are
written with their point in place. -/
def positionalRange : Decimal.PositionalRange :=
  ⟨-4, 15⟩

/-- The constant as it may be written in a source.  The text of a string is
looked up, and there is none if its range denotes no text. -/
def toText? (source : Source) : Literal -> Option String
  | int value => some (toString value.toInt)
  | float value => some (value.write positionalRange)
  | string text => (source.slice? text).map (fun content => "\"" ++ content ++ "\"")

end Literal

end PlanningDomain
