import PlanningDomain.NormalForm.Flat

namespace PlanningDomain

/-!
# Negation normal form

Negations are moved towards the literals.  A negation of a negation goes
away, and a negation of a connective becomes the dual connective of the
negated operands.  Nodes that are not logical are left as they are, with a
negation above them if there is one, and their operands are converted on
their own.

The conversion of a node and the conversion of its negation are two functions
that call each other.  The second one takes the operand of the negation, so
both follow the structure of the expression, even where a conversion has to
build new negations for the operands of a connective.  A negation may have
lost its operand, or have more than one, where a source is in error.  The
first operand counts, and the others stay beside it or are set aside with the
negation.
-/

namespace Node

mutual

/-- Convert an expression. -/
def nnf (forest : Forest) : Node -> Node × Forest
  | mk handle .not (operand :: others) => operand.nnfNot forest handle others
  | mk handle kind children =>
      let operands := nnfAll forest children
      (mk handle kind operands.1, operands.2)

/-- Convert the negation of an expression.  The handle of the negation and
its further operands are given. -/
def nnfNot (forest : Forest) (negation : Handle) (others : List Node) : Node -> Node × Forest
  | mk handle .not [] => (mk negation .not (mk handle .not [] :: others), forest)
  | mk handle .not (operand :: more) =>
      let inner := operand.nnf forest
      (inner.1, inner.2.plant (mk negation .not (mk handle .not more :: others)))
  | mk handle (.connective symbol) children =>
      let operands := nnfNotAll forest.reserve children
      (mk forest.allocated (.connective symbol.dual) operands.1,
        operands.2.plant (mk negation .not (mk handle (.connective symbol) [] :: others)))
  | mk handle kind children =>
      let operands := nnfAll forest children
      (mk negation .not (mk handle kind operands.1 :: others), operands.2)

def nnfAll (forest : Forest) : List Node -> List Node × Forest
  | [] => ([], forest)
  | node :: rest =>
      let head := node.nnf forest
      let tail := nnfAll head.2 rest
      (head.1 :: tail.1, tail.2)

/-- Convert the negation of each expression, with a new node for each. -/
def nnfNotAll (forest : Forest) : List Node -> List Node × Forest
  | [] => ([], forest)
  | node :: rest =>
      let head := node.nnfNot forest.reserve forest.allocated []
      let tail := nnfNotAll head.2 rest
      (head.1 :: tail.1, tail.2)

end

theorem nnf_of_ne_not {kind : Kind} (other : kind ≠ .not) (forest : Forest) (handle : Handle)
    (children : List Node) :
    (mk handle kind children).nnf forest =
      (mk handle kind (nnfAll forest children).1, (nnfAll forest children).2) := by
  rw [nnf]
  intro operand others impossible _
  exact other impossible

theorem nnfNot_of_not_logical {kind : Kind} (notLogical : kind.isLogical = false) (forest : Forest)
    (negation : Handle) (others : List Node) (handle : Handle) (children : List Node) :
    (mk handle kind children).nnfNot forest negation others =
      (mk negation .not (mk handle kind (nnfAll forest children).1 :: others),
        (nnfAll forest children).2) := by
  cases kind with
  | not => exact Bool.noConfusion notLogical
  | connective symbol => exact Bool.noConfusion notLogical
  | _ => rfl

/-- The negation normal form of an expression, flattened. -/
def toNnf (node : Node) (forest : Forest) : Node × Forest :=
  let converted := node.nnf forest
  converted.1.toFlat converted.2

end Node

end PlanningDomain
