import PlanningDomain.NormalForm.Negation

namespace PlanningDomain

/-!
# Disjunctive normal form

A disjunction of clauses, each a conjunction of literals, is computed from
the negation normal form.  The clauses of a disjunction are the clauses of its
operands, one after the other.  The clauses of a conjunction are all ways to
take one clause of each operand, in order, with the first operand varying
slowest.  Nothing is simplified or left out.

A literal may come to stand in several clauses.  The first place keeps the
node itself, and every later one gets a copy.  What the conversion takes
apart is set aside: the connectives without their operands, and the literals
that came to stand nowhere because some operand had no clause.
-/

/-- A conjunction of literals, as a node in the making. -/
structure Clause where
  handle : Handle
  literals : List Node

/-- A disjunction of clauses, as a node in the making. -/
structure Disjunction where
  handle : Handle
  clauses : List Clause

namespace Clause

def toNode (clause : Clause) : Node :=
  .mk clause.handle .and clause.literals

/-- What is left of a clause whose literals are taken away. -/
def shell (clause : Clause) : Node :=
  .mk clause.handle .and []

end Clause

namespace Disjunction

def toNode (disjunction : Disjunction) : Node :=
  .mk disjunction.handle .or (disjunction.clauses.map Clause.toNode)

/-- What is left of a disjunction whose clauses are taken away. -/
def shell (disjunction : Disjunction) : Node :=
  .mk disjunction.handle .or []

/-- What is left of a disjunction whose literals are taken away. -/
def clauseShells (disjunction : Disjunction) : Node :=
  .mk disjunction.handle .or (disjunction.clauses.map Clause.shell)

/-- The literals of each clause. -/
def literals (disjunction : Disjunction) : List (List Node) :=
  disjunction.clauses.map Clause.literals

end Disjunction

/-- All ways to take one list of each family, joined in the order of the
families.  The first family varies slowest. -/
def combinations {alpha : Type} : List (List (List alpha)) -> List (List alpha)
  | [] => [[]]
  | family :: rest =>
      family.flatMap (fun choice => (combinations rest).map (fun joined => choice ++ joined))

/-- Literals that are given a place, the handles of the nodes that have one,
and the forest after copies were made. -/
structure Placement (alpha : Type) where
  placed : alpha
  taken : List Handle
  forest : Forest

namespace Placement

/-- Give each literal its place in one clause.  A node whose handle is taken
already has a place and is copied. -/
def literals (taken : List Handle) (forest : Forest) : List Node -> Placement (List Node)
  | [] => ⟨[], taken, forest⟩
  | literal :: rest =>
      if taken.contains literal.handle then
        let copied := literal.copy forest.allocated
        let tail := literals taken { forest with allocated := copied.2 } rest
        { tail with placed := copied.1 :: tail.placed }
      else
        let tail := literals (literal.handle :: taken) forest rest
        { tail with placed := literal :: tail.placed }

/-- Build a clause for each list of literals. -/
def clauses (taken : List Handle) (forest : Forest) :
    List (List Node) -> Placement (List Clause)
  | [] => ⟨[], taken, forest⟩
  | choice :: rest =>
      let head := literals taken forest.reserve choice
      let tail := clauses head.taken head.forest rest
      { tail with placed := ⟨forest.allocated, head.placed⟩ :: tail.placed }

end Placement

namespace Disjunction

/-- The disjunction of the clauses of all operands. -/
def join (handle : Handle) (operands : List Disjunction) (forest : Forest) :
    Disjunction × Forest :=
  (⟨handle, operands.flatMap Disjunction.clauses⟩,
    forest.plantAll (operands.map Disjunction.shell))

/-- The disjunction of all combinations of clauses of the operands. -/
def product (operands : List Disjunction) (forest : Forest) : Disjunction × Forest :=
  let available := operands.flatMap (fun operand => operand.literals.flatten)
  let built := Placement.clauses [] forest.reserve (combinations (operands.map literals))
  let unused := available.filter (fun literal => !built.taken.contains literal.handle)
  (⟨forest.allocated, built.placed⟩,
    (built.forest.plantAll (operands.map clauseShells)).plantAll unused)

/-- The disjunction of one clause that consists of one literal. -/
def single (literal : Node) (forest : Forest) : Disjunction × Forest :=
  (⟨forest.allocated + 1, [⟨forest.allocated, [literal]⟩]⟩, forest.reserve.reserve)

end Disjunction

namespace Node

mutual

/-- The clauses of an expression in negation normal form. -/
def disjoin (forest : Forest) : Node -> Disjunction × Forest
  | mk handle .or children =>
      let operands := disjoinAll forest.reserve children
      let joined := Disjunction.join forest.allocated operands.1 operands.2
      (joined.1, joined.2.plant (mk handle .or []))
  | mk handle .and children =>
      let operands := disjoinAll forest children
      let joined := Disjunction.product operands.1 operands.2
      (joined.1, joined.2.plant (mk handle .and []))
  | mk handle kind children => Disjunction.single (mk handle kind children) forest

def disjoinAll (forest : Forest) : List Node -> List Disjunction × Forest
  | [] => ([], forest)
  | node :: rest =>
      let head := node.disjoin forest
      let tail := disjoinAll head.2 rest
      (head.1 :: tail.1, tail.2)

end

theorem disjoin_of_literal {node : Node} (literal : forall symbol, node.kind ≠ .connective symbol)
    (forest : Forest) : node.disjoin forest = Disjunction.single node forest := by
  rcases node with ⟨handle, kind, children⟩
  cases kind with
  | connective symbol => exact (literal symbol rfl).elim
  | _ => rfl

/-- The disjunction of the clauses of an expression in negation normal form.
A conjunction without operands becomes the disjunction without operands. -/
def clausesOf (forest : Forest) : Node -> Node × Forest
  | mk handle .and [] =>
      (mk forest.allocated .or [], forest.reserve.plant (mk handle .and []))
  | expression =>
      let disjunction := expression.disjoin forest
      (disjunction.1.toNode, disjunction.2)

theorem clausesOf_of_not_childless {node : Node}
    (notChildless : ¬ (node.kind = .and ∧ node.children = [])) (forest : Forest) :
    node.clausesOf forest = ((node.disjoin forest).1.toNode, (node.disjoin forest).2) := by
  rw [clausesOf]
  intro handle childless
  subst childless
  exact notChildless ⟨rfl, rfl⟩

/-- The disjunctive normal form of an expression.  While an attached expression
is taken apart, another node keeps its place. -/
def toDnf (attached : Bool) (node : Node) (forest : Forest) : Node × Forest :=
  let converted := node.toNnf forest
  if attached then
    let result := converted.1.clausesOf converted.2.reserve
    (result.1, result.2.plant (mk converted.2.allocated .or []))
  else converted.1.clausesOf converted.2

end Node

end PlanningDomain
