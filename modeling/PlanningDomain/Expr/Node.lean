import PlanningDomain.Expr.Kind

namespace PlanningDomain

/-!
# Expressions

An expression is a tree of nodes.  A node has a kind, its operands in order,
and a handle.  The handle is a number that names the node.  It says which
node it is, and nothing about the meaning of the expression.
-/

/-- A number that names a node.  There is no greatest one: that handles may run
out is left aside. -/
abbrev Handle := Nat

/-- A node together with everything below it. -/
inductive Node where
  | mk (handle : Handle) (kind : Kind) (children : List Node)

namespace Node

def handle : Node -> Handle
  | mk handle _ _ => handle

def kind : Node -> Kind
  | mk _ kind _ => kind

def children : Node -> List Node
  | mk _ _ children => children

@[simp] theorem handle_mk (handle : Handle) (kind : Kind) (children : List Node) :
    (mk handle kind children).handle = handle := rfl

@[simp] theorem kind_mk (handle : Handle) (kind : Kind) (children : List Node) :
    (mk handle kind children).kind = kind := rfl

@[simp] theorem children_mk (handle : Handle) (kind : Kind) (children : List Node) :
    (mk handle kind children).children = children := rfl

/-! ## The nodes of an expression -/

mutual

/-- All nodes of an expression, each before the nodes below it and those
before the nodes to their right. -/
def preorder : Node -> List Node
  | mk handle kind children => mk handle kind children :: preorderAll children

def preorderAll : List Node -> List Node
  | [] => []
  | node :: rest => node.preorder ++ preorderAll rest

end

/-- The handles of all nodes of an expression, in the same order. -/
def handles (node : Node) : List Handle :=
  node.preorder.map Node.handle

/-- How many nodes an expression has. -/
def size (node : Node) : Nat :=
  node.preorder.length

theorem preorderAll_eq_flatMap (nodes : List Node) :
    preorderAll nodes = nodes.flatMap preorder := by
  induction nodes with
  | nil => rfl
  | cons node rest ih => rw [preorderAll, ih, List.flatMap_cons]

/-! ## Normal forms -/

/-- A literal is a node that is not logical, or the negation of one.  A
negation without an operand counts as a literal too. -/
def isLiteral (node : Node) : Bool :=
  match node.kind with
  | .connective _ => false
  | .not =>
      match node.children with
      | [] => true
      | operand :: _ => !operand.kind.isLogical
  | _ => true

/-- Negation normal form: every negation of the expression is a literal. -/
def isNnf (node : Node) : Bool :=
  node.preorder.all (fun inner => inner.kind != .not || inner.isLiteral)

/-- Whether no operand of a connective has that same connective. -/
def isMerged (node : Node) : Bool :=
  !node.kind.isAssociative || node.children.all (fun child => child.kind != node.kind)

/-- No connective of the expression has an operand of its own kind. -/
def isFlat (node : Node) : Bool :=
  node.preorder.all isMerged

/-- Disjunctive normal form: a disjunction of conjunctions of literals. -/
def isDnf (node : Node) : Bool :=
  node.kind == .or &&
    node.children.all (fun clause => clause.kind == .and && clause.children.all isLiteral)

/-! ## Copies -/

mutual

/-- A copy of an expression whose nodes take the handles from `first` on, in
the order of `preorder`.  The second part is the handle after the last one. -/
def copy (first : Handle) : Node -> Node × Handle
  | mk _ kind children =>
      let copies := copyAll (first + 1) children
      (mk first kind copies.1, copies.2)

def copyAll (first : Handle) : List Node -> List Node × Handle
  | [] => ([], first)
  | node :: rest =>
      let head := node.copy first
      let tail := copyAll head.2 rest
      (head.1 :: tail.1, tail.2)

end

end Node

end PlanningDomain
