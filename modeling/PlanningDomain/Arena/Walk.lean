import PlanningDomain.Arena.Basic

namespace PlanningDomain

/-!
# Walking through an arena

Operands are found by the links from one sibling to the next.  A walk through
all nodes of an expression needs no memory of where it has been.  It goes down
to the first operand if there is one, and otherwise climbs by the links
to the nodes above until one of them has a next sibling.  It ends at the node
that bounds it, whatever stands beside or above that node.

Each walk follows the links as they are.  In an arena whose links run in a
circle it need not come to an end.  What is asked of a node is asked of its
handle, and what is asked of the siblings from a link on is asked of the link.
-/

open Arena

/-! ## Operands -/

/-- The nodes from one on, by the links to the next sibling. -/
def Link.siblingsFrom : Link -> Edit (List Handle)
  | none => pure []
  | some node => do
      let rest ← (← cell node).next |>.siblingsFrom
      pure (node :: rest)
partial_fixpoint

/-- The operands of a node, in order. -/
def Handle.operands (node : Handle) : Edit (List Handle) := do
  (← cell node).first.siblingsFrom

/-- The number of operands of a node. -/
def Handle.operandCount (node : Handle) : Edit Nat := do
  return (← node.operands).length

mutual

/-- Read the expression below a node. -/
def Handle.expression (node : Handle) : Edit Node := do
  let place ← cell node
  let operands ← place.first |>.expressionsFrom
  pure (.mk node place.kind operands)
partial_fixpoint

/-- Read the expressions of a node and of the siblings after it. -/
def Link.expressionsFrom : Link -> Edit (List Node)
  | none => pure []
  | some node => do
      let head ← node |>.expression
      let rest ← (← cell node).next |>.expressionsFrom
      pure (head :: rest)
partial_fixpoint

end

namespace Handle

/-! ## Pre-order -/

/-- The node that follows once everything below a node is done. -/
def nextAbove (bound node : Handle) : Edit Link := do
  if node = bound then pure none
  else
    let place ← cell node
    match place.next, place.parent with
    | some sibling, _ => pure (some sibling)
    | none, some parent => bound |>.nextAbove parent
    | none, none => pure none
partial_fixpoint

/-- The node that follows another one in the walk through what lies below a
bound. -/
def preorderNext (bound node : Handle) : Edit Link := do
  match (← cell node).first with
  | some child => pure (some child)
  | none => bound.nextAbove node

/-- The rest of the walk, from a node on. -/
def preorderFrom (bound : Handle) : Link -> Edit (List Handle)
  | none => pure []
  | some node => do
      let rest ← bound |>.preorderFrom (← bound.preorderNext node)
      pure (node :: rest)
partial_fixpoint

/-- All nodes of an expression. -/
def preorder (root : Handle) : Edit (List Handle) :=
  root.preorderFrom (some root)

/-! ## Normal forms -/

/-- A literal is a node that is not logical, or the negation of one.  A
negation without an operand counts as a literal too. -/
def isLiteral (node : Handle) : Edit Bool := do
  let place ← cell node
  match place.kind, place.first with
  | .not, some operand => return !(← kind operand).isLogical
  | .not, none => pure true
  | kind, _ => pure (!kind.isLogical)

/-- Whether all negations of an expression are literals. -/
def isNnf (root : Handle) : Edit Bool := do
  (← root.preorder).allM (fun node => do
    if (← kind node) = .not then node.isLiteral else pure true)

/-- Whether no connective of an expression has an operand of its own kind. -/
def isFlat (root : Handle) : Edit Bool := do
  (← root.preorder).allM (fun node => do
    let outer ← kind node
    if outer.isAssociative then
      (← node.operands).allM (fun operand => return (← kind operand) != outer)
    else pure true)

/-- Whether an expression is a disjunction of conjunctions of literals. -/
def isDnf (root : Handle) : Edit Bool := do
  if (← kind root) = .or then
    (← root.operands).allM (fun clause => do
      if (← kind clause) = .and then (← clause.operands).allM isLiteral else pure false)
  else pure false

/-! ## Copies -/

mutual

/-- Add a copy of an expression with handles of its own, and answer the handle
of its topmost node. -/
def duplicate (node : Handle) : Edit Handle := do
  let copied ← alloc (← kind node)
  copied |>.duplicateInto (← cell node).first
  pure copied
partial_fixpoint

/-- Append copies of a node and of the siblings after it to another node. -/
def duplicateInto (copied : Handle) : Link -> Edit Unit
  | none => pure ()
  | some child => do
      append copied (← child |>.duplicate)
      copied |>.duplicateInto (← cell child).next
partial_fixpoint

end

end Handle

end PlanningDomain
