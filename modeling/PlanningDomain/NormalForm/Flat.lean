import PlanningDomain.Forest.Basic

namespace PlanningDomain

/-!
# Flat expressions

A connective of any number of operands that has itself among its operands
can take over their operands.  Merging does this everywhere in an expression,
to any depth, and keeps the order of the operands.  The node that is merged
away is left without operands, as an expression of its own.
-/

namespace Kind

/-- Whether a node of this kind takes over the operands of one of the other
kind. -/
def absorbs : Kind -> Kind -> Bool
  | connective outer, connective inner => outer == inner
  | _, _ => false

end Kind

namespace Node

mutual

/-- The expression with all nested connectives merged. -/
def flatten : Node -> Node
  | mk handle kind children => mk handle kind (mergeAll kind children)

/-- What stands for a node among the operands of a node above it, given the
kind of that node: the operands of the node if they are taken over, or the
node itself. -/
def mergeInto (outer : Kind) : Node -> List Node
  | mk handle kind children =>
      if outer.absorbs kind then mergeAll kind children
      else [mk handle kind (mergeAll kind children)]

/-- The operands of a node after merging, given its kind and its operands. -/
def mergeAll (outer : Kind) : List Node -> List Node
  | [] => []
  | node :: rest => node.mergeInto outer ++ mergeAll outer rest

end

mutual

/-- The nodes that merging leaves over below a node, without operands. -/
def shells : Node -> List Node
  | mk _ kind children => shellsAll kind children

/-- The nodes that merging leaves over at a node and below it, given the kind
of the node above it. -/
def shellsInto (outer : Kind) : Node -> List Node
  | mk handle kind children =>
      if outer.absorbs kind then mk handle kind [] :: shellsAll kind children
      else shellsAll kind children

def shellsAll (outer : Kind) : List Node -> List Node
  | [] => []
  | node :: rest => node.shellsInto outer ++ shellsAll outer rest

end

/-- Merge the nested connectives of an expression within a forest. -/
def toFlat (node : Node) (forest : Forest) : Node × Forest :=
  (node.flatten, forest.plantAll node.shells)

theorem handle_flatten (node : Node) : node.flatten.handle = node.handle := by
  cases node; rfl

end Node

end PlanningDomain
