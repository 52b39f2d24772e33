import PlanningDomain.Arena.Walk
import PlanningDomain.Forest.Basic

namespace PlanningDomain

/-!
# Arenas and forests

A forest says how the nodes of an arena are put together, and nothing about
links.  The cell of every node follows from its place in the forest.  So a
forest can be stored in an arena, and read back from it.
-/

namespace Node

mutual

/-- The cells of all nodes of an expression, given the links of its topmost
node to nodes outside. -/
def cells (parent previous next : Link) : Node -> List (Handle × Cell)
  | mk handle kind children =>
      (handle,
        ⟨kind, parent, children.head?.map Node.handle, children.getLast?.map Node.handle, previous,
          next⟩) :: cellsAll handle none none children

/-- The cells of all nodes of neighbouring operands, given the node above them
and the siblings on both sides. -/
def cellsAll (parent : Handle) (previous next : Link) :
    List Node -> List (Handle × Cell)
  | [] => []
  | node :: rest =>
      node.cells (some parent) previous ((rest.head?.map Node.handle).or next) ++
        cellsAll parent (some node.handle) next rest

end

end Node

namespace Forest

/-- The cells of all nodes of a forest. -/
def cells (forest : Forest) : List (Handle × Cell) :=
  forest.roots.flatMap (Node.cells none none none)

end Forest

namespace Arena

/-- The arena that holds a forest. -/
def ofForest (forest : Forest) : Arena :=
  ⟨forest.cells.foldl (fun cells entry => cells.set! entry.1 entry.2)
    (Array.replicate forest.allocated (.alone .and))⟩

/-- Read all expressions that are not part of another, in the order of their
handles. -/
def roots : Edit (List Node) := do
  let nodes := List.range (← get).size
  (← nodes.filterM (fun node => return !(← isAttached node))).mapM Handle.expression

end Arena

end PlanningDomain
