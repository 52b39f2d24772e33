import PlanningDomain.Expr.Node

namespace PlanningDomain

/-!
# Forests

All expressions of a compilation unit live in one forest.  It counts the
handles given out so far, so that every new node gets a handle of its own,
and it holds every expression that is not part of another.  Nothing leaves a
forest.  A node that a conversion has no further use for becomes an
expression of its own.

The expressions are kept in the order of the handles of their topmost nodes.
Two forests with the same nodes, put together in the same way, are therefore
equal.
-/

/-- The handles given out, which are the numbers below `allocated`, and the
expressions that are not part of another. -/
structure Forest where
  allocated : Nat
  roots : List Node

namespace Forest

def empty : Forest :=
  ⟨0, []⟩

/-- Put an expression among others at the place of its handle. -/
def insertRoot (tree : Node) : List Node -> List Node
  | [] => [tree]
  | root :: rest =>
      if tree.handle < root.handle then tree :: root :: rest
      else root :: insertRoot tree rest

theorem insertRoot_perm (tree : Node) (roots : List Node) :
    (insertRoot tree roots).Perm (tree :: roots) := by
  induction roots with
  | nil => exact List.Perm.refl _
  | cons root rest ih =>
      unfold insertRoot
      split
      · exact List.Perm.refl _
      · exact (List.Perm.cons root ih).trans (List.Perm.swap tree root rest)

/-- Add an expression whose nodes already have their handles. -/
def plant (forest : Forest) (tree : Node) : Forest :=
  { forest with roots := insertRoot tree forest.roots }

theorem roots_plant_perm (forest : Forest) (tree : Node) :
    (forest.plant tree).roots.Perm (tree :: forest.roots) :=
  insertRoot_perm tree forest.roots

def plantAll (forest : Forest) (trees : List Node) : Forest :=
  trees.foldl plant forest

theorem roots_plantAll_perm (forest : Forest) (trees : List Node) :
    (forest.plantAll trees).roots.Perm (trees ++ forest.roots) := by
  induction trees generalizing forest with
  | nil => exact List.Perm.refl _
  | cons tree rest ih =>
      refine (ih (forest.plant tree)).trans ?_
      exact ((forest.roots_plant_perm tree).append_left rest).trans List.perm_middle

/-- Give out a handle for a node that is still to be built. -/
def reserve (forest : Forest) : Forest :=
  { forest with allocated := forest.allocated + 1 }

@[simp] theorem allocated_plant (forest : Forest) (tree : Node) :
    (forest.plant tree).allocated = forest.allocated := rfl

@[simp] theorem allocated_plantAll (forest : Forest) (trees : List Node) :
    (forest.plantAll trees).allocated = forest.allocated := by
  induction trees generalizing forest with
  | nil => rfl
  | cons tree rest ih => exact ih (forest.plant tree)

@[simp] theorem allocated_reserve (forest : Forest) :
    forest.reserve.allocated = forest.allocated + 1 := rfl

end Forest

end PlanningDomain
