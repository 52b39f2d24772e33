import PlanningDomain.Arena.Forest
import PlanningDomain.Proofs.Arena.Yields

namespace PlanningDomain

/-!
# Stored expressions

An arena stores some expressions if its cells are those that the expressions
need, with all their links.  A node is found in a stored expression by the way
up from it.  A step of the way holds the node above and the operands on
both sides.  So the links between a node and its surroundings are
known from the way alone, and the cells of an expression are the cell of the
node, the cells below it, and the cells around it.
-/

/-- One step upwards: the node above, and its operands on both sides. -/
structure Step where
  handle : Handle
  kind : Kind
  left : List Node
  right : List Node

namespace Step

/-- The node above, with the given operands in the place of the one below. -/
def fill (step : Step) (operands : List Node) : Node :=
  .mk step.handle step.kind (step.left ++ operands ++ step.right)

@[simp] theorem handle_fill (step : Step) (operands : List Node) :
    (step.fill operands).handle = step.handle := rfl

/-- The node above, if there is one. -/
def parent? (path : List Step) : Link :=
  path.head?.map Step.handle

/-- The sibling before the place at the beginning of a way. -/
def previous? : List Step -> Link
  | [] => none
  | step :: _ => step.left.getLast?.map Node.handle

/-- The sibling after the place at the beginning of a way. -/
def next? : List Step -> Link
  | [] => none
  | step :: _ => step.right.head?.map Node.handle

/-- The cells of all nodes around a place, given the handle of the node that
stands there. -/
def cellsAround (hole : Handle) : List Step -> List (Handle × Cell)
  | [] => []
  | step :: path =>
      (step.handle,
        ⟨step.kind, parent? path, (step.left.head?.map Node.handle).or (some hole),
          (step.right.getLast?.map Node.handle).or (some hole), previous? path, next? path⟩) ::
        (Node.cellsAll step.handle none (some hole) step.left ++
          Node.cellsAll step.handle (some hole) none step.right ++
          cellsAround step.handle path)

end Step

namespace Node

/-- The whole expression around a node, up to the end of the way. -/
def climb (node : Node) : List Step -> Node
  | [] => node
  | step :: path => (step.fill [node]).climb path

@[simp] theorem climb_nil (node : Node) : node.climb [] = node := rfl

theorem climb_cons (node : Node) (step : Step) (path : List Step) :
    node.climb (step :: path) = (step.fill [node]).climb path := rfl

theorem climb_append (node : Node) (path above : List Step) :
    node.climb (path ++ above) = (node.climb path).climb above := by
  induction path generalizing node with
  | nil => rfl
  | cons step path ih => exact ih (step.fill [node])

/-- The end of a way up does not depend on what is below its beginning. -/
theorem handle_climb_congr {first second : Node} (same : first.handle = second.handle)
    (path : List Step) : (first.climb path).handle = (second.climb path).handle := by
  induction path generalizing first second with
  | nil => exact same
  | cons step path ih => exact ih (rfl : (step.fill [first]).handle = (step.fill [second]).handle)

/-- An operand, seen from itself and from the node above. -/
theorem climb_operand (node : Node) (handle : Handle) (kind : Kind) (left right : List Node)
    (path : List Step) :
    node.climb (⟨handle, kind, left, right⟩ :: path) =
      (mk handle kind (left ++ node :: right)).climb path := by
  rw [climb_cons, Step.fill, List.append_assoc, List.singleton_append]

/-- The operands of the first of some expressions belong to it. -/
theorem climb_operand_mem (node : Node) (handle : Handle) (kind : Kind) (left right : List Node)
    (path : List Step) (rest : List Node) :
    node.climb (⟨handle, kind, left, right⟩ :: path) ∈
      (mk handle kind (left ++ node :: right)).climb path :: rest := by
  rw [climb_operand]
  exact List.mem_cons_self

/-- The cell of a node at the beginning of a way. -/
def cellAt (node : Node) (path : List Step) : Cell :=
  ⟨node.kind, Step.parent? path, node.children.head?.map handle,
    node.children.getLast?.map handle, Step.previous? path, Step.next? path⟩

/-- The cells of all nodes strictly below a node. -/
def cellsBelow (node : Node) : List (Handle × Cell) :=
  cellsAll node.handle none none node.children

/-! ## Cells of neighbours -/

theorem cells_eq (node : Node) (parent previous next : Link) :
    node.cells parent previous next =
      (node.handle,
        ⟨node.kind, parent, node.children.head?.map handle, node.children.getLast?.map handle,
          previous, next⟩) :: node.cellsBelow := by
  cases node
  rfl

theorem cellsAll_append (parent : Handle) (previous next : Link)
    (left right : List Node) :
    cellsAll parent previous next (left ++ right) =
      cellsAll parent previous ((right.head?.map handle).or next) left ++
        cellsAll parent ((left.getLast?.map handle).or previous) next right := by
  induction left generalizing previous with
  | nil => rfl
  | cons node rest ih =>
      rw [List.cons_append, cellsAll, ih, cellsAll, List.append_assoc]
      have following : ((rest ++ right).head?.map handle).or next =
          (rest.head?.map handle).or ((right.head?.map handle).or next) := by
        cases rest <;> rfl
      have preceding : (((node :: rest).getLast?).map handle).or previous =
          (rest.getLast?.map handle).or (some node.handle) := by
        cases rest with
        | nil => rfl
        | cons second others =>
            rw [List.getLast?_cons_cons,
              List.getLast?_eq_some_getLast (List.cons_ne_nil second others)]
            rfl
      rw [following, preceding]

/-- One operand among others: its cell does not depend on what is below the
others, and theirs depend only on its handle. -/
theorem cellsAll_middle (parent : Handle) (previous next : Link)
    (left right : List Node) (node : Node) :
    cellsAll parent previous next (left ++ node :: right) =
      cellsAll parent previous (some node.handle) left ++
        (node.cells (some parent) ((left.getLast?.map handle).or previous)
            ((right.head?.map handle).or next) ++
          cellsAll parent (some node.handle) next right) := by
  rw [cellsAll_append, cellsAll]
  rfl

/-- The cells of a whole expression, seen from one of its nodes. -/
theorem cells_climb (node : Node) (path : List Step) :
    ((node.climb path).cells none none none).Perm
      ((node.handle, node.cellAt path) ::
        (node.cellsBelow ++ Step.cellsAround node.handle path)) := by
  induction path generalizing node with
  | nil =>
      rw [climb_nil, cells_eq, Step.cellsAround, List.append_nil]
      exact List.Perm.refl _
  | cons step path ih =>
      apply (ih (step.fill [node])).trans
      have below : (step.fill [node]).cellsBelow =
          cellsAll step.handle none (some node.handle) step.left ++
            ((node.handle, node.cellAt (step :: path)) :: node.cellsBelow ++
              cellsAll step.handle (some node.handle) none step.right) := by
        change cellsAll step.handle none none (step.left ++ [node] ++ step.right) = _
        rw [List.append_assoc, List.singleton_append, cellsAll_middle, cells_eq]
        simp only [Option.or_none]
        rfl
      have above : (step.fill [node]).cellAt path =
          ⟨step.kind, Step.parent? path, (step.left.head?.map handle).or (some node.handle),
            (step.right.getLast?.map handle).or (some node.handle), Step.previous? path,
            Step.next? path⟩ := by
        have first : ((step.left ++ [node] ++ step.right).head?).map handle =
            (step.left.head?.map handle).or (some node.handle) := by
          cases step.left <;> rfl
        have last : ((step.left ++ [node] ++ step.right).getLast?).map handle =
            (step.right.getLast?.map handle).or (some node.handle) := by
          rw [List.getLast?_append]
          cases step.right.getLast? with
          | none => rw [Option.none_or, List.getLast?_concat]; rfl
          | some _ => rfl
        change (⟨_, _, ((step.left ++ [node] ++ step.right).head?).map handle,
          ((step.left ++ [node] ++ step.right).getLast?).map handle, _, _⟩ : Cell) = _
        rw [first, last]
        rfl
      rw [below, above, Step.cellsAround, Step.handle_fill]
      refine perm_of_counts (fun entry => ?_)
      simp only [List.count_cons, List.count_append]
      omega

/-- The cells of some expressions, seen from a node of the first. -/
theorem flatMap_cells_climb (node : Node) (path : List Step) (rest : List Node) :
    ((node.climb path :: rest).flatMap (cells none none none)).Perm
      ((node.handle, node.cellAt path) :: (node.cellsBelow ++
        Step.cellsAround node.handle path ++ rest.flatMap (cells none none none))) := by
  rw [List.flatMap_cons]
  exact (node.cells_climb path).append_right _

end Node

namespace Arena

/-- The arena stores the expressions of a forest and nothing else, and both
have given out the same handles. -/
structure Stores (forest : Forest) (arena : Arena) : Prop where
  keeps : arena.Keeps forest.cells
  size : arena.size = forest.allocated

namespace Stores

variable {size : Nat} {trees others rest : List Node} {arena : Arena}

theorem perm (permutation : trees.Perm others) (stored : arena.Stores ⟨size, trees⟩) :
    arena.Stores ⟨size, others⟩ where
  keeps := stored.keeps.perm (permutation.flatMap_right _)
  size := stored.size

/-- What is known of the cells when one expression is seen from one of its
nodes. -/
theorem keeps_climb {node : Node} {path : List Step}
    (stored : arena.Stores ⟨size, node.climb path :: rest⟩) :
    arena.Keeps ((node.handle, node.cellAt path) :: (node.cellsBelow ++
      Step.cellsAround node.handle path ++ rest.flatMap (Node.cells none none none))) :=
  stored.keeps.perm (node.flatMap_cells_climb path rest)

theorem cell?_eq (stored : arena.Stores ⟨size, trees⟩) (node : Node) (path : List Step)
    (member : node.climb path ∈ trees) :
    arena.cell? node.handle = some (node.cellAt path) := by
  rcases List.append_of_mem member with ⟨before, after, split⟩
  rw [split] at stored
  exact (stored.perm List.perm_middle).keeps_climb.cell _ List.mem_cons_self

end Stores

/-! ## Looking at a stored node -/

section Looking

variable {size : Nat} {trees : List Node} (node : Node) (path : List Step)

theorem stored_cell_yields (member : node.climb path ∈ trees) :
    Yields (Stores ⟨size, trees⟩) (cell node.handle) (node.cellAt path) (Stores ⟨size, trees⟩) :=
  cell_yields _ (fun _ stored => stored.cell?_eq node path member)

theorem stored_kind_yields (member : node.climb path ∈ trees) :
    Yields (Stores ⟨size, trees⟩) (kind node.handle) node.kind (Stores ⟨size, trees⟩) :=
  kind_yields _ (fun _ (stored : Stores ⟨size, trees⟩ _) => stored.cell?_eq node path member)

theorem stored_isAttached_yields (member : node.climb path ∈ trees) :
    Yields (Stores ⟨size, trees⟩) (isAttached node.handle) (Step.parent? path).isSome
      (Stores ⟨size, trees⟩) :=
  isAttached_yields _ (fun _ (stored : Stores ⟨size, trees⟩ _) => stored.cell?_eq node path member)

end Looking

/-- The order in which the expressions are listed is of no importance. -/
theorem yields_of_perm {alpha : Type} {work : Edit alpha} {result : alpha} {after : Arena -> Prop}
    {size : Nat} {before listed : List Node} (permutation : before.Perm listed)
    (yields : Yields (Stores ⟨size, listed⟩) work result after) :
    Yields (Stores ⟨size, before⟩) work result after :=
  yields.weaken (fun _ stored => stored.perm permutation)

theorem yields_to_perm {alpha : Type} {work : Edit alpha} {result : alpha}
    {before : Arena -> Prop} {size : Nat} {after listed : List Node}
    (permutation : listed.Perm after)
    (yields : Yields before work result (Stores ⟨size, listed⟩)) :
    Yields before work result (Stores ⟨size, after⟩) :=
  yields.relax (fun _ stored => stored.perm permutation)

end Arena

end PlanningDomain
