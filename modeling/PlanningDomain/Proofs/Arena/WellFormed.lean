import Mathlib.Logic.Relation
import PlanningDomain.Proofs.Arena.Walks

namespace PlanningDomain

/-!
# Well-formed arenas

The links of an arena are well formed if they say, each in its own way, the
same about the nodes.  The links to the next sibling and those to the previous
one go through the operands of a node in opposite orders, the links to the
first and to the last operand are the two ends, and the operands are the nodes
that have the node above them.  No node is above itself.

An arena that stores some expressions is well formed.  Nothing has to be said
about the links of such an arena, since each is known from the way up from a
node.
-/

namespace Arena

/-- The nodes that are met from one on along a link, up to the last that has
none. -/
inductive Follows (arena : Arena) (link : Cell -> Link) :
    Link -> List Handle -> Prop where
  | done : Follows arena link none []
  | step {node : Handle} {found : Cell} {rest : List Handle} :
      arena.cell? node = some found -> Follows arena link (link found) rest ->
      Follows arena link (some node) (node :: rest)

/-- The link of one node to the node above it leads to the other. -/
def Below (arena : Arena) (child parent : Handle) : Prop :=
  Exists fun found : Cell => arena.cell? child = some found ∧ found.parent = some parent

structure WellFormed (arena : Arena) : Prop where
  operands : forall node found, arena.cell? node = some found ->
    Exists fun operands : List Handle =>
      operands.Nodup ∧ arena.Follows Cell.next found.first operands ∧
        operands.getLast? = found.last ∧
        arena.Follows Cell.previous found.last operands.reverse ∧
        forall child, child ∈ operands ↔ arena.Below child node
  ends : forall node found, arena.cell? node = some found ->
    (found.first = none ↔ found.last = none)
  detached : forall node found, arena.cell? node = some found -> found.parent = none ->
    found.previous = none ∧ found.next = none
  acyclic : forall node, ¬ Relation.TransGen arena.Below node node
  bounded : forall node found, arena.cell? node = some found -> forall link : Handle,
    (found.parent = some link ∨ found.first = some link ∨ found.last = some link ∨
      found.previous = some link ∨ found.next = some link) -> link < arena.size

namespace Follows

variable {arena : Arena} {link : Cell -> Link}

theorem head_eq {start : Link} {nodes : List Handle}
    (follows : arena.Follows link start nodes) : nodes.head? = start := by
  cases follows with
  | done => rfl
  | step look rest => rfl

/-- The nodes that are met are determined by the first. -/
theorem unique {start : Link} {nodes others : List Handle}
    (follows : arena.Follows link start nodes) (again : arena.Follows link start others) :
    nodes = others := by
  induction follows generalizing others with
  | done =>
      cases again
      rfl
  | step look rest ih =>
      cases again with
      | step lookAgain restAgain =>
          rw [look] at lookAgain
          rw [Option.some.inj lookAgain] at ih
          rw [ih restAgain]

end Follows

theorem cell?_lt {arena : Arena} {node : Handle} {found : Cell}
    (look : arena.cell? node = some found) : node < arena.size :=
  (Array.getElem?_eq_some_iff.mp look).1

/-! ## Stored expressions -/

namespace Stores

variable {size : Nat} {trees : List Node} {arena : Arena}

/-- Every node of the arena is a node of some expression. -/
theorem locate (stored : arena.Stores ⟨size, trees⟩) {handle : Handle} (bound : handle < size) :
    Exists fun node : Node => Exists fun path : List Step =>
      node.handle = handle ∧ node.climb path ∈ trees := by
  have listed := stored.handles_perm.mem_iff.mpr (List.mem_range.mpr bound)
  rcases List.mem_flatMap.mp listed with ⟨tree, isTree, within⟩
  rcases List.mem_map.mp within with ⟨inner, below, same⟩
  rcases tree.climb_of_mem_preorder inner below with ⟨up, climbed⟩
  exact ⟨inner, up, same, climbed ▸ isTree⟩

/-- The expression of a node may be listed first. -/
theorem place_of_lt (stored : arena.Stores ⟨size, trees⟩) {handle : Handle}
    (bound : handle < arena.size) :
    Exists fun node : Node => Exists fun path : List Step => Exists fun rest : List Node =>
      node.handle = handle ∧ trees.Perm (node.climb path :: rest) := by
  rw [stored.size] at bound
  rcases stored.locate bound with ⟨node, path, same, member⟩
  rcases List.append_of_mem member with ⟨before, after, split⟩
  exact ⟨node, path, before ++ after, same, split ▸ List.perm_middle⟩

/-- The cell of every node is the one that its place asks for. -/
theorem locate_cell (stored : arena.Stores ⟨size, trees⟩) {handle : Handle} {found : Cell}
    (look : arena.cell? handle = some found) :
    Exists fun node : Node => Exists fun path : List Step =>
      node.handle = handle ∧ node.climb path ∈ trees ∧ found = node.cellAt path := by
  have bound := cell?_lt look
  rw [stored.size] at bound
  rcases stored.locate bound with ⟨node, path, same, member⟩
  have known := stored.cell?_eq node path member
  rw [same, look] at known
  exact ⟨node, path, same, member, Option.some.inj known⟩

theorem handle_lt (stored : arena.Stores ⟨size, trees⟩) {node : Node} {path : List Step}
    (member : node.climb path ∈ trees) : node.handle < arena.size :=
  cell?_lt (stored.cell?_eq node path member)

theorem lt_of_mem_handles (stored : arena.Stores ⟨size, trees⟩) {tree : Node}
    {path : List Step} (place : tree.climb path ∈ trees) {handle : Handle}
    (inside : handle ∈ tree.handles) : handle < arena.size := by
  rcases List.mem_map.mp inside with ⟨inner, within, same⟩
  rcases climb_mem_of_preorder place within with ⟨up, here⟩
  exact same ▸ stored.handle_lt here

/-- The links to the next sibling go through the operands in order. -/
theorem follows_next (stored : arena.Stores ⟨size, trees⟩) {handle : Handle} {kind : Kind}
    {path : List Step} (right : List Node) :
    forall left : List Node, (Node.mk handle kind (left ++ right)).climb path ∈ trees ->
      arena.Follows Cell.next (right.head?.map Node.handle) (right.map Node.handle) := by
  induction right with
  | nil => exact fun _ _ => .done
  | cons node rest ih =>
      intro left member
      have here : node.climb (⟨handle, kind, left, rest⟩ :: path) ∈ trees := by
        rw [Node.climb_operand]
        exact member
      refine .step (stored.cell?_eq node _ here) (ih (left ++ [node]) ?_)
      rw [List.append_assoc]
      exact member

/-- The links to the previous sibling go through the operands the other way
round. -/
theorem follows_previous (stored : arena.Stores ⟨size, trees⟩) {handle : Handle} {kind : Kind}
    {path : List Step} (reversed : List Node) :
    forall right : List Node,
      (Node.mk handle kind (reversed.reverse ++ right)).climb path ∈ trees ->
      arena.Follows Cell.previous (reversed.head?.map Node.handle) (reversed.map Node.handle) := by
  induction reversed with
  | nil => exact fun _ _ => .done
  | cons node rest ih =>
      intro right member
      rw [List.reverse_cons, List.append_assoc] at member
      have here : node.climb (⟨handle, kind, rest.reverse, right⟩ :: path) ∈ trees := by
        rw [Node.climb_operand]
        exact member
      have before : (node.cellAt (⟨handle, kind, rest.reverse, right⟩ :: path)).previous =
          rest.head?.map Node.handle :=
        congrArg (Option.map Node.handle) List.getLast?_reverse
      refine .step (stored.cell?_eq node _ here) ?_
      rw [before]
      exact ih (node :: right) member

/-- The operands of a node are the nodes that have it above them. -/
theorem mem_operands_iff (stored : arena.Stores ⟨size, trees⟩) {node : Node} {path : List Step}
    (member : node.climb path ∈ trees) (child : Handle) :
    child ∈ node.children.map Node.handle ↔ arena.Below child node.handle := by
  rcases node with ⟨handle, kind, children⟩
  constructor
  · intro listed
    rcases List.mem_map.mp listed with ⟨operand, isOperand, same⟩
    rcases List.append_of_mem isOperand with ⟨left, right, split⟩
    rw [Node.children_mk] at split
    have here : operand.climb (⟨handle, kind, left, right⟩ :: path) ∈ trees := by
      rw [Node.climb_operand, ← split]
      exact member
    exact ⟨_, same ▸ stored.cell?_eq operand _ here, rfl⟩
  · intro ⟨found, look, above⟩
    rcases stored.locate_cell look with ⟨operand, upward, same, here, cell⟩
    subst same cell
    cases upward with
    | nil => exact (Option.some_ne_none _ above.symm).elim
    | cons step upward =>
        -- The node above the operand has the same cell, so its operands are
        -- met along the same links.
        have sameHandle : step.handle = handle := Option.some.inj above
        have cell := stored.cell?_eq (step.fill [operand]) upward here
        have known := stored.cell?_eq (.mk handle kind children) path member
        rw [Step.handle_fill, sameHandle] at cell
        rw [Node.handle_mk, cell] at known
        have first : (children.head?).map Node.handle =
            ((step.left ++ [operand] ++ step.right).head?).map Node.handle :=
          congrArg Cell.first (Option.some.inj known).symm
        have through := stored.follows_next children [] member
        have again := stored.follows_next (step.left ++ [operand] ++ step.right) [] here
        rw [first] at through
        rw [Node.children_mk, through.unique again, List.map_append, List.map_append]
        exact List.mem_append_left _ (List.mem_append_right _ List.mem_cons_self)

/-- A chain of links upwards is a way up. -/
theorem climb_of_below (stored : arena.Stores ⟨size, trees⟩) {lower upper : Handle}
    (below : Relation.TransGen arena.Below lower upper) :
    Exists fun node : Node => Exists fun step : Step => Exists fun up : List Step =>
      Exists fun above : List Step => node.handle = lower ∧
        (node.climb (step :: up)).handle = upper ∧ node.climb (step :: up ++ above) ∈ trees := by
  induction below using Relation.TransGen.head_induction_on with
  | single first =>
      rcases first with ⟨found, look, parent⟩
      rcases stored.locate_cell look with ⟨node, path, same, member, cell⟩
      subst cell
      cases path with
      | nil => exact (Option.some_ne_none _ parent.symm).elim
      | cons step path => exact ⟨node, step, [], path, same, Option.some.inj parent, member⟩
  | head first rest ih =>
      rcases ih with ⟨node, step, up, above, same, top, member⟩
      subst same
      have listed := (stored.mem_operands_iff member _).mpr first
      rcases List.mem_map.mp listed with ⟨operand, isOperand, sameOperand⟩
      rcases node with ⟨handle, kind, children⟩
      rcases List.append_of_mem isOperand with ⟨left, right, split⟩
      rw [Node.children_mk] at split
      subst split
      refine ⟨operand, ⟨handle, kind, left, right⟩, step :: up, above, sameOperand, ?_, ?_⟩
      · rw [Node.climb_operand]
        exact top
      · rw [List.cons_append, Node.climb_operand]
        exact member

/-- The nodes along a way are one below the other by their links. -/
theorem below_along (stored : arena.Stores ⟨size, trees⟩) (path up : List Step) :
    forall node : Node, node.climb (up ++ path) ∈ trees ->
      Relation.ReflTransGen arena.Below node.handle (node.climb up).handle := by
  induction up with
  | nil => exact fun _ _ => .refl
  | cons step up ih =>
      intro node member
      exact .head ⟨_, stored.cell?_eq node _ member, rfl⟩ (ih (step.fill [node]) member)

/-- The nodes of an expression are below its root by their links. -/
theorem below_of_mem_handles (stored : arena.Stores ⟨size, trees⟩) {tree : Node}
    {path : List Step} (place : tree.climb path ∈ trees) {handle : Handle}
    (inside : handle ∈ tree.handles) : Relation.ReflTransGen arena.Below handle tree.handle := by
  rcases List.mem_map.mp inside with ⟨inner, within, same⟩
  rcases tree.climb_of_mem_preorder inner within with ⟨up, climbed⟩
  have chain := stored.below_along path up inner (by
    rw [Node.climb_append, climbed]
    exact place)
  rw [climbed, same] at chain
  exact chain

/-! ## What is known of every cell -/

/-- The links of a node to its operands. -/
theorem operands_of_cellAt (stored : arena.Stores ⟨size, trees⟩) {node : Node} {path : List Step}
    (member : node.climb path ∈ trees) :
    Exists fun operands : List Handle =>
      operands.Nodup ∧ arena.Follows Cell.next (node.cellAt path).first operands ∧
        operands.getLast? = (node.cellAt path).last ∧
        arena.Follows Cell.previous (node.cellAt path).last operands.reverse ∧
        forall child, child ∈ operands ↔ arena.Below child node.handle := by
  have mem_iff := stored.mem_operands_iff member
  rcases node with ⟨handle, kind, children⟩
  have last : (children.map Node.handle).getLast? = children.getLast?.map Node.handle :=
    List.getLast?_map
  have backwards := stored.follows_previous children.reverse [] (by
    rw [List.reverse_reverse, List.append_nil]
    exact member)
  rw [List.head?_reverse, List.map_reverse] at backwards
  refine ⟨children.map Node.handle, ?_, stored.follows_next children [] member, last, backwards,
    mem_iff⟩
  have nodup := Node.nodup_of_climb (stored.tree_nodup member)
  rw [Node.handles_mk] at nodup
  exact (Node.map_handle_sublist children).nodup (List.nodup_cons.mp nodup).2

/-- A link to an operand leads to a node of the arena. -/
theorem operand_lt (stored : arena.Stores ⟨size, trees⟩) {outer : Node} {above : List Step}
    (here : outer.climb above ∈ trees) {operand? : Option Node}
    (isOperand : forall child, operand? = some child -> child ∈ outer.children) {link : Handle}
    (isLink : operand?.map Node.handle = some link) : link < arena.size := by
  rcases Option.map_eq_some_iff.mp isLink with ⟨child, found, same⟩
  rcases climb_mem_of_child here (isOperand child found) with ⟨step, below⟩
  exact same ▸ stored.handle_lt below

theorem parent_lt (stored : arena.Stores ⟨size, trees⟩) {node : Node} {path : List Step}
    (member : node.climb path ∈ trees) {link : Handle}
    (linked : Step.parent? path = some link) : link < arena.size := by
  cases path with
  | nil => exact (Option.some_ne_none _ linked.symm).elim
  | cons step path =>
      have upper : (step.fill [node]).climb path ∈ trees := member
      exact Option.some.inj linked ▸ stored.handle_lt upper

/-- Siblings are operands of the node above. -/
theorem sibling_lt (stored : arena.Stores ⟨size, trees⟩) {node : Node} {path : List Step}
    (member : node.climb path ∈ trees) {link : Handle}
    (linked : Step.previous? path = some link ∨ Step.next? path = some link) :
    link < arena.size := by
  cases path with
  | nil => exact (linked.elim (Option.some_ne_none _).symm (Option.some_ne_none _).symm).elim
  | cons step path =>
      have upper : (step.fill [node]).climb path ∈ trees := member
      rcases linked with previous | next
      · refine stored.operand_lt upper (fun child found => ?_) previous
        exact List.mem_append_left _ (List.mem_append_left _ (List.mem_of_getLast? found))
      · refine stored.operand_lt upper (fun child found => ?_) next
        exact List.mem_append_right _ (List.mem_of_mem_head? found)

/-- An arena that stores expressions is well formed. -/
theorem wellFormed (stored : arena.Stores ⟨size, trees⟩) : arena.WellFormed where
  operands := by
    intro handle found look
    rcases stored.locate_cell look with ⟨node, path, same, member, cell⟩
    subst same cell
    exact stored.operands_of_cellAt member
  ends := by
    intro handle found look
    rcases stored.locate_cell look with ⟨node, path, _, _, cell⟩
    subst cell
    change node.children.head?.map Node.handle = none ↔
      node.children.getLast?.map Node.handle = none
    rw [Option.map_eq_none_iff, Option.map_eq_none_iff, List.head?_eq_none_iff,
      List.getLast?_eq_none_iff]
  detached := by
    intro handle found look alone
    rcases stored.locate_cell look with ⟨node, path, _, _, cell⟩
    subst cell
    cases path with
    | nil => exact ⟨rfl, rfl⟩
    | cons step path => exact (Option.some_ne_none _ alone).elim
  acyclic := by
    intro handle cycle
    rcases stored.climb_of_below cycle with ⟨node, step, up, above, bottom, top, member⟩
    refine node.handle_climb_ne step up ?_ (bottom.trans top.symm)
    have nodup := stored.tree_nodup member
    rw [Node.climb_append] at nodup
    exact Node.nodup_of_climb nodup
  bounded := by
    intro handle found look link linked
    rcases stored.locate_cell look with ⟨node, path, _, member, cell⟩
    subst cell
    rcases linked with parent | first | last | previous | next
    · exact stored.parent_lt member parent
    · exact stored.operand_lt member (fun child is => List.mem_of_mem_head? is) first
    · exact stored.operand_lt member (fun child is => List.mem_of_getLast? is) last
    · exact stored.sibling_lt member (Or.inl previous)
    · exact stored.sibling_lt member (Or.inr next)

end Stores

end Arena

end PlanningDomain
