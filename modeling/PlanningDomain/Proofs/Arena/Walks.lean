import PlanningDomain.Arena.Walk
import PlanningDomain.Proofs.Arena.Storage
import PlanningDomain.Proofs.Nodes

namespace PlanningDomain

/-!
# Walks through stored expressions

In an arena that stores some expressions, every walk along the links comes to
an end and finds what the expressions say: the operands of a node, its whole
expression, its nodes in pre-order, and whether it is in a normal form.

The walk in pre-order has no memory of its way.  The node that it goes to after
an expression is known from the way up alone.  Its proof therefore
speaks of the whole rest of a walk, and puts the nodes of one expression in
front of it.
-/

/-! ## Handles along a way -/

namespace Step

/-- The node that follows once everything below a place is done, up to the end
of the way. -/
def following : List Step -> Link
  | [] => none
  | step :: path => (step.right.head?.map Node.handle).or (following path)

end Step

namespace Node

theorem map_fst_cells_both :
    (forall (node : Node) (parent previous next : Link),
      (node.cells parent previous next).map Prod.fst = node.handles) ∧
    forall (nodes : List Node) (parent : Handle) (previous next : Link),
      (cellsAll parent previous next nodes).map Prod.fst = nodes.flatMap handles := by
  refine induction_both ?_ (fun _ _ _ => rfl) ?_
  · intro handle kind children ih parent previous next
    rw [cells, List.map_cons, ih, handles_mk]
  · intro node rest first later parent previous next
    rw [cellsAll, List.map_append, first, later, List.flatMap_cons]

theorem map_fst_cells (node : Node) (parent previous next : Link) :
    (node.cells parent previous next).map Prod.fst = node.handles :=
  map_fst_cells_both.1 node parent previous next

/-- The handles of a whole expression, seen from one of its nodes. -/
theorem handles_climb (node : Node) (path : List Step) :
    (node.climb path).handles.Perm
      (node.handles ++ (Step.cellsAround node.handle path).map Prod.fst) := by
  have listed := (node.cells_climb path).map Prod.fst
  have below := node.cells_eq (Step.parent? path) (Step.previous? path) (Step.next? path)
  have handles := node.map_fst_cells (Step.parent? path) (Step.previous? path) (Step.next? path)
  rw [below] at handles
  rw [map_fst_cells, ← List.cons_append, List.map_append] at listed
  rw [← handles]
  exact listed

theorem handle_climb_mem_around (node : Node) (step : Step) (path : List Step) :
    (node.climb (step :: path)).handle ∈
      (Step.cellsAround node.handle (step :: path)).map Prod.fst := by
  induction path generalizing node step with
  | nil => exact List.mem_cons_self
  | cons next path ih =>
      have above := ih (step.fill [node]) next
      rw [Step.cellsAround, List.map_cons, List.map_append]
      exact List.mem_cons_of_mem _ (List.mem_append_right _ above)

/-- No node above another one has its handle. -/
theorem handle_climb_ne (node : Node) (step : Step) (path : List Step)
    (nodup : (node.climb (step :: path)).handles.Nodup) :
    node.handle ≠ (node.climb (step :: path)).handle := by
  have separate := List.nodup_append.mp ((node.handles_climb (step :: path)).nodup_iff.mp nodup)
  exact separate.2.2 _ node.handle_mem_handles _ (node.handle_climb_mem_around step path)

theorem nodup_of_climb {node : Node} {path : List Step} (nodup : (node.climb path).handles.Nodup) :
    node.handles.Nodup :=
  (List.nodup_append.mp ((node.handles_climb path).nodup_iff.mp nodup)).1

/-- There is a way up from every node of an expression. -/
theorem climb_of_mem_preorder (node : Node) :
    forall inner, inner ∈ node.preorder -> Exists fun up : List Step => inner.climb up = node := by
  induction node using Node.induction with
  | step handle kind children ih =>
      intro inner member
      rw [preorder, preorderAll_eq_flatMap] at member
      rcases List.mem_cons.mp member with same | below
      · exact ⟨[], same⟩
      · rcases List.mem_flatMap.mp below with ⟨child, isChild, within⟩
        rcases ih child isChild inner within with ⟨up, climbed⟩
        rcases List.append_of_mem isChild with ⟨left, right, split⟩
        refine ⟨up ++ [⟨handle, kind, left, right⟩], ?_⟩
        rw [climb_append, climbed, climb_operand, split]
        rfl

end Node

namespace Arena

open Handle Link

variable {size : Nat} {trees : List Node}

namespace Stores

variable {arena : Arena}

/-- Every handle that was given out stands for one node. -/
theorem handles_perm (stored : arena.Stores ⟨size, trees⟩) :
    (trees.flatMap Node.handles).Perm (List.range size) := by
  have handles := stored.keeps.handles
  rw [stored.size, Forest.cells, List.map_flatMap] at handles
  have each : (fun tree : Node => (tree.cells none none none).map Prod.fst) = Node.handles := by
    funext tree
    exact tree.map_fst_cells none none none
  rw [each] at handles
  exact handles

theorem handles_nodup (stored : arena.Stores ⟨size, trees⟩) : (trees.flatMap Node.handles).Nodup :=
  stored.handles_perm.nodup_iff.mpr List.nodup_range

/-- Expressions that are stored side by side have different handles. -/
theorem top_nodup (stored : arena.Stores ⟨size, trees⟩) {some : List Node}
    (among : some.Sublist trees) : (some.map Node.handle).Nodup := by
  have tops := Node.map_handle_sublist trees
  exact ((among.map Node.handle).trans tops).nodup stored.handles_nodup

theorem tree_nodup (stored : arena.Stores ⟨size, trees⟩) {tree : Node} (member : tree ∈ trees) :
    tree.handles.Nodup := by
  rcases List.append_of_mem member with ⟨before, after, split⟩
  have nodup := stored.handles_nodup
  rw [split, List.flatMap_append, List.flatMap_cons] at nodup
  exact (List.nodup_append.mp (List.nodup_append.mp nodup).2.1).1

end Stores

variable {node : Node} {path : List Step}

/-! ## Operands -/

/-- The siblings from an operand on are the operands from there on. -/
theorem siblingsFrom_yields (handle : Handle) (kind : Kind) (left right : List Node)
    (member : (Node.mk handle kind (left ++ right)).climb path ∈ trees) :
    Yields (Stores ⟨size, trees⟩) (siblingsFrom (right.head?.map Node.handle))
      (right.map Node.handle) (Stores ⟨size, trees⟩) := by
  induction right generalizing left with
  | nil =>
      change Yields _ (siblingsFrom none) _ _
      rw [siblingsFrom]
      exact .pure []
  | cons node rest ih =>
      change Yields _ (siblingsFrom (some node.handle)) _ _
      rw [siblingsFrom]
      have here : node.climb (⟨handle, kind, left, rest⟩ :: path) ∈ trees := by
        rw [Node.climb_operand]
        exact member
      have after := ih (left ++ [node]) (by rw [List.append_assoc]; exact member)
      exact (stored_cell_yields node _ here).bind (after.bind (.pure _))

theorem operands_yields (node : Node) (path : List Step) (member : node.climb path ∈ trees) :
    Yields (Stores ⟨size, trees⟩) (operands node.handle) (node.children.map Node.handle)
      (Stores ⟨size, trees⟩) := by
  apply (stored_cell_yields _ _ member).bind
  rcases node with ⟨handle, kind, children⟩
  exact siblingsFrom_yields handle kind [] children member

/-- A stored expression is read back. -/
theorem expression_yields (node : Node) :
    forall path, node.climb path ∈ trees ->
      Yields (Stores ⟨size, trees⟩) (expression node.handle) node (Stores ⟨size, trees⟩) := by
  induction node using Node.induction with
  | step handle kind children ih =>
      intro path member
      have all : forall (right left : List Node), left ++ right = children ->
          Yields (Stores ⟨size, trees⟩) (expressionsFrom (right.head?.map Node.handle)) right
            (Stores ⟨size, trees⟩) := by
        intro right
        induction right with
        | nil =>
            intro left _
            change Yields _ (expressionsFrom none) _ _
            rw [expressionsFrom]
            exact .pure []
        | cons child rest onRest =>
            intro left split
            have here : child.climb (⟨handle, kind, left, rest⟩ :: path) ∈ trees := by
              rw [Node.climb_operand, split]
              exact member
            have isChild : child ∈ children := by
              rw [← split]
              exact List.mem_append_right _ List.mem_cons_self
            change Yields _ (expressionsFrom (some child.handle)) _ _
            rw [expressionsFrom]
            have after := onRest (left ++ [child]) (by rw [List.append_assoc]; exact split)
            refine (ih child isChild _ here).bind ((stored_cell_yields child _ here).bind ?_)
            exact after.bind (.pure _)
      rw [Node.handle_mk, expression]
      apply (stored_cell_yields (.mk handle kind children) path member).bind
      exact (all children [] rfl).bind (.pure _)

/-! ## Pre-order -/

/-- The climb from a node stops at the bound. -/
theorem nextAbove_yields (node : Node) (up above : List Step)
    (member : node.climb (up ++ above) ∈ trees) :
    Yields (Stores ⟨size, trees⟩) (nextAbove (node.climb up).handle node.handle)
      (Step.following up) (Stores ⟨size, trees⟩) := by
  induction up generalizing node with
  | nil =>
      rw [nextAbove, Node.climb_nil, if_pos rfl]
      exact .pure none
  | cons step up ih =>
      refine Yields.assume (node.handle ≠ (node.climb (step :: up)).handle)
        (fun arena stored => ?_) (fun different => ?_)
      · apply node.handle_climb_ne step up
        have nodup := stored.tree_nodup member
        rw [Node.climb_append] at nodup
        exact Node.nodup_of_climb nodup
      · rw [nextAbove, if_neg different]
        apply (stored_cell_yields _ _ member).bind
        change Yields _ (match step.right.head?.map Node.handle, some step.handle with
          | some sibling, _ => Pure.pure (some sibling)
          | none, some parent => nextAbove _ parent
          | none, none => Pure.pure none) ((step.right.head?.map Node.handle).or _) _
        cases step.right.head? with
        | some sibling => exact .pure _
        | none => exact ih (step.fill [node]) member

theorem preorderNext_yields {root : Handle} (node : Node) (up above : List Step)
    (rooted : (node.climb up).handle = root) (member : node.climb (up ++ above) ∈ trees) :
    Yields (Stores ⟨size, trees⟩) (preorderNext root node.handle)
      ((node.children.head?.map Node.handle).or (Step.following up)) (Stores ⟨size, trees⟩) := by
  subst rooted
  apply (stored_cell_yields _ _ member).bind
  rcases node with ⟨handle, kind, children⟩
  cases children with
  | nil => exact nextAbove_yields (.mk handle kind []) up above member
  | cons child rest => exact .pure (some child.handle)

/-- The walk from a node on goes through its expression first. -/
theorem preorderFrom_yields (node : Node) :
    forall (up above : List Step) (remaining : List Handle), node.climb (up ++ above) ∈ trees ->
      Yields (Stores ⟨size, trees⟩) (preorderFrom (node.climb up).handle (Step.following up))
        remaining (Stores ⟨size, trees⟩) ->
      Yields (Stores ⟨size, trees⟩) (preorderFrom (node.climb up).handle (some node.handle))
        (node.handles ++ remaining) (Stores ⟨size, trees⟩) := by
  induction node using Node.induction with
  | step handle kind children ih =>
      intro up above remaining member continued
      have all : forall (right left : List Node), left ++ right = children ->
          Yields (Stores ⟨size, trees⟩)
            (preorderFrom ((Node.mk handle kind children).climb up).handle
              ((right.head?.map Node.handle).or (Step.following up)))
            (right.flatMap Node.handles ++ remaining) (Stores ⟨size, trees⟩) := by
        intro right
        induction right with
        | nil => exact fun _ _ => continued
        | cons child rest onRest =>
            intro left split
            have climbed (more : List Step) :
                child.climb (⟨handle, kind, left, rest⟩ :: more) =
                  (Node.mk handle kind children).climb more := by
              rw [Node.climb_operand, split]
            have isChild : child ∈ children := by
              rw [← split]
              exact List.mem_append_right _ List.mem_cons_self
            have afterwards := onRest (left ++ [child]) (by rw [List.append_assoc]; exact split)
            have walked := ih child isChild (⟨handle, kind, left, rest⟩ :: up) above
              (rest.flatMap Node.handles ++ remaining)
              (by rw [List.cons_append, climbed]; exact member)
              (by rw [climbed]; exact afterwards)
            rw [climbed] at walked
            rw [List.flatMap_cons, List.append_assoc]
            exact walked
      rw [Node.handle_mk, preorderFrom, Node.handles_mk]
      apply (preorderNext_yields (.mk handle kind children) up above rfl member).bind
      exact (all children [] rfl).bind (.pure _)

theorem preorder_yields (member : node.climb path ∈ trees) :
    Yields (Stores ⟨size, trees⟩) (preorder node.handle) node.handles (Stores ⟨size, trees⟩) := by
  have ended : Yields (Stores ⟨size, trees⟩) (preorderFrom node.handle none) []
      (Stores ⟨size, trees⟩) := by
    rw [preorderFrom]
    exact .pure []
  have walked := preorderFrom_yields node [] path [] member ended
  rw [List.append_nil] at walked
  exact walked

/-! ## Normal forms -/

/-- A test of several nodes. -/
theorem allM_yields {before : Arena -> Prop} (check : Handle -> Edit Bool) (test : Node -> Bool)
    (nodes : List Node)
    (each : forall node, node ∈ nodes -> Yields before (check node.handle) (test node) before) :
    Yields before ((nodes.map Node.handle).allM check) (nodes.all test) before := by
  induction nodes with
  | nil => exact .pure true
  | cons node rest ih =>
      rw [List.map_cons, List.allM, List.all_cons]
      apply (each node List.mem_cons_self).bind
      cases test node with
      | false => exact .pure false
      | true => exact ih (fun other member => each other (List.mem_cons_of_mem _ member))

theorem isLiteral_yields (member : node.climb path ∈ trees) :
    Yields (Stores ⟨size, trees⟩) (isLiteral node.handle) node.isLiteral
      (Stores ⟨size, trees⟩) := by
  apply (stored_cell_yields _ _ member).bind
  rcases node with ⟨handle, kind, children⟩
  cases kind with
  | not =>
      cases children with
      | nil => exact .pure true
      | cons operand others =>
          have here : operand.climb (⟨handle, .not, [], others⟩ :: path) ∈ trees := by
            rw [Node.climb_operand]
            exact member
          exact (stored_kind_yields _ _ here).bind (.pure _)
  | connective symbol => exact .pure false
  | comparison symbol => exact .pure true
  | arithmetic symbol => exact .pure true
  | var name => exact .pure true
  | func name => exact .pure true
  | literal value => exact .pure true

/-- There is a way up from every node of a stored expression. -/
theorem climb_mem_of_preorder (member : node.climb path ∈ trees) {inner : Node}
    (within : inner ∈ node.preorder) :
    Exists fun up : List Step => inner.climb (up ++ path) ∈ trees := by
  rcases node.climb_of_mem_preorder inner within with ⟨up, climbed⟩
  refine ⟨up, ?_⟩
  rw [Node.climb_append, climbed]
  exact member

theorem climb_mem_of_child (member : node.climb path ∈ trees) {child : Node}
    (isChild : child ∈ node.children) :
    Exists fun step : Step => child.climb (step :: path) ∈ trees := by
  rcases node with ⟨handle, kind, children⟩
  rcases List.append_of_mem isChild with ⟨left, right, split⟩
  refine ⟨⟨handle, kind, left, right⟩, ?_⟩
  rw [Node.climb_operand, ← split]
  exact member

theorem isNnf_yields (member : node.climb path ∈ trees) :
    Yields (Stores ⟨size, trees⟩) (isNnf node.handle) node.isNnf (Stores ⟨size, trees⟩) := by
  refine (preorder_yields member).bind (allM_yields _ _ node.preorder (fun inner within => ?_))
  rcases climb_mem_of_preorder member within with ⟨up, here⟩
  apply (stored_kind_yields _ _ here).bind
  by_cases negation : inner.kind = .not
  · rw [if_pos negation, negation]
    exact isLiteral_yields here
  · rw [if_neg negation, (bne_iff_ne.mpr negation : (inner.kind != .not) = true)]
    exact .pure true

theorem isFlat_yields (member : node.climb path ∈ trees) :
    Yields (Stores ⟨size, trees⟩) (isFlat node.handle) node.isFlat (Stores ⟨size, trees⟩) := by
  refine (preorder_yields member).bind (allM_yields _ _ node.preorder (fun inner within => ?_))
  rcases climb_mem_of_preorder member within with ⟨up, here⟩
  apply (stored_kind_yields _ _ here).bind
  unfold Node.isMerged
  cases inner.kind.isAssociative with
  | false => exact .pure true
  | true =>
      refine (operands_yields _ _ here).bind
        (allM_yields _ _ inner.children (fun child isChild => ?_))
      rcases climb_mem_of_child here isChild with ⟨step, below⟩
      exact (stored_kind_yields _ _ below).bind (.pure _)

theorem isDnf_yields (member : node.climb path ∈ trees) :
    Yields (Stores ⟨size, trees⟩) (isDnf node.handle) node.isDnf (Stores ⟨size, trees⟩) := by
  apply (stored_kind_yields _ _ member).bind
  unfold Node.isDnf
  by_cases disjunction : node.kind = .or
  · rw [if_pos disjunction, beq_iff_eq.mpr disjunction, Bool.true_and]
    refine (operands_yields _ _ member).bind
      (allM_yields _ _ node.children (fun clause isClause => ?_))
    rcases climb_mem_of_child member isClause with ⟨step, here⟩
    apply (stored_kind_yields _ _ here).bind
    by_cases conjunction : clause.kind = .and
    · rw [if_pos conjunction, beq_iff_eq.mpr conjunction, Bool.true_and]
      refine (operands_yields _ _ here).bind
        (allM_yields _ _ clause.children (fun literal within => ?_))
      rcases climb_mem_of_child here within with ⟨lower, below⟩
      exact isLiteral_yields below
    · rw [if_neg conjunction, beq_eq_false_iff_ne.mpr conjunction]
      exact .pure false
  · rw [if_neg disjunction, beq_eq_false_iff_ne.mpr disjunction]
    exact .pure false

end Arena

end PlanningDomain
