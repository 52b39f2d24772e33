import PlanningDomain.Proofs.Merging

namespace PlanningDomain

/-!
# The walk in pre-order is exact

A walk in pre-order has no memory of its way.  It is described here without the walk:
by the operands of each node, a node comes first, and after it come its operands,
each with all that is below it.  The walk follows this list step by step, and has
nowhere to go after the last node, whatever stands beside or above its root.

What is asked of every node on the walk is therefore asked of every node below the
root.
-/

namespace Node

/-! ## The node that comes next -/

theorem head?_handles (node : Node) : node.handles.head? = some node.handle := by
  cases node
  rw [handles_mk]
  rfl

theorem head?_flatMap_handles (nodes : List Node) :
    (nodes.flatMap handles).head? = nodes.head?.map handle := by
  cases nodes with
  | nil => rfl
  | cons node rest =>
      rw [List.flatMap_cons, List.head?_append, head?_handles]
      rfl

/-- The nodes of an expression stand side by side among those of the expression around
it, and the first one behind them is the one that follows in the walk. -/
theorem handles_climb_eq (up : List Step) : forall node : Node,
    Exists fun before : List Handle => Exists fun after : List Handle =>
      (node.climb up).handles = before ++ node.handles ++ after ∧
        after.head? = Step.following up := by
  induction up with
  | nil =>
      intro node
      refine ⟨[], [], ?_, rfl⟩
      rw [climb_nil, List.nil_append, List.append_nil]
  | cons step up ih =>
      intro node
      rcases ih (step.fill [node]) with ⟨before, after, split, next⟩
      have filled : (step.fill [node]).handles = step.handle :: step.left.flatMap handles ++
          node.handles ++ step.right.flatMap handles := by
        rw [Step.fill, handles_mk, List.flatMap_append, List.flatMap_append,
          List.flatMap_singleton]
        rfl
      refine ⟨before ++ step.handle :: step.left.flatMap handles,
        step.right.flatMap handles ++ after, ?_, ?_⟩
      · rw [climb_cons, split, filled]
        simp only [List.append_assoc]
      · rw [List.head?_append, head?_flatMap_handles, next]
        rfl

/-- The node behind another one on a walk is its first operand, or else the one that
follows once everything below it is done. -/
theorem getElem?_succ_handles {node : Node} {up : List Step}
    (distinct : (node.climb up).handles.Nodup) {place : Nat}
    (found : (node.climb up).handles[place]? = some node.handle) :
    (node.climb up).handles[place + 1]? =
      (node.children.head?.map handle).or (Step.following up) := by
  rcases handles_climb_eq up node with ⟨before, after, split, next⟩
  rcases node with ⟨top, kind, children⟩
  rw [handles_mk, List.append_assoc, List.cons_append] at split
  rw [split] at distinct found ⊢
  -- No handle stands in two places of the walk, so the place is known.
  have isHere : place = before.length := by
    rcases List.getElem?_eq_some_iff.mp found with ⟨bound, same⟩
    have within : before.length <
        (before ++ top :: (children.flatMap handles ++ after)).length := by simp
    have here : (before ++ top :: (children.flatMap handles ++ after))[before.length] = top := by
      simp
    exact distinct.getElem_inj_iff.mp (same.trans here.symm)
  have behind : before.length + 1 - before.length = 0 + 1 := Nat.add_sub_cancel_left _ _
  rw [isHere, List.getElem?_append_right (Nat.le_succ _), behind, List.getElem?_cons_succ,
    ← List.head?_eq_getElem?, List.head?_append, head?_flatMap_handles, next, children_mk]

/-! ## Normal forms, node by node -/

theorem isNnf_iff (node : Node) :
    node.isNnf = true ↔ forall inner, inner ∈ node.preorder -> inner.kind = .not ->
      forall operand others, inner.children = operand :: others ->
        operand.kind.isLogical = false := by
  rw [isNnf, List.all_eq_true]
  refine forall_congr' (fun inner => imp_congr Iff.rfl ?_)
  rw [Bool.or_eq_true, bne_iff_ne, ne_eq, ← imp_iff_not_or]
  refine imp_congr_right (fun negation => ?_)
  rcases inner with ⟨handle, kind, children⟩
  rw [kind_mk] at negation
  subst negation
  cases children with
  | nil => simp [isLiteral]
  | cons operand others => simp [isLiteral]

theorem isFlat_iff (node : Node) :
    node.isFlat = true ↔ forall inner, inner ∈ node.preorder ->
      inner.kind.isAssociative = true ->
        forall child, child ∈ inner.children -> child.kind ≠ inner.kind := by
  rw [isFlat, List.all_eq_true]
  refine forall_congr' (fun inner => imp_congr Iff.rfl ?_)
  rw [isMerged]
  cases inner.kind.isAssociative <;> simp

end Node

namespace Arena

variable {arena : Arena} {size : Nat} {trees : List Node}

/-! ## Depth first -/

/-- A list of nodes goes depth first from one of them: through the node, and then
through each of its operands in turn, with all that is below it. -/
inductive DepthFirst (arena : Arena) : Handle -> List Handle -> Prop
  | node {handle operands walks} :
      arena.Lists handle operands ->
      List.Forall₂ (DepthFirst arena) operands walks ->
      DepthFirst arena handle (handle :: walks.flatten)

theorem Stores.depthFirst (stored : arena.Stores ⟨size, trees⟩) (tree : Node) :
    forall path, tree.climb path ∈ trees -> arena.DepthFirst tree.handle tree.handles := by
  induction tree using Node.induction with
  | step handle kind children ih =>
      intro path member
      have walks : List.Forall₂ arena.DepthFirst (children.map Node.handle)
          (children.map Node.handles) := by
        rw [List.forall₂_map_left_iff, List.forall₂_map_right_iff, List.forall₂_same]
        intro child isChild
        rcases climb_mem_of_child member isChild with ⟨step, below⟩
        exact ih child isChild _ below
      rw [Node.handles_mk, List.flatMap_def]
      exact .node (stored.lists member) walks

/-- The nodes of an expression are those from which the links lead up to its root. -/
theorem Stores.mem_handles_iff (stored : arena.Stores ⟨size, trees⟩) {tree : Node}
    {path : List Step} (member : tree.climb path ∈ trees) (handle : Handle) :
    handle ∈ tree.handles ↔ Relation.ReflTransGen arena.Below handle tree.handle := by
  refine ⟨stored.below_of_mem_handles member, fun chain => ?_⟩
  induction chain using Relation.ReflTransGen.head_induction_on with
  | refl => exact tree.handle_mem_handles
  | head below _ inside =>
      rcases List.mem_map.mp inside with ⟨inner, within, same⟩
      rcases climb_mem_of_preorder member within with ⟨up, here⟩
      rw [← same] at below
      exact Node.operand_mem_handles within ((stored.mem_operands_iff here _).mpr below)

/-! ## Conditions on single nodes -/

/-- The first operand of the node is not logical if the node is a negation. -/
def NegatesAtom (arena : Arena) (node : Handle) : Prop :=
  arena.IsOf node .not -> forall operand others, arena.Lists node (operand :: others) ->
    forall kind, arena.IsOf operand kind -> kind.isLogical = false

/-- No operand of the node is of its kind if the node is a connective. -/
def StaysApart (arena : Arena) (node : Handle) : Prop :=
  forall kind, arena.IsOf node kind -> kind.isAssociative = true ->
    forall operands, arena.Lists node operands ->
      forall operand, operand ∈ operands -> ¬ arena.IsOf operand kind

namespace Stores

theorem negatesAtom_iff (stored : arena.Stores ⟨size, trees⟩) {node : Node} {path : List Step}
    (member : node.climb path ∈ trees) :
    arena.NegatesAtom node.handle ↔ (node.kind = .not ->
      forall operand others, node.children = operand :: others ->
        operand.kind.isLogical = false) := by
  have isHere := stored.isOf member
  have lists := stored.lists member
  constructor
  · intro atoms negation operand others split
    rw [negation] at isHere
    rw [split, List.map_cons] at lists
    rcases climb_mem_of_child member (split ▸ List.mem_cons_self) with ⟨step, below⟩
    exact atoms isHere _ _ lists _ (stored.isOf below)
  · intro atoms isNot operand others listed kind isKind
    rcases List.map_eq_cons_iff.mp (lists.unique listed) with ⟨child, rest, split, same, _⟩
    rcases climb_mem_of_child member (split ▸ List.mem_cons_self) with ⟨step, below⟩
    rw [← same] at isKind
    rw [isKind.unique (stored.isOf below)]
    exact atoms (isHere.unique isNot) child rest split

theorem staysApart_iff (stored : arena.Stores ⟨size, trees⟩) {node : Node} {path : List Step}
    (member : node.climb path ∈ trees) :
    arena.StaysApart node.handle ↔ (node.kind.isAssociative = true ->
      forall child, child ∈ node.children -> child.kind ≠ node.kind) := by
  have isHere := stored.isOf member
  have lists := stored.lists member
  constructor
  · intro apart associative child isChild same
    rcases climb_mem_of_child member isChild with ⟨step, below⟩
    exact apart _ isHere associative _ lists _ (List.mem_map_of_mem isChild)
      (same ▸ stored.isOf below)
  · intro apart kind isKind associative operands listed operand isOperand isSame
    rw [isKind.unique isHere] at associative isSame
    rw [listed.unique lists] at isOperand
    rcases List.mem_map.mp isOperand with ⟨child, isChild, same⟩
    rcases climb_mem_of_child member isChild with ⟨step, below⟩
    rw [← same] at isSame
    exact apart associative child isChild ((stored.isOf below).unique isSame)

end Stores

/-- A condition on all nodes of an expression is one on all nodes of a walk. -/
theorem forall_mem_handles_iff {tree : Node} {path : List Step} (member : tree.climb path ∈ trees)
    {good : Node -> Prop} {holds : Handle -> Prop}
    (same : forall inner up, inner.climb up ∈ trees -> (holds inner.handle ↔ good inner)) :
    (forall inner, inner ∈ tree.preorder -> good inner) ↔
      forall node, node ∈ tree.handles -> holds node := by
  rw [Node.handles, List.forall_mem_map]
  refine forall_congr' (fun inner => forall_congr' (fun within => ?_))
  rcases climb_mem_of_preorder member within with ⟨up, here⟩
  exact (same inner _ here).symm

/-- From every node of a well-formed arena, the walk in pre-order comes to an end.  It
goes depth first through the nodes that are not outside the expression of the node,
each once, and from each of them to the next one on the list, with none after the
last.  The tests for negation normal form and for flat expressions say whether
their conditions hold of every node on the walk. -/
theorem preorder_walks {arena : Arena} (wellFormed : arena.WellFormed) {root : Handle}
    (bound : root < arena.size) :
    Exists fun walk : List Handle =>
      root.preorder.run.run arena = some (.ok walk, arena) ∧
      walk.head? = some root ∧
      (forall place node, walk[place]? = some node ->
        (root.preorderNext node).run.run arena = some (.ok walk[place + 1]?, arena)) ∧
      arena.DepthFirst root walk ∧ walk.Nodup ∧
      (forall node, node ∈ walk ↔ Relation.ReflTransGen arena.Below node root) ∧
      (Exists fun answer : Bool => root.isNnf.run.run arena = some (.ok answer, arena) ∧
        (answer = true ↔ forall node, node ∈ walk -> arena.NegatesAtom node)) ∧
      Exists fun answer : Bool => root.isFlat.run.run arena = some (.ok answer, arena) ∧
        (answer = true ↔ forall node, node ∈ walk -> arena.StaysApart node) := by
  rcases wellFormed.exists_place bound with ⟨tree, path, rest, same, stored⟩
  subst same
  have member : tree.climb path ∈ tree.climb path :: rest := List.mem_cons_self
  have distinct := Node.nodup_of_climb (stored.tree_nodup member)
  refine ⟨tree.handles, run_eq_of_yields stored (preorder_yields member), tree.head?_handles,
    fun place node found => ?_, stored.depthFirst tree path member, distinct,
    stored.mem_handles_iff member,
    ⟨tree.isNnf, run_eq_of_yields stored (isNnf_yields member), ?_⟩,
    tree.isFlat, run_eq_of_yields stored (isFlat_yields member), ?_⟩
  · rcases List.mem_map.mp (List.mem_of_getElem? found) with ⟨inner, within, same⟩
    rcases tree.climb_of_mem_preorder inner within with ⟨up, climbed⟩
    subst same climbed
    rw [Node.getElem?_succ_handles distinct found]
    refine run_eq_of_yields stored (preorderNext_yields inner up path rfl ?_)
    rw [Node.climb_append]
    exact member
  · rw [Node.isNnf_iff]
    exact forall_mem_handles_iff member (fun _ _ here => stored.negatesAtom_iff here)
  · rw [Node.isFlat_iff]
    exact forall_mem_handles_iff member (fun _ _ here => stored.staysApart_iff here)

/-- A conjunction beside a variable, below a disjunction.  The walk ends at the last node
below the conjunction.  One operand of it is a conjunction again. -/
theorem preorder_walks_operand :
    let first : Kind := .var ⟨0, 1⟩
    let second : Kind := .var ⟨2, 3⟩
    let arena : Arena := ⟨#[⟨.or, none, some 1, some 6, none, none⟩,
      ⟨.and, some 0, some 2, some 4, none, some 6⟩, ⟨.not, some 1, some 3, some 3, none, some 4⟩,
      ⟨first, some 2, none, none, none, none⟩, ⟨.and, some 1, some 5, some 5, some 2, none⟩,
      ⟨second, some 4, none, none, none, none⟩, ⟨second, some 0, none, none, some 1, none⟩]⟩
    arena.DepthFirst 1 [1, 2, 3, 4, 5] ∧
      (Handle.preorderNext 1 3).run.run arena = some (.ok (some 4), arena) ∧
      (Handle.preorderNext 1 5).run.run arena = some (.ok none, arena) ∧
      (forall node, node ∈ [1, 2, 3, 4, 5] -> arena.NegatesAtom node) ∧
      ¬ forall node, node ∈ [1, 2, 3, 4, 5] -> arena.StaysApart node := by
  intro first second arena
  let tree : Node := .mk 1 .and [.mk 2 .not [.mk 3 first []], .mk 4 .and [.mk 5 second []]]
  have stored : arena.Stores ⟨7, [.mk 0 .or [tree, .mk 6 second []]]⟩ :=
    ⟨⟨by decide, by decide⟩, rfl⟩
  have place : tree.climb [⟨0, .or, [], [.mk 6 second []]⟩] ∈
      [.mk 0 .or [tree, .mk 6 second []]] := List.mem_cons_self
  rcases preorder_walks stored.wellFormed (by decide : 1 < arena.size) with
    ⟨walk, run, _, next, depthFirst, _, _, ⟨nnf, nnfRun, nnfIff⟩, flat, flatRun, flatIff⟩
  have isWalk : walk = [1, 2, 3, 4, 5] :=
    result_unique run (run_eq_of_yields stored (preorder_yields place))
  have isNnf : nnf = true := result_unique nnfRun (run_eq_of_yields stored (isNnf_yields place))
  have isFlat : flat = false :=
    result_unique flatRun (run_eq_of_yields stored (isFlat_yields place))
  subst isWalk isNnf isFlat
  exact ⟨depthFirst, next 2 3 rfl, next 4 5 rfl, nnfIff.mp rfl,
    fun apart => Bool.false_ne_true (flatIff.mpr apart)⟩

end Arena

end PlanningDomain
