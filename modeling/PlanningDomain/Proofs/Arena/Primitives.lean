import PlanningDomain.Proofs.Arena.Storage

namespace PlanningDomain

/-!
# Changes of stored expressions

A change mends the links of the node that it moves and of those beside and
above its place.  Which cells these are depends on whether the place is at an
end of the operands, so each case has its own lists of cells before and after.
-/

namespace Arena

variable {size : Nat} {rest : List Node}

theorem Stores.handle_ne {first second : Node} {path : List Step} {arena : Arena}
    (stored : arena.Stores ⟨size, first.climb path :: second :: rest⟩) :
    first.handle ≠ second.handle := by
  have keeps := stored.keeps_climb
  rw [List.flatMap_cons, Node.cells_eq second] at keeps
  intro same
  apply (List.nodup_cons.mp keeps.nodup).1
  rw [List.map_append]
  exact List.mem_append_right _ (List.mem_cons.mpr (Or.inl same))

/-- Work on stored expressions is work on their cells.  It gives out no handle
if it leaves as many cells as there were. -/
theorem yields_of_cells {alpha : Type} {work : Edit alpha} {result : alpha}
    {before after : List Node} (begun ended : List (Handle × Cell))
    (listed : (before.flatMap (Node.cells none none none)).Perm begun)
    (kept : (after.flatMap (Node.cells none none none)).Perm ended)
    (counted : begun.length = ended.length)
    (yields : Yields (Keeps begun) work result (Keeps ended)) :
    Yields (Stores ⟨size, before⟩) work result (Stores ⟨size, after⟩) := by
  intro arena stored
  rcases yields arena (stored.keeps.perm listed) with ⟨left, run, keeps, extended⟩
  refine ⟨left, run, ⟨keeps.perm kept.symm, ?_⟩, extended⟩
  rw [keeps.size_eq, ← counted, ← (stored.keeps.perm listed).size_eq]
  exact stored.size

/-- A node and its cell, given its links to nodes outside its expression. -/
def entry (node : Node) (parent previous next : Link) : Handle × Cell :=
  (node.handle, ⟨node.kind, parent, node.children.head?.map Node.handle,
    node.children.getLast?.map Node.handle, previous, next⟩)

/-- A node at a place and its cell, given its links to operands. -/
def holder (handle : Handle) (kind : Kind) (path : List Step) (first last : Link) : Handle × Cell :=
  (handle, ⟨kind, Step.parent? path, first, last, Step.previous? path, Step.next? path⟩)

section Links

variable (rest : List Node) (handle : Handle) (kind : Kind)

attribute [local simp] entry holder Node.cells_eq Node.cellsAll_append Node.cellsAll
  Node.cellsBelow Node.cellAt Step.fill List.perm_iff_count List.count_cons List.getLast?_cons

/-! ## The last operand of a node -/

theorem append_first_yields (child : Node) (path : List Step) :
    Yields (Stores ⟨size, (Node.mk handle kind []).climb path :: child :: rest⟩)
      (append handle child.handle) ()
      (Stores ⟨size, (Node.mk handle kind [child]).climb path :: rest⟩) := by
  refine Yields.assume _ (fun arena stored => stored.handle_ne) (fun different => ?_)
  unfold append
  apply (stored_isAttached_yields child [] (List.mem_cons_of_mem _ List.mem_cons_self)).bind
  rw [if_neg (by exact Bool.false_ne_true), if_neg (by exact different)]
  apply (stored_cell_yields (.mk handle kind []) path List.mem_cons_self).bind
  let others := child.cellsBelow ++ Step.cellsAround handle path ++
    rest.flatMap (Node.cells none none none)
  refine yields_of_cells
    (entry child none none none :: holder handle kind path none none :: others)
    (entry child (some handle) none none ::
      holder handle kind path (some child.handle) (some child.handle) :: others) ?_ ?_ rfl ?_
  · apply (Node.flatMap_cells_climb _ path _).trans
    simp [others]
    omega
  · apply (Node.flatMap_cells_climb _ path _).trans
    simp [others]
    omega
  · apply (change_yields _).bind
    exact (change_second_yields _ _).bind (change_second_yields _ _)

theorem append_further_yields (init : List Node) (tail child : Node) (path : List Step) :
    Yields (Stores ⟨size, (Node.mk handle kind (init ++ [tail])).climb path :: child :: rest⟩)
      (append handle child.handle) ()
      (Stores ⟨size, (Node.mk handle kind (init ++ [tail] ++ [child])).climb path :: rest⟩) := by
  refine Yields.assume _ (fun arena stored => stored.handle_ne) (fun different => ?_)
  unfold append
  apply (stored_isAttached_yields child [] (List.mem_cons_of_mem _ List.mem_cons_self)).bind
  rw [if_neg (by exact Bool.false_ne_true), if_neg (by exact different)]
  apply (stored_cell_yields (.mk handle kind (init ++ [tail])) path List.mem_cons_self).bind
  have last : ((Node.mk handle kind (init ++ [tail])).cellAt path).last = some tail.handle :=
    congrArg (Option.map Node.handle) List.getLast?_concat
  rw [last]
  let first := (init ++ [tail]).head?.map Node.handle
  let before := init.getLast?.map Node.handle
  let others := tail.cellsBelow ++ Node.cellsAll handle none (some tail.handle) init ++
    child.cellsBelow ++ Step.cellsAround handle path ++ rest.flatMap (Node.cells none none none)
  refine yields_of_cells
    (entry child none none none :: entry tail (some handle) before none ::
      holder handle kind path first (some tail.handle) :: others)
    (entry child (some handle) (some tail.handle) none ::
      entry tail (some handle) before (some child.handle) ::
      holder handle kind path first (some child.handle) :: others) ?_ ?_ rfl ?_
  · apply (Node.flatMap_cells_climb _ path _).trans
    simp [others, before, first]
    omega
  · apply (Node.flatMap_cells_climb _ path _).trans
    simp [others, before, first]
    omega
  · apply (change_yields _).bind
    exact (change_second_yields _ _).bind (change_third_yields _ _ _)

theorem append_yields (children : List Node) (child : Node) (path : List Step) :
    Yields (Stores ⟨size, (Node.mk handle kind children).climb path :: child :: rest⟩)
      (append handle child.handle) ()
      (Stores ⟨size, (Node.mk handle kind (children ++ [child])).climb path :: rest⟩) := by
  rcases List.eq_nil_or_concat' children with childless | ⟨init, tail, concat⟩
  · subst childless
    exact append_first_yields rest handle kind child path
  · subst concat
    exact append_further_yields rest handle kind init tail child path

/-! ## The next sibling of an operand -/

section Insert

variable (left right : List Node) (anchor next child : Node) (path : List Step)

theorem insert_last_yields :
    Yields (Stores ⟨size, (Node.mk handle kind (left ++ [anchor])).climb path :: child :: rest⟩)
      (insert anchor.handle child.handle) ()
      (Stores ⟨size, (Node.mk handle kind (left ++ [anchor, child])).climb path :: rest⟩) := by
  rw [← Node.climb_operand]
  unfold insert
  apply (stored_cell_yields anchor (⟨handle, kind, left, []⟩ :: path) List.mem_cons_self).bind
  apply (stored_isAttached_yields child [] (List.mem_cons_of_mem _ List.mem_cons_self)).bind
  rw [if_neg (by exact Bool.false_ne_true)]
  let first := (left ++ [anchor]).head?.map Node.handle
  let before := left.getLast?.map Node.handle
  let others := Node.cellsAll handle none (some anchor.handle) left ++ anchor.cellsBelow ++
    child.cellsBelow ++ Step.cellsAround handle path ++ rest.flatMap (Node.cells none none none)
  refine yields_of_cells
    (entry child none none none :: entry anchor (some handle) before none ::
      holder handle kind path first (some anchor.handle) :: others)
    (entry child (some handle) (some anchor.handle) none ::
      entry anchor (some handle) before (some child.handle) ::
      holder handle kind path first (some child.handle) :: others) ?_ ?_ rfl ?_
  · apply (Node.flatMap_cells_climb _ path _).trans
    simp [others, before, first]
    omega
  · apply (Node.flatMap_cells_climb _ path _).trans
    simp [others, before, first]
    omega
  · apply (change_yields _).bind
    exact (change_second_yields _ _).bind (change_third_yields _ _ _)

theorem insert_between_yields :
    Yields
      (Stores ⟨size, (Node.mk handle kind (left ++ anchor :: next :: right)).climb path ::
        child :: rest⟩)
      (insert anchor.handle child.handle) ()
      (Stores ⟨size, (Node.mk handle kind (left ++ anchor :: child :: next :: right)).climb path ::
        rest⟩) := by
  rw [← Node.climb_operand]
  unfold insert
  apply (stored_cell_yields anchor (⟨handle, kind, left, next :: right⟩ :: path)
    List.mem_cons_self).bind
  apply (stored_isAttached_yields child [] (List.mem_cons_of_mem _ List.mem_cons_self)).bind
  rw [if_neg (by exact Bool.false_ne_true)]
  let first := (left ++ [anchor]).head?.map Node.handle
  let last := (next :: right).getLast?.map Node.handle
  let before := left.getLast?.map Node.handle
  let after := right.head?.map Node.handle
  let others := holder handle kind path first last ::
    Node.cellsAll handle none (some anchor.handle) left ++ anchor.cellsBelow ++
    Node.cellsAll handle (some next.handle) none right ++ next.cellsBelow ++
    child.cellsBelow ++ Step.cellsAround handle path ++ rest.flatMap (Node.cells none none none)
  refine yields_of_cells
    (entry child none none none :: entry anchor (some handle) before (some next.handle) ::
      entry next (some handle) (some anchor.handle) after :: others)
    (entry child (some handle) (some anchor.handle) (some next.handle) ::
      entry anchor (some handle) before (some child.handle) ::
      entry next (some handle) (some child.handle) after :: others) ?_ ?_ rfl ?_
  · apply (Node.flatMap_cells_climb _ path _).trans
    simp [others, before, after, first, last]
    omega
  · apply (Node.flatMap_cells_climb _ path _).trans
    simp [others, before, after, first, last]
    omega
  · apply (change_yields _).bind
    exact (change_second_yields _ _).bind (change_third_yields _ _ _)

theorem insert_yields :
    Yields
      (Stores ⟨size, (Node.mk handle kind (left ++ anchor :: right)).climb path :: child :: rest⟩)
      (insert anchor.handle child.handle) ()
      (Stores ⟨size, (Node.mk handle kind (left ++ anchor :: child :: right)).climb path ::
        rest⟩) := by
  cases right with
  | nil => exact insert_last_yields rest handle kind left anchor child path
  | cons next right =>
      exact insert_between_yields rest handle kind left right anchor next child path

end Insert

/-! ## An operand that is taken out -/

section Unparent

variable (left right : List Node) (before node next : Node) (path : List Step)

theorem unparent_only_yields :
    Yields (Stores ⟨size, (Node.mk handle kind [node]).climb path :: rest⟩)
      (unparent node.handle) ()
      (Stores ⟨size, (Node.mk handle kind []).climb path :: node :: rest⟩) := by
  rw [← List.nil_append [node], ← Node.climb_operand]
  unfold unparent
  apply (stored_cell_yields node (⟨handle, kind, [], []⟩ :: path) List.mem_cons_self).bind
  let others := node.cellsBelow ++ Step.cellsAround handle path ++
    rest.flatMap (Node.cells none none none)
  refine yields_of_cells
    (entry node (some handle) none none ::
      holder handle kind path (some node.handle) (some node.handle) :: others)
    (entry node none none none :: holder handle kind path none none :: others) ?_ ?_ rfl ?_
  · apply (Node.flatMap_cells_climb _ path _).trans
    simp [others]
    omega
  · apply (Node.flatMap_cells_climb _ path _).trans
    simp [others]
    omega
  · apply (change_second_yields _ _).bind
    exact (change_second_yields _ _).bind (change_yields _)

theorem unparent_first_yields :
    Yields (Stores ⟨size, (Node.mk handle kind (node :: next :: right)).climb path :: rest⟩)
      (unparent node.handle) ()
      (Stores ⟨size, (Node.mk handle kind (next :: right)).climb path :: node :: rest⟩) := by
  rw [← List.nil_append (node :: next :: right), ← Node.climb_operand]
  unfold unparent
  apply (stored_cell_yields node (⟨handle, kind, [], next :: right⟩ :: path)
    List.mem_cons_self).bind
  let last := (next :: right).getLast?.map Node.handle
  let after := right.head?.map Node.handle
  let others := Node.cellsAll handle (some next.handle) none right ++ next.cellsBelow ++
    node.cellsBelow ++ Step.cellsAround handle path ++ rest.flatMap (Node.cells none none none)
  refine yields_of_cells
    (entry node (some handle) none (some next.handle) ::
      holder handle kind path (some node.handle) last ::
      entry next (some handle) (some node.handle) after :: others)
    (entry node none none none :: holder handle kind path (some next.handle) last ::
      entry next (some handle) none after :: others) ?_ ?_ rfl ?_
  · apply (Node.flatMap_cells_climb _ path _).trans
    simp [others, after, last]
    omega
  · apply (Node.flatMap_cells_climb _ path _).trans
    simp [others, after, last]
    omega
  · apply (change_second_yields _ _).bind
    exact (change_third_yields _ _ _).bind (change_yields _)

/-- The link to the sibling before a node. -/
theorem previous_cellAt :
    (node.cellAt (⟨handle, kind, left ++ [before], right⟩ :: path)).previous =
      some before.handle :=
  congrArg (Option.map Node.handle) List.getLast?_concat

theorem unparent_last_yields :
    Yields (Stores ⟨size, (Node.mk handle kind (left ++ [before] ++ [node])).climb path :: rest⟩)
      (unparent node.handle) ()
      (Stores ⟨size, (Node.mk handle kind (left ++ [before])).climb path :: node :: rest⟩) := by
  rw [← Node.climb_operand]
  unfold unparent
  apply (stored_cell_yields node (⟨handle, kind, left ++ [before], []⟩ :: path)
    List.mem_cons_self).bind
  rw [previous_cellAt]
  let first := (left ++ [before]).head?.map Node.handle
  let preceding := left.getLast?.map Node.handle
  let others := Node.cellsAll handle none (some before.handle) left ++ before.cellsBelow ++
    node.cellsBelow ++ Step.cellsAround handle path ++ rest.flatMap (Node.cells none none none)
  refine yields_of_cells
    (entry node (some handle) (some before.handle) none ::
      entry before (some handle) preceding (some node.handle) ::
      holder handle kind path first (some node.handle) :: others)
    (entry node none none none :: entry before (some handle) preceding none ::
      holder handle kind path first (some before.handle) :: others) ?_ ?_ rfl ?_
  · apply (Node.flatMap_cells_climb _ path _).trans
    simp [others, preceding, first]
    omega
  · apply (Node.flatMap_cells_climb _ path _).trans
    simp [others, preceding, first]
    omega
  · apply (change_second_yields _ _).bind
    exact (change_third_yields _ _ _).bind (change_yields _)

theorem unparent_between_yields :
    Yields
      (Stores ⟨size, (Node.mk handle kind (left ++ [before] ++ node :: next :: right)).climb path ::
        rest⟩)
      (unparent node.handle) ()
      (Stores ⟨size, (Node.mk handle kind (left ++ [before] ++ next :: right)).climb path ::
        node :: rest⟩) := by
  rw [← Node.climb_operand]
  unfold unparent
  apply (stored_cell_yields node (⟨handle, kind, left ++ [before], next :: right⟩ :: path)
    List.mem_cons_self).bind
  rw [previous_cellAt]
  let first := (left ++ [before]).head?.map Node.handle
  let last := (next :: right).getLast?.map Node.handle
  let preceding := left.getLast?.map Node.handle
  let after := right.head?.map Node.handle
  let others := holder handle kind path first last ::
    Node.cellsAll handle none (some before.handle) left ++ before.cellsBelow ++
    Node.cellsAll handle (some next.handle) none right ++ next.cellsBelow ++
    node.cellsBelow ++ Step.cellsAround handle path ++ rest.flatMap (Node.cells none none none)
  refine yields_of_cells
    (entry node (some handle) (some before.handle) (some next.handle) ::
      entry before (some handle) preceding (some node.handle) ::
      entry next (some handle) (some node.handle) after :: others)
    (entry node none none none :: entry before (some handle) preceding (some next.handle) ::
      entry next (some handle) (some before.handle) after :: others) ?_ ?_ rfl ?_
  · apply (Node.flatMap_cells_climb _ path _).trans
    simp [others, preceding, after, first, last]
    omega
  · apply (Node.flatMap_cells_climb _ path _).trans
    simp [others, preceding, after, first, last]
    omega
  · apply (change_second_yields _ _).bind
    exact (change_third_yields _ _ _).bind (change_yields _)

theorem unparent_yields :
    Yields (Stores ⟨size, (Node.mk handle kind (left ++ node :: right)).climb path :: rest⟩)
      (unparent node.handle) ()
      (Stores ⟨size, (Node.mk handle kind (left ++ right)).climb path :: node :: rest⟩) := by
  rcases List.eq_nil_or_concat' left with leftmost | ⟨init, before, concat⟩
  · subst leftmost
    cases right with
    | nil => exact unparent_only_yields rest handle kind node path
    | cons next right => exact unparent_first_yields rest handle kind right node next path
  · subst concat
    cases right with
    | nil =>
        rw [List.append_nil]
        exact unparent_last_yields rest handle kind init before node path
    | cons next right =>
        exact unparent_between_yields rest handle kind init right before node next path

end Unparent

end Links

/-- A node that takes its own place. -/
theorem replace_self_yields (before : Arena -> Prop) (node : Handle) :
    Yields before (replace node node) () before := by
  unfold replace
  rw [if_pos rfl]
  exact .pure ()

/-- An operand whose place is taken by a detached node. -/
theorem replace_operand_yields (rest : List Node) (handle : Handle) (kind : Kind)
    (left right : List Node)
    (old new : Node) (path : List Step) :
    Yields (Stores ⟨size, (Node.mk handle kind (left ++ old :: right)).climb path :: new :: rest⟩)
      (replace old.handle new.handle) ()
      (Stores ⟨size, (Node.mk handle kind (left ++ new :: right)).climb path :: old :: rest⟩) := by
  rw [← Node.climb_operand]
  refine Yields.assume _ (fun arena stored => stored.handle_ne) (fun different => ?_)
  unfold replace
  rw [if_neg different]
  refine (stored_isAttached_yields old (⟨handle, kind, left, right⟩ :: path)
    List.mem_cons_self).bind ?_
  rw [if_pos (by rfl), Node.climb_operand]
  exact (insert_yields rest handle kind left right old new path).bind
    (unparent_yields rest handle kind left (new :: right) old path)

/-- A detached node has no place to be taken. -/
theorem replace_detached_yields (rest : List Node) (old new : Node) :
    Yields (Stores ⟨size, old :: new :: rest⟩) (replace old.handle new.handle) ()
      (Stores ⟨size, old :: new :: rest⟩) := by
  refine Yields.assume _ (fun arena (stored : arena.Stores ⟨size, old.climb [] :: new :: rest⟩) =>
    stored.handle_ne) (fun different => ?_)
  unfold replace
  rw [if_neg different]
  apply (stored_isAttached_yields old [] List.mem_cons_self).bind
  rw [if_neg (by exact Bool.false_ne_true)]
  apply (stored_isAttached_yields new [] (List.mem_cons_of_mem _ List.mem_cons_self)).bind
  rw [if_neg (by exact Bool.false_ne_true)]
  exact .pure ()

/-- A new node stands alone beside what was stored. -/
theorem alloc_yields (kind : Kind) (trees : List Node) :
    Yields (Stores ⟨size, trees⟩) (alloc kind) size
      (Stores ⟨size + 1, .mk size kind [] :: trees⟩) := by
  intro arena stored
  have counted := stored.keeps.size_eq.symm.trans stored.size
  rcases alloc_yields_of_size size kind counted arena stored.keeps with ⟨left, run, keeps, extended⟩
  refine ⟨left, run, ⟨keeps, ?_⟩, extended⟩
  rw [keeps.size_eq, List.length_cons, counted]

end Arena

end PlanningDomain
