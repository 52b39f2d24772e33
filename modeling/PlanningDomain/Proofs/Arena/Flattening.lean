import PlanningDomain.Arena.Conversion
import PlanningDomain.Proofs.Arena.Primitives
import PlanningDomain.Proofs.Arena.Walks
import PlanningDomain.Proofs.Term.NormalForms

namespace PlanningDomain

/-!
# Merging connectives in place

The conversion in an arena merges the operands of one node at a time, from the
top of an expression to its leaves.  When it comes to a node, the operands of
that node are spliced: every operand of the same kind is replaced by its own
operands, to any depth, but nothing below the operands that remain is merged
yet.  Splicing first and merging the operands afterwards gives the same
expression as merging does.

The loops over operands and the walk in pre-order go on after a node with
whatever follows it.  Their proofs therefore say what is known of a loop from
some node on, given what is known of the same loop from the node that follows
once this one is merged.
-/

namespace Node

mutual

/-- What stands for an operand of a node of the given kind once the operands
of that node are spliced. -/
def spliceInto (outer : Kind) : Node -> List Node
  | mk handle kind children =>
      if outer.absorbs kind then spliceAll outer children else [mk handle kind children]

def spliceAll (outer : Kind) : List Node -> List Node
  | [] => []
  | node :: rest => node.spliceInto outer ++ spliceAll outer rest

end

mutual

/-- The nodes that are left over when an operand is spliced. -/
def spliceShells (outer : Kind) : Node -> List Node
  | mk handle kind children =>
      if outer.absorbs kind then mk handle kind [] :: spliceShellsAll outer children else []

def spliceShellsAll (outer : Kind) : List Node -> List Node
  | [] => []
  | node :: rest => node.spliceShells outer ++ spliceShellsAll outer rest

end

/-! ## Splicing and merging -/

section Splicing

variable {outer : Kind}

theorem spliceAll_of_not_associative (notAssociative : ¬ outer.isAssociative = true)
    (nodes : List Node) : spliceAll outer nodes = nodes ∧ spliceShellsAll outer nodes = [] := by
  induction nodes with
  | nil => exact ⟨rfl, rfl⟩
  | cons node rest ih =>
      rcases node with ⟨handle, kind, children⟩
      have kept : ¬ outer.absorbs kind = true :=
        fun absorbed => notAssociative ((Kind.absorbs_iff outer kind).mp absorbed).1
      rw [spliceAll, spliceInto, if_neg kept, ih.1, spliceShellsAll, spliceShells, if_neg kept,
        ih.2]
      exact ⟨rfl, rfl⟩

/-- Merging is splicing, with the operands that remain merged in turn. -/
theorem merge_eq :
    (forall node : Node, node.mergeInto outer = (node.spliceInto outer).map flatten) ∧
      forall nodes : List Node, mergeAll outer nodes = (spliceAll outer nodes).map flatten := by
  refine induction_both ?_ rfl ?_
  · intro handle kind children ih
    rw [mergeInto, spliceInto]
    by_cases absorbed : outer.absorbs kind = true
    · rw [if_pos absorbed, if_pos absorbed, ((Kind.absorbs_iff outer kind).mp absorbed).2]
      exact ih
    · rw [if_neg absorbed, if_neg absorbed]
      rfl
  · intro node rest first later
    rw [mergeAll, spliceAll, List.map_append, first, later]

theorem shells_perm :
    (forall node : Node, (node.shellsInto outer).Perm
      (node.spliceShells outer ++ (node.spliceInto outer).flatMap shells)) ∧
    forall nodes : List Node, (shellsAll outer nodes).Perm
      (spliceShellsAll outer nodes ++ (spliceAll outer nodes).flatMap shells) := by
  refine induction_both ?_ (List.Perm.refl _) ?_
  · intro handle kind children ih
    rw [shellsInto, spliceShells, spliceInto]
    by_cases absorbed : outer.absorbs kind = true
    · rw [if_pos absorbed, if_pos absorbed, if_pos absorbed,
        ((Kind.absorbs_iff outer kind).mp absorbed).2]
      exact ih.cons _
    · rw [if_neg absorbed, if_neg absorbed, if_neg absorbed]
      exact List.Perm.of_eq (List.append_nil _).symm
  · intro node rest first later
    rw [shellsAll, spliceShellsAll, spliceAll, List.flatMap_append]
    apply (first.append later).trans
    rw [List.append_assoc, List.append_assoc]
    exact List.Perm.append_left _ (List.perm_append_comm_assoc _ _ _)

/-- No node that remains after splicing is larger than the operand that it
comes from. -/
theorem size_le_of_mem_splice :
    (forall (node : Node) (inner : Node),
      inner ∈ node.spliceInto outer -> inner.size ≤ node.size) ∧
    forall (nodes : List Node) (inner : Node), inner ∈ spliceAll outer nodes ->
      Exists fun node : Node => node ∈ nodes ∧ inner.size ≤ node.size := by
  refine induction_both ?_ (fun _ impossible => (List.not_mem_nil impossible).elim) ?_
  · intro handle kind children ih inner member
    rw [spliceInto] at member
    by_cases absorbed : outer.absorbs kind = true
    · rw [if_pos absorbed] at member
      rcases ih inner member with ⟨child, isChild, small⟩
      exact Nat.le_trans small (Nat.le_of_lt (size_lt_of_mem isChild))
    · rw [if_neg absorbed] at member
      exact Nat.le_of_eq (congrArg size (List.mem_singleton.mp member))
  · intro node rest first later inner member
    rw [spliceAll] at member
    rcases List.mem_append.mp member with here | there
    · exact ⟨node, List.mem_cons_self, first inner here⟩
    · rcases later inner there with ⟨other, isOther, small⟩
      exact ⟨other, List.mem_cons_of_mem _ isOther, small⟩

theorem size_lt_of_mem_spliceAll {handle : Handle} {kind : Kind} {children : List Node}
    {inner : Node} (member : inner ∈ spliceAll outer children) :
    inner.size < (mk handle kind children).size := by
  rcases size_le_of_mem_splice.2 children inner member with ⟨child, isChild, small⟩
  exact Nat.lt_of_le_of_lt small (size_lt_of_mem isChild)

end Splicing

end Node

namespace Arena

open Handle Link

variable {size : Nat}

/-! ## Splicing in place -/

section Absorbing

variable {handle : Handle} {outer : Kind} {path : List Step}

/-- The operands of an operand are moved behind it, each behind the one before
it. -/
theorem spliceAfter_yields (inner : Handle) (kind : Kind) (left right rest : List Node)
    (nodes : List Node) :
    forall (moved : List Node) (anchor : Handle),
      ((Node.mk inner kind nodes :: moved).getLast?).map Node.handle = some anchor ->
      Yields
        (Stores ⟨size, (Node.mk handle outer
          (left ++ Node.mk inner kind nodes :: (moved ++ right))).climb path :: rest⟩)
        (spliceAfter anchor (nodes.map Node.handle)) ()
        (Stores ⟨size, (Node.mk handle outer
          (left ++ Node.mk inner kind [] :: (moved ++ nodes ++ right))).climb path :: rest⟩) := by
  induction nodes with
  | nil =>
      intro moved anchor last
      rw [List.append_nil]
      exact .pure ()
  | cons node nodes ih =>
      intro moved anchor last
      have taken : Yields
          (Stores ⟨size, (Node.mk handle outer (left ++ Node.mk inner kind (node :: nodes) ::
            (moved ++ right))).climb path :: rest⟩) (unparent node.handle) ()
          (Stores ⟨size, (Node.mk handle outer (left ++ Node.mk inner kind nodes ::
            (moved ++ right))).climb path :: node :: rest⟩) := by
        have step := @unparent_yields size rest inner kind [] nodes node
          (⟨handle, outer, left, moved ++ right⟩ :: path)
        rw [Node.climb_operand, Node.climb_operand] at step
        exact step
      -- The anchor is the emptied operand itself until one node has been moved.
      have stays : ((Node.mk inner kind nodes :: moved).getLast?).map Node.handle =
        some anchor := by
        rw [← last]
        cases moved <;> rfl
      obtain ⟨before, fixed, split, isAnchor⟩ : Exists fun before : List Node =>
          Exists fun fixed : Node =>
            Node.mk inner kind nodes :: moved = before ++ [fixed] ∧ fixed.handle = anchor := by
        obtain ⟨fixed, found, isAnchor⟩ := Option.map_eq_some_iff.mp stays
        obtain ⟨before, split⟩ := List.getLast?_eq_some_iff.mp found
        exact ⟨before, fixed, split, isAnchor⟩
      have arranged (more : List Node) : left ++ Node.mk inner kind nodes :: (moved ++ more) =
          (left ++ before) ++ fixed :: more := by
        rw [← List.cons_append, split, List.append_assoc, List.append_assoc]
        rfl
      have placed : Yields
          (Stores ⟨size, (Node.mk handle outer (left ++ Node.mk inner kind nodes ::
            (moved ++ right))).climb path :: node :: rest⟩) (insert anchor node.handle) ()
          (Stores ⟨size, (Node.mk handle outer (left ++ Node.mk inner kind nodes ::
            (moved ++ [node] ++ right))).climb path :: rest⟩) := by
        rw [List.append_assoc, arranged, arranged, ← isAnchor]
        exact insert_yields rest handle outer (left ++ before) right fixed node path
      have remaining := ih (moved ++ [node]) node.handle (by
        rw [← List.cons_append, List.getLast?_concat]
        rfl)
      rw [List.append_assoc moved [node] nodes] at remaining
      exact taken.bind (placed.bind remaining)

/-- An operand of the same kind gives way to its operands. -/
theorem splice_yields (inner : Handle) (children left right rest : List Node)
    {following : Link -> Edit Unit} {after : Arena -> Prop}
    (continued : Yields
      (Stores ⟨size, (Node.mk handle outer (left ++ children ++ right)).climb path ::
        Node.mk inner outer [] :: rest⟩)
      (following ((children ++ right).head?.map Node.handle)) () after) :
    Yields
      (Stores ⟨size, (Node.mk handle outer (left ++ Node.mk inner outer children :: right)).climb
        path :: rest⟩)
      (do
        spliceAfter inner (← operands inner)
        let next := (← cell inner).next
        unparent inner
        following next) () after := by
  apply (operands_yields _ _ (Node.climb_operand_mem (.mk inner outer children) ..)).bind
  apply (spliceAfter_yields inner outer left right rest children [] inner rfl).bind
  apply (stored_cell_yields _ _ (Node.climb_operand_mem (.mk inner outer []) ..)).bind
  apply (unparent_yields rest handle outer left (children ++ right) (.mk inner outer []) path).bind
  rw [← List.append_assoc]
  exact continued

/-- The loop over operands, from an operand on, splices this operand first,
wherever it stands. -/
def Absorbs (size : Nat) (handle : Handle) (outer : Kind) (path : List Step) (node : Node) : Prop :=
  forall (left right rest : List Node) (after : Arena -> Prop),
    Yields
      (Stores ⟨size, (Node.mk handle outer (left ++ node.spliceInto outer ++ right)).climb path ::
        (node.spliceShells outer ++ rest)⟩)
      (absorbFrom outer (right.head?.map Node.handle)) () after ->
    Yields (Stores ⟨size, (Node.mk handle outer (left ++ node :: right)).climb path :: rest⟩)
      (absorbFrom outer (some node.handle)) () after

/-- The same for several operands one after the other. -/
theorem absorbs_all (nodes : List Node)
    (each : forall node, node ∈ nodes -> Absorbs size handle outer path node) :
    forall (left right rest : List Node) (after : Arena -> Prop),
      Yields
        (Stores ⟨size, (Node.mk handle outer (left ++ Node.spliceAll outer nodes ++ right)).climb
          path :: (Node.spliceShellsAll outer nodes ++ rest)⟩)
        (absorbFrom outer (right.head?.map Node.handle)) () after ->
      Yields (Stores ⟨size, (Node.mk handle outer (left ++ nodes ++ right)).climb path :: rest⟩)
        (absorbFrom outer ((nodes ++ right).head?.map Node.handle)) () after := by
  induction nodes with
  | nil =>
      intro left right rest after finished
      rw [List.append_nil]
      rw [Node.spliceAll, List.append_nil] at finished
      exact finished
  | cons node nodes ih =>
      intro left right rest after finished
      rw [List.append_assoc]
      apply each node List.mem_cons_self left (nodes ++ right) rest after
      rw [← List.append_assoc]
      apply ih (fun other member => each other (List.mem_cons_of_mem _ member))
      rw [Node.spliceAll, Node.spliceShellsAll, ← List.append_assoc left,
        List.append_assoc (Node.spliceShells outer node)] at finished
      exact yields_of_perm ((List.perm_append_comm_assoc _ _ _).cons _) finished

theorem absorbs (associative : outer.isAssociative = true) (node : Node) :
    Absorbs size handle outer path node := by
  induction node using Node.induction with
  | step inner kind children ih =>
      intro left right rest after continued
      rw [absorbFrom]
      have here := (Node.mk inner kind children).climb_operand_mem handle outer left right path rest
      apply (stored_kind_yields _ _ here).bind
      by_cases same : kind = outer
      · subst same
        have absorbed := (Kind.absorbs_iff kind kind).mpr ⟨associative, rfl⟩
        rw [Node.spliceInto, Node.spliceShells, if_pos absorbed, if_pos absorbed] at continued
        rw [Node.kind_mk, if_pos rfl]
        apply splice_yields inner children left right rest
        refine absorbs_all children ih left right _ _ (yields_of_perm ?_ continued)
        exact List.perm_middle.cons _
      · have kept : ¬ outer.absorbs kind = true :=
          fun absorbed => same ((Kind.absorbs_iff outer kind).mp absorbed).2
        rw [Node.spliceInto, Node.spliceShells, if_neg kept, if_neg kept,
          List.append_assoc] at continued
        rw [Node.kind_mk, if_neg same]
        exact (stored_cell_yields _ _ here).bind continued

/-- The loop over all operands of a node splices them. -/
theorem absorbFrom_yields (associative : outer.isAssociative = true) (nodes rest : List Node) :
    Yields (Stores ⟨size, (Node.mk handle outer nodes).climb path :: rest⟩)
      (absorbFrom outer (nodes.head?.map Node.handle)) ()
      (Stores ⟨size, (Node.mk handle outer (Node.spliceAll outer nodes)).climb path ::
        (Node.spliceShellsAll outer nodes ++ rest)⟩) := by
  have spliced := @absorbs_all size handle outer path nodes
    (fun node _ => absorbs associative node) [] [] rest
  rw [List.nil_append, List.nil_append, List.append_nil, List.append_nil] at spliced
  apply spliced
  change Yields _ (absorbFrom outer none) _ _
  rw [absorbFrom]
  exact .pure ()

end Absorbing

/-! ## The walk -/

/-- The walk from a node on merges its expression first, wherever it stands. -/
def Merges (size : Nat) (root : Handle) (node : Node) : Prop :=
  forall (up above : List Step) (rest : List Node) (after : Arena -> Prop),
    (node.climb up).handle = root ->
    Yields (Stores ⟨size, node.flatten.climb (up ++ above) :: (node.shells ++ rest)⟩)
      (flattenFrom root (Step.following up)) () after ->
    Yields (Stores ⟨size, node.climb (up ++ above) :: rest⟩)
      (flattenFrom root (some node.handle)) () after

section Merging

variable {root handle : Handle} {outer : Kind} {up above : List Step} {after : Arena -> Prop}

/-- The same for several operands one after the other. -/
theorem merges_all (right : List Node) (each : forall node, node ∈ right -> Merges size root node) :
    forall left rest : List Node,
      ((Node.mk handle outer (left ++ right)).climb up).handle = root ->
      Yields
        (Stores ⟨size, (Node.mk handle outer (left ++ right.map Node.flatten)).climb
          (up ++ above) :: (right.flatMap Node.shells ++ rest)⟩)
        (flattenFrom root (Step.following up)) () after ->
      Yields
        (Stores ⟨size, (Node.mk handle outer (left ++ right)).climb (up ++ above) :: rest⟩)
        (flattenFrom root ((right.head?.map Node.handle).or (Step.following up))) () after := by
  induction right with
  | nil => exact fun _ _ _ finished => finished
  | cons node right ih =>
      intro left rest rooted finished
      have merged := each node List.mem_cons_self (⟨handle, outer, left, right⟩ :: up) above rest
        after (by rw [Node.climb_operand]; exact rooted)
      rw [List.cons_append, Node.climb_operand, Node.climb_operand] at merged
      apply merged
      rw [List.append_cons left]
      refine ih (fun other member => each other (List.mem_cons_of_mem _ member))
        (left ++ [node.flatten]) (node.shells ++ rest) ?_ ?_
      · rw [← rooted]
        refine Node.handle_climb_congr ?_ up
        rfl
      · rw [List.map_cons, List.append_cons, List.flatMap_cons,
          List.append_assoc node.shells] at finished
        exact yields_of_perm ((List.perm_append_comm_assoc _ _ _).cons _) finished

/-- After the operands of a node are spliced, the walk merges those that the
node has by then. -/
theorem walk_yields {children rest : List Node}
    (rooted : ((Node.mk handle outer children).climb up).handle = root)
    (each : forall node, node ∈ Node.spliceAll outer children -> Merges size root node)
    (continued : Yields
      (Stores ⟨size, (Node.mk handle outer children).flatten.climb (up ++ above) ::
        ((Node.mk handle outer children).shells ++ rest)⟩)
      (flattenFrom root (Step.following up)) () after) :
    Yields
      (Stores ⟨size, (Node.mk handle outer (Node.spliceAll outer children)).climb (up ++ above) ::
        (Node.spliceShellsAll outer children ++ rest)⟩)
      (preorderNext root handle >>= flattenFrom root) () after := by
  have rootedStill :
      ((Node.mk handle outer (Node.spliceAll outer children)).climb up).handle = root := by
    rw [← rooted]
    refine Node.handle_climb_congr ?_ up
    rfl
  apply (preorderNext_yields (.mk handle outer (Node.spliceAll outer children)) up above
    rootedStill List.mem_cons_self).bind
  apply merges_all _ each [] _ rootedStill
  rw [Node.flatten, Node.merge_eq.2, Node.shells] at continued
  refine yields_of_perm (List.Perm.cons _ ?_) continued
  rw [← List.append_assoc]
  apply List.Perm.append_right _
  exact List.perm_append_comm.trans (Node.shells_perm.2 children).symm

end Merging

theorem merges (root : Handle) (bound : Nat) :
    forall node : Node, node.size ≤ bound -> Merges size root node := by
  -- The operands that remain after splicing come from any depth, so the
  -- induction is on the size and not on the expression.
  induction bound with
  | zero =>
      intro node small
      exact (Nat.not_le_of_lt node.size_pos small).elim
  | succ bound ih =>
      intro node small up above rest after rooted continued
      rcases node with ⟨handle, outer, children⟩
      have each : forall inner, inner ∈ Node.spliceAll outer children ->
          Merges size root inner := by
        intro inner member
        have smaller : inner.size < (Node.mk handle outer children).size :=
          Node.size_lt_of_mem_spliceAll member
        exact ih inner (Nat.le_of_lt_succ (Nat.lt_of_lt_of_le smaller small))
      have walked := walk_yields rooted each continued
      rw [Node.handle_mk, flattenFrom]
      apply (stored_kind_yields (.mk handle outer children) _ List.mem_cons_self).bind
      by_cases associative : outer.isAssociative = true
      · rw [Node.kind_mk, if_pos associative]
        apply (stored_cell_yields (.mk handle outer children) _ List.mem_cons_self).bind
        exact (absorbFrom_yields associative children rest).bind walked
      · rw [Node.kind_mk, if_neg associative]
        rcases Node.spliceAll_of_not_associative associative children with ⟨kept, none⟩
        rw [kept, none] at walked
        exact walked

/-- The conversion in an arena merges the connectives of an expression, and
leaves the same nodes over. -/
theorem flatten_yields (node : Node) (path : List Step) (rest : List Node) :
    Yields (Stores ⟨size, node.climb path :: rest⟩) (flatten node.handle) ()
      (Stores ⟨size, node.flatten.climb path :: (node.shells ++ rest)⟩) := by
  apply merges node.handle node.size node (Nat.le_refl _) [] path rest _ rfl
  rw [Step.following, flattenFrom]
  exact .pure ()

end Arena

end PlanningDomain
