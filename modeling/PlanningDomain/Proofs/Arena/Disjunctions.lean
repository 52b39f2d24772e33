import PlanningDomain.Proofs.Arena.Clauses
import PlanningDomain.Proofs.Arena.Negations

namespace PlanningDomain

/-!
# Disjunctive normal form in place

The clauses of a conjunction are joined operand by operand, as lists of handles
of literals that stand alone by then.  The lists are the combinations of
the clauses of all operands.  The conversion of a whole expression computes
what the functions on expressions compute, and the arena has the same nodes
besides it as their forest.
-/

/-- Joining with one family after the other is joining with all combinations
of their lists. -/
theorem distribute_combinations (product : List (List Handle)) (family : List (List Node))
    (families : List (List (List Node))) :
    Handle.distribute
        (Handle.distribute product (family.map (fun clause => clause.map Node.handle)))
        ((combinations families).map (fun clause => clause.map Node.handle)) =
      Handle.distribute product
        ((combinations (family :: families)).map (fun clause => clause.map Node.handle)) := by
  unfold Handle.distribute
  rw [List.flatMap_assoc]
  congr 1
  funext joined
  rw [combinations, List.map_flatMap, List.map_flatMap, List.map_map, List.flatMap_map]
  congr 1
  funext choice
  rw [List.map_map, List.map_map, List.map_map]
  congr 1
  funext other
  simp only [Function.comp_apply, List.map_append, List.append_assoc]

theorem distribute_unit (clauses : List (List Handle)) :
    Handle.distribute [[]] clauses = clauses := by
  unfold Handle.distribute
  rw [List.flatMap_cons, List.flatMap_nil, List.append_nil]
  exact List.map_id clauses

theorem distribute_singleton (product : List (List Handle)) :
    Handle.distribute product [[]] = product := by
  induction product with
  | nil => rfl
  | cons joined product ih =>
      unfold Handle.distribute at ih ⊢
      rw [List.flatMap_cons, ih, List.map_cons, List.append_nil]
      rfl

namespace Node

/-! ## The forests of a conversion -/

theorem disjoin_or (forest : Forest) (handle : Handle) (children : List Node) :
    let operands := disjoinAll forest.reserve children
    Exists fun grown : Forest =>
      (mk handle .or children).disjoin forest =
        (⟨forest.allocated, operands.1.flatMap Disjunction.clauses⟩, grown) ∧
      grown.allocated = operands.2.allocated ∧
      grown.roots.Perm (mk handle .or [] ::
        (operands.1.map Disjunction.shell ++ operands.2.roots)) := by
  intro operands
  refine ⟨_, rfl, ?_, ?_⟩
  · exact Forest.allocated_plantAll _ _
  · refine (Forest.roots_plant_perm _ _).trans (List.Perm.cons _ ?_)
    exact Forest.roots_plantAll_perm _ _

theorem disjoin_and (forest : Forest) (handle : Handle) (children : List Node) :
    let operands := disjoinAll forest children
    let pool := operands.1.flatMap (fun operand => operand.literals.flatten)
    let built := Placement.clauses [] operands.2.reserve
      (combinations (operands.1.map Disjunction.literals))
    Exists fun grown : Forest =>
      (mk handle .and children).disjoin forest =
        (⟨operands.2.allocated, built.placed⟩, grown) ∧
      grown.allocated = built.forest.allocated ∧
      grown.roots.Perm (mk handle .and [] :: (Arena.unplaced built.taken pool ++
        (operands.1.map Disjunction.clauseShells ++ built.forest.roots))) := by
  intro operands pool built
  refine ⟨_, rfl, ?_, ?_⟩
  · change ((built.forest.plantAll _).plantAll _).allocated = _
    rw [Forest.allocated_plantAll, Forest.allocated_plantAll]
  · refine (Forest.roots_plant_perm _ _).trans (List.Perm.cons _ ?_)
    refine (Forest.roots_plantAll_perm _ _).trans (List.Perm.append_left _ ?_)
    exact Forest.roots_plantAll_perm _ _

end Node

namespace Arena

open Handle Link

/-! ## Operands -/

/-- What is known of the conversion of each operand. -/
def Disjoins (node : Node) : Prop :=
  forall (forest : Forest) (rest : List Node),
    Yields (Stores ⟨forest.allocated, node :: (forest.roots ++ rest)⟩) (disjoin node.handle)
      (node.disjoin forest).1.handle
      (Stores ⟨(node.disjoin forest).2.allocated, (node.disjoin forest).1.toNode ::
        ((node.disjoin forest).2.roots ++ rest)⟩)

/-- The clauses of all operands are moved to one disjunction. -/
theorem disjoinInto_yields (disjunction : Handle) (nodes : List Node)
    (each : forall node, node ∈ nodes -> Disjoins node) :
    forall (done : List Clause) (forest : Forest) (rest : List Node),
      Yields
        (Stores ⟨forest.allocated, .mk disjunction .or (done.map Clause.toNode) ::
          (nodes ++ (forest.roots ++ rest))⟩)
        ((nodes.map Node.handle).forM (fun operand => do
          (← operand.disjoin).moveOperands disjunction)) ()
        (Stores ⟨(Node.disjoinAll forest nodes).2.allocated,
          .mk disjunction .or ((done ++ (Node.disjoinAll forest nodes).1.flatMap
              Disjunction.clauses).map Clause.toNode) ::
            ((Node.disjoinAll forest nodes).1.map Disjunction.shell ++
              ((Node.disjoinAll forest nodes).2.roots ++ rest))⟩) := by
  induction nodes with
  | nil =>
      intro done forest rest
      rw [List.map_nil, List.forM, Node.disjoinAll, List.flatMap_nil, List.append_nil]
      exact .pure ()
  | cons node nodes ih =>
      intro done forest rest
      have computed : Node.disjoinAll forest (node :: nodes) =
          ((node.disjoin forest).1 :: (Node.disjoinAll (node.disjoin forest).2 nodes).1,
            (Node.disjoinAll (node.disjoin forest).2 nodes).2) := rfl
      have converted := each node List.mem_cons_self forest
        (.mk disjunction .or (done.map Clause.toNode) :: (nodes ++ rest))
      rw [computed]
      generalize node.disjoin forest = head at converted ⊢
      have moved := @moveOperands_yields head.2.allocated head.1.handle disjunction .or .or
        (nodes ++ (head.2.roots ++ rest)) (head.1.clauses.map Clause.toNode)
        (done.map Clause.toNode)
      have remaining := ih (fun other member => each other (List.mem_cons_of_mem _ member))
        (done ++ head.1.clauses) head.2 (head.1.shell :: rest)
      rw [List.append_assoc, List.map_append] at remaining
      rw [List.map_cons, List.forM, bind_assoc]
      refine Yields.bind (yields_of_perm ?_ converted) ?_
      · refine perm_of_counts (fun entry => ?_)
        simp only [List.count_cons, List.count_append]
        omega
      refine Yields.bind (yields_of_perm ?_ moved) ?_
      · refine perm_of_counts (fun entry => ?_)
        simp only [List.count_cons, List.count_append, Disjunction.toNode]
        omega
      refine yields_of_perm ?_ (yields_to_perm ?_ remaining)
      · refine perm_of_counts (fun entry => ?_)
        simp only [List.count_cons, List.count_append, Disjunction.shell]
        omega
      · rw [List.flatMap_cons, List.map_cons]
        refine perm_of_counts (fun entry => ?_)
        simp only [List.count_cons, List.count_append]
        omega

section Apart

variable {size : Nat} (disjunction : Disjunction) (rest : List Node)

theorem clauses_yields :
    Yields (Stores ⟨size, disjunction.toNode :: rest⟩) (operands disjunction.handle)
      (disjunction.clauses.map Clause.handle) (Stores ⟨size, disjunction.toNode :: rest⟩) := by
  have handles : disjunction.toNode.children.map Node.handle =
      disjunction.clauses.map Clause.handle := by
    change (disjunction.clauses.map Clause.toNode).map Node.handle = _
    rw [List.map_map]
    rfl
  rw [← handles]
  exact operands_yields disjunction.toNode [] List.mem_cons_self

/-- All literals of a disjunction are made to stand alone. -/
theorem takeAllLiterals_yields :
    Yields (Stores ⟨size, disjunction.toNode :: rest⟩)
      (takeLiterals (disjunction.clauses.map Clause.handle))
      (disjunction.literals.map (fun clause => clause.map Node.handle))
      (Stores ⟨size, disjunction.clauseShells :: (disjunction.literals.flatten ++ rest)⟩) := by
  have taken := @takeLiterals_yields size disjunction.handle .or disjunction.clauses [] rest
  have family : disjunction.clauses.map (fun clause => clause.literals.map Node.handle) =
      disjunction.literals.map (fun clause => clause.map Node.handle) := by
    rw [Disjunction.literals, List.map_map]
    rfl
  rw [family] at taken
  rw [Disjunction.literals, ← List.flatMap_def]
  exact taken

end Apart

/-- The clauses of all operands are taken apart, and all their combinations are
formed. -/
theorem disjoinProduct_yields (nodes : List Node)
    (each : forall node, node ∈ nodes -> Disjoins node) :
    forall (product : List (List Handle)) (forest : Forest) (rest : List Node),
      Yields
        (Stores ⟨forest.allocated, nodes ++ (forest.roots ++ rest)⟩)
        ((nodes.map Node.handle).foldlM (fun product operand => do
          let clauses ← takeLiterals (← (← operand.disjoin).operands)
          pure (distribute product clauses)) product)
        (distribute product
          ((combinations ((Node.disjoinAll forest nodes).1.map Disjunction.literals)).map
            (fun choice => choice.map Node.handle)))
        (Stores ⟨(Node.disjoinAll forest nodes).2.allocated,
          (Node.disjoinAll forest nodes).1.flatMap (fun operand => operand.literals.flatten) ++
            ((Node.disjoinAll forest nodes).1.map Disjunction.clauseShells ++
              ((Node.disjoinAll forest nodes).2.roots ++ rest))⟩) := by
  induction nodes with
  | nil =>
      intro product forest rest
      change Yields _ _ (distribute product [[]]) _
      rw [List.map_nil, List.foldlM_nil, distribute_singleton]
      exact .pure product
  | cons node nodes ih =>
      intro product forest rest
      have computed : Node.disjoinAll forest (node :: nodes) =
          ((node.disjoin forest).1 :: (Node.disjoinAll (node.disjoin forest).2 nodes).1,
            (Node.disjoinAll (node.disjoin forest).2 nodes).2) := rfl
      have converted := each node List.mem_cons_self forest (nodes ++ rest)
      rw [computed]
      generalize node.disjoin forest = head at converted ⊢
      have remaining := ih (fun other member => each other (List.mem_cons_of_mem _ member))
        (distribute product (head.1.literals.map (fun clause => clause.map Node.handle))) head.2
        (head.1.clauseShells :: (head.1.literals.flatten ++ rest))
      rw [distribute_combinations] at remaining
      rw [List.map_cons, List.foldlM_cons]
      simp only [bind_assoc, pure_bind]
      refine Yields.bind (yields_of_perm ?_ converted) ?_
      · refine perm_of_counts (fun entry => ?_)
        simp only [List.count_cons, List.count_append]
        omega
      refine (clauses_yields head.1 _).bind ((takeAllLiterals_yields head.1 _).bind ?_)
      refine yields_of_perm ?_ (yields_to_perm ?_ remaining)
      · refine perm_of_counts (fun entry => ?_)
        simp only [List.count_cons, List.count_append]
        omega
      · refine perm_of_counts (fun entry => ?_)
        simp only [List.count_cons, List.count_append, List.flatMap_cons, List.map_cons]
        omega

/-! ## Nodes -/

/-- A literal becomes a disjunction of one clause of one literal. -/
theorem disjoin_literal_yields (node : Node)
    (literal : forall symbol, node.kind ≠ .connective symbol) :
    Disjoins node := by
  intro forest rest
  rw [Node.disjoin_of_literal literal]
  let clause := forest.allocated
  have built : Yields (Stores ⟨forest.allocated, node :: (forest.roots ++ rest)⟩)
      (do
        let clause ← alloc .and
        append clause node.handle
        let disjunction ← alloc .or
        append disjunction clause
        pure disjunction) (forest.allocated + 1)
      (Stores ⟨forest.allocated + 2, .mk (forest.allocated + 1) .or [.mk clause .and [node]] ::
        (forest.roots ++ rest)⟩) := by
    apply (alloc_yields .and _).bind
    apply (append_yields (forest.roots ++ rest) clause .and [] node []).bind
    apply (alloc_yields .or _).bind
    exact (append_yields (forest.roots ++ rest) (forest.allocated + 1) .or []
      (.mk clause .and [node]) []).bind (.pure _)
  rw [disjoin]
  apply (stored_kind_yields node [] List.mem_cons_self).bind
  rcases node with ⟨handle, kind, children⟩
  cases kind with
  | connective symbol => exact (literal symbol rfl).elim
  | not => exact built
  | comparison symbol => exact built
  | arithmetic symbol => exact built
  | var name => exact built
  | func name => exact built
  | literal value => exact built

theorem disjoin_or_yields (handle : Handle) (children : List Node)
    (each : forall node, node ∈ children -> Disjoins node) :
    Disjoins (.mk handle .or children) := by
  intro forest rest
  let shell := Node.mk handle .or []
  let operands := Node.disjoinAll forest.reserve children
  have moved := disjoinInto_yields forest.allocated children each [] forest.reserve (shell :: rest)
  have detached := @detachOperands_yields (forest.allocated + 1) handle .or [] children
    (.mk forest.allocated .or [] :: (forest.roots ++ rest))
  rcases Node.disjoin_or forest handle children with ⟨grown, computed, allocated, listed⟩
  rw [computed, allocated, disjoin]
  apply (stored_kind_yields (.mk handle .or children) [] List.mem_cons_self).bind
  apply (alloc_yields .or _).bind
  apply Yields.bind (yields_of_perm (List.Perm.swap _ _ _) detached)
  refine Yields.bind (yields_of_perm ?_ (yields_to_perm ?_ moved)) (.pure forest.allocated)
  · refine perm_of_counts (fun entry => ?_)
    simp only [List.count_cons, List.count_append, List.map_nil, Node.climb_nil, Forest.reserve,
      shell]
    omega
  · refine List.Perm.cons _ (List.Perm.trans ?_ (listed.append_right rest).symm)
    refine perm_of_counts (fun entry => ?_)
    simp only [List.count_cons, List.count_append, shell]
    omega

theorem disjoin_and_yields (handle : Handle) (children : List Node)
    (each : forall node, node ∈ children -> Disjoins node) :
    Disjoins (.mk handle .and children) := by
  intro forest rest
  let shell := Node.mk handle .and []
  have product := disjoinProduct_yields children each [[]] forest (shell :: rest)
  rw [distribute_unit] at product
  rcases Node.disjoin_and forest handle children with ⟨grown, computed, allocated, listed⟩
  rw [computed, allocated, disjoin]
  generalize Node.disjoinAll forest children = operands at product listed
  let pool := operands.1.flatMap (fun operand => operand.literals.flatten)
  apply (stored_kind_yields (.mk handle .and children) [] List.mem_cons_self).bind
  apply (detachOperands_yields handle .and [] children (forest.roots ++ rest)).bind
  refine Yields.bind (yields_of_perm ?_ product) ?_
  · refine perm_of_counts (fun entry => ?_)
    simp only [List.count_cons, List.count_append, Node.climb_nil, shell]
    omega
  apply (alloc_yields .or _).bind
  refine Yields.assume (pool.map Node.handle).Nodup (fun arena stored => ?_) (fun distinct => ?_)
  · exact stored.top_nodup ((List.sublist_append_left _ _).trans (List.sublist_cons_self _ _))
  have members : forall choice, choice ∈ combinations (operands.1.map Disjunction.literals) ->
      forall literal, literal ∈ choice -> literal ∈ pool := by
    intro choice listed literal member
    have found := mem_of_mem_combinations choice listed literal member
    rw [List.flatMap_map] at found
    exact found
  have placed := placeClauses_yields operands.2.allocated pool distinct
    (shell :: (operands.1.map Disjunction.clauseShells ++ rest))
    (combinations (operands.1.map Disjunction.literals)) [] operands.2.reserve [] _ rfl
    members (fun _ _ impossible => (List.not_mem_nil impossible).elim)
  rw [unplaced_nil] at placed
  refine Yields.bind (yields_of_perm ?_ (yields_to_perm ?_ placed)) (.pure operands.2.allocated)
  · refine perm_of_counts (fun entry => ?_)
    simp only [List.count_cons, List.count_append, List.map_nil, Forest.reserve, shell, pool]
    omega
  · refine List.Perm.cons _ (List.Perm.trans ?_ (listed.append_right rest).symm)
    refine perm_of_counts (fun entry => ?_)
    simp only [List.count_cons, List.count_append, shell, pool]
    omega

theorem disjoin_yields (node : Node) : Disjoins node := by
  induction node using Node.induction with
  | step handle kind children ih =>
      by_cases connective : Exists fun symbol : Connective => kind = .connective symbol
      · rcases connective with ⟨symbol, same⟩
        subst same
        cases symbol with
        | and => exact disjoin_and_yields handle children ih
        | or => exact disjoin_or_yields handle children ih
      · exact disjoin_literal_yields _ (fun symbol same => connective ⟨symbol, same⟩)

/-! ## Whole expressions -/

theorem clausesOf_yields (node : Node) (forest : Forest) (rest : List Node) :
    Yields (Stores ⟨forest.allocated, node :: (forest.roots ++ rest)⟩) (clausesOf node.handle)
      (node.clausesOf forest).1.handle
      (Stores ⟨(node.clausesOf forest).2.allocated, (node.clausesOf forest).1 ::
        ((node.clausesOf forest).2.roots ++ rest)⟩) := by
  apply (stored_cell_yields node [] List.mem_cons_self).bind
  by_cases childless : node.kind = .and ∧ node.children = []
  · rcases node with ⟨handle, kind, children⟩
    rcases childless with ⟨conjunction, none⟩
    rw [Node.kind_mk] at conjunction
    rw [Node.children_mk] at none
    subst conjunction none
    rw [if_pos (by exact ⟨rfl, rfl⟩)]
    refine yields_to_perm ?_ (alloc_yields .or (.mk handle .and [] :: (forest.roots ++ rest)))
    rw [← List.cons_append]
    exact ((Forest.roots_plant_perm forest.reserve _).symm.append_right rest).cons _
  · have computed : node.clausesOf forest =
        ((node.disjoin forest).1.toNode, (node.disjoin forest).2) :=
      Node.clausesOf_of_not_childless childless forest
    rw [computed, if_neg (fun found => childless ⟨found.1, ?_⟩)]
    · exact disjoin_yields node forest rest
    · exact List.head?_eq_none_iff.mp (Option.map_eq_none_iff.mp found.2)

/-- Merging the connectives of a result changes nothing any more. -/
theorem flatten_flat_yields {size : Nat} (node : Node) (flat : node.isFlat = true)
    (path : List Step) (rest : List Node) :
    Yields (Stores ⟨size, node.climb path :: rest⟩) (flatten node.handle) ()
      (Stores ⟨size, node.climb path :: rest⟩) := by
  have flattened := @flatten_yields size node path rest
  rcases Node.flatten_of_isFlat.1 node flat with ⟨same, none⟩
  rw [same, none] at flattened
  exact flattened

section Slots

variable (node slot result : Node) (step : Step) (path : List Step) (forest : Forest)
  (rest : List Node)

/-- An operand is taken out, and a new node keeps its place. -/
theorem takeOut_yields :
    Yields (Stores ⟨forest.allocated, node.climb (step :: path) :: (forest.roots ++ rest)⟩)
      (takeOut node.handle) (some forest.allocated)
      (Stores ⟨forest.reserve.allocated, node :: (forest.reserve.roots ++
        ((Node.mk forest.allocated .or []).climb (step :: path) :: rest))⟩) := by
  let slot := Node.mk forest.allocated .or []
  apply (stored_isAttached_yields node (step :: path) List.mem_cons_self).bind
  apply (alloc_yields .or _).bind
  rw [Node.climb_operand, Node.climb_operand]
  have inserted := @insert_yields (forest.allocated + 1) (forest.roots ++ rest) step.handle
    step.kind step.left step.right node slot path
  have taken := @unparent_yields (forest.allocated + 1) (forest.roots ++ rest) step.handle
    step.kind step.left (slot :: step.right) node path
  apply Yields.bind (yields_of_perm (List.Perm.swap _ _ _) inserted)
  refine Yields.bind (yields_to_perm ?_ taken) (.pure _)
  refine (List.Perm.swap _ _ _).trans (List.Perm.cons _ ?_)
  exact List.perm_middle.symm

/-- The result takes the place that was kept, and what kept it is left over. -/
theorem replace_slot_yields :
    Yields
      (Stores ⟨forest.allocated,
        result :: (forest.roots ++ (slot.climb (step :: path) :: rest))⟩)
      (replace slot.handle result.handle) ()
      (Stores ⟨forest.allocated,
        result.climb (step :: path) :: ((forest.plant slot).roots ++ rest)⟩) := by
  rw [Node.climb_operand, Node.climb_operand]
  have replaced := @replace_operand_yields forest.allocated (forest.roots ++ rest) step.handle
    step.kind step.left step.right slot result path
  refine yields_of_perm ?_ (yields_to_perm ?_ replaced)
  · exact (List.perm_middle.cons _).trans (List.Perm.swap _ _ _)
  · exact ((Forest.roots_plant_perm forest slot).symm.append_right rest).cons _

end Slots

/-- The conversion in an arena brings an expression into disjunctive normal
form in its place, and leaves the same nodes over. -/
theorem toDnf_yields (node : Node) (path : List Step) (forest : Forest) (rest : List Node) :
    let result := node.toDnf (Step.parent? path).isSome forest
    Yields (Stores ⟨forest.allocated, node.climb path :: (forest.roots ++ rest)⟩)
      (toDnf node.handle) result.1.handle
      (Stores ⟨result.2.allocated, result.1.climb path :: (result.2.roots ++ rest)⟩) := by
  intro result
  apply (toNnf_yields node path forest rest).bind
  have flat := node.isFlat_toNnf forest
  generalize computed : node.toNnf forest = converted at flat
  cases path with
  | nil =>
      have same : result = converted.1.clausesOf converted.2 := by
        rw [← computed]
        rfl
      rw [same]
      have untaken : Yields (Stores ⟨converted.2.allocated, converted.1 ::
          (converted.2.roots ++ rest)⟩) (takeOut converted.1.handle) none _ :=
        (stored_isAttached_yields converted.1 [] List.mem_cons_self).bind (.pure none)
      apply untaken.bind
      apply (clausesOf_yields converted.1 converted.2 rest).bind
      exact (flatten_flat_yields _ (Node.isFlat_clausesOf _ _ flat) [] _).bind (.pure _)
  | cons step path =>
      let slot := Node.mk converted.2.allocated .or []
      let dnf := converted.1.clausesOf converted.2.reserve
      have same : result = (dnf.1, dnf.2.plant slot) := by
        change (fun converted : Node × Forest =>
          let dnf := converted.1.clausesOf converted.2.reserve
          (dnf.1, dnf.2.plant (.mk converted.2.allocated .or []))) (node.toNnf forest) = _
        rw [computed]
      rw [same]
      apply (takeOut_yields converted.1 step path converted.2 rest).bind
      apply (clausesOf_yields converted.1 converted.2.reserve _).bind
      apply (replace_slot_yields slot dnf.1 step path dnf.2 rest).bind
      exact (flatten_flat_yields _ (Node.isFlat_clausesOf _ _ flat) _ _).bind (.pure _)

end Arena

end PlanningDomain
