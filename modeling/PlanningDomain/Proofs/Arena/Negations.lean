import PlanningDomain.NormalForm.Negation
import PlanningDomain.Proofs.Arena.Flattening

namespace PlanningDomain

/-!
# Negation normal form in place

The conversion of a node answers the node that is to take its place.  Either
that is the node itself, which has been converted where it stands, or it is
another node that stands alone, and what remains of the node is still in its
place.  In both cases the expression that is computed is the one that the
functions on expressions compute, and the arena has the same nodes besides it
as their forest.
-/

namespace Arena

open Handle Link

/-- Work that converts a node answers a node that is in its place already, or
stands alone while something of the old node remains in its place. -/
inductive Converts (node : Node) (path : List Step) (forest : Forest) (rest : List Node)
    (work : Edit Handle) (result : Node × Forest) : Prop where
  | inPlace (same : result.1.handle = node.handle)
      (yields : Yields (Stores ⟨forest.allocated, node.climb path :: (forest.roots ++ rest)⟩) work
        result.1.handle
        (Stores ⟨result.2.allocated, result.1.climb path :: (result.2.roots ++ rest)⟩))
  | aside (remains : Node) (others : List Node) (same : remains.handle = node.handle)
      (listed : result.2.roots.Perm (remains :: others))
      (yields : Yields (Stores ⟨forest.allocated, node.climb path :: (forest.roots ++ rest)⟩) work
        result.1.handle
        (Stores ⟨result.2.allocated, remains.climb path :: result.1 :: (others ++ rest)⟩))

namespace Converts

variable {node : Node} {path : List Step} {forest : Forest} {rest : List Node}
  {work : Edit Handle} {result : Node × Forest}

/-- A node that stands alone is converted to a node that stands alone. -/
theorem detached (converts : Converts node [] forest rest work result) :
    Yields (Stores ⟨forest.allocated, node :: (forest.roots ++ rest)⟩) work result.1.handle
      (Stores ⟨result.2.allocated, result.1 :: (result.2.roots ++ rest)⟩) := by
  cases converts with
  | inPlace same yields => exact yields
  | aside remains others same listed yields =>
      refine yields_to_perm ?_ yields
      exact (List.Perm.swap _ _ _).trans ((listed.append_right rest).symm.cons _)

/-- The answer of the conversion is put into the place of the node, if it has
one, and the work goes on from there. -/
theorem settled {alpha : Type} {next : Handle -> Edit alpha} {value : alpha} {after : Arena -> Prop}
    (converts : Converts node path forest rest work result)
    (continued : Yields
      (Stores ⟨result.2.allocated, result.1.climb path :: (result.2.roots ++ rest)⟩)
      (next result.1.handle) value after) :
    Yields (Stores ⟨forest.allocated, node.climb path :: (forest.roots ++ rest)⟩)
      (do
        let found ← work
        replace node.handle found
        next found) value after := by
  cases converts with
  | inPlace same yields =>
      apply yields.bind
      rw [same] at continued ⊢
      exact (replace_self_yields _ node.handle).bind continued
  | aside remains others same listed yields =>
      apply yields.bind
      rw [← same]
      have exchanged : Yields
          (Stores ⟨result.2.allocated, remains.climb path :: result.1 :: (others ++ rest)⟩)
          (replace remains.handle result.1.handle) ()
          (Stores ⟨result.2.allocated, result.1.climb path :: remains :: (others ++ rest)⟩) := by
        cases path with
        | nil =>
            apply yields_to_perm (List.Perm.swap _ _ _)
            exact replace_detached_yields (others ++ rest) remains result.1
        | cons step path =>
            rw [Node.climb_operand, Node.climb_operand]
            exact replace_operand_yields _ step.handle step.kind step.left step.right remains
              result.1 path
      refine exchanged.bind (yields_of_perm ?_ continued)
      exact (listed.append_right rest).symm.cons _

end Converts

/-! ## Lists of operands -/

/-- The operands of a node are converted in their places. -/
theorem negateAll_yields (handle : Handle) (kind : Kind) (path : List Step) (rest : List Node)
    (nodes : List Node)
    (each : forall node, node ∈ nodes -> forall (path : List Step) (forest : Forest)
      (rest : List Node), Converts node path forest rest (negate node.handle) (node.nnf forest)) :
    forall (left : List Node) (forest : Forest),
      Yields
        (Stores ⟨forest.allocated, (Node.mk handle kind (left ++ nodes)).climb path ::
          (forest.roots ++ rest)⟩)
        ((nodes.map Node.handle).forM (fun node => do replace node (← node.negate))) ()
        (Stores ⟨(Node.nnfAll forest nodes).2.allocated,
          (Node.mk handle kind (left ++ (Node.nnfAll forest nodes).1)).climb path ::
            ((Node.nnfAll forest nodes).2.roots ++ rest)⟩) := by
  induction nodes with
  | nil =>
      intro left forest
      rw [List.map_nil, List.forM]
      exact .pure ()
  | cons node nodes ih =>
      intro left forest
      have head := each node List.mem_cons_self (⟨handle, kind, left, nodes⟩ :: path) forest rest
      have tail := ih (fun other member => each other (List.mem_cons_of_mem _ member))
        (left ++ [(node.nnf forest).1]) (node.nnf forest).2
      rw [← List.append_cons, ← List.append_cons, ← Node.climb_operand] at tail
      rw [List.map_cons, List.forM, bind_assoc, ← Node.climb_operand]
      exact head.settled tail

/-- The operands of a node are moved below a shell, each below a negation of its
own that is converted. -/
theorem negateInto_yields (handle shell : Handle) (kind dual : Kind) (path : List Step)
    (rest : List Node) (nodes : List Node)
    (each : forall node, node ∈ nodes ->
      forall (negation : Handle) (others : List Node) (path : List Step) (forest : Forest)
        (rest : List Node),
        Converts (.mk negation .not (node :: others)) path forest rest (negate negation)
          (node.nnfNot forest negation others)) :
    forall (done : List Node) (forest : Forest),
      Yields
        (Stores ⟨forest.allocated, (Node.mk handle kind nodes).climb path ::
          Node.mk shell dual done :: (forest.roots ++ rest)⟩)
        ((nodes.map Node.handle).forM (fun inner => do
          unparent inner
          let negation ← alloc .not
          append negation inner
          append shell (← negation.negate))) ()
        (Stores ⟨(Node.nnfNotAll forest nodes).2.allocated, (Node.mk handle kind []).climb path ::
          Node.mk shell dual (done ++ (Node.nnfNotAll forest nodes).1) ::
            ((Node.nnfNotAll forest nodes).2.roots ++ rest)⟩) := by
  induction nodes with
  | nil =>
      intro done forest
      rw [List.map_nil, List.forM, Node.nnfNotAll, List.append_nil]
      exact .pure ()
  | cons node nodes ih =>
      intro done forest
      let emptied := (Node.mk handle kind nodes).climb path
      let negation := forest.allocated
      let converted := node.nnfNot forest.reserve negation []
      have converts := (each node List.mem_cons_self negation [] [] forest.reserve
        (emptied :: Node.mk shell dual done :: rest)).detached
      have tail := ih (fun other member => each other (List.mem_cons_of_mem _ member))
        (done ++ [converted.1]) converted.2
      rw [List.append_assoc] at tail
      rw [List.map_cons, List.forM]
      simp only [bind_assoc]
      apply (unparent_yields _ handle kind [] nodes node path).bind
      apply (alloc_yields .not _).bind
      refine Yields.bind (yields_of_perm ?_ (append_yields
        (emptied :: Node.mk shell dual done :: (forest.roots ++ rest)) negation .not [] node [])) ?_
      · exact (List.Perm.swap _ _ _).cons _
      refine Yields.bind (yields_of_perm ?_ converts) ?_
      · apply List.Perm.cons _
        exact (List.Perm.cons emptied List.perm_middle.symm).trans List.perm_middle.symm
      refine Yields.bind (yields_of_perm ?_ (append_yields
        (emptied :: (converted.2.roots ++ rest)) shell dual done converted.1 [])) ?_
      · refine perm_of_counts (fun entry => ?_)
        simp only [List.count_cons, List.count_append, Node.climb_nil, converted]
        omega
      · exact yields_of_perm (List.Perm.swap _ _ _) tail

/-! ## Nodes -/

/-- A node whose kind is not a negation keeps its place. -/
theorem negate_other_yields {handle : Handle} {kind : Kind} {children : List Node}
    (other : kind ≠ .not)
    (each : forall node, node ∈ children -> forall (path : List Step) (forest : Forest)
      (rest : List Node), Converts node path forest rest (negate node.handle) (node.nnf forest))
    (path : List Step) (forest : Forest) (rest : List Node) :
    Converts (.mk handle kind children) path forest rest (negate handle)
      ((Node.mk handle kind children).nnf forest) := by
  rw [Node.nnf_of_ne_not other]
  refine .inPlace rfl ?_
  rw [negate]
  apply (stored_kind_yields (.mk handle kind children) path List.mem_cons_self).bind
  have converted : Yields
      (Stores ⟨forest.allocated, (Node.mk handle kind children).climb path ::
        (forest.roots ++ rest)⟩)
      (do
        (← handle.operands).forM (fun node => do replace node (← node.negate))
        pure handle) handle
      (Stores ⟨(Node.nnfAll forest children).2.allocated,
        (Node.mk handle kind (Node.nnfAll forest children).1).climb path ::
          ((Node.nnfAll forest children).2.roots ++ rest)⟩) := by
    apply (operands_yields (.mk handle kind children) _ List.mem_cons_self).bind
    exact (negateAll_yields handle kind path rest children each [] forest).bind (.pure handle)
  cases kind with
  | not => exact (other rfl).elim
  | connective symbol => exact converted
  | comparison symbol => exact converted
  | arithmetic symbol => exact converted
  | var name => exact converted
  | func name => exact converted
  | literal value => exact converted

/-- A negation whose operand is not logical keeps its place, and the operands of
its operand are converted. -/
theorem negate_literal_yields {handle : Handle} {kind : Kind} {children : List Node}
    (notLogical : kind.isLogical = false)
    (each : forall node, node ∈ children -> forall (path : List Step) (forest : Forest)
      (rest : List Node), Converts node path forest rest (negate node.handle) (node.nnf forest))
    (negation : Handle) (others : List Node) (path : List Step) (forest : Forest)
    (rest : List Node) :
    Converts (.mk negation .not (.mk handle kind children :: others)) path forest rest
      (negate negation) ((Node.mk handle kind children).nnfNot forest negation others) := by
  rw [Node.nnfNot_of_not_logical notLogical]
  refine .inPlace rfl ?_
  rw [negate]
  let operand := Node.mk handle kind children
  have above : (Node.mk negation .not (operand :: others)).climb path ∈
      (Node.mk negation .not (operand :: others)).climb path :: (forest.roots ++ rest) :=
    List.mem_cons_self
  have below := operand.climb_operand_mem negation .not [] others path (forest.roots ++ rest)
  refine (stored_kind_yields _ _ above).bind ((stored_cell_yields _ _ above).bind ?_)
  apply (stored_kind_yields _ _ below).bind
  have converted : Yields
      (Stores ⟨forest.allocated, (Node.mk negation .not (.mk handle kind children :: others)).climb
        path :: (forest.roots ++ rest)⟩)
      (do
        (← handle.operands).forM (fun node => do replace node (← node.negate))
        pure negation) negation
      (Stores ⟨(Node.nnfAll forest children).2.allocated,
        (Node.mk negation .not (.mk handle kind (Node.nnfAll forest children).1 :: others)).climb
          path :: ((Node.nnfAll forest children).2.roots ++ rest)⟩) := by
    apply (operands_yields _ _ below).bind
    have all := negateAll_yields handle kind (⟨negation, .not, [], others⟩ :: path) rest children
      each [] forest
    rw [Node.climb_operand, Node.climb_operand] at all
    exact all.bind (.pure negation)
  cases kind with
  | not => exact Bool.noConfusion notLogical
  | connective symbol => exact Bool.noConfusion notLogical
  | comparison symbol => exact converted
  | arithmetic symbol => exact converted
  | var name => exact converted
  | func name => exact converted
  | literal value => exact converted

/-- A negation of a connective gives way to a new node. -/
theorem negate_connective_yields {handle : Handle} {symbol : Connective} {children : List Node}
    (each : forall node, node ∈ children ->
      forall (negation : Handle) (others : List Node) (path : List Step) (forest : Forest)
        (rest : List Node),
        Converts (.mk negation .not (node :: others)) path forest rest (negate negation)
          (node.nnfNot forest negation others))
    (negation : Handle) (others : List Node) (path : List Step) (forest : Forest)
    (rest : List Node) :
    Converts (.mk negation .not (.mk handle (.connective symbol) children :: others)) path forest
      rest (negate negation)
      ((Node.mk handle (.connective symbol) children).nnfNot forest negation others) := by
  rw [Node.nnfNot]
  let kind := Kind.connective symbol
  refine .aside (.mk negation .not (.mk handle kind [] :: others))
    (Node.nnfNotAll forest.reserve children).2.roots rfl (Forest.roots_plant_perm _ _) ?_
  rw [negate]
  let operand := Node.mk handle kind children
  have above : (Node.mk negation .not (operand :: others)).climb path ∈
      (Node.mk negation .not (operand :: others)).climb path :: (forest.roots ++ rest) :=
    List.mem_cons_self
  have below := operand.climb_operand_mem negation .not [] others path (forest.roots ++ rest)
  refine (stored_kind_yields _ _ above).bind ((stored_cell_yields _ _ above).bind ?_)
  apply (stored_kind_yields _ _ below).bind
  apply (alloc_yields (.connective symbol.dual) _).bind
  apply (operands_yields _ _ (List.mem_cons_of_mem _ below)).bind
  have moved := negateInto_yields handle forest.allocated kind (.connective symbol.dual)
    (⟨negation, .not, [], others⟩ :: path) rest children each [] forest.reserve
  rw [Node.climb_operand, Node.climb_operand] at moved
  exact (yields_of_perm (List.Perm.swap _ _ _) moved).bind (.pure _)

/-- A negation of a negation gives way to the operand of the inner one. -/
theorem negate_negation_yields {handle : Handle} {inner : Node} {more : List Node}
    (converts : forall (path : List Step) (forest : Forest) (rest : List Node),
      Converts inner path forest rest (negate inner.handle) (inner.nnf forest))
    (negation : Handle) (others : List Node) (path : List Step) (forest : Forest)
    (rest : List Node) :
    Converts (.mk negation .not (.mk handle .not (inner :: more) :: others)) path forest rest
      (negate negation) ((Node.mk handle .not (inner :: more)).nnfNot forest negation others) := by
  rw [Node.nnfNot]
  let remains := Node.mk negation .not (.mk handle .not more :: others)
  refine .aside remains (inner.nnf forest).2.roots rfl (Forest.roots_plant_perm _ _) ?_
  rw [negate]
  let operand := Node.mk handle .not (inner :: more)
  have above : (Node.mk negation .not (operand :: others)).climb path ∈
      (Node.mk negation .not (operand :: others)).climb path :: (forest.roots ++ rest) :=
    List.mem_cons_self
  have below := operand.climb_operand_mem negation .not [] others path (forest.roots ++ rest)
  refine (stored_kind_yields _ _ above).bind ((stored_cell_yields _ _ above).bind ?_)
  refine (stored_kind_yields _ _ below).bind ((stored_cell_yields _ _ below).bind ?_)
  have taken := @unparent_yields forest.allocated (forest.roots ++ rest) handle .not [] more inner
    (⟨negation, .not, [], others⟩ :: path)
  rw [Node.climb_operand, Node.climb_operand] at taken
  have converted := (converts [] forest (remains.climb path :: rest)).detached
  refine taken.bind (yields_of_perm ?_ (yields_to_perm ?_ converted))
  · exact (List.Perm.swap _ _ _).trans (List.perm_middle.symm.cons _)
  · exact (List.perm_middle.cons _).trans (List.Perm.swap _ _ _)

/-- A negation without operand is left as it is, also below another one. -/
theorem negate_childless_yields (handle : Handle) :
    (forall (path : List Step) (forest : Forest) (rest : List Node),
      Converts (.mk handle .not []) path forest rest (negate handle)
        ((Node.mk handle .not []).nnf forest)) ∧
    forall (negation : Handle) (others : List Node) (path : List Step) (forest : Forest)
      (rest : List Node),
      Converts (.mk negation .not (.mk handle .not [] :: others)) path forest rest
        (negate negation) ((Node.mk handle .not []).nnfNot forest negation others) := by
  constructor
  · intro path forest rest
    refine .inPlace rfl ?_
    rw [negate]
    have here : (Node.mk handle .not []).climb path ∈
        (Node.mk handle .not []).climb path :: (forest.roots ++ rest) := List.mem_cons_self
    refine (stored_kind_yields _ _ here).bind ((stored_cell_yields _ _ here).bind ?_)
    exact .pure handle
  · intro negation others path forest rest
    refine .inPlace rfl ?_
    rw [negate]
    let operand := Node.mk handle .not []
    have above : (Node.mk negation .not (operand :: others)).climb path ∈
        (Node.mk negation .not (operand :: others)).climb path :: (forest.roots ++ rest) :=
      List.mem_cons_self
    have below := operand.climb_operand_mem negation .not [] others path (forest.roots ++ rest)
    refine (stored_kind_yields _ _ above).bind ((stored_cell_yields _ _ above).bind ?_)
    refine (stored_kind_yields _ _ below).bind ((stored_cell_yields _ _ below).bind ?_)
    exact .pure negation

/-- The conversions of a node and of its negation. -/
theorem negate_yields (node : Node) :
    (forall (path : List Step) (forest : Forest) (rest : List Node),
      Converts node path forest rest (negate node.handle) (node.nnf forest)) ∧
    forall (negation : Handle) (others : List Node) (path : List Step) (forest : Forest)
      (rest : List Node),
      Converts (.mk negation .not (node :: others)) path forest rest (negate negation)
        (node.nnfNot forest negation others) := by
  induction node using Node.induction with
  | step handle kind children ih =>
      have plain := fun child member => (ih child member).1
      have negated := fun child member => (ih child member).2
      by_cases negation : kind = .not
      · subst negation
        cases children with
        | nil => exact negate_childless_yields handle
        | cons inner more =>
            exact ⟨(ih inner List.mem_cons_self).2 handle more,
              negate_negation_yields (ih inner List.mem_cons_self).1⟩
      · refine ⟨negate_other_yields negation plain, ?_⟩
        cases kind with
        | not => exact (negation rfl).elim
        | connective symbol => exact negate_connective_yields negated
        | comparison symbol => exact negate_literal_yields rfl plain
        | arithmetic symbol => exact negate_literal_yields rfl plain
        | var name => exact negate_literal_yields rfl plain
        | func name => exact negate_literal_yields rfl plain
        | literal value => exact negate_literal_yields rfl plain

/-- The conversion in an arena brings an expression into negation normal form
in its place, and leaves the same nodes over. -/
theorem toNnf_yields (node : Node) (path : List Step) (forest : Forest) (rest : List Node) :
    Yields (Stores ⟨forest.allocated, node.climb path :: (forest.roots ++ rest)⟩)
      (toNnf node.handle) (node.toNnf forest).1.handle
      (Stores ⟨(node.toNnf forest).2.allocated, (node.toNnf forest).1.climb path ::
        ((node.toNnf forest).2.roots ++ rest)⟩) := by
  let converted := node.nnf forest
  have flattened := @flatten_yields converted.2.allocated converted.1 path
    (converted.2.roots ++ rest)
  apply ((negate_yields node).1 path forest rest).settled
  rw [Node.toNnf, Node.toFlat, Node.handle_flatten, Forest.allocated_plantAll]
  refine Yields.bind (yields_to_perm ?_ flattened) (.pure _)
  rw [← List.append_assoc]
  exact ((Forest.roots_plantAll_perm _ _).symm.append_right rest).cons _

end Arena

end PlanningDomain
