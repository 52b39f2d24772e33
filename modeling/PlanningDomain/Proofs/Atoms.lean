import PlanningDomain.Proofs.Conversions
import PlanningDomain.Proofs.Term.Stability

namespace PlanningDomain

/-!
# Atoms keep their order

The nodes of an expression that are not logical are its atoms.  Merging only moves
connectives out of the way, and negation normal form only exchanges connectives and
negations for others.  So the same atoms, which means the same nodes and not copies
of them, are met in the same order afterwards, and none has more or fewer operands.

A negation with several operands loses all but the first when it is cancelled by
another one.  This is why negations are limited to one operand where they are
moved, and need not be where connectives are merged.
-/

namespace Node

/-- A node that is not logical, with the number of its operands. -/
def atom? (node : Node) : Option (Handle × Nat) :=
  if node.kind.isLogical then none else some (node.handle, node.children.length)

/-- The atoms of an expression in pre-order. -/
def atoms (node : Node) : List (Handle × Nat) :=
  node.preorder.filterMap atom?

theorem atoms_of_logical {kind : Kind} (logical : kind.isLogical = true) (handle : Handle)
    (children : List Node) : (mk handle kind children).atoms = children.flatMap atoms := by
  have none : (mk handle kind children).atom? = none := if_pos logical
  rw [atoms, preorder, List.filterMap_cons_none none, preorderAll_eq_flatMap,
    List.filterMap_flatMap]
  rfl

theorem atoms_of_not_logical {kind : Kind} (notLogical : kind.isLogical = false) (handle : Handle)
    (children : List Node) :
    (mk handle kind children).atoms = (handle, children.length) :: children.flatMap atoms := by
  have here : (mk handle kind children).atom? = some (handle, children.length) :=
    if_neg (Bool.eq_false_iff.mp notLogical)
  rw [atoms, preorder, List.filterMap_cons_some here, preorderAll_eq_flatMap,
    List.filterMap_flatMap]
  rfl

/-- A node with the same number of operands has the same atoms if its operands
have. -/
theorem atoms_congr (handle : Handle) (kind : Kind) {children others : List Node}
    (count : children.length = others.length)
    (same : children.flatMap atoms = others.flatMap atoms) :
    (mk handle kind children).atoms = (mk handle kind others).atoms := by
  cases logical : kind.isLogical with
  | true => rw [atoms_of_logical logical, atoms_of_logical logical, same]
  | false => rw [atoms_of_not_logical logical, atoms_of_not_logical logical, count, same]

/-! ## Merging -/

theorem length_mergeAll {outer : Kind} (notAssociative : outer.isAssociative = false)
    (nodes : List Node) : (mergeAll outer nodes).length = nodes.length := by
  rw [merge_eq.2, List.length_map,
    (spliceAll_of_not_associative (Bool.eq_false_iff.mp notAssociative) nodes).1]

theorem atoms_flatten_both :
    (forall node : Node, node.flatten.atoms = node.atoms) ∧
      forall (nodes : List Node) (outer : Kind),
        (mergeAll outer nodes).flatMap atoms = nodes.flatMap atoms := by
  refine induction_both ?_ (fun _ => rfl) ?_
  · intro handle kind children ih
    rw [flatten]
    cases logical : kind.isLogical with
    | true => rw [atoms_of_logical logical, atoms_of_logical logical, ih]
    | false =>
        have notAssociative := Term.not_associative_of_not_logical logical
        exact atoms_congr handle kind (length_mergeAll notAssociative children) (ih kind)
  · intro node rest head tail outer
    have here : (node.mergeInto outer).flatMap atoms = node.atoms := by
      rw [← head]
      rcases node with ⟨handle, kind, children⟩
      rw [mergeInto, flatten]
      by_cases absorbed : outer.absorbs kind = true
      · rw [if_pos absorbed, atoms_of_logical (Kind.isLogical_of_absorbs absorbed).2]
      · rw [if_neg absorbed, List.flatMap_singleton]
    rw [mergeAll, List.flatMap_append, here, tail, List.flatMap_cons]

theorem atoms_flatten (node : Node) : node.flatten.atoms = node.atoms :=
  atoms_flatten_both.1 node

/-! ## Negation normal form -/

/-- No negation of the expression has more than one operand. -/
def Narrow (node : Node) : Prop :=
  forall inner, inner ∈ node.preorder -> inner.kind = .not -> inner.children.length ≤ 1

theorem narrow_mk {handle : Handle} {kind : Kind} {children : List Node} :
    (mk handle kind children).Narrow ↔ (kind = .not -> children.length ≤ 1) ∧
      forall child, child ∈ children -> child.Narrow := by
  unfold Narrow
  rw [preorder, List.forall_mem_cons, preorderAll_eq_flatMap]
  refine and_congr Iff.rfl ⟨fun below child isChild inner within => ?_, fun each inner below => ?_⟩
  · exact below inner (List.mem_flatMap.mpr ⟨child, isChild, within⟩)
  · rcases List.mem_flatMap.mp below with ⟨child, isChild, within⟩
    exact each child isChild inner within

theorem length_nnfAll (nodes : List Node) : forall forest : Forest,
    (nnfAll forest nodes).1.length = nodes.length := by
  induction nodes with
  | nil => exact fun _ => rfl
  | cons node rest ih => exact fun forest => congrArg (· + 1) (ih _)

theorem atoms_nnfAll {nodes : List Node}
    (each : forall node, node ∈ nodes -> forall forest : Forest,
      (node.nnf forest).1.atoms = node.atoms) :
    forall forest : Forest, (nnfAll forest nodes).1.flatMap atoms = nodes.flatMap atoms := by
  induction nodes with
  | nil => exact fun _ => rfl
  | cons node rest ih =>
      intro forest
      rw [nnfAll, List.flatMap_cons, List.flatMap_cons, each node List.mem_cons_self,
        ih (fun other later => each other (List.mem_cons_of_mem _ later))]

theorem atoms_nnfNotAll {nodes : List Node}
    (each : forall node, node ∈ nodes -> forall (forest : Forest) (negation : Handle),
      (node.nnfNot forest negation []).1.atoms = node.atoms) :
    forall forest : Forest, (nnfNotAll forest nodes).1.flatMap atoms = nodes.flatMap atoms := by
  induction nodes with
  | nil => exact fun _ => rfl
  | cons node rest ih =>
      intro forest
      rw [nnfNotAll, List.flatMap_cons, List.flatMap_cons, each node List.mem_cons_self,
        ih (fun other later => each other (List.mem_cons_of_mem _ later))]

/-- Neither an expression nor its negation loses an atom or gets a new one.  The
negation itself is no atom. -/
theorem atoms_nnf_both (node : Node) : node.Narrow ->
    (forall forest : Forest, (node.nnf forest).1.atoms = node.atoms) ∧
      forall (forest : Forest) (negation : Handle),
        (node.nnfNot forest negation []).1.atoms = node.atoms := by
  induction node using Node.induction with
  | step handle kind children ih =>
      intro narrow
      rcases narrow_mk.mp narrow with ⟨single, below⟩
      have plain := fun child isChild => (ih child isChild (below child isChild)).1
      have negated := fun child isChild => (ih child isChild (below child isChild)).2
      have converted : forall forest : Forest,
          (mk handle kind (nnfAll forest children).1).atoms = (mk handle kind children).atoms :=
        fun forest =>
          atoms_congr handle kind (length_nnfAll children forest) (atoms_nnfAll plain forest)
      have lone : forall operand others, children = operand :: others -> kind = .not ->
          others = [] := by
        intro operand others isCons negation
        have count := single negation
        rw [isCons, List.length_cons] at count
        exact List.eq_nil_of_length_eq_zero (Nat.le_zero.mp (Nat.le_of_succ_le_succ count))
      constructor
      · intro forest
        by_cases negation : kind = .not
        · cases children with
          | nil =>
              subst negation
              rfl
          | cons operand others =>
              have none := lone operand others rfl negation
              subst negation none
              rw [nnf, negated operand List.mem_cons_self, atoms_of_logical rfl,
                List.flatMap_singleton]
        · rw [nnf_of_ne_not negation, converted]
      · intro forest negation
        by_cases notLogical : kind.isLogical = false
        · rw [nnfNot_of_not_logical notLogical, atoms_of_logical rfl, List.flatMap_singleton,
            converted]
        · cases kind with
          | not =>
              cases children with
              | nil => rfl
              | cons operand others =>
                  have none := lone operand others rfl rfl
                  subst none
                  rw [nnfNot, plain operand List.mem_cons_self, atoms_of_logical rfl,
                    List.flatMap_singleton]
          | connective symbol =>
              rw [nnfNot, atoms_of_logical rfl, atoms_of_logical rfl, atoms_nnfNotAll negated]
          | _ => exact (notLogical rfl).elim

theorem atoms_toNnf {node : Node} (narrow : node.Narrow) (forest : Forest) :
    (node.toNnf forest).1.atoms = node.atoms :=
  (atoms_flatten _).trans ((atoms_nnf_both node narrow).1 forest)

end Node

/-! ## Atoms in an arena -/

open Arena

namespace Handle

/-- The atoms among some nodes, each with the number of its operands. -/
def atomsAmong : List Handle -> Edit (List (Handle × Nat))
  | [] => pure []
  | node :: rest => do
      if (← kind node).isLogical then atomsAmong rest
      else
        let count ← node.operandCount
        return (node, count) :: (← atomsAmong rest)

/-- The atoms that the walk in pre-order comes to. -/
def atoms (root : Handle) : Edit (List (Handle × Nat)) := do
  atomsAmong (← root.preorder)

end Handle

namespace Arena

variable {size : Nat} {trees : List Node}

theorem atomsAmong_yields (nodes : List Node)
    (placed : forall node, node ∈ nodes ->
      Exists fun path : List Step => node.climb path ∈ trees) :
    Yields (Stores ⟨size, trees⟩) (Handle.atomsAmong (nodes.map Node.handle))
      (nodes.filterMap Node.atom?) (Stores ⟨size, trees⟩) := by
  induction nodes with
  | nil => exact .pure []
  | cons node rest ih =>
      have others := ih (fun other later => placed other (List.mem_cons_of_mem _ later))
      rcases placed node List.mem_cons_self with ⟨path, here⟩
      rw [List.map_cons, Handle.atomsAmong]
      apply (stored_kind_yields node path here).bind
      cases logical : node.kind.isLogical with
      | true =>
          have none : node.atom? = none := if_pos logical
          rw [List.filterMap_cons_none none]
          exact others
      | false =>
          have found : node.atom? = some (node.handle, node.children.length) :=
            if_neg (Bool.eq_false_iff.mp logical)
          have count : Yields (Stores ⟨size, trees⟩) node.handle.operandCount node.children.length
              (Stores ⟨size, trees⟩) := by
            rw [← List.length_map (f := Node.handle)]
            exact (operands_yields node path here).bind (.pure _)
          rw [List.filterMap_cons_some found]
          exact count.bind (others.bind (.pure _))

theorem atoms_yields {node : Node} {path : List Step} (member : node.climb path ∈ trees) :
    Yields (Stores ⟨size, trees⟩) node.handle.atoms node.atoms (Stores ⟨size, trees⟩) :=
  (preorder_yields member).bind
    (atomsAmong_yields node.preorder (fun _ within =>
      have ⟨up, here⟩ := climb_mem_of_preorder member within
      ⟨up ++ path, here⟩))

/-- From every node of a well-formed arena, the walk in pre-order comes to the same
atoms in the same order, with the same numbers of operands, before and after merging.
If no negation has more than one operand, it does so after the conversion to negation
normal form too. -/
theorem conversions_keep_atoms {arena : Arena} (wellFormed : arena.WellFormed) {root : Handle}
    (bound : root < arena.size) :
    Exists fun tree : Node => arena.Reads root tree ∧
      Exists fun atoms : List (Handle × Nat) =>
        root.atoms.run.run arena = some (.ok atoms, arena) ∧
        arena.Answers (do root.flatten; root.atoms) atoms ∧
        (tree.Narrow -> arena.Answers (do (← root.toNnf).atoms) atoms) := by
  rcases wellFormed.exists_place bound with ⟨tree, path, rest, same, stored⟩
  subst same
  rcases flatten_yields tree path rest arena stored with ⟨merged, mergedRun, mergedKept, _⟩
  rcases toNnf_yields tree path ⟨arena.size, []⟩ rest arena stored with ⟨left, run, kept, _⟩
  have mergedAtoms := run_eq_of_yields mergedKept (atoms_yields List.mem_cons_self)
  rw [tree.handle_flatten, tree.atoms_flatten] at mergedAtoms
  have atoms := run_eq_of_yields kept (atoms_yields List.mem_cons_self)
  refine ⟨tree, stored.reads List.mem_cons_self, tree.atoms,
    run_eq_of_yields stored (atoms_yields List.mem_cons_self),
    .of_run mergedRun ⟨merged, mergedAtoms⟩, fun narrow => .of_run run ⟨left, ?_⟩⟩
  rw [Node.atoms_toNnf narrow] at atoms
  exact atoms

/-- A negated conjunction of a negated disjunction and a call, whose argument is
negated twice. -/
theorem conversions_keep_atoms_negated_conjunction :
    let first : Kind := .var ⟨0, 1⟩
    let call : Kind := .func ⟨2, 3⟩
    let arena : Arena := ⟨#[⟨.not, none, some 1, some 1, none, none⟩,
      ⟨.and, some 0, some 2, some 5, none, none⟩, ⟨.not, some 1, some 3, some 3, none, some 5⟩,
      ⟨.or, some 2, some 4, some 4, none, none⟩, ⟨first, some 3, none, none, none, none⟩,
      ⟨call, some 1, some 6, some 6, some 2, none⟩, ⟨.not, some 5, some 7, some 7, none, none⟩,
      ⟨.not, some 6, some 8, some 8, none, none⟩, ⟨first, some 7, none, none, none, none⟩]⟩
    arena.Answers (do (← Handle.toNnf 0).atoms) [(4, 0), (5, 1), (8, 0)] := by
  intro first call arena
  let tree : Node := .mk 0 .not [.mk 1 .and [.mk 2 .not [.mk 3 .or [.mk 4 first []]],
    .mk 5 call [.mk 6 .not [.mk 7 .not [.mk 8 first []]]]]]
  have stored : arena.Stores ⟨9, [tree]⟩ := ⟨⟨by decide, by decide⟩, rfl⟩
  have top : tree.climb [] ∈ [tree] := List.mem_cons_self
  rcases conversions_keep_atoms stored.wellFormed (by decide : 0 < arena.size) with
    ⟨read, reads, atoms, run, _, kept⟩
  have isTree : read = tree := reads.unique (stored.reads top)
  subst isTree
  rw [result_unique run (run_eq_of_yields stored (atoms_yields top))] at kept
  refine kept ?_
  unfold Node.Narrow
  decide

end Arena

end PlanningDomain
