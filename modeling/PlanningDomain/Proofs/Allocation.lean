import Mathlib.Algebra.Ring.Nat
import PlanningDomain.Proofs.Atoms
import PlanningDomain.Proofs.Traversal

namespace PlanningDomain

/-!
# New nodes for De Morgan's laws

The conversion to negation normal form makes new nodes only where a negation is moved
through a connective: one for the dual connective, and one for each operand, which
is negated from then on.  The new negations meet further negations and connectives
below, where they cancel or are moved on.  Whether a connective is replaced is known
beforehand all the same.  It is, if an odd number of negations stands above
it, counted upwards to the nearest node that is not logical.  Below such a node the
count starts anew.

So the number of new nodes is read off the expression.  Nothing is said here about
which nodes are left over.
-/

namespace Node

/-! ## Nodes and what stands above them -/

mutual

/-- All nodes of an expression in pre-order, each with the kinds of the nodes above it,
the nearest first.  The kinds above the whole expression are given. -/
def situated (above : List Kind) : Node -> List (Node × List Kind)
  | mk handle kind children =>
      (mk handle kind children, above) :: situatedAll (kind :: above) children

def situatedAll (above : List Kind) : List Node -> List (Node × List Kind)
  | [] => []
  | node :: rest => node.situated above ++ situatedAll above rest

end

end Node

namespace Kind

/-- The number of negations above a node, counted upwards to the nearest node that is
not logical. -/
def negations (above : List Kind) : Nat :=
  (above.takeWhile isLogical).count .not

variable (above : List Kind)

theorem negations_not : negations (.not :: above) = negations above + 1 := by
  rw [negations, List.takeWhile_cons_of_pos rfl, List.count_cons_self]
  rfl

theorem negations_connective (symbol : Connective) :
    negations (.connective symbol :: above) = negations above := by
  rw [negations, List.takeWhile_cons_of_pos rfl, List.count_cons_of_ne Kind.noConfusion]
  rfl

theorem negations_of_not_logical {kind : Kind} (notLogical : kind.isLogical = false) :
    negations (kind :: above) = 0 := by
  rw [negations, List.takeWhile_cons_of_neg (Bool.eq_false_iff.mp notLogical)]
  rfl

end Kind

namespace Node

open Kind

/-- The number of nodes that replace a connective below an odd number of negations. -/
def replacement (place : Node × List Kind) : Nat :=
  if place.1.kind.isAssociative = true ∧ negations place.2 % 2 = 1 then
    1 + place.1.children.length
  else 0

/-- The number of nodes that replace connectives anywhere in an expression. -/
def replacements (above : List Kind) (node : Node) : Nat :=
  ((node.situated above).map replacement).sum

theorem replacements_all (above : List Kind) (nodes : List Node) :
    ((situatedAll above nodes).map replacement).sum = (nodes.map (replacements above)).sum := by
  induction nodes with
  | nil => rfl
  | cons node rest ih =>
      rw [situatedAll, List.map_append, List.sum_append, ih, List.map_cons, List.sum_cons]
      rfl

theorem replacements_mk (above : List Kind) (handle : Handle) (kind : Kind)
    (children : List Node) :
    (mk handle kind children).replacements above =
      replacement (mk handle kind children, above) +
        (children.map (replacements (kind :: above))).sum := by
  rw [replacements, situated, List.map_cons, List.sum_cons, replacements_all]

section Replacement

variable {above : List Kind} {handle : Handle} {children : List Node}

theorem replacement_of_not_associative {kind : Kind} (other : kind.isAssociative = false) :
    replacement (mk handle kind children, above) = 0 :=
  if_neg (fun both => Bool.noConfusion (other.symm.trans both.1))

theorem replacement_of_even {node : Node} (even : negations above % 2 = 0) :
    replacement (node, above) = 0 :=
  if_neg (fun both => Nat.zero_ne_one (even.symm.trans both.2))

theorem replacement_of_odd {symbol : Connective} (odd : negations above % 2 = 1) :
    replacement (mk handle (.connective symbol) children, above) = 1 + children.length :=
  if_pos ⟨rfl, odd⟩

end Replacement

/-! ## What the conversion allocates -/

theorem allocated_nnfAll {cost : Node -> Nat} {nodes : List Node}
    (each : forall node, node ∈ nodes -> forall forest : Forest,
      (node.nnf forest).2.allocated = forest.allocated + cost node) :
    forall forest : Forest,
      (nnfAll forest nodes).2.allocated = forest.allocated + (nodes.map cost).sum := by
  induction nodes with
  | nil => exact fun _ => rfl
  | cons node rest ih =>
      intro forest
      rw [nnfAll, ih (fun other later => each other (List.mem_cons_of_mem _ later)),
        each node List.mem_cons_self, List.map_cons, List.sum_cons, Nat.add_assoc]

/-- One more node is made for each operand that is negated. -/
theorem allocated_nnfNotAll {cost : Node -> Nat} {nodes : List Node}
    (each : forall node, node ∈ nodes -> forall (forest : Forest) (negation : Handle),
      (node.nnfNot forest negation []).2.allocated = forest.allocated + cost node) :
    forall forest : Forest, (nnfNotAll forest nodes).2.allocated =
      forest.allocated + nodes.length + (nodes.map cost).sum := by
  induction nodes with
  | nil => exact fun _ => rfl
  | cons node rest ih =>
      intro forest
      rw [nnfNotAll, ih (fun other later => each other (List.mem_cons_of_mem _ later)),
        each node List.mem_cons_self, Forest.allocated_reserve, List.map_cons, List.sum_cons,
        List.length_cons]
      omega

/-- The conversion of an expression allocates what its place below an even number of
negations asks for, and that of its negation what a place below an odd number does. -/
theorem allocated_nnf_both (node : Node) : node.Narrow ->
    (forall above : List Kind, negations above % 2 = 0 -> forall forest : Forest,
      (node.nnf forest).2.allocated = forest.allocated + node.replacements above) ∧
    forall above : List Kind, negations above % 2 = 1 ->
      forall (forest : Forest) (negation : Handle),
        (node.nnfNot forest negation []).2.allocated =
          forest.allocated + node.replacements above := by
  induction node using Node.induction with
  | step handle kind children ih =>
      intro narrow
      rcases narrow_mk.mp narrow with ⟨single, below⟩
      have plain {above : List Kind} (even : negations above % 2 = 0) :=
        allocated_nnfAll (fun child isChild =>
          (ih child isChild (below child isChild)).1 above even)
      have negated {above : List Kind} (odd : negations above % 2 = 1) :=
        allocated_nnfNotAll (fun child isChild =>
          (ih child isChild (below child isChild)).2 above odd)
      cases kind with
      | not =>
          rcases Nat.le_one_iff_eq_zero_or_eq_one.mp (single rfl) with none | one
          · rw [List.length_eq_zero_iff.mp none]
            exact ⟨fun _ _ _ => rfl, fun _ _ _ _ => rfl⟩
          rcases List.length_eq_one_iff.mp one with ⟨operand, only⟩
          subst only
          rcases ih operand List.mem_cons_self (below operand List.mem_cons_self) with
            ⟨onOperand, onNegated⟩
          have passed (above : List Kind) :
              (mk handle .not [operand]).replacements above =
                operand.replacements (.not :: above) := by
            rw [replacements_mk, replacement_of_not_associative rfl, Nat.zero_add,
              List.map_singleton, List.sum_singleton]
          refine ⟨fun above even forest => ?_, fun above odd forest negation => ?_⟩
          · have isOdd : negations (.not :: above) % 2 = 1 := by rw [negations_not]; omega
            rw [nnf, onNegated _ isOdd, passed]
          · have isEven : negations (.not :: above) % 2 = 0 := by rw [negations_not]; omega
            rw [nnfNot, Forest.allocated_plant, onOperand _ isEven, passed]
      | connective symbol =>
          refine ⟨fun above even forest => ?_, fun above odd forest negation => ?_⟩
          · have isEven := (congrArg (· % 2) (negations_connective above symbol)).trans even
            rw [nnf_of_ne_not Kind.noConfusion, plain isEven, replacements_mk,
              replacement_of_even even, Nat.zero_add]
          · have isOdd := (congrArg (· % 2) (negations_connective above symbol)).trans odd
            rw [nnfNot, Forest.allocated_plant, negated isOdd, Forest.allocated_reserve,
              replacements_mk, replacement_of_odd odd]
            omega
      | _ =>
          -- The count starts anew below an atom, whatever stands above it.
          refine ⟨fun above _ forest => ?_, fun above _ forest negation => ?_⟩
          · rw [nnf_of_ne_not Kind.noConfusion, replacements_mk,
              replacement_of_not_associative rfl, Nat.zero_add]
            exact plain (congrArg (· % 2) (negations_of_not_logical above rfl)) forest
          · rw [nnfNot_of_not_logical rfl, replacements_mk, replacement_of_not_associative rfl,
              Nat.zero_add]
            exact plain (congrArg (· % 2) (negations_of_not_logical above rfl)) forest

theorem allocated_toNnf {node : Node} (narrow : node.Narrow) (forest : Forest) :
    (node.toNnf forest).2.allocated = forest.allocated + node.replacements [] := by
  rw [toNnf, toFlat, Forest.allocated_plantAll]
  exact (allocated_nnf_both node narrow).1 [] rfl forest

/-! ## Bounds -/

theorem replacement_le (place : Node × List Kind) :
    replacement place ≤ 1 + place.1.children.length := by
  unfold replacement
  split
  · exact Nat.le_refl _
  · exact Nat.zero_le _

/-- Each node counts once as itself and once as an operand, but for the topmost one. -/
theorem replacements_lt (node : Node) :
    forall above : List Kind, node.replacements above < 2 * node.size := by
  induction node using Node.induction with
  | step handle kind children ih =>
      intro above
      have here := replacement_le (mk handle kind children, above)
      have operands : (children.map (replacements (kind :: above))).sum + children.length ≤
          2 * (children.flatMap handles).length := by
        clear here
        induction children with
        | nil => exact Nat.le_refl _
        | cons child rest onRest =>
            have first := ih child List.mem_cons_self (kind :: above)
            have later := onRest (fun other member => ih other (List.mem_cons_of_mem _ member))
            rw [List.map_cons, List.sum_cons, List.length_cons, List.flatMap_cons,
              List.length_append, length_handles]
            omega
      rw [children_mk] at here
      rw [replacements_mk, size_mk]
      omega

/-- Where every negation is a literal, no connective is replaced. -/
theorem replacements_of_isNnf (node : Node) : node.Narrow -> node.isNnf = true ->
    forall above : List Kind, (node.kind.isLogical = true -> negations above % 2 = 0) ->
      node.replacements above = 0 := by
  induction node using Node.induction with
  | step handle kind children ih =>
      intro narrow isNnf above even
      rcases narrow_mk.mp narrow with ⟨single, below⟩
      rw [isNnf_iff] at isNnf
      have here : replacement (mk handle kind children, above) = 0 := by
        cases kind with
        | connective symbol => exact replacement_of_even (even rfl)
        | _ => exact replacement_of_not_associative rfl
      have operands : forall child, child ∈ children ->
          child.replacements (kind :: above) = 0 := by
        intro child isChild
        have inside : child.isNnf = true := by
          rw [isNnf_iff]
          intro inner within
          refine isNnf inner ?_
          rw [preorder, preorderAll_eq_flatMap]
          exact List.mem_cons_of_mem _ (List.mem_flatMap.mpr ⟨child, isChild, within⟩)
        refine ih child isChild (below child isChild) inside _ (fun logical => ?_)
        cases kind with
        | connective symbol => exact negations_connective above symbol ▸ even rfl
        | not =>
            have one := Nat.le_antisymm (single rfl) (List.length_pos_of_mem isChild)
            rcases List.length_eq_one_iff.mp one with ⟨operand, only⟩
            subst only
            have atom := isNnf _ List.mem_cons_self rfl operand [] rfl
            rw [← List.mem_singleton.mp isChild, logical] at atom
            exact Bool.noConfusion atom
        | _ => exact congrArg (· % 2) (negations_of_not_logical above rfl)
      rw [replacements_mk, here, Nat.zero_add, List.sum_eq_zero_iff_forall_eq_nat]
      exact List.forall_mem_map.mpr operands

end Node

/-! ## New cells of an arena -/

namespace Arena

/-- The conversion of any node of a well-formed arena to negation normal form comes to
an end.  If no negation below the node has more than one operand, the arena grows by
the number of nodes that replace connectives.  These are at most twice as many
as there are nodes below the one converted, and none if that one passes the test for
negation normal form. -/
theorem toNnf_allocates {arena : Arena} (wellFormed : arena.WellFormed) {root : Handle}
    (bound : root < arena.size) :
    Exists fun tree : Node => arena.Reads root tree ∧
      Exists fun result : Handle => Exists fun later : Arena =>
        root.toNnf.run.run arena = some (.ok result, later) ∧
        (tree.Narrow ->
          later.size = arena.size + tree.replacements [] ∧
          later.size ≤ arena.size + 2 * tree.size ∧
          (root.isNnf.run.run arena = some (.ok true, arena) -> later.size = arena.size)) := by
  rcases wellFormed.exists_place bound with ⟨tree, path, rest, same, stored⟩
  subst same
  have member : tree.climb path ∈ tree.climb path :: rest := List.mem_cons_self
  rcases toNnf_yields tree path ⟨arena.size, []⟩ rest arena stored with ⟨later, run, kept, _⟩
  refine ⟨tree, stored.reads member, _, later, run, fun narrow => ?_⟩
  have grown : later.size = arena.size + tree.replacements [] :=
    kept.size.trans (Node.allocated_toNnf narrow _)
  have least := tree.replacements_lt []
  refine ⟨grown, by omega, fun passed => ?_⟩
  have isNnf : tree.isNnf = true :=
    result_unique (run_eq_of_yields stored (isNnf_yields member)) passed
  rw [grown, Node.replacements_of_isNnf tree narrow isNnf [] (fun _ => rfl), Nat.add_zero]

/-- A negated conjunction of a negated disjunction and a call.  The conjunction is
replaced, the disjunction is not, and the negated conjunction in the call is. -/
theorem toNnf_allocates_negated_conjunction :
    let first : Kind := .var ⟨0, 1⟩
    let call : Kind := .func ⟨2, 3⟩
    let arena : Arena := ⟨#[⟨.not, none, some 1, some 1, none, none⟩,
      ⟨.and, some 0, some 2, some 5, none, none⟩, ⟨.not, some 1, some 3, some 3, none, some 5⟩,
      ⟨.or, some 2, some 4, some 4, none, none⟩, ⟨first, some 3, none, none, none, none⟩,
      ⟨call, some 1, some 6, some 6, some 2, none⟩, ⟨.not, some 5, some 7, some 7, none, none⟩,
      ⟨.and, some 6, some 8, some 8, none, none⟩, ⟨first, some 7, none, none, none, none⟩]⟩
    Exists fun result : Handle => Exists fun later : Arena =>
      (Handle.toNnf 0).run.run arena = some (.ok result, later) ∧
        arena.size = 9 ∧ later.size = 14 := by
  intro first call arena
  let tree : Node := .mk 0 .not [.mk 1 .and [.mk 2 .not [.mk 3 .or [.mk 4 first []]],
    .mk 5 call [.mk 6 .not [.mk 7 .and [.mk 8 first []]]]]]
  have stored : arena.Stores ⟨9, [tree]⟩ := ⟨⟨by decide, by decide⟩, rfl⟩
  have top : tree.climb [] ∈ [tree] := List.mem_cons_self
  rcases toNnf_allocates stored.wellFormed (by decide : 0 < arena.size) with
    ⟨read, reads, result, later, run, allocates⟩
  have isTree : read = tree := reads.unique (stored.reads top)
  subst isTree
  have narrow : tree.Narrow := by
    unfold Node.Narrow
    decide
  have replaced : tree.replacements [] = 5 := by decide
  refine ⟨result, later, run, rfl, ?_⟩
  rw [(allocates narrow).1, replaced]
  rfl

end Arena

end PlanningDomain
