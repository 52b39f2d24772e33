import PlanningDomain.Proofs.Conversions
import PlanningDomain.Proofs.Term.Stability

namespace PlanningDomain

/-!
# Negation normal form by equations

A textbook gives negation normal form and merging by equations.  These
equations determine one function on terms each, also where a negation has no
operand or more than one.  The conversion in an arena computes the two
functions one after the other.  What it leaves needs no further conversion, so
a second one finds nothing to do and leaves every link as it is.
-/

namespace Term

/-! ## Equations -/

/-- The equations for moving negations to the literals.  The first operand of a
negation decides which of them applies.  A negation without operand is not
moved, and holds up the negation above it. -/
structure MovesNegations (convert : Term -> Term) : Prop where
  plain : forall kind children, kind ≠ Kind.not ->
    convert (mk kind children) = mk kind (children.map convert)
  childless : convert (mk .not []) = mk .not []
  stuck : forall others,
    convert (mk .not (mk .not [] :: others)) = mk .not (mk .not [] :: others)
  double : forall inner more others,
    convert (mk .not (mk .not (inner :: more) :: others)) = convert inner
  dual : forall symbol children others,
    convert (mk .not (mk (.connective symbol) children :: others)) =
      mk (.connective symbol.dual) (children.map (fun child => convert (mk .not [child])))
  literal : forall kind children others, kind.isLogical = false ->
    convert (mk .not (mk kind children :: others)) =
      mk .not (mk kind (children.map convert) :: others)

/-- The equation for merging operands of the same connective in their places,
once the operands have been merged themselves. -/
def Merges (merge : Term -> Term) : Prop :=
  forall kind children, merge (mk kind children) =
    mk kind (children.flatMap (fun child =>
      if kind.isAssociative ∧ child.kind = kind then (merge child).children else [merge child]))

theorem movesNegations_nnf : MovesNegations nnf where
  plain kind children other := by rw [nnf_of_ne_not other, nnfAll_eq_map]
  childless := rfl
  stuck others := rfl
  double inner more others := rfl
  dual symbol children others := by
    rw [nnf, nnfNot, nnfNotAll_eq_map]
    rfl
  literal kind children others notLogical := by
    rw [nnf, nnfNot_of_not_logical notLogical, nnfAll_eq_map]

/-- The equations determine what becomes of a term, and of a negation of it
whatever further operands the negation has. -/
theorem MovesNegations.eq_nnf_both {convert : Term -> Term} (moves : MovesNegations convert)
    (term : Term) :
    convert term = term.nnf ∧
      forall others : List Term, convert (Term.mk .not (term :: others)) = term.nnfNot others := by
  induction term using induction with
  | step kind children ih =>
      have plain : children.map convert = nnfAll children := by
        rw [nnfAll_eq_map]
        exact List.map_congr_left (fun child isChild => (ih child isChild).1)
      constructor
      · by_cases negation : kind = .not
        · subst negation
          cases children with
          | nil => exact moves.childless
          | cons operand others => exact (ih operand List.mem_cons_self).2 others
        · rw [moves.plain kind children negation, nnf_of_ne_not negation, plain]
      · intro others
        by_cases notLogical : kind.isLogical = false
        · rw [moves.literal kind children others notLogical, nnfNot_of_not_logical notLogical,
            plain]
        · cases kind with
          | not =>
              cases children with
              | nil => exact moves.stuck others
              | cons inner more =>
                  exact (moves.double inner more others).trans (ih inner List.mem_cons_self).1
          | connective symbol =>
              rw [moves.dual symbol children others, nnfNot, nnfNotAll_eq_map]
              congr 1
              exact List.map_congr_left (fun child isChild => (ih child isChild).2 [])
          | _ => exact (notLogical rfl).elim

theorem MovesNegations.eq_nnf {convert : Term -> Term} (moves : MovesNegations convert)
    (term : Term) : convert term = term.nnf :=
  (moves.eq_nnf_both term).1

theorem flatAll_eq_flatMap (outer : Kind) (terms : List Term) :
    flatAll outer terms = terms.flatMap (fun term =>
      if outer.isAssociative ∧ term.kind = outer then term.flat.children else [term.flat]) := by
  induction terms with
  | nil => rfl
  | cons term rest ih =>
      rw [flatAll, ih, List.flatMap_cons]
      congr 1
      exact if_congr (Kind.absorbs_iff outer term.kind) rfl rfl

theorem merges_flat : Merges flat := by
  intro kind children
  rw [flat, flatAll_eq_flatMap]

theorem Merges.eq_flat {merge : Term -> Term} (merges : Merges merge) (term : Term) :
    merge term = term.flat := by
  induction term using induction with
  | step kind children ih =>
      rw [merges, flat, flatAll_eq_flatMap]
      congr 1
      exact List.flatMap_congr (fun child isChild => by rw [ih child isChild])

/-- A negation that cannot be moved stands above a literal or above a negation
without operand. -/
theorem Resolved.operand {kind : Kind} {children others : List Term}
    (resolved : (mk .not (mk kind children :: others)).Resolved) :
    kind.isLogical = false ∧ (forall child, child ∈ children -> child.Resolved) ∨
      kind = .not ∧ children = [] := by
  cases resolved with
  | plain impossible _ => exact (impossible rfl).elim
  | literal notLogical each _ => exact Or.inl ⟨notLogical, each⟩
  | stuck _ => exact Or.inr ⟨rfl, rfl⟩

end Term

namespace Node

/-! ## Conversions without work -/

theorem nnfAll_of_resolved {nodes : List Node}
    (each : forall node, node ∈ nodes -> forall forest : Forest, node.nnf forest = (node, forest))
    (forest : Forest) : nnfAll forest nodes = (nodes, forest) := by
  induction nodes with
  | nil => rfl
  | cons node rest ih =>
      rw [nnfAll, each node List.mem_cons_self,
        ih (fun other later => each other (List.mem_cons_of_mem _ later))]

/-- An expression without negations to be moved does not change, and no node is
built or set aside. -/
theorem nnf_of_resolved_both (node : Node) :
    (node.term.Resolved -> forall forest : Forest, node.nnf forest = (node, forest)) ∧
      forall others : List Node, (Term.mk .not (node.term :: others.map term)).Resolved ->
        forall (forest : Forest) (negation : Handle),
          node.nnfNot forest negation others = (mk negation .not (node :: others), forest) := by
  induction node using Node.induction with
  | step handle kind children ih =>
      have kept : (forall child, child ∈ children.map term -> child.Resolved) ->
          forall forest : Forest, nnfAll forest children = (children, forest) :=
        fun each => nnfAll_of_resolved (fun child isChild =>
          (ih child isChild).1 (each _ (List.mem_map_of_mem isChild)))
      rw [term_mk]
      constructor
      · intro resolved forest
        by_cases negation : kind = .not
        · subst negation
          cases children with
          | nil => rfl
          | cons operand others =>
              exact (ih operand List.mem_cons_self).2 others resolved forest handle
        · rw [nnf_of_ne_not negation, kept ((Term.resolved_mk negation).mp resolved)]
      · intro others resolved forest negation
        rcases resolved.operand with ⟨notLogical, each⟩ | ⟨isNot, none⟩
        · rw [nnfNot_of_not_logical notLogical, kept each]
        · rw [isNot, List.map_eq_nil_iff.mp none]
          rfl

/-- What has been converted is not changed by a second conversion. -/
theorem toNnf_toNnf (node : Node) (forest again : Forest) :
    (node.toNnf forest).1.toNnf again = ((node.toNnf forest).1, again) := by
  have resolved : (node.toNnf forest).1.term.Resolved := by
    rw [term_toNnf]
    exact Term.resolved_toNnf _
  obtain ⟨same, none⟩ := flatten_of_isFlat.1 _ (node.isFlat_toNnf forest)
  rw [toNnf, (nnf_of_resolved_both _).1 resolved]
  change ((node.toNnf forest).1.flatten, again.plantAll (node.toNnf forest).1.shells) = _
  rw [same, none]
  rfl

end Node

/-! ## The conversion in an arena -/

namespace Arena

/-- From every node of a well-formed arena, the conversion comes to an end, and
the expression that it answers has the term that the textbook equations give.
It is flat, and in negation normal form if every negation below the node has
exactly one operand.  A second conversion answers the same handle and leaves
the arena as it is. -/
theorem toNnf_refines_equations {arena : Arena} (wellFormed : arena.WellFormed) {root : Handle}
    (bound : root < arena.size) {convert merge : Term -> Term}
    (moves : Term.MovesNegations convert) (merges : Term.Merges merge) :
    Exists fun tree : Node => arena.Reads root tree ∧
      Exists fun result : Node => Exists fun left : Arena =>
        root.toNnf.run.run arena = some (.ok result.handle, left) ∧
        left.Reads result.handle result ∧ result.term = merge (convert tree.term) ∧
        result.handle.isFlat.run.run left = some (.ok true, left) ∧
        (tree.term.isUnary = true -> result.handle.isNnf.run.run left = some (.ok true, left)) ∧
        result.handle.toNnf.run.run left = some (.ok result.handle, left) := by
  rcases wellFormed.exists_place bound with ⟨tree, path, rest, same, stored⟩
  subst same
  rcases toNnf_yields tree path ⟨arena.size, []⟩ rest arena stored with ⟨left, run, kept, _⟩
  have again := tree.toNnf_toNnf ⟨arena.size, []⟩
  have isFlat := tree.isFlat_toNnf ⟨arena.size, []⟩
  have form := tree.term_toNnf ⟨arena.size, []⟩
  generalize tree.toNnf ⟨arena.size, []⟩ = converted at *
  have isNnf : tree.term.isUnary = true -> converted.1.isNnf = true := by
    intro unary
    rw [Node.isNnf_eq, form]
    exact Term.isNnf_flat _ (Term.nnf_forms tree.term unary).1.2
  refine ⟨tree, stored.reads List.mem_cons_self, converted.1, left, run,
    kept.reads List.mem_cons_self, ?_, ?_, fun unary => ?_, ?_⟩
  · rw [form, merges.eq_flat, moves.eq_nnf]
  · rw [run_eq_of_yields kept (isFlat_yields List.mem_cons_self), isFlat]
  · rw [run_eq_of_yields kept (isNnf_yields List.mem_cons_self), isNnf unary]
  · have second := toNnf_yields converted.1 path ⟨converted.2.allocated, []⟩
      (converted.2.roots ++ rest)
    rw [again] at second
    exact run_eq_of_yields kept second

/-- The negation of a conjunction with a negation among its operands, and with a
disjunction to be merged once the conjunction has become one. -/
theorem toNnf_refines_equations_negated_conjunction :
    let first : Kind := .var ⟨0, 1⟩
    let second : Kind := .var ⟨2, 3⟩
    let arena : Arena := ⟨#[⟨.not, none, some 1, some 1, none, none⟩,
      ⟨.and, some 0, some 2, some 4, none, none⟩, ⟨.not, some 1, some 3, some 3, none, some 4⟩,
      ⟨first, some 2, none, none, none, none⟩, ⟨.and, some 1, some 5, some 5, some 2, none⟩,
      ⟨second, some 4, none, none, none, none⟩]⟩
    Exists fun result : Node => Exists fun left : Arena =>
      (Handle.toNnf 0).run.run arena = some (.ok result.handle, left) ∧
      result.term = .mk .or [.mk first [], .mk .not [.mk second []]] ∧
      result.handle.isNnf.run.run left = some (.ok true, left) ∧
      result.handle.toNnf.run.run left = some (.ok result.handle, left) := by
  intro first second arena
  let tree : Node := .mk 0 .not [.mk 1 .and [.mk 2 .not [.mk 3 first []],
    .mk 4 .and [.mk 5 second []]]]
  have stored : arena.Stores ⟨6, [tree]⟩ := ⟨⟨by decide, by decide⟩, rfl⟩
  have bound : 0 < arena.size := by decide
  have top : tree.climb [] ∈ [tree] := List.mem_cons_self
  rcases toNnf_refines_equations stored.wellFormed bound Term.movesNegations_nnf
    Term.merges_flat with ⟨read, reads, result, left, run, _, form, _, isNnf, again⟩
  have isTree : read = tree := reads.unique (stored.reads top)
  subst isTree
  exact ⟨result, left, run, form, isNnf rfl, again⟩

end Arena

end PlanningDomain
