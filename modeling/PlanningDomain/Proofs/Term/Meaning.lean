import PlanningDomain.Proofs.Term.NormalForms

namespace PlanningDomain

/-!
# Meaning of terms

The connectives and negation have their usual meaning.  What any other node
means is left open.  An interpretation says it as a function of the kind of the
node, with its payload, and of the truth values of the operands in order.  So
logical operands of a comparison or a call are seen only through their truth
values, and the conversions may change them as long as these stay.

The recursions on terms keep the truth value in every interpretation.  For the
negation normal form every negation must have exactly one operand.
-/

/-- The meaning of the nodes that are not logical. -/
abbrev Interpretation :=
  Kind -> List Bool -> Bool

namespace Term

mutual

/-- The truth value of a term. -/
def truth (world : Interpretation) : Term -> Bool
  | mk .and children => (truths world children).all id
  | mk .or children => (truths world children).any id
  | mk .not children => !(truths world children).all id
  | mk kind children => world kind (truths world children)

def truths (world : Interpretation) : List Term -> List Bool
  | [] => []
  | term :: rest => term.truth world :: truths world rest

end

section Truth

variable (world : Interpretation)

theorem truths_eq_map (terms : List Term) : truths world terms = terms.map (truth world) := by
  induction terms with
  | nil => rfl
  | cons term rest ih => rw [truths, ih, List.map_cons]

theorem truth_congr {kind : Kind} {children others : List Term}
    (same : truths world children = truths world others) :
    (mk kind children).truth world = (mk kind others).truth world := by
  cases kind with
  | connective symbol => cases symbol <;> rw [truth, truth, same]
  | not => rw [truth, truth, same]
  | _ =>
      change world _ (truths world children) = world _ (truths world others)
      rw [same]

/-! ## Merging -/

theorem truth_flat_both :
    (forall term : Term, term.flat.truth world = term.truth world) ∧
      forall terms : List Term,
        ((truths world (flatAll .and terms)).all id = (truths world terms).all id) ∧
        ((truths world (flatAll .or terms)).any id = (truths world terms).any id) ∧
        truths world (terms.map flat) = truths world terms := by
  refine induction_both ?_ ⟨rfl, rfl, rfl⟩ ?_
  · intro kind children ih
    rw [flat]
    by_cases associative : kind.isAssociative = false
    · rw [flatAll_of_not_associative associative]
      exact truth_congr world ih.2.2
    · cases kind with
      | connective symbol =>
          cases symbol with
          | and => exact ih.1
          | or => exact ih.2.1
      | _ => exact (associative rfl).elim
  · intro term rest head tail
    have merged (symbol : Connective)
      (absorbed : (Kind.connective symbol).absorbs term.kind = true) :
        mk (.connective symbol) term.flat.children = term.flat := by
      rcases term with ⟨kind, children⟩
      have same := ((Kind.absorbs_iff _ _).mp absorbed).2
      rw [kind_mk] at same
      rw [same]
      rfl
    refine ⟨?_, ?_, ?_⟩
    · rw [flatAll, truths_eq_map, List.map_append, List.all_append,
        ← truths_eq_map world (flatAll _ _),
        tail.1, truths, List.all_cons]
      congr 1
      by_cases absorbed : Kind.and.absorbs term.kind = true
      · rw [if_pos absorbed, ← truths_eq_map, id, ← head, ← merged .and absorbed]
        rfl
      · rw [if_neg absorbed, List.map_singleton, List.all_cons, List.all_nil, Bool.and_true, head]
    · rw [flatAll, truths_eq_map, List.map_append, List.any_append,
        ← truths_eq_map world (flatAll _ _),
        tail.2.1, truths, List.any_cons]
      congr 1
      by_cases absorbed : Kind.or.absorbs term.kind = true
      · rw [if_pos absorbed, ← truths_eq_map, id, ← head, ← merged .or absorbed]
        rfl
      · rw [if_neg absorbed, List.map_singleton, List.any_cons, List.any_nil, Bool.or_false, head]
    · rw [List.map_cons, truths, truths, head, tail.2.2]

/-- Merging keeps the truth value. -/
theorem truth_flat (term : Term) : term.flat.truth world = term.truth world :=
  (truth_flat_both world).1 term

/-! ## Negations -/

/-- The negation normal form keeps the truth value, and that of the negation has
the other one. -/
theorem truth_nnf_both (term : Term) (unary : term.isUnary = true) :
    term.nnf.truth world = term.truth world ∧
      (term.nnfNot []).truth world = !term.truth world := by
  induction term using induction with
  | step kind children ih =>
      rcases isUnary_mk.mp unary with ⟨single, below⟩
      have plain : truths world (nnfAll children) = truths world children := by
        rw [nnfAll_eq_map, truths_eq_map, truths_eq_map, List.map_map]
        exact List.map_congr_left (fun child isChild => (ih child isChild (below child isChild)).1)
      have negated : truths world (nnfNotAll children) = (truths world children).map (!·) := by
        rw [nnfNotAll_eq_map, truths_eq_map, truths_eq_map, List.map_map, List.map_map]
        exact List.map_congr_left (fun child isChild => (ih child isChild (below child isChild)).2)
      by_cases negation : kind = .not
      · subst negation
        rcases List.length_eq_one_iff.mp (single rfl) with ⟨operand, only⟩
        subst only
        rcases ih operand List.mem_cons_self (below operand List.mem_cons_self) with
          ⟨same, opposite⟩
        have value : (mk .not [operand]).truth world = !operand.truth world := by
          rw [truth, truths, truths, List.all_cons, List.all_nil, Bool.and_true, id]
        rw [nnf, nnfNot, value, same, opposite, Bool.not_not]
        exact ⟨rfl, rfl⟩
      · rw [nnf_of_ne_not negation]
        refine ⟨truth_congr world plain, ?_⟩
        by_cases notLogical : kind.isLogical = false
        · rw [nnfNot_of_not_logical notLogical, truth, truths, truths, List.all_cons, List.all_nil,
            Bool.and_true, id, truth_congr world plain]
        · cases kind with
          | not => exact (negation rfl).elim
          | connective symbol =>
              rw [nnfNot]
              cases symbol with
              | and =>
                  change (truths world (nnfNotAll children)).any id =
                    !(truths world children).all id
                  rw [negated, List.any_map, List.not_all_eq_any_not]
                  rfl
              | or =>
                  change (truths world (nnfNotAll children)).all id =
                    !(truths world children).any id
                  rw [negated, List.all_map, List.not_any_eq_all_not]
                  rfl
          | _ => exact (notLogical rfl).elim

/-! ## Clauses -/

/-- Some clause of a list of clauses is true. -/
def someTrue (clauses : List (List Term)) : Bool :=
  clauses.any (fun clause => clause.all (truth world))

/-- Some combination is true if every family has a clause that is. -/
theorem someTrue_combinations (families : List (List (List Term))) :
    someTrue world (combinations families) = families.all (someTrue world) := by
  induction families with
  | nil => rfl
  | cons family families ih =>
      rw [List.all_cons, ← ih, combinations]
      unfold someTrue
      rw [List.any_flatMap, List.and_any_distrib_right]
      congr 1
      funext choice
      rw [List.any_map, List.and_any_distrib_left]
      congr 1
      funext joined
      exact List.all_append

theorem truth_clauses_both :
    (forall term : Term, someTrue world term.clauses = term.truth world) ∧
      forall terms : List Term,
        (clausesAll terms).map (someTrue world) = truths world terms := by
  refine induction_both ?_ rfl ?_
  · intro kind children ih
    by_cases connective : Exists fun symbol : Connective => kind = .connective symbol
    · rcases connective with ⟨symbol, same⟩
      subst same
      cases symbol with
      | and =>
          rw [clauses, someTrue_combinations, truth, ← ih, List.all_map]
          rfl
      | or =>
          rw [clauses, truth, ← ih, List.any_map, someTrue, List.any_flatten]
          rfl
    · have notConnective : forall symbol, (mk kind children).kind ≠ .connective symbol :=
        fun symbol same => connective ⟨symbol, same⟩
      rw [clauses_of_literal notConnective, someTrue, List.any_cons,
        List.any_nil, Bool.or_false, List.all_cons, List.all_nil, Bool.and_true]
  · intro term rest head tail
    rw [clausesAll, List.map_cons, truths, head, tail]

/-- A disjunction of clauses says that some clause is true. -/
theorem truth_ofClauses (clauses : List (List Term)) :
    (ofClauses clauses).truth world = someTrue world clauses := by
  rw [ofClauses, truth, truths_eq_map, List.map_map, List.any_map, someTrue]
  congr 1
  funext clause
  change (truths world clause).all id = clause.all (truth world)
  rw [truths_eq_map, List.all_map]
  rfl

/-- The clauses of a term say together what the term says, also where some of
them or all of them are empty. -/
theorem truth_clauses (term : Term) : (ofClauses term.clauses).truth world = term.truth world :=
  (truth_ofClauses world term.clauses).trans ((truth_clauses_both world).1 term)

/-- A conjunction without operands that stands below a disjunction is true, and
so is the disjunction of its clauses. -/
example : (ofClauses (mk .or [mk .and []]).clauses).truth world = true := rfl

end Truth

end Term

end PlanningDomain
