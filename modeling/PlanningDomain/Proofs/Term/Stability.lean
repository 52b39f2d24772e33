import PlanningDomain.Proofs.Term.NormalForms

namespace PlanningDomain

/-!
# Repeated conversions of terms

Each conversion leaves a term as it is that has been through it before, or
through a stronger one.  A negation may be stuck, because it has no operand or
because the negation below it has none.  So what the conversion to negation
normal form leaves as it is goes beyond the terms in that form.

Merging before negations are moved makes no difference to what is merged
afterwards, since a negation goes through a merged connective as it goes
through the ones that were merged.
-/

namespace Term

/-! ## Terms without work left for a negation -/

/-- No negation of the term can be moved, or all that can be are out of
reach behind one that cannot. -/
inductive Resolved : Term -> Prop
  | plain {kind : Kind} {children : List Term} (other : kind ≠ .not)
      (each : forall child, child ∈ children -> Resolved child) : Resolved (mk kind children)
  | literal {kind : Kind} {children : List Term} (notLogical : kind.isLogical = false)
      (each : forall child, child ∈ children -> Resolved child) (others : List Term) :
      Resolved (mk .not (mk kind children :: others))
  | childless : Resolved (mk .not [])
  | stuck (others : List Term) : Resolved (mk .not (mk .not [] :: others))

theorem Resolved.nnf_eq {term : Term} (resolved : term.Resolved) : term.nnf = term := by
  have all : forall children : List Term, (forall child, child ∈ children -> child.nnf = child) ->
      nnfAll children = children := by
    intro children each
    rw [nnfAll_eq_map]
    exact (List.map_congr_left each).trans (List.map_id _)
  induction resolved with
  | plain other _ ih => rw [nnf_of_ne_not other, all _ ih]
  | literal notLogical _ others ih => rw [nnf, nnfNot_of_not_logical notLogical, all _ ih]
  | childless => rfl
  | stuck others => rfl

/-- Moving the negations of a term leaves none that could be moved further. -/
theorem resolved_nnf_both (term : Term) :
    term.nnf.Resolved ∧ forall others : List Term, (term.nnfNot others).Resolved := by
  induction term using induction with
  | step kind children ih =>
      have plain : forall child, child ∈ nnfAll children -> child.Resolved := by
        rw [nnfAll_eq_map]
        exact List.forall_mem_map.mpr (fun child isChild => (ih child isChild).1)
      constructor
      · by_cases negation : kind = .not
        · subst negation
          cases children with
          | nil => exact .childless
          | cons operand others => exact (ih operand List.mem_cons_self).2 others
        · rw [nnf_of_ne_not negation]
          exact .plain negation plain
      · intro others
        by_cases notLogical : kind.isLogical = false
        · rw [nnfNot_of_not_logical notLogical]
          exact .literal notLogical plain others
        · cases kind with
          | not =>
              cases children with
              | nil => exact .stuck others
              | cons inner _ => exact (ih inner List.mem_cons_self).1
          | connective symbol =>
              rw [nnfNot, nnfNotAll_eq_map]
              refine .plain (fun impossible => Kind.noConfusion impossible) ?_
              exact List.forall_mem_map.mpr (fun child isChild => (ih child isChild).2 [])
          | _ => exact (notLogical rfl).elim

theorem resolved_nnf (term : Term) : term.nnf.Resolved :=
  (resolved_nnf_both term).1

theorem resolved_mk {kind : Kind} {children : List Term} (other : kind ≠ .not) :
    (mk kind children).Resolved ↔ forall child, child ∈ children -> child.Resolved := by
  constructor
  · intro resolved
    cases resolved with
    | plain _ each => exact each
    | literal _ _ _ => exact (other rfl).elim
    | childless => exact (other rfl).elim
    | stuck _ => exact (other rfl).elim
  · exact .plain other

theorem not_associative_of_not_logical {kind : Kind} (notLogical : kind.isLogical = false) :
    kind.isAssociative = false := by
  cases kind with
  | connective symbol => exact notLogical
  | _ => rfl

/-- Merging leaves no negation that could be moved. -/
theorem Resolved.flat {term : Term} (resolved : term.Resolved) : term.flat.Resolved := by
  induction resolved with
  | plain other _ ih =>
      rw [Term.flat, resolved_mk other]
      refine forall_mem_flatAll (fun symbol _ => ?_) _ _ ih
      exact (resolved_mk (fun impossible => Kind.noConfusion impossible)).mp
  | literal notLogical _ others ih =>
      rw [Term.flat, flatAll_of_not_associative rfl, List.map_cons, Term.flat,
        flatAll_of_not_associative (not_associative_of_not_logical notLogical)]
      exact .literal notLogical (List.forall_mem_map.mpr ih) _
  | childless => exact .childless
  | stuck others =>
      rw [Term.flat, flatAll_of_not_associative rfl, List.map_cons]
      exact .stuck _

/-! ## Merging twice -/

theorem flat_of_isFlat {term : Term} (isFlat : term.isFlat = true) : term.flat = term := by
  induction term using induction with
  | step kind children ih =>
      rcases isFlat_mk.mp isFlat with ⟨merged, below⟩
      have kept := isMerged_iff.mp merged
      have same : forall terms : List Term, (forall child, child ∈ terms -> child ∈ children) ->
          flatAll kind terms = terms := by
        intro terms among
        induction terms with
        | nil => rfl
        | cons term rest onRest =>
            have isChild := among term List.mem_cons_self
            rw [flatAll, if_neg (kept term isChild), ih term isChild (below term isChild),
              onRest (fun child later => among child (List.mem_cons_of_mem _ later)),
              List.singleton_append]
      rw [flat, same children (fun _ isChild => isChild)]

theorem flat_flat (term : Term) : term.flat.flat = term.flat :=
  flat_of_isFlat (isFlat_flat term)

theorem map_flat_flat (terms : List Term) : (terms.map flat).map flat = terms.map flat := by
  rw [List.map_map]
  exact List.map_congr_left (fun term _ => flat_flat term)

/-! ## Merging before a conversion -/

theorem flatAll_append (outer : Kind) (first second : List Term) :
    flatAll outer (first ++ second) = flatAll outer first ++ flatAll outer second := by
  induction first with
  | nil => rfl
  | cons term rest ih => rw [List.cons_append, flatAll, flatAll, ih, List.append_assoc]

/-- A conversion that goes from a connective to its operands, and may turn the
connective into another one, goes through merged connectives in the same
way. -/
theorem flatAll_convert {outer result : Kind} {convert : Term -> Term}
    (distributes : outer.isAssociative = true -> result.isAssociative = true ∧
      forall children, convert (mk outer children) = mk result (children.map convert))
    {terms : List Term}
    (same : forall term, term ∈ terms -> (convert term.flat).flat = (convert term).flat) :
    flatAll result ((flatAll outer terms).map convert) = flatAll result (terms.map convert) := by
  induction terms with
  | nil => rfl
  | cons term rest ih =>
      have here := same term List.mem_cons_self
      rw [flatAll, List.map_append, flatAll_append, List.map_cons, flatAll,
        ih (fun other later => same other (List.mem_cons_of_mem _ later))]
      congr 1
      by_cases absorbed : outer.absorbs term.kind = true
      · rcases (Kind.absorbs_iff _ _).mp absorbed with ⟨associative, isOuter⟩
        rcases distributes associative with ⟨resultAssociative, through⟩
        rcases term with ⟨kind, children⟩
        rw [kind_mk] at isOuter
        subst isOuter
        rw [flat, through, flat] at here
        have taken : result.absorbs (convert (mk kind children)).kind = true := by
          rw [through]
          exact (Kind.absorbs_iff _ _).mpr ⟨resultAssociative, rfl⟩
        rw [if_pos absorbed, if_pos taken, ← here]
        rfl
      · rw [if_neg absorbed, List.map_singleton, flatAll, flatAll, List.append_nil, here,
          ← (convert term.flat).kind_flat, here, kind_flat]

/-- Merging before negations are moved makes no difference after merging. -/
theorem flat_nnf_flat_both (term : Term) :
    term.flat.nnf.flat = term.nnf.flat ∧
      forall others : List Term,
        (term.flat.nnfNot (others.map flat)).flat = (term.nnfNot others).flat := by
  induction term using induction with
  | step kind children ih =>
      have plain : kind ≠ .not -> flatAll kind (nnfAll (flatAll kind children)) =
          flatAll kind (nnfAll children) := by
        intro other
        rw [nnfAll_eq_map, nnfAll_eq_map]
        refine flatAll_convert (fun associative => ⟨associative, fun below => ?_⟩)
          (fun child isChild => (ih child isChild).1)
        rw [nnf_of_ne_not other, nnfAll_eq_map]
      constructor
      · by_cases negation : kind = .not
        · subst negation
          rw [flat, flatAll_of_not_associative rfl]
          cases children with
          | nil => rfl
          | cons operand others => exact (ih operand List.mem_cons_self).2 others
        · rw [flat, nnf_of_ne_not negation, nnf_of_ne_not negation, flat, flat, plain negation]
      · intro others
        have once : forall operand : Term, (mk .not (operand :: others)).flat =
            mk .not (operand.flat :: others.map flat) := by
          intro operand
          rw [flat, flatAll_of_not_associative rfl, List.map_cons]
        have twice : forall operand : Term, (mk .not (operand :: others.map flat)).flat =
            mk .not (operand.flat :: others.map flat) := by
          intro operand
          rw [flat, flatAll_of_not_associative rfl, List.map_cons, map_flat_flat]
        by_cases notLogical : kind.isLogical = false
        · rw [flat, nnfNot_of_not_logical notLogical, nnfNot_of_not_logical notLogical, once, twice,
            flat, plain (Kind.ne_not_of_not_logical notLogical), flat]
        · cases kind with
          | not =>
              rw [flat, flatAll_of_not_associative rfl]
              cases children with
              | nil => exact (twice (mk .not [])).trans (once (mk .not [])).symm
              | cons inner _ => exact (ih inner List.mem_cons_self).1
          | connective symbol =>
              rw [flat, nnfNot, nnfNot, flat, flat, nnfNotAll_eq_map, nnfNotAll_eq_map]
              congr 1
              refine flatAll_convert (fun _ => ⟨rfl, fun below => ?_⟩)
                (fun child isChild => (ih child isChild).2 [])
              rw [nnfNot, nnfNotAll_eq_map]
          | _ => exact (notLogical rfl).elim

theorem flat_nnf_flat (term : Term) : term.flat.nnf.flat = term.nnf.flat :=
  (flat_nnf_flat_both term).1

/-! ## Clauses twice -/

/-- One clause for each operand makes one clause of all of them. -/
theorem combinations_singletons {alpha : Type} (entries : List alpha) :
    combinations (entries.map (fun entry => [[entry]])) = [entries] := by
  induction entries with
  | nil => rfl
  | cons entry rest ih => rw [List.map_cons, combinations, ih]; rfl

theorem clausesAll_eq_map (terms : List Term) : clausesAll terms = terms.map clauses := by
  induction terms with
  | nil => rfl
  | cons term rest ih => rw [clausesAll, ih, List.map_cons]

/-- The clauses of a disjunction of clauses are these clauses. -/
theorem clauses_ofClauses {choices : List (List Term)}
    (literals : forall clause, clause ∈ choices -> forall literal, literal ∈ clause ->
      forall symbol, literal.kind ≠ .connective symbol) :
    (ofClauses choices).clauses = choices := by
  have single : forall clause, clause ∈ choices -> (mk .and clause).clauses = [clause] := by
    intro clause listed
    have each : clause.map clauses = clause.map (fun literal => [[literal]]) :=
      List.map_congr_left (fun literal member =>
        clauses_of_literal (literals clause listed literal member))
    rw [clauses, clausesAll_eq_map, each, combinations_singletons]
  calc
    (ofClauses choices).clauses = (choices.map (clauses ∘ mk .and)).flatten := by
      rw [ofClauses, clauses, clausesAll_eq_map, List.map_map]
    _ = (choices.map (fun clause => [clause])).flatten :=
      congrArg List.flatten (List.map_congr_left single)
    _ = choices := by rw [← List.flatMap_def, List.flatMap_singleton']

theorem dnf_ofClauses (choices : List (List Term)) :
    (ofClauses choices).dnf = ofClauses (ofClauses choices).clauses :=
  dnf_of_not_childless (fun impossible =>
    Connective.noConfusion (Kind.connective.inj (Term.mk.inj impossible).1))

theorem dnf_dnf (term : Term) : term.dnf.dnf = term.dnf := by
  by_cases childless : term = .mk .and []
  · subst childless
    rfl
  · rw [dnf_of_not_childless childless, dnf_ofClauses, clauses_ofClauses]
    exact fun clause listed literal member => (mem_clauses listed member).2

/-- The clauses of a term without negations to be moved have none either. -/
theorem Resolved.dnf {term : Term} (resolved : term.Resolved) : term.dnf.Resolved := by
  have connective : forall symbol children, (mk (.connective symbol) children).Resolved ↔
      forall child, child ∈ children -> child.Resolved :=
    fun _ _ => resolved_mk (fun impossible => Kind.noConfusion impossible)
  by_cases childless : term = .mk .and []
  · subst childless
    exact (connective .or []).mpr (fun _ impossible => (List.not_mem_nil impossible).elim)
  · rw [dnf_of_not_childless childless, ofClauses, connective, List.forall_mem_map]
    intro clause listed
    rw [connective]
    intro literal member
    exact ((forall_mem_clauses (fun symbol children => (connective symbol children).mp)).1
      term resolved clause listed literal member).1

/-! ## Results of conversions -/

/-- A flat term without negations to be moved is its own flat negation normal
form. -/
theorem Resolved.settled {term : Term} (resolved : term.Resolved) (isFlat : term.isFlat = true) :
    term.nnf.flat = term := by
  rw [resolved.nnf_eq, flat_of_isFlat isFlat]

theorem resolved_toNnf (term : Term) : term.nnf.flat.Resolved :=
  (resolved_nnf term).flat

theorem settled_toNnf (term : Term) : term.nnf.flat.nnf.flat = term.nnf.flat :=
  (resolved_toNnf term).settled (isFlat_flat _)

theorem settled_toDnf (term : Term) : term.nnf.flat.dnf.nnf.flat = term.nnf.flat.dnf :=
  (resolved_toNnf term).dnf.settled (isFlat_dnf (isFlat_flat _))

end Term

end PlanningDomain
