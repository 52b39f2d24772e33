import PlanningDomain.Proofs.Term.NormalForms

namespace PlanningDomain

/-!
# The atoms of normal forms

A node that is not logical is an atom of its expression, wherever it stands.  The
normal forms take connectives and negations apart and build new ones.  An atom
keeps its kind and the number of its operands, also where it is copied, though
its operands may be converted.  So a condition on the kind and the number of
operands that all atoms satisfy is satisfied by all atoms of the normal forms.
-/

namespace Term

/-- All atoms of a term are of good kinds, with good numbers of operands. -/
def EachAtom (good : Kind -> Nat -> Prop) (term : Term) : Prop :=
  forall inner, inner ∈ term.subterms -> inner.kind.isLogical = false ->
    good inner.kind inner.children.length

variable {good other : Kind -> Nat -> Prop}

theorem EachAtom.mono {term : Term} (each : term.EachAtom good)
    (implied : forall kind count, good kind count -> other kind count) : term.EachAtom other :=
  fun inner member atom => implied _ _ (each inner member atom)

theorem eachAtom_mk {kind : Kind} {children : List Term} :
    (mk kind children).EachAtom good ↔
      (kind.isLogical = false -> good kind children.length) ∧
        forall child, child ∈ children -> child.EachAtom good :=
  forall_mem_subterms_mk

theorem eachAtom_of_logical {kind : Kind} (logical : kind.isLogical = true) {children : List Term}
    (each : forall child, child ∈ children -> child.EachAtom good) :
    (mk kind children).EachAtom good :=
  eachAtom_mk.mpr ⟨fun atom => Bool.noConfusion (atom.symm.trans logical), each⟩

/-- What holds of all atoms of a term holds of all atoms of its subterms. -/
theorem EachAtom.of_mem_subterms {term inner : Term} (each : term.EachAtom good)
    (member : inner ∈ term.subterms) : inner.EachAtom good :=
  fun deep within => each deep (mem_subterms_trans within term member)

/-! ## Normal forms -/

/-- Both polarities are shown together, as the recursion changes between
them. -/
theorem eachAtom_nnf_both (term : Term) (each : term.EachAtom good) :
    term.nnf.EachAtom good ∧
      forall others : List Term, (forall other, other ∈ others -> other.EachAtom good) ->
        (term.nnfNot others).EachAtom good := by
  induction term using induction with
  | step kind children ih =>
      rcases eachAtom_mk.mp each with ⟨here, below⟩
      have plain := fun child isChild => (ih child isChild (below child isChild)).1
      have negated := fun child isChild => (ih child isChild (below child isChild)).2
      have kept : (mk kind (nnfAll children)).EachAtom good := by
        rw [nnfAll_eq_map, eachAtom_mk, List.length_map]
        exact ⟨here, List.forall_mem_map.mpr plain⟩
      by_cases negation : kind = .not
      · subst negation
        cases children with
        | nil =>
            exact ⟨kept, fun others eachOther =>
              eachAtom_of_logical rfl (List.forall_mem_cons.mpr ⟨each, eachOther⟩)⟩
        | cons operand further =>
            rw [nnf]
            refine ⟨negated operand List.mem_cons_self further ?_, fun others _ => ?_⟩
            · exact fun other isOther => below other (List.mem_cons_of_mem _ isOther)
            · rw [nnfNot]
              exact plain operand List.mem_cons_self
      · rw [nnf_of_ne_not negation]
        refine ⟨kept, fun others eachOther => ?_⟩
        by_cases atom : kind.isLogical = false
        · rw [nnfNot_of_not_logical atom]
          exact eachAtom_of_logical rfl (List.forall_mem_cons.mpr ⟨kept, eachOther⟩)
        · cases kind with
          | not => exact (negation rfl).elim
          | connective symbol =>
              rw [nnfNot, nnfNotAll_eq_map]
              refine eachAtom_of_logical rfl (List.forall_mem_map.mpr (fun child isChild => ?_))
              exact negated child isChild [] (fun _ none => (List.not_mem_nil none).elim)
          | _ => exact (atom rfl).elim

theorem EachAtom.nnf {term : Term} (each : term.EachAtom good) : term.nnf.EachAtom good :=
  (eachAtom_nnf_both term each).1

/-- Merging changes the operands of connectives only. -/
theorem EachAtom.flat {term : Term} (each : term.EachAtom good) : term.flat.EachAtom good := by
  induction term using induction with
  | step kind children ih =>
      rcases eachAtom_mk.mp each with ⟨here, below⟩
      rw [Term.flat, eachAtom_mk]
      refine ⟨fun atom => ?_, ?_⟩
      · have notAssociative : kind.isAssociative = false := by
          cases kind with
          | connective symbol => exact atom
          | _ => rfl
        rw [flatAll_of_not_associative notAssociative, List.length_map]
        exact here atom
      · exact forall_mem_flatAll (fun _ _ => And.right ∘ eachAtom_mk.mp) kind children
          (fun child isChild => ih child isChild (below child isChild))

/-- The literals of the clauses are subterms, and everything above them is
logical. -/
theorem EachAtom.dnf {term : Term} (each : term.EachAtom good) : term.dnf.EachAtom good := by
  by_cases childless : term = .mk .and []
  · subst childless
    exact eachAtom_of_logical rfl (fun _ none => (List.not_mem_nil none).elim)
  · rw [dnf_of_not_childless childless, ofClauses]
    refine eachAtom_of_logical rfl (List.forall_mem_map.mpr (fun clause listed => ?_))
    exact eachAtom_of_logical rfl
      (fun literal member => each.of_mem_subterms (mem_clauses listed member).1)

end Term

end PlanningDomain
