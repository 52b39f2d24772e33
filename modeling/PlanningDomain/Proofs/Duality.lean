import Mathlib.Data.List.Forall2
import PlanningDomain.Proofs.Forms

namespace PlanningDomain

/-!
# Negation as duality

The conversion to negation normal form goes through an expression in one way, and
through its negation in another.  The two results are the same tree all the same.
Above the literals one has a conjunction where the other has a disjunction, and at
each literal one of them has the negation of the other.

Merging respects this, since a connective takes over exactly the operands
that its dual takes over on the other side.  So the law holds of the results
of the conversion.  It gives De Morgan's laws for any number of operands, and
lets negations cancel in pairs at any depth.
-/

namespace Term

/-! ## Opposite terms -/

/-- The connectives above the literals are exchanged, and each literal stands negated
on one side.  The operands below a literal are the same on both sides. -/
inductive Opposes : Term -> Term -> Prop
  | connective (symbol : Connective) {children others : List Term} :
      List.Forall₂ Opposes children others ->
      Opposes (mk (.connective symbol) children) (mk (.connective symbol.dual) others)
  | negated {literal : Term} : literal.kind.isLogical = false ->
      Opposes literal (mk .not [literal])
  | plain {literal : Term} : literal.kind.isLogical = false ->
      Opposes (mk .not [literal]) literal

namespace Opposes

/-- Induction on opposite terms, with the statement known of the operands in
order. -/
theorem induction {motive : Term -> Term -> Prop}
    (connective : forall symbol children others, List.Forall₂ motive children others ->
      motive (mk (.connective symbol) children) (mk (.connective symbol.dual) others))
    (negated : forall literal : Term, literal.kind.isLogical = false ->
      motive literal (mk .not [literal]))
    (plain : forall literal : Term, literal.kind.isLogical = false ->
      motive (mk .not [literal]) literal)
    {term other : Term} (opposite : term.Opposes other) : motive term other := by
  have both : (forall term other : Term, term.Opposes other -> motive term other) ∧
      forall terms others : List Term, List.Forall₂ Opposes terms others ->
        List.Forall₂ motive terms others := by
    refine induction_both ?_ ?_ ?_
    · intro kind children ih other opposite
      cases opposite with
      | connective symbol operands => exact connective symbol _ _ (ih _ operands)
      | negated literal => exact negated _ literal
      | plain literal => exact plain _ literal
    · intro others opposite
      cases opposite
      exact .nil
    · intro term rest head tail others opposite
      cases opposite with
      | cons first later => exact .cons (head _ first) (tail _ later)
  exact both.1 term other opposite

theorem symm {term other : Term} (opposite : term.Opposes other) : other.Opposes term := by
  refine induction (motive := fun term other => other.Opposes term) ?_ ?_ ?_ opposite
  · intro symbol children others operands
    have back := Opposes.connective symbol.dual operands.flip
    rw [symbol.dual_dual] at back
    exact back
  · exact fun _ literal => .plain literal
  · exact fun _ literal => .negated literal

/-- A term has at most one opposite. -/
theorem unique {term other : Term} (opposite : term.Opposes other) :
    forall another : Term, term.Opposes another -> another = other := by
  refine induction (motive := fun term other =>
    forall another : Term, term.Opposes another -> another = other) ?_ ?_ ?_ opposite
  · intro symbol children others operands another again
    cases again with
    | @connective _ _ twins later =>
        congr 1
        induction operands generalizing twins with
        | nil =>
            cases later
            rfl
        | cons first _ ih =>
            cases later with
            | cons head tail => rw [first _ head, ih tail]
    | negated literal => exact Bool.noConfusion literal
  · intro literal notLogical another again
    cases again with
    | connective symbol _ => exact Bool.noConfusion notLogical
    | negated _ => rfl
    | plain _ => exact Bool.noConfusion notLogical
  · intro literal notLogical another again
    cases again with
    | negated logical => exact Bool.noConfusion logical
    | plain _ => rfl

end Opposes

/-! ## Negation normal form -/

/-- Moving the negations of a term and of its negation gives opposite terms. -/
theorem opposes_nnf {term : Term} (unary : term.isUnary = true) :
    term.nnf.Opposes (term.nnfNot []) := by
  induction term using Term.induction with
  | step kind children ih =>
      rcases isUnary_mk.mp unary with ⟨single, below⟩
      cases logical : kind.isLogical with
      | false =>
          rw [nnf_of_ne_not (Kind.ne_not_of_not_logical logical), nnfNot_of_not_logical logical]
          exact .negated logical
      | true =>
          cases kind with
          | not =>
              rcases List.length_eq_one_iff.mp (single rfl) with ⟨operand, only⟩
              subst only
              exact (ih operand List.mem_cons_self (below operand List.mem_cons_self)).symm
          | connective symbol =>
              rw [nnf_of_ne_not Kind.noConfusion, nnfNot, nnfAll_eq_map, nnfNotAll_eq_map]
              refine .connective symbol ?_
              rw [List.forall₂_map_left_iff, List.forall₂_map_right_iff, List.forall₂_same]
              exact fun child isChild => ih child isChild (below child isChild)
          | _ => exact Bool.noConfusion logical

/-! ## Merging -/

/-- A connective takes over an operand exactly if its dual takes over the opposite of
that operand. -/
theorem Opposes.absorbs_eq {term other : Term} (opposite : term.Opposes other)
    (symbol : Connective) :
    (Kind.connective symbol.dual).absorbs other.kind =
      (Kind.connective symbol).absorbs term.kind := by
  cases opposite with
  | connective inner _ => cases inner <;> cases symbol <;> rfl
  | negated notLogical => exact (Kind.absorbs_of_not_logical notLogical _).symm
  | plain notLogical => exact Kind.absorbs_of_not_logical notLogical _

theorem Opposes.operands {symbol : Connective} {children : List Term} {other : Term}
    (opposite : (mk (.connective symbol) children).Opposes other) :
    List.Forall₂ Opposes children other.children := by
  cases opposite with
  | connective _ operands => exact operands
  | negated impossible => exact Bool.noConfusion impossible

theorem opposes_flatAll {symbol : Connective} {terms others : List Term}
    (opposite : List.Forall₂ (fun term other => term.flat.Opposes other.flat) terms others) :
    List.Forall₂ Opposes (flatAll (.connective symbol) terms)
      (flatAll (.connective symbol.dual) others) := by
  induction opposite with
  | nil => exact .nil
  | @cons term other _ _ head _ ih =>
      rw [flatAll, flatAll]
      refine List.rel_append ?_ ih
      have alike := head.absorbs_eq symbol
      rw [kind_flat, kind_flat] at alike
      rw [alike]
      by_cases absorbed : (Kind.connective symbol).absorbs term.kind = true
      · rw [if_pos absorbed, if_pos absorbed]
        rcases term with ⟨kind, children⟩
        have same : kind = .connective symbol := ((Kind.absorbs_iff _ _).mp absorbed).2
        subst same
        exact head.operands
      · rw [if_neg absorbed, if_neg absorbed]
        exact .cons head .nil

/-- Merging keeps terms opposite. -/
theorem Opposes.flat {term other : Term} (opposite : term.Opposes other) :
    term.flat.Opposes other.flat := by
  have single (literal : Term) : (mk .not [literal]).flat = mk .not [literal.flat] := by
    rw [Term.flat, flatAll_of_not_associative rfl, List.map_singleton]
  refine induction (motive := fun term other => term.flat.Opposes other.flat) ?_ ?_ ?_ opposite
  · intro symbol children others operands
    rw [Term.flat, Term.flat]
    exact .connective symbol (opposes_flatAll operands)
  · intro literal notLogical
    rw [single]
    exact .negated (literal.kind_flat ▸ notLogical)
  · intro literal notLogical
    rw [single]
    exact .plain (literal.kind_flat ▸ notLogical)

/-! ## Negations of terms -/

/-- The negation of a term, with no further operand. -/
def negate (term : Term) : Term :=
  mk .not [term]

theorem nnf_negate (term : Term) : term.negate.nnf = term.nnfNot [] :=
  rfl

/-- Negations cancel in pairs. -/
theorem nnf_negate_even (depth : Nat) (term : Term) :
    (negate^[2 * depth] term).nnf = term.nnf := by
  induction depth with
  | zero => rfl
  | succ depth ih =>
      rw [Nat.mul_succ, Function.iterate_succ_apply', Function.iterate_succ_apply', nnf_negate,
        negate, nnfNot, ih]

theorem nnf_negate_odd (depth : Nat) (term : Term) :
    (negate^[2 * depth + 1] term).nnf = term.nnfNot [] := by
  rw [Function.iterate_succ_apply, nnf_negate_even, nnf_negate]

/-- The law of De Morgan, for both connectives and any number of operands. -/
theorem nnf_dual_negate (symbol : Connective) (operands : List Term) :
    (mk (.connective symbol.dual) (operands.map negate)).nnf =
      (mk (.connective symbol) operands).nnfNot [] := by
  rw [nnf_of_ne_not Kind.noConfusion, nnfNot, nnfAll_eq_map, nnfNotAll_eq_map, List.map_map]
  rfl

end Term

namespace Stage

/-- If every negation of a term has exactly one operand, the negation normal form of
its negation is the one term that is opposite to the negation normal form of
the term itself.  An even number of further negations changes neither of the two.
If the term is a connective, the dual connective of the negated operands, in their
order, has the same negation normal form as the negation. -/
theorem negation_opposes {term : Term} (unary : term.isUnary = true) :
    Exists fun result : Term => Exists fun opposite : Term =>
      nnf.Forms term result ∧ nnf.Forms term.negate opposite ∧ result.Opposes opposite ∧
      (forall other : Term, result.Opposes other -> other = opposite) ∧
      (forall depth : Nat, nnf.Forms (Term.negate^[2 * depth] term) result ∧
        nnf.Forms (Term.negate^[2 * depth + 1] term) opposite) ∧
      forall symbol operands, term = .mk (.connective symbol) operands ->
        nnf.Forms (.mk (.connective symbol.dual) (operands.map Term.negate)) opposite := by
  have opposite := (Term.opposes_nnf unary).flat
  refine ⟨term.nnf.flat, (term.nnfNot []).flat, nnf.forms_form term, nnf.forms_form term.negate,
    opposite, opposite.unique, fun depth => ⟨?_, ?_⟩, fun symbol operands same => ?_⟩
  · exact forms_iff.mpr (congrArg Term.flat (Term.nnf_negate_even depth term).symm)
  · exact forms_iff.mpr (congrArg Term.flat (Term.nnf_negate_odd depth term).symm)
  · rw [same]
    exact forms_iff.mpr (congrArg Term.flat (Term.nnf_dual_negate symbol operands).symm)

/-- The negation of a conjunction whose first operand is a disjunction with a negated
literal. -/
theorem negation_opposes_nested :
    let first : Kind := .var ⟨0, 1⟩
    let second : Kind := .var ⟨2, 3⟩
    let third : Kind := .var ⟨4, 5⟩
    let arena : Arena := ⟨#[⟨.not, none, some 1, some 1, none, none⟩,
      ⟨.and, some 0, some 2, some 6, none, none⟩, ⟨.or, some 1, some 3, some 4, none, some 6⟩,
      ⟨first, some 2, none, none, none, some 4⟩, ⟨.not, some 2, some 5, some 5, some 3, none⟩,
      ⟨second, some 4, none, none, none, none⟩, ⟨third, some 1, none, none, some 2, none⟩]⟩
    Exists fun found : Node =>
      arena.Answers (do (← nnf.convert 0).expression) found ∧
      found.term = .mk .or [.mk .and [.mk .not [.mk first []], .mk second []],
        .mk .not [.mk third []]] := by
  intro first second third arena
  let term : Term := .mk .and [.mk .or [.mk first [], .mk .not [.mk second []]], .mk third []]
  let tree : Node := .mk 0 .not [.mk 1 .and
    [.mk 2 .or [.mk 3 first [], .mk 4 .not [.mk 5 second []]], .mk 6 third []]]
  have stored : arena.Stores ⟨7, [tree]⟩ := ⟨⟨by decide, by decide⟩, rfl⟩
  have unary : term.isUnary = true := by decide
  rcases negation_opposes unary with ⟨result, opposite, forms, formsNot, _, only, _⟩
  rcases formsNot arena stored.wellFormed 0 (by decide) tree
    (stored.reads_of_mem List.mem_cons_self) rfl with ⟨found, answers, isOpposite⟩
  refine ⟨found, answers, isOpposite.trans (only _ ?_).symm⟩
  rw [forms_iff.mp forms]
  exact .connective .and (.cons
    (.connective .or (.cons (.negated rfl) (.cons (.plain rfl) .nil))) (.cons (.negated rfl) .nil))

end Stage

end PlanningDomain
