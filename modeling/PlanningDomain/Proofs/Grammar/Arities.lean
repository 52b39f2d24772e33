import PlanningDomain.Proofs.Grammar.Basic

namespace PlanningDomain

/-!
# The operands that the grammar asks for

In the term of a derivation no operand is missing.  A negation has its operand,
an operator between two operands has both, and a connective has at least two.  Only
the conjunction of a precondition may have none, where nothing stands between the
parentheses.
-/

/-- The number of operands that a node of a kind needs at least. -/
def Kind.leastOperands : Kind -> Nat
  | .not => 1
  | .comparison _ => 2
  | .arithmetic _ => 2
  | .connective _ => 2
  | _ => 0

/-- Operators between two operands need two. -/
theorem Chain.leastOperands_of_kind {operators : Chain} {mark : TokenKind} {kind : Kind}
    (operator : operators.kind? mark = some kind) : kind.leastOperands = 2 := by
  cases operators <;> cases mark <;> cases operator <;> rfl

namespace Term

/-- No operand is missing anywhere in a term. -/
def IsSupplied (term : Term) : Prop :=
  forall inner, inner ∈ term.subterms -> inner.kind.leastOperands ≤ inner.children.length

theorem isSupplied_mk {kind : Kind} {children : List Term} :
    (mk kind children).IsSupplied ↔
      kind.leastOperands ≤ children.length ∧ forall child, child ∈ children -> child.IsSupplied :=
  forall_mem_subterms_mk

theorem isSupplied_leaf {kind : Kind} (leaf : kind.leastOperands = 0) :
    (mk kind []).IsSupplied :=
  isSupplied_mk.mpr ⟨Nat.le_of_eq leaf, fun _ impossible => (List.not_mem_nil impossible).elim⟩

end Term

namespace Grammar

theorem isSupplied_joined {symbol : Connective} {first : Term} {others : List Term}
    (isFirst : first.IsSupplied) (isOthers : forall term, term ∈ others -> term.IsSupplied) :
    (joined symbol first others).IsSupplied := by
  cases others with
  | nil => exact isFirst
  | cons next rest =>
      refine Term.isSupplied_mk.mpr ⟨?_, List.forall_mem_cons.mpr ⟨isFirst, isOthers⟩⟩
      exact Nat.succ_le_succ (Nat.succ_le_succ (Nat.zero_le rest.length))

mutual

theorem Expression.isSupplied {level : Level} {tokens : List Token} {term : Term} :
    Expression level tokens term -> term.IsSupplied
  | .connective first others => isSupplied_joined first.isSupplied others.isSupplied
  | .negation _ operand =>
      Term.isSupplied_mk.mpr ⟨Nat.le_refl 1, List.forall_mem_singleton.mpr operand.isSupplied⟩
  | .unnegated operand => operand.isSupplied
  | .chain first others => others.isSupplied first.isSupplied
  | .call _ _ _ => Term.isSupplied_leaf rfl
  | .callWith _ _ arguments _ =>
      Term.isSupplied_mk.mpr ⟨Nat.zero_le _, arguments.isSupplied⟩
  | .var _ => Term.isSupplied_leaf rfl
  | .constant _ => Term.isSupplied_leaf rfl
  | .group _ inner _ => inner.isSupplied

theorem Operands.isSupplied {symbol : Connective} {tokens : List Token} {terms : List Term} :
    Operands symbol tokens terms -> forall term, term ∈ terms -> term.IsSupplied
  | .nil => fun _ impossible => (List.not_mem_nil impossible).elim
  | .cons _ first others => List.forall_mem_cons.mpr ⟨first.isSupplied, others.isSupplied⟩

theorem Chained.isSupplied {operators : Chain} {left term : Term} {tokens : List Token} :
    Chained operators left tokens term -> left.IsSupplied -> term.IsSupplied
  | .nil => id
  | .cons operator right others => fun isLeft => by
      apply others.isSupplied
      refine Term.isSupplied_mk.mpr ⟨Nat.le_of_eq (Chain.leastOperands_of_kind operator), ?_⟩
      exact List.forall_mem_cons.mpr ⟨isLeft, List.forall_mem_singleton.mpr right.isSupplied⟩

theorem ArgumentList.isSupplied {tokens : List Token} {terms : List Term} :
    ArgumentList tokens terms -> forall term, term ∈ terms -> term.IsSupplied
  | .last only => List.forall_mem_singleton.mpr only.isSupplied
  | .cons first _ others => List.forall_mem_cons.mpr ⟨first.isSupplied, others.isSupplied⟩

end

theorem Conjuncts.isSupplied {tokens : List Token} {terms : List Term}
    (derived : Conjuncts tokens terms) : forall term, term ∈ terms -> term.IsSupplied := by
  induction derived with
  | nil => exact fun _ impossible => (List.not_mem_nil impossible).elim
  | cons first _ ih => exact List.forall_mem_cons.mpr ⟨first.isSupplied, ih⟩

/-- Operands may be missing only in the conjunction of nothing. -/
theorem Precondition.isSupplied {tokens : List Token} {term : Term}
    (derived : Precondition tokens term) : term.IsSupplied ∨ term = .mk .and [] := by
  cases derived with
  | @group _ _ _ terms _ conjuncts _ =>
      have each := conjuncts.isSupplied
      match terms with
      | [] => exact .inr rfl
      | [only] => exact .inl (each only List.mem_cons_self)
      | first :: next :: rest =>
          refine .inl (Term.isSupplied_mk.mpr ⟨?_, each⟩)
          exact Nat.succ_le_succ (Nat.succ_le_succ (Nat.zero_le rest.length))

end Grammar

end PlanningDomain
