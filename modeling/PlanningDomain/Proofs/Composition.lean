import Mathlib.Algebra.Ring.Nat
import PlanningDomain.Proofs.Forms
import PlanningDomain.Proofs.Term.Stability

namespace PlanningDomain

/-!
# Disjunctive normal forms of connectives

The clauses of a connective can be told from the clauses that each operand has when it
is converted alone.  A disjunction puts them one after the other, and a conjunction
combines them.

Converted together, the operands lose their own connectives to the one above them
first, so that the clauses are combined in other groups.  Both ways to join clauses are
associative, also where some operand has no clause or an empty one, and the groups
make no difference.  The one exception is a conjunction without operands, which alone
has no clause, but within a conjunction or a disjunction has the empty one.
-/

/-! ## Joining clauses -/

theorem combinations_singleton {alpha : Type} (family : List (List alpha)) :
    combinations [family] = family := by
  rw [combinations, combinations]
  simp only [List.map_singleton, List.append_nil]
  exact List.flatMap_singleton' family

/-- Families may be combined in two groups. -/
theorem combinations_append {alpha : Type} (first second : List (List (List alpha))) :
    combinations (first ++ second) = combinations [combinations first, combinations second] := by
  rw [combinations, combinations_singleton]
  induction first with
  | nil => simp only [List.nil_append, combinations, List.flatMap_singleton, List.map_id']
  | cons family rest ih =>
      rw [List.cons_append, combinations, ih, combinations, List.flatMap_assoc]
      congr 1
      funext choice
      rw [List.map_flatMap, List.flatMap_map]
      congr 1
      funext joined
      rw [List.map_map]
      congr 1
      funext later
      exact (List.append_assoc choice joined later).symm

theorem length_combinations {alpha : Type} (families : List (List (List alpha))) :
    (combinations families).length = (families.map List.length).prod := by
  induction families with
  | nil => rfl
  | cons family rest ih =>
      rw [combinations, List.length_flatMap, List.map_cons, List.prod_cons, ← ih]
      simp only [List.length_map, List.map_const', List.sum_replicate_nat]

namespace Connective

/-- The clauses of a connective, given those of its operands. -/
def join {alpha : Type} : Connective -> List (List (List alpha)) -> List (List alpha)
  | and => combinations
  | or => List.flatten

variable {alpha : Type} (symbol : Connective)

theorem join_singleton (family : List (List alpha)) : symbol.join [family] = family := by
  cases symbol with
  | and => exact combinations_singleton family
  | or => exact List.flatten_singleton

theorem join_append (first second : List (List (List alpha))) :
    symbol.join (first ++ second) = symbol.join [symbol.join first, symbol.join second] := by
  cases symbol with
  | and => exact combinations_append first second
  | or =>
      change (first ++ second).flatten = [first.flatten, second.flatten].flatten
      rw [List.flatten_append, List.flatten_cons, List.flatten_singleton]

theorem join_cons (family : List (List alpha)) (rest : List (List (List alpha))) :
    symbol.join (family :: rest) = symbol.join [family, symbol.join rest] := by
  rw [← List.singleton_append, join_append, join_singleton]

end Connective

/-! ## Clauses of merged terms -/

namespace Term

theorem clauses_connective (symbol : Connective) (children : List Term) :
    (mk (.connective symbol) children).clauses = symbol.join (children.map clauses) := by
  rw [← clausesAll_eq_map]
  cases symbol <;> rfl

/-- A merged operand gives its connective the clauses that it has alone. -/
theorem join_flatAll (symbol : Connective) (terms : List Term) :
    symbol.join ((flatAll (.connective symbol) terms).map clauses) =
      symbol.join (terms.map (fun term => term.flat.clauses)) := by
  induction terms with
  | nil => rfl
  | cons term rest ih =>
      rw [flatAll, List.map_append, symbol.join_append, ih, List.map_cons,
        symbol.join_cons term.flat.clauses]
      congr 2
      by_cases absorbed : (Kind.connective symbol).absorbs term.kind = true
      · rcases term with ⟨kind, children⟩
        have same : kind = .connective symbol := ((Kind.absorbs_iff _ _).mp absorbed).2
        subst same
        rw [if_pos absorbed, flat, clauses_connective, children_mk]
      · rw [if_neg absorbed, List.map_singleton, symbol.join_singleton]

/-- The clauses of a connective in flat negation normal form come from those of its
operands. -/
theorem clauses_toNnf (symbol : Connective) (operands : List Term) :
    (mk (.connective symbol) operands).nnf.flat.clauses =
      symbol.join (operands.map (fun operand => operand.nnf.flat.clauses)) := by
  rw [nnf_of_ne_not Kind.noConfusion, flat, clauses_connective, join_flatAll, nnfAll_eq_map,
    List.map_map]
  rfl

/-- A conjunction with operands, none of which is converted to a conjunction without
operands, is not converted to one either. -/
theorem toNnf_ne_childless (symbol : Connective) {operands : List Term} (given : operands ≠ [])
    (notChildless : forall operand, operand ∈ operands -> operand.nnf.flat ≠ .mk .and []) :
    (mk (.connective symbol) operands).nnf.flat ≠ .mk .and [] := by
  rw [nnf_of_ne_not Kind.noConfusion, flat, nnfAll_eq_map]
  intro childless
  rcases mk.inj childless with ⟨conjunction, none⟩
  cases operands with
  | nil => exact given rfl
  | cons operand rest =>
      have alone := notChildless operand List.mem_cons_self
      rw [conjunction, List.map_cons, flatAll] at none
      have first := (List.append_eq_nil_iff.mp none).1
      generalize operand.nnf = converted at alone first
      by_cases absorbed : Kind.and.absorbs converted.kind = true
      · rw [if_pos absorbed] at first
        rcases converted with ⟨kind, children⟩
        have same : kind = .and := ((Kind.absorbs_iff _ _).mp absorbed).2
        subst same
        exact alone (congrArg (mk .and) first)
      · rw [if_neg absorbed] at first
        exact List.cons_ne_nil _ _ first

theorem ofClauses_injective : Function.Injective ofClauses := by
  intro first second same
  have clauses := (mk.inj same).2
  exact (List.map_injective_iff.mpr (fun _ _ alike => (mk.inj alike).2)) clauses

end Term

namespace Stage

theorem forms_dnf_iff {term : Term} (notChildless : term.nnf.flat ≠ .mk .and [])
    (family : List (List Term)) :
    dnf.Forms term (.ofClauses family) ↔ family = term.nnf.flat.clauses := by
  rw [forms_iff]
  change Term.ofClauses family = term.nnf.flat.dnf ↔ _
  rw [Term.dnf_of_not_childless notChildless, Term.ofClauses_injective.eq_iff]

/-- The clauses that some terms have when each is converted alone. -/
theorem forall₂_forms_dnf_iff {operands : List Term}
    (notChildless : forall operand, operand ∈ operands -> operand.nnf.flat ≠ .mk .and []) :
    forall families : List (List (List Term)),
      List.Forall₂ (fun operand family => dnf.Forms operand (.ofClauses family)) operands families ↔
        families = operands.map (fun operand => operand.nnf.flat.clauses) := by
  induction operands with
  | nil => exact fun _ => List.forall₂_nil_left_iff
  | cons operand rest ih =>
      intro families
      have here := forms_dnf_iff (notChildless operand List.mem_cons_self)
      have later := ih (fun other member => notChildless other (List.mem_cons_of_mem _ member))
      constructor
      · intro alone
        cases alone with
        | cons first others => rw [List.map_cons, (here _).mp first, (later _).mp others]
      · intro same
        subst same
        exact .cons ((here _).mpr rfl) ((later _).mpr rfl)

/-- Some operands are given, and none of them is converted to a conjunction without
operands.  Then each has a list of clauses when it is converted alone.  The conjunction
of the operands has all ordered combinations of these clauses, and their disjunction
has these clauses one after the other. -/
theorem dnf_composes {operands : List Term} (given : operands ≠ [])
    (notChildless : forall operand, operand ∈ operands -> ¬ nnf.Forms operand (.mk .and [])) :
    Exists fun families : List (List (List Term)) =>
      (forall others : List (List (List Term)),
        List.Forall₂ (fun operand family => dnf.Forms operand (.ofClauses family)) operands others ↔
          others = families) ∧
      dnf.Forms (.mk .and operands) (.ofClauses (combinations families)) ∧
      (combinations families).length = (families.map List.length).prod ∧
      dnf.Forms (.mk .or operands) (.ofClauses families.flatten) ∧
      families.flatten.length = (families.map List.length).sum := by
  have kept : forall operand, operand ∈ operands -> operand.nnf.flat ≠ .mk .and [] :=
    fun operand member childless => notChildless operand member (forms_iff.mpr childless.symm)
  have joined (symbol : Connective) :=
    (forms_dnf_iff (Term.toNnf_ne_childless symbol given kept) _).mpr
      (Term.clauses_toNnf symbol operands).symm
  exact ⟨_, forall₂_forms_dnf_iff kept, joined .and, length_combinations _, joined .or,
    List.length_flatten⟩

/-- A conjunction of a disjunction and another conjunction, which merges with it.  Two
clauses alone and two clauses alone make four clauses together. -/
theorem dnf_composes_nested :
    let first : Kind := .var ⟨0, 1⟩
    let second : Kind := .var ⟨2, 3⟩
    let third : Kind := .var ⟨4, 5⟩
    let arena : Arena := ⟨#[⟨.and, none, some 1, some 4, none, none⟩,
      ⟨.or, some 0, some 2, some 3, none, some 4⟩, ⟨first, some 1, none, none, none, some 3⟩,
      ⟨second, some 1, none, none, some 2, none⟩, ⟨.and, some 0, some 5, some 6, some 1, none⟩,
      ⟨third, some 4, none, none, none, some 6⟩, ⟨.or, some 4, some 7, some 8, some 5, none⟩,
      ⟨second, some 6, none, none, none, some 8⟩, ⟨first, some 6, none, none, some 7, none⟩]⟩
    Exists fun found : Node =>
      arena.Answers (do (← dnf.convert 0).expression) found ∧
      found.term = .ofClauses [[.mk first [], .mk third [], .mk second []],
        [.mk first [], .mk third [], .mk first []], [.mk second [], .mk third [], .mk second []],
        [.mk second [], .mk third [], .mk first []]] := by
  intro first second third arena
  let choice : Term := .mk .or [.mk first [], .mk second []]
  let inner : Term := .mk .and [.mk third [], .mk .or [.mk second [], .mk first []]]
  let tree : Node := .mk 0 .and [.mk 1 .or [.mk 2 first [], .mk 3 second []],
    .mk 4 .and [.mk 5 third [], .mk 6 .or [.mk 7 second [], .mk 8 first []]]]
  have stored : arena.Stores ⟨9, [tree]⟩ := ⟨⟨by decide, by decide⟩, rfl⟩
  have notChildless : forall operand, operand ∈ [choice, inner] ->
      ¬ nnf.Forms operand (.mk .and []) := by
    intro operand member childless
    have none := congrArg (fun term => term.children.length) (forms_iff.mp childless)
    rcases List.mem_cons.mp member with same | later
    · subst same
      exact absurd none (by decide)
    · rw [List.mem_singleton.mp later] at none
      exact absurd none (by decide)
  rcases dnf_composes (List.cons_ne_nil choice [inner]) notChildless with
    ⟨families, alone, forms, _⟩
  have known := (alone [[[.mk first []], [.mk second []]],
    [[.mk third [], .mk second []], [.mk third [], .mk first []]]]).mp
      (.cons (forms_iff.mpr rfl) (.cons (forms_iff.mpr rfl) .nil))
  subst known
  exact forms arena stored.wellFormed 0 (by decide) tree
    (stored.reads_of_mem List.mem_cons_self) rfl

end Stage

end PlanningDomain
