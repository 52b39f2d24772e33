import Mathlib.Data.List.Forall2
import PlanningDomain.Proofs.Reader.Correspondence.Basic
import PlanningDomain.Proofs.Term.NormalForms

namespace PlanningDomain

/-!
# Terms that correspond

The conversions look at the logical kinds only, and never at a name or a
constant.  So if terms of one shape have the same logical kinds and otherwise
kinds that are related in whatever way, then so have their normal forms.
-/

/-- A logical kind is related to itself, and to nothing else. -/
structure Kind.KeepsLogic (kinds : Kind -> Kind -> Prop) : Prop where
  self {kind : Kind} : kind.isLogical = true -> kinds kind kind
  eq {kind like : Kind} : kinds kind like -> kind.isLogical = true ∨ like.isLogical = true ->
    like = kind

namespace Kind.KeepsLogic

variable {kinds : Kind -> Kind -> Prop} {kind like : Kind}

theorem notLogical (keeps : KeepsLogic kinds) (related : kinds kind like)
    (notLogical : kind.isLogical = false) : like.isLogical = false := by
  cases logical : like.isLogical with
  | false => rfl
  | true => rw [← logical, keeps.eq related (.inr logical), notLogical]

theorem absorbs_eq (keeps : KeepsLogic kinds) {outer twin : Kind} (outside : kinds outer twin)
    (inside : kinds kind like) : outer.absorbs kind = twin.absorbs like := by
  rw [Bool.eq_iff_iff]
  constructor
  · intro absorbed
    rcases isLogical_of_absorbs absorbed with ⟨logicalOutside, logicalInside⟩
    rw [keeps.eq outside (.inl logicalOutside), keeps.eq inside (.inl logicalInside)]
    exact absorbed
  · intro absorbed
    rcases isLogical_of_absorbs absorbed with ⟨logicalOutside, logicalInside⟩
    rw [← keeps.eq outside (.inr logicalOutside), ← keeps.eq inside (.inr logicalInside)]
    exact absorbed

end Kind.KeepsLogic

namespace Term

/-- Terms of one shape whose kinds are related. -/
inductive Corresponds (kinds : Kind -> Kind -> Prop) : Term -> Term -> Prop
  | mk {kind like children others} :
      kinds kind like ->
      List.Forall₂ (Corresponds kinds) children others ->
      Corresponds kinds (.mk kind children) (.mk like others)

theorem corresponds_map {kinds : Kind -> Kind -> Prop} {alpha beta : Type}
    {terms : alpha -> Term} {twins : beta -> Term} {relates : alpha -> beta -> Prop}
    {first : List alpha} {second : List beta} (related : List.Forall₂ relates first second)
    (corresponds : forall member, member ∈ first -> forall other, relates member other ->
      Corresponds kinds (terms member) (twins other)) :
    List.Forall₂ (Corresponds kinds) (first.map terms) (second.map twins) := by
  rw [List.forall₂_map_left_iff, List.forall₂_map_right_iff]
  exact forall₂_imp_of_mem related corresponds

/-- Corresponding expressions have corresponding terms. -/
theorem corresponds_of_node {handles : Handle -> Handle -> Prop} {kinds : Kind -> Kind -> Prop}
    (node : Node) : forall {other : Node}, Node.Corresponds handles kinds node other ->
      Corresponds kinds node.term other.term := by
  induction node using Node.induction with
  | step handle kind children ih =>
      intro other alike
      cases alike with
      | mk _ isKind operands =>
          rw [Node.term_mk, Node.term_mk]
          exact .mk isKind
            (corresponds_map operands (fun child isChild _ related => ih child isChild related))

/-- Expressions with corresponding terms correspond, but for their handles. -/
theorem node_of_corresponds {kinds : Kind -> Kind -> Prop} (node : Node) :
    forall {other : Node}, Corresponds kinds node.term other.term ->
      Node.Corresponds (fun _ _ => True) kinds node other := by
  induction node using Node.induction with
  | step handle kind children ih =>
      intro other alike
      rcases other with ⟨otherHandle, like, twins⟩
      rw [Node.term_mk, Node.term_mk] at alike
      cases alike with
      | mk isKind operands =>
          rw [List.forall₂_map_left_iff, List.forall₂_map_right_iff] at operands
          exact .mk trivial isKind
            (forall₂_imp_of_mem operands (fun child isChild _ related => ih child isChild related))

section Conversions

variable {kinds : Kind -> Kind -> Prop} (keeps : Kind.KeepsLogic kinds)

include keeps

/-! ## Negation normal form -/

theorem Corresponds.nnf_both (term : Term) :
    forall {other : Term}, Corresponds kinds term other ->
      Corresponds kinds term.nnf other.nnf ∧
        forall {others rest : List Term}, List.Forall₂ (Corresponds kinds) others rest ->
          Corresponds kinds (term.nnfNot others) (other.nnfNot rest) := by
  induction term using Term.induction with
  | step kind children ih =>
      intro other alike
      cases alike with
      | @mk _ like _ twins isKind operands =>
          have plain : List.Forall₂ (Corresponds kinds) (nnfAll children) (nnfAll twins) := by
            rw [nnfAll_eq_map, nnfAll_eq_map]
            exact corresponds_map operands (fun child isChild _ related =>
              (ih child isChild related).1)
          have negated : List.Forall₂ (Corresponds kinds) (nnfNotAll children)
              (nnfNotAll twins) := by
            rw [nnfNotAll_eq_map, nnfNotAll_eq_map]
            exact corresponds_map operands (fun child isChild _ related =>
              (ih child isChild related).2 .nil)
          constructor
          · by_cases negation : kind = .not
            · subst negation
              rw [keeps.eq isKind (.inl rfl)]
              cases operands with
              | nil => exact .mk (keeps.self rfl) .nil
              | cons first others => exact (ih _ List.mem_cons_self first).2 others
            · have other : like ≠ .not := by
                intro same
                subst same
                exact negation (keeps.eq isKind (.inr rfl)).symm
              rw [nnf_of_ne_not negation, nnf_of_ne_not other]
              exact .mk isKind plain
          · intro others rest beside
            by_cases notLogical : kind.isLogical = false
            · rw [nnfNot_of_not_logical notLogical,
                nnfNot_of_not_logical (keeps.notLogical isKind notLogical)]
              exact .mk (keeps.self rfl) (.cons (.mk isKind plain) beside)
            · rw [keeps.eq isKind (.inl ((Bool.not_eq_false _).mp notLogical))]
              cases kind with
              | not =>
                  cases operands with
                  | nil =>
                      exact .mk (keeps.self rfl) (.cons (.mk (keeps.self rfl) .nil) beside)
                  | cons first _ => exact (ih _ List.mem_cons_self first).1
              | connective symbol => exact .mk (keeps.self rfl) negated
              | _ => exact (notLogical rfl).elim

theorem Corresponds.nnf {term other : Term} (alike : Corresponds kinds term other) :
    Corresponds kinds term.nnf other.nnf :=
  (Corresponds.nnf_both keeps term alike).1

/-! ## Merging -/

theorem Corresponds.flat_of (term : Term) :
    forall {other : Term}, Corresponds kinds term other ->
      Corresponds kinds term.flat other.flat := by
  induction term using Term.induction with
  | step kind children ih =>
      intro other alike
      cases alike with
      | @mk _ like _ twins isKind operands =>
          rw [flat, flat]
          refine .mk isKind ?_
          induction operands with
          | nil => exact .nil
          | @cons child twin rest others first _ onRest =>
              have here := ih child List.mem_cons_self first
              rw [flatAll, flatAll]
              refine List.rel_append ?_
                (onRest (fun inner later => ih inner (List.mem_cons_of_mem _ later)))
              rcases child with ⟨inner, below⟩
              rcases twin with ⟨innerTwin, belowTwin⟩
              cases first with
              | mk isInner _ =>
                  rw [kind_mk, kind_mk, keeps.absorbs_eq isKind isInner]
                  cases innerAbsorbed : like.absorbs innerTwin with
                  | false => exact .cons here .nil
                  | true =>
                      cases here with
                      | mk _ merged => exact merged

theorem Corresponds.flat {term other : Term} (alike : Corresponds kinds term other) :
    Corresponds kinds term.flat other.flat :=
  Corresponds.flat_of keeps term alike

/-! ## Clauses -/

omit keeps in
/-- Combinations of related lists are related. -/
theorem rel_combinations {alpha beta : Type} {relates : alpha -> beta -> Prop}
    {first : List (List (List alpha))} {second : List (List (List beta))}
    (related : List.Forall₂ (List.Forall₂ (List.Forall₂ relates)) first second) :
    List.Forall₂ (List.Forall₂ relates) (combinations first) (combinations second) := by
  induction related with
  | nil => exact .cons .nil .nil
  | cons head _ ih =>
      rw [combinations, combinations]
      refine List.rel_flatMap head (fun _ _ choice => ?_)
      exact List.rel_map (fun _ _ joined => List.rel_append choice joined) ih

theorem Corresponds.clauses_of (term : Term) :
    forall {other : Term}, Corresponds kinds term other ->
      List.Forall₂ (List.Forall₂ (Corresponds kinds)) term.clauses other.clauses := by
  induction term using Term.induction with
  | step kind children ih =>
      intro other alike
      cases alike with
      | @mk _ like _ twins isKind operands =>
          by_cases connective : Exists fun symbol : Connective => kind = .connective symbol
          · rcases connective with ⟨symbol, same⟩
            subst same
            rw [keeps.eq isKind (.inl rfl)]
            have all : List.Forall₂ (List.Forall₂ (List.Forall₂ (Corresponds kinds)))
                (clausesAll children) (clausesAll twins) := by
              clear isKind
              induction operands with
              | nil => exact .nil
              | cons first _ onRest =>
                  exact .cons (ih _ List.mem_cons_self first)
                    (onRest (fun inner later => ih inner (List.mem_cons_of_mem _ later)))
            cases symbol with
            | or => exact List.rel_flatten all
            | and => exact rel_combinations all
          · have literal : forall symbol, (Term.mk kind children).kind ≠ .connective symbol :=
              fun symbol same => connective ⟨symbol, same⟩
            have twin : forall symbol, (Term.mk like twins).kind ≠ .connective symbol := by
              intro symbol same
              rw [kind_mk] at same
              subst same
              exact literal symbol (keeps.eq isKind (.inr rfl)).symm
            rw [clauses_of_literal literal, clauses_of_literal twin]
            exact .cons (.cons (.mk isKind operands) .nil) .nil

theorem Corresponds.ofClauses {first second : List (List Term)}
    (related : List.Forall₂ (List.Forall₂ (Corresponds kinds)) first second) :
    Corresponds kinds (ofClauses first) (ofClauses second) :=
  .mk (keeps.self rfl) (corresponds_map related
    (fun _ _ _ literals => .mk (keeps.self rfl) literals))

theorem Corresponds.dnf {term other : Term} (alike : Corresponds kinds term other) :
    Corresponds kinds term.dnf other.dnf := by
  have clauses := Corresponds.clauses_of keeps term alike
  cases alike with
  | @mk kind like children twins isKind operands =>
      by_cases childless : Term.mk kind children = .mk .and []
      · rcases Term.mk.inj childless with ⟨conjunction, none⟩
        subst conjunction none
        rw [keeps.eq isKind (.inl rfl)]
        cases operands
        exact Corresponds.ofClauses keeps .nil
      · have notChildless : Term.mk like twins ≠ .mk .and [] := by
          intro same
          rcases Term.mk.inj same with ⟨conjunction, none⟩
          subst conjunction none
          cases operands
          exact childless (by rw [keeps.eq isKind (.inr rfl)])
        rw [dnf_of_not_childless childless, dnf_of_not_childless notChildless]
        exact Corresponds.ofClauses keeps clauses

end Conversions

end Term

end PlanningDomain
