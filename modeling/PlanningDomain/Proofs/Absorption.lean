import PlanningDomain.Proofs.Stages
import PlanningDomain.Proofs.Term.Stability

namespace PlanningDomain

/-!
# Stages one after the other

A stage absorbs every weaker one.  It makes no difference to its result
whether the weaker one has been passed before, and the weaker one changes
nothing about its result.  So whatever stages an expression goes through, in
whatever order and how often, the strongest of them alone decides what comes
out.
-/

namespace Stage

/-- The stages in the order in which a later one absorbs an earlier one. -/
def strength : Stage -> Nat
  | parse => 0
  | flatten => 1
  | nnf => 2
  | dnf => 3

/-- Bring the expression at a handle to some stages, each time at the handle
that was answered before. -/
def convertThrough : List Stage -> Handle -> Edit Handle
  | [], node => pure node
  | stage :: rest, node => do
      convertThrough rest (← stage.convert node)

/-- A stronger stage absorbs a weaker one on both sides. -/
theorem form_absorbs {weaker stronger : Stage} (weak : weaker.strength ≤ stronger.strength)
    (term : Term) :
    stronger.form (weaker.form term) = stronger.form term ∧
      weaker.form (stronger.form term) = stronger.form term := by
  cases weaker with
  | parse => exact ⟨rfl, rfl⟩
  | flatten =>
      cases stronger with
      | parse => exact absurd weak (by decide)
      | flatten => exact ⟨term.flat_flat, term.flat_flat⟩
      | nnf => exact ⟨term.flat_nnf_flat, term.nnf.flat_flat⟩
      | dnf =>
          exact ⟨congrArg Term.dnf term.flat_nnf_flat,
            Term.flat_of_isFlat (Term.isFlat_dnf (Term.isFlat_flat _))⟩
  | nnf =>
      cases stronger with
      | parse => exact absurd weak (by decide)
      | flatten => exact absurd weak (by decide)
      | nnf => exact ⟨term.settled_toNnf, term.settled_toNnf⟩
      | dnf => exact ⟨congrArg Term.dnf term.settled_toNnf, term.settled_toDnf⟩
  | dnf =>
      cases stronger with
      | parse => exact absurd weak (by decide)
      | flatten => exact absurd weak (by decide)
      | nnf => exact absurd weak (by decide)
      | dnf =>
          have idempotent : term.nnf.flat.dnf.nnf.flat.dnf = term.nnf.flat.dnf := by
            rw [term.settled_toDnf, Term.dnf_dnf]
          exact ⟨idempotent, idempotent⟩

/-- The terms that a term becomes through some stages. -/
def formThrough (stages : List Stage) (term : Term) : Term :=
  stages.foldl (fun reached stage => stage.form reached) term

/-- What a stage has made of a term does not change through weaker stages. -/
theorem formThrough_of_weaker {strongest : Stage} (stages : List Stage)
    (weak : forall stage, stage ∈ stages -> stage.strength ≤ strongest.strength) (term : Term) :
    formThrough stages (strongest.form term) = strongest.form term := by
  induction stages with
  | nil => rfl
  | cons stage rest ih =>
      rw [formThrough, List.foldl_cons, (form_absorbs (weak stage List.mem_cons_self) term).2]
      exact ih (fun other later => weak other (List.mem_cons_of_mem _ later))

theorem formThrough_eq {strongest : Stage} (stages : List Stage) (passed : strongest ∈ stages)
    (weak : forall stage, stage ∈ stages -> stage.strength ≤ strongest.strength) (term : Term) :
    formThrough stages term = strongest.form term := by
  induction stages generalizing term with
  | nil => exact (List.not_mem_nil passed).elim
  | cons stage rest ih =>
      have weakRest := fun other later => weak other (List.mem_cons_of_mem stage later)
      rw [formThrough, List.foldl_cons]
      rcases List.mem_cons.mp passed with first | later
      · rw [← first]
        exact formThrough_of_weaker rest weakRest term
      · exact (ih later weakRest (stage.form term)).trans
          (form_absorbs (weak stage List.mem_cons_self) term).1

/-- Some conversions one after the other, with other expressions around and
beside the one that is converted. -/
theorem convertThrough_yields (stages : List Stage) (path : List Step) :
    forall (tree : Node) (size : Nat) (rest : List Node),
      Exists fun result : Node => Exists fun left : Forest =>
        result.term = formThrough stages tree.term ∧
        Yields (Arena.Stores ⟨size, tree.climb path :: rest⟩)
          (convertThrough stages tree.handle) result.handle
          (Arena.Stores ⟨left.allocated, result.climb path :: (left.roots ++ rest)⟩) := by
  induction stages with
  | nil => exact fun tree size rest => ⟨tree, ⟨size, []⟩, rfl, .pure _⟩
  | cons stage stages ih =>
      intro tree size rest
      rcases stage.convert_yields tree path size rest with ⟨middle, between, form, first⟩
      rcases ih middle between.allocated (between.roots ++ rest) with ⟨result, left, term, later⟩
      refine ⟨result, ⟨left.allocated, left.roots ++ between.roots⟩, ?_, first.bind ?_⟩
      · rw [term, form]
        rfl
      · rw [List.append_assoc]
        exact later

end Stage

namespace Arena

/-- From every node of a well-formed arena, every sequence of stages comes to an
end, and the expression that it leads to has the term that the strongest of
them alone gives. -/
theorem strongest_stage_absorbs {arena : Arena} (wellFormed : arena.WellFormed) {root : Handle}
    (bound : root < arena.size) {stages : List Stage} {strongest : Stage}
    (passed : strongest ∈ stages)
    (weak : forall stage, stage ∈ stages -> stage.strength ≤ strongest.strength) :
    Exists fun tree : Node => arena.Reads root tree ∧
      Exists fun through : Node => Exists fun once : Node =>
        arena.Answers (do (← Stage.convertThrough stages root).expression) through ∧
        arena.Answers (do (← strongest.convert root).expression) once ∧
        through.term = once.term ∧ once.term = strongest.form tree.term := by
  rcases wellFormed.exists_place bound with ⟨tree, path, rest, same, stored⟩
  subst same
  rcases Stage.convertThrough_yields stages path tree arena.size rest with
    ⟨through, left, throughTerm, manyYields⟩
  rcases strongest.convert_yields tree path arena.size rest with ⟨once, spare, onceTerm, oneYields⟩
  rcases manyYields arena stored with ⟨late, manyRun, manyKept, _⟩
  rcases oneYields arena stored with ⟨soon, oneRun, oneKept, _⟩
  rw [Stage.formThrough_eq stages passed weak] at throughTerm
  exact ⟨tree, stored.reads List.mem_cons_self, through, once,
    .of_run manyRun ⟨late, manyKept.reads List.mem_cons_self⟩,
    .of_run oneRun ⟨soon, oneKept.reads List.mem_cons_self⟩,
    throughTerm.trans onceTerm.symm, onceTerm⟩

/-- The negation of nested conjunctions, which are merged, negated and
distributed, and merged once more at the end. -/
theorem strongest_stage_absorbs_nested :
    let first : Kind := .var ⟨0, 1⟩
    let second : Kind := .var ⟨2, 3⟩
    let arena : Arena := ⟨#[⟨.not, none, some 1, some 1, none, none⟩,
      ⟨.and, some 0, some 2, some 3, none, none⟩, ⟨first, some 1, none, none, none, some 3⟩,
      ⟨.and, some 1, some 4, some 4, some 2, none⟩, ⟨second, some 3, none, none, none, none⟩]⟩
    Exists fun result : Node =>
      arena.Answers
        (do (← Stage.convertThrough [.flatten, .nnf, .dnf, .flatten] 0).expression) result ∧
      result.term = .mk .or [.mk .and [.mk .not [.mk first []]],
        .mk .and [.mk .not [.mk second []]]] := by
  intro first second arena
  let tree : Node := .mk 0 .not [.mk 1 .and [.mk 2 first [], .mk 3 .and [.mk 4 second []]]]
  have stored : arena.Stores ⟨5, [tree]⟩ := ⟨⟨by decide, by decide⟩, rfl⟩
  have bound : 0 < arena.size := by decide
  have top : tree.climb [] ∈ [tree] := List.mem_cons_self
  rcases @strongest_stage_absorbs arena stored.wellFormed 0 bound
    [.flatten, .nnf, .dnf, .flatten] .dnf (by decide) (by decide) with
    ⟨read, reads, through, once, answers, _, same, form⟩
  have isTree : read = tree := reads.unique (stored.reads top)
  subst isTree
  exact ⟨through, answers, same.trans form⟩

end Arena

end PlanningDomain
