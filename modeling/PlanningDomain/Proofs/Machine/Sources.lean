import PlanningDomain.Proofs.Machine.Expressions

namespace PlanningDomain

/-!
# Machines read sources

A machine that follows a reader reads the same preconditions and declarations.
So from the beginning of any source, and after any calls that were made before,
the work of a machine has a result.
-/

namespace Machine

variable {source : Source} {before : Reader} {held : List Node}

/-! ## Preconditions -/

theorem conjuncts_runs (before : Reader) : forall held : List Node,
    Runs source before held conjuncts (before.conjuncts.value.map Node.handle)
      before.conjuncts.reader (before.conjuncts.value ++ held) := by
  induction before using Reader.conjuncts.induct with
  | case1 reader ended =>
      intro held
      rw [conjuncts, (Reader.conjuncts_of_end ended).1, (Reader.conjuncts_of_end ended).2]
      apply atGroupEnd_runs.bind
      rw [ended]
      exact .pure []
  | case2 reader notEnded first _ ih =>
      intro held
      have inside := Bool.eq_false_iff.mpr notEnded
      rcases Reader.conjuncts_of_inside inside with ⟨values, reached⟩
      have handles (value : Option Node) (values : List Node) :
          (value.toList ++ values).map Node.handle =
            (value.map Node.handle).toList ++ values.map Node.handle := by
        cases value <;> rfl
      have order (value : Option Node) (values : List Node) :
          (values ++ (value.toList ++ held)).Perm (value.toList ++ values ++ held) := by
        rw [← List.append_assoc]
        exact List.perm_append_comm.append_right held
      rw [conjuncts, values, reached, handles]
      apply atGroupEnd_runs.bind
      rw [inside]
      apply ((Reader.reads_expression .loosest reader).runs held).bind
      exact (ih _).bind ((Runs.pure _).reorder (order _ _))

theorem precondition_runs : Runs source before held precondition before.precondition.1.handle
    before.precondition.2 (before.precondition.1 :: held) := by
  unfold precondition
  apply Runs.assume _ (fun _ follows => follows.placed_current)
  intro placed
  apply peek_runs.bind
  cases opens : before.sees .leftParen with
  | false =>
      rw [Reader.precondition_of_unopened opens]
      apply (eat_runs_of_unseen opens).bind
      exact (unexpected_runs .preconditionStart).bind (alloc_runs .and)
  | true =>
      rw [Reader.precondition_of_opens opens]
      apply (eat_runs opens (by decide)).bind
      apply (conjuncts_runs before.advance held).bind
      apply (closeGroup_runs placed).bind
      generalize before.advance.conjuncts.value = operands
      generalize before.advance.conjuncts.reader.closeGroup before.current.span = closed
      match operands with
      | [only] => exact .pure _
      | [] => exact (alloc_runs .and).bind (.pure _)
      | first :: second :: rest =>
          exact (alloc_runs .and).bind ((attachAll_runs (first :: second :: rest)).bind (.pure _))

/-! ## Declarations -/

theorem parameter_runs :
    Runs source before held parameter before.parameter.value before.parameter.reader held := by
  unfold parameter
  apply peek_runs.bind
  cases named : before.sees .identifier with
  | false =>
      rw [if_neg (beq_eq_false_iff_ne.mp named), Reader.parameter_of_missing named,
        Reader.value_parameter_of_missing named]
      exact (unexpected_runs .parameterType).bind (.pure none)
  | true =>
      have isName : before.current.kind = .identifier := beq_iff_eq.mp named
      have input : before.current.kind ≠ .endOfInput := by rw [isName]; decide
      apply Runs.assume _ (fun _ follows => follows.placed_current)
      intro placed
      apply Runs.assume _ (fun _ follows => follows.slice?_current input)
      intro word
      rw [if_pos isName]
      apply (advance_runs input).bind
      apply (text_runs word).bind
      cases known : DataType.ofKeyword? before.current.text with
      | some type =>
          rcases Reader.parameter_of_known named known with ⟨value, reached⟩
          rw [value, reached]
          exact .pure _
      | none =>
          rw [Reader.parameter_of_unknown named known, Reader.value_parameter_of_named named, known]
          exact (report_runs placed _).bind (.pure none)

theorem parameters_runs (before : Reader) :
    Runs source before held parameters before.parameters.value before.parameters.reader held := by
  induction before using Reader.parameters.induct with
  | case1 reader first _ separated _ _ ih =>
      rcases Reader.parameters_of_comma separated with ⟨values, reached⟩
      rw [parameters, values, reached]
      apply parameter_runs.bind
      apply (eat_runs separated (by decide)).bind
      exact ih.bind (.pure _)
  | case2 reader first _ unseparated =>
      have unseparated := Bool.eq_false_iff.mpr unseparated
      rcases Reader.parameters_of_not_comma unseparated with ⟨values, reached⟩
      rw [parameters, values, reached]
      apply parameter_runs.bind
      exact (eat_runs_of_unseen unseparated).bind (.pure _)

theorem parameterList_runs : Runs source before held parameterList before.parameterList.value
    before.parameterList.reader held := by
  unfold parameterList
  apply Runs.assume _ (fun _ follows => follows.placed_current)
  intro placed
  apply peek_runs.bind
  cases opens : before.sees .leftParen with
  | false =>
      rw [Reader.parameterList_of_missing opens, Reader.value_parameterList_of_missing opens]
      apply (eat_runs_of_unseen opens).bind
      exact (unexpected_runs .openingParen).bind (.pure [])
  | true =>
      apply (eat_runs opens (by decide)).bind
      cases closes : before.advance.sees .rightParen with
      | true =>
          rcases Reader.parameterList_of_empty opens closes with ⟨values, reached⟩
          rw [values, reached]
          exact (eat_runs closes (by decide)).bind (.pure [])
      | false =>
          rcases Reader.parameterList_of_types opens closes with ⟨values, reached⟩
          rw [values, reached]
          apply (eat_runs_of_unseen closes).bind
          exact (parameters_runs _).bind ((closeGroup_runs placed).bind (.pure _))

theorem declare_runs {name : Token} (params : List DataType) (placed : source.Placed name.span)
    (word : source.slice? name.span = some name.text) :
    Runs source before held
      (do
        let fact := ⟨← text name.span, name.span, params⟩
        match (← get).world.declare fact with
        | .ok world => modify (fun machine => { machine with world := world })
        | .error _ => report name.span (.redeclaredFact (← text name.span)))
      () (before.declare ⟨name.text, name.span, params⟩) held := by
  apply (text_runs word).bind
  intro machine follows
  rw [StateT.run_bind, StateT.run_get, pure_bind]
  dsimp only
  rw [follows.world]
  unfold Reader.declare
  cases before.world.declare ⟨name.text, name.span, params⟩ with
  | ok world => exact ⟨{ machine with world := world }, rfl, { follows with world := rfl }⟩
  | error _ => exact ((text_runs word).bind (report_runs placed _)) machine follows

theorem factDeclaration_runs (named : before.sees .identifier = true) :
    Runs source before held factDeclaration () before.factDeclaration held := by
  have input : before.current.kind ≠ .endOfInput := by rw [beq_iff_eq.mp named]; decide
  unfold factDeclaration Reader.factDeclaration
  apply Runs.assume _ (fun _ follows => follows.placed_current)
  intro placed
  apply Runs.assume _ (fun _ follows => follows.slice?_current input)
  intro word
  apply (advance_runs input).bind
  exact parameterList_runs.bind (declare_runs _ placed word)

theorem factDeclarations_runs {opened : Span} (placed : source.Placed opened) (before : Reader) :
    Runs source before held (factDeclarations opened) ()
      (Reader.factDeclarations opened before).reader held := by
  induction before using Reader.factDeclarations.induct opened with
  | case1 reader closes =>
      rw [factDeclarations, Reader.factDeclarations_of_close closes]
      apply peek_runs.bind
      rw [beq_iff_eq.mp closes]
      exact (advance_runs_of_sees closes (by decide)).bind (.pure ())
  | case2 reader unclosed ended =>
      rw [factDeclarations, Reader.factDeclarations_of_end ended]
      apply peek_runs.bind
      rw [beq_iff_eq.mp ended]
      exact report_runs placed _
  | case3 reader unclosed notEnded _ named _ ih =>
      rw [factDeclarations, Reader.factDeclarations_of_name named]
      apply peek_runs.bind
      rw [beq_iff_eq.mp named]
      exact (factDeclaration_runs named).bind ih
  | case4 reader unclosed notEnded _ unnamed ih =>
      have input : reader.current.kind ≠ .endOfInput := fun same => notEnded (beq_iff_eq.mpr same)
      rw [factDeclarations, Reader.factDeclarations_of_other (Bool.eq_false_iff.mpr unclosed)
        (Bool.eq_false_iff.mpr notEnded) (Bool.eq_false_iff.mpr unnamed)]
      apply peek_runs.bind
      split
      case h_1 same => exact (unclosed (beq_iff_eq.mpr same)).elim
      case h_2 same => exact (input same).elim
      case h_3 same => exact (unnamed (beq_iff_eq.mpr same)).elim
      case h_4 =>
        apply (unexpected_runs .factDeclaration).bind
        have passed : (reader.unexpected .factDeclaration).current.kind ≠ .endOfInput := input
        exact (advance_runs passed).bind ih

theorem factBlock_runs :
    Runs source before held factBlock () before.factBlock.reader held := by
  unfold factBlock
  cases block : before.sees .fact with
  | false =>
      rw [Reader.factBlock_of_missing block]
      exact (eat_runs_of_unseen block).bind (unexpected_runs .factKeyword)
  | true =>
      apply (eat_runs block (by decide)).bind
      apply Runs.assume _ (fun _ follows => follows.placed_current)
      intro placed
      apply peek_runs.bind
      cases opens : before.advance.sees .leftBrace with
      | false =>
          rw [Reader.factBlock_of_unopened block opens]
          exact (eat_runs_of_unseen opens).bind (unexpected_runs .openingBrace)
      | true =>
          rw [Reader.factBlock_of_opens block opens]
          exact (eat_runs opens (by decide)).bind (factDeclarations_runs placed _)

/-! ## Whole sources -/

theorem preconditions_runs (before : Reader) : forall held : List Node,
    Runs source before held preconditions (before.preconditions.1.map Node.handle)
      before.preconditions.2 (before.preconditions.1 ++ held) := by
  induction before using Reader.preconditions.induct with
  | case1 reader ended =>
      intro held
      rw [preconditions, Reader.preconditions_of_end ended]
      apply peek_runs.bind
      rw [beq_iff_eq.mp ended]
      exact .pure []
  | case2 reader notEnded block _ ih =>
      intro held
      rw [preconditions, Reader.preconditions_of_fact block]
      apply peek_runs.bind
      rw [beq_iff_eq.mp block]
      exact factBlock_runs.bind (ih held)
  | case3 reader notEnded notBlock opens _ ih =>
      intro held
      rw [preconditions, Reader.preconditions_of_opens opens]
      apply peek_runs.bind
      rw [beq_iff_eq.mp opens]
      apply precondition_runs.bind
      exact (ih _).bind ((Runs.pure _).reorder List.perm_middle)
  | case4 reader notEnded notBlock unopened _ ih =>
      intro held
      have input : reader.current.kind ≠ .endOfInput := fun same => notEnded (beq_iff_eq.mpr same)
      rw [preconditions, Reader.preconditions_of_other (Bool.eq_false_iff.mpr notEnded)
        (Bool.eq_false_iff.mpr notBlock) (Bool.eq_false_iff.mpr unopened)]
      apply peek_runs.bind
      split
      case h_1 same => exact (input same).elim
      case h_2 same => exact (notBlock (beq_iff_eq.mpr same)).elim
      case h_3 same => exact (unopened (beq_iff_eq.mpr same)).elim
      case h_4 =>
        apply (unexpected_runs .declarationOrPrecondition).bind
        have passed : (reader.unexpected .declarationOrPrecondition).current.kind ≠ .endOfInput :=
          input
        exact (advance_runs passed).bind (ih held)

end Machine

end PlanningDomain
