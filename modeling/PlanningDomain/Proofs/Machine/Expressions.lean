import PlanningDomain.Proofs.Machine.Steps
import PlanningDomain.Proofs.Reader.Branches

namespace PlanningDomain

/-!
# Machines read expressions

A machine that follows a reader reads the same expression as the reader.  The
proof goes along the rules by which readers read, and for each rule the steps of
the machine are run one after the other.  In between, the arena holds the nodes that
are not finished beside everything that was held before.
-/

namespace Machine

variable {source : Source} {before after : Reader} {held : List Node}

/-! ## Ends of groups -/

theorem skipGroup_runs (depth : Nat) (before : Reader) :
    Runs source before held (skipGroup depth) () (Reader.skipGroup depth before) held := by
  induction depth, before using Reader.skipGroup.induct with
  | case1 depth reader ended =>
      rw [skipGroup, Reader.skipGroup_of_end ended]
      apply peek_runs.bind
      rw [beq_iff_eq.mp ended]
      exact .pure ()
  | case2 depth reader _ closes =>
      rcases Bool.and_eq_true_iff.mp closes with ⟨closing, outermost⟩
      rw [beq_iff_eq.mp outermost, skipGroup, Reader.skipGroup_of_close closing]
      apply peek_runs.bind
      rw [beq_iff_eq.mp closing]
      exact .pure ()
  | case3 depth reader notEnded closes _ ih =>
      have input : reader.current.kind ≠ .endOfInput := fun same => notEnded (beq_iff_eq.mpr same)
      rw [skipGroup, Reader.skipGroup_of_inside notEnded closes]
      apply peek_runs.bind
      split
      case h_1 ended => exact (input ended).elim
      case h_2 closing =>
        have inner : depth ≠ 0 := by
          intro outermost
          refine closes (Bool.and_eq_true_iff.mpr ⟨beq_iff_eq.mpr closing, ?_⟩)
          exact beq_iff_eq.mpr outermost
        obtain ⟨less, same⟩ := Nat.exists_eq_succ_of_ne_zero inner
        subst same
        rw [closing] at ih ⊢
        rw [if_neg inner]
        exact .bind (.pure less) ((advance_runs input).bind ih)
      case h_3 opening =>
        rw [opening] at ih ⊢
        exact (advance_runs input).bind ih
      case h_4 unclosed unopened =>
        have same : Reader.depthAfter depth reader.current.kind = depth := by
          unfold Reader.depthAfter
          split
          case h_1 opening => exact (unopened opening).elim
          case h_2 closing => exact (unclosed closing).elim
          case h_3 => rfl
        rw [same] at ih ⊢
        exact (advance_runs input).bind ih

theorem closeGroup_runs {opened : Span} (placed : source.Placed opened) :
    Runs source before held (closeGroup opened) () (before.closeGroup opened) held := by
  have closing (closing : Reader) : Runs source closing held
      (do if !(← eat .rightParen) then report opened .unbalancedParen) ()
      (if closing.sees .rightParen then closing.advance
        else closing.report opened .unbalancedParen) held := by
    cases closes : closing.sees .rightParen with
    | true => exact (eat_runs closes (by decide)).bind (.pure ())
    | false => exact (eat_runs_of_unseen closes).bind (report_runs placed .unbalancedParen)
  unfold closeGroup Reader.closeGroup
  apply atGroupEnd_runs.bind
  cases before.atGroupEnd with
  | true => exact closing before
  | false => exact (unexpected_runs .closingParen).bind ((skipGroup_runs 0 _).bind (closing _))

/-! ## Calls and constants -/

theorem checkCall_runs {name : Token} (found : Nat) (placed : source.Placed name.span)
    (word : source.slice? name.span = some name.text) :
    Runs source before held (checkCall name.span found) () (before.checkCall name found) held := by
  refine .look (fun machine follows => ?_)
  unfold Reader.checkCall
  rw [follows.options, follows.world]
  split
  case isTrue =>
    apply (text_runs word).bind
    cases before.world.find? name.text with
    | none => exact report_runs placed _
    | some fact =>
        by_cases same : fact.arity = found
        · simp only [if_pos same]
          exact .pure ()
        · simp only [if_neg same]
          exact report_runs placed _
  case isFalse => exact .pure ()

theorem nextHandle_reportAll (reader : Reader) (span : Span) (problems : List Problem) :
    (reader.reportAll span problems).nextHandle = reader.nextHandle := by
  induction problems generalizing reader with
  | nil => rfl
  | cons problem rest ih => exact ih (reader.report span problem)

theorem constant_runs {value : Literal} {problems : List Problem}
    (found : before.current.constant? = some (value, problems)) :
    Runs source before held constant before.nextHandle
      (before.advance.reportAll before.current.span problems).reserve
      (.mk before.nextHandle (.literal value) [] :: held) := by
  have input := Token.ne_endOfInput_of_constant found
  apply Runs.assume _ (fun _ follows => follows.placed_current)
  intro placed
  apply Runs.assume _ (fun _ follows => follows.slice?_current input)
  intro word
  apply (advance_runs input).bind
  apply (text_runs word).bind
  have denoted : Runs source before.advance held
      (demand (Token.constant? ⟨before.current.kind, before.current.span, before.current.text⟩))
      (value, problems) before.advance held := by
    change Runs source before.advance held (demand before.current.constant?) _ _ _
    rw [found]
    exact .pure _
  apply denoted.bind
  apply (reportAll_runs placed problems).bind
  have allocated : Runs source (before.advance.reportAll before.current.span problems) held
    (build (Arena.alloc (.literal value))) _ _ _ := alloc_runs _
  rw [nextHandle_reportAll] at allocated
  exact allocated

/-! ## Expressions -/

end Machine

namespace Reader

open Machine

variable {source : Source}

mutual

theorem Reads.runs {level : Level} {before after : Reader} {value : Option Node} :
    Reads level before value after -> forall held : List Node,
      Runs source before held (Machine.expression level) (value.map Node.handle) after
        (value.toList ++ held)
  | .single first unseen => fun held => by
      rw [Machine.expression]
      apply (first.runs held).bind
      apply (sees_runs _).bind
      rw [unseen]
      exact .pure _
  | @Reads.connective symbol _ value _ _ _ first seen others => fun held => by
      rw [Machine.expression]
      apply (first.runs held).bind
      apply (sees_runs _).bind
      rw [seen]
      apply (alloc_runs _).bind
      apply (attach_runs value).bind
      exact (others.runs _ _ _ held).bind (.pure _)
  | @Reads.negation _ operand _ seen inner => fun held => by
      rw [Machine.expression]
      apply (eat_runs seen (by decide)).bind
      apply (alloc_runs .not).bind
      apply (inner.runs _).bind
      exact (attach_runs_behind operand).bind (.pure _)
  | .unnegated unseen inner => fun held => by
      rw [Machine.expression]
      apply (eat_runs_of_unseen unseen).bind
      exact inner.runs held
  | .chain first others => fun held => by
      rw [Machine.expression]
      apply (first.runs held).bind
      exact others.runs held
  | @Reads.call _ values _ named opens arguments => fun held => by
      have isName : before.current.kind = .identifier := beq_iff_eq.mp named
      have input : before.current.kind ≠ .endOfInput := by rw [isName]; decide
      have opening := sees_advance_of_seesNext opens
      rw [Machine.expression, Machine.primary]
      apply Runs.assume _ (fun _ follows => follows.placed_current)
      intro placed
      apply Runs.assume _ (fun _ follows => follows.slice?_current input)
      intro word
      apply Runs.assume _ (fun _ follows => follows.peek_next)
      intro ⟨next, ahead⟩
      have isOpening : next.kind = .leftParen := by
        rw [seesNext, ahead] at opens
        exact beq_iff_eq.mp opens
      apply peek_runs.bind
      rw [isName]
      apply (peek_next_runs ahead).bind
      rw [if_pos isOpening, Machine.call]
      refine Runs.bind ?_ (.pure (some before.nextHandle))
      apply (advance_runs input).bind
      apply Runs.assume _ (fun _ follows => follows.placed_current)
      intro placedOpening
      apply (advance_runs_of_sees opening (by decide)).bind
      rw [guard, if_pos (beq_iff_eq.mp opening)]
      refine Runs.bind (.pure ()) ?_
      apply (alloc_runs _).bind
      apply (arguments.runs placedOpening _ _ held).bind
      exact (checkCall_runs values.length placed word).bind (.pure _)
  | .var named unopened => fun held => by
      have isName : before.current.kind = .identifier := beq_iff_eq.mp named
      rw [Machine.expression, Machine.primary]
      apply Runs.assume _ (fun _ follows => follows.peek_next)
      intro ⟨next, ahead⟩
      have notOpening : next.kind ≠ .leftParen := by
        rw [seesNext, ahead] at unopened
        exact beq_eq_false_iff_ne.mp unopened
      apply peek_runs.bind
      rw [isName]
      apply (peek_next_runs ahead).bind
      rw [if_neg notOpening]
      apply (advance_runs_of_sees named (by decide)).bind
      exact (alloc_runs _).bind (.pure _)
  | .group opens inner => fun held => by
      have isOpening : before.current.kind = .leftParen := beq_iff_eq.mp opens
      rw [Machine.expression, Machine.primary]
      apply Runs.assume _ (fun _ follows => follows.placed_current)
      intro placed
      apply peek_runs.bind
      rw [isOpening]
      apply (advance_runs_of_sees opens (by decide)).bind
      apply (inner.runs held).bind
      exact (closeGroup_runs placed).bind (.pure _)
  | .constant found => fun held => by
      rw [Machine.expression, Machine.primary]
      apply peek_runs.bind
      rcases Token.kind_of_constant found with kind | kind | kind
      all_goals
        rw [kind]
        exact (constant_runs found).bind (.pure _)
  | .missing unnamed unopened absent => fun held => by
      have unlike (kind : TokenKind) (denotes : kind = .integer ∨ kind = .float ∨ kind = .string) :
          before.current.kind ≠ kind := by
        intro same
        have present := Token.isSome_constant (same ▸ denotes)
        rw [absent] at present
        exact Bool.noConfusion present
      rw [Machine.expression, Machine.primary]
      apply peek_runs.bind
      split
      case h_1 same => exact (Bool.eq_false_iff.mp unnamed (beq_iff_eq.mpr same)).elim
      case h_2 same => exact (Bool.eq_false_iff.mp unopened (beq_iff_eq.mpr same)).elim
      case h_3 same => exact (unlike _ (by decide) same).elim
      case h_4 same => exact (unlike _ (by decide) same).elim
      case h_5 same => exact (unlike _ (by decide) same).elim
      case h_6 => exact (unexpected_runs .operand).bind ((skipGroup_runs 0 _).bind (.pure none))

theorem ReadsOperands.runs {symbol : Connective} {before after : Reader} {values : List Node} :
    ReadsOperands symbol before values after -> forall handle kind children (held : List Node),
      Runs source before (.mk handle kind children :: held) (Machine.operands symbol handle) ()
        after (.mk handle kind (children ++ values) :: held)
  | .nil unseen => fun handle kind children held => by
      rw [Machine.operands, List.append_nil]
      exact (eat_runs_of_unseen unseen).bind (.pure ())
  | @ReadsOperands.cons _ _ next _ _ _ seen first others => fun handle kind children held => by
      rw [Machine.operands, ← List.append_assoc]
      apply (eat_runs seen symbol.token_ne_endOfInput).bind
      apply (first.runs _).bind
      exact (attach_runs_behind next).bind (others.runs handle kind _ held)

theorem ReadsChain.runs {operators : Chain} {left value : Option Node} {before after : Reader} :
    ReadsChain operators left before value after -> forall held : List Node,
      Runs source before (left.toList ++ held) (Machine.chain operators (left.map Node.handle))
        (value.map Node.handle) after (value.toList ++ held)
  | .nil absent => fun held => by
      rw [Machine.chain]
      apply peek_runs.bind
      rw [absent]
      exact .pure _
  | @ReadsChain.cons _ _ _ kind right _ _ _ operator operand others => fun held => by
      have input := Chain.ne_endOfInput_of_kind operator
      rw [Machine.chain]
      apply peek_runs.bind
      rw [operator]
      apply (advance_runs input).bind
      apply (alloc_runs kind).bind
      apply (attach_runs left).bind
      apply (operand.runs _).bind
      exact (attach_runs_behind right).bind (others.runs held)

theorem ReadsCall.runs {opened : Span} {before after : Reader} {values : List Node} :
    ReadsCall opened before values after -> source.Placed opened ->
      forall handle kind (held : List Node),
        Runs source before (.mk handle kind [] :: held) (argumentList opened handle)
          values.length after (.mk handle kind values :: held)
  | .nil closes => fun _ handle kind held => by
      rw [argumentList]
      exact (eat_runs closes (by decide)).bind (.pure 0)
  | .arguments unclosed found => fun placed handle kind held => by
      have counted := found.runs handle kind [] held
      rw [List.length_nil, Nat.zero_add] at counted
      rw [argumentList]
      apply (eat_runs_of_unseen unclosed).bind
      exact counted.bind ((closeGroup_runs placed).bind (.pure _))

theorem ReadsArguments.runs {before after : Reader} {values : List Node} :
    ReadsArguments before values after -> forall handle kind children (held : List Node),
      Runs source before (.mk handle kind children :: held)
        (Machine.arguments handle children.length) (children.length + values.length) after
        (.mk handle kind (children ++ values) :: held)
  | .last first unseparated => fun handle kind children held => by
      rw [Machine.arguments]
      apply (first.runs handle kind children held).bind
      exact (eat_runs_of_unseen unseparated).bind (.pure _)
  | @ReadsArguments.cons _ value _ _ _ first separated others =>
      fun handle kind children held => by
        have further := others.runs handle kind (children ++ value.toList) held
        rw [List.append_assoc, List.length_append] at further
        rw [Machine.arguments, List.length_append, ← Nat.add_assoc]
        apply (first.runs handle kind children held).bind
        exact (eat_runs separated (by decide)).bind further

theorem ReadsArgument.runs {before after : Reader} {value : Option Node} :
    ReadsArgument before value after -> forall handle kind children (held : List Node),
      Runs source before (.mk handle kind children :: held)
        (Machine.argument handle children.length) (children.length + value.toList.length) after
        (.mk handle kind (children ++ value.toList) :: held)
  | .empty missing => fun handle kind children held => by
      rw [Machine.argument, Option.toList_none, List.append_nil]
      have isMissing : before.current.kind = .comma ∨ before.current.kind = .rightParen := by
        rcases Bool.or_eq_true_iff.mp missing with comma | closing
        · exact .inl (beq_iff_eq.mp comma)
        · exact .inr (beq_iff_eq.mp closing)
      apply Runs.assume _ (fun _ follows => follows.placed_current)
      intro placed
      apply peek_runs.bind
      rw [if_pos isMissing]
      exact (report_runs placed _).bind (.pure _)
  | @ReadsArgument.expression _ value _ present inner => fun handle kind children held => by
      have isPresent : ¬ (before.current.kind = .comma ∨ before.current.kind = .rightParen) := by
        intro missing
        rcases Bool.or_eq_false_iff.mp present with ⟨noComma, noClosing⟩
        rcases missing with comma | closing
        · exact Bool.eq_false_iff.mp noComma (beq_iff_eq.mpr comma)
        · exact Bool.eq_false_iff.mp noClosing (beq_iff_eq.mpr closing)
      rw [Machine.argument]
      apply peek_runs.bind
      rw [if_neg isPresent]
      apply (inner.runs _).bind
      cases value with
      | none =>
          rw [Option.toList_none, List.append_nil]
          exact .pure _
      | some argument => exact (attach_runs_behind (some argument)).bind (.pure _)

end

end Reader

end PlanningDomain
