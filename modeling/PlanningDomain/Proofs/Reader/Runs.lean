import Mathlib.Data.List.Infix
import PlanningDomain.Reader.Expression

namespace PlanningDomain

/-!
# How expressions are read

The functions that read expressions call each other, and their bounds stand
between the steps.  What they do is said here once more as relations between
the reader before, the value that is read, and the reader after, with one rule
for each branch.  The functions take exactly these branches, and no other
result is related.  What holds of reading expressions is therefore proved along
the rules.
-/

namespace Reader

mutual

/-- An expression of a level is read, or found to be missing. -/
inductive Reads : Level -> Reader -> Option Node -> Reader -> Prop
  | single {symbol before value after} :
      Reads (Connective.operand symbol) before value after ->
      after.sees symbol.token = false ->
      Reads (.connective symbol) before value after
  | connective {symbol before first middle others after} :
      Reads (Connective.operand symbol) before first middle ->
      middle.sees symbol.token = true ->
      ReadsOperands symbol middle.reserve others after ->
      Reads (.connective symbol) before
        (some (.mk middle.nextHandle (.connective symbol) (first.toList ++ others))) after
  | negation {before operand after} :
      before.sees .not = true ->
      Reads .negation before.advance.reserve operand after ->
      Reads .negation before (some (.mk before.nextHandle .not operand.toList)) after
  | unnegated {before value after} :
      before.sees .not = false ->
      Reads (.chain .comparison) before value after ->
      Reads .negation before value after
  | chain {operators before first middle value after} :
      Reads (Chain.operand operators) before first middle ->
      ReadsChain operators first middle value after ->
      Reads (.chain operators) before value after
  | call {before values after} :
      before.sees .identifier = true ->
      before.seesNext .leftParen = true ->
      ReadsCall before.advance.current.span before.advance.advance.reserve values after ->
      Reads .primary before (some (.mk before.nextHandle (.func before.current.span) values))
        (after.checkCall before.current values.length)
  | var {before} :
      before.sees .identifier = true ->
      before.seesNext .leftParen = false ->
      Reads .primary before (some (before.leaf (.var before.current.span))) before.advance.reserve
  | group {before value after} :
      before.sees .leftParen = true ->
      Reads .loosest before.advance value after ->
      Reads .primary before value (after.closeGroup before.current.span)
  | constant {before value problems} :
      before.current.constant? = some (value, problems) ->
      Reads .primary before (some (before.leaf (.literal value)))
        (before.advance.reportAll before.current.span problems).reserve
  | missing {before} :
      before.sees .identifier = false ->
      before.sees .leftParen = false ->
      before.current.constant? = none ->
      Reads .primary before none (before.unexpected .operand).recover

/-- The further operands of a connective are read. -/
inductive ReadsOperands : Connective -> Reader -> List Node -> Reader -> Prop
  | nil {symbol before} :
      before.sees (Connective.token symbol) = false ->
      ReadsOperands symbol before [] before
  | cons {symbol before next middle others after} :
      before.sees (Connective.token symbol) = true ->
      Reads symbol.operand before.advance next middle ->
      ReadsOperands symbol middle others after ->
      ReadsOperands symbol before (next.toList ++ others) after

/-- The operators of a level and their right operands are read. -/
inductive ReadsChain : Chain -> Option Node -> Reader -> Option Node -> Reader -> Prop
  | nil {operators left before} :
      Chain.kind? operators before.current.kind = none ->
      ReadsChain operators left before left before
  | cons {operators left before kind right middle value after} :
      Chain.kind? operators before.current.kind = some kind ->
      Reads operators.operand before.advance.reserve right middle ->
      ReadsChain operators (some (.mk before.nextHandle kind (left.toList ++ right.toList))) middle
        value after ->
      ReadsChain operators left before value after

/-- The arguments of a call are read, up to its closing parenthesis. -/
inductive ReadsCall : Span -> Reader -> List Node -> Reader -> Prop
  | nil {opened before} :
      before.sees .rightParen = true ->
      ReadsCall opened before [] before.advance
  | arguments {opened before values after} :
      before.sees .rightParen = false ->
      ReadsArguments before values after ->
      ReadsCall opened before values (after.closeGroup opened)

inductive ReadsArguments : Reader -> List Node -> Reader -> Prop
  | last {before value after} :
      ReadsArgument before value after ->
      after.sees .comma = false ->
      ReadsArguments before value.toList after
  | cons {before value middle others after} :
      ReadsArgument before value middle ->
      middle.sees .comma = true ->
      ReadsArguments middle.advance others after ->
      ReadsArguments before (value.toList ++ others) after

inductive ReadsArgument : Reader -> Option Node -> Reader -> Prop
  | empty {before} :
      (before.sees .comma || before.sees .rightParen) = true ->
      ReadsArgument before none (before.report before.current.span .emptyArgument)
  | expression {before value after} :
      (before.sees .comma || before.sees .rightParen) = false ->
      Reads .loosest before value after ->
      ReadsArgument before value after

end

/-! ## The functions take these branches -/

mutual

theorem reads_expression (level : Level) (reader : Reader) :
    Reads level reader (expression level reader).value (expression level reader).reader := by
  match level with
  | .connective symbol =>
      have _lower := symbol.rank_operand_lt
      have first := reads_expression symbol.operand reader
      have _bound := (expression symbol.operand reader).bound
      have others := reads_operands symbol (expression symbol.operand reader).reader.reserve
      rw [expression]
      by_cases seen : (expression symbol.operand reader).reader.sees symbol.token = true
      · simp only [if_pos seen]
        exact .connective first seen others
      · simp only [if_neg seen]
        exact .single first (Bool.eq_false_iff.mpr seen)
  | .negation =>
      rw [expression]
      by_cases seen : reader.sees .not = true
      · have _shorter := remaining_advance_lt seen (by decide)
        rw [dif_pos seen]
        exact .negation seen (reads_expression .negation reader.advance.reserve)
      · rw [dif_neg seen]
        exact .unnegated (Bool.eq_false_iff.mpr seen) (reads_expression (.chain .comparison) reader)
  | .chain operators =>
      have _lower := operators.rank_operand_lt
      have _bound := (expression operators.operand reader).bound
      rw [expression]
      exact .chain (reads_expression operators.operand reader) (reads_chain operators _ _)
  | .primary =>
      rw [expression]
      exact reads_primary reader
termination_by 20 * reader.remaining + 2 * level.rank + 1
decreasing_by
  all_goals try simp only [remaining_reserve, Level.rank] at *
  all_goals omega

theorem reads_operands (symbol : Connective) (reader : Reader) :
    ReadsOperands symbol reader (operands symbol reader).value (operands symbol reader).reader := by
  rw [operands]
  by_cases seen : reader.sees symbol.token = true
  · have _shorter := remaining_advance_lt seen symbol.token_ne_endOfInput
    have _rank := symbol.rank_operand_le
    have _bound := (expression symbol.operand reader.advance).bound
    rw [dif_pos seen]
    exact .cons seen (reads_expression symbol.operand reader.advance) (reads_operands symbol _)
  · rw [dif_neg seen]
    exact .nil (Bool.eq_false_iff.mpr seen)
termination_by 20 * reader.remaining
decreasing_by
  all_goals try simp only [Level.rank] at *
  all_goals omega

theorem reads_chain (operators : Chain) (left : Option Node) (reader : Reader) :
    ReadsChain operators left reader (chain operators left reader).value
      (chain operators left reader).reader := by
  rw [chain]
  split
  case h_1 absent => exact .nil absent
  case h_2 kind operator =>
    have _rank := operators.rank_operand_le
    have _shorter := remaining_advance_lt_of_operator operator
    have _bound := (expression operators.operand reader.advance.reserve).bound
    exact .cons operator (reads_expression operators.operand reader.advance.reserve)
      (reads_chain operators _ _)
termination_by 20 * reader.remaining
decreasing_by
  all_goals try simp only [remaining_reserve, Level.rank] at *
  all_goals omega

theorem reads_primary (reader : Reader) :
    Reads .primary reader (primary reader).value (primary reader).reader := by
  rw [primary]
  by_cases named : reader.sees .identifier = true
  · have _shorter := remaining_advance_lt named (by decide)
    have _bound := reader.advance.remaining_advance_le
    rw [dif_pos named]
    by_cases opens : reader.seesNext .leftParen = true
    · rw [if_pos opens]
      exact .call named opens (reads_call _ reader.advance.advance.reserve)
    · rw [if_neg opens]
      exact .var named (Bool.eq_false_iff.mpr opens)
  · rw [dif_neg named]
    by_cases opens : reader.sees .leftParen = true
    · have _shorter := remaining_advance_lt opens (by decide)
      rw [dif_pos opens]
      exact .group opens (reads_expression .loosest reader.advance)
    · rw [dif_neg opens]
      split
      case h_1 value problems found => exact .constant found
      case h_2 absent =>
        exact .missing (Bool.eq_false_iff.mpr named) (Bool.eq_false_iff.mpr opens) absent
termination_by 20 * reader.remaining
decreasing_by
  all_goals try simp only [remaining_reserve, Level.rank] at *
  all_goals omega

theorem reads_call (opened : Span) (reader : Reader) :
    ReadsCall opened reader (call opened reader).value (call opened reader).reader := by
  rw [call]
  by_cases closes : reader.sees .rightParen = true
  · rw [if_pos closes]
    exact .nil closes
  · rw [if_neg closes]
    exact .arguments (Bool.eq_false_iff.mpr closes) (reads_arguments reader)
termination_by 20 * reader.remaining + 16

theorem reads_arguments (reader : Reader) :
    ReadsArguments reader (arguments reader).value (arguments reader).reader := by
  have first := reads_argument reader
  have _bound := (argument reader).bound
  rw [arguments]
  by_cases separated : (argument reader).reader.sees .comma = true
  · have _shorter := remaining_advance_lt separated (by decide)
    simp only [dif_pos separated]
    exact .cons first separated (reads_arguments _)
  · simp only [dif_neg separated]
    exact .last first (Bool.eq_false_iff.mpr separated)
termination_by 20 * reader.remaining + 15

theorem reads_argument (reader : Reader) :
    ReadsArgument reader (argument reader).value (argument reader).reader := by
  rw [argument]
  by_cases missing : (reader.sees .comma || reader.sees .rightParen) = true
  · rw [if_pos missing]
    exact .empty missing
  · rw [if_neg missing]
    exact .expression (Bool.eq_false_iff.mpr missing) (reads_expression .loosest reader)
termination_by 20 * reader.remaining + 14
decreasing_by
  simp only [Level.rank]
  omega

end

/-! ## There are no other results -/

theorem sees_eq_false_of_sees {reader : Reader} {kind other : TokenKind}
    (seen : reader.sees kind = true) (different : kind ≠ other) : reader.sees other = false := by
  refine Bool.eq_false_iff.mpr (fun again => different ?_)
  exact (beq_iff_eq.mp seen).symm.trans (beq_iff_eq.mp again)

/-- No constant begins like a name or a group. -/
theorem sees_eq_false_of_constant {reader : Reader} {constant : Literal × List Problem}
    (found : reader.current.constant? = some constant) :
    reader.sees .identifier = false ∧ reader.sees .leftParen = false := by
  have unlike : forall kind : TokenKind, reader.current.kind = kind ->
      (kind == .identifier) = false ∧ (kind == .leftParen) = false ->
        reader.sees .identifier = false ∧ reader.sees .leftParen = false := by
    intro kind same other
    rw [sees, sees, same]
    exact other
  rcases Token.kind_of_constant found with kind | kind | kind
  · exact unlike _ kind ⟨rfl, rfl⟩
  · exact unlike _ kind ⟨rfl, rfl⟩
  · exact unlike _ kind ⟨rfl, rfl⟩

mutual

theorem Reads.eq_expression {level : Level} {before after : Reader} {value : Option Node} :
    Reads level before value after ->
      (expression level before).value = value ∧ (expression level before).reader = after
  | .single first unseen => by
      rcases first.eq_expression with ⟨values, readers⟩
      rw [expression]
      subst readers
      simp only [if_neg (Bool.eq_false_iff.mp unseen), and_true]
      exact values
  | .connective first seen others => by
      rcases first.eq_expression with ⟨values, readers⟩
      rcases others.eq_operands with ⟨otherValues, otherReaders⟩
      rw [expression]
      subst values readers
      simp only [if_pos seen]
      rw [otherValues]
      exact ⟨rfl, otherReaders⟩
  | .negation seen operand => by
      rcases operand.eq_expression with ⟨values, readers⟩
      rw [expression, dif_pos seen]
      subst values readers
      exact ⟨rfl, rfl⟩
  | .unnegated unseen operand => by
      rw [expression, dif_neg (Bool.eq_false_iff.mp unseen)]
      exact operand.eq_expression
  | .chain first others => by
      rcases first.eq_expression with ⟨values, readers⟩
      have chained := others.eq_chain
      rw [expression]
      subst values readers
      exact chained
  | .call named opens call => by
      rcases call.eq_call with ⟨values, readers⟩
      rw [expression, primary, dif_pos named, if_pos opens]
      subst values readers
      exact ⟨rfl, rfl⟩
  | .var named unopened => by
      rw [expression, primary, dif_pos named, if_neg (Bool.eq_false_iff.mp unopened)]
      exact ⟨rfl, rfl⟩
  | .group opens inner => by
      rcases inner.eq_expression with ⟨values, readers⟩
      have unnamed := sees_eq_false_of_sees opens (by decide : TokenKind.leftParen ≠ .identifier)
      rw [expression, primary, dif_neg (Bool.eq_false_iff.mp unnamed), dif_pos opens]
      subst values readers
      exact ⟨rfl, rfl⟩
  | .constant found => by
      rcases sees_eq_false_of_constant found with ⟨unnamed, unopened⟩
      rw [expression, primary, dif_neg (Bool.eq_false_iff.mp unnamed),
        dif_neg (Bool.eq_false_iff.mp unopened)]
      split
      case h_1 value problems again =>
        rcases Prod.mk.inj (Option.some.inj (again.symm.trans found)) with ⟨sameValue, sameProblems⟩
        subst sameValue sameProblems
        exact ⟨rfl, rfl⟩
      case h_2 absent => exact (Option.some_ne_none _ (found.symm.trans absent)).elim
  | .missing unnamed unopened absent => by
      rw [expression, primary, dif_neg (Bool.eq_false_iff.mp unnamed),
        dif_neg (Bool.eq_false_iff.mp unopened)]
      split
      case h_1 value problems found => exact (Option.some_ne_none _ (found.symm.trans absent)).elim
      case h_2 => exact ⟨rfl, rfl⟩

theorem ReadsOperands.eq_operands {symbol : Connective} {before after : Reader}
    {values : List Node} : ReadsOperands symbol before values after ->
      (operands symbol before).value = values ∧ (operands symbol before).reader = after
  | .nil unseen => by
      rw [operands, dif_neg (Bool.eq_false_iff.mp unseen)]
      exact ⟨rfl, rfl⟩
  | .cons seen next others => by
      rcases next.eq_expression with ⟨values, readers⟩
      rcases others.eq_operands with ⟨otherValues, otherReaders⟩
      rw [operands, dif_pos seen]
      subst values readers otherValues
      exact ⟨rfl, otherReaders⟩

theorem ReadsChain.eq_chain {operators : Chain} {left value : Option Node} {before after : Reader} :
    ReadsChain operators left before value after ->
      (chain operators left before).value = value ∧ (chain operators left before).reader = after
  | .nil absent => by
      rw [chain]
      split
      case h_1 => exact ⟨rfl, rfl⟩
      case h_2 kind operator => exact (Option.some_ne_none _ (operator.symm.trans absent)).elim
  | .cons operator right others => by
      rcases right.eq_expression with ⟨values, readers⟩
      have chained := others.eq_chain
      rw [chain]
      split
      case h_1 absent => exact (Option.some_ne_none _ (operator.symm.trans absent)).elim
      case h_2 kind again =>
        have same := Option.some.inj (again.symm.trans operator)
        subst same values readers
        exact chained

theorem ReadsCall.eq_call {opened : Span} {before after : Reader} {values : List Node} :
    ReadsCall opened before values after ->
      (call opened before).value = values ∧ (call opened before).reader = after
  | .nil closes => by
      rw [call, if_pos closes]
      exact ⟨rfl, rfl⟩
  | .arguments unclosed found => by
      rcases found.eq_arguments with ⟨values, readers⟩
      rw [call, if_neg (Bool.eq_false_iff.mp unclosed)]
      subst values readers
      exact ⟨rfl, rfl⟩

theorem ReadsArguments.eq_arguments {before after : Reader} {values : List Node} :
    ReadsArguments before values after ->
      (arguments before).value = values ∧ (arguments before).reader = after
  | .last first unseparated => by
      rcases first.eq_argument with ⟨values, readers⟩
      rw [arguments]
      subst values readers
      simp only [dif_neg (Bool.eq_false_iff.mp unseparated), and_self]
  | .cons first separated others => by
      rcases first.eq_argument with ⟨values, readers⟩
      rcases others.eq_arguments with ⟨otherValues, otherReaders⟩
      rw [arguments]
      subst values readers otherValues
      simp only [dif_pos separated, true_and]
      exact otherReaders

theorem ReadsArgument.eq_argument {before after : Reader} {value : Option Node} :
    ReadsArgument before value after ->
      (argument before).value = value ∧ (argument before).reader = after
  | .empty missing => by
      rw [argument, if_pos missing]
      exact ⟨rfl, rfl⟩
  | .expression present inner => by
      rw [argument, if_neg (Bool.eq_false_iff.mp present)]
      exact inner.eq_expression

end

end Reader

end PlanningDomain
