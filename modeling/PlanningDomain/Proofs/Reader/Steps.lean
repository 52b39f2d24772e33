import Mathlib.Logic.Relation
import PlanningDomain.Proofs.Reader.Input
import PlanningDomain.Proofs.Reader.Runs

namespace PlanningDomain

/-!
# The steps of reading expressions

While an expression is read, a reader does three things only: it moves on from
a token, which is never the end of input, it reports a problem, and it gives out
a handle.  So what none of the three touches stays the same until the expression
is read, whatever the input is.
-/

namespace Reader

inductive Step : Reader -> Reader -> Prop
  | advance {reader : Reader} :
      reader.current.kind ≠ .endOfInput ->
      Step reader reader.advance
  | report {reader : Reader} (span : Span) (problem : Problem) :
      Step reader (reader.report span problem)
  | reserve {reader : Reader} : Step reader reader.reserve

/-- Any number of steps. -/
abbrev Steps : Reader -> Reader -> Prop :=
  Relation.ReflTransGen Step

theorem Step.advance_of_sees {reader : Reader} {kind : TokenKind} (seen : reader.sees kind = true)
    (input : kind ≠ .endOfInput) : Step reader reader.advance :=
  .advance (fun ended => input ((beq_iff_eq.mp seen).symm.trans ended))

theorem skipGroup_steps (depth : Nat) (reader : Reader) :
    Steps reader (skipGroup depth reader) := by
  induction depth, reader using skipGroup.induct with
  | case1 depth reader ended =>
      rw [skipGroup, dif_pos ended]
  | case2 depth reader ended closes =>
      rw [skipGroup, dif_neg ended, if_pos closes]
  | case3 depth reader ended closes _ ih =>
      rw [skipGroup, dif_neg ended, if_neg closes]
      exact .head (.advance (fun same => ended (beq_iff_eq.mpr same))) ih

theorem closeGroup_steps (reader : Reader) (opened : Span) :
    Steps reader (reader.closeGroup opened) := by
  have closed : forall closing : Reader, Steps reader closing ->
      Steps reader (if closing.sees .rightParen then closing.advance
        else closing.report opened .unbalancedParen) := by
    intro closing reached
    split
    case isTrue closes => exact reached.tail (.advance_of_sees closes (by decide))
    case isFalse => exact reached.tail (.report opened .unbalancedParen)
  unfold closeGroup
  apply closed
  split
  · exact .refl
  · exact .head (.report _ _) (skipGroup_steps 0 _)

theorem reportAll_steps (reader : Reader) (span : Span) (problems : List Problem) :
    Steps reader (reader.reportAll span problems) := by
  induction problems generalizing reader with
  | nil => exact .refl
  | cons problem rest ih => exact .head (.report span problem) (ih _)

theorem checkCall_steps (reader : Reader) (name : Token) (found : Nat) :
    Steps reader (reader.checkCall name found) := by
  rw [checkCall_eq]
  exact reportAll_steps reader name.span _

mutual

theorem Reads.steps {level : Level} {before after : Reader} {value : Option Node} :
    Reads level before value after -> Steps before after
  | .single first _ => first.steps
  | .connective first _ others => first.steps.trans (.head .reserve others.steps)
  | .negation seen operand =>
      .head (.advance_of_sees seen (by decide)) (.head .reserve operand.steps)
  | .unnegated _ operand => operand.steps
  | .chain first others => first.steps.trans others.steps
  | .call named opens call =>
      .head (.advance_of_sees named (by decide))
        (.head (.advance_of_sees (sees_advance_of_seesNext opens) (by decide))
          (.head .reserve (call.steps.trans (checkCall_steps _ _ _))))
  | .var named _ => .head (.advance_of_sees named (by decide)) (.single .reserve)
  | .group opens inner =>
      .head (.advance_of_sees opens (by decide)) (inner.steps.trans (closeGroup_steps _ _))
  | .constant found =>
      .head (.advance (Token.ne_endOfInput_of_constant found))
        ((reportAll_steps _ _ _).tail .reserve)
  | .missing _ _ _ => .head (.report _ _) (skipGroup_steps 0 _)

theorem ReadsOperands.steps {symbol : Connective} {before after : Reader} {values : List Node} :
    ReadsOperands symbol before values after -> Steps before after
  | .nil _ => .refl
  | .cons seen next others =>
      .head (.advance_of_sees seen symbol.token_ne_endOfInput) (next.steps.trans others.steps)

theorem ReadsChain.steps {operators : Chain} {left value : Option Node} {before after : Reader} :
    ReadsChain operators left before value after -> Steps before after
  | .nil _ => .refl
  | .cons operator right others =>
      .head (.advance (Chain.ne_endOfInput_of_kind operator))
        (.head .reserve (right.steps.trans others.steps))

theorem ReadsCall.steps {opened : Span} {before after : Reader} {values : List Node} :
    ReadsCall opened before values after -> Steps before after
  | .nil closes => .single (.advance_of_sees closes (by decide))
  | .arguments _ found => found.steps.trans (closeGroup_steps _ _)

theorem ReadsArguments.steps {before after : Reader} {values : List Node} :
    ReadsArguments before values after -> Steps before after
  | .last first _ => first.steps
  | .cons first separated others =>
      first.steps.trans (.head (.advance_of_sees separated (by decide)) others.steps)

theorem ReadsArgument.steps {before after : Reader} {value : Option Node} :
    ReadsArgument before value after -> Steps before after
  | .empty _ => .single (.report _ _)
  | .expression _ inner => inner.steps

end

/-! ## What the steps leave alone -/

/-- The world is never touched, and neither are the source and the options. -/
theorem Steps.unchanged {before after : Reader} (steps : Steps before after) :
    after.world = before.world ∧ after.options = before.options ∧ after.source = before.source := by
  induction steps with
  | refl => exact ⟨rfl, rfl, rfl⟩
  | tail _ last ih =>
      cases last with
      | advance => exact ih
      | report => exact ih
      | reserve => exact ih

/-- What was noted stays noted. -/
theorem Steps.noted {before after : Reader} (steps : Steps before after) :
    before.diagnostics <+: after.diagnostics := by
  induction steps with
  | refl => exact List.prefix_rfl
  | tail _ last ih =>
      cases last with
      | advance => exact ih
      | report => exact ih.trans (List.prefix_append _ _)
      | reserve => exact ih

end Reader

end PlanningDomain
