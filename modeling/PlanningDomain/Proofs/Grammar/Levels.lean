import PlanningDomain.Proofs.Grammar.Juxtaposition

namespace PlanningDomain

/-!
# Expressions at looser levels

Every expression is an expression of all looser levels, without an operator
of theirs.  Operators of one level go on with any expression of the level, which
is then the left operand.
-/

namespace Level

/-- A level that is not looser than a chain is the chain itself or not looser
than its operands.  So it is for the other levels. -/
theorem eq_or_rank_le_of_chain {tighter : Level} {operators : Chain}
    (below : tighter.rank ≤ (chain operators).rank) :
    tighter = chain operators ∨ tighter.rank ≤ operators.operand.rank := by
  rcases tighter with (_ | _) | _ | (_ | _ | _) | _
  all_goals
    cases operators <;> revert below <;> decide

theorem eq_or_rank_le_of_negation {tighter : Level} (below : tighter.rank ≤ negation.rank) :
    tighter = negation ∨ tighter.rank ≤ (chain .comparison).rank := by
  rcases tighter with (_ | _) | _ | (_ | _ | _) | _
  all_goals
    revert below
    decide

theorem eq_or_rank_le_of_connective {tighter : Level} {symbol : Connective}
    (below : tighter.rank ≤ (connective symbol).rank) :
    tighter = connective symbol ∨ tighter.rank ≤ symbol.operand.rank := by
  rcases tighter with (_ | _) | _ | (_ | _ | _) | _
  all_goals
    cases symbol <;> revert below <;> decide

theorem eq_primary {tighter : Level} (below : tighter.rank ≤ primary.rank) : tighter = primary := by
  rcases tighter with (_ | _) | _ | (_ | _ | _) | _
  all_goals
    revert below
    decide

theorem rank_le_loosest (level : Level) : level.rank ≤ loosest.rank := by
  rcases level with (_ | _) | _ | (_ | _ | _) | _
  all_goals decide

end Level

namespace Grammar

theorem Expression.loosen {tighter level : Level} {tokens : List Token} {term : Term}
    (derived : Expression tighter tokens term) (below : tighter.rank ≤ level.rank) :
    Expression level tokens term := by
  match level with
  | .primary => exact Level.eq_primary below ▸ derived
  | .chain operators =>
      rcases Level.eq_or_rank_le_of_chain below with same | deeper
      · exact same ▸ derived
      · have _lower := operators.rank_operand_lt
        rw [← List.append_nil tokens]
        exact .chain (derived.loosen deeper) .nil
  | .negation =>
      rcases Level.eq_or_rank_le_of_negation below with same | deeper
      · exact same ▸ derived
      · exact .unnegated (derived.loosen deeper)
  | .connective symbol =>
      rcases Level.eq_or_rank_le_of_connective below with same | deeper
      · exact same ▸ derived
      · have _lower := symbol.rank_operand_lt
        rw [← List.append_nil tokens]
        exact .connective (derived.loosen deeper) .nil
termination_by level.rank
decreasing_by
  · assumption
  · decide
  · assumption

/-- An operator of a level goes on with an expression of the level. -/
theorem Expression.operate {operators : Chain} {left right : Term} {first tokens : List Token}
    {mark : Token} {kind : Kind} (derived : Expression (.chain operators) first left)
    (operator : operators.kind? mark.kind = some kind)
    (operand : Expression operators.operand tokens right) :
    Expression (.chain operators) (first ++ mark :: tokens) (.mk kind [left, right]) := by
  have last (middle : Term) :
      Chained operators middle (mark :: tokens) (.mk kind [middle, right]) := by
    have alone := Chained.cons operator operand (@Chained.nil operators (.mk kind [middle, right]))
    rw [List.append_nil] at alone
    exact alone
  cases derived with
  | chain head others =>
      rw [List.append_assoc]
      exact .chain head (others.append (last left))

end Grammar

end PlanningDomain
