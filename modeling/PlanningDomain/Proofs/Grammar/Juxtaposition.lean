import PlanningDomain.Proofs.Grammar.Basic

namespace PlanningDomain

/-!
# Expressions side by side

Expressions stand side by side in a precondition, with nothing between them.
If one of them ends in a name and the next one begins with a parenthesis, the
same tokens are also a call.  The name is then the last operand of the first
expression, at the tightest level, and everything after the closing parenthesis
goes on with the operators of the second one.  Both expressions together are
therefore one expression.  So every sequence of expressions is also one in
which this occurs nowhere.
-/

namespace Grammar

/-- A name stands before an opening parenthesis, where the first tokens end. -/
def OpensCall (tokens rest : List Token) : Prop :=
  Exists fun before : List Token => Exists fun name : Token => Exists fun opening : Token =>
    Exists fun after : List Token => tokens = before ++ [name] ∧ rest = opening :: after ∧
      name.kind = .identifier ∧ opening.kind = .leftParen

theorem OpensCall.append_left {tokens rest : List Token} (opens : OpensCall tokens rest)
    (more : List Token) : OpensCall (more ++ tokens) rest := by
  rcases opens with ⟨before, name, opening, after, ends, begins, isName, isOpening⟩
  refine ⟨more ++ before, name, opening, after, ?_, begins, isName, isOpening⟩
  rw [ends, List.append_assoc]

/-- The last token of two lists is that of the second one. -/
theorem exists_of_append_eq_concat {first second before : List Token} {last : Token}
    (same : first ++ second = before ++ [last]) (nonempty : second ≠ []) :
    Exists fun between : List Token => second = between ++ [last] ∧ before = first ++ between := by
  rcases second.eq_nil_or_concat with none | ⟨between, found, split⟩
  · exact (nonempty none).elim
  · rw [List.concat_eq_append] at split
    rw [split, ← List.append_assoc] at same
    rcases List.append_singleton_inj.mp same with ⟨front, lastSame⟩
    exact ⟨between, lastSame ▸ split, front.symm⟩

theorem exists_of_cons_eq_concat {first last : Token} {second before : List Token}
    (same : first :: second = before ++ [last]) (nonempty : second ≠ []) :
    Exists fun between : List Token => second = between ++ [last] ∧ before = first :: between :=
  @exists_of_append_eq_concat [first] second before last same nonempty

theorem OpensCall.of_append_left {first second rest : List Token}
    (opens : OpensCall (first ++ second) rest) (nonempty : second ≠ []) :
    OpensCall second rest := by
  rcases opens with ⟨before, name, opening, after, ends, begins, isName, isOpening⟩
  rcases exists_of_append_eq_concat ends nonempty with ⟨between, split, _⟩
  exact ⟨between, name, opening, after, split, begins, isName, isOpening⟩

/-! ## Tails -/

/-- Tokens are an expression of a level, whichever. -/
def Derivable (level : Level) (tokens : List Token) : Prop :=
  Exists fun term : Term => Expression level tokens term

/-- What follows the first operand of the tightest level in an expression. -/
inductive Tail : Level -> List Token -> Prop
  | primary : Tail .primary []
  | chain {operators tokens others} :
      Tail (Chain.operand operators) tokens ->
      (forall left, Exists fun term : Term => Chained operators left others term) ->
      Tail (.chain operators) (tokens ++ others)
  | negation {tokens} : Tail (.chain .comparison) tokens -> Tail .negation tokens
  | connective {symbol tokens others terms} :
      Tail (Connective.operand symbol) tokens ->
      Operands symbol others terms ->
      Tail (.connective symbol) (tokens ++ others)

/-- The operators and their right operands are the same after any term. -/
theorem Chained.relabel {operators : Chain} {left term : Term} {tokens : List Token} :
    Chained operators left tokens term ->
      forall other, Exists fun result : Term => Chained operators other tokens result
  | .nil, other => ⟨other, .nil⟩
  | .cons operator right others, other => by
      rcases others.relabel _ with ⟨result, relabelled⟩
      exact ⟨result, .cons operator right relabelled⟩

theorem Chained.append {operators : Chain} {left middle term : Term} {tokens more : List Token} :
    Chained operators left tokens middle -> Chained operators middle more term ->
      Chained operators left (tokens ++ more) term
  | .nil, later => later
  | .cons operator right others, later => by
      rw [List.append_assoc]
      exact .cons operator right (others.append later)

theorem Operands.append {symbol : Connective} {tokens more : List Token}
    {terms others : List Term} :
    Operands symbol tokens terms -> Operands symbol more others ->
      Operands symbol (tokens ++ more) (terms ++ others)
  | .nil, later => later
  | .cons mark next rest, later => by
      rw [List.append_assoc]
      exact .cons mark next (rest.append later)

/-- An expression that begins with a parenthesis is a group and its tail. -/
theorem Expression.split_group {level : Level} {tokens : List Token} {term : Term} :
    Expression level tokens term -> forall opening rest, tokens = opening :: rest ->
      opening.kind = .leftParen ->
      Exists fun inner : List Token => Exists fun closing : Token =>
        Exists fun tail : List Token => rest = inner ++ closing :: tail ∧
          closing.kind = .rightParen ∧ Derivable .loosest inner ∧ Tail level tail
  | .connective first others, opening, rest, same, isOpening => by
      rcases first.head with ⟨begin, front, starts, _⟩
      rw [starts, List.cons_append] at same
      rcases List.cons.inj same with ⟨isBegin, isRest⟩
      rcases first.split_group begin front starts (isBegin ▸ isOpening) with
        ⟨inner, closing, tail, split, closes, derived, ends⟩
      refine ⟨inner, closing, tail ++ _, ?_, closes, derived, .connective ends others⟩
      rw [← isRest, split, List.append_assoc, List.cons_append]
  | .negation mark _, opening, rest, same, isOpening => by
      rw [(List.cons.inj same).1, isOpening] at mark
      exact TokenKind.noConfusion mark
  | .unnegated operand, opening, rest, same, isOpening => by
      rcases operand.split_group opening rest same isOpening with
        ⟨inner, closing, tail, split, closes, derived, ends⟩
      exact ⟨inner, closing, tail, split, closes, derived, .negation ends⟩
  | .chain first others, opening, rest, same, isOpening => by
      rcases first.head with ⟨begin, front, starts, _⟩
      rw [starts, List.cons_append] at same
      rcases List.cons.inj same with ⟨isBegin, isRest⟩
      rcases first.split_group begin front starts (isBegin ▸ isOpening) with
        ⟨inner, closing, tail, split, closes, derived, ends⟩
      refine ⟨inner, closing, tail ++ _, ?_, closes, derived, .chain ends others.relabel⟩
      rw [← isRest, split, List.append_assoc, List.cons_append]
  | .call name _ _, opening, rest, same, isOpening => by
      rw [(List.cons.inj same).1, isOpening] at name
      exact TokenKind.noConfusion name
  | .callWith name _ _ _, opening, rest, same, isOpening => by
      rw [(List.cons.inj same).1, isOpening] at name
      exact TokenKind.noConfusion name
  | .var name, opening, rest, same, isOpening => by
      rw [(List.cons.inj same).1, isOpening] at name
      exact TokenKind.noConfusion name
  | .constant found, opening, rest, same, isOpening => by
      rw [(List.cons.inj same).1] at found
      exact ((ne_of_constant found).1 isOpening).elim
  | .group _ derived closes, opening, rest, same, isOpening =>
      ⟨_, _, [], (List.cons.inj same).2.symm, closes, ⟨_, derived⟩, .primary⟩

/-! ## A name as the last operand -/

/-- What is closed by a parenthesis does not end in a name. -/
theorem ne_of_closes {tokens before : List Token} {closing name : Token}
    (closes : closing.kind = .rightParen) (isName : name.kind = .identifier) :
    tokens ++ [closing] ≠ before ++ [name] := by
  intro same
  rw [(List.append_singleton_inj.mp same).2, isName] at closes
  exact TokenKind.noConfusion closes

theorem graft_append (before group tail more : List Token) (name : Token) :
    before ++ name :: (group ++ tail) ++ more = before ++ name :: (group ++ (tail ++ more)) := by
  simp only [List.append_assoc, List.cons_append]

mutual

/-- If an expression ends in a name, a call of that name and any tail may stand
in its place. -/
theorem Expression.graft {level : Level} {tokens : List Token} {term : Term} :
    Expression level tokens term -> forall before name, tokens = before ++ [name] ->
      name.kind = .identifier -> forall group, Derivable .primary (name :: group) ->
      forall tail, Tail level tail -> Derivable level (before ++ name :: (group ++ tail))
  | @Expression.connective symbol first others _ _ derived more =>
      fun before name same isName group call tail ends => by
        cases ends with
        | connective ends moreEnds =>
            by_cases none : others = []
            · rw [none, List.append_nil] at same
              rcases derived.graft before name same isName group call _ ends with ⟨_, grafted⟩
              rw [← graft_append]
              exact ⟨_, .connective grafted moreEnds⟩
            · rcases exists_of_append_eq_concat same none with ⟨between, split, front⟩
              rcases more.graft between name split isName group call _ ends with ⟨_, grafted⟩
              rw [front, List.append_assoc, ← graft_append]
              exact ⟨_, .connective derived (grafted.append moreEnds)⟩
  | @Expression.negation mark tokens _ isMark operand =>
      fun before name same isName group call tail ends => by
        rcases exists_of_cons_eq_concat same operand.ne_nil with ⟨between, split, front⟩
        rcases operand.graft between name split isName group call tail ends with ⟨_, grafted⟩
        rw [front]
        exact ⟨_, .negation isMark grafted⟩
  | .unnegated operand => fun before name same isName group call tail ends => by
      cases ends with
      | negation ends =>
          rcases operand.graft before name same isName group call tail ends with ⟨_, grafted⟩
          exact ⟨_, .unnegated grafted⟩
  | @Expression.chain operators first others _ _ derived more =>
      fun before name same isName group call tail ends => by
        cases ends with
        | chain ends moreEnds =>
            by_cases none : others = []
            · rw [none, List.append_nil] at same
              rcases derived.graft before name same isName group call _ ends with ⟨left, grafted⟩
              rcases moreEnds left with ⟨_, later⟩
              rw [← graft_append]
              exact ⟨_, .chain grafted later⟩
            · rcases exists_of_append_eq_concat same none with ⟨between, split, front⟩
              rcases more.graft between name split isName group call _ ends with ⟨left, grafted⟩
              rcases moreEnds left with ⟨_, later⟩
              rw [front, List.append_assoc, ← graft_append]
              exact ⟨_, .chain derived (grafted.append later)⟩
  | @Expression.call first opening closing _ _ closes =>
      fun before name same isName group call tail ends =>
        (@ne_of_closes [first, opening] before closing name closes isName same).elim
  | .callWith _ _ _ closes => fun before name same isName group call tail ends =>
      (ne_of_closes closes isName same).elim
  | @Expression.var only _ => fun before name same isName group call tail ends => by
      have same : [] ++ [only] = before ++ [name] := same
      rcases List.append_singleton_inj.mp same with ⟨front, _⟩
      cases ends with
      | primary =>
          rw [← front, List.append_nil]
          exact call
  | @Expression.constant only _ _ found => fun before name same isName group call tail ends => by
      have same : [] ++ [only] = before ++ [name] := same
      rcases List.append_singleton_inj.mp same with ⟨_, isLast⟩
      rw [isLast] at found
      exact ((ne_of_constant found).2.2 isName).elim
  | .group _ _ closes => fun before name same isName group call tail ends =>
      (ne_of_closes closes isName same).elim

theorem Operands.graft {symbol : Connective} {tokens : List Token} {terms : List Term} :
    Operands symbol tokens terms -> forall before name, tokens = before ++ [name] ->
      name.kind = .identifier -> forall group, Derivable .primary (name :: group) ->
      forall tail, Tail symbol.operand tail ->
      Exists fun result : List Term => Operands symbol (before ++ name :: (group ++ tail)) result
  | .nil => fun before name same => (List.append_ne_nil_of_right_ne_nil before
      (List.cons_ne_nil name []) same.symm).elim
  | @Operands.cons _ mark tokens others _ _ isMark next more =>
      fun before name same isName group call tail ends => by
        by_cases none : others = []
        · rw [none, List.append_nil] at same
          rcases exists_of_cons_eq_concat same next.ne_nil with ⟨between, split, front⟩
          rcases next.graft between name split isName group call tail ends with ⟨_, grafted⟩
          have single := Operands.cons isMark grafted .nil
          rw [List.append_nil] at single
          rw [front]
          exact ⟨_, single⟩
        · rcases exists_of_append_eq_concat same none with ⟨between, split, front⟩
          rcases more.graft between name split isName group call tail ends with ⟨_, grafted⟩
          rw [front, List.append_assoc]
          exact ⟨_, .cons isMark next grafted⟩

theorem Chained.graft {operators : Chain} {left term : Term} {tokens : List Token} :
    Chained operators left tokens term -> forall before name, tokens = before ++ [name] ->
      name.kind = .identifier -> forall group, Derivable .primary (name :: group) ->
      forall tail, Tail operators.operand tail ->
      Exists fun result : Term => Chained operators left (before ++ name :: (group ++ tail)) result
  | .nil => fun before name same => (List.append_ne_nil_of_right_ne_nil before
      (List.cons_ne_nil name []) same.symm).elim
  | @Chained.cons _ _ mark _ tokens _ others _ operator right more =>
      fun before name same isName group call tail ends => by
        by_cases none : others = []
        · rw [none, List.append_nil] at same
          rcases exists_of_cons_eq_concat same right.ne_nil with ⟨between, split, front⟩
          rcases right.graft between name split isName group call tail ends with ⟨_, grafted⟩
          have single := @Chained.cons operators left _ _ _ _ _ _ operator grafted .nil
          rw [List.append_nil] at single
          rw [front]
          exact ⟨_, single⟩
        · rcases exists_of_append_eq_concat same none with ⟨between, split, front⟩
          rcases more.graft between name split isName group call tail ends with ⟨_, grafted⟩
          rw [front, List.append_assoc]
          exact ⟨_, .cons operator right grafted⟩

end

/-! ## Sequences without calls across their borders -/

/-- Two expressions with a call across their border are one expression. -/
theorem Derivable.merge {first second : List Token} (before : Derivable .loosest first)
    (after : Derivable .loosest second) (opens : OpensCall first second) :
    Derivable .loosest (first ++ second) := by
  rcases opens with ⟨front, name, opening, rest, isFirst, isSecond, isName, isOpening⟩
  rcases before with ⟨_, firstDerived⟩
  rcases after with ⟨_, secondDerived⟩
  rcases secondDerived.split_group opening rest isSecond isOpening with
    ⟨inner, closing, tail, split, closes, ⟨_, innerDerived⟩, ends⟩
  have call : Derivable .primary (name :: (opening :: inner ++ [closing])) :=
    ⟨_, .callWith isName isOpening (.last innerDerived) closes⟩
  have merged := firstDerived.graft front name isFirst isName _ call tail ends
  rw [isFirst, isSecond, split, List.append_assoc]
  rw [List.append_assoc] at merged
  exact merged

/-- Expressions side by side, none of which ends in a name that the next one
makes a call of. -/
inductive Separated : List Token -> List Term -> Prop
  | nil : Separated [] []
  | cons {tokens others term terms} :
      Expression .loosest tokens term ->
      ¬ OpensCall tokens others ->
      Separated others terms ->
      Separated (tokens ++ others) (term :: terms)

/-- Expressions side by side may be taken apart so that they are separated. -/
theorem Conjuncts.separate {tokens : List Token} {terms : List Term}
    (conjuncts : Conjuncts tokens terms) :
    Exists fun separated : List Term => Separated tokens separated := by
  induction conjuncts with
  | nil => exact ⟨[], .nil⟩
  | @cons tokens others term terms derived _ ih =>
      rcases ih with ⟨separated, later⟩
      by_cases opens : OpensCall tokens others
      · cases later with
        | nil =>
            rcases opens with ⟨_, _, _, _, _, impossible, _⟩
            exact (List.cons_ne_nil _ _ impossible.symm).elim
        | @cons second rest _ _ secondDerived border later =>
            rcases secondDerived.head with ⟨begin, front, starts, _⟩
            have across : OpensCall tokens second := by
              rcases opens with ⟨before, name, opening, after, ends, begins, isName, isOpening⟩
              rw [starts] at begins
              have isBegin : begin = opening := (List.cons.inj begins).1
              exact ⟨before, name, opening, front, ends, isBegin ▸ starts, isName, isOpening⟩
            rcases Derivable.merge ⟨_, derived⟩ ⟨_, secondDerived⟩ across with ⟨_, merged⟩
            rw [← List.append_assoc]
            refine ⟨_, .cons merged (fun again => border ?_) later⟩
            exact again.of_append_left secondDerived.ne_nil
      · exact ⟨term :: separated, .cons derived opens later⟩

end Grammar

end PlanningDomain
