import PlanningDomain.Domain
import PlanningDomain.Proofs.Reader.Declarations

namespace PlanningDomain

/-!
# The sources that are read silently

Without a check of calls, a source has no diagnostics if and only if its tokens
are derived from the grammar, its types are known, its facts have different
names, and its integers fit.  A derivation may take expressions apart in other
places than the reader does, because a name before a parenthesis is always read
as a call.  Then there is another derivation of the same tokens that takes them
apart as the reader does.
-/

namespace Reader

open Grammar

/-! ## Preconditions -/

theorem conjuncts_of_inside {reader : Reader} (inside : reader.atGroupEnd = false) :
    reader.conjuncts.value = (expression .loosest reader).value.toList ++
        (expression .loosest reader).reader.conjuncts.value ∧
      reader.conjuncts.reader = (expression .loosest reader).reader.conjuncts.reader := by
  rw [conjuncts, dif_neg (Bool.eq_false_iff.mp inside)]
  exact ⟨rfl, rfl⟩

theorem conjuncts_of_end {reader : Reader} (ended : reader.atGroupEnd = true) :
    reader.conjuncts.value = [] ∧ reader.conjuncts.reader = reader := by
  rw [conjuncts, dif_pos ended]
  exact ⟨rfl, rfl⟩

/-- The conjunction takes a handle at most. -/
theorem conjoin_eq (reader : Reader) (operands : List Node) :
    (reader.conjoin operands).1.term = conjoined (operands.map Node.term) ∧
      ((reader.conjoin operands).2 = reader ∨ (reader.conjoin operands).2 = reader.reserve) := by
  match operands with
  | [] => exact ⟨Node.term_mk _ _ _, .inr rfl⟩
  | [_] => exact ⟨rfl, .inl rfl⟩
  | _ :: _ :: _ => exact ⟨Node.term_mk _ _ _, .inr rfl⟩

theorem precondition_of_opens {reader : Reader} (opens : reader.sees .leftParen = true) :
    reader.precondition = (reader.advance.conjuncts.reader.closeGroup reader.current.span).conjoin
      reader.advance.conjuncts.value := by
  unfold precondition
  rw [if_pos opens]

theorem conjuncts_steps (reader : Reader) : Steps reader reader.conjuncts.reader := by
  induction reader using conjuncts.induct with
  | case1 reader ended => rw [(conjuncts_of_end ended).2]
  | case2 reader inside first _ ih =>
      rw [(conjuncts_of_inside (Bool.eq_false_iff.mpr inside)).2]
      exact (reads_expression .loosest reader).steps.trans ih

theorem precondition_steps {reader : Reader} (opens : reader.sees .leftParen = true) :
    Steps reader reader.precondition.2 := by
  have closed : Steps reader
      (reader.advance.conjuncts.reader.closeGroup reader.current.span) :=
    .head (.advance_of_sees opens (by decide)) ((conjuncts_steps _).trans (closeGroup_steps _ _))
  rw [precondition_of_opens opens]
  rcases (conjoin_eq _ _).2 with same | reserved
  · exact same ▸ closed
  · exact reserved ▸ closed.tail .reserve

theorem conjuncts_accounts (reader : Reader) :
    Accounts reader reader.conjuncts.reader
      (fun read => Conjuncts read (reader.conjuncts.value.map Node.term)) := by
  induction reader using conjuncts.induct with
  | case1 reader ended =>
      rw [(conjuncts_of_end ended).1, (conjuncts_of_end ended).2]
      exact .nothing .nil
  | case2 reader inside first _ ih =>
      rcases conjuncts_of_inside (Bool.eq_false_iff.mpr inside) with ⟨values, ends⟩
      rw [values, ends]
      apply ((reads_expression .loosest reader).accounts.trans ih).weaken
      intro read ⟨_, _, split, ⟨node, found, derived⟩, later⟩
      rw [split, found]
      exact .cons derived later

/-- Nothing more is read where expressions are joined. -/
theorem Accounts.conjoin {before after : Reader} {good : List Token -> Prop}
    (accounts : Accounts before after good) (operands : List Node) :
    Accounts before (after.conjoin operands).2 good := by
  rcases (conjoin_eq after operands).2 with same | reserved
  · rw [same]
    exact accounts
  · rw [reserved]
    exact accounts

theorem precondition_accounts {reader : Reader} (opens : reader.sees .leftParen = true) :
    Accounts reader reader.precondition.2
      (fun read => Precondition read reader.precondition.1.term) := by
  have closed := ((Accounts.token opens (by decide) (by decide)).trans
    ((conjuncts_accounts _).trans (Accounts.closeGroup _ reader.current.span)))
  rw [precondition_of_opens opens, (conjoin_eq _ _).1]
  apply (closed.conjoin reader.advance.conjuncts.value).weaken
  intro read ⟨_, _, split, ⟨first, isOpening⟩, _, _, splitLater, derived, last, isClosing⟩
  rw [split, first, splitLater, last]
  exact .group isOpening derived isClosing

theorem operatorLevel?_of_begins {kind : TokenKind} (begin : begins kind = true) :
    operatorLevel? kind = none := by
  cases kind <;> first | rfl | exact Bool.noConfusion begin

/-- An expression stops where the next one begins, or the parenthesis closes. -/
theorem separated_stops {tokens others : List Token} {terms : List Term}
    (separated : Separated others terms) (border : ¬ OpensCall tokens others) {closing : Token}
    (isClosing : closing.kind = .rightParen) (rest : List Token) :
    Stops .loosest tokens (others ++ closing :: rest) := by
  cases separated with
  | nil => exact .of_closing isClosing
  | cons derived _ _ =>
      rcases derived.head with ⟨token, later, starts, begin⟩
      subst starts
      constructor
      · intro mark after split looser found
        rw [← (List.cons.inj split).1, operatorLevel?_of_begins begin] at found
        exact (Option.some_ne_none _ found.symm).elim
      · intro ⟨before, name, opening, after, ends, split, isName, isOpening⟩
        rw [← (List.cons.inj split).1] at isOpening
        exact border ⟨before, name, token, _, ends, rfl, isName, isOpening⟩

/-- Separated expressions are all read silently. -/
theorem conjuncts_reads {tokens : List Token} {terms : List Term}
    (separated : Separated tokens terms)
    (fits : forall token, token ∈ tokens -> token.Fits) {before : Reader}
    (off : before.options.validateFacts = false) {closing : Token} {rest : List Token}
    (shows : before.Shows (tokens ++ closing :: rest)) (isClosing : closing.kind = .rightParen) :
    before.conjuncts.value.map Node.term = terms ∧
      Passes before before.conjuncts.reader (closing :: rest) := by
  induction separated generalizing before with
  | nil =>
      have ended : before.atGroupEnd = true := by
        rw [atGroupEnd, shows.sees_of isClosing, Bool.true_or]
      rw [(conjuncts_of_end ended).1, (conjuncts_of_end ended).2]
      exact ⟨rfl, .refl shows⟩
  | @cons tokens others term terms derived border later ih =>
      rcases List.forall_mem_append.mp fits with ⟨fitsFirst, fitsLater⟩
      rw [List.append_assoc] at shows
      have inside : before.atGroupEnd = false := by
        rcases derived.head with ⟨token, _, starts, begin⟩
        have showsBegin := shows
        rw [starts] at showsBegin
        rw [atGroupEnd, (sees_of_begins showsBegin begin).2, Bool.false_or]
        refine Bool.eq_false_iff.mpr (fun ended => ?_)
        exact List.cons_ne_nil _ _ (showsBegin.eq_nil ended)
      have stops := separated_stops later border isClosing rest
      rcases derived.isRead fitsFirst before _ off shows stops with
        ⟨node, middle, run, isTerm, passes⟩
      rcases conjuncts_of_inside inside with ⟨values, ends⟩
      rcases run.eq_expression with ⟨value, reached⟩
      rw [values, ends, value, reached]
      rcases ih fitsLater (passes.options ▸ off) passes.shows with ⟨areTerms, passesLater⟩
      refine ⟨?_, passes.trans passesLater⟩
      rw [← isTerm, ← areTerms]
      rfl

theorem precondition_reads {tokens : List Token} {term : Term} (derived : Precondition tokens term)
    (fits : forall token, token ∈ tokens -> token.Fits) {before : Reader}
    (off : before.options.validateFacts = false) {rest : List Token}
    (shows : before.Shows (tokens ++ rest)) :
    before.sees .leftParen = true ∧ Passes before before.precondition.2 rest := by
  cases derived with
  | @group opening tokens closing _ isOpening conjuncts isClosing =>
      rcases conjuncts.separate with ⟨terms, separated⟩
      rw [List.append_assoc] at shows
      have opens := shows.sees_of isOpening
      have fitsInside := fun token member =>
        fits token (List.mem_cons_of_mem _ (List.mem_append_left _ member))
      have offInside : before.advance.options.validateFacts = false := off
      rcases conjuncts_reads separated fitsInside offInside shows.advance isClosing with ⟨_, passes⟩
      have closed := (Passes.advance shows).trans
        (passes.trans (Passes.closeGroup passes.shows isClosing before.current.span))
      refine ⟨opens, ?_⟩
      rw [precondition_of_opens opens]
      rcases (conjoin_eq (before.advance.conjuncts.reader.closeGroup before.current.span)
        before.advance.conjuncts.value).2 with same | reserved
      · rw [same]
        exact closed
      · rw [reserved]
        exact closed.reserve

/-! ## Sources -/

/-- The input is read to its end. -/
theorem preconditions_end (reader : Reader) : reader.preconditions.2.sees .endOfInput = true := by
  induction reader using preconditions.induct with
  | case1 reader ended =>
      rw [preconditions, dif_pos ended]
      exact ended
  | case2 reader notEnded block _ ih =>
      rw [preconditions, dif_neg notEnded, dif_pos block]
      exact ih
  | case3 reader notEnded notBlock opens _ ih =>
      rw [preconditions, dif_neg notEnded, dif_neg notBlock, dif_pos opens]
      exact ih
  | case4 reader notEnded notBlock unopened _ ih =>
      rw [preconditions, dif_neg notEnded, dif_neg notBlock, dif_neg unopened]
      exact ih

theorem preconditions_accounts (reader : Reader) :
    Accounts reader reader.preconditions.2 (fun read =>
      Exists fun declared : List Declared => Exists fun terms : List Term =>
        File read declared terms ∧ Declares reader reader.preconditions.2 declared) := by
  induction reader using preconditions.induct with
  | case1 reader ended =>
      rw [preconditions, dif_pos ended]
      exact .nothing ⟨[], [], .nil, .nil rfl⟩
  | case2 reader notEnded block _ ih =>
      rw [preconditions, dif_neg notEnded, dif_pos block]
      apply ((factBlock_accounts block).trans ih).weaken
      intro read ⟨_, _, split, ⟨first, derived, declares⟩, later, terms, file, declaresLater⟩
      rw [split]
      exact ⟨first ++ later, terms, .block derived file, declares.append declaresLater⟩
  | case3 reader notEnded notBlock opens _ ih =>
      rw [preconditions, dif_neg notEnded, dif_neg notBlock, dif_pos opens]
      apply ((precondition_accounts opens).trans ih).weaken
      intro read ⟨_, _, split, derived, later, terms, file, declares⟩
      rw [split]
      refine ⟨later, _, .precondition derived file, ?_⟩
      exact Declares.append (.nil (precondition_steps opens).unchanged.1) declares
  | case4 reader notEnded notBlock unopened _ ih =>
      rw [preconditions, dif_neg notEnded, dif_neg notBlock, dif_neg unopened]
      intro silent
      exact (not_silent_report _ _ _ (ih silent).1).elim

theorem preconditions_reads {tokens : List Token} {declared : List Declared} {terms : List Term}
    (derived : File tokens declared terms) (fits : forall token, token ∈ tokens -> token.Fits)
    (known : forall one, one ∈ declared -> one.Known) {before : Reader}
    (off : before.options.validateFacts = false) (fresh : Fresh before declared)
    (shows : before.Shows tokens) : before.preconditions.2.diagnostics = before.diagnostics := by
  induction derived generalizing before with
  | nil => rw [preconditions, dif_pos shows.sees_end]
  | block derived _ ih =>
      rcases List.forall_mem_append.mp fits with ⟨_, fitsLater⟩
      rcases List.forall_mem_append.mp known with ⟨knownFirst, knownLater⟩
      rcases factBlock_reads derived knownFirst fresh.first shows with ⟨block, enters⟩
      have notEnded := sees_eq_false_of_sees block (by decide : TokenKind.fact ≠ .endOfInput)
      rw [preconditions, dif_neg (Bool.eq_false_iff.mp notEnded), dif_pos block]
      refine (ih fitsLater knownLater ?_ (fresh.later enters) enters.shows).trans enters.diagnostics
      exact enters.options ▸ off
  | precondition derived _ ih =>
      rcases List.forall_mem_append.mp fits with ⟨fitsFirst, fitsLater⟩
      rcases precondition_reads derived fitsFirst off shows with ⟨opens, passes⟩
      have notEnded := sees_eq_false_of_sees opens (by decide : TokenKind.leftParen ≠ .endOfInput)
      have notBlock := sees_eq_false_of_sees opens (by decide : TokenKind.leftParen ≠ .fact)
      rw [preconditions, dif_neg (Bool.eq_false_iff.mp notEnded),
        dif_neg (Bool.eq_false_iff.mp notBlock), dif_pos opens]
      have freshLater := @Fresh.later _ _ [] _ _ fresh (.of_passes passes)
      refine (ih fitsLater known ?_ freshLater passes.shows).trans passes.diagnostics
      exact passes.options ▸ off

end Reader

namespace Domain

open Grammar Reader

/-- Without a check of calls, reading a source reports nothing if and only if
the tokens are derived from the grammar, all types are known, no name is
declared twice, and all integers fit. -/
theorem read_silent_iff (source : Source) (lookAhead : Nat) :
    (Domain.read source ⟨lookAhead, false⟩).2 = [] ↔
      Exists fun declared : List Declared => Exists fun terms : List Term =>
        File source.tokens declared terms ∧
        (forall one, one ∈ declared -> one.Known) ∧
        (declared.map (fun one => one.name.text)).Nodup ∧
        forall token, token ∈ source.tokens -> token.Fits := by
  have shows := shows_start source ⟨lookAhead, false⟩
  constructor
  · intro silent
    rcases preconditions_accounts (start source ⟨lookAhead, false⟩) silent with ⟨_, reads⟩
    rcases reads source.tokens shows with
      ⟨read, rest, split, ⟨declared, terms, file, known, facts⟩, fits, showsRest⟩
    have none : rest = [] := showsRest.eq_nil (preconditions_end _)
    rw [none, List.append_nil] at split
    rw [split]
    refine ⟨declared, terms, file, known, ?_, fits⟩
    have distinct := (start source ⟨lookAhead, false⟩).preconditions.2.world.distinct
    rw [facts, List.map_append, List.map_map] at distinct
    exact distinct
  · intro ⟨declared, terms, file, known, distinct, fits⟩
    exact preconditions_reads file fits known rfl distinct shows

end Domain

end PlanningDomain
