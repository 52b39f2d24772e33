import PlanningDomain.Proofs.Reader.Branches

namespace PlanningDomain

/-!
# Summaries of reading

A summary says something about two readers and the expressions that were read
between them, in the order in which they came to an end.  It has to hold where
nothing is read, of two parts one after the other, and of a new node if it holds
of the operands.  Then it holds of whatever is read, with or without errors.

A node that is read never has more operands than its kind provides for, although
it may have fewer.  Calls stand apart from all other nodes, because they are
checked when their arguments are read.  Most problems name no word of the source.
Those that do are an unknown type, which is one of the parts, a fact that is
declared again, and what the check of a call may find.
-/

namespace Kind

/-- The number of operands that a kind provides for, unless it takes any
number. -/
def mostOperands? : Kind -> Option Nat
  | var _ => some 0
  | literal _ => some 0
  | not => some 1
  | comparison _ => some 2
  | arithmetic _ => some 2
  | connective _ => none
  | func _ => none

/-- A node of a kind may have so many operands. -/
def Allows (kind : Kind) (count : Nat) : Prop :=
  forall most : Nat, kind.mostOperands? = some most -> count ≤ most

theorem allows_of_any {kind : Kind} (any : kind.mostOperands? = none) (count : Nat) :
    kind.Allows count :=
  fun most found => (Option.some_ne_none most (found.symm.trans any)).elim

theorem allows_of_le {kind : Kind} {count most : Nat} (found : kind.mostOperands? = some most)
    (bound : count ≤ most) : kind.Allows count :=
  fun _ again => Option.some.inj (found.symm.trans again) ▸ bound

end Kind

/-- Operators between two operands provide for two. -/
theorem Chain.mostOperands_of_kind {operators : Chain} {mark : TokenKind} {kind : Kind}
    (operator : operators.kind? mark = some kind) : kind.mostOperands? = some 2 := by
  cases operators <;> cases mark <;> cases operator <;> rfl

namespace Problem

/-- The problems that the check of a call may find. -/
def concernsCall : Problem -> Bool
  | unknownFact _ => true
  | wrongArity _ _ _ => true
  | _ => false

/-- The word that a problem names. -/
def word? : Problem -> Option String
  | unknownType word => some word
  | redeclaredFact name => some name
  | unknownFact name => some name
  | wrongArity name _ _ => some name
  | remark text => some text
  | _ => none

theorem concernsCall_of_wordless {problem : Problem} (wordless : problem.word? = none) :
    problem.concernsCall = false := by
  cases problem with
  | unknownFact name => exact (Option.some_ne_none name wordless).elim
  | wrongArity name _ _ => exact (Option.some_ne_none name wordless).elim
  | _ => rfl

end Problem

/-- What is wrong about a constant names no word. -/
theorem Token.wordless_of_constant {token : Token} {value : Literal} {problems : List Problem}
    (found : token.constant? = some (value, problems)) :
    forall problem, problem ∈ problems -> problem.word? = none := by
  unfold constant? at found
  split at found
  case h_1 =>
    dsimp only at found
    split at found
    all_goals
      rw [← (Prod.mk.inj (Option.some.inj found)).2]
      decide
  case h_2 =>
    rw [← (Prod.mk.inj (Option.some.inj found)).2]
    decide
  case h_3 =>
    rw [← (Prod.mk.inj (Option.some.inj found)).2]
    decide
  case h_4 => exact (Option.some_ne_none _ found.symm).elim

namespace Reader

/-- What the check of a call finds concerns calls, and names this one. -/
theorem names_of_callProblem {reader : Reader} {name : Token} {found : Nat} {problem : Problem}
    (wrong : reader.callProblem? name found = some problem) :
    problem.concernsCall = true ∧ problem.word? = some name.text := by
  unfold callProblem? at wrong
  split at wrong
  case isFalse => cases wrong
  case isTrue =>
    split at wrong
    case h_1 =>
      cases wrong
      exact ⟨rfl, rfl⟩
    case h_2 =>
      split at wrong
      case isTrue => cases wrong
      case isFalse =>
        cases wrong
        exact ⟨rfl, rfl⟩

/-- What holds between a reader before, the expressions that are read, and the
reader after. -/
structure Summary where
  holds : Reader -> List Node -> Reader -> Prop
  nothing (reader : Reader) : holds reader [] reader
  trans {before middle after : Reader} {nodes others : List Node} : holds before nodes middle ->
    holds middle others after -> holds before (nodes ++ others) after
  advanced {reader : Reader} : reader.sees .endOfInput = false -> holds reader [] reader.advance
  reported (reader : Reader) (span : Span) {problem : Problem} : problem.word? = none ->
    holds reader [] (reader.report span problem)
  unknownType {reader : Reader} : reader.sees .identifier = true ->
    holds reader [] (reader.advance.report reader.current.span (.unknownType reader.current.text))
  reserved (reader : Reader) : holds reader [] reader.reserve
  node {before after : Reader} {nodes : List Node} {kind : Kind} (handle : Handle) :
    kind.Allows nodes.length -> (forall name : Span, kind ≠ .func name) ->
      holds before nodes after -> holds before [.mk handle kind nodes] after
  call {before after : Reader} {nodes : List Node} (handle : Handle) :
    before.sees .identifier = true -> Steps before.advance after ->
      holds before.advance nodes after ->
        holds before [.mk handle (.func before.current.span) nodes]
          (after.checkCall before.current nodes.length)
  declared {before after : Reader} (params : List DataType) :
    before.sees .identifier = true -> Steps before.advance after ->
      holds before.advance [] after ->
        holds before [] (after.declare ⟨before.current.text, before.current.span, params⟩)

namespace Summary

variable (s : Summary) {before middle after : Reader} {nodes : List Node}

theorem after_nothing (first : s.holds before nodes middle) (later : s.holds middle [] after) :
    s.holds before nodes after :=
  List.append_nil nodes ▸ s.trans first later

theorem advanced_of_sees {kind : TokenKind} (seen : before.sees kind = true)
    (input : kind ≠ .endOfInput) : s.holds before [] before.advance :=
  s.advanced (sees_eq_false_of_sees seen input)

theorem reportedAll (reader : Reader) (span : Span) {problems : List Problem}
    (wordless : forall problem, problem ∈ problems -> problem.word? = none) :
    s.holds reader [] (reader.reportAll span problems) := by
  induction problems generalizing reader with
  | nil => exact s.nothing reader
  | cons problem rest ih =>
      rcases List.forall_mem_cons.mp wordless with ⟨first, later⟩
      exact s.trans (s.reported reader span first) (ih _ later)

theorem unexpected (reader : Reader) (expected : Expectation) :
    s.holds reader [] (reader.unexpected expected) :=
  s.reported reader _ rfl

theorem skipGroup (depth : Nat) (reader : Reader) :
    s.holds reader [] (Reader.skipGroup depth reader) := by
  induction depth, reader using Reader.skipGroup.induct with
  | case1 depth reader ended =>
      rw [skipGroup_of_end ended]
      exact s.nothing reader
  | case2 depth reader notEnded closes =>
      rw [Reader.skipGroup, dif_neg notEnded, if_pos closes]
      exact s.nothing reader
  | case3 depth reader notEnded closes _ ih =>
      rw [skipGroup_of_inside notEnded closes]
      exact s.trans (s.advanced (Bool.eq_false_iff.mpr notEnded)) ih

theorem closeGroup (reader : Reader) (opened : Span) :
    s.holds reader [] (reader.closeGroup opened) := by
  have closed {closing : Reader} (reached : s.holds reader [] closing) :
      s.holds reader [] (if closing.sees .rightParen then closing.advance
        else closing.report opened .unbalancedParen) := by
    split
    case isTrue closes => exact s.trans reached (s.advanced_of_sees closes (by decide))
    case isFalse => exact s.trans reached (s.reported closing opened rfl)
  unfold Reader.closeGroup
  apply closed
  split
  · exact s.nothing reader
  · exact s.trans (s.unexpected reader .closingParen) (s.skipGroup 0 _)

end Summary

/-! ## Expressions -/

theorem length_toList_le (value : Option Node) : value.toList.length ≤ 1 := by
  cases value with
  | none => exact Nat.zero_le 1
  | some _ => exact Nat.le_refl 1

mutual

theorem Reads.summary (s : Summary) {level : Level} {before after : Reader}
    {value : Option Node} : Reads level before value after -> s.holds before value.toList after
  | .single first _ => first.summary s
  | .connective first _ others =>
      s.node _ (Kind.allows_of_any rfl _) (fun _ => Kind.noConfusion)
        (s.trans (first.summary s) (s.trans (s.reserved _) (others.summary s)))
  | @Reads.negation before operand after seen inner =>
      s.node _ (Kind.allows_of_le rfl (length_toList_le operand)) (fun _ => Kind.noConfusion)
        (s.trans (s.advanced_of_sees seen (by decide)) (s.trans (s.reserved _) (inner.summary s)))
  | .unnegated _ operand => operand.summary s
  | .chain first others => others.summary s (first.summary s)
  | .call named opens call => by
      have opening := sees_advance_of_seesNext opens
      have inside : Steps _ _ := .head (.advance_of_sees opening (by decide)) (.single .reserve)
      refine s.call _ named (inside.trans call.steps) ?_
      exact s.trans (s.advanced_of_sees opening (by decide))
        (s.trans (s.reserved _) (call.summary s))
  | .var named _ =>
      s.node _ (Kind.allows_of_le rfl (Nat.le_refl 0)) (fun _ => Kind.noConfusion)
        (s.trans (s.advanced_of_sees named (by decide)) (s.reserved _))
  | .group opens inner =>
      s.after_nothing (s.trans (s.advanced_of_sees opens (by decide)) (inner.summary s))
        (s.closeGroup _ _)
  | .constant found => by
      have input : before.sees .endOfInput = false :=
        beq_eq_false_iff_ne.mpr (Token.ne_endOfInput_of_constant found)
      refine s.node _ (Kind.allows_of_le rfl (Nat.le_refl 0)) (fun _ => Kind.noConfusion) ?_
      exact s.trans (s.advanced input)
        (s.trans (s.reportedAll _ _ (Token.wordless_of_constant found)) (s.reserved _))
  | .missing _ _ _ => s.trans (s.unexpected _ .operand) (s.skipGroup 0 _)

theorem ReadsOperands.summary (s : Summary) {symbol : Connective} {before after : Reader}
    {values : List Node} : ReadsOperands symbol before values after ->
      s.holds before values after
  | .nil _ => s.nothing _
  | .cons seen next others =>
      s.trans (s.trans (s.advanced_of_sees seen symbol.token_ne_endOfInput) (next.summary s))
        (others.summary s)

/-- The expression to the left was read before. -/
theorem ReadsChain.summary (s : Summary) {operators : Chain} {left value : Option Node}
    {before after : Reader} : ReadsChain operators left before value after ->
      forall {origin : Reader}, s.holds origin left.toList before ->
        s.holds origin value.toList after
  | .nil _ => fun read => read
  | @ReadsChain.cons _ _ _ _ right _ _ _ operator next others => fun read => by
      have input : before.sees .endOfInput = false :=
        beq_eq_false_iff_ne.mpr (Chain.ne_endOfInput_of_kind operator)
      have both : (left.toList ++ right.toList).length ≤ 2 := by
        rw [List.length_append]
        exact Nat.add_le_add (length_toList_le left) (length_toList_le right)
      apply others.summary s
      refine s.node _ (Kind.allows_of_le (Chain.mostOperands_of_kind operator) both) ?_ ?_
      · intro name isCall
        have noName := (Chain.payload_of_kind? operator).1
        rw [isCall] at noName
        exact Option.some_ne_none _ noName
      · exact s.trans read (s.trans (s.advanced input) (s.trans (s.reserved _) (next.summary s)))

theorem ReadsCall.summary (s : Summary) {opened : Span} {before after : Reader}
    {values : List Node} : ReadsCall opened before values after -> s.holds before values after
  | .nil closes => s.advanced_of_sees closes (by decide)
  | .arguments _ found => s.after_nothing (found.summary s) (s.closeGroup _ _)

theorem ReadsArguments.summary (s : Summary) {before after : Reader} {values : List Node} :
    ReadsArguments before values after -> s.holds before values after
  | .last first _ => first.summary s
  | .cons first separated others =>
      s.trans (first.summary s)
        (s.trans (s.advanced_of_sees separated (by decide)) (others.summary s))

theorem ReadsArgument.summary (s : Summary) {before after : Reader} {value : Option Node} :
    ReadsArgument before value after -> s.holds before value.toList after
  | .empty _ => s.reported _ _ rfl
  | .expression _ inner => inner.summary s

end

/-! ## Preconditions -/

namespace Summary

variable (s : Summary)

theorem conjuncts (reader : Reader) :
    s.holds reader reader.conjuncts.value reader.conjuncts.reader := by
  induction reader using Reader.conjuncts.induct with
  | case1 reader ended =>
      rw [(conjuncts_of_end ended).1, (conjuncts_of_end ended).2]
      exact s.nothing reader
  | case2 reader inside first _ ih =>
      rcases conjuncts_of_inside (Bool.eq_false_iff.mpr inside) with ⟨values, ends⟩
      rw [values, ends]
      exact s.trans ((reads_expression .loosest reader).summary s) ih

theorem conjoin {before after : Reader} {nodes : List Node} (read : s.holds before nodes after) :
    s.holds before [(after.conjoin nodes).1] (after.conjoin nodes).2 := by
  have joined : s.holds before [.mk after.nextHandle .and nodes] after.reserve :=
    s.node _ (Kind.allows_of_any rfl _) (fun _ => Kind.noConfusion)
      (s.after_nothing read (s.reserved after))
  match nodes with
  | [] => exact joined
  | [_] => exact read
  | _ :: _ :: _ => exact joined

theorem precondition (reader : Reader) :
    s.holds reader [reader.precondition.1] reader.precondition.2 := by
  cases opens : reader.sees .leftParen with
  | true =>
      rw [precondition_of_opens opens]
      exact s.conjoin (s.after_nothing
        (s.trans (s.advanced_of_sees opens (by decide)) (s.conjuncts _)) (s.closeGroup _ _))
  | false =>
      rw [precondition_of_unopened opens]
      exact s.conjoin (s.unexpected reader .preconditionStart)

/-! ## Declarations -/

theorem parameter (reader : Reader) : s.holds reader [] reader.parameter.reader := by
  cases named : reader.sees .identifier with
  | false =>
      rw [parameter_of_missing named]
      exact s.unexpected reader .parameterType
  | true =>
      cases known : DataType.ofKeyword? reader.current.text with
      | some type =>
          rw [(parameter_of_known named known).2]
          exact s.advanced_of_sees named (by decide)
      | none =>
          rw [parameter_of_unknown named known]
          exact s.unknownType named

theorem parameters (reader : Reader) : s.holds reader [] reader.parameters.reader := by
  induction reader using Reader.parameters.induct with
  | case1 reader first _ separated _ ih =>
      rw [(parameters_of_comma separated).2]
      exact s.trans (s.parameter reader) (s.trans (s.advanced_of_sees separated (by decide)) ih)
  | case2 reader first _ =>
      rename_i unseparated
      rw [(parameters_of_not_comma (Bool.eq_false_iff.mpr unseparated)).2]
      exact s.parameter reader

theorem parameterList (reader : Reader) : s.holds reader [] reader.parameterList.reader := by
  cases opens : reader.sees .leftParen with
  | false =>
      rw [parameterList_of_missing opens]
      exact s.unexpected reader .openingParen
  | true =>
      have passed := s.advanced_of_sees opens (by decide)
      cases closes : reader.advance.sees .rightParen with
      | true =>
          rw [(parameterList_of_empty opens closes).2]
          exact s.trans passed (s.advanced_of_sees closes (by decide))
      | false =>
          rw [(parameterList_of_types opens closes).2]
          exact s.trans passed (s.trans (s.parameters _) (s.closeGroup _ _))

theorem factDeclarations (opened : Span) (reader : Reader) :
    s.holds reader [] (Reader.factDeclarations opened reader).reader := by
  induction reader using Reader.factDeclarations.induct opened with
  | case1 reader closes =>
      rw [factDeclarations_of_close closes]
      exact s.advanced_of_sees closes (by decide)
  | case2 reader unclosed ended =>
      rw [factDeclarations_of_end ended]
      exact s.reported reader opened rfl
  | case3 reader unclosed notEnded _ named _ ih =>
      rw [factDeclarations_of_name named]
      exact s.trans (s.declared _ named (parameterList_steps _) (s.parameterList _)) ih
  | case4 reader unclosed notEnded _ unnamed ih =>
      have notEnded := Bool.eq_false_iff.mpr notEnded
      have passed : s.holds _ [] (reader.unexpected .factDeclaration).advance :=
        s.advanced notEnded
      rw [factDeclarations_of_other (Bool.eq_false_iff.mpr unclosed) notEnded
        (Bool.eq_false_iff.mpr unnamed)]
      exact s.trans (s.unexpected reader .factDeclaration) (s.trans passed ih)

theorem factBlock {reader : Reader} (block : reader.sees .fact = true) :
    s.holds reader [] reader.factBlock.reader := by
  have passed := s.advanced_of_sees block (by decide)
  cases opens : reader.advance.sees .leftBrace with
  | false =>
      rw [factBlock_of_unopened block opens]
      exact s.trans passed (s.unexpected _ .openingBrace)
  | true =>
      rw [factBlock_of_opens block opens]
      exact s.trans passed
        (s.trans (s.advanced_of_sees opens (by decide)) (s.factDeclarations _ _))

/-! ## Whole sources -/

theorem preconditions (reader : Reader) :
    s.holds reader reader.preconditions.1 reader.preconditions.2 := by
  induction reader using Reader.preconditions.induct with
  | case1 reader ended =>
      rw [preconditions_of_end ended]
      exact s.nothing reader
  | case2 reader notEnded block _ ih =>
      rw [preconditions_of_fact block]
      exact s.trans (s.factBlock block) ih
  | case3 reader notEnded notBlock opens _ ih =>
      rw [preconditions_of_opens opens]
      exact s.trans (s.precondition reader) ih
  | case4 reader notEnded notBlock unopened _ ih =>
      have notEnded := Bool.eq_false_iff.mpr notEnded
      rw [preconditions_of_other notEnded (Bool.eq_false_iff.mpr notBlock)
        (Bool.eq_false_iff.mpr unopened)]
      have passed : s.holds _ [] (reader.unexpected .declarationOrPrecondition).advance :=
        s.advanced notEnded
      exact s.trans (s.unexpected reader .declarationOrPrecondition) (s.trans passed ih)

end Summary

end Reader

end PlanningDomain
