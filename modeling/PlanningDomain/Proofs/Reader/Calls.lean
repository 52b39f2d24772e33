import PlanningDomain.Proofs.Reader.Correspondence.Invariants
import PlanningDomain.Proofs.Term.Atoms

namespace PlanningDomain

/-!
# The calls that are read silently

A call is checked when its arguments have been read, against the facts that are
declared by then.  If nothing is reported and there are such facts, one of them
has the name of the call, and as many parameters as arguments were read.  Nothing
is undeclared, so the same fact is found in the world at the end.  If there
are none yet, nothing is checked, and then all facts of that world are declared
behind the call.
-/

/-- A declaration that is found is one of the world, and has the name. -/
theorem World.mem_of_find? {world : World} {name : String} {fact : Fact}
    (found : world.find? name = some fact) : fact ∈ world.facts ∧ fact.name = name :=
  ⟨List.mem_of_find?_eq_some found,
    beq_iff_eq.mp (List.find?_some (p := fun fact : Fact => fact.name == name) found)⟩

namespace Reader

open Grammar

/-- A call passes the check, or is not checked. -/
def Admits (reader : Reader) (name : Token) (found : Nat) : Prop :=
  reader.options.validateFacts = true -> reader.world.isEmpty = false ->
    Exists fun fact : Fact => fact ∈ reader.world.facts ∧ fact.name = name.text ∧ fact.arity = found

theorem admits_of_callProblem {reader : Reader} {name : Token} {found : Nat}
    (fine : reader.callProblem? name found = none) : reader.Admits name found := by
  intro validates declared
  unfold callProblem? at fine
  rw [if_pos (by rw [validates, declared]; rfl)] at fine
  split at fine
  case h_1 => exact (Option.some_ne_none _ fine).elim
  case h_2 fact known =>
    split at fine
    case isTrue same =>
      rcases World.mem_of_find? known with ⟨isFact, named⟩
      exact ⟨fact, isFact, named, same⟩
    case isFalse => exact (Option.some_ne_none _ fine).elim

/-- A call is named by one of the tokens that were read, and admitted.  Kinds
of other nodes are not restricted. -/
def Checks (reader : Reader) (read : List Token) (kind : Kind) (count : Nat) : Prop :=
  forall name : Span, kind = .func name ->
    Exists fun token : Token => token ∈ read ∧ token.span = name ∧ reader.Admits token count

/-- All calls of some expressions are checked. -/
def ChecksAll (reader : Reader) (nodes : List Node) (read : List Token) : Prop :=
  forall node, node ∈ nodes -> node.term.EachAtom (reader.Checks read)

namespace ChecksAll

variable {reader other : Reader} {nodes others : List Node} {read more : List Token}

theorem nil : reader.ChecksAll [] read :=
  fun _ impossible => (List.not_mem_nil impossible).elim

theorem mono (checks : reader.ChecksAll nodes read)
    (within : forall token, token ∈ read -> token ∈ more) : reader.ChecksAll nodes more := by
  refine fun node isNode => (checks node isNode).mono (fun kind count checked name isCall => ?_)
  rcases checked name isCall with ⟨token, member, same, admitted⟩
  exact ⟨token, within token member, same, admitted⟩

theorem append (first : reader.ChecksAll nodes read) (later : reader.ChecksAll others more) :
    reader.ChecksAll (nodes ++ others) (read ++ more) := by
  intro node member
  rcases List.mem_append.mp member with isFirst | isLater
  · exact first.mono (fun _ => List.mem_append_left _) node isFirst
  · exact later.mono (fun _ => List.mem_append_right _) node isLater

theorem node (checks : reader.ChecksAll nodes read) {kind : Kind}
    (here : reader.Checks read kind nodes.length) (handle : Handle) :
    reader.ChecksAll [.mk handle kind nodes] read := by
  refine List.forall_mem_singleton.mpr ?_
  rw [Node.term_mk, Term.eachAtom_mk, List.length_map]
  exact ⟨fun _ => here, List.forall_mem_map.mpr checks⟩

/-- A node that is no call. -/
theorem plain (checks : reader.ChecksAll nodes read) {kind : Kind}
    (notCall : forall name, kind ≠ .func name) (handle : Handle) :
    reader.ChecksAll [.mk handle kind nodes] read :=
  checks.node (fun name isCall => (notCall name isCall).elim) handle

end ChecksAll

/-- Operators build no calls. -/
theorem ne_func_of_operator {operators : Chain} {mark : TokenKind} {kind : Kind}
    (operator : operators.kind? mark = some kind) (name : Span) : kind ≠ .func name := by
  intro isCall
  have noName := (Chain.payload_of_kind? operator).1
  rw [isCall] at noName
  exact Option.some_ne_none _ noName

/-! ## Expressions -/

section Expressions

variable {origin : Reader}

mutual

/-- The world and the options are the same as anywhere before in the
expression. -/
theorem Reads.calls {level : Level} {before after : Reader} {value : Option Node} :
    Reads level before value after -> Steps origin before ->
      Accounts before after (origin.ChecksAll value.toList)
  | .single first _ => first.calls
  | .connective first _ others => fun reached => by
      have between := reached.trans (first.steps.tail .reserve)
      apply ((first.calls reached).trans (others.calls between)).weaken
      intro read ⟨left, right, split, here, later⟩
      rw [split]
      exact (here.append later).plain (fun _ => Kind.noConfusion) _
  | .negation seen operand => fun reached => by
      have between := (reached.tail (.advance_of_sees seen (by decide))).tail .reserve
      apply ((Accounts.token seen (by decide) (by decide)).trans (operand.calls between)).weaken
      intro read ⟨_, _, split, _, checks⟩
      rw [split]
      exact (ChecksAll.nil.append checks).plain (fun _ => Kind.noConfusion) _
  | .unnegated _ operand => operand.calls
  | .chain first others => fun reached => by
      apply ((first.calls reached).trans (others.calls (reached.trans first.steps))).weaken
      intro read ⟨left, right, split, here, later⟩
      exact split ▸ later left here
  | .call named opens call => fun reached silent => by
      have entered := (reached.tail (.advance_of_sees named (by decide))).tail
        (.advance_of_sees (sees_advance_of_seesNext opens) (by decide))
      rcases checkCall_of_silent silent with ⟨fine, same⟩
      have admitted := admits_of_callProblem fine
      rw [same] at silent ⊢
      have read : Steps origin _ := (entered.tail .reserve).trans call.steps
      unfold Admits at admitted
      rw [read.unchanged.1, read.unchanged.2.1] at admitted
      revert silent
      refine ((Accounts.token named (by decide) (by decide)).trans
        ((Accounts.token (sees_advance_of_seesNext opens) (by decide) (by decide)).trans
          (call.calls (entered.tail .reserve)))).weaken ?_
      intro read ⟨_, _, split, ⟨single, _⟩, _, _, splitLater, _, checks⟩
      rw [split, splitLater, single]
      refine (ChecksAll.nil.append (ChecksAll.nil.append checks)).node ?_ _
      intro name isCall
      exact ⟨_, List.mem_append_left _ List.mem_cons_self, Kind.func.inj isCall, admitted⟩
  | .var named _ => fun _ => (Accounts.token named (by decide) (by decide)).weaken
      (fun _ _ => ChecksAll.nil.plain (fun _ => Kind.noConfusion) _)
  | .group opens inner => fun reached => by
      have between := reached.tail (.advance_of_sees opens (by decide))
      refine (((Accounts.token opens (by decide) (by decide)).trans (inner.calls between)).trans
        (Accounts.closeGroup _ _)).weaken ?_
      intro read ⟨_, _, split, ⟨_, _, splitFirst, _, checks⟩, _⟩
      rw [split, splitFirst]
      exact checks.mono (fun _ member =>
        List.mem_append_left _ (List.mem_append_right _ member))
  | .constant found => fun _ silent => by
      have none := reportAll_of_silent silent
      subst none
      have input := Token.ne_endOfInput_of_constant found
      exact (Accounts.advance (beq_iff_eq.mpr rfl) input (fits_of_constant found)).weaken
        (fun _ _ => ChecksAll.nil.plain (fun _ => Kind.noConfusion) _) silent
  | .missing _ _ _ => fun _ => .of_not_silent (not_silent_recover (not_silent_report _ _ _))

theorem ReadsOperands.calls {symbol : Connective} {before after : Reader} {values : List Node} :
    ReadsOperands symbol before values after -> Steps origin before ->
      Accounts before after (origin.ChecksAll values)
  | .nil _ => fun _ => .nothing .nil
  | .cons seen next others => fun reached => by
      have moved := reached.tail (.advance_of_sees seen symbol.token_ne_endOfInput)
      have mark : Accounts _ _ _ := Accounts.token seen symbol.token_ne_endOfInput
        (by cases symbol <;> exact fun impossible => TokenKind.noConfusion impossible)
      apply ((mark.trans (next.calls moved)).trans (others.calls (moved.trans next.steps))).weaken
      intro read ⟨_, _, split, ⟨_, _, splitFirst, _, here⟩, later⟩
      rw [split, splitFirst]
      exact (ChecksAll.nil.append here).append later

/-- The expression to the left was read before. -/
theorem ReadsChain.calls {operators : Chain} {left value : Option Node} {before after : Reader} :
    ReadsChain operators left before value after -> Steps origin before ->
      Accounts before after (fun read => forall earlier : List Token,
        origin.ChecksAll left.toList earlier -> origin.ChecksAll value.toList (earlier ++ read))
  | .nil _ => fun _ => .nothing (fun earlier checks => (List.append_nil earlier).symm ▸ checks)
  | .cons operator right others => fun reached => by
      have input := Chain.ne_endOfInput_of_kind operator
      have moved := (reached.tail (.advance input)).tail .reserve
      apply (((Accounts.operator operator).trans (right.calls moved)).trans
        (others.calls (moved.trans right.steps))).weaken
      intro read ⟨_, _, split, ⟨_, _, splitFirst, _, here⟩, later⟩ earlier checks
      rw [split, splitFirst, ← List.append_assoc]
      exact later _ ((checks.append (ChecksAll.nil.append here)).plain
        (ne_func_of_operator operator) _)

theorem ReadsCall.calls {opened : Span} {before after : Reader} {values : List Node} :
    ReadsCall opened before values after -> Steps origin before ->
      Accounts before after (origin.ChecksAll values)
  | .nil closes => fun _ => (Accounts.token closes (by decide) (by decide)).weaken
      (fun _ _ => .nil)
  | .arguments _ found => fun reached => by
      apply ((found.calls reached).trans (Accounts.closeGroup _ _)).weaken
      intro read ⟨_, _, split, checks, _⟩
      exact split ▸ checks.mono (fun _ => List.mem_append_left _)

theorem ReadsArguments.calls {before after : Reader} {values : List Node} :
    ReadsArguments before values after -> Steps origin before ->
      Accounts before after (origin.ChecksAll values)
  | .last first _ => first.calls
  | .cons first separated others => fun reached => by
      have moved := (reached.trans first.steps).tail (.advance_of_sees separated (by decide))
      refine (((first.calls reached).trans (Accounts.token separated (by decide)
        (by decide))).trans (others.calls moved)).weaken ?_
      intro read ⟨_, _, split, ⟨_, _, splitFirst, here, _⟩, later⟩
      rw [split, splitFirst]
      exact (here.mono (fun _ => List.mem_append_left _)).append later

theorem ReadsArgument.calls {before after : Reader} {value : Option Node} :
    ReadsArgument before value after -> Steps origin before ->
      Accounts before after (origin.ChecksAll value.toList)
  | .empty _ => fun _ => .of_not_silent (not_silent_report _ _ _)
  | .expression _ inner => inner.calls

end

end Expressions

/-! ## Preconditions -/

theorem conjuncts_calls {origin : Reader} (reader : Reader) (reached : Steps origin reader) :
    Accounts reader reader.conjuncts.reader (origin.ChecksAll reader.conjuncts.value) := by
  induction reader using conjuncts.induct with
  | case1 reader ended =>
      rw [(conjuncts_of_end ended).1, (conjuncts_of_end ended).2]
      exact .nothing .nil
  | case2 reader inside first _ ih =>
      rcases conjuncts_of_inside (Bool.eq_false_iff.mpr inside) with ⟨values, ends⟩
      have run := reads_expression .loosest reader
      rw [values, ends]
      apply ((run.calls reached).trans (ih (reached.trans run.steps))).weaken
      rintro read ⟨_, _, split, here, later⟩
      exact split ▸ here.append later

theorem ChecksAll.conjoin {origin : Reader} {operands : List Node} {read : List Token}
    (checks : origin.ChecksAll operands read) (reader : Reader) :
    (reader.conjoin operands).1.term.EachAtom (origin.Checks read) := by
  have joined : origin.ChecksAll [.mk reader.nextHandle .and operands] read :=
    checks.plain (fun _ => Kind.noConfusion) reader.nextHandle
  match operands with
  | [] => exact joined _ List.mem_cons_self
  | [only] => exact checks only List.mem_cons_self
  | _ :: _ :: _ => exact joined _ List.mem_cons_self

theorem precondition_calls {reader : Reader} (opens : reader.sees .leftParen = true) :
    Accounts reader reader.precondition.2
      (fun read => reader.precondition.1.term.EachAtom (reader.Checks read)) := by
  have opening := Accounts.token opens (by decide) (by decide)
  have inside := conjuncts_calls reader.advance (.single (.advance_of_sees opens (by decide)))
  rw [precondition_of_opens opens]
  apply ((opening.trans (inside.trans (Accounts.closeGroup _ reader.current.span))).conjoin
    reader.advance.conjuncts.value).weaken
  rintro read ⟨_, _, split, _, _, _, splitLater, checks, _⟩
  rw [split, splitLater]
  apply ChecksAll.conjoin
  exact checks.mono (fun _ member =>
    List.mem_append_right _ (List.mem_append_left _ member))

/-! ## Sources -/

/-- The names of declarations are among the tokens. -/
theorem name_mem_of_declarations {tokens : List Token} {declared : List Declared}
    (derived : Declarations tokens declared) : forall one, one ∈ declared -> one.name ∈ tokens := by
  induction derived with
  | nil => exact fun _ impossible => (List.not_mem_nil impossible).elim
  | cons first _ ih =>
      refine List.forall_mem_cons.mpr ⟨List.mem_append_left _ ?_,
        fun one isLater => List.mem_append_right _ (ih one isLater)⟩
      cases first with
      | untyped => exact List.mem_cons_self
      | typed => exact List.mem_cons_self

/-- The facts of a later world that are not in the first one are declared by
some tokens. -/
def Gains (first later : World) (read : List Token) : Prop :=
  Exists fun added : List Fact => later.facts = first.facts ++ added ∧
    forall fact, fact ∈ added -> Exists fun token : Token => token ∈ read ∧ token.span = fact.span

theorem Gains.same (world : World) (read : List Token) : Gains world world read :=
  ⟨[], (List.append_nil _).symm, fun _ impossible => (List.not_mem_nil impossible).elim⟩

theorem Gains.append {first middle later : World} {read more : List Token}
    (begun : Gains first middle read) (ended : Gains middle later more) :
    Gains first later (read ++ more) := by
  rcases begun with ⟨added, facts, declared⟩
  rcases ended with ⟨further, same, declaredLater⟩
  refine ⟨added ++ further, by rw [same, facts, List.append_assoc], fun fact isFact => ?_⟩
  rcases List.mem_append.mp isFact with isFirst | isLater
  · rcases declared fact isFirst with ⟨token, member, span⟩
    exact ⟨token, List.mem_append_left _ member, span⟩
  · rcases declaredLater fact isLater with ⟨token, member, span⟩
    exact ⟨token, List.mem_append_right _ member, span⟩

theorem factBlock_gains {reader : Reader} (block : reader.sees .fact = true) :
    Accounts reader reader.factBlock.reader (Gains reader.world reader.factBlock.reader.world) := by
  apply (factBlock_accounts block).weaken
  rintro read ⟨declared, @⟨_, _, tokens, _, _, _, _, derived, _⟩, _, facts⟩
  refine ⟨_, facts, List.forall_mem_map.mpr (fun one member => ⟨one.name, ?_, rfl⟩)⟩
  have named := name_mem_of_declarations derived one member
  exact List.mem_cons_of_mem _ (List.mem_cons_of_mem _ (List.mem_append_left _ named))

/-- A call has the name of a fact of the world, and as many arguments as that
has parameters, unless all facts are declared behind the call. -/
def Settles (world : World) (read : List Token) (kind : Kind) (count : Nat) : Prop :=
  forall name : Span, kind = .func name ->
    Exists fun earlier : List Token => Exists fun token : Token => Exists fun later : List Token =>
      read = earlier ++ token :: later ∧ token.span = name ∧
        ((Exists fun fact : Fact => fact ∈ world.facts ∧ fact.name = token.text ∧
            fact.arity = count) ∨
          forall fact, fact ∈ world.facts ->
            Exists fun other : Token => other ∈ later ∧ other.span = fact.span)

theorem Settles.append {world : World} {read : List Token} {kind : Kind} {count : Nat}
    (settled : Settles world read kind count) (first : List Token) :
    Settles world (first ++ read) kind count := by
  intro name isCall
  rcases settled name isCall with ⟨earlier, token, later, split, same, outcome⟩
  exact ⟨first ++ earlier, token, later, by rw [split, List.append_assoc], same, outcome⟩

/-- A call that was checked is settled by what is declared later. -/
theorem Checks.settles {reader : Reader} {world : World} {read more : List Token} {kind : Kind}
    {count : Nat} (checked : reader.Checks read kind count)
    (validates : reader.options.validateFacts = true) (gains : Gains reader.world world more) :
    Settles world (read ++ more) kind count := by
  intro name isCall
  rcases checked name isCall with ⟨token, member, same, admitted⟩
  rcases List.append_of_mem member with ⟨earlier, later, split⟩
  rcases gains with ⟨added, facts, declared⟩
  refine ⟨earlier, token, later ++ more, by rw [split, List.append_assoc]; rfl, same, ?_⟩
  cases empty : reader.world.isEmpty with
  | false =>
      rcases admitted validates empty with ⟨fact, isFact, called⟩
      exact .inl ⟨fact, facts ▸ List.mem_append_left _ isFact, called⟩
  | true =>
      rw [List.isEmpty_iff.mp empty, List.nil_append] at facts
      refine .inr (fun fact isFact => ?_)
      rcases declared fact (facts ▸ isFact) with ⟨other, isOther, span⟩
      exact ⟨other, List.mem_append_right _ isOther, span⟩

/-- The options are never touched. -/
def configured (options : Options) : Invariant where
  holds := fun reader => reader.options = options
  advanced := fun holds => holds
  reported := fun _ _ holds => holds
  reserved := fun holds => holds
  declared := by
    intro reader fact holds
    unfold Reader.declare
    split <;> exact holds

theorem preconditions_calls (reader : Reader) (validates : reader.options.validateFacts = true) :
    Accounts reader reader.preconditions.2 (fun read =>
      Gains reader.world reader.preconditions.2.world read ∧
        forall node, node ∈ reader.preconditions.1 ->
          node.term.EachAtom (Settles reader.preconditions.2.world read)) := by
  induction reader using preconditions.induct with
  | case1 reader ended =>
      rw [preconditions_of_end ended]
      exact .nothing ⟨.same _ _, fun _ impossible => (List.not_mem_nil impossible).elim⟩
  | case2 reader notEnded block _ ih =>
      have same := (configured reader.options).factBlock rfl
      rw [preconditions_of_fact block]
      apply ((factBlock_gains block).trans (ih (same ▸ validates))).weaken
      rintro read ⟨first, _, split, begun, ended, settled⟩
      rw [split]
      exact ⟨begun.append ended, fun node isNode =>
        (settled node isNode).mono (fun _ _ outcome => outcome.append first)⟩
  | case3 reader notEnded notBlock opens _ ih =>
      rcases (precondition_steps opens).unchanged with ⟨world, options, _⟩
      rw [preconditions_of_opens opens]
      apply ((precondition_calls opens).trans (ih (options ▸ validates))).weaken
      rintro read ⟨first, more, split, checked, gains, settled⟩
      rw [world] at gains
      rw [split]
      refine ⟨(Gains.same _ _).append gains, List.forall_mem_cons.mpr ⟨?_, fun node isNode => ?_⟩⟩
      · exact checked.mono (fun _ _ call => call.settles validates gains)
      · exact (settled node isNode).mono (fun _ _ outcome => outcome.append first)
  | case4 reader notEnded notBlock unopened _ ih =>
      rw [preconditions_of_other (Bool.eq_false_iff.mpr notEnded)
        (Bool.eq_false_iff.mpr notBlock) (Bool.eq_false_iff.mpr unopened)]
      intro silent
      exact (not_silent_report _ _ _ (ih validates silent).1).elim

end Reader

end PlanningDomain
