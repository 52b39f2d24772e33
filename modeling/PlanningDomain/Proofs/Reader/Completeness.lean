import PlanningDomain.Proofs.Grammar.Juxtaposition
import PlanningDomain.Proofs.Reader.Soundness

namespace PlanningDomain

/-!
# What the grammar derives is read silently

The reader decides by the current token alone whether an expression goes on.
It therefore reads exactly the tokens of a derivation if the token after them
does not go on with it.  Such a token is an operator of the same level or of a
tighter one, or a parenthesis after a name.  Inside of an expression this never
happens, because operands are followed by operators of a looser level or by a
closing token.
-/

namespace Grammar

/-! ## Where expressions stop -/

/-- The level at which a token is an operator. -/
def operatorLevel? : TokenKind -> Option Level
  | .or => some (.connective .or)
  | .and => some (.connective .and)
  | .equal => some (.chain .comparison)
  | .notEqual => some (.chain .comparison)
  | .less => some (.chain .comparison)
  | .lessEqual => some (.chain .comparison)
  | .greater => some (.chain .comparison)
  | .greaterEqual => some (.chain .comparison)
  | .plus => some (.chain .sum)
  | .minus => some (.chain .sum)
  | .multiply => some (.chain .product)
  | .divide => some (.chain .product)
  | _ => none

theorem operatorLevel?_token (symbol : Connective) :
    operatorLevel? symbol.token = some (.connective symbol) := by
  cases symbol <;> rfl

theorem operatorLevel?_of_kind? {operators : Chain} {mark : TokenKind} {kind : Kind}
    (operator : operators.kind? mark = some kind) :
    operatorLevel? mark = some (.chain operators) := by
  unfold Chain.kind? at operator
  split at operator
  case h_11 => exact (Option.some_ne_none _ operator.symm).elim
  all_goals rfl

/-- The tokens after an expression do not go on with it. -/
structure Stops (level : Level) (tokens rest : List Token) : Prop where
  operator : forall mark after, rest = mark :: after -> forall looser,
    operatorLevel? mark.kind = some looser -> level.rank < looser.rank
  call : ¬ OpensCall tokens rest

namespace Stops

variable {level tighter : Level} {tokens rest : List Token}

theorem tighten (stops : Stops level tokens rest) (below : tighter.rank ≤ level.rank) :
    Stops tighter tokens rest where
  operator := fun mark after begins looser found =>
    Nat.lt_of_le_of_lt below (stops.operator mark after begins looser found)
  call := stops.call

theorem right {first : List Token} (stops : Stops level (first ++ tokens) rest) :
    Stops level tokens rest where
  operator := stops.operator
  call := fun opens => stops.call (opens.append_left first)

theorem tail {first : Token} (stops : Stops level (first :: tokens) rest) :
    Stops level tokens rest :=
  @right level tokens rest [first] stops

theorem not_opensCall {mark : Token} (other : mark.kind ≠ .leftParen) :
    ¬ OpensCall tokens (mark :: rest) := by
  intro ⟨_, _, opening, _, _, begins, _, isOpening⟩
  rw [(List.cons.inj begins).1] at other
  exact other isOpening

/-- An operator of a looser level does not go on with an expression. -/
theorem of_operator {mark : Token} {looser : Level} (found : operatorLevel? mark.kind = some looser)
    (above : level.rank < looser.rank) : Stops level tokens (mark :: rest) where
  operator := by
    intro other after begins found' isFound
    rw [← (List.cons.inj begins).1, found] at isFound
    exact Option.some.inj isFound ▸ above
  call := not_opensCall (fun isOpening => by
    rw [isOpening] at found
    exact Option.some_ne_none _ found.symm)

/-- Neither does a token that is no operator, unless it opens a group. -/
theorem of_no_operator {mark : Token} (none : operatorLevel? mark.kind = none)
    (other : mark.kind ≠ .leftParen) : Stops level tokens (mark :: rest) where
  operator := by
    intro mark' after begins looser isFound
    rw [← (List.cons.inj begins).1, none] at isFound
    exact (Option.some_ne_none _ isFound.symm).elim
  call := not_opensCall other

theorem of_closing {mark : Token} (isClosing : mark.kind = .rightParen) :
    Stops level tokens (mark :: rest) :=
  of_no_operator (by rw [isClosing]; rfl)
    (fun isOpening => TokenKind.noConfusion (isClosing.symm.trans isOpening))

theorem sees_eq_false {symbol : Connective} (stops : Stops (.connective symbol) tokens rest)
    {reader : Reader} (shows : reader.Shows rest) : reader.sees symbol.token = false := by
  refine Bool.eq_false_iff.mpr (fun seen => ?_)
  rcases shows.exists_cons seen symbol.token_ne_endOfInput with ⟨after, begins⟩
  refine Nat.lt_irrefl _ (stops.operator reader.current after begins (.connective symbol) ?_)
  rw [← operatorLevel?_token symbol]
  exact congrArg operatorLevel? (beq_iff_eq.mp seen)

theorem kind?_eq_none {operators : Chain} (stops : Stops (.chain operators) tokens rest)
    {reader : Reader} (shows : reader.Shows rest) :
    operators.kind? reader.current.kind = none := by
  cases found : operators.kind? reader.current.kind with
  | none => rfl
  | some kind =>
      have input := Chain.ne_endOfInput_of_kind found
      rcases shows.exists_cons (beq_iff_eq.mpr rfl) input with ⟨after, begins⟩
      exact (Nat.lt_irrefl _ (stops.operator reader.current after begins (.chain operators)
        (operatorLevel?_of_kind? found))).elim

end Stops

theorem Operands.head {symbol : Connective} {tokens : List Token} {terms : List Term} :
    Operands symbol tokens terms ->
      tokens = [] ∧ terms = [] ∨ terms ≠ [] ∧ Exists fun mark : Token =>
        Exists fun after : List Token => tokens = mark :: after ∧ mark.kind = symbol.token := by
  intro operands
  cases operands with
  | nil => exact .inl ⟨rfl, rfl⟩
  | cons mark _ _ => exact .inr ⟨List.cons_ne_nil _ _, _, _, rfl, mark⟩

/-- An operand of a connective stops before the others. -/
theorem Operands.stops {symbol : Connective} {first others rest : List Token} {terms : List Term}
    (operands : Operands symbol others terms)
    (stops : Stops (.connective symbol) (first ++ others) rest) :
    Stops symbol.operand first (others ++ rest) := by
  rcases operands.head with ⟨none, _⟩ | ⟨_, mark, after, begins, isMark⟩
  · subst none
    rw [List.append_nil] at stops
    exact stops.tighten (Nat.le_of_lt symbol.rank_operand_lt)
  · subst begins
    exact .of_operator (by rw [isMark, operatorLevel?_token]) symbol.rank_operand_lt

theorem Chained.stops {operators : Chain} {first others rest : List Token} {left term : Term}
    (chained : Chained operators left others term)
    (stops : Stops (.chain operators) (first ++ others) rest) :
    Stops operators.operand first (others ++ rest) := by
  cases chained with
  | nil =>
      rw [List.append_nil] at stops
      exact stops.tighten (Nat.le_of_lt operators.rank_operand_lt)
  | cons operator => exact .of_operator (operatorLevel?_of_kind? operator) operators.rank_operand_lt

end Grammar

namespace Reader

open Grammar

/-! ## Passing on -/

/-- Some tokens are read and nothing is noted or declared.  The reader after
shows the rest. -/
structure Passes (before after : Reader) (rest : List Token) : Prop where
  shows : after.Shows rest
  diagnostics : after.diagnostics = before.diagnostics
  options : after.options = before.options
  world : after.world = before.world

namespace Passes

variable {before middle after : Reader} {token : Token} {between rest : List Token}

theorem refl (shows : before.Shows rest) : Passes before before rest :=
  ⟨shows, rfl, rfl, rfl⟩

theorem trans (first : Passes before middle between) (second : Passes middle after rest) :
    Passes before after rest where
  shows := second.shows
  diagnostics := second.diagnostics.trans first.diagnostics
  options := second.options.trans first.options
  world := second.world.trans first.world

theorem advance (shows : before.Shows (token :: rest)) : Passes before before.advance rest :=
  ⟨shows.advance, rfl, rfl, rfl⟩

theorem reserve (passes : Passes before after rest) : Passes before after.reserve rest :=
  ⟨passes.shows, passes.diagnostics, passes.options, passes.world⟩

theorem closeGroup {closing : Token} (shows : before.Shows (closing :: rest))
    (closes : closing.kind = .rightParen) (opened : Span) :
    Passes before (before.closeGroup opened) rest := by
  rw [closeGroup_of_close (shows.sees_of closes)]
  exact advance shows

theorem checkCall (passes : Passes before after rest) (off : before.options.validateFacts = false)
    (name : Token) (found : Nat) : Passes before (after.checkCall name found) rest := by
  have same : after.checkCall name found = after := by
    unfold Reader.checkCall
    rw [passes.options, off, Bool.false_and]
    rfl
  rw [same]
  exact passes

end Passes

theorem problems_of_fits {token : Token} {value : Literal} {problems : List Problem}
    (found : token.constant? = some (value, problems)) (fits : token.Fits) : problems = [] := by
  unfold Token.constant? at found
  split at found
  case h_1 integer =>
    simp only [if_pos (fits integer)] at found
    exact (Prod.mk.inj (Option.some.inj found)).2.symm
  case h_2 => exact (Prod.mk.inj (Option.some.inj found)).2.symm
  case h_3 => exact (Prod.mk.inj (Option.some.inj found)).2.symm
  case h_4 => exact (Option.some_ne_none _ found.symm).elim

/-- Where an expression begins, neither a comma nor a closing parenthesis is
seen. -/
theorem sees_of_begins {reader : Reader} {token : Token} {rest : List Token}
    (shows : reader.Shows (token :: rest)) (begin : begins token.kind = true) :
    reader.sees .comma = false ∧ reader.sees .rightParen = false := by
  rw [shows.sees_eq, shows.sees_eq]
  constructor
  · refine Bool.eq_false_iff.mpr (fun same => ?_)
    rw [beq_iff_eq.mp same] at begin
    exact Bool.noConfusion begin
  · refine Bool.eq_false_iff.mpr (fun same => ?_)
    rw [beq_iff_eq.mp same] at begin
    exact Bool.noConfusion begin

end Reader

/-! ## Expressions -/

namespace Grammar

open Reader

/-- Where an argument begins, no argument is missing. -/
theorem Expression.sees_eq_false {level : Level} {tokens rest : List Token} {term : Term}
    (derived : Expression level tokens term) {reader : Reader}
    (shows : reader.Shows (tokens ++ rest)) :
    (reader.sees .comma || reader.sees .rightParen) = false := by
  rcases derived.head with ⟨token, later, begins, begin⟩
  rw [begins] at shows
  rcases sees_of_begins shows begin with ⟨noComma, noClosing⟩
  rw [noComma, noClosing]
  rfl

/-- From every reader that shows the tokens and checks no calls, an expression
of the term is read silently, up to where it stops. -/
def IsRead (level : Level) (tokens : List Token) (term : Term) : Prop :=
  (forall token, token ∈ tokens -> token.Fits) ->
    forall before rest, before.options.validateFacts = false ->
      before.Shows (tokens ++ rest) -> Stops level tokens rest ->
        Exists fun node : Node => Exists fun after : Reader =>
          Reads level before (some node) after ∧ node.term = term ∧ Passes before after rest

/-- The same of the further operands of a connective. -/
def AreRead (symbol : Connective) (tokens : List Token) (terms : List Term) : Prop :=
  (forall token, token ∈ tokens -> token.Fits) ->
    forall before rest, before.options.validateFacts = false ->
      before.Shows (tokens ++ rest) -> Stops (.connective symbol) tokens rest ->
        Exists fun nodes : List Node => Exists fun after : Reader =>
          ReadsOperands symbol before nodes after ∧ nodes.map Node.term = terms ∧
            Passes before after rest

/-- The same of the operators of a level, to the right of any node with the
term of the left operand. -/
def IsChained (operators : Chain) (left : Term) (tokens : List Token) (term : Term) : Prop :=
  forall node : Node, node.term = left -> (forall token, token ∈ tokens -> token.Fits) ->
    forall before rest, before.options.validateFacts = false ->
      before.Shows (tokens ++ rest) -> Stops (.chain operators) tokens rest ->
        Exists fun result : Node => Exists fun after : Reader =>
          ReadsChain operators (some node) before (some result) after ∧ result.term = term ∧
            Passes before after rest

/-- The same of arguments, up to the parenthesis that closes them. -/
def ArePassed (tokens : List Token) (terms : List Term) : Prop :=
  (forall token, token ∈ tokens -> token.Fits) ->
    forall before closing rest, before.options.validateFacts = false ->
      before.Shows (tokens ++ closing :: rest) -> closing.kind = .rightParen ->
        Exists fun nodes : List Node => Exists fun after : Reader =>
          ReadsArguments before nodes after ∧ nodes.map Node.term = terms ∧
            Passes before after (closing :: rest)

section Levels

variable {first tokens others : List Token} {term : Term} {terms : List Term}

theorem isRead_connective {symbol : Connective} (derived : Operands symbol others terms)
    (head : IsRead symbol.operand first term) (operands : AreRead symbol others terms) :
    IsRead (.connective symbol) (first ++ others) (joined symbol term terms) := by
  intro fits before rest off shows stops
  rcases List.forall_mem_append.mp fits with ⟨fitsFirst, fitsOthers⟩
  rw [List.append_assoc] at shows
  rcases head fitsFirst before (others ++ rest) off shows (derived.stops stops) with
    ⟨node, middle, run, isTerm, passes⟩
  have offMiddle : middle.options.validateFacts = false := passes.options ▸ off
  rcases operands fitsOthers middle.reserve rest offMiddle passes.shows stops.right with
    ⟨nodes, after, runs, areTerms, passesLater⟩
  rcases derived.head with ⟨none, noTerms⟩ | ⟨some, mark, later, begins, isMark⟩
  · rw [none] at passes
    rw [noTerms]
    exact ⟨node, middle, .single run (stops.sees_eq_false passes.shows), isTerm, passes⟩
  · have showsMark := passes.shows
    rw [begins] at showsMark
    have seen : middle.sees symbol.token = true := showsMark.sees_of isMark
    refine ⟨_, after, .connective run seen runs, ?_, passes.reserve.trans passesLater⟩
    rw [joined_of_ne_nil some, Node.term_mk, ← isTerm, ← areTerms]
    rfl

theorem areRead_nil {symbol : Connective} : AreRead symbol [] [] :=
  fun _ before _ _ shows stops =>
    ⟨[], before, .nil (stops.sees_eq_false shows), rfl, .refl shows⟩

theorem areRead_cons {symbol : Connective} {mark : Token} (isMark : mark.kind = symbol.token)
    (derived : Operands symbol others terms) (next : IsRead symbol.operand tokens term)
    (operands : AreRead symbol others terms) :
    AreRead symbol (mark :: tokens ++ others) (term :: terms) := by
  intro fits before rest off shows stops
  rcases List.forall_mem_append.mp fits with ⟨fitsNext, fitsOthers⟩
  rw [List.append_assoc] at shows
  have fitsTokens := (List.forall_mem_cons.mp fitsNext).2
  have stopsNext := (derived.stops stops).tail
  rcases next fitsTokens before.advance (others ++ rest) off shows.advance stopsNext with
    ⟨node, middle, run, isTerm, passes⟩
  have offMiddle : middle.options.validateFacts = false := passes.options ▸ off
  rcases operands fitsOthers middle rest offMiddle passes.shows stops.right with
    ⟨nodes, after, runs, areTerms, passesLater⟩
  refine ⟨_, after, .cons (shows.sees_of isMark) run runs, ?_,
    (Passes.advance shows).trans (passes.trans passesLater)⟩
  rw [← isTerm, ← areTerms]
  rfl

theorem isRead_negation {mark : Token} (isMark : mark.kind = .not)
    (operand : IsRead .negation tokens term) :
    IsRead .negation (mark :: tokens) (.mk .not [term]) := by
  intro fits before rest off shows stops
  have fitsTokens := (List.forall_mem_cons.mp fits).2
  rcases operand fitsTokens before.advance.reserve rest off shows.advance stops.tail with
    ⟨node, after, run, isTerm, passes⟩
  refine ⟨_, after, .negation (shows.sees_of isMark) run, ?_,
    (Passes.advance shows).reserve.trans passes⟩
  rw [Node.term_mk, ← isTerm]
  rfl

theorem isRead_unnegated (derived : Expression (.chain .comparison) tokens term)
    (operand : IsRead (.chain .comparison) tokens term) : IsRead .negation tokens term := by
  intro fits before rest off shows stops
  rcases operand fits before rest off shows (stops.tighten (by decide)) with
    ⟨node, after, run, isTerm, passes⟩
  rcases derived.head_ne_not (by decide) with ⟨token, others, begins, notMark⟩
  rw [begins] at shows
  have unseen : before.sees .not = false := by
    rw [shows.sees_eq]
    exact beq_eq_false_iff_ne.mpr notMark
  exact ⟨node, after, .unnegated unseen run, isTerm, passes⟩

theorem isRead_chain {operators : Chain} {left : Term}
    (derived : Chained operators left others term) (head : IsRead operators.operand first left)
    (chained : IsChained operators left others term) :
    IsRead (.chain operators) (first ++ others) term := by
  intro fits before rest off shows stops
  rcases List.forall_mem_append.mp fits with ⟨fitsFirst, fitsOthers⟩
  rw [List.append_assoc] at shows
  rcases head fitsFirst before (others ++ rest) off shows (derived.stops stops) with
    ⟨node, middle, run, isTerm, passes⟩
  have offMiddle : middle.options.validateFacts = false := passes.options ▸ off
  rcases chained node isTerm fitsOthers middle rest offMiddle passes.shows stops.right with
    ⟨result, after, runs, isResult, passesLater⟩
  exact ⟨result, after, .chain run runs, isResult, passes.trans passesLater⟩

theorem isChained_nil {operators : Chain} : IsChained operators term [] term :=
  fun node isLeft _ before _ _ shows stops =>
    ⟨node, before, .nil (stops.kind?_eq_none shows), isLeft, .refl shows⟩

theorem isChained_cons {operators : Chain} {left right : Term} {mark : Token} {kind : Kind}
    (operator : operators.kind? mark.kind = some kind)
    (derived : Chained operators (.mk kind [left, right]) others term)
    (next : IsRead operators.operand tokens right)
    (chained : IsChained operators (.mk kind [left, right]) others term) :
    IsChained operators left (mark :: tokens ++ others) term := by
  intro node isLeft fits before rest off shows stops
  rcases List.forall_mem_append.mp fits with ⟨fitsRight, fitsOthers⟩
  rw [List.append_assoc] at shows
  have fitsTokens := (List.forall_mem_cons.mp fitsRight).2
  have stopsRight := (derived.stops stops).tail
  rcases next fitsTokens before.advance.reserve (others ++ rest) off shows.advance stopsRight with
    ⟨operand, middle, run, isTerm, passes⟩
  have offMiddle : middle.options.validateFacts = false := passes.options ▸ off
  have isJoined : (Node.mk before.nextHandle kind [node, operand]).term =
      .mk kind [left, right] := by
    rw [Node.term_mk, ← isLeft, ← isTerm]
    rfl
  rcases chained _ isJoined fitsOthers middle rest offMiddle passes.shows stops.right with
    ⟨result, after, runs, isResult, passesLater⟩
  refine ⟨result, after, .cons ?_ run runs, isResult,
    (Passes.advance shows).reserve.trans (passes.trans passesLater)⟩
  rw [shows.current_eq]
  exact operator

end Levels

section Primaries

variable {name opening closing : Token} {tokens : List Token} {term : Term} {terms : List Term}

theorem isRead_call (isName : name.kind = .identifier) (isOpening : opening.kind = .leftParen)
    (isClosing : closing.kind = .rightParen) :
    IsRead .primary [name, opening, closing] (.mk (.func name.span) []) := by
  intro fits before rest off shows stops
  have opens : before.seesNext .leftParen = true := by
    rw [shows.seesNext_eq]
    exact shows.advance.sees_of isOpening
  have entered : Passes before before.advance.advance.reserve (closing :: rest) :=
    ((Passes.advance shows).trans (Passes.advance shows.advance)).reserve
  have closes := entered.shows.sees_of isClosing
  refine ⟨_, _, .call (shows.sees_of isName) opens (.nil closes), ?_,
    (entered.trans (Passes.advance entered.shows)).checkCall off _ _⟩
  rw [Node.term_mk, shows.current_eq]
  rfl

theorem isRead_callWith (isName : name.kind = .identifier) (isOpening : opening.kind = .leftParen)
    (derived : ArgumentList tokens terms) (arguments : ArePassed tokens terms)
    (isClosing : closing.kind = .rightParen) :
    IsRead .primary (name :: opening :: tokens ++ [closing]) (.mk (.func name.span) terms) := by
  intro fits before rest off shows stops
  rw [List.append_assoc] at shows
  have showsOpening : before.advance.Shows (opening :: (tokens ++ closing :: rest)) :=
    shows.advance
  have opens : before.seesNext .leftParen = true := by
    rw [shows.seesNext_eq]
    exact showsOpening.sees_of isOpening
  have entered : Passes before before.advance.advance.reserve (tokens ++ closing :: rest) :=
    ((Passes.advance shows).trans (Passes.advance showsOpening)).reserve
  have unclosed : before.advance.advance.reserve.sees .rightParen = false := by
    rcases derived.head with ⟨token, later, begins, begin⟩
    have showsBegin := entered.shows
    rw [begins] at showsBegin
    exact (sees_of_begins showsBegin begin).2
  have fitsTokens : forall token, token ∈ tokens -> token.Fits := fun token member =>
    fits token (List.mem_cons_of_mem _ (List.mem_cons_of_mem _ (List.mem_append_left _ member)))
  rcases arguments fitsTokens before.advance.advance.reserve closing rest off entered.shows
    isClosing with ⟨nodes, after, runs, areTerms, passes⟩
  refine ⟨_, _, .call (shows.sees_of isName) opens (.arguments unclosed runs), ?_,
    (entered.trans (passes.trans (Passes.closeGroup passes.shows isClosing _))).checkCall off _ _⟩
  rw [Node.term_mk, shows.current_eq, areTerms]

/-- A name that stops before a parenthesis is not taken for a call. -/
theorem isRead_var (isName : name.kind = .identifier) :
    IsRead .primary [name] (.mk (.var name.span) []) := by
  intro fits before rest off shows stops
  have unopened : before.seesNext .leftParen = false := by
    rw [shows.seesNext_eq]
    refine Bool.eq_false_iff.mpr (fun seen => ?_)
    rcases shows.advance.exists_cons seen (by decide) with ⟨after, begins⟩
    exact stops.call ⟨[], name, before.advance.current, after, rfl, begins, isName,
      beq_iff_eq.mp seen⟩
  refine ⟨_, _, .var (shows.sees_of isName) unopened, ?_, (Passes.advance shows).reserve⟩
  rw [leaf, Node.term_mk, shows.current_eq]
  rfl

theorem isRead_constant {token : Token} {value : Literal} {problems : List Problem}
    (found : token.constant? = some (value, problems)) :
    IsRead .primary [token] (.mk (.literal value) []) := by
  intro fits before rest off shows stops
  have none := problems_of_fits found (fits token List.mem_cons_self)
  subst none
  rw [← shows.current_eq] at found
  exact ⟨_, _, .constant found, rfl, (Passes.advance shows).reserve⟩

theorem isRead_group (isOpening : opening.kind = .leftParen) (inner : IsRead .loosest tokens term)
    (isClosing : closing.kind = .rightParen) :
    IsRead .primary (opening :: tokens ++ [closing]) term := by
  intro fits before rest off shows stops
  rw [List.append_assoc] at shows
  have entered : Passes before before.advance (tokens ++ closing :: rest) := Passes.advance shows
  have fitsTokens : forall token, token ∈ tokens -> token.Fits := fun token member =>
    fits token (List.mem_cons_of_mem _ (List.mem_append_left _ member))
  rcases inner fitsTokens before.advance (closing :: rest) off entered.shows
    (.of_closing isClosing) with ⟨node, after, run, isTerm, passes⟩
  exact ⟨node, _, .group (shows.sees_of isOpening) run, isTerm,
    entered.trans (passes.trans (Passes.closeGroup passes.shows isClosing _))⟩

end Primaries

section Arguments

variable {tokens others : List Token} {term : Term} {terms : List Term}

theorem arePassed_last (derived : Expression .loosest tokens term)
    (only : IsRead .loosest tokens term) : ArePassed tokens [term] := by
  intro fits before closing rest off shows isClosing
  rcases only fits before (closing :: rest) off shows (.of_closing isClosing) with
    ⟨node, after, run, isTerm, passes⟩
  have unseparated : after.sees .comma = false := by
    rw [passes.shows.sees_eq, isClosing]
    rfl
  have argument := ReadsArgument.expression (derived.sees_eq_false shows) run
  refine ⟨_, after, .last argument unseparated, ?_, passes⟩
  rw [← isTerm]
  rfl

theorem arePassed_cons {comma : Token} (derived : Expression .loosest tokens term)
    (isComma : comma.kind = .comma) (first : IsRead .loosest tokens term)
    (arguments : ArePassed others terms) :
    ArePassed (tokens ++ comma :: others) (term :: terms) := by
  intro fits before closing rest off shows isClosing
  rcases List.forall_mem_append.mp fits with ⟨fitsFirst, fitsOthers⟩
  rw [List.append_assoc] at shows
  have stops : Stops .loosest tokens (comma :: (others ++ closing :: rest)) :=
    .of_no_operator (by rw [isComma]; rfl)
      (fun isOpening => TokenKind.noConfusion (isComma.symm.trans isOpening))
  rcases first fitsFirst before _ off shows stops with ⟨node, middle, run, isTerm, passes⟩
  have offMiddle : middle.options.validateFacts = false := passes.options ▸ off
  have fitsLater := (List.forall_mem_cons.mp fitsOthers).2
  rcases arguments fitsLater middle.advance closing rest offMiddle passes.shows.advance
    isClosing with ⟨nodes, after, runs, areTerms, passesLater⟩
  have argument := ReadsArgument.expression (derived.sees_eq_false shows) run
  refine ⟨_, after, .cons argument (passes.shows.sees_of isComma) runs, ?_,
    passes.trans ((Passes.advance passes.shows).trans passesLater)⟩
  rw [← isTerm, ← areTerms]
  rfl

end Arguments

mutual

/-- An expression is read silently, up to where it stops. -/
theorem Expression.isRead {level : Level} {tokens : List Token} {term : Term} :
    Expression level tokens term -> IsRead level tokens term
  | .connective derived operands => isRead_connective operands derived.isRead operands.areRead
  | .negation isMark operand => isRead_negation isMark operand.isRead
  | .unnegated operand => isRead_unnegated operand operand.isRead
  | .chain derived chained => isRead_chain chained derived.isRead chained.isChained
  | .call isName isOpening isClosing => isRead_call isName isOpening isClosing
  | .callWith isName isOpening arguments isClosing =>
      isRead_callWith isName isOpening arguments arguments.arePassed isClosing
  | .var isName => isRead_var isName
  | .constant found => isRead_constant found
  | .group isOpening inner isClosing => isRead_group isOpening inner.isRead isClosing

theorem Operands.areRead {symbol : Connective} {tokens : List Token} {terms : List Term} :
    Operands symbol tokens terms -> AreRead symbol tokens terms
  | .nil => areRead_nil
  | .cons isMark next operands => areRead_cons isMark operands next.isRead operands.areRead

theorem Chained.isChained {operators : Chain} {left term : Term} {tokens : List Token} :
    Chained operators left tokens term -> IsChained operators left tokens term
  | .nil => isChained_nil
  | .cons operator right chained =>
      isChained_cons operator chained right.isRead chained.isChained

theorem ArgumentList.arePassed {tokens : List Token} {terms : List Term} :
    ArgumentList tokens terms -> ArePassed tokens terms
  | .last only => arePassed_last only only.isRead
  | .cons first isComma arguments =>
      arePassed_cons first isComma first.isRead arguments.arePassed

end

end Grammar

end PlanningDomain
