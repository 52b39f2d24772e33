import PlanningDomain.Reader.Basic

namespace PlanningDomain

/-!
# Reading expressions

Expressions are read by precedence.  Each level reads operands of the next
tighter level and the operators of its own between them.  The two connectives
collect all their operands into one node.  The operators of comparison and
arithmetic take two operands and group to the left.  A negation takes one.
The tightest level reads names, calls, constants and groups in parentheses.

A missing operand is reported once, and the node it belongs to is built
without it.  A node takes its handle when it is known to be needed, which is
after its first operand for operators between operands, and before its
operands for negations and calls.
-/

/-- The operators that take two operands and group to the left, by level. -/
inductive Chain where
  | comparison
  | sum
  | product
deriving DecidableEq, Repr

/-- The levels of expressions. -/
inductive Level where
  | connective (symbol : Connective)
  | negation
  | chain (operators : Chain)
  | primary
deriving DecidableEq, Repr

namespace Level

/-- The levels from the tightest to the loosest. -/
def rank : Level -> Nat
  | primary => 0
  | chain .product => 1
  | chain .sum => 2
  | chain .comparison => 3
  | negation => 4
  | connective .and => 5
  | connective .or => 6

/-- The level of a whole expression. -/
@[match_pattern] abbrev loosest : Level := connective .or

end Level

namespace Connective

/-- The token that stands between the operands. -/
def token : Connective -> TokenKind
  | and => .and
  | or => .or

/-- The level of the operands. -/
def operand : Connective -> Level
  | and => .negation
  | or => .connective .and

theorem rank_operand_lt (symbol : Connective) :
    symbol.operand.rank < (Level.connective symbol).rank := by
  cases symbol <;> decide

theorem rank_operand_le (symbol : Connective) : symbol.operand.rank ≤ 5 := by
  cases symbol <;> decide

theorem token_ne_endOfInput (symbol : Connective) : symbol.token ≠ .endOfInput := by
  cases symbol <;> decide

end Connective

namespace Chain

/-- The kind of node that an operator of the level builds. -/
def kind? : Chain -> TokenKind -> Option Kind
  | comparison, .equal => some (.comparison .equal)
  | comparison, .notEqual => some (.comparison .notEqual)
  | comparison, .less => some (.comparison .less)
  | comparison, .lessEqual => some (.comparison .lessEqual)
  | comparison, .greater => some (.comparison .greater)
  | comparison, .greaterEqual => some (.comparison .greaterEqual)
  | sum, .plus => some (.arithmetic .plus)
  | sum, .minus => some (.arithmetic .minus)
  | product, .multiply => some (.arithmetic .multiply)
  | product, .divide => some (.arithmetic .divide)
  | _, _ => none

/-- The level of the operands. -/
def operand : Chain -> Level
  | comparison => .chain .sum
  | sum => .chain .product
  | product => .primary

theorem rank_operand_lt (operators : Chain) :
    operators.operand.rank < (Level.chain operators).rank := by
  cases operators <;> decide

theorem rank_operand_le (operators : Chain) : operators.operand.rank ≤ 2 := by
  cases operators <;> decide

theorem kind?_endOfInput (operators : Chain) : operators.kind? .endOfInput = none := by
  cases operators <;> rfl

theorem ne_of_kind {operators : Chain} {mark other : TokenKind} {kind : Kind}
    (operator : operators.kind? mark = some kind) (absent : operators.kind? other = none) :
    mark ≠ other := by
  intro same
  rw [same, absent] at operator
  exact Option.some_ne_none _ operator.symm

theorem ne_endOfInput_of_kind {operators : Chain} {mark : TokenKind} {kind : Kind}
    (operator : operators.kind? mark = some kind) : mark ≠ .endOfInput :=
  ne_of_kind operator operators.kind?_endOfInput

/-- The nodes of operators have no payload. -/
theorem payload_of_kind? {operators : Chain} {mark : TokenKind} {kind : Kind}
    (operator : operators.kind? mark = some kind) :
    kind.name? = none ∧ kind.literal? = none := by
  unfold kind? at operator
  split at operator
  case h_11 => exact (Option.some_ne_none _ operator.symm).elim
  all_goals
    rw [← Option.some.inj operator]
    exact ⟨rfl, rfl⟩

end Chain

namespace Token

/-- The constant that a token denotes, with what is wrong about it.  An
integer that does not fit into sixty-four bits counts as zero. -/
def constant? (token : Token) : Option (Literal × List Problem) :=
  match token.kind with
  | .integer =>
      let value := digitsValue token.text.toList
      if value < Nat.pow 2 63 then some (.int (Int64.ofNat value), [])
      else some (.int 0, [.integerOutOfRange])
  | .float =>
      let digits := token.text.toList
      let whole := digits.takeWhile Char.isDigit
      let fraction := (digits.dropWhile Char.isDigit).drop 1
      some (.float (.ofDigits whole fraction), [])
  | .string => some (.string token.span.inner, [])
  | _ => none

theorem kind_of_constant {token : Token} {constant : Literal × List Problem}
    (found : token.constant? = some constant) :
    token.kind = .integer ∨ token.kind = .float ∨ token.kind = .string := by
  unfold constant? at found
  split at found
  case h_1 kind => exact Or.inl kind
  case h_2 kind => exact Or.inr (Or.inl kind)
  case h_3 kind => exact Or.inr (Or.inr kind)
  case h_4 => cases found

theorem constant?_eq_none_of_groupEnd {token : Token}
    (closing : token.kind = .rightParen ∨ token.kind = .endOfInput) :
    token.constant? = none := by
  unfold constant?
  rcases closing with kind | kind <;> rw [kind]

theorem ne_endOfInput_of_constant {token : Token} {constant : Literal × List Problem}
    (found : token.constant? = some constant) : token.kind ≠ .endOfInput := by
  intro ended
  exact Option.some_ne_none _ (found.symm.trans (constant?_eq_none_of_groupEnd (Or.inr ended)))

end Token

namespace Reader

/-- Check the number of arguments of a call that was read against the facts
declared so far.  Without declarations every call is fine. -/
def checkCall (reader : Reader) (name : Token) (found : Nat) : Reader :=
  if reader.options.validateFacts && !reader.world.isEmpty then
    match reader.world.find? name.text with
    | none => reader.report name.span (.unknownFact name.text)
    | some fact =>
        if fact.arity = found then reader
        else reader.report name.span (.wrongArity name.text fact.arity found)
  else
    reader

/-- What is wrong about a call with a number of arguments. -/
def callProblem? (reader : Reader) (name : Token) (found : Nat) : Option Problem :=
  if reader.options.validateFacts && !reader.world.isEmpty then
    match reader.world.find? name.text with
    | none => some (.unknownFact name.text)
    | some fact =>
        if fact.arity = found then none else some (.wrongArity name.text fact.arity found)
  else
    none

/-- Note some problems with one range. -/
def reportAll (reader : Reader) (span : Span) (problems : List Problem) : Reader :=
  problems.foldl (fun noted problem => noted.report span problem) reader

@[simp] theorem remaining_reportAll (reader : Reader) (span : Span) (problems : List Problem) :
    (reader.reportAll span problems).remaining = reader.remaining := by
  induction problems generalizing reader with
  | nil => rfl
  | cons problem rest ih => exact ih (reader.report span problem)

/-- A check notes the problem that there is, and does nothing else. -/
theorem checkCall_eq (reader : Reader) (name : Token) (found : Nat) :
    reader.checkCall name found =
      reader.reportAll name.span (reader.callProblem? name found).toList := by
  unfold checkCall callProblem?
  split
  case isFalse => rfl
  case isTrue =>
    split
    case h_1 => rfl
    case h_2 => split <;> rfl

theorem remaining_checkCall (reader : Reader) (name : Token) (found : Nat) :
    (reader.checkCall name found).remaining = reader.remaining := by
  rw [checkCall_eq, remaining_reportAll]

theorem remaining_advance_lt_of_operator {operators : Chain} {kind : Kind} {reader : Reader}
    (operator : operators.kind? reader.current.kind = some kind) :
    reader.advance.remaining < reader.remaining :=
  Window.remaining_advance_lt (Chain.ne_endOfInput_of_kind operator)

theorem remaining_advance_lt_of_constant {reader : Reader} {constant : Literal × List Problem}
    (found : reader.current.constant? = some constant) :
    reader.advance.remaining < reader.remaining :=
  Window.remaining_advance_lt (Token.ne_endOfInput_of_constant found)

/-- A node without operands. -/
def leaf (reader : Reader) (kind : Kind) : Node :=
  .mk reader.nextHandle kind []

mutual

/-- Read an expression of a level.  There is none if its first operand is
missing. -/
def expression (level : Level) (reader : Reader) : Reading reader (Option Node) :=
  match level with
  | .connective symbol =>
      have _lower := symbol.rank_operand_lt
      let first := expression symbol.operand reader
      have _bound := first.bound
      if first.reader.sees symbol.token then
        let others := operands symbol first.reader.reserve
        { value :=
            some (.mk first.reader.nextHandle (.connective symbol)
              (first.value.toList ++ others.value))
          reader := others.reader
          bound := Nat.le_trans others.bound first.bound
          progress := fun inside => Nat.lt_of_le_of_lt others.bound (first.progress inside) }
      else first
  | .negation =>
      if seen : reader.sees .not then
        have shorter := remaining_advance_lt seen (by decide)
        let operand := expression .negation reader.advance.reserve
        { value := some (.mk reader.nextHandle .not operand.value.toList)
          reader := operand.reader
          bound := Nat.le_trans operand.bound (Nat.le_of_lt shorter)
          progress := fun _ => Nat.lt_of_le_of_lt operand.bound shorter }
      else expression (.chain .comparison) reader
  | .chain operators =>
      have _lower := operators.rank_operand_lt
      let first := expression operators.operand reader
      have _bound := first.bound
      let chained := chain operators first.value first.reader
      { value := chained.value
        reader := chained.reader
        bound := Nat.le_trans chained.bound first.bound
        progress := fun inside => Nat.lt_of_le_of_lt chained.bound (first.progress inside) }
  | .primary => primary reader
termination_by 20 * reader.remaining + 2 * level.rank + 1
decreasing_by
  all_goals try simp +zetaDelta only [remaining_reserve, Level.rank] at *
  all_goals omega

/-- Read the further operands of a connective, each after its token. -/
def operands (symbol : Connective) (reader : Reader) : Outcome reader (List Node) :=
  if seen : reader.sees symbol.token then
    have shorter := remaining_advance_lt seen symbol.token_ne_endOfInput
    have _rank := symbol.rank_operand_le
    let next := expression symbol.operand reader.advance
    have _bound := next.bound
    let others := operands symbol next.reader
    { value := next.value.toList ++ others.value
      reader := others.reader
      bound := Nat.le_trans others.bound (Nat.le_trans next.bound (Nat.le_of_lt shorter)) }
  else ⟨[], reader, Nat.le_refl _⟩
termination_by 20 * reader.remaining
decreasing_by
  all_goals try simp +zetaDelta only [Level.rank] at *
  all_goals omega

/-- Read the operators of a level and their right operands, given the
expression to the left of them. -/
def chain (operators : Chain) (left : Option Node) (reader : Reader) :
    Outcome reader (Option Node) :=
  match operator : operators.kind? reader.current.kind with
  | none => ⟨left, reader, Nat.le_refl _⟩
  | some kind =>
      have _rank := operators.rank_operand_le
      have shorter := remaining_advance_lt_of_operator operator
      let right := expression operators.operand reader.advance.reserve
      have _bound := right.bound
      let node := .mk reader.nextHandle kind (left.toList ++ right.value.toList)
      let others := chain operators (some node) right.reader
      { value := others.value
        reader := others.reader
        bound := Nat.le_trans others.bound (Nat.le_trans right.bound (Nat.le_of_lt shorter)) }
termination_by 20 * reader.remaining
decreasing_by
  all_goals try simp +zetaDelta only [remaining_reserve, Level.rank] at *
  all_goals omega

/-- Read a name, a call, a constant or a group in parentheses. -/
def primary (reader : Reader) : Reading reader (Option Node) :=
  if named : reader.sees .identifier then
    have shorter := remaining_advance_lt named (by decide)
    if reader.seesNext .leftParen then
      have _bound := reader.advance.remaining_advance_le
      let found := call reader.advance.current.span reader.advance.advance.reserve
      let bound := Nat.lt_of_le_of_lt (Nat.le_trans found.bound _bound) shorter
      { value := some (.mk reader.nextHandle (.func reader.current.span) found.value)
        reader := found.reader.checkCall reader.current found.value.length
        bound := by rw [remaining_checkCall]; exact Nat.le_of_lt bound
        progress := fun _ => by rw [remaining_checkCall]; exact bound }
    else
      { value := some (reader.leaf (.var reader.current.span))
        reader := reader.advance.reserve
        bound := Nat.le_of_lt shorter
        progress := fun _ => shorter }
  else if opens : reader.sees .leftParen then
    have shorter := remaining_advance_lt opens (by decide)
    let inner := expression .loosest reader.advance
    let bound :=
      Nat.lt_of_le_of_lt
        (Nat.le_trans (inner.reader.remaining_closeGroup_le reader.current.span) inner.bound)
        shorter
    { value := inner.value
      reader := inner.reader.closeGroup reader.current.span
      bound := Nat.le_of_lt bound
      progress := fun _ => bound }
  else
    match constant : reader.current.constant? with
    | some (value, problems) =>
        have shorter := remaining_advance_lt_of_constant constant
        { value := some (reader.leaf (.literal value))
          reader := (reader.advance.reportAll reader.current.span problems).reserve
          bound := by rw [remaining_reserve, remaining_reportAll]; exact Nat.le_of_lt shorter
          progress := fun _ => by rw [remaining_reserve, remaining_reportAll]; exact shorter }
    | none =>
        { value := none
          reader := (reader.unexpected .operand).recover
          bound := remaining_skipGroup_le 0 (reader.unexpected .operand)
          progress := fun inside =>
            @remaining_skipGroup_lt 0 (reader.unexpected .operand) inside }
termination_by 20 * reader.remaining
decreasing_by
  all_goals try simp +zetaDelta only [remaining_reserve, Level.rank] at *
  all_goals omega

/-- Read the arguments of a call and the parenthesis that closes them. -/
def call (opened : Span) (reader : Reader) : Outcome reader (List Node) :=
  if reader.sees .rightParen then ⟨[], reader.advance, reader.remaining_advance_le⟩
  else
    let found := arguments reader
    { value := found.value
      reader := found.reader.closeGroup opened
      bound := Nat.le_trans (found.reader.remaining_closeGroup_le opened) found.bound }
termination_by 20 * reader.remaining + 16
decreasing_by omega

/-- Read arguments as long as commas follow. -/
def arguments (reader : Reader) : Outcome reader (List Node) :=
  let first := argument reader
  have _bound := first.bound
  if separated : first.reader.sees .comma then
    have shorter := remaining_advance_lt separated (by decide)
    let others := arguments first.reader.advance
    { value := first.value.toList ++ others.value
      reader := others.reader
      bound := Nat.le_trans others.bound (Nat.le_trans (Nat.le_of_lt shorter) first.bound) }
  else ⟨first.value.toList, first.reader, first.bound⟩
termination_by 20 * reader.remaining + 15
decreasing_by
  all_goals try simp +zetaDelta only at *
  all_goals omega

/-- Read one argument.  A place without an argument is reported and does not
count. -/
def argument (reader : Reader) : Outcome reader (Option Node) :=
  if reader.sees .comma || reader.sees .rightParen then
    ⟨none, reader.report reader.current.span .emptyArgument, Nat.le_refl _⟩
  else (expression .loosest reader).toOutcome
termination_by 20 * reader.remaining + 14
decreasing_by
  simp only [Level.rank]
  omega

end

end Reader

end PlanningDomain
