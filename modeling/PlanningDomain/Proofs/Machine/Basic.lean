import PlanningDomain.Domain

namespace PlanningDomain

/-!
# Machines

A machine reads a source as a reader does, but nothing is taken for granted.
It looks ahead only as far as its window reaches.  It never reads past the end
of input.  It cuts the texts it needs out of the source.  It notes a problem only
at a place that has a position.  It counts open groups down only if there are any,
and it looks whether a call really goes on with a parenthesis.  It adds each
node to an arena as soon as the node is known to be needed, and appends the
operands one by one.  Wherever one of these is not possible the work has no
result, and neither has a loop that does not come to an end.

A machine also remembers the tokens that it has read, in their order.
-/

/-- A source in the course of being read, with the arena of the nodes so far. -/
structure Machine where
  source : Source
  options : Options
  window : Window
  passed : List Token
  arena : Arena
  world : World
  diagnostics : List Diagnostic

/-- Work of a machine.  There is no result if it relies on something that does
not hold. -/
abbrev Work (alpha : Type) := StateT Machine Option alpha

namespace Machine

/-- A machine at the beginning of a source. -/
def start (source : Source) (options : Options) : Machine where
  source := source
  options := options
  window := .start (max options.lookAhead minimumLookAhead) source.tokens source.size
  passed := []
  arena := .empty
  world := .empty
  diagnostics := []

/-! ## Single steps -/

/-- What has to be there. -/
def demand {alpha : Type} : Option alpha -> Work alpha
  | some value => pure value
  | none => failure

/-- The token some places after the current one. -/
def peek (distance : Nat) : Work Token := do
  demand ((← get).window.peek? distance)

def sees (kind : TokenKind) : Work Bool := do
  return (← peek 0).kind == kind

def atGroupEnd : Work Bool := do
  return (← sees .rightParen) || (← sees .endOfInput)

/-- Read the current token, which is not the end of input. -/
def advance : Work Token := do
  let token ← peek 0
  guard (token.kind ≠ .endOfInput)
  modify (fun machine =>
    { machine with window := machine.window.advance, passed := machine.passed ++ [token] })
  pure token

/-- Read the current token if it has a kind. -/
def eat (kind : TokenKind) : Work Bool := do
  if (← sees kind) then
    let _ ← advance
    pure true
  else pure false

/-- The text of a range. -/
def text (span : Span) : Work String := do
  demand ((← get).source.slice? span)

def report (span : Span) (problem : Problem) : Work Unit := do
  let diagnostic ← demand ((← get).source.diagnose? span problem)
  modify (fun machine => { machine with diagnostics := machine.diagnostics ++ [diagnostic] })

def unexpected (expected : Expectation) : Work Unit := do
  let token ← peek 0
  report token.span (.unexpected expected token.kind)

/-- Work on the arena that is not refused. -/
def build {alpha : Type} (work : Edit alpha) : Work alpha := do
  let (outcome, arena) ← demand (work.run.run (← get).arena)
  let result ← demand outcome.toOption
  modify (fun machine => { machine with arena := arena })
  pure result

/-- Append an operand, if there is one. -/
def attach (node : Handle) : Option Handle -> Work Unit
  | some operand => build (Arena.append node operand)
  | none => pure ()

/-- The number of open groups after one of them was closed. -/
def lower : Nat -> Work Nat
  | 0 => failure
  | depth + 1 => pure depth

/-!
## Ends of groups

Work is a function of a machine.  Where it goes on with itself, it is applied to
the machine that was reached.
-/

def skipGroup (depth : Nat) : Work Unit := do
  match (← peek 0).kind with
  | .endOfInput => pure ()
  | .rightParen =>
      if depth = 0 then pure ()
      else
        let less ← lower depth
        let _ ← advance
        (· |>.skipGroup less)
  | .leftParen =>
      let _ ← advance
      (· |>.skipGroup (depth + 1))
  | _ =>
      let _ ← advance
      (· |>.skipGroup depth)
partial_fixpoint

def closeGroup (opened : Span) : Work Unit := do
  if !(← atGroupEnd) then
    unexpected .closingParen
    skipGroup 0
  if !(← eat .rightParen) then report opened .unbalancedParen

/-! ## Expressions -/

/-- Check a call against the facts declared so far. -/
def checkCall (name : Span) (found : Nat) : Work Unit := do
  let machine ← get
  if machine.options.validateFacts && !machine.world.isEmpty then
    let word ← text name
    match machine.world.find? word with
    | none => report name (.unknownFact word)
    | some fact =>
        if fact.arity = found then pure ()
        else report name (.wrongArity word fact.arity found)

def reportAll (span : Span) : List Problem -> Work Unit
  | [] => pure ()
  | problem :: rest => do
      report span problem
      reportAll span rest

/-- Read a constant.  Its value follows from its text. -/
def constant : Work Handle := do
  let token ← advance
  let (value, problems) ←
    demand (Token.constant? ⟨token.kind, token.span, ← text token.span⟩)
  reportAll token.span problems
  build (Arena.alloc (.literal value))

mutual

def expression (level : Level) : Work (Option Handle) :=
  match level with
  | .connective symbol => do
      let first ← (· |>.expression symbol.operand)
      if (← sees symbol.token) then
        let node ← build (Arena.alloc (.connective symbol))
        attach node first
        (· |>.operands symbol node)
        pure (some node)
      else pure first
  | .negation => do
      if (← eat .not) then
        let node ← build (Arena.alloc .not)
        attach node (← (· |>.expression .negation))
        pure (some node)
      else (· |>.expression (.chain .comparison))
  | .chain operators => do
      let first ← (· |>.expression operators.operand)
      (· |>.chain operators first)
  | .primary => (· |>.primary)
partial_fixpoint

def operands (symbol : Connective) (node : Handle) : Work Unit := do
  if (← eat symbol.token) then
    attach node (← (· |>.expression symbol.operand))
    (· |>.operands symbol node)
partial_fixpoint

def chain (operators : Chain) (left : Option Handle) : Work (Option Handle) := do
  match operators.kind? (← peek 0).kind with
  | none => pure left
  | some kind =>
      let _ ← advance
      let node ← build (Arena.alloc kind)
      attach node left
      attach node (← (· |>.expression operators.operand))
      (· |>.chain operators (some node))
partial_fixpoint

def primary : Work (Option Handle) := do
  let token ← peek 0
  match token.kind with
  | .identifier =>
      if (← peek 1).kind = .leftParen then
        let node ← (· |>.call token.span)
        pure (some node)
      else
        let _ ← advance
        let node ← build (Arena.alloc (.var token.span))
        pure (some node)
  | .leftParen =>
      let _ ← advance
      let inner ← (· |>.expression .loosest)
      closeGroup token.span
      pure inner
  | .integer | .float | .string =>
      let node ← constant
      pure (some node)
  | _ =>
      unexpected .operand
      skipGroup 0
      pure none
partial_fixpoint

/-- Read a call whose name is the current token. -/
def call (name : Span) : Work Handle := do
  let _ ← advance
  let opening ← advance
  guard (opening.kind = .leftParen)
  let node ← build (Arena.alloc (.func name))
  let found ← (· |>.argumentList opening.span node)
  checkCall name found
  pure node
partial_fixpoint

/-- Read the arguments of a call and the parenthesis that closes them.  The
answer is the number of arguments. -/
def argumentList (opened : Span) (node : Handle) : Work Nat := do
  if (← eat .rightParen) then pure 0
  else
    let found ← (· |>.arguments node 0)
    closeGroup opened
    pure found
partial_fixpoint

/-- Read arguments as long as commas follow, given how many there were before
them. -/
def arguments (node : Handle) (before : Nat) : Work Nat := do
  let found ← (· |>.argument node before)
  if (← eat .comma) then (· |>.arguments node found)
  else pure found
partial_fixpoint

def argument (node : Handle) (before : Nat) : Work Nat := do
  let token ← peek 0
  if token.kind = .comma ∨ token.kind = .rightParen then
    report token.span .emptyArgument
    pure before
  else
    match (← (· |>.expression .loosest)) with
    | some argument =>
        build (Arena.append node argument)
        pure (before + 1)
    | none => pure before
partial_fixpoint

end

/-! ## Preconditions -/

/-- Read expressions up to the end of the group. -/
def conjuncts : Work (List Handle) := do
  if (← atGroupEnd) then pure []
  else
    let first ← expression .loosest
    return first.toList ++ (← (· |>.conjuncts))
partial_fixpoint

def attachAll (node : Handle) : List Handle -> Work Unit
  | [] => pure ()
  | operand :: rest => do
      build (Arena.append node operand)
      attachAll node rest

def precondition : Work Handle := do
  let opening ← peek 0
  if (← eat .leftParen) then
    let found ← conjuncts
    closeGroup opening.span
    match found with
    | [only] => pure only
    | operands =>
        let node ← build (Arena.alloc .and)
        attachAll node operands
        pure node
  else
    unexpected .preconditionStart
    build (Arena.alloc .and)

/-! ## Declarations -/

/-- Read one parameter type, if there is one. -/
def parameter : Work (Option DataType) := do
  let token ← peek 0
  if token.kind = .identifier then
    let _ ← advance
    let word ← text token.span
    match DataType.ofKeyword? word with
    | some type => pure (some type)
    | none =>
        report token.span (.unknownType word)
        pure none
  else
    unexpected .parameterType
    pure none

def parameters : Work (List DataType) := do
  let first ← parameter
  if (← eat .comma) then return first.toList ++ (← (· |>.parameters))
  else pure first.toList
partial_fixpoint

def parameterList : Work (List DataType) := do
  let opening ← peek 0
  if (← eat .leftParen) then
    if (← eat .rightParen) then pure []
    else
      let params ← parameters
      closeGroup opening.span
      pure params
  else
    unexpected .openingParen
    pure []

def factDeclaration : Work Unit := do
  let name ← advance
  let params ← parameterList
  let fact := ⟨← text name.span, name.span, params⟩
  match (← get).world.declare fact with
  | .ok world => modify (fun machine => { machine with world := world })
  | .error _ => report name.span (.redeclaredFact (← text name.span))

/-- Read declarations up to the brace that closes a block. -/
def factDeclarations (opened : Span) : Work Unit := do
  match (← peek 0).kind with
  | .rightBrace =>
      let _ ← advance
      pure ()
  | .endOfInput => report opened .unterminatedFactBlock
  | .identifier =>
      factDeclaration
      (· |>.factDeclarations opened)
  | _ =>
      unexpected .factDeclaration
      let _ ← advance
      (· |>.factDeclarations opened)
partial_fixpoint

def factBlock : Work Unit := do
  if (← eat .fact) then
    let opening ← peek 0
    if (← eat .leftBrace) then factDeclarations opening.span
    else unexpected .openingBrace
  else unexpected .factKeyword

/-! ## Whole sources -/

/-- Read everything up to the end of input. -/
def preconditions : Work (List Handle) := do
  match (← peek 0).kind with
  | .endOfInput => pure []
  | .fact =>
      factBlock
      (· |>.preconditions)
  | .leftParen =>
      let first ← precondition
      return first :: (← (· |>.preconditions))
  | _ =>
      unexpected .declarationOrPrecondition
      let _ ← advance
      (· |>.preconditions)
partial_fixpoint

end Machine

end PlanningDomain
