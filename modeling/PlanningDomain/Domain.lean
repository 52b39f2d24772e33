import PlanningDomain.Arena.Conversion
import PlanningDomain.Arena.Forest
import PlanningDomain.Reader.Declaration
import PlanningDomain.Reader.Expression

namespace PlanningDomain

/-!
# Planning domains

A source of a planning domain declares kinds of facts and states
preconditions.  Reading it yields a `Domain`: the declared world and the
preconditions in the order in which they were stated.  Reading always yields
a domain, and beside it the diagnostics of everything that is wrong with the
source.  Compiling a source reads it and brings its preconditions into
disjunctive normal form, and refuses a source with diagnostics.
-/

namespace Reader

/-! ## Preconditions -/

/-- Read expressions up to the end of the group. -/
def conjuncts (reader : Reader) : Outcome reader (List Node) :=
  if ended : reader.atGroupEnd then ⟨[], reader, Nat.le_refl _⟩
  else
    let first := expression .loosest reader
    have _shorter := first.progress (Bool.eq_false_iff.mpr ended)
    let others := conjuncts first.reader
    { value := first.value.toList ++ others.value
      reader := others.reader
      bound := Nat.le_trans others.bound first.bound }
termination_by reader.remaining
decreasing_by
  simp +zetaDelta only at *
  exact _shorter

/-- The conjunction of some expressions, which is the expression itself if
there is only one. -/
def conjoin (reader : Reader) : List Node -> Node × Reader
  | [only] => (only, reader)
  | operands => (.mk reader.nextHandle .and operands, reader.reserve)

theorem remaining_conjoin (reader : Reader) (operands : List Node) :
    (reader.conjoin operands).2.remaining = reader.remaining := by
  unfold conjoin
  split <;> rfl

/-- Read a precondition, the conjunction of all expressions in a pair of
parentheses. -/
def precondition (reader : Reader) : Node × Reader :=
  if reader.sees .leftParen then
    let found := reader.advance.conjuncts
    (found.reader.closeGroup reader.current.span).conjoin found.value
  else
    (reader.unexpected .preconditionStart).conjoin []

theorem remaining_precondition_lt {reader : Reader} (seen : reader.sees .leftParen = true) :
    reader.precondition.2.remaining < reader.remaining := by
  have shorter := remaining_advance_lt seen (by decide)
  have closed := reader.advance.conjuncts.reader.remaining_closeGroup_le reader.current.span
  unfold precondition
  rw [if_pos seen, remaining_conjoin]
  exact Nat.lt_of_le_of_lt (Nat.le_trans closed reader.advance.conjuncts.bound) shorter

/-- Read a precondition and add it to the forest.  The answer is its handle. -/
def plantPrecondition (reader : Reader) : Handle × Reader :=
  let read := reader.precondition
  (read.1.handle, { read.2 with forest := read.2.forest.plant read.1 })

/-! ## Whole sources -/

/-- Read blocks of facts and preconditions up to the end of the input. -/
def preconditions (reader : Reader) : List Node × Reader :=
  if ended : reader.sees .endOfInput then ([], reader)
  else if block : reader.sees .fact then
    have _shorter := remaining_factBlock_lt block
    preconditions reader.factBlock.reader
  else if opens : reader.sees .leftParen then
    have _shorter := remaining_precondition_lt opens
    let others := preconditions reader.precondition.2
    (reader.precondition.1 :: others.1, others.2)
  else
    have _shorter : reader.advance.remaining < reader.remaining :=
      Window.remaining_advance_lt (fun same => ended (beq_iff_eq.mpr same))
    preconditions (reader.unexpected .declarationOrPrecondition).advance
termination_by reader.remaining

end Reader

/-- The outcome of reading a source.  All expressions are in one arena, and
the preconditions are given by their handles. -/
structure Domain where
  source : Source
  world : World
  arena : Arena
  preconditions : List Handle

namespace Reader

/-- Read the rest of the input. -/
def finish (reader : Reader) : Domain × List Diagnostic :=
  let read := reader.preconditions
  (⟨read.2.source, read.2.world, .ofForest (read.2.forest.plantAll read.1),
    read.1.map Node.handle⟩, read.2.diagnostics)

end Reader

/-- How far preconditions are brought towards disjunctive normal form. -/
inductive Stage where
  | parse
  | flatten
  | nnf
  | dnf
deriving DecidableEq, Repr

namespace Stage

/-- Bring the expression at a handle to a stage, and answer the handle of the
node that is now in its place. -/
def convert : Stage -> Handle -> Edit Handle
  | parse => fun node => pure node
  | flatten => fun node => do
      node.flatten
      pure node
  | nnf => Handle.toNnf
  | dnf => Handle.toDnf

/-- Bring expressions to a stage, one after the other. -/
def convertAll (stage : Stage) : List Handle -> Edit (List Handle)
  | [] => pure []
  | node :: rest => do
      let converted ← stage.convert node
      return converted :: (← stage.convertAll rest)

end Stage

namespace Domain

/-- Read a source. -/
def read (source : Source) (options : Options) : Domain × List Diagnostic :=
  (Reader.start source options).finish

/-- How many nodes were ever built for the domain. -/
def allocated (domain : Domain) : Nat :=
  domain.arena.size

/-- Bring all preconditions to a stage. -/
def advanceTo (domain : Domain) (stage : Stage) : Option (Except Misuse Domain) :=
  ((stage.convertAll domain.preconditions).run.run domain.arena).map (fun outcome =>
    outcome.1.map (fun converted =>
      { domain with arena := outcome.2, preconditions := converted }))

end Domain

/-! ## Compiling -/

/-- Why a source is not compiled: it cannot be read as text, or it is in
error. -/
inductive CompileError where
  | notFound
  | notText
  | invalid (diagnostics : List Diagnostic)

namespace CompileError

def message : CompileError -> String
  | notFound => "No such file or directory (os error 2)"
  | notText => "stream did not contain valid UTF-8"
  | invalid diagnostics =>
      "compilation failed with " ++ toString diagnostics.length ++ " error(s):\n" ++
        diagnosticsText diagnostics

end CompileError

/-- Read a source and bring its preconditions into disjunctive normal form,
whether or not the source is in error.  The domain is given only if it is
not. -/
def compile (source : Source) (options : Options) :
    Option (Except Misuse (Except CompileError Domain)) :=
  let read := Domain.read source options
  (read.1.advanceTo .dnf).map (fun outcome =>
    outcome.map (fun converted =>
      if read.2.isEmpty then .ok converted else .error (.invalid read.2)))

/-- What is found at a path: nothing, or a file with its bytes. -/
inductive FileContents where
  | missing
  | bytes (content : ByteArray)

namespace FileContents

/-- The text of a file. -/
def decode : FileContents -> Except CompileError Source
  | missing => .error .notFound
  | bytes content =>
      match String.fromUTF8? content with
      | some text => .ok (.ofString text)
      | none => .error .notText

end FileContents

/-- Compile the source that a file holds. -/
def compileFile (file : FileContents) (options : Options) :
    Option (Except Misuse (Except CompileError Domain)) :=
  match file.decode with
  | .error cause => some (.ok (.error cause))
  | .ok source => compile source options

end PlanningDomain
