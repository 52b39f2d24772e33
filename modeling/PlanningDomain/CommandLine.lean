import PlanningDomain.Arguments
import PlanningDomain.Expr.Dump

namespace PlanningDomain

/-!
# The command line

A command names a file and says up to which stage its preconditions are to be
brought before they are shown.  Running it is a function from the contents of
the file to a report, which holds everything that is printed and the exit
status.  On its way a run notes warnings, errors and remarks.  What becomes of
these is up to a logger.  It is not part of the program, so a command can be
run with any logger, and the command line runs it with a simple one.
-/

/-! ## What is noted -/

/-- What a run notes.  A remark tells what the run is at, and how long it took
to get there. -/
inductive LogRecord where
  | error (text : String)
  | warning (text : String)
  | remark (text : String)
deriving DecidableEq, Repr

namespace LogRecord

def errorText? : LogRecord -> Option String
  | error text => some text
  | _ => none

/-- Records with the remarks that are made before each of them, and behind the
last one. -/
def withRemarks (remarks : Nat -> List String) : List LogRecord -> List LogRecord
  | [] => (remarks 0).map remark
  | record :: rest =>
      (remarks 0).map remark ++ record :: withRemarks (fun place => remarks (place + 1)) rest

end LogRecord

/-- A logger makes entries of what is noted, each of which is printed. -/
structure Logger where
  entries : List LogRecord -> List String

namespace Logger

/-- A logger for errors only.  It puts the same header in front of each. -/
def headed (header : String) : Logger where
  entries := fun records => records.filterMap (fun record => record.errorText?.map (header ++ ·))

end Logger

/-! ## Commands -/

/-- What a command asks for. -/
structure Command where
  stage : Stage
  options : Options
  file : String

def Arguments.command (arguments : Arguments) : Command :=
  ⟨arguments.stage, arguments.options, arguments.file⟩

/-- What a command prints, and its exit status. -/
structure Report where
  status : Nat
  output : String
  errors : List String
deriving DecidableEq, Repr

namespace Stage

/-- Bring expressions to a stage, and write each of them down before the next
one is turned to.  Every name of a domain that was read has a text. -/
def dumps (stage : Stage) (source : Source) : List Handle -> Edit (List String)
  | [] => pure []
  | node :: rest => do
      let converted ← (← stage.convert node).expression
      return (converted.dump? source).getD "" :: (← stage.dumps source rest)

end Stage

namespace Domain

/-- What is shown of a domain: its world if facts are declared, and a dump of
each precondition once it is brought to a stage. -/
def lines (domain : Domain) (stage : Stage) : Option (Except Misuse (List String)) :=
  ((stage.dumps domain.source domain.preconditions).run.run domain.arena).map (fun outcome =>
    outcome.1.map (fun dumps =>
      (if domain.world.isEmpty then [] else [domain.world.toText]) ++ dumps))

end Domain

namespace Command

/-- The command that a list of arguments spells, if it spells one. -/
def ofArguments? (arguments : List String) : Option Command :=
  (ArgumentParser.standard.parse arguments).map Arguments.command

/-- What a run on a source notes apart from remarks: a warning of each
diagnostic when it is made, and an error for each of them in the end. -/
def records (command : Command) (diagnostics : List Diagnostic) : List LogRecord :=
  diagnostics.map (fun diagnostic => .warning diagnostic.toText) ++
    diagnostics.map (fun diagnostic => .error (command.file ++ ":" ++ diagnostic.toText))

section Execution

variable (command : Command) (logger : Logger) (remarks : Nat -> List String)

/-- The report on a source, given the lines that show it.  The number of
diagnostics is printed without the logger. -/
def report (diagnostics : List Diagnostic) (lines : List String) : Report :=
  let output := String.join (lines.map (· ++ "\n"))
  let entries := logger.entries (LogRecord.withRemarks remarks (command.records diagnostics))
  if diagnostics.isEmpty then ⟨0, output, entries⟩
  else
    ⟨1, output, entries ++ [toString diagnostics.length ++ " error(s) in " ++ command.file]⟩

/-- Run a command on what is found at its path, with a logger.  The remarks on
the way differ from run to run. -/
def execute (file : FileContents) : Option (Except Misuse Report) :=
  match file.decode with
  | .error cause =>
      let records := [.error ("Cannot read " ++ command.file ++ ": " ++ cause.message)]
      some (.ok ⟨1, "", logger.entries (LogRecord.withRemarks remarks records)⟩)
  | .ok source =>
      let read := Domain.read source command.options
      (read.1.lines command.stage).map (fun outcome =>
        outcome.map (command.report logger remarks read.2))

end Execution

/-- Run a command as the command line does.  No remarks are needed for a logger
that does not show them. -/
def run (command : Command) (file : FileContents) : Option (Except Misuse Report) :=
  command.execute (.headed "ERROR ") (fun _ => []) file

end Command

end PlanningDomain
