import PlanningDomain.CommandLine

namespace PlanningDomain

/-- What is found at a path.  Whatever cannot be read counts as missing. -/
def contentsOf (path : String) : IO FileContents :=
  try
    return .bytes (← IO.FS.readBinFile path)
  catch _ =>
    return .missing

def usage : String :=
  "Usage: [--stage parse|flatten|nnf|dnf] [--look-ahead COUNT] [--no-validate] FILE"

end PlanningDomain

open PlanningDomain

/-- Run the command that the arguments spell.  The status for arguments that
spell none is two, and for a conversion that is refused it is one hundred and
one. -/
def main (arguments : List String) : IO UInt32 := do
  match Command.ofArguments? arguments with
  | none =>
      IO.eprintln usage
      return 2
  | some command =>
      match command.run (← contentsOf command.file) with
      | some (.ok report) =>
          IO.print report.output
          report.errors.forM IO.eprintln
          return UInt32.ofNat report.status
      | _ => return 101
