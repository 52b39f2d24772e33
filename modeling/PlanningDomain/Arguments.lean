import PlanningDomain.Domain

namespace PlanningDomain

/-!
# Arguments

The arguments of a command name a file, and may choose a stage and options.
What takes them apart is a parser.  It is not part of the program, which relies
on no more than that it understands what is spelled for it.  The standard parser
here is one that the program runs with.
-/

/-- What the arguments say. -/
structure Arguments where
  stage : Stage
  lookAhead : Option Nat
  noValidate : Bool
  file : String
deriving DecidableEq, Repr

namespace Arguments

/-- The options that the arguments choose. -/
def options (arguments : Arguments) : Options :=
  let chosen : Options := { validateFacts := !arguments.noValidate }
  match arguments.lookAhead with
  | some count => chosen.setLookAhead count
  | none => chosen

end Arguments

/-- A parser of arguments.  Where it answers nothing, the run ends with what
the parser itself has to say about the arguments. -/
structure ArgumentParser where
  parse : List String -> Option Arguments

/-! ## The standard parser -/

/-- The arguments given so far.  Each may be given once. -/
structure GivenArguments where
  stage : Option Stage := none
  lookAhead : Option Nat := none
  noValidate : Bool := false
  file : Option String := none

namespace Stage

def ofName? : String -> Option Stage
  | "parse" => some parse
  | "flatten" => some flatten
  | "nnf" => some nnf
  | "dnf" => some dnf
  | _ => none

end Stage

namespace GivenArguments

/-- A number of at most sixty-four bits in decimal digits, with or without a
plus sign. -/
def count? (text : String) : Option Nat :=
  let digits :=
    match text.toList with
    | '+' :: rest => rest
    | chars => chars
  if digits.isEmpty || digits.any (fun char => !char.isDigit) then none
  else
    let value := digitsValue digits
    if value < Nat.pow 2 64 then some value else none

def setStage (given : GivenArguments) (value : String) : Option GivenArguments :=
  match given.stage, Stage.ofName? value with
  | none, some stage => some { given with stage := some stage }
  | _, _ => none

def setLookAhead (given : GivenArguments) (value : String) : Option GivenArguments :=
  match given.lookAhead, count? value with
  | none, some count => some { given with lookAhead := some count }
  | _, _ => none

def setNoValidate (given : GivenArguments) : Option GivenArguments :=
  if given.noValidate then none else some { given with noValidate := true }

def setFile (given : GivenArguments) (value : String) : Option GivenArguments :=
  match given.file with
  | none => some { given with file := some value }
  | some _ => none

/-- How an argument is to be taken. -/
inductive Form where
  /-- A flag without a value. -/
  | noValidate
  /-- A setting whose value is the next argument. -/
  | setting (set : GivenArguments -> String -> Option GivenArguments)
  /-- A setting together with its value. -/
  | assignment (set : GivenArguments -> String -> Option GivenArguments) (value : String)
  /-- The sign that all further arguments are plain. -/
  | separator
  | plain (value : String)
  | unknown

/-- A setting of one letter is followed by its value at once, with or without
an equals sign, or by the next argument. -/
def shortForm : List Char -> Form
  | ['s'] => .setting setStage
  | 's' :: '=' :: value => .assignment setStage (String.ofList value)
  | 's' :: value => .assignment setStage (String.ofList value)
  | _ => .unknown

/-- A setting with a long name has an equals sign before its value, or the
next argument is its value. -/
def longForm (chars : List Char) : Form :=
  let name := String.ofList (chars.takeWhile (fun char => char != '='))
  match name, chars.dropWhile (fun char => char != '=') with
  | "no-validate", [] => .noValidate
  | "stage", [] => .setting setStage
  | "stage", _ :: value => .assignment setStage (String.ofList value)
  | "look-ahead", [] => .setting setLookAhead
  | "look-ahead", _ :: value => .assignment setLookAhead (String.ofList value)
  | _, _ => .unknown

/-- A hyphen on its own is a plain argument. -/
def formOf (argument : String) : Form :=
  match argument.toList with
  | ['-', '-'] => .separator
  | '-' :: '-' :: rest => longForm rest
  | '-' :: first :: rest => shortForm (first :: rest)
  | _ => .plain argument

/-- Take arguments, of which none is a flag or a setting. -/
def takePlain (given : GivenArguments) (values : List String) : Option GivenArguments :=
  values.foldlM setFile given

/-- Take arguments in order.  The next argument is the value of a setting
only if it is plain. -/
def take (given : GivenArguments) : List String -> Option GivenArguments
  | [] => some given
  | argument :: rest =>
      match formOf argument with
      | .noValidate => given.setNoValidate.bind (fun taken => taken.take rest)
      | .assignment set value => (set given value).bind (fun taken => taken.take rest)
      | .separator => given.takePlain rest
      | .plain value => (given.setFile value).bind (fun taken => taken.take rest)
      | .unknown => none
      | .setting set =>
          match rest with
          | [] => none
          | next :: others =>
              match formOf next with
              | .plain value => (set given value).bind (fun taken => taken.take others)
              | _ => none

/-- What the arguments say once all are taken.  The disjunctive normal form
need not be asked for, and a file has to be named. -/
def arguments? (given : GivenArguments) : Option Arguments :=
  given.file.map (fun file =>
    ⟨given.stage.getD .dnf, given.lookAhead, given.noValidate, file⟩)

end GivenArguments

/-- The parser that the command line runs with. -/
def ArgumentParser.standard : ArgumentParser where
  parse := fun arguments => (GivenArguments.take {} arguments).bind GivenArguments.arguments?

end PlanningDomain
