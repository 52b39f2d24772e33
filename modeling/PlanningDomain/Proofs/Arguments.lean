import PlanningDomain.Arguments

namespace PlanningDomain

/-!
# Arguments that are understood

What the command line needs of a parser of arguments is said here once, for all
parsers.  Options are spelled by their long names with their values behind them, and two
hyphens stand before the file, whatever it is called.  The standard parser is one of
those that understand this.
-/

/-- The options for a number of tokens to look ahead, if one is asked for, and for
whether calls are left unchecked. -/
def Options.chosen (lookAhead : Option UInt64) (noValidate : Bool) : Options where
  lookAhead := max (lookAhead.elim 0 UInt64.toNat) minimumLookAhead
  validateFacts := !noValidate

namespace Arguments

/-- Arguments for the disjunctive normal form. -/
def forNormalForm (lookAhead : Option UInt64) (noValidate : Bool) (file : String) : Arguments :=
  ⟨.dnf, lookAhead.map UInt64.toNat, noValidate, file⟩

/-- The same arguments in words.  The normal form may be named or left out. -/
def spelled (named : Bool) (lookAhead : Option UInt64) (noValidate : Bool) (file : String) :
    List String :=
  (if named then ["--stage", "dnf"] else []) ++
    ((match lookAhead with
      | some count => ["--look-ahead", toString count.toNat]
      | none => []) ++
    ((if noValidate then ["--no-validate"] else []) ++ ["--", file]))

theorem options_forNormalForm (lookAhead : Option UInt64) (noValidate : Bool) (file : String) :
    (forNormalForm lookAhead noValidate file).options = .chosen lookAhead noValidate := by
  cases lookAhead with
  | none => rfl
  | some count => rfl

end Arguments

/-- What a parser has to understand.  The normal form is the stage if none is named, a number
may be any of sixty-four bits, and behind two hyphens everything is a file. -/
structure ArgumentParser.Understands (parser : ArgumentParser) : Prop where
  spelled (named : Bool) (lookAhead : Option UInt64) (noValidate : Bool) (file : String) :
    parser.parse (Arguments.spelled named lookAhead noValidate file) =
      some (.forNormalForm lookAhead noValidate file)

/-! ## The standard parser -/

namespace GivenArguments

/-- A number does not begin with a sign. -/
theorem isDigit_of_toString {count : Nat} {first : Char} {rest : List Char}
    (shape : (toString count).toList = first :: rest) : first.isDigit = true :=
  isDigit_of_mem_toString (shape ▸ List.mem_cons_self)

theorem formOf_toString (count : Nat) : formOf (toString count) = .plain (toString count) := by
  unfold formOf
  split
  case h_1 shape => exact absurd (isDigit_of_toString shape) (by decide)
  case h_2 shape => exact absurd (isDigit_of_toString shape) (by decide)
  case h_3 shape => exact absurd (isDigit_of_toString shape) (by decide)
  case h_4 => rfl

theorem count?_toString {count : Nat} (fits : count < Nat.pow 2 64) :
    count? (toString count) = some count := by
  have notEmpty : (Nat.toDigits 10 count).isEmpty = false :=
    List.isEmpty_eq_false_iff.mpr Nat.toDigits_ne_nil
  have digits : (Nat.toDigits 10 count).any (fun char => !char.isDigit) = false := by
    refine List.any_eq_false.mpr (fun char member => ?_)
    rw [Nat.isDigit_of_mem_toDigits (by decide) (by decide) member]
    decide
  unfold count?
  extract_lets chars value
  have unsigned : chars = Nat.toDigits 10 count := by
    unfold chars
    split
    case h_1 shape => exact absurd (isDigit_of_toString shape) (by decide)
    case h_2 => exact toList_toString count
  have same : value = count := by
    unfold value
    rw [unsigned, digitsValue_toDigits]
  rw [unsigned, notEmpty, digits, same, if_neg (by decide), if_pos fits]

variable {given : GivenArguments} {rest : List String}

theorem take_setting {argument value : String}
    {set : GivenArguments -> String -> Option GivenArguments}
    (isSetting : formOf argument = .setting set) (isPlain : formOf value = .plain value) :
    given.take (argument :: value :: rest) =
      (set given value).bind (fun taken => taken.take rest) := by
  rw [take, isSetting]
  dsimp only
  rw [isPlain]

theorem take_stage (free : given.stage = none) :
    given.take ("--stage" :: "dnf" :: rest) =
      ({ given with stage := some .dnf } : GivenArguments).take rest := by
  rw [take_setting (show formOf "--stage" = .setting setStage from rfl) rfl, setStage, free]
  rfl

theorem take_lookAhead (free : given.lookAhead = none) (count : UInt64) :
    given.take ("--look-ahead" :: toString count.toNat :: rest) =
      ({ given with lookAhead := some count.toNat } : GivenArguments).take rest := by
  rw [take_setting (show formOf "--look-ahead" = .setting setLookAhead from rfl)
    (formOf_toString _), setLookAhead, free, count?_toString count.toNat_lt]
  rfl

theorem take_noValidate (free : given.noValidate = false) :
    given.take ("--no-validate" :: rest) =
      ({ given with noValidate := true } : GivenArguments).take rest := by
  rw [take, show formOf "--no-validate" = .noValidate from rfl]
  dsimp only
  rw [setNoValidate, free]
  rfl

theorem take_file (free : given.file = none) (file : String) :
    given.take ["--", file] = some { given with file := some file } := by
  rw [take, show formOf "--" = .separator from rfl]
  dsimp only
  rw [takePlain, List.foldlM_cons, setFile, free]
  rfl

end GivenArguments

theorem ArgumentParser.understands_standard : standard.Understands where
  spelled := by
    intro named lookAhead noValidate file
    unfold standard Arguments.spelled
    cases named
    all_goals cases lookAhead
    all_goals cases noValidate
    all_goals
      simp only [Bool.false_eq_true, if_true, if_false, List.nil_append, List.cons_append,
        GivenArguments.take_stage, GivenArguments.take_lookAhead, GivenArguments.take_noValidate,
        GivenArguments.take_file]
      rfl

end PlanningDomain
