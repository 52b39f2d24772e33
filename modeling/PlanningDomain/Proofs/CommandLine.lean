import PlanningDomain.CommandLine
import PlanningDomain.Proofs.Arguments
import PlanningDomain.Proofs.Messages

namespace PlanningDomain

/-!
# The command line and the library

Both read a source and bring its preconditions into disjunctive normal form, but the
command line writes each precondition down before it turns to the next one.  It does
so for sources in error too.  What it prints is nevertheless what compiling the source
answers, for every way in which the options may be chosen.

This holds for any parser of arguments and any logger, of each of which one thing is
known.  The parser understands the options that are spelled for it.  The logger is left
at the level of errors: it makes an entry for every error, and for nothing else.
-/

/-! ## Loggers -/

/-- The texts of the errors among some records. -/
def errorTexts (records : List LogRecord) : List String :=
  records.filterMap LogRecord.errorText?

namespace Logger

/-- An entry shows a text of one line if it ends with that text.  What is put in front, such as
the time, is up to the logger, and so is the layout of a text of several lines. -/
def Shows (text entry : String) : Prop :=
  IsLine text -> Exists fun header : String => entry = header ++ text

/-- The errors are shown, in order and in an entry each.  Warnings and remarks are not. -/
structure ShowsErrors (logger : Logger) : Prop where
  entries (records : List LogRecord) :
    List.Forall₂ Shows (errorTexts records) (logger.entries records)

theorem showsErrors_headed (header : String) : (headed header).ShowsErrors where
  entries := by
    intro records
    unfold errorTexts headed
    induction records with
    | nil => exact .nil
    | cons record rest ih =>
        cases record with
        | error text => exact .cons (fun _ => ⟨header, rfl⟩) ih
        | warning _ => exact ih
        | remark _ => exact ih

end Logger

theorem errorTexts_append (first later : List LogRecord) :
    errorTexts (first ++ later) = errorTexts first ++ errorTexts later :=
  List.filterMap_append

/-- No remark is an error. -/
theorem errorTexts_withRemarks (remarks : Nat -> List String) (records : List LogRecord) :
    errorTexts (LogRecord.withRemarks remarks records) = errorTexts records := by
  have none (texts : List String) : errorTexts (texts.map LogRecord.remark) = [] :=
    List.filterMap_eq_nil_iff.mpr (List.forall_mem_map.mpr (fun _ _ => rfl))
  induction records generalizing remarks with
  | nil => exact none _
  | cons record rest ih =>
      rw [LogRecord.withRemarks, errorTexts_append, none, List.nil_append, errorTexts, errorTexts,
        List.filterMap_cons, List.filterMap_cons, ← errorTexts, ih]
      rfl

/-- Each diagnostic is one error of the command. -/
theorem Command.errorTexts_records (command : Command) (diagnostics : List Diagnostic) :
    errorTexts (command.records diagnostics) =
      diagnostics.map (fun diagnostic => command.file ++ ":" ++ diagnostic.toText) := by
  have none : errorTexts (diagnostics.map (fun diagnostic => .warning diagnostic.toText)) = [] :=
    List.filterMap_eq_nil_iff.mpr (List.forall_mem_map.mpr (fun _ _ => rfl))
  rw [records, errorTexts_append, none, List.nil_append, errorTexts, List.filterMap_map]
  exact congrFun List.filterMap_eq_map diagnostics

/-! ## What is shown -/

/-- A text that is written to a file is read from it. -/
theorem FileContents.decode_toUTF8 (source : Source) :
    (bytes (String.ofList source.chars).toUTF8).decode = .ok source := by
  have text : String.fromUTF8? (String.ofList source.chars).toUTF8 =
      some (String.ofList source.chars) := by
    unfold String.fromUTF8?
    rw [String.toUTF8_eq_toByteArray, dif_pos (String.isValidUTF8 _)]
    rfl
  rw [decode]
  simp only [text]
  rw [Source.ofString, String.toList_ofList]

namespace Domain

/-- What is printed for a world and some dumps, one line for each dump. -/
def shown (world : World) (dumps : List String) : String :=
  String.join (((if world.isEmpty then [] else [world.toText]) ++ dumps).map (· ++ "\n"))

/-- Dumps of the preconditions of a domain, in order. -/
def Dumps (domain : Domain) (dumps : List String) : Prop :=
  List.Forall₂ (fun root dump => Exists fun tree : Node =>
    domain.arena.Reads root tree ∧ tree.dump? domain.source = some dump) domain.preconditions dumps

section Shown

variable {source : Source} {options : Options} {stage : Stage}

theorem exists_lines {terms : List Term} {results : List Node}
    (same : results.map Node.term = terms)
    (spelled : forall term, term ∈ terms ->
      term.EachAtom (fun kind _ => kind.IsSpelled source)) :
    Exists fun dumps : List String =>
      List.Forall₂ (fun term dump => IsLine dump ∧ forall node : Node, node.term = term ->
        node.dump? source = some dump) terms dumps ∧
      results.map (fun result => (result.dump? source).getD "") = dumps := by
  subst same
  induction results with
  | nil => exact ⟨[], .nil, rfl⟩
  | cons result rest ih =>
      rw [List.map_cons] at spelled
      rcases List.forall_mem_cons.mp spelled with ⟨first, later⟩
      rcases Node.exists_line first with ⟨dump, isDump, isLine⟩
      rcases ih later with ⟨dumps, lines, isRest⟩
      refine ⟨dump :: dumps, .cons ⟨isLine, fun node same => ?_⟩ lines, ?_⟩
      · rw [← isDump]
        exact Node.dump?_congr same
      · rw [List.map_cons, isDump, isRest]
        rfl

/-- The lines that are shown of a source, at any stage. -/
theorem lines_read (source : Source) (options : Options) (stage : Stage) :
    Exists fun dumps : List String =>
      (Domain.read source options).1.lines stage = some (.ok
        ((if (Domain.read source options).1.world.isEmpty then []
          else [(Domain.read source options).1.world.toText]) ++ dumps)) ∧
      List.Forall₂ (fun term dump => IsLine dump ∧ forall node : Node, node.term = term ->
          node.dump? source = some dump)
        ((Reader.start source options).preconditions.1.map (fun tree => stage.form tree.term))
        dumps := by
  have stored := Machine.stores_read source options
  rcases stage.dumps_yields source (Reader.start source options).preconditions.1 _ [] with
    ⟨results, left, terms, yields⟩
  rw [List.append_nil] at yields
  rcases yields _ stored with ⟨later, run, _⟩
  have spelled : forall term,
      term ∈ (Reader.start source options).preconditions.1.map (fun tree => stage.form tree.term) ->
        term.EachAtom (fun kind _ => kind.IsSpelled source) :=
    List.forall_mem_map.mpr (fun tree isRead => (Node.eachAtom_of_read isRead).form stage)
  rcases exists_lines terms spelled with ⟨dumps, lines, same⟩
  refine ⟨dumps, ?_, lines⟩
  rw [Domain.lines, source_read]
  rw [show (Domain.read source options).1.preconditions =
    (Reader.start source options).preconditions.1.map Node.handle from rfl, run, same]
  rfl

/-- The lines are what is shown of the source once all its preconditions are at the
stage. -/
theorem lines_advanceTo (source : Source) (options : Options) (stage : Stage) :
    Exists fun converted : Domain => Exists fun dumps : List String =>
      (Domain.read source options).1.advanceTo stage = some (.ok converted) ∧
      converted.world = (Domain.read source options).1.world ∧
      (Domain.read source options).1.lines stage =
        some (.ok ((if converted.world.isEmpty then [] else [converted.world.toText]) ++ dumps)) ∧
      converted.Dumps dumps ∧
      dumps.length = (Domain.read source options).1.preconditions.length ∧
      forall dump, dump ∈ dumps -> IsLine dump := by
  rcases advanceTo_states (Machine.stores_read source options) rfl stage with
    ⟨converted, advanced, sameSource, world, states⟩
  rcases lines_read source options stage with ⟨dumps, shown, each⟩
  have count := each.length_eq.symm.trans (List.length_map _)
  refine ⟨converted, dumps, advanced, world, world ▸ shown, ?_, ?_, ?_⟩
  · refine (forall₂_through states each).imp (fun root dump related => ?_)
    rcases related with ⟨term, ⟨tree, isRead, same⟩, _, isDump⟩
    rw [sameSource, source_read]
    exact ⟨tree, isRead, isDump tree same⟩
  · exact count.trans (List.length_map _).symm
  · intro dump isDump
    rcases exists_related_of_mem (List.Forall₂.flip each) isDump with ⟨term, _, isLine, _⟩
    exact isLine

end Shown

end Domain

/-! ## Agreement -/

namespace Command

variable {source : Source} {logger : Logger} {remarks : Nat -> List String}

/-- Running a command on a text reads the text and reports on its lines. -/
theorem execute_text (command : Command) (logger : Logger) (remarks : Nat -> List String)
    {lines : List String}
    (shown : (Domain.read source command.options).1.lines command.stage = some (.ok lines)) :
    command.execute logger remarks (.bytes (String.ofList source.chars).toUTF8) =
      some (.ok (command.report logger remarks (Domain.read source command.options).2 lines)) := by
  unfold execute
  rw [FileContents.decode_toUTF8]
  dsimp only
  rw [shown]
  rfl

/-- Nothing but the lines is printed where nothing is wrong. -/
theorem report_of_silent (shows : logger.ShowsErrors) (command : Command) (lines : List String) :
    command.report logger remarks [] lines = ⟨0, String.join (lines.map (· ++ "\n")), []⟩ := by
  have entries := shows.entries (LogRecord.withRemarks remarks (command.records []))
  rw [errorTexts_withRemarks, errorTexts_records, List.map_nil, List.forall₂_nil_left_iff]
    at entries
  rw [report, entries]
  rfl

/-- What is wrong is printed in entries, one for each diagnostic, and their number behind
them. -/
theorem report_of_diagnostics (shows : logger.ShowsErrors) (command : Command)
    {diagnostics : List Diagnostic} (wrong : diagnostics.isEmpty = false) (lines : List String) :
    Exists fun entries : List String =>
      command.report logger remarks diagnostics lines =
        ⟨1, String.join (lines.map (· ++ "\n")),
          entries ++ [toString diagnostics.length ++ " error(s) in " ++ command.file]⟩ ∧
      List.Forall₂ (fun diagnostic entry =>
        Logger.Shows (command.file ++ ":" ++ diagnostic.toText) entry) diagnostics entries := by
  have entries := shows.entries (LogRecord.withRemarks remarks (command.records diagnostics))
  rw [errorTexts_withRemarks, errorTexts_records, List.forall₂_map_left_iff] at entries
  refine ⟨_, ?_, entries⟩
  rw [report, wrong]
  rfl

/-- Take any parser that understands the options and any logger that shows the errors.  The
command for the disjunctive normal form always ends with a report.  Its status is zero if and
only if the source is compiled.  It prints no error then, and the preconditions that it
shows are those of the compiled domain, although they are converted and shown in turn.
Otherwise it prints an entry for each diagnostic with which the source is refused, in order, and
then their number, and still shows each precondition on a line of its own. -/
theorem run_agrees_with_compile {parser : ArgumentParser} {logger : Logger}
    (understands : parser.Understands) (shows : logger.ShowsErrors) (remarks : Nat -> List String)
    (source : Source) (named : Bool) (lookAhead : Option UInt64) (noValidate : Bool)
    (file : String) :
    let options : Options := .chosen lookAhead noValidate
    let read : Domain := (Domain.read source options).1
    Exists fun arguments : Arguments => Exists fun report : Report =>
      parser.parse (Arguments.spelled named lookAhead noValidate file) = some arguments ∧
      arguments.command.execute logger remarks (.bytes (String.ofList source.chars).toUTF8) =
        some (.ok report) ∧
      (report.status = 0 ↔
        Exists fun domain : Domain => compile source options = some (.ok (.ok domain))) ∧
      (forall domain, compile source options = some (.ok (.ok domain)) ->
        report.errors = [] ∧ Exists fun dumps : List String => domain.Dumps dumps ∧
          (forall dump, dump ∈ dumps -> IsLine dump) ∧
          report.output = Domain.shown domain.world dumps) ∧
      (report.status ≠ 0 -> Exists fun diagnostics : List Diagnostic =>
        Exists fun entries : List String =>
          compile source options = some (.ok (.error (.invalid diagnostics))) ∧
          report.errors = entries ++ [toString diagnostics.length ++ " error(s) in " ++ file] ∧
          List.Forall₂ (fun diagnostic entry => IsLine file -> Exists fun header : String =>
            entry = header ++ (file ++ ":" ++ diagnostic.toText)) diagnostics entries ∧
          Exists fun dumps : List String => dumps.length = read.preconditions.length ∧
            (forall dump, dump ∈ dumps -> IsLine dump) ∧
            report.output = Domain.shown read.world dumps) := by
  intro options read
  let arguments : Arguments := .forNormalForm lookAhead noValidate file
  have chosen : arguments.command = ⟨.dnf, options, file⟩ :=
    congrArg (Command.mk .dnf · file) (Arguments.options_forNormalForm lookAhead noValidate file)
  rcases Domain.lines_advanceTo source options .dnf with
    ⟨converted, dumps, advanced, world, shown, isDump, count, isLine⟩
  have compiled := Domain.compile_of_advanceTo advanced
  have ran := execute_text ⟨.dnf, options, file⟩ logger remarks shown
  cases silent : (Domain.read source options).2.isEmpty with
  | true =>
      rw [silent, if_pos rfl] at compiled
      rw [List.isEmpty_iff.mp silent, report_of_silent shows] at ran
      refine ⟨arguments, _, understands.spelled .., chosen ▸ ran,
        iff_of_true rfl ⟨converted, compiled⟩, fun domain again => ?_,
        fun failed => absurd rfl failed⟩
      have same := compiled.symm.trans again
      rw [← Except.ok.inj (Except.ok.inj (Option.some.inj same))]
      exact ⟨rfl, dumps, isDump, isLine, rfl⟩
  | false =>
      rcases report_of_diagnostics shows ⟨.dnf, options, file⟩ silent _ with
        ⟨entries, reported, areShown⟩
      rw [silent, if_neg Bool.false_ne_true] at compiled
      have refused : forall domain, compile source options ≠ some (.ok (.ok domain)) := by
        intro domain again
        cases compiled.symm.trans again
      have lines : forall diagnostic, diagnostic ∈ (Domain.read source options).2 ->
          IsLine diagnostic.toText := fun _ => Domain.isLine_of_diagnostic
      rw [reported] at ran
      refine ⟨arguments, _, understands.spelled .., chosen ▸ ran,
        iff_of_false Nat.one_ne_zero (fun ⟨domain, again⟩ => refused domain again),
        fun domain again => absurd again (refused domain), fun _ => ?_⟩
      refine ⟨_, entries, compiled, rfl, ?_, dumps, count, isLine, world ▸ rfl⟩
      exact ((List.forall₂_and_left _ _).mpr ⟨lines, areShown⟩).imp (fun _ _ both isFile =>
        both.2 ((isFile.append (by decide)).append both.1))

/-- An operand is missing in the sixth column, and a logger with the time in its header says
so. -/
theorem run_agrees_with_compile_missing_operand :
    let header := "[2024-05-01T12:00:00Z ERROR htnc] "
    let source := Source.ofString "( a& )"
    ArgumentParser.standard.Understands ∧ (Logger.headed header).ShowsErrors ∧
      Exists fun arguments : Arguments => Exists fun report : Report =>
        Exists fun shown : String =>
        ArgumentParser.standard.parse ["--look-ahead", "7", "--no-validate", "--", "domain"] =
          some arguments ∧
        arguments.command.execute (.headed header) (fun _ => ["reading"])
          (.bytes (String.ofList source.chars).toUTF8) = some (.ok report) ∧
        report.status ≠ 0 ∧
        report.errors = [shown ++ "domain:1:6: expected operand, found ')'",
          "1 error(s) in domain"] := by
  intro header source
  have understands := ArgumentParser.understands_standard
  have shows := Logger.showsErrors_headed header
  let options : Options := .chosen (some 7) true
  let missing : Diagnostic := ⟨⟨5, 6⟩, ⟨1, 6⟩, .unexpected .operand .rightParen⟩
  have found : (Domain.read source options).2 = [missing] := by decide +kernel
  rcases Domain.lines_advanceTo source options .dnf with ⟨_, _, advanced, _⟩
  have compiled := Domain.compile_of_advanceTo advanced
  rw [found] at compiled
  rcases run_agrees_with_compile understands shows (fun _ => ["reading"]) source false (some 7)
    true "domain" with ⟨arguments, report, parsed, ran, status, _, refused⟩
  have failed : report.status ≠ 0 := by
    intro succeeded
    rcases status.mp succeeded with ⟨domain, again⟩
    cases compiled.symm.trans again
  rcases refused failed with ⟨diagnostics, entries, again, errors, areShown, _⟩
  cases compiled.symm.trans again
  rcases List.forall₂_cons_left_iff.mp areShown with ⟨entry, others, isShown, none, split⟩
  rcases isShown (by decide) with ⟨shown, isEntry⟩
  rw [List.forall₂_nil_left_iff.mp none] at split
  have text : "domain" ++ ":" ++ missing.toText = "domain:1:6: expected operand, found ')'" := by
    decide +kernel
  have number : toString [missing].length ++ " error(s) in " ++ "domain" =
      "1 error(s) in domain" := by
    decide +kernel
  refine ⟨understands, shows, arguments, report, shown, parsed, ran, failed, ?_⟩
  rw [errors, split, isEntry, text, number]
  rfl

end Command

end PlanningDomain
