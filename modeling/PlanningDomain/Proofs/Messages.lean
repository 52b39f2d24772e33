import PlanningDomain.Proofs.Dumps
import PlanningDomain.Proofs.Reader.Summaries

namespace PlanningDomain

/-!
# Diagnostics are lines

The words of a problem are fixed, up to a name or a number in them.  The names are
identifiers of the source, which do not go over the end of a line.  So whatever is
wrong with a source, each diagnostic is written down in a single line.
-/

/-! ## Lines of words and numbers -/

namespace IsLine

theorem ofNat (number : Nat) : IsLine (toString number) :=
  fun feed => absurd (isDigit_of_mem_toString feed) (by decide)

theorem tokenKind (kind : TokenKind) : IsLine kind.description := by
  cases kind
  all_goals decide

theorem expectation (expected : Expectation) : IsLine expected.description := by
  cases expected
  all_goals decide

end IsLine

/-- A message is a line if the word that it names is one. -/
theorem Problem.isLine_message {problem : Problem}
    (isLine : forall word, problem.word? = some word -> IsLine word) : IsLine problem.message := by
  cases problem with
  | unexpected expected found =>
      have before := (by decide : IsLine "expected ").append (.expectation expected)
      exact (before.append (by decide)).append (.tokenKind found)
  | unknownType word =>
      exact ((by decide : IsLine "unknown type '").append (isLine word rfl)).append (by decide)
  | redeclaredFact name =>
      exact ((by decide : IsLine "fact '").append (isLine name rfl)).append (by decide)
  | unknownFact name =>
      exact ((by decide : IsLine "unknown fact '").append (isLine name rfl)).append (by decide)
  | wrongArity name arity found =>
      have before := ((by decide : IsLine "fact '").append (isLine name rfl)).append
        (by decide : IsLine "' expects ")
      exact ((before.append (.ofNat arity)).append (by decide)).append (.ofNat found)
  | remark text => exact isLine text rfl
  | _ => decide

theorem Diagnostic.isLine_toText {diagnostic : Diagnostic}
    (isLine : IsLine diagnostic.problem.message) : IsLine diagnostic.toText := by
  have place := ((IsLine.ofNat diagnostic.position.line).append (by decide : IsLine ":")).append
    (.ofNat diagnostic.position.column)
  exact (place.append (by decide)).append isLine

/-! ## The words that are named -/

namespace Reader

/-- All that was said so far is said in lines. -/
def SpeaksInLines (reader : Reader) : Prop :=
  forall diagnostic, diagnostic ∈ reader.diagnostics -> IsLine diagnostic.problem.message

variable {source : Source} {reader : Reader}

theorem SpeaksInLines.report (soFar : reader.SpeaksInLines) (span : Span) {problem : Problem}
    (isLine : forall word, problem.word? = some word -> IsLine word) :
    (reader.report span problem).SpeaksInLines := by
  refine List.forall_mem_append.mpr ⟨soFar, List.forall_mem_singleton.mpr ?_⟩
  exact Problem.isLine_message isLine

theorem SpeaksInLines.checkCall (soFar : reader.SpeaksInLines) {name : Token}
    (isLine : IsLine name.text) (found : Nat) : (reader.checkCall name found).SpeaksInLines := by
  rw [checkCall_eq]
  cases wrong : reader.callProblem? name found with
  | none => exact soFar
  | some problem =>
      refine soFar.report name.span (fun word named => ?_)
      rw [← Option.some.inj ((names_of_callProblem wrong).2.symm.trans named)]
      exact isLine

theorem SpeaksInLines.declare (soFar : reader.SpeaksInLines) {fact : Fact}
    (isLine : IsLine fact.name) : (reader.declare fact).SpeaksInLines := by
  unfold Reader.declare
  split
  case h_1 => exact soFar
  case h_2 => exact soFar.report fact.span (fun word named => Option.some.inj named ▸ isLine)

/-- The names in a window on a source are lines. -/
theorem isLine_of_within (inside : (within source).holds reader)
    (named : reader.sees .identifier = true) : IsLine reader.current.text := by
  have isName : reader.current.kind = .identifier := beq_iff_eq.mp named
  exact .of_identifier (current_of_within inside (isName ▸ by decide)) isName

/-- A reader goes on to speak in lines as it reads its source. -/
def speech (source : Source) : Summary where
  holds := fun before _ after => (within source).holds before ∧ before.SpeaksInLines ->
    (within source).holds after ∧ after.SpeaksInLines
  nothing := fun _ soFar => soFar
  trans := fun first later soFar => later (first soFar)
  advanced := fun _ soFar => ⟨(within source).advanced soFar.1, soFar.2⟩
  reported := fun _ span _ wordless soFar => ⟨soFar.1, soFar.2.report span (fun word named =>
    (Option.some_ne_none word (named.symm.trans wordless)).elim)⟩
  unknownType := by
    intro reader named soFar
    refine ⟨(within source).advanced soFar.1, ?_⟩
    exact SpeaksInLines.report soFar.2 _ (fun word isWord =>
      Option.some.inj isWord ▸ isLine_of_within soFar.1 named)
  reserved := fun _ soFar => soFar
  node := fun _ _ _ read => read
  call := by
    intro before after nodes _ named _ read soFar
    have later := read ⟨(within source).advanced soFar.1, soFar.2⟩
    exact ⟨(within source).checked _ _ later.1,
      later.2.checkCall (isLine_of_within soFar.1 named) nodes.length⟩
  declared := by
    intro before after params named _ read soFar
    have later := read ⟨(within source).advanced soFar.1, soFar.2⟩
    exact ⟨(within source).declared _ later.1,
      later.2.declare (isLine_of_within soFar.1 named)⟩

end Reader

/-- Every diagnostic of a source is a single line. -/
theorem Domain.isLine_of_diagnostic {source : Source} {options : Options} {diagnostic : Diagnostic}
    (reported : diagnostic ∈ (Domain.read source options).2) : IsLine diagnostic.toText := by
  have atStart : (Reader.start source options).SpeaksInLines :=
    fun _ impossible => (List.not_mem_nil impossible).elim
  have atEnd := (Reader.speech source).preconditions (Reader.start source options)
    ⟨Reader.within_start source options, atStart⟩
  exact Diagnostic.isLine_toText (atEnd.2 diagnostic reported)

end PlanningDomain
