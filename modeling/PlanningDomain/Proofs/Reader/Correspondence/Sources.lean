import PlanningDomain.Proofs.Reader.Correspondence.Basic

namespace PlanningDomain

/-!
# Readers of whole sources that correspond

Outside of preconditions a reader may pass a parenthesis without a partner, so
the number of open groups says nothing there.  If a correspondence does not depend on
it, agrees on the words that name types, and is kept by declarations, then
blocks of facts and whole sources are read alike too.
-/

namespace Reader

/-- Readers that read whole sources alike. -/
structure SourceCorrespondence extends Correspondence where
  anywhere {depth : Nat} {reader other : Reader} (elsewhere : Nat) : relates depth reader other ->
    relates elsewhere reader other
  text_eq {token like : Token} : tokens token like -> token.kind = .identifier ->
    token.text = like.text
  declared {depth : Nat} {reader other : Reader} {token like : Token} (params : List DataType) :
    relates depth reader other -> tokens token like -> token.kind = .identifier ->
      relates depth (reader.declare ⟨token.text, token.span, params⟩)
        (other.declare ⟨like.text, like.span, params⟩)

namespace SourceCorrespondence

variable (c : SourceCorrespondence) {depth : Nat} {reader other : Reader}

/-- Any token but the end of input is passed. -/
theorem skipped (related : c.relates depth reader other)
    (notEnded : reader.sees .endOfInput = false) :
    c.relates depth reader.advance other.advance := by
  cases opens : reader.sees .leftParen with
  | true => exact c.anywhere depth (c.opened related opens)
  | false =>
      cases closes : reader.sees .rightParen with
      | true => exact c.closed (c.anywhere (depth + 1) related) closes
      | false =>
          apply c.advanced related opens
          rw [atGroupEnd, closes, notEnded]
          rfl

/-! ## Declarations -/

theorem parameter (related : c.relates depth reader other) :
    c.relates depth reader.parameter.reader other.parameter.reader ∧
      reader.parameter.value = other.parameter.value := by
  cases named : reader.sees .identifier with
  | false =>
      have unnamed := c.unseen_of related named
      rw [parameter_of_missing named, parameter_of_missing unnamed,
        value_parameter_of_missing named, value_parameter_of_missing unnamed]
      exact ⟨c.unexpected related .parameterType, rfl⟩
  | true =>
      have seen := c.sees_of related named
      have same := c.text_eq (c.current related) (beq_iff_eq.mp named)
      have moved := c.passed related named (by decide)
      cases known : DataType.ofKeyword? reader.current.text with
      | some type =>
          rcases parameter_of_known named known with ⟨value, after⟩
          rcases parameter_of_known seen (same ▸ known) with ⟨result, reached⟩
          rw [value, after, result, reached]
          exact ⟨moved, rfl⟩
      | none =>
          rw [parameter_of_unknown named known, parameter_of_unknown seen (same ▸ known),
            value_parameter_of_named named, value_parameter_of_named seen, ← same]
          exact ⟨c.reported _ moved (c.current related), rfl⟩

theorem parameters (reader : Reader) : forall {depth : Nat} {other : Reader},
    c.relates depth reader other ->
      c.relates depth reader.parameters.reader other.parameters.reader ∧
        reader.parameters.value = other.parameters.value := by
  induction reader using Reader.parameters.induct with
  | case1 reader first _ separated _ ih =>
      intro depth other related
      rcases c.parameter related with ⟨between, value⟩
      rcases parameters_of_comma separated with ⟨values, ends⟩
      rcases parameters_of_comma (c.sees_of between separated) with ⟨results, reached⟩
      rcases ih (c.passed between separated (by decide)) with ⟨left, others⟩
      rw [values, ends, results, reached, value, others]
      exact ⟨left, rfl⟩
  | case2 reader first _ =>
      rename_i unseparated
      intro depth other related
      have unseparated := Bool.eq_false_iff.mpr unseparated
      rcases c.parameter related with ⟨between, value⟩
      rcases parameters_of_not_comma unseparated with ⟨values, ends⟩
      rcases parameters_of_not_comma (c.unseen_of between unseparated) with ⟨results, reached⟩
      rw [values, ends, results, reached, value]
      exact ⟨between, rfl⟩

theorem parameterList (related : c.relates depth reader other) :
    c.relates depth reader.parameterList.reader other.parameterList.reader ∧
      reader.parameterList.value = other.parameterList.value := by
  cases opens : reader.sees .leftParen with
  | false =>
      have unopened := c.unseen_of related opens
      rw [parameterList_of_missing opens, parameterList_of_missing unopened,
        value_parameterList_of_missing opens, value_parameterList_of_missing unopened]
      exact ⟨c.unexpected related .openingParen, rfl⟩
  | true =>
      have seen := c.sees_of related opens
      have inside := c.opened related opens
      cases closes : reader.advance.sees .rightParen with
      | true =>
          rcases parameterList_of_empty opens closes with ⟨values, ends⟩
          rcases parameterList_of_empty seen (c.sees_of inside closes) with ⟨results, reached⟩
          rw [values, ends, results, reached]
          exact ⟨c.closed inside closes, rfl⟩
      | false =>
          rcases parameterList_of_types opens closes with ⟨values, ends⟩
          rcases parameterList_of_types seen (c.unseen_of inside closes) with ⟨results, reached⟩
          rcases c.parameters _ inside with ⟨between, same⟩
          rw [values, ends, results, reached, same]
          exact ⟨c.closeGroup between ⟨_, _, c.current related, rfl, rfl⟩, rfl⟩

theorem factDeclaration (related : c.relates depth reader other)
    (named : reader.sees .identifier = true) :
    c.relates depth reader.factDeclaration other.factDeclaration := by
  rcases c.parameterList (c.passed related named (by decide)) with ⟨left, same⟩
  simp only [Reader.factDeclaration, ← same]
  exact c.declared _ left (c.current related) (beq_iff_eq.mp named)

theorem factDeclarations {opened like : Span} (alike : c.spans opened like) (reader : Reader) :
    forall {depth : Nat} {other : Reader}, c.relates depth reader other ->
      c.relates depth (factDeclarations opened reader).reader
        (Reader.factDeclarations like other).reader := by
  induction reader using Reader.factDeclarations.induct opened with
  | case1 reader closes =>
      intro depth other related
      have notEnded := sees_eq_false_of_sees closes (by decide : TokenKind.rightBrace ≠ .endOfInput)
      rw [factDeclarations_of_close closes, factDeclarations_of_close (c.sees_of related closes)]
      exact c.skipped related notEnded
  | case2 reader unclosed ended =>
      intro depth other related
      rw [factDeclarations_of_end ended, factDeclarations_of_end (c.sees_of related ended)]
      exact c.reported_span related alike .unterminatedFactBlock
  | case3 reader unclosed notEnded _ named _ ih =>
      intro depth other related
      rw [factDeclarations_of_name named, factDeclarations_of_name (c.sees_of related named)]
      exact ih (c.factDeclaration related named)
  | case4 reader unclosed notEnded _ unnamed ih =>
      intro depth other related
      have unclosed := Bool.eq_false_iff.mpr unclosed
      have notEnded := Bool.eq_false_iff.mpr notEnded
      have unnamed := Bool.eq_false_iff.mpr unnamed
      rw [factDeclarations_of_other unclosed notEnded unnamed, factDeclarations_of_other
        (c.unseen_of related unclosed) (c.unseen_of related notEnded) (c.unseen_of related unnamed)]
      exact ih (c.skipped (c.unexpected related .factDeclaration) notEnded)

theorem factBlock (related : c.relates depth reader other) :
    c.relates depth reader.factBlock.reader other.factBlock.reader := by
  cases block : reader.sees .fact with
  | false =>
      rw [factBlock_of_missing block, factBlock_of_missing (c.unseen_of related block)]
      exact c.unexpected related .factKeyword
  | true =>
      have inside := c.passed related block (by decide)
      cases opens : reader.advance.sees .leftBrace with
      | false =>
          rw [factBlock_of_unopened block opens,
            factBlock_of_unopened (c.sees_of related block) (c.unseen_of inside opens)]
          exact c.unexpected inside .openingBrace
      | true =>
          rw [factBlock_of_opens block opens,
            factBlock_of_opens (c.sees_of related block) (c.sees_of inside opens)]
          exact c.factDeclarations ⟨_, _, c.current inside, rfl, rfl⟩ _
            (c.passed inside opens (by decide))

/-! ## Whole sources -/

theorem preconditions (reader : Reader) : forall {depth : Nat} {other : Reader},
    c.relates depth reader other ->
      c.relates depth reader.preconditions.2 other.preconditions.2 ∧
        List.Forall₂ c.nodes reader.preconditions.1 other.preconditions.1 := by
  induction reader using Reader.preconditions.induct with
  | case1 reader ended =>
      intro depth other related
      rw [preconditions_of_end ended, preconditions_of_end (c.sees_of related ended)]
      exact ⟨related, .nil⟩
  | case2 reader notEnded block _ ih =>
      intro depth other related
      rw [preconditions_of_fact block, preconditions_of_fact (c.sees_of related block)]
      exact ih (c.factBlock related)
  | case3 reader notEnded notBlock opens _ ih =>
      intro depth other related
      rw [preconditions_of_opens opens, preconditions_of_opens (c.sees_of related opens)]
      rcases c.precondition related with ⟨between, alike⟩
      rcases ih between with ⟨left, same⟩
      exact ⟨left, .cons alike same⟩
  | case4 reader notEnded notBlock unopened _ ih =>
      intro depth other related
      have notEnded := Bool.eq_false_iff.mpr notEnded
      have notBlock := Bool.eq_false_iff.mpr notBlock
      have unopened := Bool.eq_false_iff.mpr unopened
      rw [preconditions_of_other notEnded notBlock unopened, preconditions_of_other
        (c.unseen_of related notEnded) (c.unseen_of related notBlock)
        (c.unseen_of related unopened)]
      exact ih (c.skipped (c.unexpected related .declarationOrPrecondition) notEnded)

/-- If only equal handles and kinds correspond, the same is read. -/
theorem preconditions_eq (handles : forall {first second}, c.handles first second -> first = second)
    (kinds : forall {first second}, c.kinds first second -> first = second)
    (related : c.relates depth reader other) : reader.preconditions.1 = other.preconditions.1 := by
  have same := (c.preconditions reader related).2.imp (fun node _ alike =>
    Node.Corresponds.eq handles kinds node alike)
  rwa [List.forall₂_eq_eq_eq] at same

end SourceCorrespondence

end Reader

end PlanningDomain
