import PlanningDomain.Proofs.Reader.Sources

namespace PlanningDomain

/-!
# The branches of the loops

What each loop of a reader does is said here branch by branch, given what the
reader sees.  The bounds that make the loops come to an end are left out.
-/

/-- Only the kind of a token decides whether it denotes a constant. -/
theorem Token.isSome_constant {token : Token}
    (kinds : token.kind = .integer ∨ token.kind = .float ∨ token.kind = .string) :
    token.constant?.isSome = true := by
  unfold constant?
  rcases kinds with kind | kind | kind
  · rw [kind]
    dsimp only
    split <;> rfl
  · rw [kind]
    rfl
  · rw [kind]
    rfl

namespace Reader

/-! ## Skipping -/

section Skipping

variable {reader : Reader} {depth : Nat}

theorem skipGroup_of_end (ended : reader.sees .endOfInput = true) :
    skipGroup depth reader = reader := by
  rw [skipGroup, dif_pos ended]

theorem skipGroup_of_close (closes : reader.sees .rightParen = true) :
    skipGroup 0 reader = reader := by
  have notEnded := sees_eq_false_of_sees closes (by decide : TokenKind.rightParen ≠ .endOfInput)
  rw [skipGroup, dif_neg (Bool.eq_false_iff.mp notEnded), if_pos (by rw [closes]; rfl)]

theorem skipGroup_of_inside (notEnded : ¬ reader.sees .endOfInput = true)
    (unclosed : ¬ (reader.sees .rightParen && depth == 0) = true) :
    skipGroup depth reader = skipGroup (depthAfter depth reader.current.kind) reader.advance := by
  rw [skipGroup, dif_neg notEnded, if_neg unclosed]

/-- Only parentheses change the number of open groups. -/
theorem depthAfter_of_inside (unopened : reader.sees .leftParen = false)
    (inside : reader.atGroupEnd = false) : depthAfter depth reader.current.kind = depth := by
  rcases Bool.or_eq_false_iff.mp inside with ⟨unclosed, _⟩
  unfold depthAfter
  split
  case h_1 kind => rw [sees, kind] at unopened; exact Bool.noConfusion unopened
  case h_2 kind => rw [sees, kind] at unclosed; exact Bool.noConfusion unclosed
  case h_3 => rfl

theorem atGroupEnd_skipGroup (depth : Nat) (reader : Reader) :
    (skipGroup depth reader).atGroupEnd = true := by
  induction depth, reader using skipGroup.induct with
  | case1 depth reader ended => rw [skipGroup_of_end ended, atGroupEnd, ended, Bool.or_true]
  | case2 depth reader _ closes =>
      rcases Bool.and_eq_true_iff.mp closes with ⟨closing, outermost⟩
      rw [beq_iff_eq.mp outermost, skipGroup_of_close closing, atGroupEnd, closing, Bool.true_or]
  | case3 depth reader notEnded closes _ ih => rw [skipGroup_of_inside notEnded closes, ih]

end Skipping

/-! ## Declarations and whole sources -/

section Sources

variable {reader : Reader} {opened : Span}

theorem precondition_of_unopened (unopened : reader.sees .leftParen = false) :
    reader.precondition = (reader.unexpected .preconditionStart).conjoin [] := by
  unfold precondition
  rw [if_neg (Bool.eq_false_iff.mp unopened)]

theorem value_parameter_of_named (named : reader.sees .identifier = true) :
    reader.parameter.value = DataType.ofKeyword? reader.current.text := by
  unfold parameter
  rw [if_pos named]

theorem value_parameter_of_missing (unnamed : reader.sees .identifier = false) :
    reader.parameter.value = none := by
  unfold parameter
  rw [if_neg (Bool.eq_false_iff.mp unnamed)]

theorem value_parameterList_of_missing (unopened : reader.sees .leftParen = false) :
    reader.parameterList.value = [] := by
  unfold parameterList
  rw [if_neg (Bool.eq_false_iff.mp unopened)]

theorem factDeclarations_of_close (closes : reader.sees .rightBrace = true) :
    (factDeclarations opened reader).reader = reader.advance := by
  rw [factDeclarations, if_pos closes]

theorem factDeclarations_of_end (ended : reader.sees .endOfInput = true) :
    (factDeclarations opened reader).reader = reader.report opened .unterminatedFactBlock := by
  have unclosed := sees_eq_false_of_sees ended (by decide : TokenKind.endOfInput ≠ .rightBrace)
  rw [factDeclarations, if_neg (Bool.eq_false_iff.mp unclosed), dif_pos ended]

theorem factDeclarations_of_name (named : reader.sees .identifier = true) :
    (factDeclarations opened reader).reader =
      (factDeclarations opened reader.factDeclaration).reader := by
  have unclosed := sees_eq_false_of_sees named (by decide : TokenKind.identifier ≠ .rightBrace)
  have notEnded := sees_eq_false_of_sees named (by decide : TokenKind.identifier ≠ .endOfInput)
  rw [factDeclarations, if_neg (Bool.eq_false_iff.mp unclosed),
    dif_neg (Bool.eq_false_iff.mp notEnded), if_pos named]

theorem factDeclarations_of_other (unclosed : reader.sees .rightBrace = false)
    (notEnded : reader.sees .endOfInput = false) (unnamed : reader.sees .identifier = false) :
    (factDeclarations opened reader).reader =
      (factDeclarations opened (reader.unexpected .factDeclaration).advance).reader := by
  rw [factDeclarations, if_neg (Bool.eq_false_iff.mp unclosed),
    dif_neg (Bool.eq_false_iff.mp notEnded), if_neg (Bool.eq_false_iff.mp unnamed)]

theorem factBlock_of_missing (notBlock : reader.sees .fact = false) :
    reader.factBlock.reader = reader.unexpected .factKeyword := by
  unfold factBlock
  rw [if_neg (Bool.eq_false_iff.mp notBlock)]

theorem factBlock_of_unopened (block : reader.sees .fact = true)
    (unopened : reader.advance.sees .leftBrace = false) :
    reader.factBlock.reader = reader.advance.unexpected .openingBrace := by
  unfold factBlock
  simp only [if_pos block, if_neg (Bool.eq_false_iff.mp unopened)]

theorem factBlock_of_opens (block : reader.sees .fact = true)
    (opens : reader.advance.sees .leftBrace = true) :
    reader.factBlock.reader =
      (factDeclarations reader.advance.current.span reader.advance.advance).reader := by
  unfold factBlock
  simp only [if_pos block, if_pos opens]

theorem preconditions_of_end (ended : reader.sees .endOfInput = true) :
    reader.preconditions = ([], reader) := by
  rw [preconditions, dif_pos ended]

theorem preconditions_of_fact (block : reader.sees .fact = true) :
    reader.preconditions = reader.factBlock.reader.preconditions := by
  have notEnded := sees_eq_false_of_sees block (by decide : TokenKind.fact ≠ .endOfInput)
  rw [preconditions, dif_neg (Bool.eq_false_iff.mp notEnded), dif_pos block]

theorem preconditions_of_opens (opens : reader.sees .leftParen = true) :
    reader.preconditions = (reader.precondition.1 :: reader.precondition.2.preconditions.1,
      reader.precondition.2.preconditions.2) := by
  have notEnded := sees_eq_false_of_sees opens (by decide : TokenKind.leftParen ≠ .endOfInput)
  have notBlock := sees_eq_false_of_sees opens (by decide : TokenKind.leftParen ≠ .fact)
  rw [preconditions, dif_neg (Bool.eq_false_iff.mp notEnded),
    dif_neg (Bool.eq_false_iff.mp notBlock), dif_pos opens]

theorem preconditions_of_other (notEnded : reader.sees .endOfInput = false)
    (notBlock : reader.sees .fact = false) (unopened : reader.sees .leftParen = false) :
    reader.preconditions =
      (reader.unexpected .declarationOrPrecondition).advance.preconditions := by
  rw [preconditions, dif_neg (Bool.eq_false_iff.mp notEnded),
    dif_neg (Bool.eq_false_iff.mp notBlock), dif_neg (Bool.eq_false_iff.mp unopened)]

end Sources

end Reader

end PlanningDomain
