import PlanningDomain.Reader.Basic

namespace PlanningDomain

/-!
# Reading declarations

A block of facts declares a world.  Each declaration names a kind of facts
and lists the types of its parameters.  A word that names no type is reported
and left out of the list.  The declaration is made all the same, unless its
name is declared already.
-/

namespace Reader

/-- Read one parameter type, if there is one. -/
def parameter (reader : Reader) : Outcome reader (Option DataType) :=
  let token := reader.current
  if reader.sees .identifier then
    { value := DataType.ofKeyword? token.text
      reader :=
        match DataType.ofKeyword? token.text with
        | some _ => reader.advance
        | none => reader.advance.report token.span (.unknownType token.text)
      bound := by split <;> exact reader.remaining_advance_le }
  else ⟨none, reader.unexpected .parameterType, Nat.le_refl _⟩

/-- Read parameter types as long as commas follow. -/
def parameters (reader : Reader) : Outcome reader (List DataType) :=
  let first := reader.parameter
  have _bound := first.bound
  if separated : first.reader.sees .comma then
    have shorter := remaining_advance_lt separated (by decide)
    let others := parameters first.reader.advance
    { value := first.value.toList ++ others.value
      reader := others.reader
      bound := Nat.le_trans others.bound (Nat.le_trans (Nat.le_of_lt shorter) first.bound) }
  else ⟨first.value.toList, first.reader, first.bound⟩
termination_by reader.remaining
decreasing_by
  simp +zetaDelta only at *
  omega

/-- Read the list of parameter types in its parentheses. -/
def parameterList (reader : Reader) : Outcome reader (List DataType) :=
  if reader.sees .leftParen then
    let inside := reader.advance
    if inside.sees .rightParen then
      ⟨[], inside.advance, Nat.le_trans inside.remaining_advance_le reader.remaining_advance_le⟩
    else
      let found := inside.parameters
      { value := found.value
        reader := found.reader.closeGroup reader.current.span
        bound :=
          Nat.le_trans (found.reader.remaining_closeGroup_le reader.current.span)
            (Nat.le_trans found.bound reader.remaining_advance_le) }
  else ⟨[], reader.unexpected .openingParen, Nat.le_refl _⟩

/-- Declare a kind of facts.  A name that is declared already is reported. -/
def declare (reader : Reader) (fact : Fact) : Reader :=
  match reader.world.declare fact with
  | .ok world => { reader with world := world }
  | .error _ => reader.report fact.span (.redeclaredFact fact.name)

theorem remaining_declare (reader : Reader) (fact : Fact) :
    (reader.declare fact).remaining = reader.remaining := by
  unfold declare
  split <;> rfl

/-- Read the declaration whose name is the current token. -/
def factDeclaration (reader : Reader) : Reader :=
  let name := reader.current
  let params := reader.advance.parameterList
  params.reader.declare ⟨name.text, name.span, params.value⟩

theorem remaining_factDeclaration_le (reader : Reader) :
    reader.factDeclaration.remaining ≤ reader.advance.remaining := by
  unfold factDeclaration
  rw [remaining_declare]
  exact reader.advance.parameterList.bound

/-- Read declarations up to the brace that closes a block, given the range of
the brace that opened it. -/
def factDeclarations (opened : Span) (reader : Reader) : Outcome reader Unit :=
  if reader.sees .rightBrace then
    ⟨(), reader.advance, reader.remaining_advance_le⟩
  else if ended : reader.sees .endOfInput then
    ⟨(), reader.report opened .unterminatedFactBlock, Nat.le_refl _⟩
  else
    have shorter : reader.advance.remaining < reader.remaining :=
      Window.remaining_advance_lt (fun same => ended (beq_iff_eq.mpr same))
    if reader.sees .identifier then
      have _bound := reader.remaining_factDeclaration_le
      let others := factDeclarations opened reader.factDeclaration
      { value := ()
        reader := others.reader
        bound := Nat.le_trans others.bound (Nat.le_of_lt (Nat.lt_of_le_of_lt _bound shorter)) }
    else
      let others := factDeclarations opened (reader.unexpected .factDeclaration).advance
      { value := ()
        reader := others.reader
        bound := Nat.le_trans others.bound (Nat.le_of_lt shorter) }
termination_by reader.remaining
decreasing_by
  · exact Nat.lt_of_le_of_lt _bound shorter
  · exact shorter

/-- Read a block of facts. -/
def factBlock (reader : Reader) : Outcome reader Unit :=
  if reader.sees .fact then
    let opening := reader.advance
    if opening.sees .leftBrace then
      let block := factDeclarations opening.current.span opening.advance
      { value := ()
        reader := block.reader
        bound :=
          Nat.le_trans block.bound
            (Nat.le_trans opening.remaining_advance_le reader.remaining_advance_le) }
    else ⟨(), opening.unexpected .openingBrace, reader.remaining_advance_le⟩
  else ⟨(), reader.unexpected .factKeyword, Nat.le_refl _⟩

theorem remaining_factBlock_lt {reader : Reader} (seen : reader.sees .fact = true) :
    reader.factBlock.reader.remaining < reader.remaining := by
  have shorter := remaining_advance_lt seen (by decide)
  unfold factBlock
  rw [if_pos seen]
  by_cases opens : reader.advance.sees .leftBrace = true
  · simp only [if_pos opens]
    exact Nat.lt_of_le_of_lt
      (Nat.le_trans (factDeclarations _ _).bound (remaining_advance_le _)) shorter
  · simp only [if_neg opens]
    exact shorter

end Reader

end PlanningDomain
