namespace PlanningDomain

/-!
# Options

Two settings of a compilation.  The number of tokens to look ahead is raised
to the least one that works where it is used.  Setting it by
`Options.setLookAhead` raises it at once, so that it shows.
-/

/-- The least number of tokens with which a call can be told from a variable
before either is read. -/
def minimumLookAhead : Nat := 2

structure Options where
  /-- How many tokens are held ready, the current one included. -/
  lookAhead : Nat := minimumLookAhead
  /-- Whether calls have to agree with the declared facts. -/
  validateFacts : Bool := true
deriving DecidableEq, Repr

namespace Options

def standard : Options := {}

/-- Choose how many tokens to look ahead, but no fewer than are needed. -/
def setLookAhead (options : Options) (count : Nat) : Options :=
  { options with lookAhead := max count minimumLookAhead }

end Options

end PlanningDomain
