import PlanningDomain.Diagnostic
import PlanningDomain.Forest.Basic
import PlanningDomain.Options
import PlanningDomain.Reader.Window
import PlanningDomain.World

namespace PlanningDomain

/-!
# Readers

A reader goes through the tokens of a source once.  On its way it builds
expressions, declares facts and collects diagnostics.  It never gives up.
Where the source is in error, the reader reports what is wrong and goes on
after the parenthesis that closes the current group.

Every step of a reader says how much of the input it leaves.  An `Outcome`
carries the proof that nothing was unread.  A `Reading` carries in addition
the proof that something was read unless the group was at its end.  These
bounds are what makes every loop of a reader come to its end.
-/

/-- A source in the course of being read. -/
structure Reader where
  source : Source
  options : Options
  window : Window
  forest : Forest
  world : World
  diagnostics : List Diagnostic

namespace Reader

/-- A reader at the beginning of a source. -/
def start (source : Source) (options : Options) : Reader where
  source := source
  options := options
  window := .start (max options.lookAhead minimumLookAhead) source.tokens source.size
  forest := .empty
  world := .empty
  diagnostics := []

/-! ## Tokens -/

def current (reader : Reader) : Token :=
  reader.window.current

/-- Whether the current token has a kind. -/
def sees (reader : Reader) (kind : TokenKind) : Bool :=
  reader.current.kind == kind

/-- Whether the token after the current one has a kind. -/
def seesNext (reader : Reader) (kind : TokenKind) : Bool :=
  (reader.window.peek? 1).any (fun token => token.kind == kind)

/-- Whether the current token closes a group or ends the input. -/
def atGroupEnd (reader : Reader) : Bool :=
  reader.sees .rightParen || reader.sees .endOfInput

def advance (reader : Reader) : Reader :=
  { reader with window := reader.window.advance }

/-- How many tokens are still to be read. -/
def remaining (reader : Reader) : Nat :=
  reader.window.remaining

theorem remaining_advance_le (reader : Reader) : reader.advance.remaining ≤ reader.remaining :=
  reader.window.remaining_advance_le

theorem remaining_advance_lt {reader : Reader} {kind : TokenKind}
    (seen : reader.sees kind = true) (input : kind ≠ .endOfInput) :
    reader.advance.remaining < reader.remaining := by
  apply Window.remaining_advance_lt
  intro ended
  exact input ((beq_iff_eq.mp seen).symm.trans ended)

theorem remaining_advance_lt_of_inside {reader : Reader} (inside : reader.atGroupEnd = false) :
    reader.advance.remaining < reader.remaining := by
  apply Window.remaining_advance_lt
  intro ended
  have seen : reader.sees .endOfInput = true := beq_iff_eq.mpr ended
  rw [atGroupEnd, seen, Bool.or_true] at inside
  cases inside

/-! ## Reports and nodes -/

/-- Note a problem with a range of the source. -/
def report (reader : Reader) (span : Span) (problem : Problem) : Reader :=
  { reader with diagnostics := reader.diagnostics ++ [reader.source.diagnose span problem] }

/-- Note that the current token is not what was expected. -/
def unexpected (reader : Reader) (expected : Expectation) : Reader :=
  reader.report reader.current.span (.unexpected expected reader.current.kind)

/-- The handle of the next new node. -/
def nextHandle (reader : Reader) : Handle :=
  reader.forest.allocated

/-- Give out the next handle. -/
def reserve (reader : Reader) : Reader :=
  { reader with forest := reader.forest.reserve }

@[simp] theorem remaining_report (reader : Reader) (span : Span) (problem : Problem) :
    (reader.report span problem).remaining = reader.remaining := rfl

@[simp] theorem remaining_unexpected (reader : Reader) (expected : Expectation) :
    (reader.unexpected expected).remaining = reader.remaining := rfl

@[simp] theorem remaining_reserve (reader : Reader) :
    reader.reserve.remaining = reader.remaining := rfl

@[simp] theorem sees_unexpected (reader : Reader) (expected : Expectation) (kind : TokenKind) :
    (reader.unexpected expected).sees kind = reader.sees kind := rfl

@[simp] theorem atGroupEnd_unexpected (reader : Reader) (expected : Expectation) :
    (reader.unexpected expected).atGroupEnd = reader.atGroupEnd := rfl

/-! ## Ends of groups -/

/-- The number of groups that are open after a token, given how many were
open before it. -/
def depthAfter (depth : Nat) : TokenKind -> Nat
  | .leftParen => depth + 1
  | .rightParen => depth - 1
  | _ => depth

/-- Skip to the parenthesis that closes the current group, or to the end of
the input.  The parenthesis itself is not skipped. -/
def skipGroup (depth : Nat) (reader : Reader) : Reader :=
  if ended : reader.sees .endOfInput = true then reader
  else if reader.sees .rightParen && depth == 0 then reader
  else
    have _shorter : reader.advance.remaining < reader.remaining :=
      Window.remaining_advance_lt (fun same => ended (beq_iff_eq.mpr same))
    skipGroup (depthAfter depth reader.current.kind) reader.advance
termination_by reader.remaining

theorem remaining_skipGroup_le (depth : Nat) (reader : Reader) :
    (skipGroup depth reader).remaining ≤ reader.remaining := by
  induction depth, reader using skipGroup.induct with
  | case1 depth reader ended =>
      exact Nat.le_of_eq (congrArg remaining (by rw [skipGroup, dif_pos ended]))
  | case2 depth reader ended closes =>
      exact Nat.le_of_eq
        (congrArg remaining (by rw [skipGroup, dif_neg ended, if_pos closes]))
  | case3 depth reader ended closes _ ih =>
      rw [skipGroup, dif_neg ended, if_neg closes]
      exact Nat.le_trans ih reader.remaining_advance_le

theorem remaining_skipGroup_lt {depth : Nat} {reader : Reader}
    (inside : reader.atGroupEnd = false) :
    (skipGroup depth reader).remaining < reader.remaining := by
  have parts := Bool.or_eq_false_iff.mp inside
  rw [skipGroup, dif_neg (Bool.eq_false_iff.mp parts.2), if_neg (by simp [parts.1])]
  exact Nat.lt_of_le_of_lt (remaining_skipGroup_le _ _) (remaining_advance_lt_of_inside inside)

/-- Skip the rest of the current group. -/
def recover (reader : Reader) : Reader :=
  skipGroup 0 reader

/-- Read the parenthesis that closes the group opened at a range.  Whatever
stands before it is reported and skipped, and so is its absence. -/
def closeGroup (reader : Reader) (opened : Span) : Reader :=
  let closing :=
    if reader.atGroupEnd then reader else (reader.unexpected .closingParen).recover
  if closing.sees .rightParen then closing.advance
  else closing.report opened .unbalancedParen

theorem remaining_closeGroup_le (reader : Reader) (opened : Span) :
    (reader.closeGroup opened).remaining ≤ reader.remaining := by
  have skipped := remaining_skipGroup_le 0 (reader.unexpected .closingParen)
  have closed : forall closing : Reader, closing.remaining ≤ reader.remaining ->
      (if closing.sees .rightParen then closing.advance
        else closing.report opened .unbalancedParen).remaining ≤ reader.remaining := by
    intro closing bound
    split
    · exact Nat.le_trans closing.remaining_advance_le bound
    · exact bound
  unfold closeGroup
  apply closed
  split
  · exact Nat.le_refl _
  · exact skipped

end Reader

/-! ## Results with their bounds -/

/-- A result together with the reader after it. -/
structure Outcome (before : Reader) (alpha : Type) where
  value : alpha
  reader : Reader
  bound : reader.remaining ≤ before.remaining

/-- A result for which something was read, unless there was nothing to read
in the current group. -/
structure Reading (before : Reader) (alpha : Type) extends Outcome before alpha where
  progress : before.atGroupEnd = false -> reader.remaining < before.remaining

end PlanningDomain
