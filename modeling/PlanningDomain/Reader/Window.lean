import PlanningDomain.Token.Lexer

namespace PlanningDomain

/-!
# The window of tokens

A reader sees the tokens of its source through a window that holds the
current token and a fixed number of those after it.  Past the last token the
window holds the token for the end of input, as often as it takes to fill
it.  Reading on moves the window by one token and keeps its width.  What is
still to be read is counted by `remaining`, which does not count the end of
input.  Reading a token lowers it by one, and reading the end of input
leaves it as it is.

A window may be as wide as one likes.  That one of enormous width would not fit
into any memory is left aside.
-/

/-- A current token, the tokens held after it, the tokens that are not held
yet, and the offset at which the input ends. -/
structure Window where
  current : Token
  ahead : List Token
  coming : List Token
  endOffset : Nat

namespace Window

/-- The tokens in the window. -/
def held (window : Window) : List Token :=
  window.current :: window.ahead

/-- The next token to take into the window, and the tokens after it. -/
def draw (endOffset : Nat) : List Token -> Token × List Token
  | [] => (.endAt endOffset, [])
  | token :: rest => (token, rest)

/-- The next tokens, as many as are asked for, and the tokens after them. -/
def drawMany (endOffset : Nat) : Nat -> List Token -> List Token × List Token
  | 0, tokens => ([], tokens)
  | count + 1, tokens =>
      let first := draw endOffset tokens
      let others := drawMany endOffset count first.2
      (first.1 :: others.1, others.2)

/-- A window of some width at the beginning of the tokens.  It holds one
token at least. -/
def start (width : Nat) (tokens : List Token) (endOffset : Nat) : Window :=
  let first := draw endOffset tokens
  let others := drawMany endOffset (width - 1) first.2
  ⟨first.1, others.1, others.2, endOffset⟩

/-- The window one token further on. -/
def advance (window : Window) : Window :=
  let next := draw window.endOffset window.coming
  match window.ahead with
  | [] => { window with current := next.1, coming := next.2 }
  | token :: rest =>
      { window with current := token, ahead := rest ++ [next.1], coming := next.2 }

/-- The token that stands some places after the current one, if the window is
wide enough. -/
def peek? (window : Window) (distance : Nat) : Option Token :=
  window.held[distance]?

/-! ## What is still to be read -/

def isInput (token : Token) : Bool :=
  token.kind != .endOfInput

/-- The number of tokens still to be read, the current one included. -/
def remaining (window : Window) : Nat :=
  window.held.countP isInput + window.coming.countP isInput

theorem countP_draw (endOffset : Nat) (tokens : List Token) :
    [(draw endOffset tokens).1].countP isInput + (draw endOffset tokens).2.countP isInput =
      tokens.countP isInput := by
  cases tokens with
  | nil => rfl
  | cons token rest =>
      simp only [draw, List.countP_cons, List.countP_nil]
      omega

/-- Reading on takes the current token off what remains, and nothing else. -/
theorem remaining_eq_advance (window : Window) :
    window.remaining = [window.current].countP isInput + window.advance.remaining := by
  have drawn := countP_draw window.endOffset window.coming
  unfold remaining held advance
  cases shape : window.ahead with
  | nil => simp only [List.countP_cons, List.countP_nil] at drawn ⊢; omega
  | cons token rest =>
      simp only [List.countP_cons, List.countP_nil, List.countP_append] at drawn ⊢; omega

theorem remaining_advance_le (window : Window) :
    window.advance.remaining ≤ window.remaining := by
  have counted := window.remaining_eq_advance
  omega

theorem remaining_advance_lt {window : Window}
    (input : window.current.kind ≠ .endOfInput) :
    window.advance.remaining < window.remaining := by
  have counted : [window.current].countP isInput = 1 := by
    simp [List.countP_cons, isInput, input]
  rw [window.remaining_eq_advance, counted]
  omega

/-! ## The width stays -/

theorem length_drawMany (endOffset count : Nat) (tokens : List Token) :
    (drawMany endOffset count tokens).1.length = count := by
  induction count generalizing tokens with
  | zero => rfl
  | succ count ih => simp only [drawMany, List.length_cons, ih]

theorem length_held_start (width : Nat) (tokens : List Token) (endOffset : Nat) :
    (start width tokens endOffset).held.length = max width 1 := by
  simp only [start, held, List.length_cons, length_drawMany]
  omega

theorem length_held_advance (window : Window) :
    window.advance.held.length = window.held.length := by
  unfold advance held
  cases window.ahead with
  | nil => simp
  | cons token rest => simp

end Window

end PlanningDomain
