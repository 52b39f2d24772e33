import PlanningDomain.Source.Text

namespace PlanningDomain

/-!
# Tokens

A token carries its kind, its range in the source and its text.  The text is
kept beside the range, so that nothing that reads tokens has to go back to
the source for it.
-/

/-- The kinds of tokens.  `unknown` stands for text that begins no token, and
`endOfInput` follows the last token of every source. -/
inductive TokenKind where
  | leftParen
  | rightParen
  | leftBrace
  | rightBrace
  | comma
  | not
  | and
  | or
  | equal
  | notEqual
  | less
  | lessEqual
  | greater
  | greaterEqual
  | plus
  | minus
  | multiply
  | divide
  | fact
  | identifier
  | integer
  | float
  | string
  | unknown
  | endOfInput
deriving DecidableEq, Repr

namespace TokenKind

/-- The words by which messages name a kind of token. -/
def description : TokenKind -> String
  | leftParen => "'('"
  | rightParen => "')'"
  | leftBrace => "'\x7b'"
  | rightBrace => "'\x7d'"
  | comma => "','"
  | not => "'~'"
  | and => "'&'"
  | or => "'|'"
  | equal => "'=='"
  | notEqual => "'!='"
  | less => "'<'"
  | lessEqual => "'<='"
  | greater => "'>'"
  | greaterEqual => "'>='"
  | plus => "'+'"
  | minus => "'-'"
  | multiply => "'*'"
  | divide => "'/'"
  | fact => "keyword 'fact'"
  | identifier => "identifier"
  | integer => "integer literal"
  | float => "float literal"
  | string => "string literal"
  | unknown => "unknown character"
  | endOfInput => "end of input"

end TokenKind

/-- A piece of source text that the grammar speaks about. -/
structure Token where
  kind : TokenKind
  span : Span
  text : String
deriving DecidableEq, Repr

namespace Token

/-- The token that stands at the end of a source, given that end.  It may be
read as often as one likes. -/
def endAt (offset : Nat) : Token :=
  ⟨.endOfInput, ⟨offset, offset⟩, ""⟩

end Token

end PlanningDomain
