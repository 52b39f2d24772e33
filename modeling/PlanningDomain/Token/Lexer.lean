import PlanningDomain.Token.Kind

namespace PlanningDomain

/-!
# Cutting a source into tokens

The source is cut into pieces from left to right.  A piece is a token or a
piece of layout, that is, a run of blanks or a comment.  Each piece is the
longest text at its place that belongs to any class, so a piece depends only
on the text from its first character on.  The pieces tile the source: their
texts, one after the other, are the source again.  Tokens are the pieces that
are not layout, each with the byte range that it takes.
-/

namespace Lexer

/-! ## Classes of characters -/

/-- Characters that separate tokens and mean nothing else. -/
def isBlank (char : Char) : Bool :=
  char == ' ' || char == '\t' || char == '\r' || char == '\n' || char == '\x0c'

/-- Characters that begin a word: ASCII letters and the underscore. -/
def isWordStart (char : Char) : Bool :=
  char.isAlpha || char == '_'

/-- Characters that continue a word: those that begin one, and digits. -/
def isWordPart (char : Char) : Bool :=
  char.isAlphanum || char == '_'

/-- Characters that a string may hold: all but its quote and the line feed. -/
def isQuotable (char : Char) : Bool :=
  char != '"' && char != '\n'

/-- Characters that a comment may hold: all but the line feed. -/
def isInLine (char : Char) : Bool :=
  char != '\n'

/-- The kind of a token that consists of one mark.  A mark that is no token,
such as a lone `=`, is unknown. -/
def markKind : Char -> TokenKind
  | '(' => .leftParen
  | ')' => .rightParen
  | '{' => .leftBrace
  | '}' => .rightBrace
  | ',' => .comma
  | '~' => .not
  | '&' => .and
  | '|' => .or
  | '<' => .less
  | '>' => .greater
  | '+' => .plus
  | '-' => .minus
  | '*' => .multiply
  | '/' => .divide
  | _ => .unknown

/-- The kind of a token that consists of two marks, if there is one. -/
def pairKind : Char -> Char -> Option TokenKind
  | '=', '=' => some .equal
  | '!', '=' => some .notEqual
  | '<', '=' => some .lessEqual
  | '>', '=' => some .greaterEqual
  | _, _ => none

/-- The kind of a word.  The only keyword is a keyword only as a whole word. -/
def wordKind (word : List Char) : TokenKind :=
  if word = ['f', 'a', 'c', 't'] then .fact else .identifier

/-! ## Pieces -/

/-- A token of some kind, or layout between tokens. -/
inductive PieceClass where
  | layout
  | token (kind : TokenKind)
deriving DecidableEq, Repr

/-- A stretch of the source with the class it was recognised as. -/
structure Piece where
  role : PieceClass
  text : List Char
deriving DecidableEq, Repr

/-- A piece together with the text that follows it. -/
structure Cut where
  piece : Piece
  rest : List Char
deriving DecidableEq, Repr

/-- The longest piece whose first character is given and whose others satisfy
a condition. -/
def cutWhile (role : PieceClass) (condition : Char -> Bool) (first : Char)
    (text : List Char) : Cut :=
  ⟨⟨role, first :: text.takeWhile condition⟩, text.dropWhile condition⟩

def cutWord (first : Char) (text : List Char) : Cut :=
  cutWhile (.token (wordKind (first :: text.takeWhile isWordPart))) isWordPart first text

/-- Digits are an integer, and digits followed by a point are a float that
goes on with any number of digits. -/
def cutNumber (first : Char) (text : List Char) : Cut :=
  match text.dropWhile Char.isDigit with
  | '.' :: rest =>
      ⟨⟨.token .float,
        first :: text.takeWhile Char.isDigit ++ '.' :: rest.takeWhile Char.isDigit⟩,
        rest.dropWhile Char.isDigit⟩
  | rest => ⟨⟨.token .integer, first :: text.takeWhile Char.isDigit⟩, rest⟩

/-- A string ends at the next quote of its line.  If there is none, the whole
text from the quote to the end of the line is unknown. -/
def cutString (quote : Char) (text : List Char) : Cut :=
  match text.dropWhile isQuotable with
  | '"' :: rest => ⟨⟨.token .string, quote :: text.takeWhile isQuotable ++ ['"']⟩, rest⟩
  | rest => ⟨⟨.token .unknown, quote :: text.takeWhile isQuotable⟩, rest⟩

/-- Two marks that belong together are one token, and any other character is
a token of its own. -/
def cutMark (first : Char) : List Char -> Cut
  | [] => ⟨⟨.token (markKind first), [first]⟩, []⟩
  | second :: rest =>
      match pairKind first second with
      | some kind => ⟨⟨.token kind, [first, second]⟩, rest⟩
      | none => ⟨⟨.token (markKind first), [first]⟩, second :: rest⟩

/-- Two slashes begin a comment that reaches to the end of the line, and one
is a mark. -/
def cutSlash (slash : Char) : List Char -> Cut
  | '/' :: rest => cutWhile .layout isInLine slash ('/' :: rest)
  | text => cutMark slash text

/-- The piece at the beginning of a text that is not empty. -/
def cut (first : Char) (text : List Char) : Cut :=
  if isBlank first then cutWhile .layout isBlank first text
  else if isWordStart first then cutWord first text
  else if first.isDigit then cutNumber first text
  else if first = '"' then cutString first text
  else if first = '/' then cutSlash first text
  else cutMark first text

/-! ## Nothing is lost -/

theorem cutWhile_tiles (role : PieceClass) (condition : Char -> Bool) (first : Char)
    (text : List Char) :
    (cutWhile role condition first text).piece.text ++ (cutWhile role condition first text).rest =
      first :: text := by
  simp [cutWhile, List.takeWhile_append_dropWhile]

theorem cutNumber_tiles (first : Char) (text : List Char) :
    (cutNumber first text).piece.text ++ (cutNumber first text).rest = first :: text := by
  have parts := List.takeWhile_append_dropWhile (p := Char.isDigit) (l := text)
  unfold cutNumber
  split
  · next rest point =>
      rw [point] at parts
      simp [List.takeWhile_append_dropWhile, parts]
  · simp [List.takeWhile_append_dropWhile]

theorem cutString_tiles (quote : Char) (text : List Char) :
    (cutString quote text).piece.text ++ (cutString quote text).rest = quote :: text := by
  have parts := List.takeWhile_append_dropWhile (p := isQuotable) (l := text)
  unfold cutString
  split
  · next rest closing =>
      rw [closing] at parts
      simp [parts]
  · simp [List.takeWhile_append_dropWhile]

theorem cutMark_tiles (first : Char) (text : List Char) :
    (cutMark first text).piece.text ++ (cutMark first text).rest = first :: text := by
  cases text with
  | nil => rfl
  | cons second rest =>
      simp only [cutMark]
      split <;> simp

theorem cutSlash_tiles (slash : Char) (text : List Char) :
    (cutSlash slash text).piece.text ++ (cutSlash slash text).rest = slash :: text := by
  unfold cutSlash
  split
  · exact cutWhile_tiles _ _ _ _
  · exact cutMark_tiles _ _

/-- A piece and the text after it are the text that was cut. -/
theorem cut_tiles (first : Char) (text : List Char) :
    (cut first text).piece.text ++ (cut first text).rest = first :: text := by
  unfold cut
  split
  · exact cutWhile_tiles _ _ _ _
  · split
    · exact cutWhile_tiles _ _ _ _
    · split
      · exact cutNumber_tiles _ _
      · split
        · exact cutString_tiles _ _
        · split
          · exact cutSlash_tiles _ _
          · exact cutMark_tiles _ _

/-- Every piece begins with the character it was cut at. -/
theorem cut_head (first : Char) (text : List Char) :
    (cut first text).piece.text.head? = some first := by
  unfold cut
  split
  · rfl
  · split
    · rfl
    · split
      · unfold cutNumber; split <;> rfl
      · split
        · unfold cutString; split <;> rfl
        · split
          · unfold cutSlash
            split
            · rfl
            · cases text with
              | nil => rfl
              | cons second rest => simp only [cutMark]; split <;> rfl
          · cases text with
            | nil => rfl
            | cons second rest => simp only [cutMark]; split <;> rfl

theorem cut_rest_length_lt (first : Char) (text : List Char) :
    (cut first text).rest.length < (first :: text).length := by
  have tiles := congrArg List.length (cut_tiles first text)
  have head := cut_head first text
  rw [List.length_append] at tiles
  cases shape : (cut first text).piece.text with
  | nil => rw [shape] at head; cases head
  | cons char chars => rw [shape, List.length_cons] at tiles; omega

/-! ## The pieces and tokens of a text -/

/-- All pieces of a text, in order. -/
def pieces : List Char -> List Piece
  | [] => []
  | first :: text => (cut first text).piece :: pieces (cut first text).rest
termination_by text => text.length
decreasing_by exact cut_rest_length_lt first text

/-- The pieces of a text are that text. -/
theorem pieces_tile (text : List Char) : (pieces text).flatMap Piece.text = text := by
  induction text using pieces.induct with
  | case1 => simp [pieces]
  | case2 first text ih =>
      rw [pieces, List.flatMap_cons, ih, cut_tiles]

/-- The tokens among some pieces, the first of which begins at an offset. -/
def tokensFrom (offset : Nat) : List Piece -> List Token
  | [] => []
  | ⟨role, text⟩ :: rest =>
      let next := offset + byteLength text
      match role with
      | .layout => tokensFrom next rest
      | .token kind => ⟨kind, ⟨offset, next⟩, String.ofList text⟩ :: tokensFrom next rest

end Lexer

namespace Source

/-- The tokens of a source, without the end of input. -/
def tokens (source : Source) : List Token :=
  Lexer.tokensFrom 0 (Lexer.pieces source.chars)

/-- The token that follows the last one, and itself. -/
def endToken (source : Source) : Token :=
  .endAt source.size

end Source

end PlanningDomain
