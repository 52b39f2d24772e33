import Mathlib.Data.List.Forall2
import PlanningDomain.Proofs.Reader.Soundness
import PlanningDomain.Proofs.Token.Places

namespace PlanningDomain

/-!
# Words

A word is a text that is cut off as one token of its kind, wherever a blank or
nothing follows it.  So words that are written one after the other, with
blanks between them, are the tokens of the text.  There is a word for each mark,
for each name and for each constant.
-/

namespace Lexer

/-- What may follow a word: nothing, or a blank and any text. -/
inductive Border : List Char -> Prop
  | nothing : Border []
  | blank (text : List Char) : Border (' ' :: text)

theorem Border.stops {rest : List Char} (border : Border rest) {condition : Char -> Bool}
    (blank : condition ' ' = false) (char : Char) (isFirst : rest.head? = some char) :
    condition char = false := by
  cases border with
  | nothing => exact (Option.some_ne_none char isFirst.symm).elim
  | blank later => exact head_stops blank later char isFirst

/-- Characters that all satisfy a condition are taken together, up to a
border. -/
theorem takeWhile_border {condition : Char -> Bool} {text rest : List Char}
    (all : forall char, char ∈ text -> condition char = true) (blank : condition ' ' = false)
    (border : Border rest) :
    (text ++ rest).takeWhile condition = text ∧ (text ++ rest).dropWhile condition = rest :=
  takeWhile_of_stop all (border.stops blank)

/-- A text is cut off as a whole up to every border. -/
structure IsWhole (kind : TokenKind) (text : List Char) : Prop where
  starts : Exists fun first : Char => Exists fun others : List Char =>
    text = first :: others ∧ isBlank first = false ∧ forall rest, Border rest ->
      cut first (others ++ rest) = ⟨⟨.token kind, text⟩, rest⟩

theorem IsWhole.pieces_append {kind : TokenKind} {text rest : List Char}
    (whole : IsWhole kind text) (border : Border rest) :
    pieces (text ++ rest) = ⟨.token kind, text⟩ :: pieces rest := by
  rcases whole.starts with ⟨first, others, same, _, isCut⟩
  subst same
  rw [List.cons_append, pieces, isCut rest border]

/-- A blank before a word is layout of its own. -/
theorem IsWhole.pieces_blank {kind : TokenKind} {text : List Char} (whole : IsWhole kind text)
    (rest : List Char) :
    pieces (' ' :: (text ++ rest)) = ⟨.layout, [' ']⟩ :: pieces (text ++ rest) := by
  rcases whole.starts with ⟨first, others, same, notBlank, _⟩
  subst same
  have isCut : cut ' ' (first :: others ++ rest) = ⟨⟨.layout, [' ']⟩, first :: others ++ rest⟩ := by
    rw [cut, if_pos (by decide : isBlank ' ' = true), cutWhile, List.cons_append,
      List.takeWhile_cons_of_neg (Bool.eq_false_iff.mp notBlank),
      List.dropWhile_cons_of_neg (Bool.eq_false_iff.mp notBlank)]
  rw [pieces, isCut]

end Lexer

/-- A text that is one token, whatever follows behind a blank. -/
structure Word where
  kind : TokenKind
  text : List Char
  whole : Lexer.IsWhole kind text
  fits : kind = .integer -> digitsValue text < Nat.pow 2 63

namespace Word

open Lexer

/-- The words with single blanks between them. -/
def spell (words : List Word) : List Char :=
  List.intercalate [' '] (words.map Word.text)

/-- A token has the kind and the text of a word. -/
structure IsToken (word : Word) (token : Token) : Prop where
  kind : token.kind = word.kind
  text : token.text.toList = word.text

theorem IsToken.fits {word : Word} {token : Token} (same : word.IsToken token) : token.Fits := by
  intro integer
  rw [same.text]
  exact word.fits (same.kind ▸ integer)

theorem IsToken.slice?_eq {word : Word} {token : Token} (same : word.IsToken token)
    {source : Source} (stands : token.Stands source) :
    source.slice? token.span = some (String.ofList word.text) := by
  rw [stands.slice?_eq, ← same.text, String.ofList_toList]

theorem spell_singleton (word : Word) : spell [word] = word.text := by
  rw [spell, List.map_singleton, List.intercalate_singleton]

theorem spell_cons (word next : Word) (rest : List Word) :
    spell (word :: next :: rest) = word.text ++ ' ' :: spell (next :: rest) := by
  rw [spell, List.map_cons, List.map_cons, List.intercalate_cons_cons, List.append_assoc]
  rfl

theorem spell_starts (word : Word) (rest : List Word) :
    Exists fun later : List Char => spell (word :: rest) = word.text ++ later := by
  cases rest with
  | nil => exact ⟨[], by rw [spell_singleton, List.append_nil]⟩
  | cons next rest => exact ⟨_, spell_cons word next rest⟩

/-- The tokens of words that are spelled out are the words. -/
theorem tokensFrom_spell (words : List Word) (offset : Nat) :
    List.Forall₂ IsToken words (tokensFrom offset (pieces (spell words))) := by
  induction words generalizing offset with
  | nil =>
      rw [spell, List.map_nil, List.intercalate_nil, pieces]
      exact .nil
  | cons word rest ih =>
      have first (position : Nat) : word.IsToken
          ⟨word.kind, ⟨offset, position⟩, String.ofList word.text⟩ :=
        ⟨rfl, String.toList_ofList⟩
      cases rest with
      | nil =>
          rw [spell_singleton, ← List.append_nil word.text, word.whole.pieces_append .nothing,
            pieces]
          exact .cons (first _) .nil
      | cons next rest =>
          rcases spell_starts next rest with ⟨later, starts⟩
          have further := ih (offset + byteLength word.text + byteLength [' '])
          rw [spell_cons, word.whole.pieces_append (.blank _), starts, next.whole.pieces_blank,
            ← starts]
          exact .cons (first _) further

/-- A source that consists of some words. -/
def source (words : List Word) : Source :=
  ⟨spell words⟩

theorem tokens_source (words : List Word) : List.Forall₂ IsToken words (source words).tokens :=
  tokensFrom_spell words 0

end Word

/-! ## Marks -/

/-- The operators with two operands. -/
inductive Operator where
  | comparison (symbol : Comparison)
  | arithmetic (symbol : Arithmetic)
deriving DecidableEq, Repr

namespace Operator

/-- The node that the operator builds. -/
def kind : Operator -> Kind
  | comparison symbol => .comparison symbol
  | arithmetic symbol => .arithmetic symbol

/-- The operators that bind as it does. -/
def chain : Operator -> Chain
  | comparison _ => .comparison
  | arithmetic .plus => .sum
  | arithmetic .minus => .sum
  | arithmetic .multiply => .product
  | arithmetic .divide => .product

/-- The token that stands between the operands. -/
def token : Operator -> TokenKind
  | comparison .equal => .equal
  | comparison .notEqual => .notEqual
  | comparison .less => .less
  | comparison .lessEqual => .lessEqual
  | comparison .greater => .greater
  | comparison .greaterEqual => .greaterEqual
  | arithmetic .plus => .plus
  | arithmetic .minus => .minus
  | arithmetic .multiply => .multiply
  | arithmetic .divide => .divide

theorem kind?_token (operator : Operator) :
    operator.chain.kind? operator.token = some operator.kind := by
  rcases operator with symbol | symbol
  · cases symbol <;> rfl
  · cases symbol <;> rfl

end Operator

/-- The marks with which expressions are written. -/
inductive Mark where
  | leftParen
  | rightParen
  | comma
  | not
  | connective (symbol : Connective)
  | operator (symbol : Operator)
deriving DecidableEq, Repr

namespace Mark

def kind : Mark -> TokenKind
  | leftParen => .leftParen
  | rightParen => .rightParen
  | comma => .comma
  | not => .not
  | connective symbol => symbol.token
  | operator symbol => symbol.token

def text : Mark -> List Char
  | leftParen => ['(']
  | rightParen => [')']
  | comma => [',']
  | not => ['~']
  | connective .and => ['&']
  | connective .or => ['|']
  | operator (.comparison .equal) => ['=', '=']
  | operator (.comparison .notEqual) => ['!', '=']
  | operator (.comparison .less) => ['<']
  | operator (.comparison .lessEqual) => ['<', '=']
  | operator (.comparison .greater) => ['>']
  | operator (.comparison .greaterEqual) => ['>', '=']
  | operator (.arithmetic .plus) => ['+']
  | operator (.arithmetic .minus) => ['-']
  | operator (.arithmetic .multiply) => ['*']
  | operator (.arithmetic .divide) => ['/']

theorem isWhole (mark : Mark) : Lexer.IsWhole mark.kind mark.text := by
  have single (first : Char) (kind : TokenKind) (notBlank : Lexer.isBlank first = false)
      (isCut : Lexer.cut first [] = ⟨⟨.token kind, [first]⟩, []⟩ ∧ forall later,
        Lexer.cut first (' ' :: later) = ⟨⟨.token kind, [first]⟩, ' ' :: later⟩) :
      Lexer.IsWhole kind [first] := by
    refine ⟨first, [], rfl, notBlank, fun rest border => ?_⟩
    cases border with
    | nothing => exact isCut.1
    | blank later => exact isCut.2 later
  have pair (first second : Char) (kind : TokenKind) (notBlank : Lexer.isBlank first = false)
      (isCut : forall rest,
        Lexer.cut first (second :: rest) = ⟨⟨.token kind, [first, second]⟩, rest⟩) :
      Lexer.IsWhole kind [first, second] :=
    ⟨first, [second], rfl, notBlank, fun rest _ => isCut rest⟩
  rcases mark with _ | _ | _ | _ | symbol | (symbol | symbol)
  all_goals try cases symbol
  all_goals first
    | exact single _ _ rfl ⟨rfl, fun _ => rfl⟩
    | exact pair _ _ _ rfl (fun _ => rfl)

theorem kind_ne_integer (mark : Mark) : mark.kind ≠ .integer := by
  rcases mark with _ | _ | _ | _ | symbol | (symbol | symbol)
  all_goals try cases symbol
  all_goals decide

/-- The mark as a word. -/
def word (mark : Mark) : Word where
  kind := mark.kind
  text := mark.text
  whole := mark.isWhole
  fits := fun integer => (mark.kind_ne_integer integer).elim

end Mark

/-! ## Names -/

/-- An identifier, which is a word other than the keyword. -/
structure Name where
  first : Char
  others : List Char
  starts : Lexer.isWordStart first = true
  continues : forall char, char ∈ others -> Lexer.isWordPart char = true
  notKeyword : first :: others ≠ "fact".toList

namespace Name

def text (name : Name) : List Char :=
  name.first :: name.others

theorem isWhole (name : Name) : Lexer.IsWhole .identifier name.text := by
  have notBlank := Lexer.isBlank_eq_false_of_isWordStart name.starts
  refine ⟨name.first, name.others, rfl, notBlank, fun rest border => ?_⟩
  rcases Lexer.takeWhile_border name.continues rfl border with ⟨taken, left⟩
  have other : name.first :: name.others ≠ ['f', 'a', 'c', 't'] := name.notKeyword
  rw [Lexer.cut, if_neg (Bool.eq_false_iff.mp notBlank), if_pos name.starts, Lexer.cutWord,
    Lexer.cutWhile, taken, left, Lexer.wordKind, if_neg other]
  rfl

def word (name : Name) : Word where
  kind := .identifier
  text := name.text
  whole := name.isWhole
  fits := fun impossible => TokenKind.noConfusion impossible

end Name

/-! ## Constants -/

/-- A constant as it is written: an integer that fits into sixty-four bits, the
digits on both sides of the point of a float, or the content of a string. -/
inductive Constant where
  | int (value : Nat) (fits : value < Nat.pow 2 63)
  | float (first : Char) (whole fraction : List Char)
      (digits : forall char, char ∈ first :: whole ++ fraction -> char.isDigit = true)
  | string (content : List Char)
      (quotable : forall char, char ∈ content -> Lexer.isQuotable char = true)

namespace Constant

def kind : Constant -> TokenKind
  | int _ _ => .integer
  | float _ _ _ _ => .float
  | string _ _ => .string

def text : Constant -> List Char
  | int value _ => Nat.toDigits 10 value
  | float first whole fraction _ => first :: whole ++ '.' :: fraction
  | string content _ => '"' :: content ++ ['"']

/-- A literal of a source has the value of a constant. -/
def IsLiteral (source : Source) : Constant -> Literal -> Prop
  | int value _, .int number => number.toInt = value
  | float first whole fraction _, .float number => number = .ofDigits (first :: whole) fraction
  | string content _, .string text => source.slice? text = some (String.ofList content)
  | _, _ => False

theorem isWhole_digits {first : Char} {others : List Char}
    (digits : forall char, char ∈ first :: others -> char.isDigit = true) :
    Lexer.IsWhole .integer (first :: others) := by
  rcases List.forall_mem_cons.mp digits with ⟨digit, further⟩
  refine ⟨first, others, rfl, Lexer.isBlank_eq_false_of_isDigit digit, fun rest border => ?_⟩
  rcases Lexer.takeWhile_border further rfl border with ⟨taken, left⟩
  rw [Lexer.cut_of_isDigit digit, Lexer.cutNumber, taken, left]
  cases border with
  | nothing => rfl
  | blank later => rfl

theorem isWhole_point {first : Char} {whole fraction : List Char}
    (digits : forall char, char ∈ first :: whole ++ fraction -> char.isDigit = true) :
    Lexer.IsWhole .float (first :: whole ++ '.' :: fraction) := by
  rcases List.forall_mem_append.mp digits with ⟨left, right⟩
  rcases List.forall_mem_cons.mp left with ⟨digit, further⟩
  refine ⟨first, whole ++ '.' :: fraction, rfl, Lexer.isBlank_eq_false_of_isDigit digit,
    fun rest border => ?_⟩
  have before : (whole ++ '.' :: fraction ++ rest).takeWhile Char.isDigit = whole := by
    rw [List.append_assoc, List.takeWhile_append_of_pos further, List.cons_append,
      List.takeWhile_cons_of_neg (by decide), List.append_nil]
  have behind : (whole ++ '.' :: fraction ++ rest).dropWhile Char.isDigit =
      '.' :: (fraction ++ rest) := by
    rw [List.append_assoc, List.dropWhile_append_of_pos further, List.cons_append,
      List.dropWhile_cons_of_neg (by decide)]
  rcases Lexer.takeWhile_border right rfl border with ⟨taken, remains⟩
  rw [Lexer.cut_of_isDigit digit, Lexer.cutNumber, before, behind]
  simp only [taken, remains]

theorem isWhole_string {content : List Char}
    (quotable : forall char, char ∈ content -> Lexer.isQuotable char = true) :
    Lexer.IsWhole .string ('"' :: content ++ ['"']) := by
  refine ⟨'"', content ++ ['"'], rfl, rfl, fun rest _ => ?_⟩
  have before : (content ++ ['"'] ++ rest).takeWhile Lexer.isQuotable = content := by
    rw [List.append_assoc, List.takeWhile_append_of_pos quotable, List.singleton_append,
      List.takeWhile_cons_of_neg (by decide), List.append_nil]
  have behind : (content ++ ['"'] ++ rest).dropWhile Lexer.isQuotable = '"' :: rest := by
    rw [List.append_assoc, List.dropWhile_append_of_pos quotable, List.singleton_append,
      List.dropWhile_cons_of_neg (by decide)]
  change Lexer.cutString '"' _ = _
  rw [Lexer.cutString, before, behind]
  rfl

theorem isWhole (constant : Constant) : Lexer.IsWhole constant.kind constant.text := by
  cases constant with
  | int value fits =>
      have digits : forall char, char ∈ Nat.toDigits 10 value -> char.isDigit = true :=
        fun char member => Nat.isDigit_of_mem_toDigits (by decide) (by decide) member
      change Lexer.IsWhole .integer (Nat.toDigits 10 value)
      cases shape : Nat.toDigits 10 value with
      | nil => exact (Nat.toDigits_ne_nil shape).elim
      | cons first others => exact isWhole_digits (shape ▸ digits)
  | float first whole fraction digits => exact isWhole_point digits
  | string content quotable => exact isWhole_string quotable

def word (constant : Constant) : Word where
  kind := constant.kind
  text := constant.text
  whole := constant.isWhole
  fits := by
    cases constant with
    | int value fits => exact fun _ => (digitsValue_toDigits value).symm ▸ fits
    | float => exact fun impossible => TokenKind.noConfusion impossible
    | string => exact fun impossible => TokenKind.noConfusion impossible

/-- The token of a constant denotes it. -/
theorem exists_literal (constant : Constant) {source : Source} {token : Token}
    (same : constant.word.IsToken token) (stands : token.Stands source) :
    Exists fun value : Literal =>
      token.constant? = some (value, []) ∧ constant.IsLiteral source value := by
  have kind := same.kind
  have text := same.text
  cases constant with
  | int value fits =>
      change token.kind = .integer at kind
      change token.text.toList = Nat.toDigits 10 value at text
      have denotes : token.constant? = some (.int (Int64.ofNat value), []) := by
        unfold Token.constant?
        rw [kind]
        simp only [text, digitsValue_toDigits, if_pos fits]
      refine ⟨_, denotes, ?_⟩
      exact Int64.toInt_ofNat_of_lt fits
  | float first whole fraction digits =>
      change token.kind = .float at kind
      change token.text.toList = first :: whole ++ '.' :: fraction at text
      rcases List.forall_mem_append.mp digits with ⟨left, _⟩
      have before : (first :: whole ++ '.' :: fraction).takeWhile Char.isDigit =
          first :: whole := by
        rw [List.takeWhile_append_of_pos left, List.takeWhile_cons_of_neg (by decide),
          List.append_nil]
      have behind : (first :: whole ++ '.' :: fraction).dropWhile Char.isDigit =
          '.' :: fraction := by
        rw [List.dropWhile_append_of_pos left, List.dropWhile_cons_of_neg (by decide)]
      have denotes : token.constant? =
          some (.float (.ofDigits (first :: whole) fraction), []) := by
        unfold Token.constant?
        rw [kind]
        simp only [text, before, behind, List.drop_one, List.tail_cons]
      exact ⟨_, denotes, rfl⟩
  | string content quotable =>
      change token.kind = .string at kind
      change token.text.toList = '"' :: content ++ ['"'] at text
      have denotes : token.constant? = some (.string token.span.inner, []) := by
        unfold Token.constant?
        rw [kind]
      exact ⟨_, denotes, stands.slice?_inner text⟩

end Constant

end PlanningDomain
