import PlanningDomain.Proofs.Phrase.Words

namespace PlanningDomain

/-!
# Declarations as text

The signs with which facts are declared are the keyword, names, parentheses,
braces and commas.  They are written one after the other, with any layout before,
between and behind them, and the last line may be a comment.  Only a word needs
something behind it that does not continue it, so most signs may follow one another
without any layout.  However they are written, they are the tokens of the text.
-/

namespace Lexer

/-! ## Layout -/

/-- A text that means nothing, whatever follows it: blanks, and comments up to the ends of
their lines. -/
inductive Layout : List Char -> Prop
  | nothing : Layout []
  | blank {char text} :
      isBlank char = true ->
      Layout text ->
      Layout (char :: text)
  | comment {content text} :
      (forall char, char ∈ content -> isInLine char = true) ->
      Layout text ->
      Layout ('/' :: '/' :: content ++ '\n' :: text)

variable (offset : Nat)

/-- A blank is passed over, whatever follows it. -/
theorem tokensFrom_blank {char : Char} (blank : isBlank char = true) (text : List Char) :
    tokensFrom offset (pieces (char :: text)) =
      tokensFrom (offset + byteLength [char]) (pieces text) := by
  have first : pieces (char :: text) =
      ⟨.layout, char :: text.takeWhile isBlank⟩ :: pieces (text.dropWhile isBlank) := by
    rw [pieces, cut, if_pos blank, cutWhile]
  rw [first]
  cases text with
  | nil => rfl
  | cons next text =>
      cases again : isBlank next with
      | true =>
          -- Both blanks belong to one run.
          rw [pieces, cut, if_pos again, cutWhile, List.takeWhile_cons_of_pos again,
            List.dropWhile_cons_of_pos again]
          simp only [tokensFrom, byteLength_cons, byteLength_nil, Nat.add_assoc, Nat.add_zero]
      | false =>
          have ends := Bool.eq_false_iff.mp again
          rw [List.takeWhile_cons_of_neg ends, List.dropWhile_cons_of_neg ends]
          rfl

/-- A comment is cut off where its line ends. -/
theorem cut_comment {content : List Char}
    (line : forall char, char ∈ content -> isInLine char = true) (rest : List Char)
    (stops : forall char, rest.head? = some char -> isInLine char = false) :
    cut '/' ('/' :: content ++ rest) = ⟨⟨.layout, '/' :: '/' :: content⟩, rest⟩ := by
  have inside : forall char, char ∈ '/' :: content -> isInLine char = true :=
    List.forall_mem_cons.mpr ⟨rfl, line⟩
  rcases takeWhile_of_stop inside stops with ⟨taken, left⟩
  change cutWhile .layout isInLine '/' ('/' :: content ++ rest) = _
  rw [cutWhile, taken, left]

theorem tokensFrom_comment {content : List Char}
    (line : forall char, char ∈ content -> isInLine char = true) (text : List Char) :
    tokensFrom offset (pieces ('/' :: '/' :: content ++ '\n' :: text)) =
      tokensFrom (offset + byteLength ('/' :: '/' :: content ++ ['\n'])) (pieces text) := by
  have isCut := cut_comment line ('\n' :: text) (fun _ isFirst => Option.some.inj isFirst ▸ rfl)
  rw [List.cons_append, pieces, isCut, byteLength_append, ← Nat.add_assoc]
  exact tokensFrom_blank _ rfl text

/-- A comment may also end with the text. -/
theorem tokensFrom_lastComment {content : List Char}
    (line : forall char, char ∈ content -> isInLine char = true) :
    tokensFrom offset (pieces ('/' :: '/' :: content)) = [] := by
  have isCut := cut_comment line [] (fun _ isFirst => (Option.some_ne_none _ isFirst.symm).elim)
  rw [List.append_nil] at isCut
  rw [pieces, isCut, pieces]
  rfl

/-- Layout is passed over, whatever follows it. -/
theorem tokensFrom_layout {layout : List Char} (isLayout : Layout layout) (text : List Char) :
    tokensFrom offset (pieces (layout ++ text)) =
      tokensFrom (offset + byteLength layout) (pieces text) := by
  induction isLayout generalizing offset with
  | nothing => rfl
  | @blank char layout blank _ ih =>
      rw [List.cons_append, tokensFrom_blank offset blank, ih, Nat.add_assoc, ← byteLength_append,
        List.singleton_append]
  | @comment content layout line _ ih =>
      rw [List.append_assoc]
      change tokensFrom offset (pieces ('/' :: '/' :: content ++ '\n' :: (layout ++ text))) = _
      rw [tokensFrom_comment offset line, ih, Nat.add_assoc, ← byteLength_append,
        List.append_assoc, List.singleton_append]

/-! ## Signs -/

/-- A text that does not continue a word in front of it. -/
def EndsWord (text : List Char) : Prop :=
  forall char, text.head? = some char -> isWordPart char = false

/-- A word is cut off where it is not continued. -/
theorem cut_word {first : Char} {others text : List Char} (starts : isWordStart first = true)
    (part : forall char, char ∈ others -> isWordPart char = true) (ends : EndsWord text) :
    cut first (others ++ text) =
      ⟨⟨.token (wordKind (first :: others)), first :: others⟩, text⟩ := by
  rcases takeWhile_of_stop part ends with ⟨taken, left⟩
  rw [cut, if_neg (Bool.eq_false_iff.mp (isBlank_eq_false_of_isWordStart starts)), if_pos starts,
    cutWord, cutWhile, taken, left]

end Lexer

/-- The signs with which facts are declared. -/
inductive Sign where
  | fact
  | name (name : Name)
  | leftParen
  | rightParen
  | leftBrace
  | rightBrace
  | comma

namespace Sign

open Lexer

def kind : Sign -> TokenKind
  | fact => .fact
  | name _ => .identifier
  | leftParen => .leftParen
  | rightParen => .rightParen
  | leftBrace => .leftBrace
  | rightBrace => .rightBrace
  | comma => .comma

def text : Sign -> List Char
  | fact => ['f', 'a', 'c', 't']
  | name word => word.text
  | leftParen => ['(']
  | rightParen => [')']
  | leftBrace => ['{']
  | rightBrace => ['}']
  | comma => [',']

/-- The other signs are marks. -/
def isWord : Sign -> Bool
  | fact => true
  | name _ => true
  | _ => false

/-- A token has the kind and the text of a sign. -/
structure IsToken (sign : Sign) (token : Token) : Prop where
  kind : token.kind = sign.kind
  text : token.text.toList = sign.text

theorem pieces_append (sign : Sign) {text : List Char}
    (ends : sign.isWord = true -> EndsWord text) :
    pieces (sign.text ++ text) = ⟨.token sign.kind, sign.text⟩ :: pieces text := by
  cases sign with
  | fact =>
      have part : ['a', 'c', 't'].all isWordPart = true := by decide
      have isCut := cut_word (by decide : isWordStart 'f' = true) (List.all_eq_true.mp part)
        (ends rfl)
      change pieces ('f' :: (['a', 'c', 't'] ++ text)) = _
      rw [pieces, isCut]
      rfl
  | name word =>
      have other : word.first :: word.others ≠ ['f', 'a', 'c', 't'] := word.notKeyword
      change pieces (word.first :: (word.others ++ text)) = _
      rw [pieces, cut_word word.starts word.continues (ends rfl), wordKind, if_neg other]
      rfl
  | _ =>
      rw [Sign.text, List.singleton_append, pieces]
      cases text <;> rfl

/-- The signs are written one after the other, with layout before each of them and behind the
last.  The text may end with a comment that goes up to its end. -/
inductive Written : List Sign -> List Char -> Prop
  | nil {layout} :
      Layout layout ->
      Written [] layout
  | comment {layout content} :
      Layout layout ->
      (forall char, char ∈ content -> isInLine char = true) ->
      Written [] (layout ++ '/' :: '/' :: content)
  | cons {layout sign signs text} :
      Layout layout ->
      (sign.isWord = true -> EndsWord text) ->
      Written signs text ->
      Written (sign :: signs) (layout ++ (sign.text ++ text))

/-- A mark may be written directly in front of anything. -/
theorem Written.mark {sign : Sign} {signs : List Sign} {text : List Char}
    (isMark : sign.isWord = false) (written : Written signs text) :
    Written (sign :: signs) (sign.text ++ text) :=
  .cons .nothing (fun isWord => Bool.noConfusion (isMark.symm.trans isWord)) written

/-- Any sign may be written directly in front of a character that continues no word. -/
theorem Written.word {sign : Sign} {signs : List Sign} {char : Char} {text : List Char}
    (other : isWordPart char = false) (written : Written signs (char :: text)) :
    Written (sign :: signs) (sign.text ++ char :: text) :=
  .cons .nothing (fun _ _ isFirst => Option.some.inj isFirst ▸ other) written

theorem Written.tokensFrom {signs : List Sign} {text : List Char} (written : Written signs text)
    (offset : Nat) : List.Forall₂ IsToken signs (tokensFrom offset (pieces text)) := by
  induction written generalizing offset with
  | @nil layout isLayout =>
      rw [← List.append_nil layout, tokensFrom_layout offset isLayout, pieces]
      exact .nil
  | comment isLayout line =>
      rw [tokensFrom_layout offset isLayout, tokensFrom_lastComment _ line]
      exact .nil
  | @cons layout sign signs text isLayout ends _ ih =>
      rw [tokensFrom_layout offset isLayout, sign.pieces_append ends]
      exact .cons ⟨rfl, String.toList_ofList⟩ (ih _)

/-- However signs are written, they are the tokens of the source. -/
theorem Written.tokens {signs : List Sign} {text : List Char} (written : Written signs text) :
    List.Forall₂ IsToken signs (Source.mk text).tokens :=
  written.tokensFrom 0

end Sign

end PlanningDomain
