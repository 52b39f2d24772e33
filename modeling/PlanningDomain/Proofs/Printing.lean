import PlanningDomain.Proofs.Reader.Layout
import PlanningDomain.Proofs.Token.LongestMatch
import PlanningDomain.Proofs.Token.Signs

namespace PlanningDomain

/-!
# Printing undoes the cutting of a source

If every token of a source is written on a line of its own, then the lines are
the same tokens again.  What ended a token in its source was some other character,
or the end of the source.  The end of a line does the same, since no token goes
on behind a line feed.  This holds for texts that are no proper tokens too: a
single character is unknown on its own, and a string that is not closed ends with
its line.
-/

theorem LineEnds.stops {rest : List Char} (ends : LineEnds rest) {condition : Char -> Bool}
    (feed : condition '\n' = false) (char : Char) (isFirst : rest.head? = some char) :
    condition char = false := by
  rcases ends with isNil | ⟨later, isFeed⟩
  · exact (Option.some_ne_none char (isFirst.symm.trans (congrArg _ isNil))).elim
  · rw [isFeed] at isFirst
    exact Lexer.head_stops feed later char isFirst

namespace Lexer

section Cuts

variable {first : Char} {text body rest : List Char} {role : PieceClass}

theorem takeWhile_line (text : List Char) {condition : Char -> Bool} (feed : condition '\n' = false)
    (ends : LineEnds rest) :
    (text.takeWhile condition ++ rest).takeWhile condition = text.takeWhile condition ∧
      (text.takeWhile condition ++ rest).dropWhile condition = rest :=
  takeWhile_of_stop (fun _ => List.mem_takeWhile_imp) (ends.stops feed)

theorem cutWord_line (ends : LineEnds rest)
    (isPiece : (cutWord first text).piece = ⟨role, first :: body⟩) :
    cutWord first (body ++ rest) = ⟨⟨role, first :: body⟩, rest⟩ := by
  rcases Piece.mk.inj isPiece with ⟨isRole, whole⟩
  have isBody := (List.cons.inj whole).2
  rcases takeWhile_line text (by decide : isWordPart '\n' = false) ends with ⟨taken, left⟩
  rw [isBody] at taken left isRole
  rw [cutWord, cutWhile, taken, left, isRole]

theorem cutNumber_line (ends : LineEnds rest)
    (isPiece : (cutNumber first text).piece = ⟨role, first :: body⟩) :
    cutNumber first (body ++ rest) = ⟨⟨role, first :: body⟩, rest⟩ := by
  have feed : '\n'.isDigit = false := by decide
  have digits : forall char, char ∈ text.takeWhile Char.isDigit -> char.isDigit = true :=
    fun _ => List.mem_takeWhile_imp
  unfold cutNumber at isPiece
  split at isPiece
  case h_1 after _ =>
    rcases Piece.mk.inj isPiece with ⟨isRole, whole⟩
    rcases takeWhile_line after feed ends with ⟨fraction, left⟩
    rcases takeWhile_of_stop digits (head_stops (by decide : '.'.isDigit = false)
      (after.takeWhile Char.isDigit ++ rest)) with ⟨before, behind⟩
    have isBody : text.takeWhile Char.isDigit ++ '.' :: after.takeWhile Char.isDigit = body :=
      (List.cons.inj whole).2
    rw [← isBody, List.append_assoc, List.cons_append, cutNumber, behind, before, ← isRole]
    simp only [fraction, left]
    rfl
  case h_2 =>
    rcases Piece.mk.inj isPiece with ⟨isRole, whole⟩
    rcases takeWhile_line text feed ends with ⟨taken, left⟩
    rw [(List.cons.inj whole).2] at taken left
    rw [cutNumber, taken, left, ← isRole]
    rcases ends with isNil | ⟨later, isFeed⟩
    · rw [isNil]
    · rw [isFeed]
      rfl

theorem cutString_line (ends : LineEnds rest)
    (isPiece : (cutString first text).piece = ⟨role, first :: body⟩) :
    cutString first (body ++ rest) = ⟨⟨role, first :: body⟩, rest⟩ := by
  have content : forall char, char ∈ text.takeWhile isQuotable -> isQuotable char = true :=
    fun _ => List.mem_takeWhile_imp
  unfold cutString at isPiece
  split at isPiece
  case h_1 =>
    rcases Piece.mk.inj isPiece with ⟨isRole, whole⟩
    rcases takeWhile_of_stop content (head_stops (by decide : isQuotable '"' = false) rest) with
      ⟨taken, left⟩
    have isBody : text.takeWhile isQuotable ++ ['"'] = body := (List.cons.inj whole).2
    rw [← isBody, List.append_assoc, List.singleton_append, cutString, left, taken, ← isRole]
    rfl
  case h_2 =>
    -- The string was not closed on its line, and it is not closed on this one.
    rcases Piece.mk.inj isPiece with ⟨isRole, whole⟩
    rcases takeWhile_line text (by decide : isQuotable '\n' = false) ends with
      ⟨taken, left⟩
    rw [(List.cons.inj whole).2] at taken left
    rw [cutString, taken, left, ← isRole]
    rcases ends with isNil | ⟨later, isFeed⟩
    · rw [isNil]
    · rw [isFeed]
      rfl

/-- No two marks that belong together end with a line feed. -/
theorem pairKind_feed (first : Char) : pairKind first '\n' = none := by
  unfold pairKind
  split
  case h_5 => rfl
  all_goals contradiction

theorem cutMark_alone (ends : LineEnds rest) :
    cutMark first rest = ⟨⟨.token (markKind first), [first]⟩, rest⟩ := by
  rcases ends with isNil | ⟨later, isFeed⟩
  · rw [isNil, cutMark]
  · rw [isFeed, cutMark, pairKind_feed]

theorem cutMark_line (ends : LineEnds rest)
    (isPiece : (cutMark first text).piece = ⟨role, first :: body⟩) :
    cutMark first (body ++ rest) = ⟨⟨role, first :: body⟩, rest⟩ := by
  cases text with
  | nil =>
      rcases Piece.mk.inj isPiece with ⟨isRole, whole⟩
      rw [← (List.cons.inj whole).2, List.nil_append, cutMark_alone ends, ← isRole]
  | cons second text =>
      rw [cutMark] at isPiece
      cases pair : pairKind first second with
      | some kind =>
          simp only [pair] at isPiece
          rcases Piece.mk.inj isPiece with ⟨isRole, whole⟩
          rw [← (List.cons.inj whole).2, List.singleton_append, cutMark, pair, ← isRole]
      | none =>
          simp only [pair] at isPiece
          rcases Piece.mk.inj isPiece with ⟨isRole, whole⟩
          rw [← (List.cons.inj whole).2, List.nil_append, cutMark_alone ends, ← isRole]

/-- A slash that begins no remark is a mark of its own. -/
theorem cutMark_slash (text : List Char) :
    cutMark '/' text = ⟨⟨.token .divide, ['/']⟩, text⟩ := by
  cases text <;> rfl

theorem cutSlash_line {kind : TokenKind} (ends : LineEnds rest)
    (isPiece : (cutSlash '/' text).piece = ⟨.token kind, '/' :: body⟩) :
    cutSlash '/' (body ++ rest) = ⟨⟨.token kind, '/' :: body⟩, rest⟩ := by
  unfold cutSlash at isPiece
  split at isPiece
  case h_1 => exact PieceClass.noConfusion (Piece.mk.inj isPiece).1
  case h_2 =>
    rw [cutMark_slash] at isPiece
    rcases Piece.mk.inj isPiece with ⟨isRole, whole⟩
    have alone : cutSlash '/' rest = cutMark '/' rest := by
      rcases ends with isNil | ⟨later, isFeed⟩
      · rw [isNil, cutSlash]
        exact fun _ => List.cons_ne_nil _ _ ∘ Eq.symm
      · rw [isFeed]
        rfl
    rw [← (List.cons.inj whole).2, List.nil_append, alone, cutMark_slash, ← isRole]

/-- A token that stands alone on a line is cut off as it was. -/
theorem cut_line {kind : TokenKind} (ends : LineEnds rest)
    (isPiece : (cut first text).piece = ⟨.token kind, first :: body⟩) :
    cut first (body ++ rest) = ⟨⟨.token kind, first :: body⟩, rest⟩ := by
  unfold cut at isPiece ⊢
  by_cases blank : isBlank first = true
  · rw [if_pos blank] at isPiece
    exact PieceClass.noConfusion (Piece.mk.inj isPiece).1
  rw [if_neg blank] at isPiece ⊢
  by_cases starts : isWordStart first = true
  · rw [if_pos starts] at isPiece ⊢
    exact cutWord_line ends isPiece
  rw [if_neg starts] at isPiece ⊢
  by_cases digit : first.isDigit = true
  · rw [if_pos digit] at isPiece ⊢
    exact cutNumber_line ends isPiece
  rw [if_neg digit] at isPiece ⊢
  by_cases quote : first = '"'
  · rw [if_pos quote] at isPiece ⊢
    exact cutString_line ends isPiece
  rw [if_neg quote] at isPiece ⊢
  by_cases slash : first = '/'
  · rw [if_pos slash] at isPiece ⊢
    subst slash
    exact cutSlash_line ends isPiece
  · rw [if_neg slash] at isPiece ⊢
    exact cutMark_line ends isPiece

end Cuts

/-- A token of a source is the first piece of its text, wherever a line ends behind
it. -/
theorem pieces_line {source : Source} {token : Token} (member : token ∈ source.tokens)
    {rest : List Char} (ends : LineEnds rest) :
    pieces (token.text.toList ++ rest) =
      ⟨.token token.kind, token.text.toList⟩ :: pieces rest := by
  rcases source.exists_piece_of_mem_tokens member with
    ⟨before, ⟨role, text⟩, after, split, isRole, isText, _⟩
  dsimp only at isRole isText
  subst isRole
  rcases exists_cut_of_pieces split with ⟨first, others, _, isCut⟩
  have head := cut_head first others
  rw [isCut] at head
  rcases List.head?_eq_some_iff.mp head with ⟨body, isBody⟩
  dsimp only at isBody
  rw [← isText, isBody, List.cons_append, pieces, cut_line ends]
  rw [isCut, isBody]

/-- Tokens that are written one on each line are cut off in order. -/
theorem tokensFrom_lines {source : Source} (offset : Nat) (tokens : List Token)
    (members : forall token, token ∈ tokens -> token ∈ source.tokens) :
    (tokensFrom offset (pieces
        (['\n'].intercalate (tokens.map (fun token => token.text.toList))))).map
          (fun token => (token.kind, token.text)) =
      tokens.map (fun token => (token.kind, token.text)) := by
  induction tokens generalizing offset with
  | nil =>
      rw [List.map_nil, List.intercalate_nil, pieces]
      rfl
  | cons token rest ih =>
      have member := members token List.mem_cons_self
      have others := fun other later => members other (List.mem_cons_of_mem _ later)
      cases rest with
      | nil =>
          have alone := pieces_line member (Or.inl rfl)
          rw [List.append_nil] at alone
          rw [List.map_singleton, List.intercalate_singleton, alone, pieces]
          simp only [tokensFrom, List.map_singleton, String.ofList_toList]
      | cons next rest =>
          have further := ih (offset + byteLength token.text.toList + byteLength ['\n']) others
          rw [List.map_cons] at further
          rw [List.map_cons, List.map_cons, List.intercalate_cons_cons, List.append_assoc,
            List.singleton_append, pieces_line member (Or.inr ⟨_, rfl⟩)]
          simp only [tokensFrom]
          rw [tokensFrom_blank _ rfl, List.map_cons, further, String.ofList_toList]
          rfl

end Lexer

/-! ## The main result -/

/-- The words of a source, written one on each line, are the same words again. -/
theorem Source.words_of_lines (source : Source) :
    (ofString ("\n".intercalate (source.words.map Prod.snd))).words = source.words := by
  have chars : ("\n".intercalate (source.words.map Prod.snd)).toList =
      ['\n'].intercalate (source.tokens.map (fun token => token.text.toList)) := by
    rw [String.toList_intercalate, words, List.map_map, List.map_map]
    rfl
  rw [words, tokens, ofString, chars]
  exact Lexer.tokensFrom_lines 0 source.tokens (fun _ member => member)

/-- A lone mark and a string that is not closed have lines of their own. -/
example : (Source.ofString "1.!==\"a").words =
    [(.float, "1."), (.notEqual, "!="), (.unknown, "="), (.unknown, "\"a")] := by
  cbv

end PlanningDomain
