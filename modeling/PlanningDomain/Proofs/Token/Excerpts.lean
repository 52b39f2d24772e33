import PlanningDomain.Proofs.Token.Groups
import PlanningDomain.Proofs.Token.Places

namespace PlanningDomain

/-!
# Excerpts of sources

A piece of a source depends on the text from its first character on, and on no
more of that than one character behind its end.  So if a source is cut off at the
beginning of one piece and at the end of a closing parenthesis, the excerpt has
the same pieces as the source has between the two places.  In particular a group
on its own has the same words as the group in its source.
-/

namespace Lexer

/-! ## Texts that are cut off behind a piece -/

/-- What a condition takes from a text does not depend on what follows, if it
stops before the end of the text. -/
theorem takeWhile_of_append {condition : Char -> Bool} {text left later : List Char}
    (rest : (text ++ later).dropWhile condition = left ++ later) (notEmpty : left ≠ []) :
    text.takeWhile condition = (text ++ later).takeWhile condition ∧
      text.dropWhile condition = left := by
  induction text with
  | nil =>
      have shorter := (List.dropWhile_sublist condition (l := later)).length_le
      rw [List.nil_append] at rest
      rw [rest, List.length_append] at shorter
      exact (notEmpty (List.length_eq_zero_iff.mp (by omega))).elim
  | cons char text ih =>
      rw [List.cons_append] at rest ⊢
      cases holds : condition char with
      | true =>
          rw [List.dropWhile_cons_of_pos holds] at rest
          rw [List.takeWhile_cons_of_pos holds, List.takeWhile_cons_of_pos holds,
            List.dropWhile_cons_of_pos holds]
          exact ⟨congrArg _ (ih rest).1, (ih rest).2⟩
      | false =>
          have fails := Bool.eq_false_iff.mp holds
          rw [List.dropWhile_cons_of_neg fails] at rest
          rw [List.takeWhile_cons_of_neg fails, List.takeWhile_cons_of_neg fails,
            List.dropWhile_cons_of_neg fails]
          exact ⟨rfl, List.append_cancel_right rest⟩

section Cuts

variable {first : Char} {text left later : List Char} {piece : Piece}

theorem cutWhile_of_append {role : PieceClass} {condition : Char -> Bool}
    (whole : cutWhile role condition first (text ++ later) = ⟨piece, left ++ later⟩)
    (notEmpty : left ≠ []) : cutWhile role condition first text = ⟨piece, left⟩ := by
  rcases Cut.mk.inj whole with ⟨taken, rest⟩
  rcases takeWhile_of_append rest notEmpty with ⟨same, dropped⟩
  rw [cutWhile, same, dropped, ← taken]

theorem cutWord_of_append (whole : cutWord first (text ++ later) = ⟨piece, left ++ later⟩)
    (notEmpty : left ≠ []) : cutWord first text = ⟨piece, left⟩ := by
  rcases Cut.mk.inj whole with ⟨taken, rest⟩
  rcases takeWhile_of_append rest notEmpty with ⟨same, dropped⟩
  rw [cutWord, cutWhile, same, dropped, ← taken]

theorem cutNumber_of_append (whole : cutNumber first (text ++ later) = ⟨piece, left ++ later⟩)
    (notEmpty : left ≠ []) : cutNumber first text = ⟨piece, left⟩ := by
  unfold cutNumber at whole
  split at whole
  case h_1 rest point =>
    rcases Cut.mk.inj whole with ⟨taken, behind⟩
    -- The fraction ends before the end of the text, so the point is in the text.
    obtain ⟨fraction, split⟩ : Exists fun fraction : List Char =>
        rest = fraction ++ left ++ later := by
      refine ⟨rest.takeWhile Char.isDigit, ?_⟩
      rw [List.append_assoc, ← behind, List.takeWhile_append_dropWhile]
    subst split
    have pointed : (text ++ later).dropWhile Char.isDigit = '.' :: (fraction ++ left) ++ later :=
      point
    rcases takeWhile_of_append pointed (List.cons_ne_nil _ _) with ⟨same, dropped⟩
    rcases takeWhile_of_append behind notEmpty with ⟨sameFraction, droppedFraction⟩
    rw [← sameFraction] at taken
    rw [cutNumber, dropped, same, ← taken]
    change Cut.mk _ ((fraction ++ left).dropWhile Char.isDigit) = _
    rw [droppedFraction]
  case h_2 rest noPoint =>
    rcases Cut.mk.inj whole with ⟨taken, behind⟩
    rcases takeWhile_of_append behind notEmpty with ⟨same, dropped⟩
    rw [cutNumber, dropped, same, ← taken]
    split
    case h_1 fraction => exact (noPoint (fraction ++ later) behind).elim
    case h_2 => rfl

theorem cutString_of_append (whole : cutString first (text ++ later) = ⟨piece, left ++ later⟩)
    (notEmpty : left ≠ []) : cutString first text = ⟨piece, left⟩ := by
  unfold cutString at whole
  split at whole
  case h_1 rest closing =>
    rcases Cut.mk.inj whole with ⟨taken, behind⟩
    subst behind
    have closed : (text ++ later).dropWhile isQuotable = '"' :: left ++ later := closing
    rcases takeWhile_of_append closed (List.cons_ne_nil _ _) with ⟨same, dropped⟩
    rw [cutString, dropped, same, ← taken]
    rfl
  case h_2 rest unclosed =>
    rcases Cut.mk.inj whole with ⟨taken, behind⟩
    rcases takeWhile_of_append behind notEmpty with ⟨same, dropped⟩
    rw [cutString, dropped, same, ← taken]
    split
    case h_1 others => exact (unclosed (others ++ later) behind).elim
    case h_2 => rfl

theorem cutMark_of_append {second : Char}
    (whole : cutMark first (second :: text ++ later) = ⟨piece, left ++ later⟩) :
    cutMark first (second :: text) = ⟨piece, left⟩ := by
  rw [List.cons_append, cutMark] at whole
  rw [cutMark]
  cases pair : pairKind first second with
  | some kind =>
      simp only [pair] at whole ⊢
      rcases Cut.mk.inj whole with ⟨taken, behind⟩
      rw [List.append_cancel_right behind, taken]
  | none =>
      simp only [pair] at whole ⊢
      rcases Cut.mk.inj whole with ⟨taken, behind⟩
      have same : second :: text ++ later = left ++ later := behind
      rw [taken, List.append_cancel_right same]

theorem cutSlash_of_append {second : Char}
    (whole : cutSlash first (second :: text ++ later) = ⟨piece, left ++ later⟩)
    (notEmpty : left ≠ []) : cutSlash first (second :: text) = ⟨piece, left⟩ := by
  unfold cutSlash at whole ⊢
  split at whole
  case h_1 rest same =>
    rcases List.cons.inj same with ⟨slash, isRest⟩
    subst slash isRest
    have comment : cutWhile .layout isInLine first ('/' :: text ++ later) =
        ⟨piece, left ++ later⟩ := whole
    exact cutWhile_of_append comment notEmpty
  case h_2 noComment =>
    split
    case h_1 rest same =>
      have slash := congrArg (· :: (text ++ later)) (List.cons.inj same).1
      exact (noComment (text ++ later) slash).elim
    case h_2 => exact cutMark_of_append whole

/-- A piece is cut the same from a text that goes on behind it as from any longer
one. -/
theorem cut_of_append (whole : cut first (text ++ later) = ⟨piece, left ++ later⟩)
    (notEmpty : left ≠ []) : cut first text = ⟨piece, left⟩ := by
  cases text with
  | nil =>
      have shorter := cut_rest_length_lt first later
      rw [List.nil_append] at whole
      rw [whole, List.length_append, List.length_cons] at shorter
      exact (notEmpty (List.length_eq_zero_iff.mp (by omega))).elim
  | cons second text =>
      unfold cut at whole ⊢
      by_cases blank : isBlank first = true
      · rw [if_pos blank] at whole ⊢
        exact cutWhile_of_append whole notEmpty
      rw [if_neg blank] at whole ⊢
      by_cases starts : isWordStart first = true
      · rw [if_pos starts] at whole ⊢
        exact cutWord_of_append whole notEmpty
      rw [if_neg starts] at whole ⊢
      by_cases digit : first.isDigit = true
      · rw [if_pos digit] at whole ⊢
        exact cutNumber_of_append whole notEmpty
      rw [if_neg digit] at whole ⊢
      by_cases quote : first = '"'
      · rw [if_pos quote] at whole ⊢
        exact cutString_of_append whole notEmpty
      rw [if_neg quote] at whole ⊢
      by_cases slash : first = '/'
      · rw [if_pos slash] at whole ⊢
        exact cutSlash_of_append whole notEmpty
      · rw [if_neg slash] at whole ⊢
        exact cutMark_of_append whole

end Cuts

/-- A closing parenthesis is a token of its own, whatever follows it. -/
theorem cut_closing (text : List Char) :
    cut ')' text = ⟨⟨.token .rightParen, [')']⟩, text⟩ := by
  cases text <;> rfl

/-! ## Pieces of an excerpt -/

/-- Behind some pieces of a text, the text has its other pieces. -/
theorem pieces_of_append {text : List Char} {before after : List Piece}
    (split : pieces text = before ++ after) : pieces (after.flatMap Piece.text) = after := by
  induction before generalizing text with
  | nil =>
      have same : pieces text = after := split
      rw [← same, pieces_tile]
  | cons piece before ih =>
      cases text with
      | nil =>
          rw [pieces] at split
          exact (List.cons_ne_nil _ _ split.symm).elim
      | cons first text =>
          rw [pieces] at split
          exact ih (List.cons.inj split).2

/-- A text that is cut off behind a closing parenthesis has the same pieces up to
there. -/
theorem pieces_of_closing {closing : Piece} {after : List Piece}
    (role : closing.role = .token .rightParen) (before : List Piece) {later : List Char}
    (split : pieces ((before ++ [closing]).flatMap Piece.text ++ later) =
      before ++ closing :: after) :
    pieces ((before ++ [closing]).flatMap Piece.text) = before ++ [closing] := by
  have isClosing : closing.text = [')'] := by
    have member : closing ∈ before ++ closing :: after :=
      List.mem_append_right _ List.mem_cons_self
    exact (form_of_mem_pieces _ closing (split ▸ member)).closing role
  induction before with
  | nil =>
      have same : closing = ⟨.token .rightParen, [')']⟩ := by
        rcases closing with ⟨_, _⟩
        exact congr (congrArg Piece.mk role) isClosing
      subst same
      change pieces [')'] = [_]
      rw [pieces, cut_closing, pieces]
  | cons piece before ih =>
      rw [List.cons_append, List.flatMap_cons, List.append_assoc] at split
      rw [List.cons_append, List.flatMap_cons]
      have notEmpty : (before ++ [closing]).flatMap Piece.text ≠ [] := by
        rw [List.flatMap_append, List.flatMap_singleton, isClosing]
        exact List.append_ne_nil_of_right_ne_nil _ (List.cons_ne_nil _ _)
      generalize (before ++ [closing]).flatMap Piece.text = left at split ih notEmpty ⊢
      cases whole : piece.text ++ (left ++ later) with
      | nil =>
          rw [whole, pieces] at split
          exact (List.cons_ne_nil _ _ split.symm).elim
      | cons first rest =>
          rw [whole, pieces] at split
          rcases List.cons.inj split with ⟨isPiece, others⟩
          have tiles := cut_tiles first rest
          have head := cut_head first rest
          rw [isPiece, ← whole] at tiles
          rw [isPiece] at head
          have behind := List.append_cancel_left tiles
          rcases List.head?_eq_some_iff.mp head with ⟨text, isText⟩
          rw [isText, List.cons_append, ← List.append_assoc] at whole
          have again : cut first (text ++ left ++ later) = ⟨piece, left ++ later⟩ := by
            rw [(List.cons.inj whole).2, ← isPiece, ← behind]
          rw [isText, List.cons_append, pieces, cut_of_append again notEmpty, ih (behind ▸ others)]

/-! ## Tokens of an excerpt -/

theorem tokensFrom_append (offset : Nat) (before after : List Piece) :
    tokensFrom offset (before ++ after) =
      tokensFrom offset before ++
        tokensFrom (offset + byteLength (before.flatMap Piece.text)) after := by
  induction before generalizing offset with
  | nil => rfl
  | cons piece before ih =>
      rcases piece with ⟨role, text⟩
      rw [List.flatMap_cons, byteLength_append, ← Nat.add_assoc]
      cases role with
      | layout => exact ih _
      | token kind => exact congrArg _ (ih _)

/-- The kinds and texts of tokens do not depend on where the first piece stands. -/
theorem tokensFrom_alike (pieces : List Piece) (offset other : Nat) :
    List.Forall₂ Token.Alike (tokensFrom offset pieces) (tokensFrom other pieces) := by
  induction pieces generalizing offset other with
  | nil => exact .nil
  | cons piece rest ih =>
      rcases piece with ⟨role, text⟩
      cases role with
      | layout => exact ih _ _
      | token kind => exact .cons ⟨rfl, rfl⟩ (ih _ _)

/-- The piece that a token is, among the pieces before and behind it. -/
theorem exists_piece_of_tokensFrom {token : Token} {before after : List Token}
    (pieces : List Piece) (offset : Nat)
    (split : tokensFrom offset pieces = before ++ token :: after) :
    Exists fun left : List Piece => Exists fun piece : Piece => Exists fun right : List Piece =>
      pieces = left ++ piece :: right ∧ piece.role = .token token.kind ∧
        tokensFrom offset left = before ∧
        token.span.start = offset + byteLength (left.flatMap Piece.text) ∧
        token.span.stop = token.span.start + byteLength piece.text ∧
        tokensFrom token.span.stop right = after := by
  induction pieces generalizing offset before with
  | nil => exact (List.append_ne_nil_of_right_ne_nil _ (List.cons_ne_nil _ _) split.symm).elim
  | cons piece rest ih =>
      rcases piece with ⟨role, text⟩
      have further {first : List Token} (skipped : tokensFrom offset [⟨role, text⟩] = first)
          {others : List Token} (later : before = first ++ others)
          (behind : tokensFrom (offset + byteLength text) rest = others ++ token :: after) :
          Exists fun left : List Piece => Exists fun piece : Piece =>
            Exists fun right : List Piece =>
              ⟨role, text⟩ :: rest = left ++ piece :: right ∧ piece.role = .token token.kind ∧
                tokensFrom offset left = before ∧
                token.span.start = offset + byteLength (left.flatMap Piece.text) ∧
                token.span.stop = token.span.start + byteLength piece.text ∧
                tokensFrom token.span.stop right = after := by
        rcases ih _ behind with ⟨left, found, right, same, kind, isBefore, starts, rest⟩
        refine ⟨⟨role, text⟩ :: left, found, right, congrArg _ same, kind, ?_, ?_, rest⟩
        · have moved := tokensFrom_append offset [⟨role, text⟩] left
          rw [List.flatMap_singleton] at moved
          rw [later, ← skipped, ← isBefore]
          exact moved
        · rw [starts, List.flatMap_cons, byteLength_append, Nat.add_assoc]
      cases role with
      | layout => exact further rfl rfl split
      | token kind =>
          cases before with
          | nil =>
              rcases List.cons.inj split with ⟨same, behind⟩
              subst same
              exact ⟨[], _, rest, rfl, rfl, rfl, rfl, rfl, behind⟩
          | cons first others =>
              rcases List.cons.inj split with ⟨same, behind⟩
              subst same
              exact further rfl rfl behind

end Lexer

namespace Source

open Lexer

/-- The text of a group, from its opening to its closing parenthesis, has the words
of the group as its tokens. -/
theorem exists_excerpt (source : Source) (group : Group) {before after : List Token}
    (split : source.tokens = before ++ (group.tokens ++ after)) :
    Exists fun own : String => source.slice? group.span = some own ∧
      List.Forall₂ Token.Alike group.tokens (ofString own).tokens := by
  have whole := split
  rw [group.tokens_append] at whole
  rcases exists_piece_of_tokensFrom _ 0 whole with
    ⟨left, opening, right, isWhole, _, isBefore, starts, opened, inside⟩
  rcases exists_piece_of_tokensFrom _ _ inside with
    ⟨middle, closing, rest, isRight, role, _, closes, stops, isAfter⟩
  rw [Nat.zero_add] at starts
  rw [group.closes] at role
  subst isRight
  -- The pieces of the group are those of its text on its own.
  have tiles := pieces_tile source.chars
  have suffix := pieces_of_append isWhole
  have chunk : opening :: (middle ++ closing :: rest) =
      opening :: middle ++ [closing] ++ rest := by
    rw [List.append_assoc, List.singleton_append, List.cons_append]
  rw [isWhole, chunk, List.flatMap_append, List.flatMap_append, ← List.append_assoc] at tiles
  rw [chunk, List.flatMap_append, ← chunk] at suffix
  have pieces := pieces_of_closing role (opening :: middle) suffix
  have length : group.span = ⟨byteLength (left.flatMap Piece.text),
      byteLength (left.flatMap Piece.text) +
        byteLength ((opening :: middle ++ [closing]).flatMap Piece.text)⟩ := by
    rw [Group.span, stops, closes, opened, starts, List.flatMap_append, List.flatMap_cons,
      List.flatMap_singleton, byteLength_append, byteLength_append]
    simp only [Nat.add_assoc]
  refine ⟨String.ofList ((opening :: middle ++ [closing]).flatMap Piece.text), ?_, ?_⟩
  · rcases source with ⟨chars⟩
    rw [length, ← show _ = chars from tiles, slice?_between]
  · have same : tokensFrom (byteLength (left.flatMap Piece.text))
        (opening :: middle ++ [closing]) = group.tokens := by
      rw [tokens, isWhole, tokensFrom_append, Nat.zero_add, isBefore, chunk,
        tokensFrom_append] at split
      have stop := congrArg Span.stop length
      rw [Group.span] at stop
      dsimp only at stop
      rw [← stop, isAfter] at split
      exact List.append_cancel_right (List.append_cancel_left split)
    rw [← same, tokens, ofString, String.toList_ofList, pieces]
    exact tokensFrom_alike _ _ _

end Source

end PlanningDomain
