import PlanningDomain.Proofs.Token.Forms
import PlanningDomain.Source.Position

namespace PlanningDomain

/-!
# Where the tokens of a source stand

The pieces of a source tile it, so every token stands where its range says.
Its text is the text of that range, and the range begins and ends between two
characters.  The tokens follow one another in the source, and none is empty.
-/

namespace Token

/-- The text of a token is found at its range. -/
def Stands (source : Source) (token : Token) : Prop :=
  Exists fun before : List Char => Exists fun after : List Char =>
    source.chars = before ++ token.text.toList ++ after ∧
      token.span = ⟨byteLength before, byteLength before + byteLength token.text.toList⟩

namespace Stands

variable {source : Source} {token : Token}

theorem slice?_eq (stands : token.Stands source) : source.slice? token.span = some token.text := by
  rcases stands with ⟨before, after, split, range⟩
  rcases source with ⟨chars⟩
  rw [range, show chars = _ from split, Source.slice?_between, String.ofList_toList]

/-- Between its quotes, a string has its content. -/
theorem slice?_inner (stands : token.Stands source) {content : List Char}
    (quoted : token.text.toList = '"' :: content ++ ['"']) :
    source.slice? token.span.inner = some (String.ofList content) := by
  rcases stands with ⟨before, after, split, range⟩
  rcases source with ⟨chars⟩
  rw [quoted] at split range
  have shifted : chars = (before ++ ['"']) ++ content ++ ('"' :: after) := by
    rw [show chars = _ from split]
    simp only [List.append_assoc, List.cons_append, List.nil_append]
  have quote : '"'.utf8Size = 1 := rfl
  have start : byteLength before + 1 = byteLength (before ++ ['"']) := by
    rw [byteLength_append, byteLength_cons, byteLength_nil, quote]
  have stop : byteLength before + byteLength ('"' :: content ++ ['"']) - 1 =
      byteLength (before ++ ['"']) + byteLength content := by
    simp only [List.cons_append, byteLength_cons, byteLength_append, byteLength_nil, quote]
    omega
  rw [range, Span.inner, start, stop, shifted, Source.slice?_between]

theorem isBoundary_start (stands : token.Stands source) :
    source.isBoundary token.span.start = true := by
  rcases stands with ⟨before, after, split, range⟩
  rw [Source.isBoundary, range, split, List.append_assoc, dropBytes?_append]
  rfl

theorem start_le_size (stands : token.Stands source) : token.span.start ≤ source.size := by
  rcases stands with ⟨before, after, split, range⟩
  rw [Source.size, range, split, List.append_assoc, byteLength_append]
  exact Nat.le_add_right _ _

theorem isBoundary_stop (stands : token.Stands source) :
    source.isBoundary token.span.stop = true := by
  rcases stands with ⟨before, after, split, range⟩
  rw [Source.isBoundary, range, split, ← byteLength_append, dropBytes?_append]
  rfl

theorem stop_le_size (stands : token.Stands source) : token.span.stop ≤ source.size := by
  rcases stands with ⟨before, after, split, range⟩
  rw [Source.size, range, split, byteLength_append, byteLength_append]
  exact Nat.le_add_right _ _

theorem hasPosition_start (stands : token.Stands source) :
    source.hasPosition token.span.start = true := by
  rw [Source.hasPosition, Nat.min_eq_left stands.start_le_size]
  exact stands.isBoundary_start

end Stands

end Token

namespace Lexer

theorem stands_of_mem_tokensFrom {source : Source} {token : Token} (pieces : List Piece) :
    forall before : List Char, source.chars = before ++ pieces.flatMap Piece.text ->
      token ∈ tokensFrom (byteLength before) pieces -> token.Stands source := by
  induction pieces with
  | nil => exact fun _ _ impossible => (List.not_mem_nil impossible).elim
  | cons piece rest ih =>
      intro before split member
      rcases piece with ⟨role, text⟩
      rw [List.flatMap_cons, ← List.append_assoc] at split
      have later := ih (before ++ text) split
      rw [byteLength_append] at later
      cases role with
      | layout => exact later member
      | token kind =>
          rcases List.mem_cons.mp member with same | further
          · subst same
            refine ⟨before, rest.flatMap Piece.text, ?_, ?_⟩
            · rw [String.toList_ofList]
              exact split
            · rw [String.toList_ofList]
          · exact later further

/-- The tokens of some pieces stand behind the offset of the first piece, each
behind the one before it. -/
theorem tokensFrom_ordered (pieces : List Piece)
    (pieces_ne_nil : forall piece, piece ∈ pieces -> piece.text ≠ []) (offset : Nat) :
    (forall token, token ∈ tokensFrom offset pieces ->
      offset ≤ token.span.start ∧ token.span.start < token.span.stop) ∧
      (tokensFrom offset pieces).Pairwise
        (fun first second => first.span.stop ≤ second.span.start) := by
  induction pieces generalizing offset with
  | nil => exact ⟨fun _ impossible => (List.not_mem_nil impossible).elim, .nil⟩
  | cons piece rest ih =>
      rcases piece with ⟨role, text⟩
      have notEmpty := pieces_ne_nil _ List.mem_cons_self
      rcases ih (fun other member => pieces_ne_nil other (List.mem_cons_of_mem _ member))
        (offset + byteLength text) with ⟨behind, ordered⟩
      have below : forall token, token ∈ tokensFrom (offset + byteLength text) rest ->
          offset ≤ token.span.start ∧ token.span.start < token.span.stop :=
        fun token member =>
          ⟨Nat.le_trans (Nat.le_add_right _ _) (behind token member).1, (behind token member).2⟩
      cases role with
      | layout => exact ⟨below, ordered⟩
      | token kind =>
          refine ⟨fun token member => ?_, .cons (fun token member => ?_) ordered⟩
          · rcases List.mem_cons.mp member with same | further
            · subst same
              refine ⟨Nat.le_refl _, Nat.lt_add_of_pos_right ?_⟩
              cases text with
              | nil => exact (notEmpty rfl).elim
              | cons char chars => exact Nat.add_pos_left char.utf8Size_pos _
            · exact below token further
          · exact (behind token member).1

theorem text_ne_nil_of_mem_pieces (text : List Char) :
    forall piece, piece ∈ pieces text -> piece.text ≠ [] := by
  induction text using pieces.induct with
  | case1 =>
      intro piece member
      rw [pieces] at member
      exact (List.not_mem_nil member).elim
  | case2 first text ih =>
      intro piece member
      rw [pieces] at member
      rcases List.mem_cons.mp member with same | later
      · intro empty
        have head := cut_head first text
        rw [← same, empty] at head
        exact Option.some_ne_none _ head.symm
      · exact ih piece later

/-- Every token is one of the pieces. -/
theorem exists_piece_of_mem_tokensFrom {token : Token} (pieces : List Piece) (offset : Nat)
    (member : token ∈ tokensFrom offset pieces) :
    Exists fun piece : Piece => piece ∈ pieces ∧ piece.role = .token token.kind ∧
      piece.text = token.text.toList := by
  induction pieces generalizing offset with
  | nil => exact (List.not_mem_nil member).elim
  | cons piece rest ih =>
      rcases piece with ⟨role, text⟩
      have later : token ∈ tokensFrom (offset + byteLength text) rest -> Exists fun piece : Piece =>
          piece ∈ ⟨role, text⟩ :: rest ∧ piece.role = .token token.kind ∧
            piece.text = token.text.toList := by
        intro further
        rcases ih _ further with ⟨found, isPiece, same⟩
        exact ⟨found, List.mem_cons_of_mem _ isPiece, same⟩
      cases role with
      | layout => exact later member
      | token kind =>
          rcases List.mem_cons.mp member with same | further
          · subst same
            exact ⟨_, List.mem_cons_self, rfl, String.toList_ofList.symm⟩
          · exact later further

end Lexer

namespace Source

variable (source : Source)

theorem stands_of_mem_tokens {token : Token} (member : token ∈ source.tokens) :
    token.Stands source :=
  Lexer.stands_of_mem_tokensFrom _ [] (Lexer.pieces_tile source.chars).symm member

theorem quoted_of_mem_tokens {token : Token} (member : token ∈ source.tokens)
    (string : token.kind = .string) :
    Exists fun content : List Char => token.text.toList = '"' :: content ++ ['"'] := by
  rcases Lexer.exists_piece_of_mem_tokensFrom _ _ member with ⟨piece, isPiece, role, text⟩
  rw [string] at role
  rw [← text]
  exact (Lexer.form_of_mem_pieces _ piece isPiece).quoted role

theorem tokens_ordered :
    source.tokens.Pairwise (fun first second => first.span.stop ≤ second.span.start) :=
  (Lexer.tokensFrom_ordered _ (Lexer.text_ne_nil_of_mem_pieces source.chars) 0).2

theorem start_lt_stop_of_mem_tokens {token : Token} (member : token ∈ source.tokens) :
    token.span.start < token.span.stop :=
  ((Lexer.tokensFrom_ordered _ (Lexer.text_ne_nil_of_mem_pieces source.chars) 0).1 _ member).2

end Source

end PlanningDomain
