import PlanningDomain.Proofs.Reader.Input
import PlanningDomain.Proofs.Token.Excerpts
import PlanningDomain.Proofs.Token.Lexemes

namespace PlanningDomain

/-!
# Tokens are longest matches

Every piece of a source is described by a pattern of its class, and no longer text
at its place is described by any pattern.  A piece is unknown only where no pattern
describes anything.  So the tokens of a source are what the patterns say, and between
the tokens there is only layout.
-/

/-! ## What is cut off is described -/

/-- A line is over where the text is, and before a line feed. -/
def LineEnds (after : List Char) : Prop :=
  after = [] ∨ Exists fun later : List Char => after = '\n' :: later

/-- A text is a remark with nothing but the end of its line behind it. -/
structure Remark (text after : List Char) : Prop where
  begins : Exists fun content : List Char =>
    text = '/' :: '/' :: content ∧ forall char, char ∈ content -> CharClass.inLine.Has char
  ends : LineEnds after

/-- A text is a string without its closing quote, with nothing but the end of its
line behind it. -/
structure Unclosed (text after : List Char) : Prop where
  begins : Exists fun content : List Char =>
    text = '"' :: content ∧ forall char, char ∈ content -> CharClass.quotable.Has char
  ends : LineEnds after

namespace Lexer

open Pattern

/-- A piece with some text behind it is described by a pattern of its class, or
it is a single character or a string that is not closed. -/
inductive Piece.Described (after : List Char) : Piece -> Prop
  | blanks {text : List Char} :
      (forall char, char ∈ text -> CharClass.blank.Has char) ->
      Described after ⟨.layout, text⟩
  | remark {text : List Char} :
      Remark text after ->
      Described after ⟨.layout, text⟩
  | spelled {kind : TokenKind} {text : List Char} :
      kind.Spells text ->
      Described after ⟨.token kind, text⟩
  | character {char : Char} :
      char ≠ '"' ->
      Described after ⟨.token .unknown, [char]⟩
  | unclosed {text : List Char} :
      Unclosed text after ->
      Described after ⟨.token .unknown, text⟩

namespace Piece.Described

variable {after text : List Char}

theorem spells {kind : TokenKind} (described : Described after ⟨.token kind, text⟩)
    (known : kind ≠ .unknown) : kind.Spells text := by
  cases described with
  | spelled spells => exact spells
  | character | unclosed => exact (known rfl).elim

theorem unknown (described : Described after ⟨.token .unknown, text⟩) :
    (Exists fun char : Char => text = [char] ∧ char ≠ '"') ∨ Unclosed text after := by
  cases described with
  | spelled spells =>
      rcases spells with ⟨pattern, none, _⟩
      exact (Option.some_ne_none _ none.symm).elim
  | character notQuote => exact Or.inl ⟨_, rfl, notQuote⟩
  | unclosed found => exact Or.inr found

theorem layout (described : Described after ⟨.layout, text⟩) :
    (forall char, char ∈ text -> CharClass.blank.Has char) ∨ Remark text after := by
  cases described with
  | blanks each => exact Or.inl each
  | remark found => exact Or.inr found

end Piece.Described

section Cuts

variable {first : Char} {text : List Char}

theorem eq_of_dropWhile_cons {condition : Char -> Bool} {char : Char} {rest : List Char}
    (stopped : text.dropWhile condition = char :: rest) : condition char = false := by
  have fails := List.head?_dropWhile_not condition text
  rw [stopped] at fails
  exact fails

theorem lineEnds_of_dropWhile {condition : Char -> Bool}
    (stops : forall char rest, text.dropWhile condition = char :: rest -> char = '\n') :
    LineEnds (text.dropWhile condition) := by
  cases left : text.dropWhile condition with
  | nil => exact Or.inl rfl
  | cons char rest => exact Or.inr ⟨rest, by rw [stops char rest left]⟩

theorem spells_wordKind (starts : isWordStart first = true) {others : List Char}
    (each : forall char, char ∈ others -> isWordPart char = true) :
    (wordKind (first :: others)).Spells (first :: others) := by
  unfold wordKind
  split
  case isTrue same => exact ⟨_, rfl, (matches_exactly _).mpr same⟩
  case isFalse =>
    exact ⟨_, rfl, .one (isWordStart_iff.mp starts)
      (matches_many_last.mpr ((forall_has isWordPart_iff).mp each))⟩

theorem spells_markKind (known : markKind first ≠ .unknown) : (markKind first).Spells [first] := by
  unfold markKind at known ⊢
  split at known
  case h_15 => exact (known rfl).elim
  all_goals exact ⟨_, rfl, (matches_exactly _).mpr rfl⟩

theorem spells_pairKind {second : Char} {kind : TokenKind}
    (pair : pairKind first second = some kind) : kind.Spells [first, second] := by
  unfold pairKind at pair
  split at pair
  case h_5 => exact (Option.some_ne_none _ pair.symm).elim
  all_goals
    rw [← Option.some.inj pair]
    exact ⟨_, rfl, (matches_exactly _).mpr rfl⟩

theorem described_cutNumber (digit : first.isDigit = true) :
    (cutNumber first text).piece.Described (cutNumber first text).rest := by
  have whole := takeWhile_has isDigit_iff text
  unfold cutNumber
  split
  case h_1 rest _ =>
    refine .spelled ⟨_, rfl, .one (isDigit_iff.mp digit) (matches_many.mpr ⟨_, _, rfl, whole, ?_⟩)⟩
    exact .one (CharClass.has_single.mpr rfl)
      (matches_many_last.mpr (takeWhile_has isDigit_iff rest))
  case h_2 =>
    exact .spelled ⟨_, rfl, .one (isDigit_iff.mp digit) (matches_many_last.mpr whole)⟩

theorem described_cutString :
    (cutString '"' text).piece.Described (cutString '"' text).rest := by
  have content := takeWhile_has isQuotable_iff text
  have quote : (CharClass.single '"').Has '"' := CharClass.has_single.mpr rfl
  unfold cutString
  split
  case h_1 rest _ =>
    exact .spelled ⟨_, rfl, .one quote (matches_many.mpr ⟨_, _, rfl, content, .one quote .done⟩)⟩
  case h_2 open_ =>
    refine .unclosed ⟨⟨_, rfl, content⟩, lineEnds_of_dropWhile (fun char rest stopped => ?_)⟩
    by_contra other
    have notQuote : char ≠ '"' := fun same => open_ rest (same ▸ stopped)
    have stops := eq_of_dropWhile_cons stopped
    rw [isQuotable, bne_iff_ne.mpr notQuote, bne_iff_ne.mpr other] at stops
    exact Bool.noConfusion stops

theorem described_cutMark (notQuote : first ≠ '"') :
    (cutMark first text).piece.Described (cutMark first text).rest := by
  have alone (after : List Char) :
      (⟨.token (markKind first), [first]⟩ : Piece).Described after := by
    by_cases known : markKind first = .unknown
    · rw [known]
      exact .character notQuote
    · exact .spelled (spells_markKind known)
  cases text with
  | nil => exact alone []
  | cons second rest =>
      rw [cutMark]
      split
      case h_1 pair => exact .spelled (spells_pairKind pair)
      case h_2 => exact alone _

theorem described_cutSlash :
    (cutSlash '/' text).piece.Described (cutSlash '/' text).rest := by
  unfold cutSlash
  split
  case h_1 rest =>
    have begins := List.takeWhile_cons_of_pos (l := rest) (by decide : isInLine '/' = true)
    refine .remark ⟨⟨rest.takeWhile isInLine, congrArg _ begins, takeWhile_has isInLine_iff rest⟩,
      lineEnds_of_dropWhile (fun char _ stopped => ?_)⟩
    have stops := eq_of_dropWhile_cons stopped
    exact bne_eq_false_iff_eq.mp stops
  case h_2 => exact described_cutMark (by decide)

theorem described_cut (first : Char) (text : List Char) :
    (cut first text).piece.Described (cut first text).rest := by
  unfold cut
  split
  case isTrue isFirst =>
    exact .blanks (List.forall_mem_cons.mpr
      ⟨isBlank_iff.mp isFirst, takeWhile_has isBlank_iff text⟩)
  case isFalse =>
    split
    case isTrue starts =>
      exact .spelled (spells_wordKind starts (fun _ member => List.mem_takeWhile_imp member))
    case isFalse =>
      split
      case isTrue digit => exact described_cutNumber digit
      case isFalse =>
        split
        case isTrue quote => exact quote ▸ described_cutString
        case isFalse notQuote =>
          split
          case isTrue slash => exact slash ▸ described_cutSlash
          case isFalse => exact described_cutMark notQuote

end Cuts

/-! ## The pieces of a text -/

/-- Every piece of a text is cut off from what is left there. -/
theorem exists_cut_of_pieces {text : List Char} {before after : List Piece} {piece : Piece}
    (split : pieces text = before ++ piece :: after) :
    Exists fun first : Char => Exists fun others : List Char =>
      piece.text ++ after.flatMap Piece.text = first :: others ∧
        cut first others = ⟨piece, after.flatMap Piece.text⟩ := by
  have behind := pieces_of_append split
  rw [List.flatMap_cons] at behind
  generalize after.flatMap Piece.text = rest at behind ⊢
  cases whole : piece.text ++ rest with
  | nil =>
      rw [whole, pieces] at behind
      exact (List.cons_ne_nil _ _ behind.symm).elim
  | cons first others =>
      rw [whole, pieces] at behind
      have isPiece := (List.cons.inj behind).1
      have tiles := cut_tiles first others
      rw [← whole, isPiece] at tiles
      refine ⟨first, others, rfl, ?_⟩
      rw [← isPiece, ← List.append_cancel_left tiles]

section Pieces

variable {text : List Char} {before after : List Piece} {piece : Piece}

theorem described_of_pieces (split : pieces text = before ++ piece :: after) :
    piece.Described (after.flatMap Piece.text) := by
  rcases exists_cut_of_pieces split with ⟨first, others, _, isCut⟩
  have described := described_cut first others
  rw [isCut] at described
  exact described

theorem covers_of_pieces (split : pieces text = before ++ piece :: after) {head : List Char}
    (begins : head <+: piece.text ++ after.flatMap Piece.text) (recognized : Recognized head) :
    piece.Covers head := by
  rcases exists_cut_of_pieces split with ⟨first, others, whole, isCut⟩
  rw [whole] at begins
  have covers := covers_cut (Lexeme.of_recognized recognized) begins
  rw [isCut] at covers
  exact covers

theorem role_fact_of_pieces (split : pieces text = before ++ piece :: after)
    (isFact : piece.text = "fact".toList) : piece.role = .token .fact := by
  rcases exists_cut_of_pieces split with ⟨first, others, whole, isCut⟩
  have isFirst : first = 'f' := by
    rw [isFact] at whole
    exact (List.cons.inj whole).1.symm
  subst isFirst
  have isWord : cutWord 'f' others = ⟨piece, after.flatMap Piece.text⟩ := isCut
  have taken : 'f' :: others.takeWhile isWordPart = "fact".toList :=
    (congrArg (fun cut : Cut => cut.piece.text) isWord).trans isFact
  have role : PieceClass.token (wordKind ('f' :: others.takeWhile isWordPart)) = piece.role :=
    congrArg (fun cut : Cut => cut.piece.role) isWord
  rw [← role, taken]
  rfl

end Pieces

/-- Every byte of a text is in one of its pieces. -/
theorem exists_piece_of_lt (pieces : List Piece) {offset : Nat}
    (inside : offset < byteLength (pieces.flatMap Piece.text)) :
    Exists fun before : List Piece => Exists fun piece : Piece => Exists fun after : List Piece =>
      pieces = before ++ piece :: after ∧ byteLength (before.flatMap Piece.text) ≤ offset ∧
        offset < byteLength (before.flatMap Piece.text) + byteLength piece.text := by
  induction pieces generalizing offset with
  | nil => exact (Nat.not_lt_zero _ inside).elim
  | cons piece rest ih =>
      rw [List.flatMap_cons, byteLength_append] at inside
      rcases Nat.lt_or_ge offset (byteLength piece.text) with here | further
      · refine ⟨[], piece, rest, rfl, Nat.zero_le _, ?_⟩
        rw [List.flatMap_nil, byteLength_nil, Nat.zero_add]
        exact here
      · have later : offset - byteLength piece.text < byteLength (rest.flatMap Piece.text) := by
          omega
        rcases ih later with ⟨before, found, after, split, least, greatest⟩
        refine ⟨piece :: before, found, after, congrArg _ split, ?_, ?_⟩
        · rw [List.flatMap_cons, byteLength_append]
          omega
        · rw [List.flatMap_cons, byteLength_append]
          omega

/-- Tokens end where their pieces do, at the latest. -/
theorem stop_le_of_mem_tokensFrom {pieces : List Piece} {token : Token}
    (member : token ∈ tokensFrom 0 pieces) :
    token.span.stop ≤ byteLength (pieces.flatMap Piece.text) := by
  have stands : token.Stands ⟨pieces.flatMap Piece.text⟩ :=
    stands_of_mem_tokensFrom pieces [] rfl member
  exact stands.stop_le_size

end Lexer

namespace Window

/-- Behind the last token comes the end of input, as often as it is asked for. -/
theorem drawMany_eq (endOffset count : Nat) (tokens : List Token) :
    (drawMany endOffset count tokens).1 =
      tokens.take count ++ List.replicate (count - tokens.length) (.endAt endOffset) := by
  induction count generalizing tokens with
  | zero => rw [Nat.zero_sub]; rfl
  | succ count ih =>
      cases tokens with
      | nil =>
          rw [drawMany, draw, ih, List.take_nil, List.take_nil, List.length_nil, Nat.sub_zero,
            Nat.sub_zero, List.replicate_succ]
          rfl
      | cons token rest =>
          rw [drawMany, draw, ih, List.length_cons, Nat.add_sub_add_right]
          rfl

end Window

/-! ## The tokens of a source -/

namespace Token

/-- The range of a token is a range of the source that is not empty, and its text
is the text of the range. -/
structure Covers (source : Source) (token : Token) : Prop where
  notEmpty : token.span.start < token.span.stop
  inside : token.span.stop ≤ source.size
  begins : source.isBoundary token.span.start = true
  ends : source.isBoundary token.span.stop = true
  text : source.slice? token.span = some token.text

/-- A token is what its kind says, and no longer text at its place is described by
a pattern.  It is unknown only if nothing there is described.  Then it is a single
character, or a string that is not closed. -/
structure IsLongest (token : Token) (after : List Char) : Prop where
  spells : token.kind ≠ .unknown -> token.kind.Spells token.text.toList
  longest : forall head, head <+: token.text.toList ++ after -> Recognized head ->
    token.kind ≠ .unknown ∧ head.length ≤ token.text.toList.length
  keyword : token.kind = .fact ↔ token.text = "fact"
  unknown : token.kind = .unknown ->
    (Exists fun char : Char => token.text.toList = [char] ∧ char ≠ '"') ∨
      Unclosed token.text.toList after

end Token

namespace Source

open Lexer

/-- An offset is in a stretch of blanks or in a remark, which no token meets. -/
def IsLayout (source : Source) (offset : Nat) : Prop :=
  Exists fun before : List Char => Exists fun text : List Char => Exists fun after : List Char =>
    source.chars = before ++ text ++ after ∧
      byteLength before ≤ offset ∧ offset < byteLength before + byteLength text ∧
      ((forall char, char ∈ text -> CharClass.blank.Has char) ∨ Remark text after) ∧
      forall token, token ∈ source.tokens ->
        token.span.stop ≤ byteLength before ∨
          byteLength before + byteLength text ≤ token.span.start

variable (source : Source)

theorem covers_of_mem_tokens {token : Token} (member : token ∈ source.tokens) :
    token.Covers source := by
  have stands := source.stands_of_mem_tokens member
  exact ⟨source.start_lt_stop_of_mem_tokens member, stands.stop_le_size, stands.isBoundary_start,
    stands.isBoundary_stop, stands.slice?_eq⟩

/-- The piece that a token is, among the other pieces of the source. -/
theorem exists_piece_of_mem_tokens {token : Token} (member : token ∈ source.tokens) :
    Exists fun before : List Piece => Exists fun piece : Piece => Exists fun after : List Piece =>
      pieces source.chars = before ++ piece :: after ∧ piece.role = .token token.kind ∧
        piece.text = token.text.toList ∧
        token.span = ⟨byteLength (before.flatMap Piece.text),
          byteLength (before.flatMap Piece.text) + byteLength piece.text⟩ := by
  rcases List.append_of_mem member with ⟨left, right, split⟩
  rcases exists_piece_of_tokensFrom _ 0 split with
    ⟨before, piece, after, isWhole, role, _, starts, stops, _⟩
  have range : token.span = ⟨byteLength (before.flatMap Piece.text),
      byteLength (before.flatMap Piece.text) + byteLength piece.text⟩ := by
    rw [Nat.zero_add] at starts
    rw [← starts, ← stops]
  refine ⟨before, piece, after, isWhole, role, ?_, range⟩
  have tiles := pieces_tile source.chars
  rw [isWhole, List.flatMap_append, List.flatMap_cons, ← List.append_assoc] at tiles
  have stands := (source.stands_of_mem_tokens member).slice?_eq
  rcases source with ⟨chars⟩
  rw [range, ← show _ = chars from tiles, slice?_between] at stands
  rw [← Option.some.inj stands, String.toList_ofList]

theorem isLongest_of_mem_tokens {token : Token} (member : token ∈ source.tokens) :
    Exists fun before : List Char => Exists fun after : List Char =>
      source.chars = before ++ token.text.toList ++ after ∧
        token.span = ⟨byteLength before, byteLength before + byteLength token.text.toList⟩ ∧
        token.IsLongest after := by
  rcases source.exists_piece_of_mem_tokens member with
    ⟨before, ⟨role, text⟩, after, split, sameRole, sameText, range⟩
  dsimp only at sameRole sameText
  subst sameRole sameText
  have described := described_of_pieces split
  refine ⟨before.flatMap Piece.text, after.flatMap Piece.text, ?_, range, described.spells, ?_,
    ⟨fun same => ?_, fun same => ?_⟩, fun same => ?_⟩
  · have tiles := pieces_tile source.chars
    rw [split, List.flatMap_append, List.flatMap_cons, ← List.append_assoc] at tiles
    exact tiles.symm
  · intro head begins recognized
    have covers := covers_of_pieces split begins recognized
    exact ⟨fun same => covers.known (congrArg _ same), covers.length_le⟩
  · have spells := described.spells (same ▸ by decide)
    rw [same] at spells
    rcases spells with ⟨pattern, isPattern, matched⟩
    rw [← Option.some.inj isPattern, Pattern.matches_exactly] at matched
    exact String.toList_inj.mp matched
  · exact PieceClass.token.inj (role_fact_of_pieces split (congrArg String.toList same))
  · rw [same] at described
    exact described.unknown

/-- Between the tokens there is only layout. -/
theorem mem_tokens_or_isLayout {offset : Nat} (inside : offset < source.size) :
    (Exists fun token : Token =>
      token ∈ source.tokens ∧ token.span.start ≤ offset ∧ offset < token.span.stop) ∨
      source.IsLayout offset := by
  have tiles := pieces_tile source.chars
  rw [size, ← tiles] at inside
  rcases exists_piece_of_lt _ inside with ⟨before, ⟨role, text⟩, after, split, least, greatest⟩
  have tokens : source.tokens = tokensFrom 0 before ++
      tokensFrom (byteLength (before.flatMap Piece.text)) (⟨role, text⟩ :: after) := by
    rw [Source.tokens, split, tokensFrom_append, Nat.zero_add]
  cases role with
  | token kind =>
      exact Or.inl ⟨_, tokens ▸ List.mem_append_right _ List.mem_cons_self, least, greatest⟩
  | layout =>
      refine Or.inr ⟨before.flatMap Piece.text, text, after.flatMap Piece.text, ?_, least, greatest,
        (described_of_pieces split).layout, fun token member => ?_⟩
      · rw [split, List.flatMap_append, List.flatMap_cons, ← List.append_assoc] at tiles
        exact tiles.symm
      · rw [tokens] at member
        rcases List.mem_append.mp member with first | second
        · exact Or.inl (stop_le_of_mem_tokensFrom first)
        · have notEmpty : forall piece, piece ∈ after -> piece.text ≠ [] := by
            intro piece isPiece
            have isOne : piece ∈ pieces source.chars :=
              split ▸ List.mem_append_right _ (List.mem_cons_of_mem _ isPiece)
            exact text_ne_nil_of_mem_pieces _ piece isOne
          exact Or.inr ((tokensFrom_ordered after notEmpty _).1 token second).1

/-- The tokens of a source are the longest matches of the patterns, in order, with
nothing but layout between them.  Behind them comes the end of input only. -/
theorem tokens_isLongest (source : Source) :
    (forall token, token ∈ source.tokens -> token.Covers source) ∧
      source.tokens.Pairwise (fun first second => first.span.stop ≤ second.span.start) ∧
      (forall token, token ∈ source.tokens ->
        Exists fun before : List Char => Exists fun after : List Char =>
          source.chars = before ++ token.text.toList ++ after ∧
            token.span = ⟨byteLength before, byteLength before + byteLength token.text.toList⟩ ∧
            token.IsLongest after) ∧
      (forall offset, offset < source.size ->
        (Exists fun token : Token =>
          token ∈ source.tokens ∧ token.span.start ≤ offset ∧ offset < token.span.stop) ∨
          source.IsLayout offset) ∧
      (forall token, token ∈ source.tokens -> token.kind ≠ .endOfInput) ∧
      forall count, (Window.drawMany source.size count source.tokens).1 =
        source.tokens.take count ++ List.replicate (count - source.tokens.length)
          ⟨.endOfInput, ⟨source.size, source.size⟩, ""⟩ :=
  ⟨fun _ => source.covers_of_mem_tokens, source.tokens_ordered,
    fun _ => source.isLongest_of_mem_tokens, fun _ => source.mem_tokens_or_isLayout,
    fun _ member => bne_iff_ne.mp (source.isInput_of_mem_tokens _ member),
    fun count => Window.drawMany_eq source.size count source.tokens⟩

/-- A point behind digits belongs to the number, and two slashes within a string do
not begin a remark. -/
example : (ofString "1. \"//\" // x").tokens =
    [⟨.float, ⟨0, 2⟩, "1."⟩, ⟨.string, ⟨3, 7⟩, "\"//\""⟩] := by
  cbv

end Source

end PlanningDomain
