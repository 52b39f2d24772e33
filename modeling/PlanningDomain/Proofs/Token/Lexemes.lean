import PlanningDomain.Proofs.Token.Forms
import PlanningDomain.Proofs.Token.Patterns

namespace PlanningDomain

/-!
# Lexemes

The texts that a pattern describes fall into a few forms, and each form is cut off
in its own way.  So if a text begins with one of them, then what is cut off there is
at least as long, and it is not unknown.
-/

/-! ## Classes of characters -/

namespace CharClass

variable {char : Char}

theorem has_among_nil : (among []).Has char ↔ False := by
  constructor
  · intro ⟨_, member, _⟩
    exact List.not_mem_nil member
  · exact False.elim

theorem has_among_cons {first last : Char} {ranges : List (Char × Char)} :
    (among ((first, last) :: ranges)).Has char ↔
      (first ≤ char ∧ char ≤ last) ∨ (among ranges).Has char := by
  constructor
  · intro ⟨range, member, bounds⟩
    rcases List.mem_cons.mp member with same | later
    · subst same
      exact Or.inl bounds
    · exact Or.inr ⟨range, later, bounds⟩
  · rintro (bounds | ⟨range, later, bounds⟩)
    · exact ⟨(first, last), List.mem_cons_self, bounds⟩
    · exact ⟨range, List.mem_cons_of_mem _ later, bounds⟩

theorem between_same {bound : Char} : bound ≤ char ∧ char ≤ bound ↔ char = bound := by
  constructor
  · intro bounds
    exact Char.le_antisymm bounds.2 bounds.1
  · intro same
    exact same ▸ ⟨Char.le_refl _, Char.le_refl _⟩

end CharClass

namespace Lexer

open CharClass

variable {char : Char}

theorem isDigit_iff : char.isDigit = true ↔ digit.Has char := by
  rw [digit, has_among_cons, has_among_nil, or_false, Char.isDigit, Bool.and_eq_true,
    decide_eq_true_iff, decide_eq_true_iff]
  rfl

theorem isAlpha_iff : char.isAlpha = true ↔
    ('A' ≤ char ∧ char ≤ 'Z') ∨ ('a' ≤ char ∧ char ≤ 'z') := by
  have upper : char.isUpper = true ↔ 'A' ≤ char ∧ char ≤ 'Z' := decide_eq_true_iff
  have lower : char.isLower = true ↔ 'a' ≤ char ∧ char ≤ 'z' :=
    Bool.and_eq_true_iff.trans (and_congr decide_eq_true_iff decide_eq_true_iff)
  exact Bool.or_eq_true_iff.trans (or_congr upper lower)

theorem isWordStart_iff : isWordStart char = true ↔ wordStart.Has char := by
  rw [wordStart, has_among_cons, has_among_cons, has_among_cons, has_among_nil, or_false,
    between_same, isWordStart, Bool.or_eq_true, isAlpha_iff, beq_iff_eq, or_assoc]

theorem isWordPart_iff : isWordPart char = true ↔ wordPart.Has char := by
  rw [wordPart, has_among_cons, has_among_cons, ← or_assoc, ← isAlpha_iff, has_among_cons,
    has_among_cons, has_among_nil, or_false, between_same, isWordPart, Bool.or_eq_true,
    Char.isAlphanum, Bool.or_eq_true, isDigit_iff, digit, has_among_cons, has_among_nil, or_false,
    beq_iff_eq, or_assoc]

theorem isBlank_iff : isBlank char = true ↔ blank.Has char := by
  simp only [blank, has_among_cons, has_among_nil, or_false, between_same, isBlank,
    Bool.or_eq_true, beq_iff_eq, or_assoc]

theorem isQuotable_iff : isQuotable char = true ↔ quotable.Has char := by
  simp only [quotable, Has, isQuotable, Bool.and_eq_true, bne_iff_ne, List.mem_cons,
    List.not_mem_nil, or_false, not_or, ne_eq]

theorem isInLine_iff : isInLine char = true ↔ inLine.Has char := by
  simp only [inLine, Has, isInLine, bne_iff_ne, List.mem_singleton, ne_eq]

theorem forall_has {condition : Char -> Bool} {allowed : CharClass} {text : List Char}
    (iff : forall {char : Char}, condition char = true ↔ allowed.Has char) :
    (forall char, char ∈ text -> condition char = true) ↔
      forall char, char ∈ text -> allowed.Has char :=
  forall_congr' fun _ => imp_congr_right fun _ => iff

theorem takeWhile_has {condition : Char -> Bool} {allowed : CharClass}
    (iff : forall {char : Char}, condition char = true ↔ allowed.Has char) (text : List Char) :
    forall char, char ∈ text.takeWhile condition -> allowed.Has char :=
  fun _ member => iff.mp (List.mem_takeWhile_imp member)

end Lexer

/-! ## The texts that are described by a pattern -/

/-- An identifier is made of characters of words. -/
theorem TokenKind.parts_of_identifier {text : List Char} (spells : identifier.Spells text) :
    text ≠ [] ∧ forall char, char ∈ text -> Lexer.isWordPart char = true := by
  rcases spells with ⟨pattern, isPattern, matched⟩
  rw [← Option.some.inj isPattern, Pattern.matches_one] at matched
  rcases matched with ⟨first, others, split, starts, later⟩
  have isFirst : Lexer.isWordPart first = true := by
    rw [← Lexer.isWordStart_iff, Lexer.isWordStart, Bool.or_eq_true] at starts
    rw [Lexer.isWordPart, Char.isAlphanum]
    rcases starts with letter | underscore
    · rw [letter]
      rfl
    · rw [underscore, Bool.or_true]
  rw [split]
  refine ⟨List.cons_ne_nil _ _, List.forall_mem_cons.mpr ⟨isFirst, fun char member => ?_⟩⟩
  exact Lexer.isWordPart_iff.mpr (Pattern.matches_many_last.mp later char member)

/-- A text that some pattern describes, told apart by the way in which it is cut
off. -/
inductive Lexeme : List Char -> Prop
  | blanks {first : Char} {others : List Char} :
      Lexer.isBlank first = true ->
      (forall char, char ∈ others -> Lexer.isBlank char = true) ->
      Lexeme (first :: others)
  | remark {content : List Char} :
      (forall char, char ∈ content -> Lexer.isInLine char = true) ->
      Lexeme ('/' :: '/' :: content)
  | word {first : Char} {others : List Char} :
      Lexer.isWordStart first = true ->
      (forall char, char ∈ others -> Lexer.isWordPart char = true) ->
      Lexeme (first :: others)
  | integer {first : Char} {others : List Char} :
      first.isDigit = true ->
      (forall char, char ∈ others -> char.isDigit = true) ->
      Lexeme (first :: others)
  | float {first : Char} {whole fraction : List Char} :
      first.isDigit = true ->
      (forall char, char ∈ whole -> char.isDigit = true) ->
      (forall char, char ∈ fraction -> char.isDigit = true) ->
      Lexeme (first :: (whole ++ '.' :: fraction))
  | string {content : List Char} :
      (forall char, char ∈ content -> Lexer.isQuotable char = true) ->
      Lexeme ('"' :: (content ++ ['"']))
  | mark {char : Char} :
      Lexer.markKind char ≠ .unknown ->
      Lexeme [char]
  | pair {first second : Char} {kind : TokenKind} :
      Lexer.pairKind first second = some kind ->
      Lexeme [first, second]

namespace Lexeme

open Pattern Lexer

theorem of_spells {kind : TokenKind} {text : List Char} (spells : kind.Spells text) :
    Lexeme text := by
  rcases spells with ⟨pattern, same, matched⟩
  cases kind
  case identifier =>
    rw [← Option.some.inj same, matches_one] at matched
    rcases matched with ⟨first, others, split, has, later⟩
    rw [matches_many_last] at later
    exact split ▸ .word (isWordStart_iff.mpr has) ((forall_has isWordPart_iff).mpr later)
  case integer =>
    rw [← Option.some.inj same, matches_one] at matched
    rcases matched with ⟨first, others, split, has, later⟩
    rw [matches_many_last] at later
    exact split ▸ .integer (isDigit_iff.mpr has) ((forall_has isDigit_iff).mpr later)
  case float =>
    rw [← Option.some.inj same, matches_one] at matched
    rcases matched with ⟨first, others, split, has, later⟩
    rw [matches_many] at later
    rcases later with ⟨whole, behind, splitOthers, digits, later⟩
    rw [matches_one] at later
    rcases later with ⟨point, fraction, splitBehind, isPoint, later⟩
    rw [matches_many_last] at later
    subst split splitOthers splitBehind
    rw [CharClass.has_single.mp isPoint]
    exact .float (isDigit_iff.mpr has) ((forall_has isDigit_iff).mpr digits)
      ((forall_has isDigit_iff).mpr later)
  case string =>
    rw [← Option.some.inj same, matches_one] at matched
    rcases matched with ⟨opening, others, split, isOpening, later⟩
    rw [matches_many] at later
    rcases later with ⟨content, behind, splitOthers, each, later⟩
    rw [matches_one] at later
    rcases later with ⟨closing, nothing, splitBehind, isClosing, later⟩
    rw [matches_nil] at later
    subst split splitOthers splitBehind later
    rw [CharClass.has_single.mp isOpening, CharClass.has_single.mp isClosing]
    exact .string ((forall_has isQuotable_iff).mpr each)
  case fact =>
    rw [← Option.some.inj same, matches_exactly] at matched
    have each : ['a', 'c', 't'].all isWordPart = true := by decide
    exact matched ▸ .word (by decide : isWordStart 'f' = true) (List.all_eq_true.mp each)
  case unknown => exact (Option.some_ne_none _ same.symm).elim
  case endOfInput => exact (Option.some_ne_none _ same.symm).elim
  case equal | notEqual | lessEqual | greaterEqual =>
    rw [← Option.some.inj same, matches_exactly] at matched
    exact matched ▸ .pair rfl
  all_goals
    rw [← Option.some.inj same, matches_exactly] at matched
    exact matched ▸ .mark (by decide)

theorem of_layout {pattern : Pattern} {text : List Char} (member : pattern ∈ layout)
    (matched : pattern.Matches text) : Lexeme text := by
  rcases List.mem_cons.mp member with same | same
  · rw [same, matches_one] at matched
    rcases matched with ⟨first, others, split, has, later⟩
    rw [matches_many_last] at later
    exact split ▸ .blanks (isBlank_iff.mpr has) ((forall_has isBlank_iff).mpr later)
  · rw [List.mem_singleton.mp same, matches_exactly_append] at matched
    rcases matched with ⟨content, split, later⟩
    rw [matches_many_last] at later
    exact split ▸ .remark ((forall_has isInLine_iff).mpr later)

theorem of_recognized {text : List Char} (recognized : Recognized text) : Lexeme text := by
  rcases recognized with ⟨kind, spells⟩ | ⟨pattern, member, matched⟩
  · exact of_spells spells
  · exact of_layout member matched

end Lexeme

/-! ## What is cut off is the longest match -/

namespace Lexer

/-- Layout, or a token of a known kind. -/
def PieceClass.Known (role : PieceClass) : Prop :=
  role ≠ .token .unknown

theorem PieceClass.known_layout : PieceClass.layout.Known :=
  fun same => PieceClass.noConfusion same

theorem PieceClass.known_token {kind : TokenKind} (other : kind ≠ .unknown) :
    (PieceClass.token kind).Known :=
  fun same => other (PieceClass.token.inj same)

/-- A piece is of a known class, and at least as long as a text. -/
structure Piece.Covers (piece : Piece) (head : List Char) : Prop where
  known : piece.role.Known
  length_le : head.length ≤ piece.text.length

section Covers

variable {first : Char} {text head : List Char}

theorem length_le_takeWhile {condition : Char -> Bool} (begins : head <+: text)
    (each : forall char, char ∈ head -> condition char = true) :
    head.length ≤ (text.takeWhile condition).length := by
  rcases begins with ⟨rest, same⟩
  rw [← same, List.takeWhile_append_of_pos each, List.length_append]
  exact Nat.le_add_right _ _

theorem wordKind_ne_unknown (word : List Char) : wordKind word ≠ .unknown := by
  unfold wordKind
  split <;> decide

theorem pairKind_ne_unknown {second : Char} {kind : TokenKind}
    (pair : pairKind first second = some kind) : kind ≠ .unknown := by
  rcases pairKind_cases pair with same | same | same | same
  all_goals
    subst same
    decide

theorem covers_cutWhile {role : PieceClass} {condition : Char -> Bool} (known : role.Known)
    (begins : head <+: text) (each : forall char, char ∈ head -> condition char = true) :
    (cutWhile role condition first text).piece.Covers (first :: head) :=
  ⟨known, Nat.succ_le_succ (length_le_takeWhile begins each)⟩

theorem covers_cutWord (begins : head <+: text)
    (each : forall char, char ∈ head -> isWordPart char = true) :
    (cutWord first text).piece.Covers (first :: head) :=
  covers_cutWhile (PieceClass.known_token (wordKind_ne_unknown _)) begins each

theorem covers_cutNumber (begins : head <+: text)
    (each : forall char, char ∈ head -> char.isDigit = true) :
    (cutNumber first text).piece.Covers (first :: head) := by
  have digits := length_le_takeWhile begins each
  unfold cutNumber
  split
  · refine ⟨PieceClass.known_token (by decide), ?_⟩
    rw [List.cons_append, List.length_cons, List.length_cons, List.length_append]
    omega
  · exact ⟨PieceClass.known_token (by decide), Nat.succ_le_succ digits⟩

theorem covers_cutNumber_point {whole fraction : List Char}
    (begins : whole ++ '.' :: fraction <+: text)
    (digits : forall char, char ∈ whole -> char.isDigit = true)
    (further : forall char, char ∈ fraction -> char.isDigit = true) :
    (cutNumber first text).piece.Covers (first :: (whole ++ '.' :: fraction)) := by
  rcases begins with ⟨rest, same⟩
  rw [List.append_assoc, List.cons_append] at same
  have before : text.takeWhile Char.isDigit = whole := by
    rw [← same, List.takeWhile_append_of_pos digits, List.takeWhile_cons_of_neg (by decide),
      List.append_nil]
  have behind : text.dropWhile Char.isDigit = '.' :: (fraction ++ rest) := by
    rw [← same, List.dropWhile_append_of_pos digits, List.dropWhile_cons_of_neg (by decide)]
  have fractional := length_le_takeWhile (List.prefix_append fraction rest) further
  rw [cutNumber, behind, before]
  refine ⟨PieceClass.known_token (by decide), ?_⟩
  simp only [List.length_cons, List.length_append]
  omega

theorem covers_cutString {content : List Char} (begins : content ++ ['"'] <+: text)
    (quotable : forall char, char ∈ content -> isQuotable char = true) :
    (cutString first text).piece.Covers (first :: (content ++ ['"'])) := by
  rcases begins with ⟨rest, same⟩
  rw [List.append_assoc, List.singleton_append] at same
  have before : text.takeWhile isQuotable = content := by
    rw [← same, List.takeWhile_append_of_pos quotable, List.takeWhile_cons_of_neg (by decide),
      List.append_nil]
  have behind : text.dropWhile isQuotable = '"' :: rest := by
    rw [← same, List.dropWhile_append_of_pos quotable, List.dropWhile_cons_of_neg (by decide)]
  rw [cutString, behind, before]
  exact ⟨PieceClass.known_token (by decide), Nat.le_refl _⟩

theorem covers_cutMark (known : markKind first ≠ .unknown) :
    (cutMark first text).piece.Covers [first] := by
  have alone : (⟨.token (markKind first), [first]⟩ : Piece).Covers [first] :=
    ⟨PieceClass.known_token known, Nat.le_refl _⟩
  cases text with
  | nil => exact alone
  | cons second rest =>
      rw [cutMark]
      split
      case h_1 pair => exact ⟨PieceClass.known_token (pairKind_ne_unknown pair), Nat.le_succ _⟩
      case h_2 => exact alone

theorem covers_cutSlash : (cutSlash '/' text).piece.Covers ['/'] := by
  unfold cutSlash
  split
  · exact ⟨PieceClass.known_layout, Nat.succ_le_succ (Nat.zero_le _)⟩
  · exact covers_cutMark (by decide)

/-- A mark is cut off as a mark. -/
theorem cut_of_markKind (known : markKind first ≠ .unknown) :
    cut first text = if first = '/' then cutSlash first text else cutMark first text := by
  unfold markKind at known
  split at known
  case h_15 => exact (known rfl).elim
  all_goals rfl

theorem cut_of_pairKind {second : Char} {kind : TokenKind}
    (pair : pairKind first second = some kind) :
    cut first (second :: text) = ⟨⟨.token kind, [first, second]⟩, text⟩ := by
  unfold pairKind at pair
  split at pair
  case h_5 => exact (Option.some_ne_none _ pair.symm).elim
  all_goals
    rw [← Option.some.inj pair]
    rfl

/-- What is cut off covers every text at its place that is described by a pattern. -/
theorem covers_cut (lexeme : Lexeme head) (begins : head <+: first :: text) :
    (cut first text).piece.Covers head := by
  cases lexeme with
  | blanks isFirst each =>
      rcases List.cons_prefix_cons.mp begins with ⟨same, further⟩
      subst same
      rw [cut, if_pos isFirst]
      exact covers_cutWhile PieceClass.known_layout further each
  | remark each =>
      rcases List.cons_prefix_cons.mp begins with ⟨same, ⟨rest, further⟩⟩
      subst same further
      have inLine : forall char, char ∈ '/' :: _ -> isInLine char = true :=
        List.forall_mem_cons.mpr ⟨by decide, each⟩
      exact covers_cutWhile PieceClass.known_layout (List.prefix_append _ rest) inLine
  | word isFirst each =>
      rcases List.cons_prefix_cons.mp begins with ⟨same, further⟩
      subst same
      have notBlank := isBlank_eq_false_of_isWordStart isFirst
      rw [cut, if_neg (Bool.eq_false_iff.mp notBlank), if_pos isFirst]
      exact covers_cutWord further each
  | integer isFirst each =>
      rcases List.cons_prefix_cons.mp begins with ⟨same, further⟩
      subst same
      rw [cut_of_isDigit isFirst]
      exact covers_cutNumber further each
  | float isFirst digits fraction =>
      rcases List.cons_prefix_cons.mp begins with ⟨same, further⟩
      subst same
      rw [cut_of_isDigit isFirst]
      exact covers_cutNumber_point further digits fraction
  | string each =>
      rcases List.cons_prefix_cons.mp begins with ⟨same, further⟩
      subst same
      exact covers_cutString further each
  | mark known =>
      rcases List.cons_prefix_cons.mp begins with ⟨same, _⟩
      subst same
      rw [cut_of_markKind known]
      split
      case isTrue slash =>
        subst slash
        exact covers_cutSlash
      case isFalse => exact covers_cutMark known
  | pair found =>
      rcases List.cons_prefix_cons.mp begins with ⟨same, ⟨rest, further⟩⟩
      subst same further
      rw [List.singleton_append, cut_of_pairKind found]
      exact ⟨PieceClass.known_token (pairKind_ne_unknown found), Nat.le_refl _⟩

end Covers

end Lexer

end PlanningDomain
