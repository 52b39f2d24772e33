import PlanningDomain.Token.Lexer

namespace PlanningDomain

/-!
# The forms of pieces

Every piece of a source has one of a few forms.  What is known of all tokens of a
kind, such as that a string stands between quotes, is read off the forms.
-/

namespace Lexer

theorem head_stops {condition : Char -> Bool} {first : Char} (fails : condition first = false)
    (rest : List Char) (char : Char) (isFirst : (first :: rest).head? = some char) :
    condition char = false :=
  Option.some.inj isFirst ▸ fails

/-- Characters that all satisfy a condition are taken together, up to a text that
does not go on with another. -/
theorem takeWhile_of_stop {condition : Char -> Bool} {text rest : List Char}
    (all : forall char, char ∈ text -> condition char = true)
    (stops : forall char, rest.head? = some char -> condition char = false) :
    (text ++ rest).takeWhile condition = text ∧ (text ++ rest).dropWhile condition = rest := by
  rw [List.takeWhile_append_of_pos all, List.dropWhile_append_of_pos all]
  cases rest with
  | nil => exact ⟨List.append_nil text, rfl⟩
  | cons char rest =>
      have other := Bool.eq_false_iff.mp (stops char rfl)
      rw [List.takeWhile_cons_of_neg other, List.dropWhile_cons_of_neg other, List.append_nil]
      exact ⟨rfl, rfl⟩

inductive Piece.Form : Piece -> Prop
  | layout (text : List Char) : Form ⟨.layout, text⟩
  | word (text : List Char) : Form ⟨.token (wordKind text), text⟩
  | integer (text : List Char) : Form ⟨.token .integer, text⟩
  | float (text : List Char) : Form ⟨.token .float, text⟩
  | string (content : List Char) : Form ⟨.token .string, '"' :: content ++ ['"']⟩
  | unquoted (text : List Char) : Form ⟨.token .unknown, text⟩
  | mark (char : Char) : Form ⟨.token (markKind char), [char]⟩
  | pair {first second : Char} {kind : TokenKind} :
      pairKind first second = some kind ->
      Form ⟨.token kind, [first, second]⟩

theorem form_cutMark (first : Char) (text : List Char) : (cutMark first text).piece.Form := by
  cases text with
  | nil => exact .mark first
  | cons second rest =>
      cases pair : pairKind first second with
      | none =>
          rw [cutMark, pair]
          exact .mark first
      | some kind =>
          rw [cutMark, pair]
          exact .pair pair

theorem form_cut (first : Char) (text : List Char) : (cut first text).piece.Form := by
  unfold cut
  split
  · exact .layout _
  · split
    · exact .word _
    · split
      · unfold cutNumber
        split
        · exact .float _
        · exact .integer _
      · split
        case isTrue quote =>
          subst quote
          unfold cutString
          split
          · exact .string _
          · exact .unquoted _
        case isFalse =>
          split
          · unfold cutSlash
            split
            · exact .layout _
            · exact form_cutMark _ _
          · exact form_cutMark _ _

theorem form_of_mem_pieces (text : List Char) :
    forall piece, piece ∈ pieces text -> piece.Form := by
  induction text using pieces.induct with
  | case1 =>
      intro piece member
      rw [pieces] at member
      exact (List.not_mem_nil member).elim
  | case2 first text ih =>
      intro piece member
      rw [pieces] at member
      rcases List.mem_cons.mp member with same | later
      · exact same ▸ form_cut first text
      · exact ih piece later

/-! ## The first character of a piece -/

theorem isBlank_eq_false_of_isWordStart {char : Char} (starts : isWordStart char = true) :
    isBlank char = false := by
  refine Bool.eq_false_iff.mpr (fun blank => ?_)
  simp only [isBlank, Bool.or_eq_true, beq_iff_eq] at blank
  rcases blank with (((same | same) | same) | same) | same
  all_goals
    subst same
    exact Bool.noConfusion starts

theorem isWordStart_eq_false_of_isDigit {char : Char} (digit : char.isDigit = true) :
    isWordStart char = false := by
  rcases Char.isDigit_iff_toNat.mp digit with ⟨least, greatest⟩
  refine Bool.eq_false_iff.mpr (fun starts => ?_)
  have bound : char.val.toNat ≤ 57 := greatest
  rcases Bool.or_eq_true_iff.mp starts with letter | same
  · rcases Bool.or_eq_true_iff.mp letter with upper | lower
    · have range : 65 ≤ char.val ∧ char.val ≤ 90 := of_decide_eq_true upper
      have above : 65 ≤ char.val.toNat := range.1
      exact absurd (Nat.le_trans above bound) (by decide)
    · have range : (97 ≤ char.val && char.val ≤ 122) = true := lower
      have above : 97 ≤ char.val.toNat := of_decide_eq_true (Bool.and_eq_true_iff.mp range).1
      exact absurd (Nat.le_trans above bound) (by decide)
  · rw [beq_iff_eq.mp same] at bound
    exact absurd bound (by decide)

theorem isBlank_eq_false_of_isDigit {char : Char} (digit : char.isDigit = true) :
    isBlank char = false := by
  refine Bool.eq_false_iff.mpr (fun blank => ?_)
  simp only [isBlank, Bool.or_eq_true, beq_iff_eq] at blank
  rcases blank with (((same | same) | same) | same) | same
  all_goals
    subst same
    exact Bool.noConfusion digit

theorem cut_of_isDigit {first : Char} (digit : first.isDigit = true) (text : List Char) :
    cut first text = cutNumber first text := by
  rw [cut, if_neg (Bool.eq_false_iff.mp (isBlank_eq_false_of_isDigit digit)),
    if_neg (Bool.eq_false_iff.mp (isWordStart_eq_false_of_isDigit digit)), if_pos digit]

/-! ## What the kinds of tokens say -/

theorem wordKind_cases (text : List Char) :
    wordKind text = .fact ∨ wordKind text = .identifier := by
  unfold wordKind
  split
  · exact Or.inl rfl
  · exact Or.inr rfl

theorem pairKind_cases {first second : Char} {kind : TokenKind}
    (pair : pairKind first second = some kind) :
    kind = .equal ∨ kind = .notEqual ∨ kind = .lessEqual ∨ kind = .greaterEqual := by
  unfold pairKind at pair
  split at pair
  case h_5 => exact (Option.some_ne_none _ pair.symm).elim
  all_goals
    rw [← Option.some.inj pair]
    decide

namespace Piece.Form

variable {piece : Piece}

/-- Tokens of the other kinds are strings and single marks. -/
theorem cases_of_kind {kind : TokenKind} (form : piece.Form) (same : piece.role = .token kind) :
    kind ∈ [TokenKind.fact, .identifier, .integer, .float, .unknown, .equal, .notEqual,
        .lessEqual, .greaterEqual] ∨
      (kind = .string ∧ Exists fun content : List Char => piece.text = '"' :: content ++ ['"']) ∨
      Exists fun char : Char => piece.text = [char] ∧ markKind char = kind := by
  cases form with
  | layout => exact PieceClass.noConfusion same
  | word text =>
      rw [← PieceClass.token.inj same]
      rcases wordKind_cases text with word | word
      all_goals
        rw [word]
        exact Or.inl (by decide)
  | string content =>
      exact Or.inr (Or.inl ⟨(PieceClass.token.inj same).symm, content, rfl⟩)
  | mark char => exact Or.inr (Or.inr ⟨char, rfl, PieceClass.token.inj same⟩)
  | pair found =>
      rw [← PieceClass.token.inj same]
      rcases pairKind_cases found with pair | pair | pair | pair
      all_goals
        rw [pair]
        exact Or.inl (by decide)
  | _ =>
      rw [← PieceClass.token.inj same]
      exact Or.inl (by decide)

/-- No piece is the end of input. -/
theorem role_ne_endOfInput (form : piece.Form) : piece.role ≠ .token .endOfInput := by
  intro same
  rcases form.cases_of_kind same with other | ⟨string, _⟩ | ⟨char, _, mark⟩
  · exact absurd other (by decide)
  · exact TokenKind.noConfusion string
  · unfold markKind at mark
    split at mark <;> cases mark

/-- A string is its content between two quotes. -/
theorem quoted (form : piece.Form) (same : piece.role = .token .string) :
    Exists fun content : List Char => piece.text = '"' :: content ++ ['"'] := by
  rcases form.cases_of_kind same with other | ⟨_, content⟩ | ⟨char, _, mark⟩
  · exact absurd other (by decide)
  · exact content
  · unfold markKind at mark
    split at mark <;> cases mark

/-- A closing parenthesis is a piece of its own. -/
theorem closing (form : piece.Form) (same : piece.role = .token .rightParen) :
    piece.text = [')'] := by
  rcases form.cases_of_kind same with other | ⟨string, _⟩ | ⟨char, text, mark⟩
  · exact absurd other (by decide)
  · exact TokenKind.noConfusion string
  · unfold markKind at mark
    split at mark
    case h_2 => exact text
    all_goals cases mark

end Piece.Form

end Lexer

end PlanningDomain
