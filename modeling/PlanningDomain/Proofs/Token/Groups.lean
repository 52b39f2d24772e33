import Mathlib.Data.List.Forall2
import PlanningDomain.Token.Kind

namespace PlanningDomain

/-!
# Groups of tokens

An opening parenthesis belongs to the closing one that stands at the same depth,
where only parentheses count.  Both and what stands between them are a group.
Nothing else is asked of the tokens inside.  An opening parenthesis whose group
has no end is followed by tokens that never close it.
-/

namespace Token

/-- Tokens of one kind with one text, wherever they stand. -/
structure Alike (token like : Token) : Prop where
  kind : token.kind = like.kind
  text : token.text = like.text

theorem Alike.refl (token : Token) : token.Alike token :=
  ⟨rfl, rfl⟩

end Token

/-- The number of groups that are open after a token, given how many were open
before it.  There is none if the token closes a group that was not opened. -/
def openPast : Nat -> TokenKind -> Option Nat
  | depth, .leftParen => some (depth + 1)
  | 0, .rightParen => none
  | outer + 1, .rightParen => some outer
  | depth, _ => some depth

/-- The number of groups that are open after some tokens. -/
def openAfter (depth : Nat) (tokens : List Token) : Option Nat :=
  tokens.foldlM (fun depth token => openPast depth token.kind) depth

section OpenAfter

variable {depth : Nat} {token : Token} {rest : List Token}

theorem openAfter_cons :
    openAfter depth (token :: rest) =
      (openPast depth token.kind).bind (fun inner => openAfter inner rest) :=
  List.foldlM_cons

theorem openAfter_of_opens (opens : token.kind = .leftParen) :
    openAfter depth (token :: rest) = openAfter (depth + 1) rest := by
  rw [openAfter_cons, opens]
  cases depth <;> rfl

theorem openAfter_of_closes (closes : token.kind = .rightParen) :
    openAfter (depth + 1) (token :: rest) = openAfter depth rest := by
  rw [openAfter_cons, closes]
  rfl

theorem openAfter_zero_of_closes (closes : token.kind = .rightParen) :
    openAfter 0 (token :: rest) = none := by
  rw [openAfter_cons, closes]
  rfl

theorem openAfter_of_other (unopened : token.kind ≠ .leftParen)
    (unclosed : token.kind ≠ .rightParen) :
    openAfter depth (token :: rest) = openAfter depth rest := by
  rw [openAfter_cons]
  unfold openPast
  split
  case h_1 opens => exact (unopened opens).elim
  case h_2 closes => exact (unclosed closes).elim
  case h_3 closes => exact (unclosed closes).elim
  case h_4 => rfl

/-- If more groups are closed than were opened, then some token closes the
outermost one, and all groups inside of it are closed before. -/
theorem exists_closing_of_openAfter {tokens : List Token}
    (unopened : openAfter depth tokens = none) :
    Exists fun inside : List Token => Exists fun closing : Token => Exists fun rest : List Token =>
      tokens = inside ++ closing :: rest ∧ openAfter depth inside = some 0 ∧
        closing.kind = .rightParen := by
  induction tokens generalizing depth with
  | nil => exact (Option.some_ne_none _ unopened).elim
  | cons token later ih =>
      have further {inner : Nat} (moved : forall inside : List Token,
          openAfter depth (token :: inside) = openAfter inner inside) :
          Exists fun inside : List Token => Exists fun closing : Token =>
            Exists fun rest : List Token => token :: later = inside ++ closing :: rest ∧
              openAfter depth inside = some 0 ∧ closing.kind = .rightParen := by
        rw [moved] at unopened
        rcases ih unopened with ⟨inside, closing, rest, split, balanced, closes⟩
        exact ⟨token :: inside, closing, rest, congrArg _ split, (moved inside).trans balanced,
          closes⟩
      by_cases opens : token.kind = .leftParen
      · exact further (fun _ => openAfter_of_opens opens)
      · by_cases closes : token.kind = .rightParen
        · cases depth with
          | zero => exact ⟨[], token, later, rfl, rfl, closes⟩
          | succ outer => exact further (fun _ => openAfter_of_closes closes)
        · exact further (fun _ => openAfter_of_other opens closes)

/-- The depth of tokens depends on their kinds only. -/
theorem openAfter_congr {tokens others : List Token}
    (alike : List.Forall₂ Token.Alike tokens others) : forall depth : Nat,
      openAfter depth tokens = openAfter depth others := by
  induction alike with
  | nil => exact fun _ => rfl
  | cons same _ ih =>
      intro depth
      rw [openAfter_cons, openAfter_cons, same.kind]
      simp only [ih]

end OpenAfter

/-- A pair of parentheses that belong together, with the tokens between them. -/
structure Group where
  opening : Token
  inside : List Token
  closing : Token
  opens : opening.kind = .leftParen
  balanced : openAfter 0 inside = some 0
  closes : closing.kind = .rightParen

namespace Group

def tokens (group : Group) : List Token :=
  group.opening :: (group.inside ++ [group.closing])

/-- The range of the source from the opening to the closing parenthesis. -/
def span (group : Group) : Span :=
  ⟨group.opening.span.start, group.closing.span.stop⟩

theorem tokens_append (group : Group) (rest : List Token) :
    group.tokens ++ rest = group.opening :: (group.inside ++ group.closing :: rest) := by
  rw [tokens, List.cons_append, List.append_assoc, List.singleton_append]

/-- Tokens alike to those of a group are a group, with alike tokens in the same
places. -/
theorem exists_alike {group : Group} {tokens : List Token}
    (alike : List.Forall₂ Token.Alike group.tokens tokens) :
    Exists fun like : Group => tokens = like.tokens ∧
      List.Forall₂ Token.Alike group.inside like.inside ∧ group.closing.Alike like.closing := by
  rcases List.forall₂_cons_left_iff.mp alike with ⟨opening, later, isOpening, alikeLater, split⟩
  have inside := List.forall₂_take group.inside.length alikeLater
  have ended := List.forall₂_drop group.inside.length alikeLater
  rw [List.take_left] at inside
  rw [List.drop_left] at ended
  rcases List.forall₂_cons_left_iff.mp ended with ⟨closing, _, isClosing, none, behind⟩
  cases none
  refine ⟨⟨opening, later.take group.inside.length, closing, isOpening.kind ▸ group.opens, ?_,
    isClosing.kind ▸ group.closes⟩, ?_, inside, isClosing⟩
  · exact (openAfter_congr inside 0).symm.trans group.balanced
  · rw [split, Group.tokens, ← behind, List.take_append_drop]

/-- Groups with alike tokens have them in the same places. -/
theorem alike_parts {group like : Group}
    (alike : List.Forall₂ Token.Alike group.tokens like.tokens) :
    List.Forall₂ Token.Alike group.inside like.inside ∧ group.closing.Alike like.closing := by
  rcases exists_alike alike with ⟨twin, same, inside, closing⟩
  rcases List.cons.inj same with ⟨_, parts⟩
  rcases List.append_inj' parts rfl with ⟨sameInside, sameClosing⟩
  rw [sameInside, (List.cons.inj sameClosing).1]
  exact ⟨inside, closing⟩

/-- If no group begins the tokens from an opening parenthesis on, then nothing
after it closes it. -/
theorem openAfter_ne_none_of_unmatched {opening : Token} {tokens : List Token}
    (opens : opening.kind = .leftParen)
    (unmatched : forall (group : Group) (rest : List Token),
      opening :: tokens ≠ group.tokens ++ rest) : openAfter 0 tokens ≠ none := by
  intro unopened
  rcases exists_closing_of_openAfter unopened with ⟨inside, closing, rest, split, balanced, closes⟩
  apply unmatched ⟨opening, inside, closing, opens, balanced, closes⟩ rest
  rw [tokens_append, split]

end Group

end PlanningDomain
