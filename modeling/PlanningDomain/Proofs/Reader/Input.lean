import PlanningDomain.Proofs.Token.Forms
import PlanningDomain.Reader.Basic

namespace PlanningDomain

/-!
# What a reader sees of its input

The tokens that are still to be read are all that a reader can see.  Behind
them the window shows the end of input, as often as it is wide.  With at
least two tokens in the window, the current token and the next one are known
from the tokens still to be read.
-/

namespace Lexer

theorem isInput_of_mem_tokensFrom {pieces : List Piece}
    (roles : forall piece, piece ∈ pieces -> piece.role ≠ .token .endOfInput) (offset : Nat) :
    forall token, token ∈ tokensFrom offset pieces -> Window.isInput token = true := by
  induction pieces generalizing offset with
  | nil => exact fun _ impossible => (List.not_mem_nil impossible).elim
  | cons piece rest ih =>
      intro token member
      have below := ih (fun other isOther => roles other (List.mem_cons_of_mem _ isOther))
      rcases piece with ⟨role, text⟩
      cases role with
      | layout => exact below _ token member
      | token kind =>
          rcases List.mem_cons.mp member with same | later
          · subst same
            exact bne_iff_ne.mpr (fun ended => roles _ List.mem_cons_self (congrArg _ ended))
          · exact below _ token later

end Lexer

/-- The end of input is no token of a source. -/
theorem Source.isInput_of_mem_tokens (source : Source) :
    forall token, token ∈ source.tokens -> Window.isInput token = true :=
  Lexer.isInput_of_mem_tokensFrom
    (fun piece member => (Lexer.form_of_mem_pieces source.chars piece member).role_ne_endOfInput) 0

/-! ## Windows -/

namespace Window

/-- The tokens still to be read through a window that is wide enough to tell
calls from variables. -/
structure Shows (window : Window) (tokens : List Token) : Prop where
  input : forall token, token ∈ tokens -> isInput token = true
  wide : minimumLookAhead ≤ window.held.length
  split : Exists fun ends : List Token =>
    window.held ++ window.coming = tokens ++ ends ∧
      forall token, token ∈ ends -> token.kind = .endOfInput

theorem drawMany_append (endOffset count : Nat) (tokens : List Token) :
    Exists fun ends : List Token =>
      (drawMany endOffset count tokens).1 ++ (drawMany endOffset count tokens).2 = tokens ++ ends ∧
        forall token, token ∈ ends -> token.kind = .endOfInput := by
  induction count generalizing tokens with
  | zero =>
      refine ⟨[], (List.append_nil tokens).symm, ?_⟩
      exact fun _ impossible => (List.not_mem_nil impossible).elim
  | succ count ih =>
      cases tokens with
      | nil =>
          rcases ih [] with ⟨ends, split, ended⟩
          refine ⟨.endAt endOffset :: ends, congrArg _ split, fun token member => ?_⟩
          rcases List.mem_cons.mp member with same | later
          · exact same ▸ rfl
          · exact ended token later
      | cons token rest =>
          rcases ih rest with ⟨ends, split, ended⟩
          exact ⟨ends, congrArg _ split, ended⟩

/-- A window at the beginning of some tokens shows all of them. -/
theorem shows_start {width : Nat} (wide : minimumLookAhead ≤ width) {tokens : List Token}
    (input : forall token, token ∈ tokens -> isInput token = true) (endOffset : Nat) :
    (start width tokens endOffset).Shows tokens where
  input := input
  wide := by
    rw [length_held_start]
    exact Nat.le_trans wide (Nat.le_max_left _ _)
  split := by
    obtain ⟨count, same⟩ : Exists fun count : Nat => width = count + 1 :=
      Nat.exists_eq_succ_of_ne_zero (Nat.ne_of_gt (Nat.lt_of_lt_of_le Nat.zero_lt_two wide))
    subst same
    exact drawMany_append endOffset (count + 1) tokens

/-- A window for two tokens holds the current token and the next one. -/
theorem held_of_wide (window : Window) (wide : minimumLookAhead ≤ window.held.length) :
    Exists fun next : Token => Exists fun others : List Token =>
      window.held = window.current :: next :: others ∧ window.peek? 1 = some next ∧
        window.advance.current = next := by
  rcases window with ⟨current, ahead, coming, endOffset⟩
  cases ahead with
  | nil => exact (Nat.not_succ_le_self 1 wide).elim
  | cons next others => exact ⟨next, others, rfl, rfl, rfl⟩

/-- Reading on does not change what comes later. -/
theorem advance_append (window : Window) :
    Exists fun ends : List Token =>
      window.current :: (window.advance.held ++ window.advance.coming) =
        window.held ++ window.coming ++ ends ∧
        forall token, token ∈ ends -> token.kind = .endOfInput := by
  rcases window with ⟨current, ahead, coming, endOffset⟩
  cases coming with
  | nil =>
      refine ⟨[.endAt endOffset], ?_, fun token member => List.mem_singleton.mp member ▸ rfl⟩
      cases ahead with
      | nil => rfl
      | cons next others =>
          simp only [advance, draw, held, List.append_nil, List.cons_append]
  | cons next others =>
      refine ⟨[], ?_, fun _ impossible => (List.not_mem_nil impossible).elim⟩
      cases ahead with
      | nil => rw [List.append_nil]; rfl
      | cons first rest =>
          simp only [advance, draw, held, List.append_assoc, List.nil_append, List.cons_append,
            List.append_nil]

namespace Shows

variable {window : Window} {token : Token} {tokens : List Token}

theorem current_eq (shows : window.Shows (token :: tokens)) : window.current = token := by
  rcases shows.split with ⟨ends, split, _⟩
  exact (List.cons.inj split).1

theorem current_kind (shows : window.Shows []) : window.current.kind = .endOfInput := by
  rcases shows.split with ⟨ends, split, ended⟩
  rw [List.nil_append] at split
  exact ended _ (split ▸ List.mem_cons_self)

theorem advance (shows : window.Shows (token :: tokens)) : window.advance.Shows tokens where
  input := fun other member => shows.input other (List.mem_cons_of_mem _ member)
  wide := by
    rw [length_held_advance]
    exact shows.wide
  split := by
    rcases shows.split with ⟨ends, split, ended⟩
    rcases advance_append window with ⟨more, moved, endedMore⟩
    rw [split, List.append_assoc] at moved
    refine ⟨ends ++ more, (List.cons.inj moved).2, fun other member => ?_⟩
    rcases List.mem_append.mp member with first | second
    · exact ended other first
    · exact endedMore other second

/-- The token after the current one. -/
theorem peek_eq {next : Token} (shows : window.Shows (token :: next :: tokens)) :
    window.peek? 1 = some next := by
  rcases held_of_wide window shows.wide with ⟨found, _, _, peeked, current⟩
  rw [peeked, ← current, shows.advance.current_eq]

theorem peek_kind (shows : window.Shows [token]) :
    Exists fun next : Token => window.peek? 1 = some next ∧ next.kind = .endOfInput := by
  rcases held_of_wide window shows.wide with ⟨found, _, _, peeked, current⟩
  exact ⟨found, peeked, current ▸ shows.advance.current_kind⟩

end Shows

end Window

/-! ## Readers -/

namespace Reader

/-- The tokens that a reader has still to read. -/
def Shows (reader : Reader) (tokens : List Token) : Prop :=
  reader.window.Shows tokens

theorem shows_start (source : Source) (options : Options) :
    (start source options).Shows source.tokens :=
  Window.shows_start (Nat.le_max_right _ _) source.isInput_of_mem_tokens source.size

/-- The token after the current one becomes the current one. -/
theorem sees_advance_of_seesNext {reader : Reader} {kind : TokenKind}
    (seen : reader.seesNext kind = true) : reader.advance.sees kind = true := by
  rcases reader with ⟨source, options, ⟨current, ahead, coming, endOffset⟩, others⟩
  cases ahead with
  | nil => exact Bool.noConfusion seen
  | cons next rest => exact seen

namespace Shows

variable {reader : Reader} {kind : TokenKind} {token : Token} {tokens : List Token}

theorem current_eq (shows : reader.Shows (token :: tokens)) : reader.current = token :=
  Window.Shows.current_eq shows

theorem sees_eq (shows : reader.Shows (token :: tokens)) (kind : TokenKind) :
    reader.sees kind = (token.kind == kind) := by
  rw [sees, shows.current_eq]

theorem sees_of (shows : reader.Shows (token :: tokens)) (same : token.kind = kind) :
    reader.sees kind = true := by
  rw [shows.sees_eq]
  exact beq_iff_eq.mpr same

theorem sees_end (shows : reader.Shows []) : reader.sees .endOfInput = true :=
  beq_iff_eq.mpr (Window.Shows.current_kind shows)

/-- A token that is seen is the first of those still to be read. -/
theorem exists_cons (shows : reader.Shows tokens) (seen : reader.sees kind = true)
    (input : kind ≠ .endOfInput) :
    Exists fun rest : List Token => tokens = reader.current :: rest := by
  cases tokens with
  | nil =>
      have ended := shows.sees_end
      exact (input ((beq_iff_eq.mp seen).symm.trans (beq_iff_eq.mp ended))).elim
  | cons token rest => exact ⟨rest, by rw [shows.current_eq]⟩

theorem eq_nil (shows : reader.Shows tokens) (ended : reader.sees .endOfInput = true) :
    tokens = [] := by
  cases tokens with
  | nil => rfl
  | cons token rest =>
      rw [shows.sees_eq] at ended
      exact (bne_iff_ne.mp (shows.input token List.mem_cons_self) (beq_iff_eq.mp ended)).elim

theorem advance (shows : reader.Shows (token :: tokens)) : reader.advance.Shows tokens :=
  Window.Shows.advance shows

theorem reserve (shows : reader.Shows tokens) : reader.reserve.Shows tokens :=
  shows

/-- The next token is the one that stands after the current one. -/
theorem seesNext_eq (shows : reader.Shows (token :: tokens)) (kind : TokenKind) :
    reader.seesNext kind = reader.advance.sees kind := by
  have later := shows.advance
  cases tokens with
  | nil =>
      rcases Window.Shows.peek_kind shows with ⟨next, peeked, ended⟩
      rw [seesNext, peeked, sees, current, later.current_kind, Option.any_some, ended]
  | cons next rest =>
      rw [seesNext, Window.Shows.peek_eq shows, later.sees_eq, Option.any_some]

end Shows

end Reader

end PlanningDomain
