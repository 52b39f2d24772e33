import PlanningDomain.Proofs.Grammar.Basic
import PlanningDomain.Proofs.Reader.Input
import PlanningDomain.Proofs.Reader.Runs

namespace PlanningDomain

/-!
# What a silent reader has read

A reader is silent as long as it has noted no problem.  Where it is silent
after an expression was read, it was silent before, the expression is there, and
the tokens that were read are derived from the grammar with the term of the
expression.  Every report is a problem that stays noted.  So the branches that
report have nothing to account for, and those that skip the rest of a group are
among them.
-/

/-- An integer fits into sixty-four bits with a sign. -/
def Token.Fits (token : Token) : Prop :=
  token.kind = .integer -> digitsValue token.text.toList < Nat.pow 2 63

namespace Token

variable {token : Token}

/-- The greatest integer that fits is the greatest one of its type. -/
theorem fits_iff_le_maxValue : token.Fits ↔
    (token.kind = .integer -> (digitsValue token.text.toList : Int) ≤ Int64.maxValue.toInt) := by
  refine imp_congr_right (fun _ => ?_)
  rw [show Int64.maxValue.toInt = 9223372036854775807 from rfl]
  change _ < 9223372036854775808 ↔ _
  omega

/-- An integer fits if and only if it is read, without a problem, as the number that its
digits denote. -/
theorem fits_iff_constant (isInteger : token.kind = .integer) : token.Fits ↔
    Exists fun value : Int64 => token.constant? = some (.int value, []) ∧
      value.toInt = digitsValue token.text.toList := by
  have read : token.constant? =
      if digitsValue token.text.toList < Nat.pow 2 63 then
        some (.int (Int64.ofNat (digitsValue token.text.toList)), [])
      else some (.int 0, [.integerOutOfRange]) := by
    rw [constant?, isInteger]
  constructor
  · intro fits
    refine ⟨_, read.trans (if_pos (fits isInteger)), ?_⟩
    exact Int64.toInt_ofNat_of_lt (fits isInteger)
  · rintro ⟨value, isRead, -⟩ _
    by_contra unfit
    rw [read, if_neg unfit] at isRead
    cases isRead

end Token

namespace Reader

open Grammar

def Silent (reader : Reader) : Prop :=
  reader.diagnostics = []

/-! ## Reports are kept -/

theorem not_silent_report (reader : Reader) (span : Span) (problem : Problem) :
    ¬ (reader.report span problem).Silent :=
  List.append_ne_nil_of_right_ne_nil _ (List.cons_ne_nil _ _)

theorem diagnostics_skipGroup (depth : Nat) (reader : Reader) :
    (skipGroup depth reader).diagnostics = reader.diagnostics := by
  induction depth, reader using skipGroup.induct with
  | case1 depth reader ended => rw [skipGroup, dif_pos ended]
  | case2 depth reader ended closes => rw [skipGroup, dif_neg ended, if_pos closes]
  | case3 depth reader ended closes _ ih =>
      rw [skipGroup, dif_neg ended, if_neg closes, ih]
      rfl

theorem not_silent_recover {reader : Reader} (noted : ¬ reader.Silent) :
    ¬ reader.recover.Silent := by
  intro silent
  exact noted ((diagnostics_skipGroup 0 reader).symm.trans silent)

/-- A parenthesis that closes a group where it should is read. -/
theorem closeGroup_of_close {reader : Reader} {opened : Span}
    (closes : reader.sees .rightParen = true) : reader.closeGroup opened = reader.advance := by
  unfold closeGroup
  have ends : reader.atGroupEnd = true := by rw [atGroupEnd, closes]; rfl
  simp only [if_pos ends, if_pos closes]

/-- A group is closed silently only where its closing parenthesis stands. -/
theorem closeGroup_of_silent {reader : Reader} {opened : Span}
    (silent : (reader.closeGroup opened).Silent) :
    reader.sees .rightParen = true ∧ reader.closeGroup opened = reader.advance := by
  have closing : forall closing : Reader,
      (if closing.sees .rightParen then closing.advance
        else closing.report opened .unbalancedParen).Silent ->
        closing.Silent ∧ closing.sees .rightParen = true := by
    intro closing noted
    split at noted
    case isTrue closes => exact ⟨noted, closes⟩
    case isFalse => exact (not_silent_report _ _ _ noted).elim
  unfold closeGroup at silent
  rcases closing _ silent with ⟨kept, closes⟩
  by_cases inside : reader.atGroupEnd = true
  · rw [if_pos inside] at closes
    unfold closeGroup
    rw [if_pos inside]
    exact ⟨closes, if_pos closes⟩
  · rw [if_neg inside] at kept
    exact (not_silent_recover (not_silent_report _ _ _) kept).elim

theorem reportAll_of_silent {reader : Reader} {span : Span} {problems : List Problem}
    (silent : (reader.reportAll span problems).Silent) : problems = [] := by
  induction problems generalizing reader with
  | nil => rfl
  | cons problem rest ih =>
      have none := @ih (reader.report span problem) silent
      subst none
      exact (not_silent_report _ _ _ silent).elim

/-- A check that stays silent has found nothing wrong. -/
theorem checkCall_of_silent {reader : Reader} {name : Token} {found : Nat}
    (silent : (reader.checkCall name found).Silent) :
    reader.callProblem? name found = none ∧ reader.checkCall name found = reader := by
  rw [checkCall_eq] at silent ⊢
  have none := reportAll_of_silent silent
  rw [none]
  exact ⟨Option.toList_eq_nil_iff.mp none, rfl⟩

theorem fits_of_constant {token : Token} {value : Literal}
    (found : token.constant? = some (value, [])) : token.Fits := by
  intro integer
  unfold Token.constant? at found
  rw [integer] at found
  by_contra large
  simp only [if_neg large] at found
  exact List.cons_ne_nil _ _ (Prod.mk.inj (Option.some.inj found)).2

/-! ## Accounts -/

/-- If the reader after is silent, so is the reader before, and the tokens
between them are good. -/
def Accounts (before after : Reader) (good : List Token -> Prop) : Prop :=
  after.Silent -> before.Silent ∧ forall tokens, before.Shows tokens ->
    Exists fun read : List Token => Exists fun rest : List Token =>
      tokens = read ++ rest ∧ good read ∧ (forall token, token ∈ read -> token.Fits) ∧
        after.Shows rest

namespace Accounts

variable {before middle after : Reader} {good other : List Token -> Prop}

theorem of_not_silent (noted : ¬ after.Silent) : Accounts before after good :=
  fun silent => (noted silent).elim

theorem nothing (holds : good []) : Accounts before before good :=
  fun silent => ⟨silent, fun tokens shows =>
    ⟨[], tokens, rfl, holds, fun _ impossible => (List.not_mem_nil impossible).elim, shows⟩⟩

theorem trans (first : Accounts before middle good) (second : Accounts middle after other) :
    Accounts before after (fun read => Exists fun left : List Token =>
      Exists fun right : List Token => read = left ++ right ∧ good left ∧ other right) := by
  intro silent
  rcases second silent with ⟨silentMiddle, readLater⟩
  rcases first silentMiddle with ⟨silentBefore, readFirst⟩
  refine ⟨silentBefore, fun tokens shows => ?_⟩
  rcases readFirst tokens shows with ⟨left, between, split, isGood, fits, showsBetween⟩
  rcases readLater between showsBetween with
    ⟨right, rest, splitLater, isOther, fitsLater, showsRest⟩
  refine ⟨left ++ right, rest, ?_, ⟨left, right, rfl, isGood, isOther⟩, fun token member => ?_,
    showsRest⟩
  · rw [split, splitLater, List.append_assoc]
  · rcases List.mem_append.mp member with inLeft | inRight
    · exact fits token inLeft
    · exact fitsLater token inRight

theorem weaken (accounts : Accounts before after good)
    (implied : forall read, good read -> other read) : Accounts before after other := by
  intro silent
  rcases accounts silent with ⟨silentBefore, reads⟩
  refine ⟨silentBefore, fun tokens shows => ?_⟩
  rcases reads tokens shows with ⟨read, rest, split, isGood, others⟩
  exact ⟨read, rest, split, implied read isGood, others⟩

/-- Only the current token is read. -/
theorem advance {kind : TokenKind} (seen : before.sees kind = true) (input : kind ≠ .endOfInput)
    (fits : before.current.Fits) : Accounts before before.advance (· = [before.current]) := by
  intro silent
  refine ⟨silent, fun tokens shows => ?_⟩
  rcases shows.exists_cons seen input with ⟨rest, split⟩
  subst split
  refine ⟨[before.current], rest, rfl, rfl, fun token member => ?_, shows.advance⟩
  exact List.mem_singleton.mp member ▸ fits

/-- Only the current token is read, and its kind is known. -/
theorem token {kind : TokenKind} (seen : before.sees kind = true) (input : kind ≠ .endOfInput)
    (notInteger : kind ≠ .integer) :
    Accounts before before.advance
      (fun read => read = [before.current] ∧ before.current.kind = kind) := by
  have same : before.current.kind = kind := beq_iff_eq.mp seen
  have fits : before.current.Fits := fun integer => (notInteger (same.symm.trans integer)).elim
  exact (advance seen input fits).weaken (fun read single => ⟨single, same⟩)

/-- Operators are no integers, and not the end of input. -/
theorem operator {operators : Chain} {kind : Kind}
    (found : operators.kind? before.current.kind = some kind) :
    Accounts before before.advance (· = [before.current]) := by
  have notInteger : before.current.kind ≠ .integer :=
    Chain.ne_of_kind found (by cases operators <;> rfl)
  exact advance (beq_iff_eq.mpr rfl) (Chain.ne_endOfInput_of_kind found)
    (fun integer => (notInteger integer).elim)

theorem closeGroup (before : Reader) (opened : Span) :
    Accounts before (before.closeGroup opened)
      (fun read => read = [before.current] ∧ before.current.kind = .rightParen) := by
  intro silent
  rcases closeGroup_of_silent silent with ⟨closes, same⟩
  rw [same] at silent ⊢
  exact token closes (by decide) (by decide) silent

end Accounts

/-! ## Expressions -/

theorem joined_of_ne_nil {symbol : Connective} {first : Term} {others : List Term}
    (nonempty : others ≠ []) :
    joined symbol first others = .mk (.connective symbol) (first :: others) := by
  cases others with
  | nil => exact (nonempty rfl).elim
  | cons next rest => rfl

/-- The expression that was read has a term that is derived for its tokens. -/
def Expresses (level : Level) (value : Option Node) (read : List Token) : Prop :=
  Exists fun node : Node => value = some node ∧ Expression level read node.term

mutual

theorem Reads.accounts {level : Level} {before after : Reader} {value : Option Node} :
    Reads level before value after -> Accounts before after (Expresses level value)
  | .single first _ => by
      refine first.accounts.weaken (fun read ⟨node, found, derived⟩ => ?_)
      have alone := Expression.connective derived .nil
      rw [List.append_nil] at alone
      exact ⟨node, found, alone⟩
  | .connective first seen others => by
      apply (first.accounts.trans others.accounts).weaken
      intro read ⟨left, right, split, ⟨node, found, derived⟩, nonempty, operands⟩
      have together := Expression.connective derived operands
      rw [joined_of_ne_nil (fun none => nonempty seen (List.map_eq_nil_iff.mp none)), ← split]
        at together
      refine ⟨_, rfl, ?_⟩
      rw [Node.term_mk, found]
      exact together
  | .negation seen operand => by
      apply ((Accounts.token seen (by decide) (by decide)).trans operand.accounts).weaken
      intro read ⟨left, right, split, ⟨single, isMark⟩, node, found, derived⟩
      refine ⟨_, rfl, ?_⟩
      rw [split, single, found, Node.term_mk]
      exact .negation isMark derived
  | .unnegated _ operand => operand.accounts.weaken (fun read ⟨node, found, derived⟩ =>
      ⟨node, found, .unnegated derived⟩)
  | .chain first others => by
      apply (first.accounts.trans others.accounts).weaken
      intro read ⟨left, right, split, ⟨node, found, derived⟩, chained⟩
      rcases chained node found with ⟨result, yielded, later⟩
      rw [split]
      exact ⟨result, yielded, .chain derived later⟩
  | .call named opens call => by
      intro silent
      have same := (checkCall_of_silent silent).2
      rw [same] at silent ⊢
      revert silent
      refine ((Accounts.token named (by decide) (by decide)).trans
        ((Accounts.token (sees_advance_of_seesNext opens) (by decide) (by decide)).trans
          call.accounts)).weaken ?_
      intro read ⟨_, _, split, ⟨name, isName⟩, _, _, splitLater, ⟨opening, isOpening⟩, tokens,
        closing, last, isClosing, arguments⟩
      refine ⟨_, rfl, ?_⟩
      rw [split, splitLater, name, opening, last, Node.term_mk]
      rcases arguments with ⟨noTokens, noValues⟩ | arguments
      · subst noTokens noValues
        exact .call isName isOpening isClosing
      · exact .callWith isName isOpening arguments isClosing
  | .var named _ => (Accounts.token named (by decide) (by decide)).weaken
      (fun read ⟨single, isName⟩ => ⟨_, rfl, single ▸ .var isName⟩)
  | .group opens inner => by
      refine (((Accounts.token opens (by decide) (by decide)).trans inner.accounts).trans
        (Accounts.closeGroup _ _)).weaken ?_
      intro read ⟨_, _, split, ⟨_, _, splitFirst, ⟨opening, isOpening⟩, node, found, derived⟩,
        closing, isClosing⟩
      rw [split, splitFirst, opening, closing]
      exact ⟨node, found, .group isOpening derived isClosing⟩
  | .constant found => by
      intro silent
      have none := reportAll_of_silent silent
      subst none
      have input := Token.ne_endOfInput_of_constant found
      exact (Accounts.advance (beq_iff_eq.mpr rfl) input (fits_of_constant found)).weaken
        (fun read single => ⟨_, rfl, single ▸ .constant found⟩) silent
  | .missing _ _ _ => .of_not_silent (not_silent_recover (not_silent_report _ _ _))

theorem ReadsOperands.accounts {symbol : Connective} {before after : Reader}
    {values : List Node} : ReadsOperands symbol before values after ->
      Accounts before after (fun read => (before.sees symbol.token = true -> values ≠ []) ∧
        Operands symbol read (values.map Node.term))
  | .nil unseen => .nothing ⟨fun seen => (Bool.eq_false_iff.mp unseen seen).elim, .nil⟩
  | .cons seen next others => by
      have mark : Accounts _ _ _ := Accounts.token seen symbol.token_ne_endOfInput
        (by cases symbol <;> exact fun impossible => TokenKind.noConfusion impossible)
      apply ((mark.trans next.accounts).trans others.accounts).weaken
      intro read ⟨_, _, split, ⟨_, _, splitFirst, ⟨single, isMark⟩, node, found, derived⟩, _,
        operands⟩
      rw [split, splitFirst, single, found]
      exact ⟨fun _ => List.cons_ne_nil _ _, .cons isMark derived operands⟩

theorem ReadsChain.accounts {operators : Chain} {left value : Option Node} {before after : Reader} :
    ReadsChain operators left before value after ->
      Accounts before after (fun read => forall node, left = some node ->
        Exists fun result : Node => value = some result ∧
          Chained operators node.term read result.term)
  | .nil _ => .nothing (fun node found => ⟨node, found, .nil⟩)
  | .cons operator right others => by
      apply (((Accounts.operator operator).trans right.accounts).trans others.accounts).weaken
      intro read ⟨_, _, split, ⟨_, _, splitFirst, single, next, nextFound, derived⟩, chained⟩ node
        found
      rcases chained _ rfl with ⟨result, yielded, later⟩
      rw [Node.term_mk, found, nextFound] at later
      rw [split, splitFirst, single]
      exact ⟨result, yielded, .cons operator derived later⟩

theorem ReadsCall.accounts {opened : Span} {before after : Reader} {values : List Node} :
    ReadsCall opened before values after ->
      Accounts before after (fun read => Exists fun tokens : List Token =>
        Exists fun closing : Token => read = tokens ++ [closing] ∧ closing.kind = .rightParen ∧
          (tokens = [] ∧ values = [] ∨ ArgumentList tokens (values.map Node.term)))
  | .nil closes => (Accounts.token closes (by decide) (by decide)).weaken
      (fun read ⟨single, isClosing⟩ => ⟨[], _, single, isClosing, .inl ⟨rfl, rfl⟩⟩)
  | .arguments _ found => by
      apply (found.accounts.trans (Accounts.closeGroup _ _)).weaken
      intro read ⟨tokens, _, split, derived, last, isClosing⟩
      exact ⟨tokens, _, last ▸ split, isClosing, .inr derived⟩

theorem ReadsArguments.accounts {before after : Reader} {values : List Node} :
    ReadsArguments before values after ->
      Accounts before after (fun read => ArgumentList read (values.map Node.term))
  | .last first _ => by
      refine first.accounts.weaken (fun read ⟨node, found, derived⟩ => ?_)
      rw [found]
      exact .last derived
  | .cons first separated others => by
      refine ((first.accounts.trans (Accounts.token separated (by decide) (by decide))).trans
        others.accounts).weaken ?_
      intro read ⟨_, _, split, ⟨_, _, splitFirst, ⟨node, found, derived⟩, single, isComma⟩, later⟩
      rw [split, splitFirst, single, found, List.append_assoc]
      exact .cons derived isComma later

theorem ReadsArgument.accounts {before after : Reader} {value : Option Node} :
    ReadsArgument before value after -> Accounts before after (Expresses .loosest value)
  | .empty _ => .of_not_silent (not_silent_report _ _ _)
  | .expression _ inner => inner.accounts

end

end Reader

end PlanningDomain
