import PlanningDomain.Proofs.Reader.Correspondence.Invariants
import PlanningDomain.Proofs.Token.Groups
import PlanningDomain.Reader.Expression

namespace PlanningDomain

/-!
# Names and strings at other places

The same word may stand at different places of two sources.  The ranges are
different then, and they are compared by the texts that they denote, each in its
own source.  Alike tokens give the same kinds but for such ranges.
-/

theorem takeBytes?_eq_nil {text : List Char} {count : Nat}
    (taken : takeBytes? text count = some []) : count = 0 := by
  cases count with
  | zero => rfl
  | succ count =>
      cases text with
      | nil => exact (Option.some_ne_none _ taken.symm).elim
      | cons char rest =>
          rw [takeBytes?] at taken
          split at taken
          case isTrue =>
            rcases Option.map_eq_some_iff.mp taken with ⟨_, _, impossible⟩
            exact (List.cons_ne_nil _ _ impossible).elim
          case isFalse => exact (Option.some_ne_none _ taken.symm).elim

namespace Source

/-- A range of one source and a range of another one denote the same text. -/
def SameText (source other : Source) (span like : Span) : Prop :=
  Exists fun text : String => source.slice? span = some text ∧ other.slice? like = some text

/-- A range that denotes a text is empty if and only if the text is. -/
theorem isEmpty_iff_of_slice? {source : Source} {span : Span} {text : String}
    (found : source.slice? span = some text) : span.isEmpty = true ↔ text = "" := by
  unfold slice? at found
  split at found
  case isFalse => exact (Option.some_ne_none _ found.symm).elim
  case isTrue ordered =>
    rcases Option.map_eq_some_iff.mp found with ⟨chars, taken, same⟩
    rcases Option.bind_eq_some_iff.mp taken with ⟨rest, _, content⟩
    rw [Span.isEmpty, beq_iff_eq, ← same, String.ofList_eq_empty_iff]
    constructor
    · intro equal
      rw [Span.length, equal, Nat.sub_self, takeBytes?] at content
      exact (Option.some.inj content).symm
    · intro none
      rw [none] at content
      exact Nat.le_antisymm ordered (Nat.le_of_sub_eq_zero (takeBytes?_eq_nil content))

theorem SameText.isEmpty_eq {source other : Source} {span like : Span}
    (same : source.SameText other span like) : span.isEmpty = like.isEmpty := by
  rcases same with ⟨text, first, second⟩
  exact Bool.eq_iff_iff.mpr
    ((isEmpty_iff_of_slice? first).trans (isEmpty_iff_of_slice? second).symm)

end Source

/-- The same kind, whose name or string may stand at different places of two
sources. -/
inductive Kind.Relocated (source other : Source) : Kind -> Kind -> Prop
  | plain {kind : Kind} : kind.name? = none -> kind.literal? = none ->
      Relocated source other kind kind
  | var {name like : Span} : source.SameText other name like ->
      Relocated source other (.var name) (.var like)
  | func {name like : Span} : source.SameText other name like ->
      Relocated source other (.func name) (.func like)
  | int (value : Int64) : Relocated source other (.literal (.int value)) (.literal (.int value))
  | float (value : Binary64) :
      Relocated source other (.literal (.float value)) (.literal (.float value))
  | string {text like : Span} : source.SameText other text like ->
      Relocated source other (.literal (.string text)) (.literal (.string like))

namespace Token

variable {source other : Source} {token like : Token}

/-- Alike tokens name the same variables and calls. -/
theorem Alike.name (alike : token.Alike like) (member : token ∈ source.tokens)
    (isLike : like ∈ other.tokens) :
    (Kind.var token.span).Relocated source other (.var like.span) ∧
      (Kind.func token.span).Relocated source other (.func like.span) := by
  have same : source.SameText other token.span like.span :=
    ⟨token.text, (source.stands_of_mem_tokens member).slice?_eq,
      alike.text ▸ (other.stands_of_mem_tokens isLike).slice?_eq⟩
  exact ⟨.var same, .func same⟩

/-- Alike tokens denote the same constants, and the same is wrong about them. -/
theorem Alike.constant (alike : token.Alike like) (member : token ∈ source.tokens)
    (isLike : like ∈ other.tokens) {value : Literal} {problems : List Problem}
    (found : token.constant? = some (value, problems)) :
    Exists fun result : Literal => like.constant? = some (result, problems) ∧
      (Kind.literal value).Relocated source other (.literal result) := by
  by_cases string : token.kind = .string
  · have isString : like.kind = .string := alike.kind ▸ string
    rw [constant?, string] at found
    rcases Prod.mk.inj (Option.some.inj found) with ⟨isValue, noProblems⟩
    refine ⟨.string like.span.inner, ?_, ?_⟩
    · rw [constant?, isString, ← noProblems]
    · rcases source.quoted_of_mem_tokens member string with ⟨content, quoted⟩
      rw [← isValue]
      exact .string ⟨_, (source.stands_of_mem_tokens member).slice?_inner quoted,
        (other.stands_of_mem_tokens isLike).slice?_inner (alike.text ▸ quoted)⟩
  · have same : like.constant? = token.constant? := by
      unfold constant?
      rw [← alike.kind, ← alike.text]
      split
      case h_3 isString => exact (string isString).elim
      all_goals rfl
    refine ⟨value, same.trans found, ?_⟩
    unfold constant? at found
    split at found
    case h_1 =>
      dsimp only at found
      split at found
      all_goals
        rw [← (Prod.mk.inj (Option.some.inj found)).1]
        exact .int _
    case h_2 =>
      rw [← (Prod.mk.inj (Option.some.inj found)).1]
      exact .float _
    case h_3 isString => exact (string isString).elim
    case h_4 => exact (Option.some_ne_none _ found.symm).elim

end Token

end PlanningDomain
