import Mathlib.Data.List.TakeWhile
import PlanningDomain.Token.Kind

namespace PlanningDomain

/-!
# Patterns of tokens

What may be a token is said by one pattern for each kind of token, and what may
stand between tokens by two more.  A pattern is a sequence of characters out of
given classes, in which some may be repeated.  Nothing is said here about how a
source is cut into tokens.
-/

/-- A class of characters.  It is given by ranges of characters, with both ends,
or by the characters that are not in it. -/
inductive CharClass where
  | among (ranges : List (Char × Char))
  | except (chars : List Char)
deriving DecidableEq, Repr

namespace CharClass

def Has : CharClass -> Char -> Prop
  | among ranges, char =>
      Exists fun range : Char × Char => range ∈ ranges ∧ range.1 ≤ char ∧ char ≤ range.2
  | except chars, char => char ∉ chars

def single (char : Char) : CharClass :=
  among [(char, char)]

def blank : CharClass :=
  among [(' ', ' '), ('\t', '\t'), ('\r', '\r'), ('\n', '\n'), ('\x0c', '\x0c')]

def wordStart : CharClass :=
  among [('A', 'Z'), ('a', 'z'), ('_', '_')]

def wordPart : CharClass :=
  among [('A', 'Z'), ('a', 'z'), ('0', '9'), ('_', '_')]

def digit : CharClass :=
  among [('0', '9')]

def quotable : CharClass :=
  except ['"', '\n']

def inLine : CharClass :=
  except ['\n']

theorem has_single {expected char : Char} : (single expected).Has char ↔ char = expected := by
  constructor
  · intro ⟨range, member, above, below⟩
    rw [List.mem_singleton.mp member] at above below
    exact Char.le_antisymm below above
  · intro same
    exact ⟨(expected, expected), List.mem_singleton_self _, same ▸ Char.le_refl _,
      same ▸ Char.le_refl _⟩

end CharClass

/-- One part of a pattern: a character of a class, or any number of them. -/
inductive PatternPart where
  | one (allowed : CharClass)
  | many (allowed : CharClass)
deriving DecidableEq, Repr

abbrev Pattern := List PatternPart

namespace Pattern

/-- The texts that a pattern describes. -/
inductive Matches : Pattern -> List Char -> Prop
  | done : Matches [] []
  | one {allowed : CharClass} {rest : Pattern} {char : Char} {text : List Char} :
      allowed.Has char ->
      Matches rest text ->
      Matches (.one allowed :: rest) (char :: text)
  | skip {allowed : CharClass} {rest : Pattern} {text : List Char} :
      Matches rest text ->
      Matches (.many allowed :: rest) text
  | more {allowed : CharClass} {rest : Pattern} {char : Char} {text : List Char} :
      allowed.Has char ->
      Matches (.many allowed :: rest) text ->
      Matches (.many allowed :: rest) (char :: text)

/-- The pattern of one text only. -/
def exactly (text : String) : Pattern :=
  text.toList.map (fun char => .one (.single char))

section Matches

variable {allowed : CharClass} {rest : Pattern} {text : List Char}

theorem matches_nil : Matches [] text ↔ text = [] := by
  constructor
  · intro matched
    cases matched
    rfl
  · intro empty
    exact empty ▸ .done

theorem matches_one : Matches (.one allowed :: rest) text ↔
    Exists fun char : Char => Exists fun others : List Char =>
      text = char :: others ∧ allowed.Has char ∧ Matches rest others := by
  constructor
  · intro matched
    cases matched with
    | one has later => exact ⟨_, _, rfl, has, later⟩
  · intro ⟨char, others, same, has, later⟩
    exact same ▸ .one has later

theorem matches_many : Matches (.many allowed :: rest) text ↔
    Exists fun repeated : List Char => Exists fun others : List Char =>
      text = repeated ++ others ∧ (forall char, char ∈ repeated -> allowed.Has char) ∧
        Matches rest others := by
  constructor
  · intro matched
    generalize same : PatternPart.many allowed :: rest = pattern at matched
    induction matched with
    | done => exact (List.cons_ne_nil _ _ same).elim
    | one => cases same
    | skip later =>
        cases same
        exact ⟨[], _, rfl, fun _ impossible => (List.not_mem_nil impossible).elim, later⟩
    | @more _ _ char _ has _ ih =>
        cases same
        rcases ih rfl with ⟨repeated, others, split, each, later⟩
        exact ⟨char :: repeated, others, congrArg _ split, List.forall_mem_cons.mpr ⟨has, each⟩,
          later⟩
  · intro ⟨repeated, others, split, each, later⟩
    subst split
    induction repeated with
    | nil => exact .skip later
    | cons char repeated ih =>
        rcases List.forall_mem_cons.mp each with ⟨has, further⟩
        exact .more has (ih further)

/-- Repeated characters at the end of a pattern. -/
theorem matches_many_last : Matches [.many allowed] text ↔
    forall char, char ∈ text -> allowed.Has char := by
  rw [matches_many]
  constructor
  · intro ⟨repeated, others, split, each, later⟩
    rw [split, matches_nil.mp later, List.append_nil]
    exact each
  · intro each
    exact ⟨text, [], (List.append_nil text).symm, each, .done⟩

theorem matches_exactly_append (expected : String) : Matches (exactly expected ++ rest) text ↔
    Exists fun others : List Char => text = expected.toList ++ others ∧ Matches rest others := by
  unfold exactly
  generalize expected.toList = chars
  induction chars generalizing text with
  | nil => exact ⟨fun later => ⟨text, rfl, later⟩, fun ⟨_, same, later⟩ => same ▸ later⟩
  | cons char chars ih =>
      rw [List.map_cons, List.cons_append, matches_one]
      constructor
      · intro ⟨first, behind, same, has, matched⟩
        rcases ih.mp matched with ⟨others, split, later⟩
        exact ⟨others, by rw [same, split, CharClass.has_single.mp has]; rfl, later⟩
      · intro ⟨others, split, later⟩
        exact ⟨char, chars ++ others, split, CharClass.has_single.mpr rfl,
          ih.mpr ⟨others, rfl, later⟩⟩

theorem matches_exactly (expected : String) :
    Matches (exactly expected) text ↔ text = expected.toList := by
  rw [← List.append_nil (exactly expected), matches_exactly_append]
  constructor
  · intro ⟨others, split, later⟩
    rw [split, matches_nil.mp later, List.append_nil]
  · intro same
    exact ⟨[], by rw [same, List.append_nil], .done⟩

end Matches

/-- What may stand between tokens: blanks, and a remark up to the end of its
line. -/
def layout : List Pattern :=
  [[.one .blank, .many .blank], exactly "//" ++ [.many .inLine]]

end Pattern

namespace TokenKind

open Pattern

/-- The pattern of the tokens of a kind.  Unknown tokens and the end of input
have none. -/
def pattern? : TokenKind -> Option Pattern
  | leftParen => some (exactly "(")
  | rightParen => some (exactly ")")
  | leftBrace => some (exactly "\x7b")
  | rightBrace => some (exactly "\x7d")
  | comma => some (exactly ",")
  | not => some (exactly "~")
  | and => some (exactly "&")
  | or => some (exactly "|")
  | equal => some (exactly "==")
  | notEqual => some (exactly "!=")
  | less => some (exactly "<")
  | lessEqual => some (exactly "<=")
  | greater => some (exactly ">")
  | greaterEqual => some (exactly ">=")
  | plus => some (exactly "+")
  | minus => some (exactly "-")
  | multiply => some (exactly "*")
  | divide => some (exactly "/")
  | fact => some (exactly "fact")
  | identifier => some [.one .wordStart, .many .wordPart]
  | integer => some [.one .digit, .many .digit]
  | float => some [.one .digit, .many .digit, .one (.single '.'), .many .digit]
  | string => some [.one (.single '"'), .many .quotable, .one (.single '"')]
  | unknown => none
  | endOfInput => none

/-- A text is one that the pattern of a kind describes. -/
def Spells (kind : TokenKind) (text : List Char) : Prop :=
  Exists fun pattern : Pattern => kind.pattern? = some pattern ∧ pattern.Matches text

end TokenKind

/-- A text is described by the pattern of some kind, or may stand between
tokens. -/
def Recognized (text : List Char) : Prop :=
  (Exists fun kind : TokenKind => kind.Spells text) ∨
    Exists fun pattern : Pattern => pattern ∈ Pattern.layout ∧ pattern.Matches text

end PlanningDomain
