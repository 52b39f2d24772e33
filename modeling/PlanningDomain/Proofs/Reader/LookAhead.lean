import PlanningDomain.Proofs.Machine.Steps
import PlanningDomain.Proofs.Reader.Correspondence.Sources

namespace PlanningDomain

/-!
# Looking ahead

A reader does four things only: it moves its window on, it reports a problem, it
gives out a handle, and it declares a fact.  Whatever moves it makes, its window
holds the tokens from the current one on, as many as it looks ahead.  It decides
what to do by the first two of them.  So two readers of one source that
look ahead differently make the same moves, and read the same.
-/

namespace Source

/-- The token at a place of the input.  Behind the last token of the source
stands the end of input, as often as it is asked for. -/
def tokenAt (source : Source) (place : Nat) : Token :=
  source.tokens[place]?.getD source.endToken

end Source

/-! ## What a window holds -/

namespace Window

theorem drawMany_eq_map_range (endOffset count : Nat) (tokens : List Token) :
    (drawMany endOffset count tokens).1 =
      (List.range count).map (fun place => tokens[place]?.getD (.endAt endOffset)) := by
  induction count generalizing tokens with
  | zero => rfl
  | succ count ih =>
      rw [drawMany, ih, List.range_succ_eq_map, List.map_cons, List.map_map]
      cases tokens with
      | nil => rfl
      | cons token rest => rfl

/-- A window at the beginning of some tokens holds the first of them. -/
theorem held_start {width : Nat} (wide : 0 < width) (tokens : List Token) (endOffset : Nat) :
    (start width tokens endOffset).held =
      (List.range width).map (fun place => tokens[place]?.getD (.endAt endOffset)) := by
  obtain ⟨count, same⟩ : Exists fun count : Nat => width = count + 1 :=
    Nat.exists_eq_succ_of_ne_zero (Nat.ne_of_gt wide)
  subst same
  exact drawMany_eq_map_range endOffset (count + 1) tokens

theorem draw_drop (endOffset place : Nat) (tokens : List Token) :
    (draw endOffset (tokens.drop place)).2 = tokens.drop (place + 1) := by
  rw [← List.tail_drop]
  cases tokens.drop place with
  | nil => rfl
  | cons token rest => rfl

end Window

namespace Reader

/-! ## Moves -/

/-- The things that a reader does. -/
inductive Move where
  | advance
  | report (span : Span) (problem : Problem)
  | reserve
  | declare (fact : Fact)
deriving DecidableEq

namespace Move

def apply (reader : Reader) : Move -> Reader
  | advance => reader.advance
  | report span problem => reader.report span problem
  | reserve => reader.reserve
  | declare fact => reader.declare fact

/-- How many tokens are passed by some moves. -/
def passed (moves : List Move) : Nat :=
  moves.count .advance

end Move

/-- The reader after some moves. -/
def after (reader : Reader) (moves : List Move) : Reader :=
  moves.foldl Move.apply reader

theorem after_append (reader : Reader) (moves others : List Move) :
    reader.after (moves ++ others) = (reader.after moves).after others :=
  List.foldl_append

theorem window_declare (reader : Reader) (fact : Fact) :
    (reader.declare fact).window = reader.window := by
  unfold declare
  split <;> rfl

/-- A window is moved on by the tokens that are passed, and by nothing else. -/
theorem window_after {reader : Reader} {width place endOffset : Nat} {tokens : List Token}
    (window : reader.window = .start width (tokens.drop place) endOffset) (moves : List Move) :
    (reader.after moves).window =
      .start width (tokens.drop (place + Move.passed moves)) endOffset := by
  induction moves generalizing reader place with
  | nil => exact window
  | cons move rest ih =>
      cases move with
      | advance =>
          have moved : reader.advance.window =
              .start width (tokens.drop (place + 1)) endOffset := by
            rw [advance, window, Window.advance_start, Window.draw_drop]
          have counted : Move.passed (.advance :: rest) = 1 + Move.passed rest :=
            List.count_cons_self.trans (Nat.add_comm _ _)
          rw [counted, ← Nat.add_assoc]
          exact ih moved
      | report span problem => exact ih window
      | reserve => exact ih window
      | declare fact => exact ih ((reader.window_declare fact).trans window)

/-- Whatever moves a reader makes, it holds the next tokens of its source, as
many as it looks ahead. -/
theorem held_after (source : Source) (options : Options) (moves : List Move) :
    ((start source options).after moves).window.held =
      (List.range' (Move.passed moves) (max options.lookAhead minimumLookAhead)).map
        source.tokenAt := by
  have wide : 0 < max options.lookAhead minimumLookAhead :=
    Nat.lt_of_lt_of_le Nat.zero_lt_two (Nat.le_max_right _ _)
  have window : (start source options).window =
      .start (max options.lookAhead minimumLookAhead) (source.tokens.drop 0) source.size := rfl
  rw [window_after window, Window.held_start wide, List.range'_eq_map_range, List.map_map,
    Nat.zero_add]
  simp only [List.getElem?_drop]
  rfl

/-! ## Readers that look ahead differently -/

/-- What two readers agree on that differ in nothing but how far they look
ahead. -/
structure Alongside (reader other : Reader) : Prop where
  source : reader.source = other.source
  forest : reader.forest = other.forest
  world : reader.world = other.world
  diagnostics : reader.diagnostics = other.diagnostics
  validates : reader.options.validateFacts = other.options.validateFacts

namespace Alongside

variable {reader other : Reader}

theorem moved (alongside : reader.Alongside other) (move : Move) :
    (move.apply reader).Alongside (move.apply other) := by
  have reported (span : Span) (problem : Problem) :
      (reader.report span problem).Alongside (other.report span problem) :=
    { alongside with
      diagnostics := by rw [report, report, alongside.diagnostics, alongside.source] }
  cases move with
  | advance => exact { alongside with }
  | report span problem => exact reported span problem
  | reserve => exact { alongside with forest := congrArg Forest.reserve alongside.forest }
  | declare fact =>
      simp only [Move.apply, declare, alongside.world]
      split
      case h_1 => exact { alongside with world := rfl }
      case h_2 => exact reported _ _

theorem after (alongside : reader.Alongside other) (moves : List Move) :
    (reader.after moves).Alongside (other.after moves) := by
  induction moves generalizing reader other with
  | nil => exact alongside
  | cons move rest ih => exact ih (alongside.moved move)

theorem callProblem?_eq (alongside : reader.Alongside other) (name : Token) (found : Nat) :
    reader.callProblem? name found = other.callProblem? name found := by
  rw [callProblem?, callProblem?, alongside.world, alongside.validates]

end Alongside

/-- Two readers of a source have made the same moves. -/
def InStep (source : Source) (validates : Bool) (near far : Nat) (reader other : Reader) : Prop :=
  Exists fun moves : List Move =>
    reader = (start source ⟨near, validates⟩).after moves ∧
      other = (start source ⟨far, validates⟩).after moves

namespace InStep

variable {source : Source} {validates : Bool} {near far : Nat} {reader other : Reader}

theorem moved (inStep : InStep source validates near far reader other) (move : Move) :
    InStep source validates near far (move.apply reader) (move.apply other) := by
  rcases inStep with ⟨moves, isReader, isOther⟩
  refine ⟨moves ++ [move], ?_, ?_⟩
  · rw [after_append, ← isReader]
    rfl
  · rw [after_append, ← isOther]
    rfl

theorem alongside (inStep : InStep source validates near far reader other) :
    reader.Alongside other := by
  rcases inStep with ⟨moves, isReader, isOther⟩
  have alongside : (start source ⟨near, validates⟩).Alongside (start source ⟨far, validates⟩) :=
    ⟨rfl, rfl, rfl, rfl, rfl⟩
  rw [isReader, isOther]
  exact alongside.after moves

/-- Both windows hold the current token and the next one. -/
theorem held (inStep : InStep source validates near far reader other) {distance : Nat}
    (held : distance < minimumLookAhead) :
    reader.window.peek? distance = other.window.peek? distance := by
  rcases inStep with ⟨moves, isReader, isOther⟩
  have shown (lookAhead : Nat) :
      ((start source ⟨lookAhead, validates⟩).after moves).window.peek? distance =
        some (source.tokenAt (Move.passed moves + distance)) := by
    have inside := Nat.lt_of_lt_of_le held (Nat.le_max_right lookAhead minimumLookAhead)
    rw [Window.peek?, held_after, List.getElem?_map, List.getElem?_range' inside, Nat.one_mul]
    rfl
  rw [isReader, isOther, shown, shown]

theorem current (inStep : InStep source validates near far reader other) :
    reader.current = other.current :=
  Option.some.inj (inStep.held (by decide : 0 < minimumLookAhead))

theorem checked (inStep : InStep source validates near far reader other) (name : Token)
    (found : Nat) :
    InStep source validates near far (reader.checkCall name found)
      (other.checkCall name found) := by
  rw [checkCall_eq, checkCall_eq, ← inStep.alongside.callProblem?_eq]
  cases reader.callProblem? name found with
  | none => exact inStep
  | some problem => exact inStep.moved (.report name.span problem)

/-- Readers that are in step read alike, and stay in step. -/
def correspondence (source : Source) (validates : Bool) (near far : Nat) :
    SourceCorrespondence where
  relates := fun _ => InStep source validates near far
  tokens := Eq
  handles := Eq
  kinds := Eq
  current := current
  kind_eq := congrArg Token.kind
  seesNext_eq := fun inStep _ => by
    rw [seesNext, seesNext, inStep.held (by decide : 1 < minimumLookAhead)]
  nextHandle := fun inStep => congrArg Forest.allocated inStep.alongside.forest
  plain := fun _ _ => rfl
  name := names_of_eq
  constant := constant_of_eq
  opened := fun inStep _ => inStep.moved .advance
  closed := fun inStep _ => inStep.moved .advance
  advanced := fun inStep _ _ => inStep.moved .advance
  ended := fun inStep _ => inStep
  reported := fun problem inStep same => same ▸ inStep.moved (.report _ problem)
  reserved := fun inStep => inStep.moved .reserve
  checked := fun found inStep same _ => same ▸ inStep.checked _ found
  anywhere := fun _ inStep => inStep
  text_eq := fun same _ => congrArg Token.text same
  declared := fun _ inStep same _ => same ▸ inStep.moved (.declare _)

end InStep

end Reader

namespace Domain

open Reader

/-- How far a reader looks ahead does not matter.  It comes to the same domain and
the same diagnostics by the same moves.  After any moves, its window is as wide as
it was, and holds the next tokens of the source.  Windows of any width are taken to
fit into memory. -/
theorem read_lookAhead (source : Source) (validates : Bool) (near far : Nat) :
    Domain.read source ⟨near, validates⟩ = Domain.read source ⟨far, validates⟩ ∧
      (Exists fun moves : List Move =>
        (start source ⟨near, validates⟩).preconditions.2 =
            (start source ⟨near, validates⟩).after moves ∧
          (start source ⟨far, validates⟩).preconditions.2 =
            (start source ⟨far, validates⟩).after moves) ∧
      forall (lookAhead : Nat) (moves : List Move),
        ((start source ⟨lookAhead, validates⟩).after moves).window.held.length =
            max lookAhead minimumLookAhead ∧
          ((start source ⟨lookAhead, validates⟩).after moves).window.held =
            (List.range' (Move.passed moves) (max lookAhead minimumLookAhead)).map
              source.tokenAt := by
  let c := InStep.correspondence source validates near far
  have atStart : c.relates 0 (start source ⟨near, validates⟩) (start source ⟨far, validates⟩) :=
    ⟨[], rfl, rfl⟩
  have trees := c.preconditions_eq id id atStart
  have atEnd := (c.preconditions _ atStart).1
  have ends := atEnd.alongside
  refine ⟨?_, atEnd, fun lookAhead moves => ?_⟩
  · rw [read, read, finish, finish, trees, ends.source, ends.forest, ends.world, ends.diagnostics]
  · have held := held_after source ⟨lookAhead, validates⟩ moves
    refine ⟨?_, held⟩
    rw [held, List.length_map, List.length_range']

end Domain

end PlanningDomain
