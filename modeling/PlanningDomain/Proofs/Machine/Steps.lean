import PlanningDomain.Proofs.Arena.Primitives
import PlanningDomain.Proofs.Machine.Basic
import PlanningDomain.Proofs.Reader.Soundness
import PlanningDomain.Proofs.Token.Places

namespace PlanningDomain

/-!
# Machines that follow a reader

A machine follows a reader if both are at the same place of one source, have
noted the same, and have given out the same handles.  The arena of the machine
then stores the expressions that are held at the moment.  The window of the
machine begins right behind the tokens that were passed.

A judgement says that some work has a result from every machine that follows a
reader, and that the machine afterwards follows the reader afterwards.  There is
one for each single step, and none of them needs more than that the current
token is not the end of input, or that a range stands in the source.
-/

namespace Window

/-- One more token is drawn behind those that were drawn. -/
theorem drawMany_succ (endOffset count : Nat) (tokens : List Token) :
    drawMany endOffset (count + 1) tokens =
      ((drawMany endOffset count tokens).1 ++
          [(draw endOffset (drawMany endOffset count tokens).2).1],
        (draw endOffset (drawMany endOffset count tokens).2).2) := by
  induction count generalizing tokens with
  | zero => rfl
  | succ count ih =>
      have unfolded : drawMany endOffset (count + 1 + 1) tokens =
          ((draw endOffset tokens).1 ::
              (drawMany endOffset (count + 1) (draw endOffset tokens).2).1,
            (drawMany endOffset (count + 1) (draw endOffset tokens).2).2) := rfl
      rw [unfolded, ih]
      rfl

/-- A window that is read on stands at the beginning of the tokens that are
left. -/
theorem advance_start (width : Nat) (tokens : List Token) (endOffset : Nat) :
    (start width tokens endOffset).advance =
      start width (draw endOffset tokens).2 endOffset := by
  unfold start
  cases width - 1 with
  | zero => rfl
  | succ count =>
      simp only [drawMany_succ endOffset count (draw endOffset (draw endOffset tokens).2).2]
      rfl

/-- A window shows as many tokens as it is wide. -/
theorem exists_peek {width distance : Nat} (near : distance < width) (tokens : List Token)
    (endOffset : Nat) :
    Exists fun token : Token => (start width tokens endOffset).peek? distance = some token := by
  have bound : distance < (start width tokens endOffset).held.length := by
    rw [length_held_start]
    exact Nat.lt_of_lt_of_le near (Nat.le_max_left _ _)
  exact ⟨_, List.getElem?_eq_getElem bound⟩

end Window

namespace Source

/-- A range begins at a place that has a position. -/
def Placed (source : Source) (span : Span) : Prop :=
  source.hasPosition span.start = true

/-- The end of a source is a boundary. -/
theorem isBoundary_size (source : Source) : source.isBoundary source.size = true := by
  have ends := dropBytes?_append source.chars []
  rw [List.append_nil] at ends
  rw [isBoundary, size, ends]
  rfl

theorem placed_endToken (source : Source) : source.Placed source.endToken.span := by
  change source.isBoundary (min source.size source.size) = true
  rw [Nat.min_self]
  exact source.isBoundary_size

end Source

namespace Machine

/-- A machine and a reader are at the same place of a source, and the arena
stores what is held. -/
structure Follows (source : Source) (machine : Machine) (reader : Reader) (held : List Node) :
    Prop where
  ofMachine : machine.source = source
  ofReader : reader.source = source
  options : machine.options = reader.options
  window : machine.window = reader.window
  world : machine.world = reader.world
  diagnostics : machine.diagnostics = reader.diagnostics
  place : Exists fun rest : List Token => source.tokens = machine.passed ++ rest ∧
    reader.window =
      .start (max reader.options.lookAhead minimumLookAhead) rest source.size
  stores : machine.arena.Stores ⟨reader.forest.allocated, held⟩

namespace Follows

variable {source : Source} {machine : Machine} {reader : Reader} {held : List Node}

theorem placed_current (follows : Follows source machine reader held) :
    source.Placed reader.current.span := by
  rcases follows.place with ⟨rest, split, window⟩
  cases rest with
  | nil =>
      have ended : reader.current = source.endToken := by rw [Reader.current, window]; rfl
      rw [ended]
      exact source.placed_endToken
  | cons token rest =>
      have same : reader.current = token := by rw [Reader.current, window]; rfl
      have member : token ∈ source.tokens := split ▸ List.mem_append_right _ List.mem_cons_self
      rw [same]
      exact (source.stands_of_mem_tokens member).hasPosition_start

/-- The current token is the next one of the source, unless it is the end. -/
theorem current_of_input (follows : Follows source machine reader held)
    (input : reader.current.kind ≠ .endOfInput) :
    Exists fun rest : List Token =>
      source.tokens = machine.passed ++ reader.current :: rest ∧
        reader.window.advance =
          .start (max reader.options.lookAhead minimumLookAhead) rest source.size := by
  rcases follows.place with ⟨rest, split, window⟩
  cases rest with
  | nil =>
      have ended : reader.current = source.endToken := by rw [Reader.current, window]; rfl
      exact (input (ended ▸ rfl)).elim
  | cons token rest =>
      have same : reader.current = token := by rw [Reader.current, window]; rfl
      refine ⟨rest, same ▸ split, ?_⟩
      rw [window, Window.advance_start]
      rfl

theorem slice?_current (follows : Follows source machine reader held)
    (input : reader.current.kind ≠ .endOfInput) :
    source.slice? reader.current.span = some reader.current.text := by
  rcases follows.current_of_input input with ⟨rest, split, _⟩
  have member : reader.current ∈ source.tokens :=
    split ▸ List.mem_append_right _ List.mem_cons_self
  exact (source.stands_of_mem_tokens member).slice?_eq

theorem peek_next (follows : Follows source machine reader held) :
    Exists fun next : Token => reader.window.peek? 1 = some next := by
  rcases follows.place with ⟨rest, _, window⟩
  rw [window]
  exact Window.exists_peek (Nat.le_max_right _ _) _ _

theorem perm {others : List Node} (permutation : held.Perm others)
    (follows : Follows source machine reader held) : Follows source machine reader others :=
  { follows with stores := follows.stores.perm permutation }

end Follows

/-! ## Judgements -/

/-- The work has the result from every machine that follows the reader before,
and the machine after it follows the reader after. -/
def Runs {alpha : Type} (source : Source) (before : Reader) (held : List Node) (work : Work alpha)
    (result : alpha) (after : Reader) (left : List Node) : Prop :=
  forall machine : Machine, Follows source machine before held ->
    Exists fun later : Machine =>
      work.run machine = some (result, later) ∧ Follows source later after left

namespace Runs

variable {alpha beta : Type} {source : Source} {before between after : Reader}
  {held middle left others : List Node}

theorem pure (result : alpha) : Runs source before held (pure result) result before held :=
  fun machine follows => ⟨machine, rfl, follows⟩

theorem bind {first : Work alpha} {next : alpha -> Work beta} {found : alpha} {result : beta}
    (begun : Runs source before held first found between middle)
    (ended : Runs source between middle (next found) result after left) :
    Runs source before held (first >>= next) result after left := by
  intro machine follows
  rcases begun machine follows with ⟨reached, firstRun, onTheWay⟩
  rcases ended reached onTheWay with ⟨later, nextRun, done⟩
  refine ⟨later, ?_, done⟩
  rw [StateT.run_bind, firstRun]
  exact nextRun

/-- Work may look at the machine before it goes on. -/
theorem look {next : Machine -> Work beta} {result : beta}
    (each : forall machine, Follows source machine before held ->
      Runs source before held (next machine) result after left) :
    Runs source before held (get >>= next) result after left :=
  fun machine follows => each machine follows machine follows

/-- What holds wherever a machine follows the reader may be used. -/
theorem assume {work : Work alpha} {result : alpha} (fact : Prop)
    (known : forall machine, Follows source machine before held -> fact)
    (runs : fact -> Runs source before held work result after left) :
    Runs source before held work result after left :=
  fun machine follows => runs (known machine follows) machine follows

theorem perm {work : Work alpha} {result : alpha} (permutation : held.Perm others)
    (runs : Runs source before others work result after left) :
    Runs source before held work result after left :=
  fun machine follows => runs machine (follows.perm permutation)

/-- The order in which the expressions are listed afterwards is of no
importance either. -/
theorem reorder {work : Work alpha} {result : alpha} (permutation : left.Perm others)
    (runs : Runs source before held work result after left) :
    Runs source before held work result after others := by
  intro machine follows
  rcases runs machine follows with ⟨later, run, done⟩
  exact ⟨later, run, done.perm permutation⟩

end Runs

theorem run_demand {alpha : Type} (value : Option alpha) (machine : Machine) :
    (demand value).run machine = value.map (fun found => (found, machine)) := by
  cases value <;> rfl

/-! ## Single steps -/

section Steps

variable {source : Source} {before : Reader} {held : List Node}

theorem peek_runs : Runs source before held (peek 0) before.current before held := by
  intro machine follows
  refine ⟨machine, ?_, follows⟩
  have seen : machine.window.peek? 0 = some before.current := by
    rw [follows.window]
    rfl
  simp only [peek, StateT.run_bind, StateT.run_get, pure_bind, run_demand, seen]
  rfl

theorem peek_next_runs {next : Token} (ahead : before.window.peek? 1 = some next) :
    Runs source before held (peek 1) next before held := by
  intro machine follows
  refine ⟨machine, ?_, follows⟩
  simp only [peek, StateT.run_bind, StateT.run_get, pure_bind, run_demand, follows.window, ahead]
  rfl

theorem sees_runs (kind : TokenKind) :
    Runs source before held (sees kind) (before.sees kind) before held :=
  peek_runs.bind (.pure _)

theorem atGroupEnd_runs : Runs source before held atGroupEnd before.atGroupEnd before held :=
  (sees_runs .rightParen).bind ((sees_runs .endOfInput).bind (.pure _))

theorem advance_runs (input : before.current.kind ≠ .endOfInput) :
    Runs source before held advance before.current before.advance held := by
  refine peek_runs.bind (fun machine follows => ?_)
  rcases follows.current_of_input input with ⟨rest, split, window⟩
  refine ⟨{ machine with
    window := machine.window.advance
    passed := machine.passed ++ [before.current] }, ?_, ?_⟩
  · rw [guard, if_pos input]
    rfl
  · refine { follows with
      window := congrArg Window.advance follows.window
      place := ⟨rest, ?_, window⟩ }
    rw [List.append_assoc]
    exact split

theorem advance_runs_of_sees {kind : TokenKind} (seen : before.sees kind = true)
    (input : kind ≠ .endOfInput) :
    Runs source before held advance before.current before.advance held :=
  advance_runs (fun ended => input ((beq_iff_eq.mp seen).symm.trans ended))

theorem eat_runs {kind : TokenKind} (seen : before.sees kind = true)
    (input : kind ≠ .endOfInput) : Runs source before held (eat kind) true before.advance held := by
  apply (sees_runs kind).bind
  rw [seen]
  exact (advance_runs_of_sees seen input).bind (.pure true)

theorem eat_runs_of_unseen {kind : TokenKind} (unseen : before.sees kind = false) :
    Runs source before held (eat kind) false before held := by
  apply (sees_runs kind).bind
  rw [unseen]
  exact .pure false

theorem text_runs {span : Span} {word : String} (found : source.slice? span = some word) :
    Runs source before held (text span) word before held := by
  intro machine follows
  refine ⟨machine, ?_, follows⟩
  simp only [text, StateT.run_bind, StateT.run_get, pure_bind, run_demand, follows.ofMachine, found]
  rfl

theorem run_report (machine : Machine) (span : Span) (problem : Problem) :
    (report span problem).run machine =
      (machine.source.diagnose? span problem).map (fun diagnostic =>
        ((), { machine with diagnostics := machine.diagnostics ++ [diagnostic] })) := by
  simp only [report, StateT.run_bind, StateT.run_get, pure_bind, run_demand]
  cases machine.source.diagnose? span problem <;> rfl

theorem report_runs {span : Span} (placed : source.Placed span) (problem : Problem) :
    Runs source before held (report span problem) () (before.report span problem) held := by
  intro machine follows
  have diagnosed : machine.source.diagnose? span problem =
      some (before.source.diagnose span problem) := by
    rw [follows.ofMachine, follows.ofReader]
    exact if_pos placed
  refine ⟨{ machine with
    diagnostics := machine.diagnostics ++ [before.source.diagnose span problem] }, ?_, ?_⟩
  · rw [run_report, diagnosed]
    rfl
  · exact { follows with diagnostics := congrArg (· ++ _) follows.diagnostics }

theorem unexpected_runs (expected : Expectation) :
    Runs source before held (unexpected expected) () (before.unexpected expected) held :=
  .assume _ (fun _ follows => follows.placed_current)
    (fun placed => peek_runs.bind (report_runs placed _))

theorem reportAll_runs {span : Span} (placed : source.Placed span) (problems : List Problem) :
    Runs source before held (reportAll span problems) () (before.reportAll span problems) held := by
  induction problems generalizing before with
  | nil => exact .pure ()
  | cons problem rest ih => exact (report_runs placed problem).bind ih

/-! ## Nodes -/

/-- Work on the arena is done if it yields a result. -/
theorem build_runs {alpha : Type} {work : Edit alpha} {result : alpha} {forest : Forest}
    {left : List Node}
    (yields : Yields (Arena.Stores ⟨before.forest.allocated, held⟩) work result
      (Arena.Stores ⟨forest.allocated, left⟩)) :
    Runs source before held (build work) result { before with forest := forest } left := by
  intro machine follows
  rcases yields machine.arena follows.stores with ⟨arena, run, stored, _⟩
  refine ⟨{ machine with arena := arena }, ?_, { follows with stores := stored }⟩
  simp only [build, StateT.run_bind, StateT.run_get, pure_bind, run_demand, run]
  rfl

theorem alloc_runs (kind : Kind) :
    Runs source before held (build (Arena.alloc kind)) before.nextHandle before.reserve
      (.mk before.nextHandle kind [] :: held) :=
  build_runs (Arena.alloc_yields kind held)

variable {handle : Handle} {kind : Kind} {children : List Node}

theorem append_runs (operand : Node) :
    Runs source before (.mk handle kind children :: operand :: held)
      (build (Arena.append handle operand.handle)) () before
      (.mk handle kind (children ++ [operand]) :: held) :=
  build_runs (Arena.append_yields held handle kind children operand [])

theorem attach_runs (operand : Option Node) :
    Runs source before (.mk handle kind children :: (operand.toList ++ held))
      (attach handle (operand.map Node.handle)) () before
      (.mk handle kind (children ++ operand.toList) :: held) := by
  cases operand with
  | none =>
      rw [Option.toList_none, List.append_nil]
      exact .pure ()
  | some operand => exact append_runs operand

/-- An operand that was built behind the node. -/
theorem attach_runs_behind (operand : Option Node) :
    Runs source before (operand.toList ++ .mk handle kind children :: held)
      (attach handle (operand.map Node.handle)) () before
      (.mk handle kind (children ++ operand.toList) :: held) :=
  .perm List.perm_middle (attach_runs operand)

theorem attachAll_runs (operands : List Node) :
    Runs source before (.mk handle kind children :: (operands ++ held))
      (attachAll handle (operands.map Node.handle)) () before
      (.mk handle kind (children ++ operands) :: held) := by
  induction operands generalizing children with
  | nil =>
      rw [List.append_nil]
      exact .pure ()
  | cons operand rest ih =>
      have further := @ih (children ++ [operand])
      rw [List.append_assoc, List.singleton_append] at further
      exact (append_runs operand).bind further

end Steps

end Machine

end PlanningDomain
