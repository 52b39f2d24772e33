import PlanningDomain.Proofs.Reader.Declarations
import PlanningDomain.Proofs.Reader.LookAhead
import PlanningDomain.Proofs.Reader.Relocation

namespace PlanningDomain

/-!
# Reading sources with the same words

Two sources may have the same words and differ in what stands between them.
Everything that a reader does depends on the words only.  So readers of the two
sources always stand at the same word, build the same nodes, declare the
same facts, and find the same problems at the same words.
-/

/-! ## Words -/

namespace Source

/-- The words of a source, without the places where they stand. -/
def words (source : Source) : List (TokenKind × String) :=
  source.tokens.map (fun token => (token.kind, token.text))

variable {source other : Source}

theorem alike_of_words (same : source.words = other.words) :
    List.Forall₂ Token.Alike source.tokens other.tokens := by
  unfold words at same
  rw [← List.forall₂_eq_eq_eq, List.forall₂_map_left_iff, List.forall₂_map_right_iff] at same
  refine same.imp (fun token like equal => ?_)
  rcases Prod.mk.inj equal with ⟨kind, text⟩
  exact ⟨kind, text⟩

theorem tokenAt_alike (alike : List.Forall₂ Token.Alike source.tokens other.tokens) (place : Nat) :
    (source.tokenAt place).Alike (other.tokenAt place) := by
  unfold tokenAt
  generalize source.tokens = tokens, other.tokens = others at alike
  induction alike generalizing place with
  | nil => exact ⟨rfl, rfl⟩
  | cons first _ ih =>
      cases place with
      | zero => exact first
      | succ place => exact ih place

theorem tokenAt_mem {place : Nat} (input : (source.tokenAt place).kind ≠ .endOfInput) :
    source.tokenAt place ∈ source.tokens := by
  unfold tokenAt at input ⊢
  cases found : source.tokens[place]? with
  | none =>
      rw [found] at input
      exact (input rfl).elim
  | some token => exact List.mem_of_getElem? found

/-- Behind the last token there is nothing but the end of input. -/
theorem tokenAt_min (source : Source) (place : Nat) :
    source.tokenAt (min place source.tokens.length) = source.tokenAt place := by
  rcases Nat.le_total place source.tokens.length with inside | behind
  · rw [Nat.min_eq_left inside]
  · rw [Nat.min_eq_right behind, tokenAt, tokenAt, List.getElem?_eq_none (Nat.le_refl _),
      List.getElem?_eq_none behind]

/-- The tokens at the same place of two sources. -/
def Paired (source other : Source) (token like : Token) : Prop :=
  Exists fun place : Nat => token = source.tokenAt place ∧ like = other.tokenAt place

theorem Paired.alike (alike : List.Forall₂ Token.Alike source.tokens other.tokens)
    {token like : Token} (paired : source.Paired other token like) : token.Alike like := by
  rcases paired with ⟨place, isToken, isLike⟩
  subst isToken isLike
  exact tokenAt_alike alike place

theorem Paired.mem (alike : List.Forall₂ Token.Alike source.tokens other.tokens)
    {token like : Token} (paired : source.Paired other token like)
    (input : token.kind ≠ .endOfInput) : token ∈ source.tokens ∧ like ∈ other.tokens := by
  have same := paired.alike alike
  rcases paired with ⟨place, isToken, isLike⟩
  subst isToken isLike
  exact ⟨tokenAt_mem input, tokenAt_mem (same.kind ▸ input)⟩

end Source

/-- A window on the tokens of a source from some place on shows the tokens at the
places from there on. -/
theorem Window.peek?_start {width distance : Nat} (near : distance < width) (source : Source)
    (place : Nat) :
    (start width (source.tokens.drop place) source.size).peek? distance =
      some (source.tokenAt (place + distance)) := by
  rw [peek?, held_start (Nat.zero_lt_of_lt near), List.getElem?_map, List.getElem?_range near,
    Option.map_some, List.getElem?_drop]
  rfl

/-- The same problem with the tokens at the same place of two sources, or with
the ends of both. -/
def Diagnostic.AtSameToken (source other : Source) (diagnostic like : Diagnostic) : Prop :=
  Exists fun place : Nat => Exists fun problem : Problem => place ≤ source.tokens.length ∧
    diagnostic = source.diagnose (source.tokenAt place).span problem ∧
    like = other.diagnose (other.tokenAt place).span problem

/-! ## Worlds -/

/-- Facts with the same name and parameters, wherever they are declared. -/
structure Fact.Alike (fact like : Fact) : Prop where
  name : fact.name = like.name
  params : fact.params = like.params

/-- Worlds with alike facts in the same order. -/
def World.Alike (world like : World) : Prop :=
  List.Forall₂ Fact.Alike world.facts like.facts

namespace World.Alike

variable {world like : World}

theorem find? (alike : world.Alike like) (name : String) :
    Option.Rel Fact.Alike (world.find? name) (like.find? name) := by
  unfold World.find?
  unfold World.Alike at alike
  generalize world.facts = facts, like.facts = others at alike
  induction alike with
  | nil => exact .none
  | cons first _ ih =>
      rw [List.find?_cons, List.find?_cons, first.name]
      split
      · exact .some first
      · exact ih

theorem isEmpty_eq (alike : world.Alike like) : world.isEmpty = like.isEmpty := by
  unfold World.isEmpty
  unfold World.Alike at alike
  generalize world.facts = facts, like.facts = others at alike
  cases alike <;> rfl

theorem toText_eq (alike : world.Alike like) : world.toText = like.toText := by
  have texts : world.facts.map Fact.toText = like.facts.map Fact.toText := by
    unfold World.Alike at alike
    generalize world.facts = facts, like.facts = others at alike
    induction alike with
    | nil => rfl
    | cons first _ ih =>
        rw [List.map_cons, List.map_cons, ih, Fact.toText, Fact.toText, first.name, first.params]
  rw [World.toText, World.toText, texts]

end World.Alike

namespace Reader

/-! ## Readers at the same word -/

/-- Two readers of two sources that stand at the same word, and have read the same
up to there. -/
structure Parallel (source other : Source) (width : Nat) (reader twin : Reader) : Prop where
  windows : Exists fun place : Nat =>
    reader.window = .start width (source.tokens.drop place) source.size ∧
      twin.window = .start width (other.tokens.drop place) other.size
  isSource : reader.source = source
  isOther : twin.source = other
  validates : reader.options.validateFacts = twin.options.validateFacts
  allocated : reader.forest.allocated = twin.forest.allocated
  worlds : reader.world.Alike twin.world
  diagnostics :
    List.Forall₂ (Diagnostic.AtSameToken source other) reader.diagnostics twin.diagnostics

namespace Parallel

variable {source other : Source} {width : Nat} {reader twin : Reader}

/-- The tokens that are as far away from the readers are at the same place. -/
theorem peek {distance : Nat} (near : distance < width)
    (parallel : Parallel source other width reader twin) :
    Exists fun token : Token => Exists fun like : Token =>
      reader.window.peek? distance = some token ∧ twin.window.peek? distance = some like ∧
        source.Paired other token like := by
  rcases parallel.windows with ⟨place, window, twinWindow⟩
  rw [window, twinWindow]
  exact ⟨_, _, Window.peek?_start near source place, Window.peek?_start near other place,
    place + distance, rfl, rfl⟩

theorem current (wide : minimumLookAhead ≤ width)
    (parallel : Parallel source other width reader twin) :
    source.Paired other reader.current twin.current := by
  rcases parallel.peek (Nat.lt_of_lt_of_le Nat.zero_lt_two wide) with
    ⟨token, like, isToken, isLike, paired⟩
  have first : reader.current = token := Option.some.inj isToken
  have second : twin.current = like := Option.some.inj isLike
  rw [first, second]
  exact paired

theorem seesNext_eq (wide : minimumLookAhead ≤ width)
    (alike : List.Forall₂ Token.Alike source.tokens other.tokens)
    (parallel : Parallel source other width reader twin) (kind : TokenKind) :
    reader.seesNext kind = twin.seesNext kind := by
  rcases parallel.peek (Nat.lt_of_lt_of_le Nat.one_lt_two wide) with
    ⟨token, like, isToken, isLike, paired⟩
  rw [seesNext, seesNext, isToken, isLike, Option.any_some, Option.any_some,
    (paired.alike alike).kind]

theorem advance (parallel : Parallel source other width reader twin) :
    Parallel source other width reader.advance twin.advance := by
  rcases parallel.windows with ⟨place, window, twinWindow⟩
  refine { parallel with windows := ⟨place + 1, ?_, ?_⟩ }
  · rw [Reader.advance, window, Window.advance_start, Window.draw_drop]
  · rw [Reader.advance, twinWindow, Window.advance_start, Window.draw_drop]

theorem report (alike : List.Forall₂ Token.Alike source.tokens other.tokens)
    (parallel : Parallel source other width reader twin) {token like : Token}
    (paired : source.Paired other token like) (problem : Problem) :
    Parallel source other width (reader.report token.span problem)
      (twin.report like.span problem) := by
  rcases paired with ⟨place, isToken, isLike⟩
  subst isToken isLike
  refine { parallel with diagnostics := List.rel_append parallel.diagnostics (.cons ?_ .nil) }
  refine ⟨min place source.tokens.length, problem, Nat.min_le_right _ _, ?_, ?_⟩
  · rw [source.tokenAt_min, parallel.isSource]
  · rw [alike.length_eq, other.tokenAt_min, parallel.isOther]

/-- What is wrong about a call depends on the word that names it. -/
theorem callProblem?_eq (parallel : Parallel source other width reader twin) {token like : Token}
    (alike : token.Alike like) (found : Nat) :
    reader.callProblem? token found = twin.callProblem? like found := by
  have declared := parallel.worlds.find? like.text
  rw [callProblem?, callProblem?, parallel.validates, parallel.worlds.isEmpty_eq, alike.text]
  cases isFact : reader.world.find? like.text with
  | none =>
      rw [isFact] at declared
      cases isTwin : twin.world.find? like.text with
      | none => rfl
      | some _ =>
          rw [isTwin] at declared
          cases declared
  | some fact =>
      rw [isFact] at declared
      cases isTwin : twin.world.find? like.text with
      | none =>
          rw [isTwin] at declared
          cases declared
      | some _ =>
          rw [isTwin] at declared
          cases declared with
          | some same =>
              dsimp only
              rw [Fact.arity, Fact.arity, same.params]

theorem checked (alike : List.Forall₂ Token.Alike source.tokens other.tokens)
    (parallel : Parallel source other width reader twin) {token like : Token}
    (paired : source.Paired other token like) (found : Nat) :
    Parallel source other width (reader.checkCall token found) (twin.checkCall like found) := by
  rw [checkCall_eq, checkCall_eq, ← parallel.callProblem?_eq (paired.alike alike)]
  cases reader.callProblem? token found with
  | none => exact parallel
  | some problem => exact parallel.report alike paired problem

theorem declared (alike : List.Forall₂ Token.Alike source.tokens other.tokens)
    (parallel : Parallel source other width reader twin) {token like : Token}
    (paired : source.Paired other token like) (params : List DataType) :
    Parallel source other width (reader.declare ⟨token.text, token.span, params⟩)
      (twin.declare ⟨like.text, like.span, params⟩) := by
  have text := (paired.alike alike).text
  have declared := parallel.worlds.find? token.text
  cases isFact : reader.world.find? token.text with
  | none =>
      rw [isFact] at declared
      cases isTwin : twin.world.find? token.text with
      | none =>
          rw [text] at isTwin
          rw [declare_of_new isFact, declare_of_new isTwin]
          exact { parallel with
            worlds := List.rel_append parallel.worlds (.cons ⟨text, rfl⟩ .nil) }
      | some _ =>
          rw [isTwin] at declared
          cases declared
  | some fact =>
      rw [isFact] at declared
      cases isTwin : twin.world.find? token.text with
      | none =>
          rw [isTwin] at declared
          cases declared
      | some _ =>
          rw [text] at isTwin
          rw [declare_of_known isFact, declare_of_known isTwin]
          dsimp only
          rw [← text]
          exact parallel.report alike paired _

/-- Readers at the same word read alike, and stay at the same word. -/
def correspondence (wide : minimumLookAhead ≤ width)
    (alike : List.Forall₂ Token.Alike source.tokens other.tokens) : SourceCorrespondence where
  relates := fun _ => Parallel source other width
  tokens := source.Paired other
  handles := Eq
  kinds := Kind.Relocated source other
  current := fun parallel => parallel.current wide
  kind_eq := fun paired => (paired.alike alike).kind
  seesNext_eq := fun parallel _ => parallel.seesNext_eq wide alike _
  nextHandle := fun parallel => parallel.allocated
  plain := .plain
  name := by
    intro token like paired isName
    rcases paired.mem alike (by rw [isName]; decide) with ⟨member, isLike⟩
    exact (paired.alike alike).name member isLike
  constant := by
    intro token like value problems paired found
    rcases paired.mem alike (Token.ne_endOfInput_of_constant found) with ⟨member, isLike⟩
    exact (paired.alike alike).constant member isLike found
  opened := fun parallel _ => parallel.advance
  closed := fun parallel _ => parallel.advance
  advanced := fun parallel _ _ => parallel.advance
  ended := fun parallel _ => parallel
  reported := fun problem parallel paired => parallel.report alike paired problem
  reserved := fun parallel =>
    { parallel with allocated := congrArg (· + 1) parallel.allocated }
  checked := fun found parallel paired _ => parallel.checked alike paired found
  anywhere := fun _ parallel => parallel
  text_eq := fun paired _ => (paired.alike alike).text
  declared := fun params parallel paired _ => parallel.declared alike paired params

theorem start (source other : Source) (options : Options) :
    Parallel source other (max options.lookAhead minimumLookAhead) (Reader.start source options)
      (Reader.start other options) where
  windows := ⟨0, rfl, rfl⟩
  isSource := rfl
  isOther := rfl
  validates := rfl
  allocated := rfl
  worlds := .nil
  diagnostics := .nil

end Parallel

/-- Sources with the same words are read alike. -/
theorem preconditions_parallel {source other : Source}
    (alike : List.Forall₂ Token.Alike source.tokens other.tokens) (options : Options) :
    Parallel source other (max options.lookAhead minimumLookAhead)
        (start source options).preconditions.2 (start other options).preconditions.2 ∧
      List.Forall₂ (Node.Corresponds Eq (Kind.Relocated source other))
        (start source options).preconditions.1 (start other options).preconditions.1 := by
  let c := Parallel.correspondence (Nat.le_max_right options.lookAhead minimumLookAhead) alike
  have related : c.relates 0 (start source options) (start other options) :=
    Parallel.start source other options
  exact c.preconditions _ related

end Reader

end PlanningDomain
