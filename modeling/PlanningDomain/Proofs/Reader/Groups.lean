import PlanningDomain.Proofs.Reader.Transcripts
import PlanningDomain.Proofs.Token.Groups

namespace PlanningDomain

/-!
# Reading groups

A reader in front of an opening parenthesis reads up to the parenthesis that
closes it, whatever stands between the two.  It never looks behind the closing
parenthesis.  So two readers in front of groups with the same words read alike,
in whatever sources these stand.  In front of a parenthesis that is never closed
the reader goes on to the end of input and reports that parenthesis.
-/

namespace Reader

/-! ## What a reader has in front of it -/

/-- The tokens that a reader has still to read are tokens of its source. -/
structure Faces (reader : Reader) (tokens : List Token) : Prop where
  shows : reader.Shows tokens
  belongs : forall token, token ∈ tokens -> token ∈ reader.source.tokens

namespace Faces

variable {reader : Reader} {token : Token} {tokens : List Token}

theorem start (source : Source) (options : Options) :
    (Reader.start source options).Faces source.tokens :=
  ⟨shows_start source options, fun _ member => member⟩

theorem advance (faces : reader.Faces (token :: tokens)) : reader.advance.Faces tokens :=
  ⟨faces.shows.advance, fun other member => faces.belongs other (List.mem_cons_of_mem _ member)⟩

theorem current_mem (faces : reader.Faces (token :: tokens)) : token ∈ reader.source.tokens :=
  faces.belongs token List.mem_cons_self

theorem unended (faces : reader.Faces (token :: tokens)) : reader.sees .endOfInput = false := by
  refine Bool.eq_false_iff.mpr (fun ended => ?_)
  exact List.cons_ne_nil _ _ (faces.shows.eq_nil ended)

theorem within (faces : reader.Faces tokens) : (within reader.source).holds reader := by
  intro other member input
  rcases faces.shows.split with ⟨ends, split, ended⟩
  rw [split] at member
  rcases List.mem_append.mp member with isToken | isEnd
  · exact faces.belongs other isToken
  · exact (input (ended other isEnd)).elim

end Faces

/-- The end of input where a group should be closed is reported. -/
theorem closeGroup_of_end {reader : Reader} {opened : Span}
    (ended : reader.sees .endOfInput = true) :
    reader.closeGroup opened = reader.report opened .unbalancedParen := by
  have unclosed := sees_eq_false_of_sees ended (by decide : TokenKind.endOfInput ≠ .rightParen)
  have ends : reader.atGroupEnd = true := by rw [atGroupEnd, ended, Bool.or_true]
  unfold closeGroup
  simp only [if_pos ends, if_neg (Bool.eq_false_iff.mp unclosed)]

theorem atGroupEnd_conjuncts (reader : Reader) :
    reader.conjuncts.reader.atGroupEnd = true := by
  induction reader using conjuncts.induct with
  | case1 reader ended =>
      rw [(conjuncts_of_end ended).2]
      exact ended
  | case2 reader notEnded first _ ih =>
      rw [(conjuncts_of_inside (Bool.eq_false_iff.mpr notEnded)).2]
      exact ih

/-! ## Two readers inside of groups -/

/-- What stands around a group: its source, the parenthesis that closes it, the
tokens after that, and the problems that were noted before. -/
structure Surroundings where
  source : Source
  closing : Token
  closes : closing.kind = .rightParen
  rest : List Token
  noted : List Problem

/-- A reader has some tokens of the group left, and has found some problems. -/
structure Surroundings.Encloses (around : Surroundings) (reader : Reader) (inside : List Token)
    (found : List Problem) : Prop where
  source : reader.source = around.source
  faces : reader.Faces (inside ++ around.closing :: around.rest)
  problems : reader.diagnostics.map Diagnostic.problem = around.noted ++ found

namespace Surroundings.Encloses

variable {around : Surroundings} {reader : Reader} {token : Token} {inside : List Token}
  {found : List Problem}

theorem advance (encloses : around.Encloses reader (token :: inside) found) :
    around.Encloses reader.advance inside found :=
  ⟨encloses.source, encloses.faces.advance, encloses.problems⟩

theorem report (encloses : around.Encloses reader inside found) (span : Span) (problem : Problem) :
    around.Encloses (reader.report span problem) inside (found ++ [problem]) where
  source := encloses.source
  faces := ⟨encloses.faces.shows, encloses.faces.belongs⟩
  problems := by
    rw [Reader.report, List.map_append, encloses.problems, List.append_assoc]
    rfl

theorem reserve (encloses : around.Encloses reader inside found) :
    around.Encloses reader.reserve inside found :=
  ⟨encloses.source, ⟨encloses.faces.shows, encloses.faces.belongs⟩, encloses.problems⟩

end Surroundings.Encloses

/-- Two readers have alike tokens left in their groups, and have found the same
problems.  The groups around the current token that were opened inside of the
two groups are closed there again. -/
structure Abreast (left right : Surroundings) (depth : Nat) (reader other : Reader)
    (inside like : List Token) (found : List Problem) : Prop where
  alike : List.Forall₂ Token.Alike inside like
  balanced : openAfter depth inside = some 0
  left : left.Encloses reader inside found
  right : right.Encloses other like found
  world : reader.world = other.world
  validates : reader.options.validateFacts = other.options.validateFacts

namespace Abreast

variable {left right : Surroundings} {depth : Nat} {reader other : Reader}
  {inside like : List Token} {found : List Problem}

/-- Both readers see alike tokens of their sources. -/
theorem current (abreast : Abreast left right depth reader other inside like found)
    (closing : left.closing.Alike right.closing) :
    reader.current.Alike other.current ∧ reader.current ∈ left.source.tokens ∧
      other.current ∈ right.source.tokens := by
  have first := abreast.left.faces
  have second := abreast.right.faces
  rw [← abreast.left.source, ← abreast.right.source]
  cases abreast.alike with
  | nil =>
      rw [first.shows.current_eq, second.shows.current_eq]
      exact ⟨closing, first.current_mem, second.current_mem⟩
  | cons head _ =>
      rw [first.shows.current_eq, second.shows.current_eq]
      exact ⟨head, first.current_mem, second.current_mem⟩

theorem unended (abreast : Abreast left right depth reader other inside like found) :
    reader.sees .endOfInput = false := by
  have faces := abreast.left.faces
  cases inside with
  | nil => exact faces.unended
  | cons token rest => exact faces.unended

/-- Where no group is to be closed, both readers are inside of their groups. -/
theorem exists_cons (abreast : Abreast left right depth reader other inside like found)
    (within : reader.sees .rightParen = false ∨ depth ≠ 0) :
    Exists fun token : Token => Exists fun rest : List Token =>
      Exists fun twin : Token => Exists fun others : List Token =>
        inside = token :: rest ∧ like = twin :: others ∧ List.Forall₂ Token.Alike rest others ∧
          reader.current = token := by
  cases abreast with
  | mk alike balanced encloses _ _ _ =>
      cases alike with
      | nil =>
          rcases within with unclosed | deep
          · rw [encloses.faces.shows.sees_of left.closes] at unclosed
            exact Bool.noConfusion unclosed
          · exact (deep (Option.some.inj balanced)).elim
      | cons head later =>
          exact ⟨_, _, _, _, rfl, rfl, later, encloses.faces.shows.current_eq⟩

/-- Both readers move on, to a place inside of as many groups as are open there. -/
theorem advance (abreast : Abreast left right depth reader other inside like found)
    (within : reader.sees .rightParen = false ∨ depth ≠ 0) {inner : Nat}
    (moved : forall rest : List Token,
      openAfter depth (reader.current :: rest) = openAfter inner rest) :
    Exists fun rest : List Token => Exists fun others : List Token =>
      Abreast left right inner reader.advance other.advance rest others found := by
  rcases abreast.exists_cons within with ⟨token, rest, twin, others, split, same, later, isCurrent⟩
  subst split same
  have balanced := abreast.balanced
  rw [← isCurrent, moved] at balanced
  exact ⟨rest, others, later, balanced, abreast.left.advance, abreast.right.advance,
    abreast.world, abreast.validates⟩

/-- In the outermost group, a closing parenthesis is the one that closes it. -/
theorem eq_nil (abreast : Abreast left right 0 reader other inside like found)
    (closes : reader.sees .rightParen = true) : inside = [] ∧ like = [] := by
  have balanced := abreast.balanced
  have seen := abreast.left.faces.shows
  cases abreast.alike with
  | nil => exact ⟨rfl, rfl⟩
  | @cons token _ _ _ _ _ =>
      rw [sees, seen.current_eq] at closes
      rw [openAfter_zero_of_closes (beq_iff_eq.mp closes)] at balanced
      exact (Option.some_ne_none _ balanced.symm).elim

theorem report (abreast : Abreast left right depth reader other inside like found)
    (span twin : Span) (problem : Problem) :
    Abreast left right depth (reader.report span problem) (other.report twin problem) inside like
      (found ++ [problem]) :=
  ⟨abreast.alike, abreast.balanced, abreast.left.report span problem,
    abreast.right.report twin problem, abreast.world, abreast.validates⟩

end Abreast

/-- Two readers inside of groups with alike tokens correspond, if the groups are
closed by alike tokens. -/
def alike (left right : Surroundings) (closing : left.closing.Alike right.closing) :
    Correspondence where
  relates := fun depth reader other =>
    Exists fun inside : List Token => Exists fun like : List Token =>
      Exists fun found : List Problem => Abreast left right depth reader other inside like found
  tokens := fun token like =>
    token.Alike like ∧ token ∈ left.source.tokens ∧ like ∈ right.source.tokens
  handles := fun _ _ => True
  kinds := Kind.Alike left.source right.source
  current := fun ⟨_, _, _, abreast⟩ => abreast.current closing
  kind_eq := fun same => same.1.kind
  seesNext_eq := by
    intro depth reader other ⟨inside, like, found, abreast⟩ named
    have unclosed := sees_eq_false_of_sees named (by decide : TokenKind.identifier ≠ .rightParen)
    rcases abreast.exists_cons (Or.inl unclosed) with ⟨token, rest, twin, others, split, same, _⟩
    subst split same
    have isName := beq_iff_eq.mp named
    rcases abreast.advance (Or.inl unclosed) (fun _ => openAfter_of_other
      (by rw [show reader.current.kind = _ from isName]; decide)
      (by rw [show reader.current.kind = _ from isName]; decide)) with ⟨_, _, next⟩
    have first : reader.Shows (token :: (rest ++ left.closing :: left.rest)) :=
      abreast.left.faces.shows
    have second : other.Shows (twin :: (others ++ right.closing :: right.rest)) :=
      abreast.right.faces.shows
    rw [first.seesNext_eq, second.seesNext_eq, sees, sees, (next.current closing).1.kind]
  nextHandle := fun _ => trivial
  plain := .plain
  name := by
    intro token like same _
    rcases same.1.name same.2.1 same.2.2 with ⟨var, func⟩
    exact ⟨var.alike, func.alike⟩
  constant := by
    intro token like value problems same found
    rcases same.1.constant same.2.1 same.2.2 found with ⟨result, again, related⟩
    exact ⟨result, again, related.alike⟩
  opened := by
    intro depth reader other ⟨inside, like, found, abreast⟩ opens
    have unclosed := sees_eq_false_of_sees opens (by decide : TokenKind.leftParen ≠ .rightParen)
    rcases abreast.advance (Or.inl unclosed)
      (fun _ => openAfter_of_opens (beq_iff_eq.mp opens)) with ⟨rest, others, moved⟩
    exact ⟨rest, others, found, moved⟩
  closed := by
    intro depth reader other ⟨inside, like, found, abreast⟩ closes
    rcases abreast.advance (Or.inr (Nat.succ_ne_zero depth))
      (fun _ => openAfter_of_closes (beq_iff_eq.mp closes)) with ⟨rest, others, moved⟩
    exact ⟨rest, others, found, moved⟩
  advanced := by
    intro depth reader other ⟨inside, like, found, abreast⟩ unopened within
    rcases Bool.or_eq_false_iff.mp within with ⟨unclosed, _⟩
    rcases abreast.advance (Or.inl unclosed) (fun _ => openAfter_of_other
      (beq_eq_false_iff_ne.mp unopened) (beq_eq_false_iff_ne.mp unclosed)) with
      ⟨rest, others, moved⟩
    exact ⟨rest, others, found, moved⟩
  ended := by
    intro depth reader other ⟨inside, like, found, abreast⟩ ended
    rw [abreast.unended] at ended
    exact Bool.noConfusion ended
  reported := fun problem ⟨inside, like, found, abreast⟩ _ =>
    ⟨inside, like, found ++ [problem], abreast.report _ _ problem⟩
  reserved := fun ⟨inside, like, found, abreast⟩ => ⟨inside, like, found, abreast.alike,
    abreast.balanced, abreast.left.reserve, abreast.right.reserve, abreast.world,
    abreast.validates⟩
  checked := by
    rintro depth reader other token like number ⟨inside, others, found, abreast⟩ same -
    have sameProblem : other.callProblem? like number = reader.callProblem? token number := by
      unfold callProblem?
      rw [abreast.world, abreast.validates, same.1.text]
    rw [checkCall_eq, checkCall_eq, sameProblem]
    cases reader.callProblem? token number with
    | none => exact ⟨inside, others, found, abreast⟩
    | some problem => exact ⟨inside, others, _, abreast.report _ _ problem⟩

/-! ## Closed groups -/

section Closed

variable {reader other : Reader} {group like : Group} {rest others : List Token}

/-- Behind a precondition, the reader is where it was behind the closing
parenthesis, but for the handles given out. -/
theorem conjoin_window (reader : Reader) (operands : List Node) :
    (reader.conjoin operands).2.window = reader.window ∧
      (reader.conjoin operands).2.source = reader.source ∧
      (reader.conjoin operands).2.diagnostics = reader.diagnostics := by
  rcases (conjoin_eq reader operands).2 with same | same
  · rw [same]
    exact ⟨rfl, rfl, rfl⟩
  · rw [same]
    exact ⟨rfl, rfl, rfl⟩

/-- What stands around a group in front of a reader. -/
def surroundings (reader : Reader) (group : Group) (rest : List Token) : Surroundings :=
  ⟨reader.source, group.closing, group.closes, rest, reader.diagnostics.map Diagnostic.problem⟩

/-- A reader behind the opening parenthesis of a group is inside of it. -/
theorem encloses_opening (faces : reader.Faces (group.tokens ++ rest)) :
    (reader.surroundings group rest).Encloses reader.advance group.inside [] where
  source := rfl
  faces := (group.tokens_append rest ▸ faces).advance
  problems := (List.append_nil _).symm

/-- The expressions of a group are read up to the parenthesis that closes it. -/
theorem precondition_of_encloses {around : Surroundings} {found : List Problem}
    (opens : reader.sees .leftParen = true)
    (encloses : around.Encloses reader.advance.conjuncts.reader [] found) :
    reader.precondition.2.Faces around.rest ∧ reader.precondition.2.source = around.source ∧
      reader.precondition.2.diagnostics.map Diagnostic.problem = around.noted ++ found ∧
      reader.precondition.1 =
        (reader.advance.conjuncts.reader.advance.conjoin reader.advance.conjuncts.value).1 := by
  have closes := encloses.faces.shows.sees_of around.closes
  rw [precondition_of_opens opens, closeGroup_of_close closes]
  have past := encloses.faces.advance
  rcases conjoin_window reader.advance.conjuncts.reader.advance reader.advance.conjuncts.value with
    ⟨window, source, diagnostics⟩
  refine ⟨⟨?_, ?_⟩, source.trans encloses.source, ?_, rfl⟩
  · rw [Shows, window]
    exact past.shows
  · rw [source]
    exact past.belongs
  · rw [diagnostics]
    exact encloses.problems

/-- Two readers in front of groups with alike tokens read up to the ends of these,
find the same problems, and build expressions with the same words. -/
theorem precondition_of_groups (faces : reader.Faces (group.tokens ++ rest))
    (otherFaces : other.Faces (like.tokens ++ others))
    (alikeTokens : List.Forall₂ Token.Alike group.tokens like.tokens)
    (world : reader.world = other.world)
    (validates : reader.options.validateFacts = other.options.validateFacts) :
    Exists fun found : List Problem =>
      (reader.precondition.2.Faces rest ∧ reader.precondition.2.source = reader.source ∧
        reader.precondition.2.diagnostics.map Diagnostic.problem =
          reader.diagnostics.map Diagnostic.problem ++ found) ∧
      other.precondition.2.diagnostics.map Diagnostic.problem =
        other.diagnostics.map Diagnostic.problem ++ found ∧
      Node.Corresponds (fun _ _ => True) (Kind.Alike reader.source other.source)
        reader.precondition.1 other.precondition.1 := by
  rcases Group.alike_parts alikeTokens with ⟨inside, closing⟩
  let c := alike (reader.surroundings group rest) (other.surroundings like others) closing
  have within : c.relates 0 reader.advance other.advance :=
    ⟨group.inside, like.inside, [], inside, group.balanced, encloses_opening faces,
      encloses_opening otherFaces, world, validates⟩
  rcases c.conjuncts reader.advance within with ⟨⟨left, right, found, abreast⟩, nodes⟩
  -- In the outermost group, only its own closing parenthesis ends the loop.
  have closes := atGroupEnd_conjuncts reader.advance
  rw [atGroupEnd, abreast.unended, Bool.or_false] at closes
  rcases abreast.eq_nil closes with ⟨noMore, noOthers⟩
  subst noMore noOthers
  have opens := (group.tokens_append rest ▸ faces).shows.sees_of group.opens
  have otherOpens := (like.tokens_append others ▸ otherFaces).shows.sees_of like.opens
  rcases precondition_of_encloses opens abreast.left with ⟨left, source, problems, node⟩
  rcases precondition_of_encloses otherOpens abreast.right with ⟨_, _, otherProblems, otherNode⟩
  refine ⟨found, ⟨left, source, problems⟩, otherProblems, ?_⟩
  rw [node, otherNode]
  exact c.conjoined trivial nodes

/-- A reader in front of a group reads it, and nothing behind it. -/
theorem faces_precondition (faces : reader.Faces (group.tokens ++ rest)) :
    reader.precondition.2.Faces rest := by
  have same : List.Forall₂ Token.Alike group.tokens group.tokens :=
    List.forall₂_same.mpr (fun token _ => .refl token)
  rcases precondition_of_groups faces faces same rfl rfl with ⟨_, ⟨behind, _⟩, _⟩
  exact behind

theorem messages_of_problems {noted : List Problem} {found : List Problem}
    {before after : List Diagnostic} (length : noted.length = before.length)
    (problems : after.map Diagnostic.problem = noted ++ found) :
    (after.drop before.length).map Diagnostic.message = found.map Problem.message := by
  have same : Diagnostic.message = Problem.message ∘ Diagnostic.problem := rfl
  rw [same, ← List.map_map, List.map_drop, problems, ← length, List.drop_left]

/-- The transcript of a precondition depends on the words of its group, on the
world, and on whether calls are checked, and on nothing else. -/
theorem transcript_of_groups (faces : reader.Faces (group.tokens ++ rest))
    (otherFaces : other.Faces (like.tokens ++ others))
    (alikeTokens : List.Forall₂ Token.Alike group.tokens like.tokens)
    (world : reader.world = other.world)
    (validates : reader.options.validateFacts = other.options.validateFacts) :
    reader.transcript = other.transcript := by
  rcases precondition_of_groups faces otherFaces alikeTokens world validates with
    ⟨found, ⟨_, _, problems⟩, otherProblems, nodes⟩
  rw [transcript, transcript, nodes.dump?_eq, nodes.payloads?_eq,
    messages_of_problems (List.length_map _) problems,
    messages_of_problems (List.length_map _) otherProblems]

end Closed

/-! ## Groups that are never closed -/

/-- A reader in front of tokens that close no more groups than were opened
agrees with itself. -/
def unclosed : Agreement where
  relates := fun depth reader other => reader = other ∧
    Exists fun tokens : List Token => reader.Shows tokens ∧ openAfter depth tokens ≠ none
  window_eq := fun related => congrArg Reader.window related.1
  nextHandle_eq := fun related => congrArg Reader.nextHandle related.1
  opened := by
    rintro depth reader other ⟨same, tokens, shows, opened⟩ opens
    rcases shows.exists_cons opens (by decide) with ⟨rest, split⟩
    subst same split
    rw [openAfter_of_opens (beq_iff_eq.mp opens)] at opened
    exact ⟨rfl, rest, shows.advance, opened⟩
  closed := by
    rintro depth reader other ⟨same, tokens, shows, opened⟩ closes
    rcases shows.exists_cons closes (by decide) with ⟨rest, split⟩
    subst same split
    rw [openAfter_of_closes (beq_iff_eq.mp closes)] at opened
    exact ⟨rfl, rest, shows.advance, opened⟩
  advanced := by
    rintro depth reader other ⟨same, tokens, shows, opened⟩ unopened within
    rcases Bool.or_eq_false_iff.mp within with ⟨unclosed, notEnded⟩
    cases tokens with
    | nil =>
        rw [shows.sees_end] at notEnded
        exact Bool.noConfusion notEnded
    | cons token rest =>
        subst same
        rw [sees, shows.current_eq] at unopened unclosed
        rw [openAfter_of_other (beq_eq_false_iff_ne.mp unopened)
          (beq_eq_false_iff_ne.mp unclosed)] at opened
        exact ⟨rfl, rest, shows.advance, opened⟩
  ended := by
    rintro depth reader other ⟨same, tokens, shows, _⟩ ended
    have noMore := shows.eq_nil ended
    subst noMore
    exact ⟨same, [], shows, Option.some_ne_none _⟩
  reported := fun _ _ related => ⟨related.1 ▸ rfl, related.2⟩
  reserved := fun related => ⟨related.1 ▸ rfl, related.2⟩
  checked := by
    rintro depth reader other token found ⟨same, tokens, shows, opened⟩
    refine ⟨same ▸ rfl, tokens, ?_, opened⟩
    rw [checkCall_eq]
    cases reader.callProblem? token found with
    | none => exact shows
    | some problem => exact shows

/-- In front of a group that is never closed, a reader reads everything up to the
end of input and reports the parenthesis that opens it. -/
theorem precondition_of_unclosed {reader : Reader} {opening : Token} {tokens : List Token}
    (shows : reader.Shows (opening :: tokens)) (isOpening : opening.kind = .leftParen)
    (opened : openAfter 0 tokens ≠ none) :
    reader.precondition.2.Shows [] ∧ Exists fun found : List Diagnostic =>
      reader.precondition.2.diagnostics = reader.diagnostics ++ found ++
        [reader.source.diagnose opening.span .unbalancedParen] := by
  have opens := shows.sees_of isOpening
  have related : unclosed.relates 0 reader.advance reader.advance :=
    ⟨rfl, tokens, shows.advance, opened⟩
  rcases unclosed.conjuncts related with ⟨_, left, reached, still⟩
  -- The loop does not end at a closing parenthesis, so it ends with the input.
  have ended : reader.advance.conjuncts.reader.sees .endOfInput = true := by
    have ends := atGroupEnd_conjuncts reader.advance
    cases closes : reader.advance.conjuncts.reader.sees .rightParen with
    | false => rw [atGroupEnd, closes, Bool.false_or] at ends; exact ends
    | true =>
        rcases reached.exists_cons closes (by decide) with ⟨rest, split⟩
        subst split
        exact (still (openAfter_zero_of_closes (beq_iff_eq.mp closes))).elim
  have steps := conjuncts_steps reader.advance
  rcases steps.noted with ⟨found, noted⟩
  rw [precondition_of_opens opens, closeGroup_of_end ended, shows.current_eq]
  rcases conjoin_window (reader.advance.conjuncts.reader.report opening.span .unbalancedParen)
    reader.advance.conjuncts.value with ⟨window, _, diagnostics⟩
  refine ⟨?_, found, ?_⟩
  · rw [Shows, window]
    exact reached.eq_nil ended ▸ reached
  · rw [diagnostics, report, ← noted, steps.unchanged.2.2]
    rfl

end Reader

end PlanningDomain
