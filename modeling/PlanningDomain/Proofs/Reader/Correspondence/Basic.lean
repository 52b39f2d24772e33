import Mathlib.Data.List.Forall2
import PlanningDomain.Proofs.Reader.Branches

namespace PlanningDomain

/-!
# Readers that correspond

Two readers may stand in different sources, or at different places of one, and
still read alike.  What they do depends on the kinds of the tokens that they see,
on the constants that these denote, and on what is said about calls.  A
correspondence relates readers that agree on this, and says that they still agree
after each of the few things that a reader does.  It also says how the handles and
the kinds of the new nodes are related.  Then everything that is read from related
readers is related, whatever the input is.

The relation may depend on the number of groups that were opened and are still
open.  A token inside of a group is then known to be no token that closes the
groups around it.  A relation of readers to themselves is an invariant of
reading.
-/

/-- Every member of the first of two related lists is related to a member of
the second. -/
theorem exists_related_of_mem {alpha beta : Type} {relates : alpha -> beta -> Prop}
    {first : List alpha} {second : List beta} (related : List.Forall₂ relates first second)
    {member : alpha} (isMember : member ∈ first) :
    Exists fun other : beta => other ∈ second ∧ relates member other := by
  induction related with
  | nil => exact (List.not_mem_nil isMember).elim
  | cons head _ ih =>
      rcases List.mem_cons.mp isMember with same | later
      · exact ⟨_, List.mem_cons_self, same ▸ head⟩
      · rcases ih later with ⟨other, isOther, tail⟩
        exact ⟨other, List.mem_cons_of_mem _ isOther, tail⟩

/-- Lists are related through a list between them. -/
theorem forall₂_through {alpha beta gamma : Type} {first : alpha -> beta -> Prop}
    {second : beta -> gamma -> Prop} {starts : List alpha} {middles : List beta}
    {ends : List gamma} (before : List.Forall₂ first starts middles)
    (after : List.Forall₂ second middles ends) :
    List.Forall₂ (fun start last => Exists fun middle : beta =>
      first start middle ∧ second middle last) starts ends := by
  induction before generalizing ends with
  | nil =>
      cases after with
      | nil => exact .nil
  | cons head _ ih =>
      cases after with
      | cons further rest => exact .cons ⟨_, head, further⟩ (ih rest)

/-- A relation between the members of lists, given what it follows from for the
members of the first. -/
theorem forall₂_imp_of_mem {alpha beta : Type} {relates implied : alpha -> beta -> Prop}
    {first : List alpha} {second : List beta} (related : List.Forall₂ relates first second)
    (implies : forall member, member ∈ first -> forall other, relates member other ->
      implied member other) : List.Forall₂ implied first second := by
  induction related with
  | nil => exact .nil
  | cons head _ ih =>
      exact .cons (implies _ List.mem_cons_self _ head)
        (ih (fun member later => implies member (List.mem_cons_of_mem _ later)))

namespace Node

/-- Expressions of one shape, whose handles and kinds are related. -/
inductive Corresponds (handles : Handle -> Handle -> Prop) (kinds : Kind -> Kind -> Prop) :
    Node -> Node -> Prop
  | mk {handle other kind like children others} :
      handles handle other ->
      kinds kind like ->
      List.Forall₂ (Corresponds handles kinds) children others ->
      Corresponds handles kinds (.mk handle kind children) (.mk other like others)

/-- Expressions with the same handles and kinds are the same. -/
theorem Corresponds.eq {handles : Handle -> Handle -> Prop} {kinds : Kind -> Kind -> Prop}
    (sameHandles : forall {first second}, handles first second -> first = second)
    (sameKinds : forall {first second}, kinds first second -> first = second) (node : Node) :
    forall {other : Node}, Corresponds handles kinds node other -> node = other := by
  induction node using Node.induction with
  | step handle kind children ih =>
      intro other alike
      cases alike with
      | @mk _ _ _ _ _ others isHandle isKind operands =>
          have same : children = others := by
            clear isHandle isKind
            induction operands with
            | nil => rfl
            | @cons child _ rest _ first _ onRest =>
                rw [ih child List.mem_cons_self first,
                  onRest (fun inner member => ih inner (List.mem_cons_of_mem _ member))]
          rw [sameHandles isHandle, sameKinds isKind, same]

theorem Corresponds.mono {handles : Handle -> Handle -> Prop} {kinds weaker : Kind -> Kind -> Prop}
    (implies : forall {first second}, kinds first second -> weaker first second) (node : Node) :
    forall {other : Node}, Corresponds handles kinds node other ->
      Corresponds handles weaker node other := by
  induction node using Node.induction with
  | step handle kind children ih =>
      intro other alike
      cases alike with
      | mk isHandle isKind operands =>
          exact .mk isHandle (implies isKind)
            (forall₂_imp_of_mem operands (fun child isChild _ related => ih child isChild related))

end Node

namespace Reader

/-- Readers that read alike.  The number counts the groups around the current
token that were opened while they read. -/
structure Correspondence where
  relates : Nat -> Reader -> Reader -> Prop
  tokens : Token -> Token -> Prop
  handles : Handle -> Handle -> Prop
  kinds : Kind -> Kind -> Prop
  -- What related readers see.
  current {depth : Nat} {reader other : Reader} : relates depth reader other ->
    tokens reader.current other.current
  kind_eq {token like : Token} : tokens token like -> token.kind = like.kind
  seesNext_eq {depth : Nat} {reader other : Reader} : relates depth reader other ->
    reader.sees .identifier = true -> reader.seesNext .leftParen = other.seesNext .leftParen
  -- The nodes that they build.
  nextHandle {depth : Nat} {reader other : Reader} : relates depth reader other ->
    handles reader.nextHandle other.nextHandle
  plain {kind : Kind} : kind.name? = none -> kind.literal? = none -> kinds kind kind
  name {token like : Token} : tokens token like -> token.kind = .identifier ->
    kinds (.var token.span) (.var like.span) ∧ kinds (.func token.span) (.func like.span)
  constant {token like : Token} {value : Literal} {problems : List Problem} : tokens token like ->
    token.constant? = some (value, problems) -> Exists fun result : Literal =>
      like.constant? = some (result, problems) ∧ kinds (.literal value) (.literal result)
  -- What they do.
  opened {depth : Nat} {reader other : Reader} : relates depth reader other ->
    reader.sees .leftParen = true -> relates (depth + 1) reader.advance other.advance
  closed {depth : Nat} {reader other : Reader} : relates (depth + 1) reader other ->
    reader.sees .rightParen = true -> relates depth reader.advance other.advance
  advanced {depth : Nat} {reader other : Reader} : relates depth reader other ->
    reader.sees .leftParen = false -> reader.atGroupEnd = false ->
      relates depth reader.advance other.advance
  ended {depth : Nat} {reader other : Reader} : relates (depth + 1) reader other ->
    reader.sees .endOfInput = true -> relates depth reader other
  reported {depth : Nat} {reader other : Reader} {token like : Token} (problem : Problem) :
    relates depth reader other -> tokens token like ->
      relates depth (reader.report token.span problem) (other.report like.span problem)
  reserved {depth : Nat} {reader other : Reader} : relates depth reader other ->
    relates depth reader.reserve other.reserve
  checked {depth : Nat} {reader other : Reader} {token like : Token} (found : Nat) :
    relates depth reader other -> tokens token like -> token.kind = .identifier ->
      relates depth (reader.checkCall token found) (other.checkCall like found)

namespace Correspondence

variable (c : Correspondence) {depth : Nat} {reader other : Reader}

/-- Expressions that are read alike. -/
abbrev nodes : Node -> Node -> Prop :=
  Node.Corresponds c.handles c.kinds

/-- Ranges of related tokens. -/
def spans (span like : Span) : Prop :=
  Exists fun token : Token => Exists fun twin : Token =>
    c.tokens token twin ∧ token.span = span ∧ twin.span = like

theorem sees_eq (related : c.relates depth reader other) (kind : TokenKind) :
    reader.sees kind = other.sees kind := by
  rw [sees, sees, c.kind_eq (c.current related)]

theorem sees_of (related : c.relates depth reader other) {kind : TokenKind}
    (seen : reader.sees kind = true) : other.sees kind = true :=
  (c.sees_eq related kind) ▸ seen

theorem unseen_of (related : c.relates depth reader other) {kind : TokenKind}
    (unseen : reader.sees kind = false) : other.sees kind = false :=
  (c.sees_eq related kind) ▸ unseen

theorem atGroupEnd_eq (related : c.relates depth reader other) :
    reader.atGroupEnd = other.atGroupEnd := by
  rw [atGroupEnd, atGroupEnd, c.sees_eq related, c.sees_eq related]

/-- A token that opens and closes no group is passed. -/
theorem passed (related : c.relates depth reader other) {kind : TokenKind}
    (seen : reader.sees kind = true)
    (inside : kind ≠ .leftParen ∧ kind ≠ .rightParen ∧ kind ≠ .endOfInput) :
    c.relates depth reader.advance other.advance := by
  apply c.advanced related (sees_eq_false_of_sees seen inside.1)
  rw [atGroupEnd, sees_eq_false_of_sees seen inside.2.1, sees_eq_false_of_sees seen inside.2.2]
  rfl

theorem passed_operator (related : c.relates depth reader other) {operators : Chain} {kind : Kind}
    (operator : operators.kind? reader.current.kind = some kind) :
    c.relates depth reader.advance other.advance := by
  have unlike : forall mark : TokenKind, operators.kind? mark = none ->
      reader.sees mark = false :=
    fun _ absent => beq_eq_false_iff_ne.mpr (Chain.ne_of_kind operator absent)
  apply c.advanced related (unlike .leftParen (by cases operators <;> rfl))
  rw [atGroupEnd, unlike .rightParen (by cases operators <;> rfl),
    unlike .endOfInput operators.kind?_endOfInput]
  rfl

theorem constant_eq_none (related : c.relates depth reader other)
    (absent : reader.current.constant? = none) : other.current.constant? = none := by
  cases found : other.current.constant? with
  | none => rfl
  | some constant =>
      have kinds := Token.kind_of_constant found
      rw [← c.kind_eq (c.current related)] at kinds
      have present := Token.isSome_constant kinds
      rw [absent] at present
      exact Bool.noConfusion present

theorem reported_span (related : c.relates depth reader other) {span like : Span}
    (alike : c.spans span like) (problem : Problem) :
    c.relates depth (reader.report span problem) (other.report like problem) := by
  rcases alike with ⟨token, twin, same, isSpan, isLike⟩
  subst isSpan isLike
  exact c.reported problem related same

theorem unexpected (related : c.relates depth reader other) (expected : Expectation) :
    c.relates depth (reader.unexpected expected) (other.unexpected expected) := by
  have same := c.reported (.unexpected expected reader.current.kind) related (c.current related)
  rw [Reader.unexpected, Reader.unexpected, ← c.kind_eq (c.current related)]
  exact same

theorem reportedAll (related : c.relates depth reader other) {token like : Token}
    (alike : c.tokens token like) (problems : List Problem) :
    c.relates depth (reader.reportAll token.span problems)
      (other.reportAll like.span problems) := by
  induction problems generalizing reader other with
  | nil => exact related
  | cons problem rest ih => exact ih (c.reported problem related alike)

/-! ## Ends of groups -/

/-- The groups that were opened while skipping are closed again. -/
theorem skipGroup (inner : Nat) (reader : Reader) : forall {depth : Nat} {other : Reader},
    c.relates (depth + inner) reader other ->
      c.relates depth (Reader.skipGroup inner reader) (Reader.skipGroup inner other) := by
  induction inner, reader using Reader.skipGroup.induct with
  | case1 inner reader ended =>
      intro depth other related
      rw [skipGroup_of_end ended, skipGroup_of_end (c.sees_of related ended)]
      induction inner with
      | zero => exact related
      | succ inner ih => exact ih (c.ended related ended)
  | case2 inner reader notEnded closes =>
      intro depth other related
      rcases Bool.and_eq_true_iff.mp closes with ⟨closing, outermost⟩
      rw [beq_iff_eq.mp outermost] at related ⊢
      rw [skipGroup_of_close closing, skipGroup_of_close (c.sees_of related closing)]
      exact related
  | case3 inner reader notEnded closes _ ih =>
      intro depth other related
      have still : ¬ other.sees .endOfInput = true := by
        rw [← c.sees_eq related]
        exact notEnded
      have unclosed : ¬ (other.sees .rightParen && inner == 0) = true := by
        rw [← c.sees_eq related]
        exact closes
      rw [@skipGroup_of_inside reader _ notEnded closes,
        @skipGroup_of_inside other _ still unclosed, ← c.kind_eq (c.current related)]
      apply ih
      cases opens : reader.sees .leftParen with
      | true =>
          rw [beq_iff_eq.mp opens]
          exact c.opened related opens
      | false =>
          cases ends : reader.sees .rightParen with
          | true =>
              rw [ends, Bool.true_and] at closes
              obtain ⟨less, isLess⟩ : Exists fun less : Nat => inner = less + 1 :=
                Nat.exists_eq_succ_of_ne_zero (fun none => closes (beq_iff_eq.mpr none))
              subst isLess
              rw [beq_iff_eq.mp ends]
              exact c.closed related ends
          | false =>
              have inside : reader.atGroupEnd = false := by
                rw [atGroupEnd, ends, Bool.eq_false_iff.mpr notEnded]
                rfl
              rw [depthAfter_of_inside opens inside]
              exact c.advanced related opens inside

theorem recover (related : c.relates depth reader other) :
    c.relates depth reader.recover other.recover :=
  c.skipGroup 0 reader related

theorem closeGroup (related : c.relates (depth + 1) reader other) {opened like : Span}
    (alike : c.spans opened like) :
    c.relates depth (reader.closeGroup opened) (other.closeGroup like) := by
  have closing {closing twin : Reader} (between : c.relates (depth + 1) closing twin)
      (ends : closing.atGroupEnd = true) :
      c.relates depth
        (if closing.sees .rightParen then closing.advance
          else closing.report opened .unbalancedParen)
        (if twin.sees .rightParen then twin.advance else twin.report like .unbalancedParen) := by
    cases closes : closing.sees .rightParen with
    | true =>
        rw [if_pos rfl, if_pos (c.sees_of between closes)]
        exact c.closed between closes
    | false =>
        rw [atGroupEnd, closes, Bool.false_or] at ends
        rw [if_neg Bool.false_ne_true, if_neg (Bool.eq_false_iff.mp (c.unseen_of between closes))]
        exact c.reported_span (c.ended between ends) alike .unbalancedParen
  simp only [Reader.closeGroup, ← c.atGroupEnd_eq related]
  cases ends : reader.atGroupEnd with
  | true => exact closing related ends
  | false =>
      exact closing (c.recover (c.unexpected related .closingParen)) (atGroupEnd_skipGroup 0 _)

/-! ## Expressions -/

/-- A value that is missing in one place is missing in the other. -/
theorem toList_alike {value result : Option Node} (alike : Option.Rel c.nodes value result) :
    List.Forall₂ c.nodes value.toList result.toList := by
  cases alike with
  | none => exact .nil
  | some same => exact .cons same .nil

theorem append_alike {values results others twins : List Node}
    (first : List.Forall₂ c.nodes values results) (later : List.Forall₂ c.nodes others twins) :
    List.Forall₂ c.nodes (values ++ others) (results ++ twins) :=
  List.rel_append first later

end Correspondence

mutual

theorem Reads.corresponds (c : Correspondence) {level : Level} {before after : Reader}
    {value : Option Node} :
    Reads level before value after -> forall {depth : Nat} {twin : Reader},
      c.relates depth before twin ->
      Exists fun result : Option Node => Exists fun reached : Reader =>
        Reads level twin result reached ∧ c.relates depth after reached ∧
          Option.Rel c.nodes value result
  | .single first unseen => fun related => by
      rcases first.corresponds c related with ⟨result, reached, run, between, alike⟩
      exact ⟨result, reached, .single run (c.unseen_of between unseen), between, alike⟩
  | @Reads.connective symbol _ _ _ _ _ first seen others => fun related => by
      rcases first.corresponds c related with ⟨result, reached, run, between, alike⟩
      rcases others.corresponds c (c.reserved between) with ⟨results, ends, runs, left, same⟩
      exact ⟨_, ends, .connective run (c.sees_of between seen) runs, left, .some (.mk
        (c.nextHandle between) (c.plain rfl rfl) (c.append_alike (c.toList_alike alike) same))⟩
  | .negation seen operand => fun related => by
      rcases operand.corresponds c (c.reserved (c.passed related seen (by decide))) with
        ⟨result, reached, run, left, alike⟩
      exact ⟨_, reached, .negation (c.sees_of related seen) run, left,
        .some (.mk (c.nextHandle related) (c.plain rfl rfl) (c.toList_alike alike))⟩
  | .unnegated unseen operand => fun related => by
      rcases operand.corresponds c related with ⟨result, reached, run, left, alike⟩
      exact ⟨result, reached, .unnegated (c.unseen_of related unseen) run, left, alike⟩
  | .chain first others => fun related => by
      rcases first.corresponds c related with ⟨result, reached, run, between, alike⟩
      rcases others.corresponds c between alike with ⟨final, ends, runs, left, same⟩
      exact ⟨final, ends, .chain run runs, left, same⟩
  | .call named opens call => fun related => by
      have inside := c.passed related named (by decide)
      have opened := c.opened inside (sees_advance_of_seesNext opens)
      rcases call.corresponds c (c.reserved opened) ⟨_, _, c.current inside, rfl, rfl⟩ with
        ⟨results, reached, run, left, alike⟩
      have isName : Token.kind _ = .identifier := beq_iff_eq.mp named
      have isOpen : Reader.seesNext _ .leftParen = true := c.seesNext_eq related named ▸ opens
      refine ⟨_, _, .call (c.sees_of related named) isOpen run, ?_, .some (.mk
        (c.nextHandle related) (c.name (c.current related) isName).2 alike)⟩
      rw [← alike.length_eq]
      exact c.checked _ left (c.current related) isName
  | .var named unopened => fun related => by
      have isName : Token.kind _ = .identifier := beq_iff_eq.mp named
      have unopen : Reader.seesNext _ .leftParen = false := c.seesNext_eq related named ▸ unopened
      exact ⟨_, _, .var (c.sees_of related named) unopen,
        c.reserved (c.passed related named (by decide)),
        .some (.mk (c.nextHandle related) (c.name (c.current related) isName).1 .nil)⟩
  | .group opens inner => fun related => by
      rcases inner.corresponds c (c.opened related opens) with
        ⟨result, reached, run, between, alike⟩
      exact ⟨result, _, .group (c.sees_of related opens) run,
        c.closeGroup between ⟨_, _, c.current related, rfl, rfl⟩, alike⟩
  | .constant found => fun related => by
      rcases c.constant (c.current related) found with ⟨result, again, isKind⟩
      rcases Token.kind_of_constant found with kind | kind | kind
      all_goals
        have moved := c.passed related (beq_iff_eq.mpr kind) (by decide)
        exact ⟨_, _, .constant again, c.reserved (c.reportedAll moved (c.current related) _),
          .some (.mk (c.nextHandle related) isKind .nil)⟩
  | .missing unnamed unopened absent => fun related =>
      ⟨_, _, .missing (c.unseen_of related unnamed) (c.unseen_of related unopened)
        (c.constant_eq_none related absent), c.recover (c.unexpected related .operand), .none⟩

theorem ReadsOperands.corresponds (c : Correspondence) {symbol : Connective}
    {before after : Reader} {values : List Node} :
    ReadsOperands symbol before values after -> forall {depth : Nat} {twin : Reader},
      c.relates depth before twin ->
      Exists fun results : List Node => Exists fun reached : Reader =>
        ReadsOperands symbol twin results reached ∧ c.relates depth after reached ∧
          List.Forall₂ c.nodes values results
  | .nil unseen => fun related => ⟨[], _, .nil (c.unseen_of related unseen), related, .nil⟩
  | .cons seen next others => fun related => by
      have moved := c.passed related seen (by cases symbol <;> decide)
      rcases next.corresponds c moved with ⟨result, middle, run, between, alike⟩
      rcases others.corresponds c between with ⟨results, reached, runs, left, same⟩
      exact ⟨_, reached, .cons (c.sees_of related seen) run runs, left,
        c.append_alike (c.toList_alike alike) same⟩

theorem ReadsChain.corresponds (c : Correspondence) {operators : Chain}
    {first value : Option Node} {before after : Reader} :
    ReadsChain operators first before value after -> forall {depth : Nat} {twin : Reader},
      c.relates depth before twin -> forall {start : Option Node},
      Option.Rel c.nodes first start ->
      Exists fun result : Option Node => Exists fun reached : Reader =>
        ReadsChain operators start twin result reached ∧ c.relates depth after reached ∧
          Option.Rel c.nodes value result
  | .nil absent => fun related start alike =>
      ⟨start, _, .nil (c.kind_eq (c.current related) ▸ absent), related, alike⟩
  | .cons operator right others => fun related start alike => by
      have moved := c.passed_operator related operator
      rcases right.corresponds c (c.reserved moved) with ⟨result, middle, run, between, same⟩
      have joined := c.append_alike (c.toList_alike alike) (c.toList_alike same)
      rcases Chain.payload_of_kind? operator with ⟨noName, noLiteral⟩
      have node := Node.Corresponds.mk (c.nextHandle related) (c.plain noName noLiteral) joined
      rcases others.corresponds c between (.some node) with ⟨final, reached, runs, left, last⟩
      exact ⟨final, reached, .cons (c.kind_eq (c.current related) ▸ operator) run runs, left, last⟩

theorem ReadsCall.corresponds (c : Correspondence) {opened : Span} {before after : Reader}
    {values : List Node} :
    ReadsCall opened before values after -> forall {depth : Nat} {twin : Reader},
      c.relates (depth + 1) before twin -> forall {like : Span}, c.spans opened like ->
      Exists fun results : List Node => Exists fun reached : Reader =>
        ReadsCall like twin results reached ∧ c.relates depth after reached ∧
          List.Forall₂ c.nodes values results
  | .nil closes => fun related like _ =>
      ⟨[], _, .nil (c.sees_of related closes), c.closed related closes, .nil⟩
  | .arguments unclosed found => fun related like alike => by
      rcases found.corresponds c related with ⟨results, reached, run, between, same⟩
      exact ⟨results, _, .arguments (c.unseen_of related unclosed) run,
        c.closeGroup between alike, same⟩

theorem ReadsArguments.corresponds (c : Correspondence) {before after : Reader}
    {values : List Node} :
    ReadsArguments before values after -> forall {depth : Nat} {twin : Reader},
      c.relates depth before twin ->
      Exists fun results : List Node => Exists fun reached : Reader =>
        ReadsArguments twin results reached ∧ c.relates depth after reached ∧
          List.Forall₂ c.nodes values results
  | .last first unseparated => fun related => by
      rcases first.corresponds c related with ⟨result, reached, run, between, alike⟩
      exact ⟨_, reached, .last run (c.unseen_of between unseparated), between,
        c.toList_alike alike⟩
  | .cons first separated others => fun related => by
      rcases first.corresponds c related with ⟨result, middle, run, between, alike⟩
      have moved := c.passed between separated (by decide)
      rcases others.corresponds c moved with ⟨results, reached, runs, left, same⟩
      exact ⟨_, reached, .cons run (c.sees_of between separated) runs, left,
        c.append_alike (c.toList_alike alike) same⟩

theorem ReadsArgument.corresponds (c : Correspondence) {before after : Reader}
    {value : Option Node} :
    ReadsArgument before value after -> forall {depth : Nat} {twin : Reader},
      c.relates depth before twin ->
      Exists fun result : Option Node => Exists fun reached : Reader =>
        ReadsArgument twin result reached ∧ c.relates depth after reached ∧
          Option.Rel c.nodes value result
  | .empty missing => fun related => by
      rw [c.sees_eq related, c.sees_eq related] at missing
      exact ⟨none, _, .empty missing, c.reported .emptyArgument related (c.current related), .none⟩
  | .expression present inner => fun related => by
      rcases inner.corresponds c related with ⟨result, reached, run, left, alike⟩
      rw [c.sees_eq related, c.sees_eq related] at present
      exact ⟨result, reached, .expression present run, left, alike⟩

end

namespace Correspondence

variable (c : Correspondence) {depth : Nat} {reader other : Reader}

/-- Readers that are related stay related, and read related expressions. -/
theorem expression (level : Level) (related : c.relates depth reader other) :
    c.relates depth (Reader.expression level reader).reader
        (Reader.expression level other).reader ∧
      Option.Rel c.nodes (Reader.expression level reader).value
        (Reader.expression level other).value := by
  rcases (reads_expression level reader).corresponds c related with
    ⟨result, reached, run, left, alike⟩
  rcases run.eq_expression with ⟨value, ends⟩
  rw [value, ends]
  exact ⟨left, alike⟩

/-! ## Preconditions -/

theorem conjuncts (reader : Reader) : forall {depth : Nat} {other : Reader},
    c.relates depth reader other ->
      c.relates depth reader.conjuncts.reader other.conjuncts.reader ∧
        List.Forall₂ c.nodes reader.conjuncts.value other.conjuncts.value := by
  induction reader using Reader.conjuncts.induct with
  | case1 reader ended =>
      intro depth other related
      have same := c.atGroupEnd_eq related ▸ ended
      rw [(conjuncts_of_end ended).1, (conjuncts_of_end ended).2, (conjuncts_of_end same).1,
        (conjuncts_of_end same).2]
      exact ⟨related, .nil⟩
  | case2 reader notEnded first _ ih =>
      intro depth other related
      have inside := Bool.eq_false_iff.mpr notEnded
      rcases conjuncts_of_inside inside with ⟨values, ends⟩
      rcases conjuncts_of_inside (c.atGroupEnd_eq related ▸ inside) with ⟨results, reached⟩
      rcases c.expression .loosest related with ⟨between, alike⟩
      rcases ih between with ⟨left, same⟩
      rw [values, ends, results, reached]
      exact ⟨left, c.append_alike (c.toList_alike alike) same⟩

/-- Related expressions are joined to related ones. -/
theorem conjoined (handles : c.handles reader.nextHandle other.nextHandle)
    {values results : List Node} (alike : List.Forall₂ c.nodes values results) :
    c.nodes (reader.conjoin values).1 (other.conjoin results).1 := by
  have joined : c.nodes (.mk reader.nextHandle (.connective .and) values)
      (.mk other.nextHandle (.connective .and) results) := .mk handles (c.plain rfl rfl) alike
  cases alike with
  | nil => exact joined
  | cons first rest =>
      cases rest with
      | nil => exact first
      | cons _ _ => exact joined

theorem conjoin (related : c.relates depth reader other) {values results : List Node}
    (alike : List.Forall₂ c.nodes values results) :
    c.relates depth (reader.conjoin values).2 (other.conjoin results).2 ∧
      c.nodes (reader.conjoin values).1 (other.conjoin results).1 := by
  refine ⟨?_, c.conjoined (c.nextHandle related) alike⟩
  cases alike with
  | nil => exact c.reserved related
  | cons _ rest =>
      cases rest with
      | nil => exact related
      | cons _ _ => exact c.reserved related

theorem precondition (related : c.relates depth reader other) :
    c.relates depth reader.precondition.2 other.precondition.2 ∧
      c.nodes reader.precondition.1 other.precondition.1 := by
  cases opens : reader.sees .leftParen with
  | true =>
      rw [precondition_of_opens opens, precondition_of_opens (c.sees_of related opens)]
      rcases c.conjuncts reader.advance (c.opened related opens) with ⟨between, alike⟩
      exact c.conjoin (c.closeGroup between ⟨_, _, c.current related, rfl, rfl⟩) alike
  | false =>
      rw [precondition_of_unopened opens, precondition_of_unopened (c.unseen_of related opens)]
      exact c.conjoin (c.unexpected related .preconditionStart) .nil

end Correspondence

/-! ## Readers that read the same -/

/-- The same token gives the same names. -/
theorem names_of_eq {token like : Token} (same : token = like) (_ : token.kind = .identifier) :
    Kind.var token.span = .var like.span ∧ Kind.func token.span = .func like.span :=
  same ▸ ⟨rfl, rfl⟩

/-- The same token gives the same constant. -/
theorem constant_of_eq {token like : Token} {value : Literal} {problems : List Problem}
    (same : token = like) (found : token.constant? = some (value, problems)) :
    Exists fun result : Literal =>
      like.constant? = some (result, problems) ∧ Kind.literal value = .literal result :=
  ⟨value, same ▸ found, rfl⟩

/-- Readers that differ in nothing that decides what is read.  They see the same
tokens and build the same nodes. -/
structure Agreement where
  relates : Nat -> Reader -> Reader -> Prop
  window_eq {depth : Nat} {reader other : Reader} : relates depth reader other ->
    reader.window = other.window
  nextHandle_eq {depth : Nat} {reader other : Reader} : relates depth reader other ->
    reader.nextHandle = other.nextHandle
  opened {depth : Nat} {reader other : Reader} : relates depth reader other ->
    reader.sees .leftParen = true -> relates (depth + 1) reader.advance other.advance
  closed {depth : Nat} {reader other : Reader} : relates (depth + 1) reader other ->
    reader.sees .rightParen = true -> relates depth reader.advance other.advance
  advanced {depth : Nat} {reader other : Reader} : relates depth reader other ->
    reader.sees .leftParen = false -> reader.atGroupEnd = false ->
      relates depth reader.advance other.advance
  ended {depth : Nat} {reader other : Reader} : relates (depth + 1) reader other ->
    reader.sees .endOfInput = true -> relates depth reader other
  reported {depth : Nat} {reader other : Reader} (span : Span) (problem : Problem) :
    relates depth reader other ->
      relates depth (reader.report span problem) (other.report span problem)
  reserved {depth : Nat} {reader other : Reader} : relates depth reader other ->
    relates depth reader.reserve other.reserve
  checked {depth : Nat} {reader other : Reader} (token : Token) (found : Nat) :
    relates depth reader other ->
      relates depth (reader.checkCall token found) (other.checkCall token found)

namespace Agreement

variable (a : Agreement) {depth : Nat} {reader other : Reader}

/-- The correspondence in which only equal things are related. -/
def correspondence : Correspondence where
  relates := a.relates
  tokens := Eq
  handles := Eq
  kinds := Eq
  current := fun related => congrArg Window.current (a.window_eq related)
  kind_eq := fun same => congrArg Token.kind same
  seesNext_eq := fun related _ => by rw [seesNext, seesNext, a.window_eq related]
  nextHandle := a.nextHandle_eq
  plain := fun _ _ => rfl
  name := names_of_eq
  constant := constant_of_eq
  opened := a.opened
  closed := a.closed
  advanced := a.advanced
  ended := a.ended
  reported := fun problem related same => same ▸ a.reported _ problem related
  reserved := a.reserved
  checked := fun found related same _ => same ▸ a.checked _ found related

theorem conjuncts (related : a.relates depth reader other) :
    a.relates depth reader.conjuncts.reader other.conjuncts.reader :=
  (a.correspondence.conjuncts reader related).1

theorem precondition (related : a.relates depth reader other) :
    a.relates depth reader.precondition.2 other.precondition.2 ∧
      reader.precondition.1 = other.precondition.1 := by
  rcases a.correspondence.precondition related with ⟨left, alike⟩
  exact ⟨left, Node.Corresponds.eq id id _ alike⟩

end Agreement

end Reader

end PlanningDomain
