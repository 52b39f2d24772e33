import Mathlib.Data.List.Nodup
import PlanningDomain.Proofs.Conversions
import PlanningDomain.Proofs.Phrase.Words
import PlanningDomain.Proofs.Reader.Transcripts
import PlanningDomain.Proofs.Token.Lexemes

namespace PlanningDomain

/-!
# Dumps identify expressions

A dump is a word for each node, and behind the word of a node with operands there is
a group of other dumps.  No word has a blank or a brace in it.  So one can say from
the left where a word ends, whether a group follows it, and where each dump in
the group ends, whatever is behind.  Two expressions with the same dump have the
same shape therefore, and the same word at each node.

A word is the word of a kind and a name in brackets.  The words of kinds have letters
only, so the brackets can be told from them.  The values of constants are not
written at all.
-/

open Lexer (Border head_stops takeWhile_of_stop)

/-! ## Kinds and their words -/

/-- The name of a kind, if it has one, is an identifier. -/
def Kind.HasIdentifier (source : Source) (kind : Kind) : Prop :=
  forall name : Span, kind.name? = some name ->
    Exists fun text : String => source.slice? name = some text ∧
      TokenKind.identifier.Spells text.toList

/-- The same kind with the same name.  What a constant is does not matter. -/
inductive Kind.ShownAlike (source other : Source) : Kind -> Kind -> Prop
  | plain {kind : Kind} : kind.name? = none -> kind.literal? = none ->
      ShownAlike source other kind kind
  | var {name like : Span} : source.SameText other name like ->
      ShownAlike source other (.var name) (.var like)
  | func {name like : Span} : source.SameText other name like ->
      ShownAlike source other (.func name) (.func like)
  | literal (value like : Literal) : ShownAlike source other (.literal value) (.literal like)

namespace Kind

/-- A kind with nothing where its name or its value is. -/
def bare : Kind -> Kind
  | var _ => var ⟨0, 0⟩
  | func _ => func ⟨0, 0⟩
  | literal _ => literal (.int 0)
  | kind => kind

/-- All kinds but for their names and values. -/
def bares : List Kind :=
  [.and, .or, .not, .comparison .equal, .comparison .notEqual, .comparison .less,
    .comparison .lessEqual, .comparison .greater, .comparison .greaterEqual, .arithmetic .plus,
    .arithmetic .minus, .arithmetic .multiply, .arithmetic .divide, .var ⟨0, 0⟩, .func ⟨0, 0⟩,
    .literal (.int 0)]

theorem bare_mem_bares (kind : Kind) : kind.bare ∈ bares := by
  cases kind with
  | connective symbol | comparison symbol | arithmetic symbol =>
      cases symbol
      all_goals decide
  | not => decide
  | var _ | func _ | literal _ =>
      rw [bare]
      decide

theorem typeName_bare (kind : Kind) : kind.bare.typeName = kind.typeName := by
  cases kind <;> rfl

/-- Each kind has a word of its own. -/
theorem bare_eq_of_typeName_eq {kind like : Kind} (same : kind.typeName = like.typeName) :
    kind.bare = like.bare := by
  have distinct : (bares.map typeName).Nodup := by decide
  refine List.inj_on_of_nodup_map distinct kind.bare_mem_bares like.bare_mem_bares ?_
  rw [typeName_bare, typeName_bare, same]

theorem typeName_ne_nil (kind : Kind) : kind.typeName.toList ≠ [] := by
  have each : bares.all (fun bare => bare.typeName.toList != []) = true := by decide
  have notEmpty := List.all_eq_true.mp each kind.bare kind.bare_mem_bares
  rw [typeName_bare] at notEmpty
  exact bne_iff_ne.mp notEmpty

/-- The words of kinds have letters only. -/
theorem letters_of_typeName (kind : Kind) :
    forall char, char ∈ kind.typeName.toList -> char.isAlpha = true := by
  have each : bares.all (fun bare => bare.typeName.toList.all Char.isAlpha) = true := by decide
  have letters := List.all_eq_true.mp each kind.bare kind.bare_mem_bares
  rw [typeName_bare] at letters
  exact List.all_eq_true.mp letters

/-- Kinds that are shown alike have the same word and the same tag. -/
theorem ShownAlike.words {source other : Source} {kind like : Kind}
    (alike : kind.ShownAlike source other like) : kind.typeName = like.typeName ∧
      Node.nameTag? source kind = Node.nameTag? other like := by
  cases alike with
  | plain unnamed _ => exact ⟨rfl, by rw [Node.nameTag?, Node.nameTag?, unnamed]⟩
  | var same => exact ⟨rfl, same.nameTag?_eq rfl rfl⟩
  | func same => exact ⟨rfl, same.nameTag?_eq rfl rfl⟩
  | literal value twin => exact ⟨rfl, rfl⟩

end Kind

namespace Node

section Words

variable {source other : Source} {kind like : Kind}

/-- The word of a node: the word for its kind, and its name in brackets. -/
def word (source : Source) (kind : Kind) : List Char :=
  kind.typeName.toList ++ ((nameTag? source kind).getD "").toList

/-- Characters of which words are made. -/
def isInWord (char : Char) : Bool :=
  Lexer.isWordPart char || char == '[' || char == ']'

theorem nameTag?_of_identifier {name : Span} {text : String} (isName : kind.name? = some name)
    (found : source.slice? name = some text) (spells : TokenKind.identifier.Spells text.toList) :
    nameTag? source kind = some ("[" ++ text ++ "]") := by
  have notEmpty : name.isEmpty = false := by
    refine Bool.eq_false_iff.mpr (fun empty => ?_)
    rw [Source.isEmpty_iff_of_slice? found] at empty
    exact (TokenKind.parts_of_identifier spells).1 (empty ▸ rfl)
  rw [nameTag?, isName]
  dsimp only
  rw [notEmpty, found]
  rfl

/-- A tag is empty, or it is an identifier in brackets. -/
theorem tag_cases (identifiers : kind.HasIdentifier source) :
    nameTag? source kind = some "" ∨ Exists fun text : String =>
      nameTag? source kind = some ("[" ++ text ++ "]") ∧
        forall char, char ∈ text.toList -> Lexer.isWordPart char = true := by
  cases isName : kind.name? with
  | none => exact Or.inl (by rw [nameTag?, isName])
  | some name =>
      rcases identifiers name isName with ⟨text, found, spells⟩
      exact Or.inr ⟨text, nameTag?_of_identifier isName found spells,
        (TokenKind.parts_of_identifier spells).2⟩

theorem word_ne_nil (source : Source) (kind : Kind) : word source kind ≠ [] :=
  List.append_ne_nil_of_left_ne_nil kind.typeName_ne_nil _

theorem isInWord_of_mem (identifiers : kind.HasIdentifier source) :
    forall char, char ∈ word source kind -> isInWord char = true := by
  refine List.forall_mem_append.mpr ⟨fun char member => ?_, fun char member => ?_⟩
  · rw [isInWord, Lexer.isWordPart, Char.isAlphanum, kind.letters_of_typeName char member]
    rfl
  · rcases tag_cases identifiers with isTag | ⟨text, isTag, parts⟩
    · rw [isTag] at member
      exact (List.not_mem_nil member).elim
    · rw [isTag, Option.getD_some, String.toList_append, String.toList_append] at member
      rcases List.mem_append.mp member with front | close
      · rcases List.mem_append.mp front with opening | inside
        · exact List.mem_singleton.mp opening ▸ by decide
        · rw [isInWord, parts char inside]
          rfl
      · exact List.mem_singleton.mp close ▸ by decide

/-- The letters of a word end where its bracket opens. -/
theorem stops_of_tag (identifiers : kind.HasIdentifier source) (char : Char)
    (isFirst : ((nameTag? source kind).getD "").toList.head? = some char) :
    char.isAlpha = false := by
  rcases tag_cases identifiers with isTag | ⟨text, isTag, _⟩
  · rw [isTag] at isFirst
    exact (Option.some_ne_none char isFirst.symm).elim
  · rw [isTag, Option.getD_some, String.toList_append, String.toList_append] at isFirst
    exact Option.some.inj isFirst ▸ by decide

/-- A name is what stands between its brackets. -/
theorem sameText_of_tag_eq (identifiers : kind.HasIdentifier source)
    (otherIdentifiers : like.HasIdentifier other) {name twin : Span}
    (isName : kind.name? = some name) (isTwin : like.name? = some twin)
    (same : (nameTag? source kind).getD "" = (nameTag? other like).getD "") :
    source.SameText other name twin := by
  rcases identifiers name isName with ⟨text, found, spells⟩
  rcases otherIdentifiers twin isTwin with ⟨again, foundToo, spellsToo⟩
  rw [nameTag?_of_identifier isName found spells,
    nameTag?_of_identifier isTwin foundToo spellsToo] at same
  have chars := congrArg String.toList same
  simp only [Option.getD_some, String.toList_append] at chars
  have equal := List.append_cancel_left (List.append_cancel_right chars)
  exact ⟨text, found, String.toList_inj.mp equal ▸ foundToo⟩

/-- Kinds with the same word are the same, and have the same name. -/
theorem shownAlike_of_word_eq (identifiers : kind.HasIdentifier source)
    (otherIdentifiers : like.HasIdentifier other) (same : word source kind = word other like) :
    kind.ShownAlike source other like := by
  rcases takeWhile_of_stop kind.letters_of_typeName (stops_of_tag identifiers) with
    ⟨letters, tag⟩
  rcases takeWhile_of_stop like.letters_of_typeName (stops_of_tag otherIdentifiers) with
    ⟨lettersToo, tagToo⟩
  unfold word at same
  rw [same] at letters tag
  have tags := String.toList_inj.mp (tag.symm.trans tagToo)
  have alike := Kind.bare_eq_of_typeName_eq (String.toList_inj.mp (letters.symm.trans lettersToo))
  have named {name twin : Span} (isName : kind.name? = some name)
      (isTwin : like.name? = some twin) : source.SameText other name twin :=
    sameText_of_tag_eq identifiers otherIdentifiers isName isTwin tags
  -- Kinds of which only one has a name, or only one a constant, are different when bare.
  cases kind with
  | var name =>
      cases like
      case var twin => exact .var (named rfl rfl)
      all_goals cases alike
  | func name =>
      cases like
      case func twin => exact .func (named rfl rfl)
      all_goals cases alike
  | literal value =>
      cases like
      case literal twin => exact .literal value twin
      all_goals cases alike
  | _ =>
      cases like
      all_goals cases alike
      all_goals exact .plain rfl rfl

end Words

/-! ## Words and groups -/

mutual

/-- The characters of the dump of an expression. -/
def write (source : Source) : Node -> List Char
  | mk _ kind children =>
      word source kind ++
        (if children.isEmpty then [] else '{' :: ' ' :: writeAll source children ++ ['}'])

def writeAll (source : Source) : List Node -> List Char
  | [] => []
  | node :: rest => node.write source ++ ' ' :: writeAll source rest

end

/-- What is written behind the word of a node: its operands in braces, if it has any. -/
def group (source : Source) : List Node -> List Char
  | [] => []
  | child :: others => '{' :: ' ' :: (writeAll source (child :: others) ++ ['}'])

/-- The name of each variable and each call in an expression is an identifier. -/
def HasIdentifiers (source : Source) (node : Node) : Prop :=
  forall inner, inner ∈ node.preorder -> inner.kind.HasIdentifier source

/-- Expressions with the same shape, the same kinds and the same names.  It does not
matter which constants there are. -/
def Resembles (source other : Source) : Node -> Node -> Prop :=
  Corresponds (fun _ _ => True) (Kind.ShownAlike source other)

section Groups

variable {source other : Source}

theorem write_append (handle : Handle) (kind : Kind) (children : List Node) (rest : List Char) :
    (mk handle kind children).write source ++ rest =
      word source kind ++ (group source children ++ rest) := by
  rw [write, List.append_assoc]
  cases children <;> rfl

theorem writeAll_cons_append (node : Node) (others : List Node) (rest : List Char) :
    writeAll source (node :: others) ++ rest =
      node.write source ++ ' ' :: (writeAll source others ++ rest) := by
  rw [writeAll, List.append_assoc, List.cons_append]

theorem hasIdentifier_kind {node : Node} (identifiers : node.HasIdentifiers source) :
    node.kind.HasIdentifier source := by
  refine identifiers node ?_
  rcases node with ⟨handle, kind, children⟩
  rw [preorder]
  exact List.mem_cons_self

/-- A dump begins with a character of a word. -/
theorem exists_head_write {node : Node} (identifiers : node.HasIdentifiers source) :
    Exists fun first : Char => Exists fun rest : List Char =>
      node.write source = first :: rest ∧ isInWord first = true := by
  have here := hasIdentifier_kind identifiers
  rcases node with ⟨handle, kind, children⟩
  rcases List.exists_cons_of_ne_nil (word_ne_nil source kind) with ⟨first, rest, isWord⟩
  have whole := @write_append source handle kind children []
  rw [List.append_nil, isWord, List.cons_append] at whole
  exact ⟨first, _, whole, isInWord_of_mem here first (isWord ▸ List.mem_cons_self)⟩

/-- So no dump begins with the brace that closes a group. -/
theorem writeAll_ne_close {node : Node} (identifiers : node.HasIdentifiers source)
    (others : List Node) (rest left : List Char) :
    writeAll source (node :: others) ++ '}' :: left ≠ '}' :: rest := by
  intro same
  rcases exists_head_write identifiers with ⟨first, tail, begins, inWord⟩
  rw [writeAll_cons_append, begins] at same
  rw [(List.cons.inj same).1] at inWord
  exact absurd inWord (by decide)

/-- A word is told from what stands behind it, if that begins with no character of
a word. -/
theorem shownAlike_of_append {kind like : Kind} (identifiers : kind.HasIdentifier source)
    (otherIdentifiers : like.HasIdentifier other) {rest left : List Char}
    (stops : forall char, rest.head? = some char -> isInWord char = false)
    (ends : forall char, left.head? = some char -> isInWord char = false)
    (same : word source kind ++ rest = word other like ++ left) :
    kind.ShownAlike source other like ∧ rest = left := by
  rcases takeWhile_of_stop (isInWord_of_mem identifiers) stops with ⟨taken, dropped⟩
  rcases takeWhile_of_stop (isInWord_of_mem otherIdentifiers) ends with ⟨takenToo, droppedToo⟩
  rw [same] at taken dropped
  exact ⟨shownAlike_of_word_eq identifiers otherIdentifiers (taken.symm.trans takenToo),
    dropped.symm.trans droppedToo⟩

theorem stops_of_group (children : List Node) {rest : List Char} (border : Border rest)
    (char : Char) (isFirst : (group source children ++ rest).head? = some char) :
    isInWord char = false := by
  cases children with
  | nil => exact border.stops (by decide) char isFirst
  | cons child others => exact head_stops (by decide : isInWord '{' = false) _ char isFirst

/-- Dumps of two nodes can be told from what stands behind them if the dumps of their
operands can. -/
theorem resembles_of_append_mk {handle twinHandle : Handle} {kind like : Kind}
    {children twins : List Node} (here : kind.HasIdentifier source)
    (there : like.HasIdentifier other)
    (operands : forall rest left : List Char,
      writeAll source children ++ '}' :: rest = writeAll other twins ++ '}' :: left ->
        List.Forall₂ (Resembles source other) children twins ∧ rest = left)
    {rest left : List Char} (border : Border rest) (ends : Border left)
    (same : (mk handle kind children).write source ++ rest =
      (mk twinHandle like twins).write other ++ left) :
    (mk handle kind children).Resembles source other (mk twinHandle like twins) ∧
      rest = left := by
  rw [write_append, write_append] at same
  rcases shownAlike_of_append here there (stops_of_group children border)
    (stops_of_group twins ends) same with ⟨alike, groups⟩
  -- A group follows the one word if and only if a group follows the other.
  cases children with
  | nil =>
      cases twins with
      | nil => exact ⟨.mk trivial alike .nil, groups⟩
      | cons second further =>
          have opens : rest = group other (second :: further) ++ left := groups
          rw [opens] at border
          cases border
  | cons first others =>
      cases twins with
      | nil =>
          have opens : group source (first :: others) ++ rest = left := groups
          rw [← opens] at ends
          cases ends
      | cons second further =>
          have inside := (List.cons.inj (List.cons.inj groups).2).2
          have closed : writeAll source (first :: others) ++ ['}'] ++ rest =
              writeAll other (second :: further) ++ ['}'] ++ left := inside
          rw [List.append_assoc, List.append_assoc] at closed
          rcases operands rest left closed with ⟨below, behind⟩
          exact ⟨.mk trivial alike below, behind⟩

end Groups

/-- Dumps with anything behind them can be told from it, and from each other. -/
theorem resembles_of_append_both (source other : Source) :
    (forall node : Node, node.HasIdentifiers source ->
      forall twin : Node, twin.HasIdentifiers other -> forall rest left : List Char,
        Border rest -> Border left -> node.write source ++ rest = twin.write other ++ left ->
          node.Resembles source other twin ∧ rest = left) ∧
      forall nodes : List Node,
        (forall inner, inner ∈ preorderAll nodes -> inner.kind.HasIdentifier source) ->
          forall twins : List Node,
            (forall inner, inner ∈ preorderAll twins -> inner.kind.HasIdentifier other) ->
              forall rest left : List Char,
                writeAll source nodes ++ '}' :: rest = writeAll other twins ++ '}' :: left ->
                  List.Forall₂ (Resembles source other) nodes twins ∧ rest = left := by
  refine induction_both ?_ ?_ ?_
  · intro handle kind children ih identifiers twin twinIdentifiers rest left border ends same
    rcases twin with ⟨twinHandle, like, twins⟩
    rw [HasIdentifiers, preorder] at identifiers twinIdentifiers
    rcases List.forall_mem_cons.mp identifiers with ⟨here, below⟩
    rcases List.forall_mem_cons.mp twinIdentifiers with ⟨there, beneath⟩
    exact resembles_of_append_mk here there (ih below twins beneath) border ends same
  · intro _ twins identifiers rest left same
    cases twins with
    | nil => exact ⟨.nil, (List.cons.inj same).2⟩
    | cons twin further =>
        rw [preorderAll] at identifiers
        have there := (List.forall_mem_append.mp identifiers).1
        exact (writeAll_ne_close there further rest left same.symm).elim
  · intro node others first later identifiers twins twinIdentifiers rest left same
    rw [preorderAll] at identifiers
    rcases List.forall_mem_append.mp identifiers with ⟨here, behind⟩
    cases twins with
    | nil => exact (writeAll_ne_close here others left rest same).elim
    | cons twin further =>
        rw [preorderAll] at twinIdentifiers
        rcases List.forall_mem_append.mp twinIdentifiers with ⟨there, beyond⟩
        -- The first dumps end with the first blanks that are in no group.
        rw [writeAll_cons_append, writeAll_cons_append] at same
        rcases first here twin there _ _ (.blank _) (.blank _) same with ⟨alike, tails⟩
        rcases later behind further beyond rest left (List.cons.inj tails).2 with ⟨operands, ends⟩
        exact ⟨.cons alike operands, ends⟩

/-! ## Dumps -/

theorem dump?_eq_write_both (source : Source) :
    (forall node : Node, node.HasIdentifiers source ->
      node.dump? source = some (String.ofList (node.write source))) ∧
      forall nodes : List Node,
        (forall inner, inner ∈ preorderAll nodes -> inner.kind.HasIdentifier source) ->
          dumpAll? source nodes = some (String.ofList (writeAll source nodes)) := by
  refine induction_both ?_ ?_ ?_
  · intro handle kind children ih identifiers
    rw [HasIdentifiers, preorder] at identifiers
    rcases List.forall_mem_cons.mp identifiers with ⟨here, below⟩
    obtain ⟨tag, isTag⟩ : Exists fun tag : String => nameTag? source kind = some tag := by
      rcases tag_cases here with isTag | ⟨_, isTag, _⟩
      all_goals exact ⟨_, isTag⟩
    rw [dump?, isTag, ih below, Option.bind_some, Option.map_some]
    refine congrArg some (String.toList_inj.mp ?_)
    rw [String.toList_ofList, write, word, isTag, Option.getD_some]
    cases children with
    | nil =>
        simp only [List.isEmpty_nil, if_true, String.toList_append]
        rfl
    | cons child others =>
        simp only [List.isEmpty_cons, Bool.false_eq_true, if_false, String.toList_append,
          String.toList_ofList]
        rfl
  · exact fun _ => rfl
  · intro node rest first later identifiers
    rw [preorderAll] at identifiers
    rcases List.forall_mem_append.mp identifiers with ⟨here, behind⟩
    rw [dumpAll?, first here, later behind, Option.bind_some, Option.map_some]
    refine congrArg some (String.toList_inj.mp ?_)
    rw [String.toList_ofList, writeAll]
    simp only [String.toList_append, String.toList_ofList, List.append_assoc]
    rfl

/-- An expression whose names are identifiers has a dump, and two of them have the same
dump if and only if they resemble each other. -/
theorem dump?_eq_iff {source other : Source} {node twin : Node}
    (identifiers : node.HasIdentifiers source) (twinIdentifiers : twin.HasIdentifiers other) :
    node.dump? source = twin.dump? other ↔ node.Resembles source other twin := by
  constructor
  · intro same
    rw [(dump?_eq_write_both source).1 node identifiers,
      (dump?_eq_write_both other).1 twin twinIdentifiers] at same
    have written := String.ofList_inj.mp (Option.some.inj same)
    have behind := congrArg (· ++ []) written
    exact ((resembles_of_append_both source other).1 node identifiers twin twinIdentifiers [] []
      .nothing .nothing behind).1
  · exact Corresponds.dump?_eq_of_words Kind.ShownAlike.words node

end Node

namespace Arena

/-! ## Expressions of arenas -/

/-- The dumps of two nodes, each of a well-formed arena, are the same if and only if
their expressions have the same shape, kinds and names.  All names have to be
identifiers. -/
theorem dumps_identify {arena other : Arena} (wellFormed : arena.WellFormed)
    (otherWellFormed : other.WellFormed) {root top : Handle} (bound : root < arena.size)
    (otherBound : top < other.size) (source later : Source) :
    Exists fun tree : Node => Exists fun twin : Node =>
      arena.Reads root tree ∧ other.Reads top twin ∧
        (tree.HasIdentifiers source -> twin.HasIdentifiers later ->
          Exists fun dump : String => Exists fun like : String =>
            tree.dump? source = some dump ∧ twin.dump? later = some like ∧
              (dump = like ↔ tree.Resembles source later twin)) := by
  rcases wellFormed.exists_place bound with ⟨tree, path, rest, same, stored⟩
  rcases otherWellFormed.exists_place otherBound with ⟨twin, further, others, alike, kept⟩
  subst same alike
  refine ⟨tree, twin, stored.reads List.mem_cons_self, kept.reads List.mem_cons_self,
    fun identifiers twinIdentifiers => ?_⟩
  have dumped := (Node.dump?_eq_write_both source).1 tree identifiers
  have dumpedToo := (Node.dump?_eq_write_both later).1 twin twinIdentifiers
  refine ⟨_, _, dumped, dumpedToo, ?_⟩
  rw [← Node.dump?_eq_iff identifiers twinIdentifiers, dumped, dumpedToo, Option.some_inj]

/-- Two comparisons of `a` with different constants, at different places of two sources and
with other handles. -/
theorem dumps_identify_comparison :
    let source := Source.ofString "(a == 1)"
    let later := Source.ofString "(b) (a == \"1\")"
    let arena : Arena := ⟨#[⟨.comparison .equal, none, some 1, some 2, none, none⟩,
      ⟨.var ⟨1, 2⟩, some 0, none, none, none, some 2⟩,
      ⟨.literal (.int 1), some 0, none, none, some 1, none⟩]⟩
    let other : Arena := ⟨#[⟨.var ⟨5, 6⟩, some 2, none, none, none, some 1⟩,
      ⟨.literal (.string ⟨11, 12⟩), some 2, none, none, some 0, none⟩,
      ⟨.comparison .equal, none, some 0, some 1, none, none⟩]⟩
    Exists fun tree : Node => Exists fun twin : Node =>
      arena.Reads 0 tree ∧ other.Reads 2 twin ∧
        tree.dump? source = some "Equal\x7b Var[a] Literal \x7d" ∧
        twin.dump? later = some "Equal\x7b Var[a] Literal \x7d" ∧
        tree.Resembles source later twin := by
  intro source later arena other
  let tree : Node := .mk 0 (.comparison .equal) [.mk 1 (.var ⟨1, 2⟩) [],
    .mk 2 (.literal (.int 1)) []]
  let twin : Node := .mk 2 (.comparison .equal) [.mk 0 (.var ⟨5, 6⟩) [],
    .mk 1 (.literal (.string ⟨11, 12⟩)) []]
  have stored : arena.Stores ⟨3, [tree]⟩ := ⟨⟨by decide, by decide⟩, rfl⟩
  have kept : other.Stores ⟨3, [twin]⟩ := ⟨⟨by decide, by decide⟩, rfl⟩
  have top : tree.climb [] ∈ [tree] := List.mem_cons_self
  have otherTop : twin.climb [] ∈ [twin] := List.mem_cons_self
  rcases dumps_identify stored.wellFormed kept.wellFormed (by decide : 0 < arena.size)
    (by decide : 2 < other.size) source later with ⟨read, readToo, reads, readsToo, identify⟩
  have isTree : read = tree := reads.unique (stored.reads top)
  have isTwin : readToo = twin := readsToo.unique (kept.reads otherTop)
  subst isTree isTwin
  have spells : TokenKind.identifier.Spells "a".toList :=
    ⟨_, rfl, .one (Lexer.isWordStart_iff.mp (by decide)) (.skip .done)⟩
  have named {text : Source} {node : Node} {span : Span}
      (names : node.preorder.filterMap (fun inner => inner.kind.name?) = [span])
      (found : text.slice? span = some "a") : node.HasIdentifiers text := by
    intro inner member name isName
    have listed := names ▸ List.mem_filterMap.mpr ⟨inner, member, isName⟩
    exact ⟨"a", List.mem_singleton.mp listed ▸ found, spells⟩
  have identifiers : tree.HasIdentifiers source := named rfl (by decide)
  have otherIdentifiers : twin.HasIdentifiers later := named rfl (by decide)
  rcases identify identifiers otherIdentifiers with ⟨dump, like, isDump, isLike, alike⟩
  have shown : tree.dump? source = some "Equal\x7b Var[a] Literal \x7d" := by decide
  have shownToo : twin.dump? later = some "Equal\x7b Var[a] Literal \x7d" := by decide
  refine ⟨tree, twin, reads, readsToo, shown, shownToo, alike.mp ?_⟩
  exact Option.some.inj (isDump.symm.trans (shown.trans (shownToo.symm.trans isLike)))

end Arena

end PlanningDomain
