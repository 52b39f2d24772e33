import PlanningDomain.Proofs.Arena.WellFormed
import PlanningDomain.Proofs.Grammar.Arities
import PlanningDomain.Proofs.Machine.Total
import PlanningDomain.Proofs.Reader.Summaries

namespace PlanningDomain

/-!
# The shape of what is read

Whatever is wrong with a source, every node that is built while it is read ends
up in exactly one precondition, and no node has more operands than its kind
provides for.  The names and the strings of the nodes are those of tokens of the
source, so all of them have texts.  Where nothing is reported, no operand is
missing either.
-/

/-! ## Numbers of operands -/

namespace Node

/-- No node of some expressions has too many operands. -/
def AreAllowed (nodes : List Node) : Prop :=
  forall inner, inner ∈ preorderAll nodes -> inner.kind.Allows inner.children.length

theorem areAllowed_nil : AreAllowed [] :=
  fun _ impossible => (List.not_mem_nil impossible).elim

theorem AreAllowed.append {nodes others : List Node} (first : AreAllowed nodes)
    (later : AreAllowed others) : AreAllowed (nodes ++ others) := by
  intro inner member
  rw [preorderAll_eq_flatMap, List.flatMap_append] at member
  rcases List.mem_append.mp member with isFirst | isLater
  · exact first inner (preorderAll_eq_flatMap nodes ▸ isFirst)
  · exact later inner (preorderAll_eq_flatMap others ▸ isLater)

theorem AreAllowed.node {nodes : List Node} (below : AreAllowed nodes) {kind : Kind}
    (allowed : kind.Allows nodes.length) (handle : Handle) :
    AreAllowed [.mk handle kind nodes] := by
  intro inner member
  rw [preorderAll, preorderAll, List.append_nil, preorder] at member
  rcases List.mem_cons.mp member with same | isBelow
  · exact same ▸ allowed
  · exact below inner isBelow

end Node

namespace Reader

/-- What is read has no node with too many operands. -/
def shapes : Summary where
  holds := fun _ nodes _ => Node.AreAllowed nodes
  nothing := fun _ => Node.areAllowed_nil
  trans := .append
  advanced := fun _ => Node.areAllowed_nil
  reported := fun _ _ _ _ => Node.areAllowed_nil
  unknownType := fun _ => Node.areAllowed_nil
  reserved := fun _ => Node.areAllowed_nil
  node := fun handle allowed _ below => below.node allowed handle
  call := fun handle _ _ below => below.node (Kind.allows_of_any rfl _) handle
  declared := fun _ _ _ _ => Node.areAllowed_nil

open Grammar

/-- A silent reader has read preconditions of the grammar. -/
theorem preconditions_derived (reader : Reader) :
    Accounts reader reader.preconditions.2 (fun _ =>
      forall tree, tree ∈ reader.preconditions.1 -> Exists fun tokens : List Token =>
        Precondition tokens tree.term) := by
  induction reader using preconditions.induct with
  | case1 reader ended =>
      rw [preconditions_of_end ended]
      exact .nothing (fun _ impossible => (List.not_mem_nil impossible).elim)
  | case2 reader notEnded block _ ih =>
      rw [preconditions_of_fact block]
      apply ((factBlock_accounts block).trans ih).weaken
      rintro _ ⟨_, _, _, _, derived⟩
      exact derived
  | case3 reader notEnded notBlock opens _ ih =>
      rw [preconditions_of_opens opens]
      apply ((precondition_accounts opens).trans ih).weaken
      rintro _ ⟨_, _, _, first, later⟩
      exact List.forall_mem_cons.mpr ⟨⟨_, first⟩, later⟩
  | case4 reader notEnded notBlock unopened _ ih =>
      rw [preconditions_of_other (Bool.eq_false_iff.mpr notEnded)
        (Bool.eq_false_iff.mpr notBlock) (Bool.eq_false_iff.mpr unopened)]
      intro silent
      exact (not_silent_report _ _ _ (ih silent).1).elim

end Reader

/-! ## Names and strings -/

/-- The names of a kind are identifiers of the source, and its strings stand
between the quotes of string tokens. -/
structure Kind.IsSpelled (source : Source) (kind : Kind) : Prop where
  name : forall name : Span, kind.name? = some name ->
    Exists fun token : Token => token ∈ source.tokens ∧ token.kind = .identifier ∧
      token.span = name
  string : forall text : Span, kind.literal? = some (.string text) ->
    Exists fun token : Token => token ∈ source.tokens ∧ token.kind = .string ∧
      token.span.inner = text ∧ Exists fun content : List Char =>
        token.text.toList = '"' :: content ++ ['"'] ∧
          source.slice? text = some (String.ofList content)

namespace Kind.IsSpelled

variable {source : Source} {token : Token}

theorem plain {kind : Kind} (noName : kind.name? = none) (noLiteral : kind.literal? = none) :
    kind.IsSpelled source where
  name := fun name found => (Option.some_ne_none name (found.symm.trans noName)).elim
  string := fun text found =>
    (Option.some_ne_none (Literal.string text) (found.symm.trans noLiteral)).elim

theorem of_identifier (member : token ∈ source.tokens) (isName : token.kind = .identifier)
    {kind : Kind} (named : kind.name? = some token.span) (noLiteral : kind.literal? = none) :
    kind.IsSpelled source where
  name := fun _ found => ⟨token, member, isName, Option.some.inj (named.symm.trans found)⟩
  string := fun text found =>
    (Option.some_ne_none (Literal.string text) (found.symm.trans noLiteral)).elim

theorem of_constant (member : token ∈ source.tokens) {value : Literal} {problems : List Problem}
    (found : token.constant? = some (value, problems)) : (Kind.literal value).IsSpelled source where
  name := fun name impossible => (Option.some_ne_none name impossible.symm).elim
  string := by
    intro text isString
    have same : value = .string text := Option.some.inj isString
    subst same
    unfold Token.constant? at found
    split at found
    case h_1 =>
      dsimp only at found
      split at found
      all_goals exact Literal.noConfusion (Prod.mk.inj (Option.some.inj found)).1
    case h_2 => exact Literal.noConfusion (Prod.mk.inj (Option.some.inj found)).1
    case h_3 string =>
      have inner := Literal.string.inj (Prod.mk.inj (Option.some.inj found)).1
      rcases source.quoted_of_mem_tokens member string with ⟨content, quoted⟩
      refine ⟨token, member, string, inner, content, quoted, ?_⟩
      rw [← inner]
      exact (source.stands_of_mem_tokens member).slice?_inner quoted
    case h_4 => exact (Option.some_ne_none _ found.symm).elim

end Kind.IsSpelled

namespace Reader

/-- What is read from a window on a source is spelled there. -/
def spelled (source : Source) : SourceCorrespondence :=
  (within source).correspondence
    (fun token => token.kind ≠ .endOfInput -> token ∈ source.tokens)
    (Kind.IsSpelled source)
    current_of_within
    .plain
    (fun belongs isName => by
      have member := belongs (by rw [isName]; decide)
      exact ⟨.of_identifier member isName rfl rfl, .of_identifier member isName rfl rfl⟩)
    (fun belongs found => .of_constant (belongs (Token.ne_endOfInput_of_constant found)) found)

theorem isSpelled_of_read {source : Source} {options : Options} {tree : Node}
    (isRead : tree ∈ (start source options).preconditions.1) :
    forall inner, inner ∈ tree.preorder -> inner.kind.IsSpelled source := by
  have atStart : (spelled source).relates 0 (start source options) (start source options) :=
    ⟨rfl, within_start source options⟩
  rcases exists_related_of_mem ((spelled source).preconditions _ atStart).2 isRead with
    ⟨_, _, alike⟩
  intro inner member
  rcases exists_related_of_mem (alike.preorder tree) member with ⟨_, _, _, isSpelled⟩
  exact isSpelled

end Reader

/-! ## Texts -/

namespace Node

theorem mem_preorder_trans {deep inner : Node} (within : deep ∈ inner.preorder) (node : Node) :
    inner ∈ node.preorder -> deep ∈ node.preorder := by
  induction node using induction with
  | step handle kind children ih =>
      intro member
      rw [preorder, preorderAll_eq_flatMap] at member ⊢
      rcases List.mem_cons.mp member with same | below
      · rw [same, preorder, preorderAll_eq_flatMap] at within
        exact within
      · rcases List.mem_flatMap.mp below with ⟨child, isChild, inside⟩
        exact List.mem_cons_of_mem _
          (List.mem_flatMap.mpr ⟨child, isChild, ih child isChild inside⟩)

/-- The texts that are asked of a node are there: its name, its dump, and the
text of its constant. -/
structure HasTexts (source : Source) (node : Node) : Prop where
  name : forall name : Span, node.kind.name? = some name -> (source.slice? name).isSome = true
  dump : (node.dump? source).isSome = true
  literal : forall value : Literal, node.kind.literal? = some value ->
    (value.toText? source).isSome = true

/-- If the kinds of an expression are spelled in a source, all its nodes have
texts. -/
theorem hasTexts_of_isSpelled {source : Source} {tree : Node}
    (isSpelled : forall inner, inner ∈ tree.preorder -> inner.kind.IsSpelled source) :
    forall inner, inner ∈ tree.preorder -> inner.HasTexts source := by
  have named (inner : Node) (member : inner ∈ tree.preorder) (name : Span)
      (isName : inner.kind.name? = some name) : (source.slice? name).isSome = true := by
    rcases (isSpelled inner member).name name isName with ⟨token, isToken, _, span⟩
    rw [← span, (source.stands_of_mem_tokens isToken).slice?_eq]
    rfl
  intro inner member
  refine ⟨named inner member, ?_, ?_⟩
  · refine (isSome_dump? source).1 inner (fun deep within => ?_)
    cases isName : deep.kind.name? with
    | none =>
        unfold nameTag?
        rw [isName]
        rfl
    | some name =>
        exact Kind.IsWritten.isSome_nameTag? isName
          (named deep (mem_preorder_trans within tree member) name isName)
  · intro value isValue
    cases value with
    | int value => rfl
    | float value => rfl
    | string text =>
        rcases (isSpelled inner member).string text isValue with ⟨_, _, _, _, content, _, found⟩
        rw [Literal.toText?, found]
        rfl

/-- In an expression with no operand missing, every node has enough. -/
theorem isSupplied_of_term {tree : Node} (supplied : tree.term.IsSupplied) :
    forall inner, inner ∈ tree.preorder -> inner.kind.leastOperands ≤ inner.children.length := by
  intro inner member
  have below : inner.term ∈ tree.term.subterms :=
    map_term_preorder.1 tree ▸ List.mem_map_of_mem member
  have enough := supplied inner.term below
  rwa [inner.kind_term, inner.children_term, List.length_map] at enough

/-- The conjunction of nothing is a single node. -/
theorem eq_of_term_eq_and {tree : Node} (nothing : tree.term = .mk .and []) :
    tree.kind = .and ∧ tree.children = [] ∧ forall inner, inner ∈ tree.preorder -> inner = tree := by
  rcases tree with ⟨handle, kind, children⟩
  rw [term_mk] at nothing
  have none := List.map_eq_nil_iff.mp (Term.mk.inj nothing).2
  subst none
  exact ⟨(Term.mk.inj nothing).1, rfl, fun inner member => List.mem_singleton.mp member⟩

end Node

/-! ## Detached nodes -/

/-- The detached nodes of an arena are the topmost nodes of the expressions that it
stores. -/
theorem Arena.Stores.detached_iff {size : Nat} {trees : List Node} {arena : Arena}
    (stored : arena.Stores ⟨size, trees⟩) (handle : Handle) :
    handle ∈ trees.map Node.handle ↔
      Exists fun cell : Cell => arena.cell? handle = some cell ∧ cell.parent = none := by
  constructor
  · intro member
    rcases List.mem_map.mp member with ⟨tree, isTree, same⟩
    exact ⟨tree.cellAt [], same ▸ stored.cell?_eq tree [] isTree, rfl⟩
  · intro ⟨cell, look, detached⟩
    rcases stored.locate_cell look with ⟨node, path, same, member, isCell⟩
    cases path with
    | nil => exact same ▸ List.mem_map_of_mem member
    | cons step path =>
        rw [isCell] at detached
        exact (Option.some_ne_none _ detached).elim

namespace Domain

open Reader

/-- Whatever was reported, the detached nodes of a domain are its preconditions, and
every node is in exactly one of them, at exactly one place.  No node has too many
operands, and all names and strings are those of tokens.  If nothing was reported,
no operand is missing, except that a precondition may be the conjunction of
nothing. -/
theorem shape_of_read (source : Source) (options : Options) :
    (Domain.read source options).1.preconditions.Nodup ∧
      (forall handle : Handle, handle ∈ (Domain.read source options).1.preconditions ↔
        Exists fun cell : Cell =>
          (Domain.read source options).1.arena.cell? handle = some cell ∧ cell.parent = none) ∧
      Exists fun trees : List Node =>
        List.Forall₂ (Domain.read source options).1.arena.Reads
            (Domain.read source options).1.preconditions trees ∧
          (trees.flatMap Node.handles).Perm
            (List.range (Domain.read source options).1.arena.size) ∧
          forall tree, tree ∈ trees -> forall inner, inner ∈ tree.preorder ->
            inner.kind.Allows inner.children.length ∧ inner.kind.IsSpelled source ∧
              inner.HasTexts source ∧
              ((Domain.read source options).2 = [] ->
                inner.kind.leastOperands ≤ inner.children.length ∨
                  inner = tree ∧ tree.kind = .and ∧ tree.children = []) := by
  have stored := Machine.stores_read source options
  refine ⟨stored.top_nodup (List.Sublist.refl _), stored.detached_iff,
    (start source options).preconditions.1, Machine.reads_read source options, ?_, ?_⟩
  · rw [stored.size]
    exact stored.handles_perm
  · intro tree isTree inner member
    have isSpelled := isSpelled_of_read isTree
    refine ⟨?_, isSpelled inner member, Node.hasTexts_of_isSpelled isSpelled inner member,
      fun silent => ?_⟩
    · apply shapes.preconditions (start source options)
      rw [Node.preorderAll_eq_flatMap]
      exact List.mem_flatMap.mpr ⟨tree, isTree, member⟩
    · rcases preconditions_derived _ silent with ⟨_, reads⟩
      rcases reads _ (shows_start source options) with ⟨_, _, _, derived, _⟩
      rcases derived tree isTree with ⟨tokens, precondition⟩
      rcases precondition.isSupplied with supplied | nothing
      · exact .inl (Node.isSupplied_of_term supplied inner member)
      · rcases Node.eq_of_term_eq_and nothing with ⟨kind, none, only⟩
        exact .inr ⟨only inner member, kind, none⟩

/-- A negation of a source without errors has exactly one operand. -/
theorem shape_of_read_negation :
    let source := Source.ofString "( ~x & \"a\" )"
    (Domain.read source ⟨2, true⟩).2 = [] ∧ Exists fun trees : List Node =>
      List.Forall₂ (Domain.read source ⟨2, true⟩).1.arena.Reads
          (Domain.read source ⟨2, true⟩).1.preconditions trees ∧
        forall tree, tree ∈ trees -> forall inner, inner ∈ tree.preorder ->
          inner.kind = .not -> inner.children.length = 1 := by
  intro source
  have silent : (Domain.read source ⟨2, true⟩).2 = [] := by decide +kernel
  rcases shape_of_read source ⟨2, true⟩ with ⟨_, _, trees, reads, _, shapes⟩
  refine ⟨silent, trees, reads, fun tree isTree inner member isNot => ?_⟩
  rcases shapes tree isTree inner member with ⟨allowed, _, _, supplied⟩
  rw [isNot] at allowed supplied
  rcases supplied silent with enough | ⟨same, isAnd, _⟩
  · exact Nat.le_antisymm (allowed 1 rfl) enough
  · rw [← same, isNot] at isAnd
    exact Kind.noConfusion isAnd

end Domain

end PlanningDomain
