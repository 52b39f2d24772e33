import PlanningDomain.Expr.Dump
import PlanningDomain.Proofs.Reader.Correspondence.Invariants

namespace PlanningDomain

/-!
# The texts of what is read

The names and constants of an expression that is read are written in the
source.  So every expression has a dump, and all its constants have texts.
-/

/-- If everything in a list has an answer, there is a list of answers. -/
theorem isSome_mapM {alpha beta : Type} {answer : alpha -> Option beta} {values : List alpha}
    (each : forall value, value ∈ values -> (answer value).isSome = true) :
    (values.mapM answer).isSome = true := by
  induction values with
  | nil => rfl
  | cons value rest ih =>
      rcases List.forall_mem_cons.mp each with ⟨first, later⟩
      rcases Option.isSome_iff_exists.mp first with ⟨head, isHead⟩
      rcases Option.isSome_iff_exists.mp (ih later) with ⟨tail, isTail⟩
      rw [List.mapM_cons, isHead, isTail]
      rfl

namespace Node

/-- Two corresponding expressions have related kinds throughout. -/
theorem Corresponds.preorder {handles : Handle -> Handle -> Prop} {kinds : Kind -> Kind -> Prop}
    (node : Node) : forall {other : Node}, Corresponds handles kinds node other ->
      List.Forall₂ (fun inner twin => kinds inner.kind twin.kind) node.preorder other.preorder := by
  induction node using Node.induction with
  | step handle kind children ih =>
      intro other alike
      cases alike with
      | @mk _ _ _ like _ others _ isKind operands =>
          rw [Node.preorder, Node.preorder]
          refine .cons isKind ?_
          clear isKind
          induction operands with
          | nil => exact .nil
          | cons first _ onRest =>
              rw [preorderAll, preorderAll]
              exact List.rel_append (ih _ List.mem_cons_self first)
                (onRest (fun inner member => ih inner (List.mem_cons_of_mem _ member)))

theorem isSome_dump? (source : Source) :
    (forall node : Node,
      (forall inner, inner ∈ node.preorder -> (nameTag? source inner.kind).isSome = true) ->
        (node.dump? source).isSome = true) ∧
      forall nodes : List Node,
        (forall inner, inner ∈ preorderAll nodes -> (nameTag? source inner.kind).isSome = true) ->
          (dumpAll? source nodes).isSome = true := by
  apply induction_both
  · intro handle kind children ih named
    rw [preorder] at named
    rcases List.forall_mem_cons.mp named with ⟨tagged, below⟩
    rcases Option.isSome_iff_exists.mp tagged with ⟨tag, isTag⟩
    rcases Option.isSome_iff_exists.mp (ih below) with ⟨operands, isOperands⟩
    rw [kind_mk] at isTag
    rw [dump?, isTag, isOperands]
    rfl
  · exact fun _ => rfl
  · intro node rest ih ihRest named
    rw [preorderAll] at named
    rcases List.forall_mem_append.mp named with ⟨first, later⟩
    rcases Option.isSome_iff_exists.mp (ih first) with ⟨head, isHead⟩
    rcases Option.isSome_iff_exists.mp (ihRest later) with ⟨tail, isTail⟩
    rw [dumpAll?, isHead, isTail]
    rfl

end Node

/-- The payload of a kind is written in a source. -/
structure Kind.IsWritten (source : Source) (kind : Kind) : Prop where
  name : (Node.nameTag? source kind).isSome = true
  literal : forall value : Literal, kind.literal? = some value ->
    (value.toText? source).isSome = true

namespace Kind.IsWritten

variable {source : Source} {token : Token}

theorem plain {kind : Kind} (noName : kind.name? = none) (noLiteral : kind.literal? = none) :
    kind.IsWritten source where
  name := by
    unfold Node.nameTag?
    rw [noName]
    rfl
  literal := fun value same => (Option.some_ne_none value (same.symm.trans noLiteral)).elim

/-- A name that has a text has a tag. -/
theorem isSome_nameTag? {kind : Kind} {name : Span} (isName : kind.name? = some name)
    (found : (source.slice? name).isSome = true) : (Node.nameTag? source kind).isSome = true := by
  unfold Node.nameTag?
  rw [isName]
  dsimp only
  split
  · rfl
  · rw [Option.isSome_map]
    exact found

theorem name_of_stands (stands : token.Stands source) :
    (Kind.var token.span).IsWritten source ∧ (Kind.func token.span).IsWritten source := by
  have found : (source.slice? token.span).isSome = true := by rw [stands.slice?_eq]; rfl
  have noLiteral (value : Literal) (impossible : none = some value) :
      (value.toText? source).isSome = true := (Option.some_ne_none _ impossible.symm).elim
  exact ⟨⟨isSome_nameTag? rfl found, noLiteral⟩, ⟨isSome_nameTag? rfl found, noLiteral⟩⟩

theorem literal_of_constant (member : token ∈ source.tokens) {value : Literal}
    {problems : List Problem} (found : token.constant? = some (value, problems)) :
    (Kind.literal value).IsWritten source := by
  refine ⟨rfl, fun other same => ?_⟩
  rw [← Option.some.inj same]
  unfold Token.constant? at found
  split at found
  case h_1 =>
    dsimp only at found
    split at found
    all_goals
      rw [← (Prod.mk.inj (Option.some.inj found)).1]
      rfl
  case h_2 =>
    rw [← (Prod.mk.inj (Option.some.inj found)).1]
    rfl
  case h_3 string =>
    rcases source.quoted_of_mem_tokens member string with ⟨content, quoted⟩
    rw [← (Prod.mk.inj (Option.some.inj found)).1, Literal.toText?,
      (source.stands_of_mem_tokens member).slice?_inner quoted]
    rfl
  case h_4 => exact (Option.some_ne_none _ found.symm).elim

end Kind.IsWritten

/-- An expression whose payloads are written in a source has a dump, and its
constants have texts. -/
theorem Node.texts_of_isWritten {source : Source} {node : Node}
    (kinds : forall inner, inner ∈ node.preorder -> inner.kind.IsWritten source) :
    (node.dump? source).isSome = true ∧ (node.literalTexts? source).isSome = true := by
  refine ⟨(isSome_dump? source).1 node (fun inner member => (kinds inner member).name), ?_⟩
  apply isSome_mapM
  intro value member
  rcases List.mem_filterMap.mp member with ⟨inner, isInner, same⟩
  exact (kinds inner isInner).literal value same

namespace Reader

/-- The tokens in the window belong to a source. -/
def within (source : Source) : Invariant where
  holds := fun reader => forall token, token ∈ reader.window.held ++ reader.window.coming ->
    token.kind ≠ .endOfInput -> token ∈ source.tokens
  advanced := by
    intro reader holds token member input
    rcases reader.window.advance_append with ⟨ends, moved, ended⟩
    have later : token ∈ reader.window.held ++ reader.window.coming ++ ends :=
      moved ▸ List.mem_cons_of_mem _ member
    rcases List.mem_append.mp later with here | behind
    · exact holds token here input
    · exact (input (ended token behind)).elim
  reported := fun _ _ holds => holds
  reserved := fun holds => holds
  declared := by
    intro reader fact holds
    unfold Reader.declare
    split <;> exact holds

theorem within_start (source : Source) (options : Options) :
    (within source).holds (start source options) := by
  intro token member input
  rcases (shows_start source options).split with ⟨ends, split, ended⟩
  rw [split] at member
  rcases List.mem_append.mp member with isToken | isEnd
  · exact isToken
  · exact (input (ended token isEnd)).elim

theorem current_of_within {source : Source} {reader : Reader}
    (holds : (within source).holds reader) (input : reader.current.kind ≠ .endOfInput) :
    reader.current ∈ source.tokens :=
  holds _ (List.mem_append_left _ List.mem_cons_self) input

/-- What is read from a window on a source is written in the source. -/
def written (source : Source) : SourceCorrespondence :=
  (within source).correspondence
    (fun token => token.kind ≠ .endOfInput -> token ∈ source.tokens)
    (Kind.IsWritten source)
    current_of_within
    .plain
    (fun belongs isName => Kind.IsWritten.name_of_stands
      (source.stands_of_mem_tokens (belongs (by rw [isName]; decide))))
    (fun belongs found => Kind.IsWritten.literal_of_constant
      (belongs (Token.ne_endOfInput_of_constant found)) found)

theorem written_relates {source : Source} {reader : Reader} (holds : (within source).holds reader) :
    (written source).relates 0 reader reader :=
  ⟨rfl, holds⟩

/-- The payloads of an expression that is read from a source are written there. -/
theorem kinds_of_written {source : Source} {node other : Node}
    (alike : (written source).nodes node other) :
    forall inner, inner ∈ node.preorder -> inner.kind.IsWritten source := by
  intro inner member
  rcases exists_related_of_mem (alike.preorder node) member with ⟨_, _, _, isWritten⟩
  exact isWritten

/-- An expression that is read from a source has a dump, and its constants have
texts. -/
theorem texts_of_written {source : Source} {node other : Node}
    (alike : (written source).nodes node other) :
    (node.dump? source).isSome = true ∧ (node.literalTexts? source).isSome = true :=
  Node.texts_of_isWritten (kinds_of_written alike)

end Reader

end PlanningDomain
