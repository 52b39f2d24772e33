import PlanningDomain.CommandLine
import PlanningDomain.Proofs.Compilation
import PlanningDomain.Proofs.Reader.Shapes
import PlanningDomain.Proofs.Token.LongestMatch

namespace PlanningDomain

/-!
# Dumps of converted expressions

The dump of an expression depends on its term only.  It does not matter therefore
whether an expression is written down before the others are converted or after
that, since they are converted without a change to it.  The names in a term are
identifiers of the source, also in its normal forms, so the dump is a single line.
-/

/-- A text without a line feed. -/
def IsLine (text : String) : Prop :=
  '\n' ∉ text.toList

instance (text : String) : Decidable (IsLine text) :=
  inferInstanceAs (Decidable (¬ '\n' ∈ text.toList))

namespace IsLine

theorem append {first second : String} (isFirst : IsLine first) (isSecond : IsLine second) :
    IsLine (first ++ second) := by
  intro member
  rw [String.toList_append] at member
  exact (List.mem_append.mp member).elim isFirst isSecond

theorem typeName (kind : Kind) : IsLine kind.typeName := by
  cases kind with
  | connective symbol | comparison symbol | arithmetic symbol =>
      cases symbol
      all_goals decide
  | _ =>
      rw [Kind.typeName]
      decide

theorem of_identifier {source : Source} {token : Token} (member : token ∈ source.tokens)
    (isName : token.kind = .identifier) : IsLine token.text := by
  rcases source.isLongest_of_mem_tokens member with ⟨_, _, _, _, longest⟩
  have spells := longest.spells (isName ▸ by decide)
  rw [isName] at spells
  intro feed
  exact absurd ((TokenKind.parts_of_identifier spells).2 '\n' feed) (by decide)

end IsLine

namespace Node

variable {source : Source}

/-! ## What a dump depends on -/

theorem dump?_congr_both (source : Source) :
    (forall node other : Node, other.term = node.term ->
      other.dump? source = node.dump? source) ∧
      forall nodes others : List Node, others.map term = nodes.map term ->
        dumpAll? source others = dumpAll? source nodes := by
  refine induction_both ?_ ?_ ?_
  · intro handle kind children ih other same
    rcases other with ⟨otherHandle, otherKind, others⟩
    rw [term_mk, term_mk] at same
    rcases Term.mk.inj same with ⟨sameKind, terms⟩
    have empty := congrArg List.isEmpty terms
    rw [List.isEmpty_map, List.isEmpty_map] at empty
    rw [dump?, dump?, sameKind, ih others terms, empty]
  · intro others same
    rw [List.map_eq_nil_iff.mp same]
  · intro node rest first later others same
    rcases List.map_eq_cons_iff.mp same with ⟨other, further, split, sameTerm, terms⟩
    rw [split, dumpAll?, dumpAll?, first other sameTerm, later further terms]

/-- Expressions with the same term have the same dump. -/
theorem dump?_congr {node other : Node} (same : other.term = node.term) :
    other.dump? source = node.dump? source :=
  (dump?_congr_both source).1 node other same

/-! ## Dumps are lines -/

theorem isLine_of_nameTag? {kind : Kind} (isSpelled : kind.IsSpelled source) {tag : String}
    (isTag : nameTag? source kind = some tag) : IsLine tag := by
  unfold nameTag? at isTag
  split at isTag
  case h_1 => exact Option.some.inj isTag ▸ by decide
  case h_2 name isName =>
    split at isTag
    · exact Option.some.inj isTag ▸ by decide
    · rcases isSpelled.name name isName with ⟨token, member, identifier, span⟩
      rw [← span, (source.stands_of_mem_tokens member).slice?_eq, Option.map_some] at isTag
      rw [← Option.some.inj isTag]
      exact ((by decide : IsLine "[").append (.of_identifier member identifier)).append (by decide)

/-- If the names of an expression are lines, then so is its dump. -/
theorem isLine_of_dump?_both (source : Source) :
    (forall node : Node,
      (forall inner, inner ∈ node.preorder -> inner.kind.IsSpelled source) ->
        forall text, node.dump? source = some text -> IsLine text) ∧
      forall nodes : List Node,
        (forall inner, inner ∈ preorderAll nodes -> inner.kind.IsSpelled source) ->
          forall text, dumpAll? source nodes = some text -> IsLine text := by
  refine induction_both ?_ ?_ ?_
  · intro handle kind children ih isSpelled text isDump
    rw [preorder] at isSpelled
    rcases List.forall_mem_cons.mp isSpelled with ⟨here, below⟩
    rw [dump?] at isDump
    rcases Option.bind_eq_some_iff.mp isDump with ⟨tag, isTag, isRest⟩
    rcases Option.map_eq_some_iff.mp isRest with ⟨operands, isOperands, isText⟩
    rw [← isText]
    have named := (IsLine.typeName kind).append (isLine_of_nameTag? here isTag)
    refine named.append ?_
    split
    · decide
    · exact ((by decide : IsLine "\x7b ").append (ih below _ isOperands)).append (by decide)
  · intro _ text isDump
    exact Option.some.inj isDump ▸ by decide
  · intro node rest first later isSpelled text isDump
    rw [preorderAll] at isSpelled
    rcases List.forall_mem_append.mp isSpelled with ⟨here, behind⟩
    rw [dumpAll?] at isDump
    rcases Option.bind_eq_some_iff.mp isDump with ⟨head, isHead, isRest⟩
    rcases Option.map_eq_some_iff.mp isRest with ⟨tail, isTail, isText⟩
    rw [← isText]
    exact ((first here _ isHead).append (by decide)).append (later behind _ isTail)

/-! ## Dumps of normal forms -/

/-- Logical kinds have no name and no string, so only the atoms of a term are
looked at. -/
theorem isSpelled_of_eachAtom {node : Node}
    (each : node.term.EachAtom (fun kind _ => kind.IsSpelled source)) :
    forall inner, inner ∈ node.preorder -> inner.kind.IsSpelled source := by
  intro inner member
  have below : inner.term ∈ node.term.subterms :=
    map_term_preorder.1 node ▸ List.mem_map_of_mem member
  have atom := each inner.term below
  rw [inner.kind_term] at atom
  cases kind : inner.kind with
  | not => exact .plain rfl rfl
  | connective symbol => exact .plain rfl rfl
  | _ => exact kind ▸ atom (by rw [kind]; rfl)

/-- An expression whose names are spelled in a source has a dump, which is a
line. -/
theorem exists_line {node : Node}
    (each : node.term.EachAtom (fun kind _ => kind.IsSpelled source)) :
    Exists fun text : String => node.dump? source = some text ∧ IsLine text := by
  have isSpelled := isSpelled_of_eachAtom each
  have top : node ∈ node.preorder := by
    cases node
    exact List.mem_cons_self
  rcases Option.isSome_iff_exists.mp (hasTexts_of_isSpelled isSpelled node top).dump with
    ⟨text, isDump⟩
  exact ⟨text, isDump, (isLine_of_dump?_both source).1 node isSpelled text isDump⟩

/-- The names of what is read are spelled in the source. -/
theorem eachAtom_of_read {options : Options} {tree : Node}
    (isRead : tree ∈ (Reader.start source options).preconditions.1) :
    tree.term.EachAtom (fun kind _ => kind.IsSpelled source) := by
  intro term below _
  rcases tree.exists_of_mem_subterms below with ⟨inner, member, same⟩
  rw [← same, inner.kind_term]
  exact Reader.isSpelled_of_read isRead inner member

end Node

namespace Term

/-- Every stage keeps the kinds of the atoms. -/
theorem EachAtom.form {good : Kind -> Nat -> Prop} {term : Term} (each : term.EachAtom good)
    (stage : Stage) : (stage.form term).EachAtom good := by
  cases stage with
  | parse => exact each
  | flatten => exact each.flat
  | nnf => exact each.nnf.flat
  | dnf => exact each.nnf.flat.dnf

end Term

/-! ## Dumps between conversions -/

namespace Stage

/-- The expressions are written down one after the other, each before the next one is
converted. -/
theorem dumps_yields (stage : Stage) (source : Source) (trees : List Node) :
    forall (size : Nat) (rest : List Node),
    Exists fun results : List Node => Exists fun left : Forest =>
      results.map Node.term = trees.map (fun tree => stage.form tree.term) ∧
      Yields (Arena.Stores ⟨size, trees ++ rest⟩) (stage.dumps source (trees.map Node.handle))
        (results.map (fun result => (result.dump? source).getD ""))
        (Arena.Stores ⟨left.allocated, results ++ (left.roots ++ rest)⟩) := by
  induction trees with
  | nil => exact fun size rest => ⟨[], ⟨size, []⟩, rfl, .pure _⟩
  | cons tree trees ih =>
      intro size rest
      rcases stage.convert_yields tree [] size (trees ++ rest) with ⟨result, left, term, first⟩
      rcases ih left.allocated (result :: (left.roots ++ rest)) with
        ⟨results, further, terms, later⟩
      refine ⟨result :: results, ⟨further.allocated, further.roots ++ left.roots⟩,
        congrArg₂ List.cons term terms, first.bind ?_⟩
      apply (Arena.expression_yields result [] List.mem_cons_self).bind
      exact (Arena.yields_behind later).bind (.pure _)

end Stage

end PlanningDomain
