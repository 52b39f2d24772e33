import PlanningDomain.Proofs.Arena.Correspondence
import PlanningDomain.Proofs.Compilation
import PlanningDomain.Proofs.Reader.Layout
import PlanningDomain.Proofs.Reader.Transcripts
import PlanningDomain.Proofs.Term.Correspondence

namespace PlanningDomain

/-!
# Layout does not matter

Blanks, line breaks and comments only move the words of a source.  Sources with
the same words are read into the same arena, but for where the names and strings
stand.  The conversions look at none of these, so what is compiled is shown in
the same way.  What is wrong with one source is wrong with the other, at the
same words.
-/

/-- A logical kind has no name and no constant, so it does not depend on where it
stands. -/
theorem Kind.keepsLogic_relocated {source other : Source} :
    KeepsLogic (Relocated source other) where
  self := by
    intro kind logical
    cases kind with
    | connective symbol => exact .plain rfl rfl
    | not => exact .plain rfl rfl
    | _ => exact Bool.noConfusion logical
  eq := by
    intro kind like related logical
    cases related with
    | plain _ _ => rfl
    | _ => exact logical.elim Bool.noConfusion Bool.noConfusion

/-- The same problems have the same messages. -/
theorem Diagnostic.messages_of_atSameToken {source other : Source}
    {diagnostics others : List Diagnostic}
    (related : List.Forall₂ (AtSameToken source other) diagnostics others) :
    diagnostics.map message = others.map message := by
  induction related with
  | nil => rfl
  | cons first _ ih =>
      rcases first with ⟨place, problem, _, isFirst, isSecond⟩
      rw [List.map_cons, List.map_cons, ih, isFirst, isSecond]
      rfl

namespace Node

variable {source other : Source} {node twin : Node}

/-- Expressions of one shape with relocated kinds are shown in the same way. -/
theorem shown_of_relocated
    (related : Corresponds (fun _ _ => True) (Kind.Relocated source other) node twin) :
    Exists fun dump : String => Exists fun texts : List String =>
      (node.dump? source = some dump ∧ twin.dump? other = some dump) ∧
        node.literalTexts? source = some texts ∧ twin.literalTexts? other = some texts := by
  have written : forall inner, inner ∈ node.preorder -> inner.kind.IsWritten source := by
    intro inner member
    rcases exists_related_of_mem (related.preorder node) member with ⟨_, _, same⟩
    exact same.isWritten
  have same : node.literalTexts? source = twin.literalTexts? other :=
    Corresponds.mapM_literals_eq Kind.Relocated.toText?_eq related
  have alike := Corresponds.dump?_eq node (Corresponds.mono Kind.Relocated.alike node related)
  rcases texts_of_isWritten written with ⟨dumped, listed⟩
  rcases Option.isSome_iff_exists.mp dumped with ⟨dump, isDump⟩
  rcases Option.isSome_iff_exists.mp listed with ⟨texts, areTexts⟩
  exact ⟨dump, texts, ⟨isDump, alike ▸ isDump⟩, areTexts, same ▸ areTexts⟩

end Node

namespace Domain

/-- Domains of two sources whose worlds and preconditions are shown in the same
way. -/
structure ShownAlike (source other : Source) (domain like : Domain) : Prop where
  world : domain.world.toText = like.world.toText
  preconditions : List.Forall₂ (fun root twin =>
    Exists fun tree : Node => Exists fun result : Node =>
      domain.arena.Reads root tree ∧ like.arena.Reads twin result ∧
        Exists fun dump : String => Exists fun texts : List String =>
          (tree.dump? source = some dump ∧ result.dump? other = some dump) ∧
            tree.literalTexts? source = some texts ∧ result.literalTexts? other = some texts)
    domain.preconditions like.preconditions

theorem shown_of_states {source other : Source} {domain like : Domain} {terms twins : List Term}
    (states : domain.States terms) (statesLike : like.States twins)
    (related : List.Forall₂ (Term.Corresponds (Kind.Relocated source other)) terms twins)
    (world : domain.world.toText = like.world.toText) : ShownAlike source other domain like := by
  refine ⟨world, ?_⟩
  unfold States at states statesLike
  generalize domain.preconditions = roots at states ⊢
  generalize like.preconditions = others at statesLike ⊢
  induction related generalizing roots others with
  | nil =>
      cases states
      cases statesLike
      exact .nil
  | cons same _ ih =>
      cases states with
      | cons first rest =>
          cases statesLike with
          | cons second more =>
              refine .cons ?_ (ih _ rest _ more)
              rcases first with ⟨tree, reads, isTerm⟩
              rcases second with ⟨result, readsResult, isTwin⟩
              subst isTerm isTwin
              exact ⟨tree, result, reads, readsResult,
                Node.shown_of_relocated (Term.node_of_corresponds tree same)⟩

/-- Sources with the same words are read into corresponding arenas, with the same
preconditions and the same display of the world.  They are both compiled, to
domains that are shown in the same way, or both in error, with the same messages
at the same words. -/
theorem layout_irrelevant {source other : Source} (same : source.words = other.words)
    (options : Options) :
    ((Domain.read source options).1.arena.Corresponds (Kind.Relocated source other)
        (Domain.read other options).1.arena ∧
      (Domain.read source options).1.preconditions = (Domain.read other options).1.preconditions ∧
      (Domain.read source options).1.world.toText = (Domain.read other options).1.world.toText ∧
      List.Forall₂ (Diagnostic.AtSameToken source other) (Domain.read source options).2
        (Domain.read other options).2) ∧
    ((Exists fun domain : Domain => Exists fun like : Domain =>
        compile source options = some (.ok (.ok domain)) ∧
          compile other options = some (.ok (.ok like)) ∧ ShownAlike source other domain like) ∨
      Exists fun diagnostics : List Diagnostic => Exists fun others : List Diagnostic =>
        compile source options = some (.ok (.error (.invalid diagnostics))) ∧
          compile other options = some (.ok (.error (.invalid others))) ∧
          diagnostics.map Diagnostic.message = others.map Diagnostic.message ∧
          List.Forall₂ (Diagnostic.AtSameToken source other) diagnostics others) := by
  rcases Reader.preconditions_parallel (Source.alike_of_words same) options with ⟨ends, trees⟩
  have stored := Machine.stores_read source options
  have storedOther := Machine.stores_read other options
  rw [← ends.allocated] at storedOther
  have worlds : (Domain.read source options).1.world.toText =
      (Domain.read other options).1.world.toText := ends.worlds.toText_eq
  have diagnostics : List.Forall₂ (Diagnostic.AtSameToken source other)
      (Domain.read source options).2 (Domain.read other options).2 := ends.diagnostics
  refine ⟨⟨Arena.corresponds_of_stores stored storedOther trees,
    Node.map_handle_of_corresponds trees, worlds, diagnostics⟩, ?_⟩
  rcases compile_states stored rfl with ⟨domain, world, states, compiled⟩
  rcases compile_states storedOther rfl with ⟨like, worldLike, statesLike, compiledOther⟩
  have empty : (Domain.read source options).2.isEmpty = (Domain.read other options).2.isEmpty := by
    generalize (Domain.read source options).2 = found, (Domain.read other options).2 = others
      at diagnostics
    cases diagnostics <;> rfl
  rw [← empty] at compiledOther
  cases silent : (Domain.read source options).2.isEmpty with
  | true =>
      rw [silent] at compiled compiledOther
      refine Or.inl ⟨domain, like, compiled, compiledOther,
        shown_of_states states statesLike ?_ (by rw [world, worldLike, worlds])⟩
      refine Term.corresponds_map trees (fun tree _ twin same => ?_)
      have terms := Term.corresponds_of_node tree same
      exact Term.Corresponds.dnf Kind.keepsLogic_relocated
        (.flat Kind.keepsLogic_relocated (.nnf Kind.keepsLogic_relocated terms))
  | false =>
      rw [silent] at compiled compiledOther
      exact Or.inr ⟨_, _, compiled, compiledOther,
        Diagnostic.messages_of_atSameToken diagnostics, diagnostics⟩

/-- A call with a string is compiled in one line and over several lines with
remarks.  A missing operand is missed at the same word. -/
theorem layout_irrelevant_remarks :
    let line := Source.ofString "fact \x7b g(id32) \x7d ( g(\"a\") & x )"
    let spread := Source.ofString "fact\n\x7bg( id32 )\x7d // facts\n(g (\"a\" )&x // and\n)"
    let brief := Source.ofString "(x &)"
    let long := Source.ofString "// missing\n( x\n & )"
    (Exists fun domain : Domain => Exists fun like : Domain =>
      compile line ⟨2, true⟩ = some (.ok (.ok domain)) ∧
        compile spread ⟨2, true⟩ = some (.ok (.ok like)) ∧ ShownAlike line spread domain like) ∧
    List.Forall₂ (Diagnostic.AtSameToken brief long) (Domain.read brief ⟨2, true⟩).2
      (Domain.read long ⟨2, true⟩).2 ∧
    (Domain.read brief ⟨2, true⟩).2.map Diagnostic.message = ["expected operand, found ')'"] := by
  intro line spread brief long
  refine ⟨?_, (layout_irrelevant (by decide +kernel) ⟨2, true⟩).1.2.2.2, by decide +kernel⟩
  rcases (layout_irrelevant (by decide +kernel : line.words = spread.words) ⟨2, true⟩).2 with
    shown | ⟨diagnostics, _, refused, _⟩
  · exact shown
  · rcases compile_of_silent (Machine.stores_read line ⟨2, true⟩) rfl (by decide +kernel) with
      ⟨domain, compiled, _⟩
    cases compiled.symm.trans refused

end Domain

end PlanningDomain
