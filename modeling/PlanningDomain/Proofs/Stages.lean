import PlanningDomain.Domain
import PlanningDomain.Proofs.Conversions

namespace PlanningDomain

/-!
# The stages of a domain

Bringing a domain to a stage converts its preconditions one after the other in
one arena.  What one conversion leaves over stays in the arena, and what is still
to be converted is not touched.  So the conversions come to an end, and
every precondition gets the term that the stage gives to its own term.
-/

/-- Work on further expressions, with one that has been converted and what its
conversion has left over listed behind them. -/
theorem Arena.yields_behind {alpha : Type} {work : Edit alpha} {answer : alpha}
    {first last : Nat} {result : Node} {trees roots rest results further : List Node}
    (later : Yields (Stores ⟨first, trees ++ result :: (roots ++ rest)⟩) work answer
      (Stores ⟨last, results ++ (further ++ result :: (roots ++ rest))⟩)) :
    Yields (Stores ⟨first, result :: (roots ++ (trees ++ rest))⟩) work answer
      (Stores ⟨last, result :: results ++ (further ++ roots ++ rest)⟩) := by
  refine yields_of_perm ?_ (yields_to_perm ?_ later)
  · exact ((List.perm_append_comm_assoc _ _ _).cons _).trans List.perm_middle.symm
  · rw [List.append_assoc]
    exact (List.perm_middle.append_left _).trans List.perm_middle

namespace Stage

/-- What a stage makes of a term. -/
def form : Stage -> Term -> Term
  | parse => id
  | flatten => Term.flat
  | nnf => fun term => term.nnf.flat
  | dnf => fun term => term.nnf.flat.dnf

/-- One conversion, with other expressions around and beside it in the arena. -/
theorem convert_yields (stage : Stage) (tree : Node) (path : List Step) (size : Nat)
    (rest : List Node) :
    Exists fun result : Node => Exists fun left : Forest => result.term = stage.form tree.term ∧
      Yields (Arena.Stores ⟨size, tree.climb path :: rest⟩) (stage.convert tree.handle)
        result.handle
        (Arena.Stores ⟨left.allocated, result.climb path :: (left.roots ++ rest)⟩) := by
  cases stage with
  | parse => exact ⟨tree, ⟨size, []⟩, rfl, .pure _⟩
  | flatten =>
      refine ⟨tree.flatten, ⟨size, tree.shells⟩, tree.term_flatten, ?_⟩
      rw [tree.handle_flatten]
      exact (Arena.flatten_yields tree path rest).bind (.pure _)
  | nnf => exact ⟨_, _, tree.term_toNnf _, Arena.toNnf_yields tree path ⟨size, []⟩ rest⟩
  | dnf => exact ⟨_, _, tree.term_toDnf _ _, Arena.toDnf_yields tree path ⟨size, []⟩ rest⟩

/-- The results are kept in the arena while the other expressions are
converted. -/
theorem convertAll_yields (stage : Stage) (trees : List Node) : forall (size : Nat)
    (rest : List Node),
    Exists fun results : List Node => Exists fun left : Forest =>
      results.map Node.term = trees.map (fun tree => stage.form tree.term) ∧
      Yields (Arena.Stores ⟨size, trees ++ rest⟩) (stage.convertAll (trees.map Node.handle))
        (results.map Node.handle)
        (Arena.Stores ⟨left.allocated, results ++ (left.roots ++ rest)⟩) := by
  induction trees with
  | nil => exact fun size rest => ⟨[], ⟨size, []⟩, rfl, .pure _⟩
  | cons tree trees ih =>
      intro size rest
      rcases stage.convert_yields tree [] size (trees ++ rest) with ⟨result, left, term, first⟩
      rcases ih left.allocated (result :: (left.roots ++ rest)) with
        ⟨results, further, terms, later⟩
      refine ⟨result :: results, ⟨further.allocated, further.roots ++ left.roots⟩,
        congrArg₂ List.cons term terms, first.bind ?_⟩
      exact (Arena.yields_behind later).bind (.pure _)

end Stage

namespace Domain

/-- The preconditions of a domain have some terms, in order. -/
def States (domain : Domain) (terms : List Term) : Prop :=
  List.Forall₂ (fun root term => Exists fun tree : Node =>
    domain.arena.Reads root tree ∧ tree.term = term) domain.preconditions terms

theorem States.of_stores {domain : Domain} {size : Nat} {trees rest : List Node}
    (stored : domain.arena.Stores ⟨size, trees ++ rest⟩)
    (roots : domain.preconditions = trees.map Node.handle) :
    domain.States (trees.map Node.term) := by
  unfold States
  rw [roots, List.forall₂_map_left_iff, List.forall₂_map_right_iff, List.forall₂_same]
  exact fun tree member => ⟨tree, stored.reads_of_mem (List.mem_append_left _ member), rfl⟩

/-- Every domain whose arena stores its preconditions is brought to every
stage. -/
theorem advanceTo_states {domain : Domain} {size : Nat} {trees : List Node}
    (stored : domain.arena.Stores ⟨size, trees⟩)
    (roots : domain.preconditions = trees.map Node.handle) (stage : Stage) :
    Exists fun later : Domain => domain.advanceTo stage = some (.ok later) ∧
      later.source = domain.source ∧ later.world = domain.world ∧
      later.States (trees.map (fun tree => stage.form tree.term)) := by
  rcases stage.convertAll_yields trees size [] with ⟨results, left, terms, converts⟩
  rw [List.append_nil] at converts
  rcases converts domain.arena stored with ⟨arena, run, kept, _⟩
  rw [← roots] at run
  refine ⟨{ domain with arena := arena, preconditions := results.map Node.handle }, ?_, rfl, rfl,
    ?_⟩
  · unfold advanceTo
    rw [run]
    rfl
  · rw [← terms]
    exact .of_stores kept rfl

end Domain

end PlanningDomain
