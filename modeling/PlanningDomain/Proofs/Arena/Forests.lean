import PlanningDomain.Proofs.Arena.Storage

namespace PlanningDomain

/-!
# The arena of a forest

An arena that stores a forest is the only one, and it is the arena that is made
from the forest.  So it is of no importance in which way the cells were written.
-/

namespace Arena

/-- Cells that are written one after the other, at different places, are all
found where they were written. -/
theorem foldl_set (entries : List (Handle × Cell)) : forall (cells : Array Cell),
    (entries.map Prod.fst).Nodup -> (forall entry, entry ∈ entries -> entry.1 < cells.size) ->
      let written := entries.foldl (fun cells entry => cells.set! entry.1 entry.2) cells
      written.size = cells.size ∧
        (forall entry, entry ∈ entries -> written[entry.1]? = some entry.2) ∧
        forall place : Nat, place ∉ entries.map Prod.fst -> written[place]? = cells[place]? := by
  induction entries with
  | nil => exact fun cells _ _ => ⟨rfl, fun _ impossible => (List.not_mem_nil impossible).elim,
      fun _ _ => rfl⟩
  | cons first rest ih =>
      intro cells nodup bound
      rcases List.nodup_cons.mp nodup with ⟨fresh, nodupRest⟩
      have size : (cells.set! first.1 first.2).size = cells.size := Array.size_setIfInBounds
      have boundRest : forall entry, entry ∈ rest ->
          entry.1 < (cells.set! first.1 first.2).size := by
        intro entry member
        rw [size]
        exact bound entry (List.mem_cons_of_mem _ member)
      rcases ih (cells.set! first.1 first.2) nodupRest boundRest with ⟨kept, found, others⟩
      refine ⟨kept.trans size, fun entry member => ?_, fun place outside => ?_⟩
      · rcases List.mem_cons.mp member with same | later
        · subst same
          refine (others entry.1 fresh).trans ?_
          exact Array.getElem?_setIfInBounds_self_of_lt (bound entry List.mem_cons_self)
        · exact found entry later
      · rw [List.map_cons] at outside
        refine (others place (fun member => outside (List.mem_cons_of_mem _ member))).trans ?_
        apply Array.getElem?_setIfInBounds_ne
        exact fun same => outside (same ▸ List.mem_cons_self)

/-- An arena is made from any forest that it stores. -/
theorem Stores.ofForest_eq {forest : Forest} {arena : Arena} (stored : arena.Stores forest) :
    ofForest forest = arena := by
  have bound : forall entry, entry ∈ forest.cells ->
      entry.1 < (Array.replicate forest.allocated (Cell.alone .and)).size := by
    intro entry member
    rw [Array.size_replicate, ← stored.size]
    exact stored.keeps.lt_size member
  rcases foldl_set forest.cells _ stored.keeps.nodup bound with ⟨size, found, _⟩
  rcases arena with ⟨cells⟩
  refine congrArg Arena.mk (Array.ext ?_ fun place inside within => ?_)
  · rw [size, Array.size_replicate]
    exact stored.size.symm
  · have member : place ∈ forest.cells.map Prod.fst :=
      stored.keeps.handles.mem_iff.mpr (List.mem_range.mpr within)
    rcases List.mem_map.mp member with ⟨entry, isEntry, same⟩
    subst same
    have written := found entry isEntry
    have kept : cells[entry.1]? = some entry.2 := stored.keeps.cell entry isEntry
    rw [Array.getElem?_eq_getElem inside] at written
    rw [Array.getElem?_eq_getElem within] at kept
    exact Option.some.inj (written.trans kept.symm)

end Arena

end PlanningDomain
