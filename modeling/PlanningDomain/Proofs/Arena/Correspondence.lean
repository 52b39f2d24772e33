import PlanningDomain.Proofs.Arena.WellFormed
import PlanningDomain.Proofs.Reader.Correspondence.Basic

namespace PlanningDomain

/-!
# Arenas that correspond

Expressions with the same handles that have related kinds are stored in cells
with the same links.
-/

/-- Cells with the same links and related kinds. -/
structure Cell.Corresponds (kinds : Kind -> Kind -> Prop) (cell like : Cell) : Prop where
  kind : kinds cell.kind like.kind
  parent : cell.parent = like.parent
  first : cell.first = like.first
  last : cell.last = like.last
  previous : cell.previous = like.previous
  next : cell.next = like.next

/-- As many cells, and each in its place with the same links and a related
kind. -/
structure Arena.Corresponds (kinds : Kind -> Kind -> Prop) (arena later : Arena) : Prop where
  size : arena.size = later.size
  cells : forall node found, arena.cell? node = some found ->
    Exists fun twin : Cell => later.cell? node = some twin ∧ found.Corresponds kinds twin

namespace Node

variable {kinds : Kind -> Kind -> Prop}

theorem Corresponds.handle_eq {node other : Node} (alike : Corresponds Eq kinds node other) :
    node.handle = other.handle := by
  cases alike with
  | mk same _ _ => exact same

theorem map_handle_of_corresponds {nodes others : List Node}
    (alike : List.Forall₂ (Corresponds Eq kinds) nodes others) :
    nodes.map handle = others.map handle := by
  induction alike with
  | nil => rfl
  | cons first _ ih => rw [List.map_cons, List.map_cons, first.handle_eq, ih]

/-- Corresponding expressions with the same handles have corresponding cells. -/
theorem cells_of_corresponds (node : Node) : forall {other : Node},
    Corresponds Eq kinds node other -> forall parent previous next : Link,
      List.Forall₂ (fun entry twin => entry.1 = twin.1 ∧ Cell.Corresponds kinds entry.2 twin.2)
        (node.cells parent previous next) (other.cells parent previous next) := by
  induction node using Node.induction with
  | step handle kind children ih =>
      intro other alike parent previous next
      cases alike with
      | @mk _ _ _ like _ others same isKind operands =>
          subst same
          have handles := map_handle_of_corresponds operands
          have first : children.head?.map Node.handle = others.head?.map Node.handle := by
            rw [← List.head?_map, ← List.head?_map, handles]
          have last : children.getLast?.map Node.handle = others.getLast?.map Node.handle := by
            rw [← List.getLast?_map, ← List.getLast?_map, handles]
          have below : forall before after : Link, List.Forall₂
              (fun entry twin => entry.1 = twin.1 ∧ Cell.Corresponds kinds entry.2 twin.2)
              (cellsAll handle before after children) (cellsAll handle before after others) := by
            clear first last handles isKind
            induction operands with
            | nil => exact fun _ _ => .nil
            | @cons child twin rest twins alike later onRest =>
                intro before after
                have following : rest.head?.map Node.handle = twins.head?.map Node.handle := by
                  rw [← List.head?_map, ← List.head?_map, map_handle_of_corresponds later]
                rw [cellsAll, cellsAll, following, alike.handle_eq]
                exact List.rel_append (ih child List.mem_cons_self alike _ _ _)
                  (onRest (fun inner member => ih inner (List.mem_cons_of_mem _ member)) _ _)
          rw [cells, cells]
          exact .cons ⟨rfl, isKind, rfl, first, last, rfl, rfl⟩ (below none none)

end Node

namespace Arena

variable {kinds : Kind -> Kind -> Prop} {arena later : Arena} {size : Nat}
  {trees twins : List Node}

/-- Arenas that store corresponding expressions with the same handles
correspond. -/
theorem corresponds_of_stores (stored : arena.Stores ⟨size, trees⟩)
    (again : later.Stores ⟨size, twins⟩)
    (alike : List.Forall₂ (Node.Corresponds Eq kinds) trees twins) :
    arena.Corresponds kinds later := by
  have related : List.Forall₂
      (fun entry twin => entry.1 = twin.1 ∧ Cell.Corresponds kinds entry.2 twin.2)
      (Forest.cells ⟨size, trees⟩) (Forest.cells ⟨size, twins⟩) :=
    List.rel_flatMap alike (fun node _ same => Node.cells_of_corresponds node same _ _ _)
  refine ⟨stored.size.trans again.size.symm, fun node found look => ?_⟩
  have listed := stored.keeps.handles.mem_iff.mpr (List.mem_range.mpr (cell?_lt look))
  rcases List.mem_map.mp listed with ⟨entry, isEntry, isNode⟩
  rcases exists_related_of_mem related isEntry with ⟨twin, isTwin, same, cells⟩
  have lookHere := stored.keeps.cell entry isEntry
  have lookLater := again.keeps.cell twin isTwin
  rw [isNode, look] at lookHere
  rw [← same, isNode] at lookLater
  exact ⟨twin.2, lookLater, Option.some.inj lookHere ▸ cells⟩

end Arena

end PlanningDomain
