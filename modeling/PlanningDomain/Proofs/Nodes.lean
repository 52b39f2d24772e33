import Mathlib.Data.List.Flatten
import PlanningDomain.Expr.Node

namespace PlanningDomain

/-!
# Expressions by induction

A statement about all expressions follows from the step in which it is known
of the operands of a node.  Most statements about the functions that go
through an expression and its operands in turn are proved this way, with an
induction on the list of the operands inside.
-/

namespace Node

/-- Induction on expressions, with the statement known of every operand. -/
theorem induction {motive : Node -> Prop}
    (step : forall handle kind children,
      (forall child, child ∈ children -> motive child) -> motive (.mk handle kind children))
    (node : Node) : motive node :=
  match node with
  | mk handle kind children =>
      step handle kind children (fun child member =>
        have : sizeOf child < 1 + sizeOf handle + sizeOf kind + sizeOf children :=
          Nat.lt_of_lt_of_le (List.sizeOf_lt_of_mem member) (Nat.le_add_left _ _)
        induction step child)
termination_by node

/-- Induction on expressions and lists of expressions together. -/
theorem induction_both {motive : Node -> Prop} {motives : List Node -> Prop}
    (step : forall handle kind children, motives children -> motive (.mk handle kind children))
    (nil : motives [])
    (cons : forall node rest, motive node -> motives rest -> motives (node :: rest)) :
    (forall node, motive node) ∧ forall nodes, motives nodes := by
  have each : forall node, motive node := by
    intro node
    induction node using induction with
    | step handle kind children ih =>
        apply step handle kind children
        induction children with
        | nil => exact nil
        | cons node rest onRest =>
            exact cons node rest (ih node List.mem_cons_self)
              (onRest (fun other member => ih other (List.mem_cons_of_mem _ member)))
  refine ⟨each, fun nodes => ?_⟩
  induction nodes with
  | nil => exact nil
  | cons node rest ih => exact cons node rest (each node) ih

/-! ## Handles -/

theorem handles_mk (handle : Handle) (kind : Kind) (children : List Node) :
    (mk handle kind children).handles = handle :: children.flatMap handles := by
  rw [handles, preorder, List.map_cons, preorderAll_eq_flatMap, List.map_flatMap]
  rfl

theorem handle_mem_handles (node : Node) : node.handle ∈ node.handles := by
  cases node
  rw [handles_mk]
  exact List.mem_cons_self

/-- The handles of some nodes are among the handles of all nodes below them. -/
theorem map_handle_sublist (nodes : List Node) :
    (nodes.map handle).Sublist (nodes.flatMap handles) := by
  induction nodes with
  | nil => exact List.Sublist.slnil
  | cons node rest ih =>
      rcases node with ⟨handle, kind, children⟩
      rw [List.map_cons, List.flatMap_cons, handles_mk, List.cons_append]
      exact (ih.trans (List.sublist_append_right _ _)).cons_cons _

theorem length_handles (node : Node) : node.handles.length = node.size :=
  List.length_map _

theorem size_mk (handle : Handle) (kind : Kind) (children : List Node) :
    (mk handle kind children).size = (children.flatMap handles).length + 1 := by
  rw [← length_handles, handles_mk, List.length_cons]

theorem size_pos (node : Node) : 0 < node.size := by
  cases node
  rw [size_mk]
  exact Nat.succ_pos _

theorem size_lt_of_mem {handle : Handle} {kind : Kind} {children : List Node} {child : Node}
    (member : child ∈ children) : child.size < (mk handle kind children).size := by
  rw [size_mk, ← child.length_handles, List.flatMap_def]
  exact Nat.lt_succ_of_le (List.sublist_flatten_of_mem (List.mem_map_of_mem member)).length_le

end Node

end PlanningDomain
