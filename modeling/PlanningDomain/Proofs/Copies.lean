import Mathlib.Data.List.Nodup
import PlanningDomain.Proofs.Arena.Lists

namespace PlanningDomain

/-!
# Copies are told by their handles

A copy has the handles that come next, one for each node, in the order in which
the copied nodes are met.  So the copy is the same expression with its nodes
numbered anew: a node goes to the first new handle plus its place in pre-order.
Nothing else happens to the arena.  The nodes that were there keep all their
links, whether or not the copied one was an operand of another.
-/

namespace Node

/-! ## Numbering nodes anew -/

mutual

/-- The same expression with other handles. -/
def renumber (number : Handle -> Handle) : Node -> Node
  | mk handle kind children => mk (number handle) kind (renumberAll number children)

def renumberAll (number : Handle -> Handle) : List Node -> List Node
  | [] => []
  | node :: rest => node.renumber number :: renumberAll number rest

end

variable (number : Handle -> Handle)

@[simp] theorem handle_renumber (node : Node) :
    (node.renumber number).handle = number node.handle := by
  cases node
  rfl

/-- The nodes of the expression are those from before, numbered anew. -/
theorem preorder_renumber_both :
    (forall node : Node, (node.renumber number).preorder = node.preorder.map (renumber number)) ∧
      forall nodes : List Node,
        preorderAll (renumberAll number nodes) = (preorderAll nodes).map (renumber number) := by
  refine induction_both ?_ rfl ?_
  · intro handle kind children ih
    rw [renumber, preorder, preorder, ih, List.map_cons, renumber]
  · intro node rest head tail
    rw [renumberAll, preorderAll, preorderAll, head, tail, List.map_append]

theorem handles_renumber (node : Node) :
    (node.renumber number).handles = node.handles.map number := by
  rw [handles, handles, (preorder_renumber_both number).1, List.map_map, List.map_map]
  exact List.map_congr_left (fun inner _ => inner.handle_renumber number)

/-- A copy numbers the nodes as any function does that goes up by one from each
node to the next. -/
theorem copy_eq_both :
    (forall (node : Node) (first : Handle),
      node.handles.map number = List.range' first node.size ->
        node.copy first = (node.renumber number, first + node.size)) ∧
      forall (nodes : List Node) (first : Handle),
        (nodes.flatMap handles).map number = List.range' first (nodes.flatMap handles).length ->
          copyAll first nodes =
            (renumberAll number nodes, first + (nodes.flatMap handles).length) := by
  refine induction_both ?_ (fun _ _ => rfl) ?_
  · intro handle kind children ih first numbered
    rw [handles_mk, size_mk, List.map_cons, List.range'_succ] at numbered
    rcases List.cons.inj numbered with ⟨top, below⟩
    rw [copy, ih (first + 1) below, renumber, top, size_mk, Nat.add_right_comm]
    rfl
  · intro node rest head tail first numbered
    rw [List.flatMap_cons, List.map_append, List.length_append, ← List.range'_append_1] at numbered
    rcases List.append_inj numbered (by simp) with ⟨here, later⟩
    rw [length_handles] at here later
    rw [copyAll, head first here, tail (first + node.size) later, renumberAll, List.flatMap_cons,
      List.length_append, length_handles, Nat.add_assoc]

/-- The number of a node of a copy: the first new handle, and the place of the node in
pre-order after that. -/
def numberFrom (first : Handle) (node : Node) : Handle -> Handle :=
  fun handle => first + node.handles.idxOf handle

theorem map_numberFrom {node : Node} (distinct : node.handles.Nodup) (first : Handle) :
    node.handles.map (node.numberFrom first) = List.range' first node.size := by
  refine List.ext_getElem ?_ (fun place bound _ => ?_)
  · rw [List.length_map, length_handles, List.length_range']
  · rw [List.length_map] at bound
    rw [List.getElem_map, List.getElem_range', numberFrom, distinct.idxOf_getElem place bound,
      Nat.one_mul]

theorem copy_eq {node : Node} (distinct : node.handles.Nodup) (first : Handle) :
    node.copy first = (node.renumber (node.numberFrom first), first + node.size) :=
  (copy_eq_both _).1 node first (map_numberFrom distinct first)

/-- The node at a place in pre-order gets the number of that place. -/
theorem numberFrom_of_getElem? {node inner : Node} (distinct : node.handles.Nodup) {place : Nat}
    (found : node.preorder[place]? = some inner) (first : Handle) :
    node.numberFrom first inner.handle = first + place := by
  have listed : node.handles[place]? = some inner.handle := by
    rw [handles, List.getElem?_map, found]
    rfl
  rcases List.getElem?_eq_some_iff.mp listed with ⟨bound, same⟩
  rw [numberFrom, ← same, distinct.idxOf_getElem place bound]

end Node

/-! ## Copies in an arena -/

namespace Arena

variable {arena later : Arena} {size : Nat} {trees : List Node}

/-- An arena that stores more expressions has the same cells for those it had. -/
theorem Stores.cell?_congr {more : Nat} {added : List Node}
    (stored : arena.Stores ⟨size, trees⟩) (kept : later.Stores ⟨more, added ++ trees⟩)
    {node : Handle} (bound : node < arena.size) : later.cell? node = arena.cell? node := by
  rw [stored.size] at bound
  rcases stored.locate bound with ⟨inner, path, same, member⟩
  rw [← same, stored.cell?_eq inner path member,
    kept.cell?_eq inner path (List.mem_append_right _ member)]

/-- From every node of a well-formed arena, copying comes to an end.  The answer is the
first new handle, and there is one new node for each node below the copied one.  The
copy of the node that stands at a place in pre-order has the handle that stands at
that place among the new ones, and its expression is that of the node with the new
handles.  The copy stands alone, and all nodes that were there keep their cells.  The
arena is taken to have room for the copy. -/
theorem duplicate_copies {arena : Arena} (wellFormed : arena.WellFormed) {root : Handle}
    (bound : root < arena.size) :
    Exists fun tree : Node => arena.Reads root tree ∧
      root.preorder.run.run arena = some (.ok tree.handles, arena) ∧
      Exists fun later : Arena =>
        root.duplicate.run.run arena = some (.ok arena.size, later) ∧ later.WellFormed ∧
        later.size = arena.size + tree.size ∧
        (forall place inner, tree.preorder[place]? = some inner ->
          later.Reads (arena.size + place) (inner.renumber (tree.numberFrom arena.size))) ∧
        (Handle.preorder arena.size).run.run later =
          some (.ok (List.range' arena.size tree.size), later) ∧
        later.StandsAlone arena.size ∧
        forall node, node < arena.size -> later.cell? node = arena.cell? node := by
  rcases wellFormed.exists_place bound with ⟨tree, path, rest, same, stored⟩
  subst same
  have member : tree.climb path ∈ tree.climb path :: rest := List.mem_cons_self
  -- What is copied here is numbered anew, for no handle is met twice below the node.
  have distinct := Node.nodup_of_climb (stored.tree_nodup member)
  have copied := duplicate_yields tree path arena.size _ member
  rw [Node.copy_eq distinct] at copied
  rcases copied arena stored with ⟨later, run, kept, _⟩
  let copy := tree.renumber (tree.numberFrom arena.size)
  have top : copy.climb [] ∈ copy :: tree.climb path :: rest := List.mem_cons_self
  have numbered : copy.handles = List.range' arena.size tree.size :=
    (tree.handles_renumber _).trans (Node.map_numberFrom distinct arena.size)
  have isFirst : copy.handle = arena.size := by
    have first : tree.preorder[0]? = some tree := by
      cases tree
      rfl
    rw [Node.handle_renumber, Node.numberFrom_of_getElem? distinct first, Nat.add_zero]
  refine ⟨tree, stored.reads member, run_eq_of_yields stored (preorder_yields member), later, run,
    kept.wellFormed, kept.size, fun place inner found => ?_, ?_, ?_, fun node isOld => ?_⟩
  · have within : inner.renumber (tree.numberFrom arena.size) ∈ copy.preorder := by
      rw [(Node.preorder_renumber_both _).1]
      exact List.mem_map_of_mem (List.mem_of_getElem? found)
    rcases climb_mem_of_preorder top within with ⟨up, here⟩
    rw [← Node.numberFrom_of_getElem? distinct found, ← Node.handle_renumber (tree.numberFrom _)]
    exact kept.reads here
  · rw [← numbered, ← isFirst]
    exact run_eq_of_yields kept (preorder_yields top)
  · rw [← isFirst]
    exact kept.standsAlone List.mem_cons_self
  · have added : later.Stores ⟨arena.size + tree.size, [copy] ++ tree.climb path :: rest⟩ := kept
    exact stored.cell?_congr added isOld

/-- A conjunction that is the operand of a negation, and that has a negation and a
variable as its operands. -/
theorem duplicate_copies_attached :
    let first : Kind := .var ⟨0, 1⟩
    let second : Kind := .var ⟨2, 3⟩
    let arena : Arena := ⟨#[⟨first, some 2, none, none, none, none⟩,
      ⟨.and, some 4, some 2, some 3, none, none⟩, ⟨.not, some 1, some 0, some 0, none, some 3⟩,
      ⟨second, some 1, none, none, some 2, none⟩, ⟨.not, none, some 1, some 1, none, none⟩]⟩
    Exists fun later : Arena => (Handle.duplicate 1).run.run arena = some (.ok 5, later) ∧
      later.size = 9 ∧
      later.Reads 5 (.mk 5 .and [.mk 6 .not [.mk 7 first []], .mk 8 second []]) ∧
      later.cell? 1 = arena.cell? 1 := by
  intro first second arena
  let tree : Node := .mk 1 .and [.mk 2 .not [.mk 0 first []], .mk 3 second []]
  have stored : arena.Stores ⟨5, [.mk 4 .not [tree]]⟩ := ⟨⟨by decide, by decide⟩, rfl⟩
  have place : tree.climb [⟨4, .not, [], []⟩] ∈ [.mk 4 .not [tree]] := List.mem_cons_self
  rcases duplicate_copies stored.wellFormed (by decide : 1 < arena.size) with
    ⟨read, reads, _, later, run, _, grown, copies, _, _, kept⟩
  have isTree : read = tree := reads.unique (stored.reads place)
  subst isTree
  exact ⟨later, run, grown, copies 0 tree rfl, kept 1 (by decide)⟩

end Arena

end PlanningDomain
