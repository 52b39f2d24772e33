import Mathlib.Data.Fintype.Card
import Mathlib.Data.Fintype.EquivFin
import PlanningDomain.Proofs.Arena.WellFormed

namespace PlanningDomain

/-!
# The expressions of a well-formed arena

Every well-formed arena stores some expressions.  They are put together from
the leaves on, which comes to an end because the arena is finite and no node is
above itself.  Two of them have no node in common.  From a common node
the links upwards would lead to the topmost nodes of both, and these links do
not branch.

So whatever is shown of arenas that store expressions holds of all well-formed
arenas, and their links need not be looked at again.
-/

namespace Arena

/-- The expression is what the links below its topmost node say. -/
inductive Shows (arena : Arena) : Node -> Prop where
  | mk {handle : Handle} {kind : Kind} {children : List Node} {found : Cell} :
      arena.cell? handle = some found -> found.kind = kind ->
      (children.map Node.handle).Nodup ->
      arena.Follows Cell.next found.first (children.map Node.handle) ->
      arena.Follows Cell.previous found.last (children.map Node.handle).reverse ->
      (forall child, child ∈ children.map Node.handle ↔ arena.Below child handle) ->
      (forall child, child ∈ children -> arena.Shows child) ->
      arena.Shows (.mk handle kind children)

namespace Follows

variable {arena : Arena} {link : Cell -> Link}

/-- What the cell of a node in the middle says about the one after it. -/
theorem after_middle {before after : List Handle} {node : Handle} :
    forall {start : Link}, arena.Follows link start (before ++ node :: after) ->
      Exists fun found : Cell => arena.cell? node = some found ∧ link found = after.head? := by
  induction before with
  | nil =>
      intro start follows
      cases follows with
      | step look rest => exact ⟨_, look, rest.head_eq.symm⟩
  | cons first before ih =>
      intro start follows
      cases follows with
      | step look rest => exact ih rest

end Follows

/-! ## The cells of an expression -/

namespace Shows

variable {arena : Arena}

theorem cellsAll {handle : Handle} {children : List Node} {first last : Link}
    (next : arena.Follows Cell.next first (children.map Node.handle))
    (previous : arena.Follows Cell.previous last (children.map Node.handle).reverse)
    (below : forall child, child ∈ children.map Node.handle ↔ arena.Below child handle)
    (each : forall child, child ∈ children -> forall found, arena.cell? child.handle = some found ->
      forall entry, entry ∈ child.cells found.parent found.previous found.next ->
        arena.cell? entry.1 = some entry.2) :
    forall right left : List Node, left ++ right = children ->
      forall entry, entry ∈ Node.cellsAll handle (left.getLast?.map Node.handle) none right ->
        arena.cell? entry.1 = some entry.2 := by
  intro right
  induction right with
  | nil => exact fun _ _ _ impossible => (List.not_mem_nil impossible).elim
  | cons node rest ih =>
      intro left split entry member
      rw [Node.cellsAll] at member
      have isChild : node ∈ children := split ▸ List.mem_append_right _ List.mem_cons_self
      rcases List.mem_append.mp member with here | later
      · rw [← split, List.map_append, List.map_cons] at next previous
        rw [List.reverse_append, List.reverse_cons, List.append_assoc, List.singleton_append]
          at previous
        rcases next.after_middle with ⟨found, look, isNext⟩
        rcases previous.after_middle with ⟨again, lookAgain, isPrevious⟩
        rw [look] at lookAgain
        rw [← Option.some.inj lookAgain, List.head?_reverse, List.getLast?_map] at isPrevious
        rcases (below node.handle).mp (List.mem_map_of_mem isChild) with
          ⟨third, lookThird, isParent⟩
        rw [look] at lookThird
        rw [← Option.some.inj lookThird] at isParent
        apply each node isChild found look entry
        rw [isNext, isPrevious, isParent, List.head?_map]
        rw [Option.or_none] at here
        exact here
      · refine ih (left ++ [node]) ?_ entry ?_
        · rw [List.append_assoc]
          exact split
        · rw [List.getLast?_concat]
          exact later

/-- The cells of an expression are those of the arena. -/
theorem cells (tree : Node) :
    arena.Shows tree -> forall found, arena.cell? tree.handle = some found ->
      forall entry, entry ∈ tree.cells found.parent found.previous found.next ->
        arena.cell? entry.1 = some entry.2 := by
  induction tree using Node.induction with
  | step handle kind children ih =>
      intro shown found look entry member
      cases shown with
      | mk lookHere sameKind distinct next previous below each =>
          rw [Node.handle_mk, lookHere] at look
          have same := Option.some.inj look
          subst same
          rw [Node.cells] at member
          rcases List.mem_cons.mp member with top | lower
          · have first := next.head_eq
            have last := previous.head_eq
            rw [List.head?_map] at first
            rw [List.head?_reverse, List.getLast?_map] at last
            rw [top, first, last, ← sameKind]
            exact lookHere
          · exact cellsAll next previous below
              (fun child isChild => ih child isChild (each child isChild))
              children [] rfl entry lower

/-! ## Nodes above and below -/

/-- Every node of an expression is below its topmost node. -/
theorem below_top (tree : Node) :
    arena.Shows tree -> forall handle, handle ∈ tree.handles ->
      Relation.ReflTransGen arena.Below handle tree.handle := by
  induction tree using Node.induction with
  | step top kind children ih =>
      intro shown handle member
      cases shown with
      | mk lookHere sameKind distinct next previous below each =>
          rw [Node.handles_mk] at member
          rcases List.mem_cons.mp member with same | lower
          · exact same ▸ .refl
          · rcases List.mem_flatMap.mp lower with ⟨child, isChild, within⟩
            exact (ih child isChild (each child isChild) handle within).tail
              ((below child.handle).mp (List.mem_map_of_mem isChild))

/-- An expression has all nodes below each of its nodes. -/
theorem mem_of_below (tree : Node) :
    arena.Shows tree -> forall upper, upper ∈ tree.handles -> forall lower,
      arena.Below lower upper -> lower ∈ tree.handles := by
  induction tree using Node.induction with
  | step top kind children ih =>
      intro shown upper member lower isBelow
      cases shown with
      | mk lookHere sameKind distinct next previous below each =>
          rw [Node.handles_mk] at member ⊢
          apply List.mem_cons_of_mem _
          rcases List.mem_cons.mp member with same | within
          · subst same
            rcases List.mem_map.mp ((below lower).mpr isBelow) with ⟨child, isChild, same⟩
            exact List.mem_flatMap.mpr ⟨child, isChild, same ▸ child.handle_mem_handles⟩
          · rcases List.mem_flatMap.mp within with ⟨child, isChild, inChild⟩
            exact List.mem_flatMap.mpr
              ⟨child, isChild, ih child isChild (each child isChild) upper inChild lower isBelow⟩

end Shows

/-- The links upwards do not branch. -/
theorem below_rightUnique (arena : Arena) : Relator.RightUnique arena.Below := by
  intro child first second toFirst toSecond
  rcases toFirst with ⟨found, look, parent⟩
  rcases toSecond with ⟨again, lookAgain, parentAgain⟩
  rw [look] at lookAgain
  rw [← Option.some.inj lookAgain, parent] at parentAgain
  exact Option.some.inj parentAgain

namespace WellFormed

variable {arena : Arena}

/-- Two expressions with a common node stand one below the other. -/
theorem comparable {first second : Node} (shownFirst : arena.Shows first)
    (shownSecond : arena.Shows second) {handle : Handle} (inFirst : handle ∈ first.handles)
    (inSecond : handle ∈ second.handles) :
    Relation.ReflTransGen arena.Below first.handle second.handle ∨
      Relation.ReflTransGen arena.Below second.handle first.handle :=
  Relation.ReflTransGen.total_of_right_unique arena.below_rightUnique
    (shownFirst.below_top first handle inFirst) (shownSecond.below_top second handle inSecond)

/-- No sibling of a node is above or below it. -/
theorem siblings_separate (wellFormed : arena.WellFormed) {first second parent : Handle}
    (belowFirst : arena.Below first parent) (belowSecond : arena.Below second parent)
    (different : first ≠ second) : ¬ Relation.ReflTransGen arena.Below first second := by
  intro chain
  rcases Relation.ReflTransGen.cases_head chain with same | ⟨middle, step, rest⟩
  · exact different same
  · rw [arena.below_rightUnique step belowFirst] at rest
    exact wellFormed.acyclic parent (Relation.TransGen.tail' rest belowSecond)

/-- No node occurs twice in an expression. -/
theorem nodup_handles (wellFormed : arena.WellFormed) (tree : Node) :
    arena.Shows tree -> tree.handles.Nodup := by
  induction tree using Node.induction with
  | step handle kind children ih =>
      intro shown
      cases shown with
      | mk lookHere sameKind distinct next previous below each =>
          have belowHere : forall child, child ∈ children -> arena.Below child.handle handle :=
            fun child isChild => (below child.handle).mp (List.mem_map_of_mem isChild)
          rw [Node.handles_mk, List.nodup_cons, List.nodup_flatMap]
          refine ⟨fun member => ?_, fun child isChild => ih child isChild (each child isChild), ?_⟩
          · rcases List.mem_flatMap.mp member with ⟨child, isChild, within⟩
            exact wellFormed.acyclic handle (Relation.TransGen.tail'
              ((each child isChild).below_top child handle within) (belowHere child isChild))
          · refine (List.pairwise_map.mp distinct).imp_of_mem (fun isFirst isSecond different => ?_)
            intro common inFirst inSecond
            rcases comparable (each _ isFirst) (each _ isSecond) inFirst inSecond with up | down
            · exact wellFormed.siblings_separate (belowHere _ isFirst) (belowHere _ isSecond)
                different up
            · exact wellFormed.siblings_separate (belowHere _ isSecond) (belowHere _ isFirst)
                different.symm down

/-! ## All expressions -/

/-- The links upwards come to an end in both directions. -/
theorem wellFounded_below (wellFormed : arena.WellFormed) :
    WellFounded (fun first second : Fin arena.size =>
      Relation.TransGen arena.Below first.val second.val) := by
  have transitive : IsTrans (Fin arena.size) (fun first second =>
      Relation.TransGen arena.Below first.val second.val) :=
    ⟨fun _ _ _ first second => first.trans second⟩
  have irreflexive : Std.Irrefl (fun first second : Fin arena.size =>
      Relation.TransGen arena.Below first.val second.val) :=
    ⟨fun node cycle => wellFormed.acyclic node.val cycle⟩
  exact Finite.wellFounded_of_trans_of_irrefl _

theorem wellFounded_above (wellFormed : arena.WellFormed) :
    WellFounded (fun first second : Fin arena.size =>
      Relation.TransGen arena.Below second.val first.val) := by
  have transitive : IsTrans (Fin arena.size) (fun first second =>
      Relation.TransGen arena.Below second.val first.val) :=
    ⟨fun _ _ _ first second => second.trans first⟩
  have irreflexive : Std.Irrefl (fun first second : Fin arena.size =>
      Relation.TransGen arena.Below second.val first.val) :=
    ⟨fun node cycle => wellFormed.acyclic node.val cycle⟩
  exact Finite.wellFounded_of_trans_of_irrefl _

theorem exists_cell {node : Handle} (bound : node < arena.size) :
    Exists fun found : Cell => arena.cell? node = some found :=
  ⟨arena.cells[node], Array.getElem?_eq_some_iff.mpr ⟨bound, rfl⟩⟩

theorem below_lt {child parent : Handle} (wellFormed : arena.WellFormed)
    (below : arena.Below child parent) : child < arena.size ∧ parent < arena.size := by
  rcases below with ⟨found, look, isParent⟩
  exact ⟨cell?_lt look, wellFormed.bounded child found look parent (Or.inl isParent)⟩

/-- Expressions with given topmost nodes. -/
theorem exists_trees (handles : List Handle)
    (each : forall handle, handle ∈ handles ->
      Exists fun tree : Node => tree.handle = handle ∧ arena.Shows tree) :
    Exists fun trees : List Node =>
      trees.map Node.handle = handles ∧ forall tree, tree ∈ trees -> arena.Shows tree := by
  induction handles with
  | nil => exact ⟨[], rfl, fun _ impossible => (List.not_mem_nil impossible).elim⟩
  | cons handle rest ih =>
      rcases each handle List.mem_cons_self with ⟨tree, same, shown⟩
      rcases ih (fun other member => each other (List.mem_cons_of_mem _ member)) with
        ⟨trees, sames, all⟩
      refine ⟨tree :: trees, ?_, List.forall_mem_cons.mpr ⟨shown, all⟩⟩
      rw [List.map_cons, same, sames]

/-- Below every node there is an expression. -/
theorem exists_tree (wellFormed : arena.WellFormed) (node : Fin arena.size) :
    Exists fun tree : Node => tree.handle = node.val ∧ arena.Shows tree := by
  induction node using wellFormed.wellFounded_below.induction with
  | _ node ih =>
      rcases exists_cell node.isLt with ⟨found, look⟩
      rcases wellFormed.operands node found look with
        ⟨operands, distinct, next, last, previous, below⟩
      obtain ⟨children, handles, shown⟩ := exists_trees operands
        (fun child member => by
          have isBelow := (below child).mp member
          exact ih ⟨child, (wellFormed.below_lt isBelow).1⟩ (.single isBelow))
      subst handles
      exact ⟨.mk node found.kind children, rfl, .mk look rfl distinct next previous below shown⟩

theorem lt_of_mem_handles (wellFormed : arena.WellFormed) {tree : Node} (shown : arena.Shows tree)
    {handle : Handle} (member : handle ∈ tree.handles) : handle < arena.size := by
  rcases Relation.ReflTransGen.cases_head (shown.below_top tree handle member) with
    same | ⟨middle, step, _⟩
  · cases shown with
    | mk look _ _ _ _ _ _ => exact same ▸ cell?_lt look
  · exact (wellFormed.below_lt step).1

/-- Expressions whose topmost nodes are different and detached have no node in
common. -/
theorem nodup_tops (wellFormed : arena.WellFormed) {trees : List Node}
    (shown : forall tree, tree ∈ trees -> arena.Shows tree)
    (distinct : (trees.map Node.handle).Nodup)
    (top : forall tree, tree ∈ trees -> Exists fun found : Cell =>
      arena.cell? tree.handle = some found ∧ found.parent = none) :
    (trees.flatMap Node.handles).Nodup := by
  have separate : forall first second : Node, first ∈ trees -> first.handle ≠ second.handle ->
      ¬ Relation.ReflTransGen arena.Below first.handle second.handle := by
    intro first second isTree different chain
    rcases Relation.ReflTransGen.cases_head chain with same | ⟨middle, step, _⟩
    · exact different same
    · rcases top first isTree with ⟨found, look, alone⟩
      rcases step with ⟨again, lookAgain, parent⟩
      rw [look] at lookAgain
      rw [← Option.some.inj lookAgain, alone] at parent
      exact Option.some_ne_none _ parent.symm
  rw [List.nodup_flatMap]
  refine ⟨fun tree isTree => wellFormed.nodup_handles tree (shown tree isTree), ?_⟩
  refine (List.pairwise_map.mp distinct).imp_of_mem (fun isFirst isSecond different => ?_)
  intro common inFirst inSecond
  rcases comparable (shown _ isFirst) (shown _ isSecond) inFirst inSecond with up | down
  · exact separate _ _ isFirst different up
  · exact separate _ _ isSecond different.symm down

/-- Every node is in an expression whose topmost node is detached. -/
theorem mem_tops (wellFormed : arena.WellFormed) {trees : List Node}
    (shown : forall tree, tree ∈ trees -> arena.Shows tree)
    (complete : forall node, node < arena.size -> (arena.cell? node).map Cell.parent = some none ->
      Exists fun tree : Node => tree ∈ trees ∧ tree.handle = node)
    (node : Fin arena.size) :
    Exists fun tree : Node => tree ∈ trees ∧ node.val ∈ tree.handles := by
  induction node using wellFormed.wellFounded_above.induction with
  | _ node ih =>
      rcases exists_cell node.isLt with ⟨found, look⟩
      cases parent : found.parent with
      | none =>
          rcases complete node.val node.isLt (by rw [look, ← parent]; rfl) with ⟨tree, isTree, same⟩
          exact ⟨tree, isTree, same ▸ tree.handle_mem_handles⟩
      | some above =>
          have below : arena.Below node.val above := ⟨found, look, parent⟩
          rcases ih ⟨above, (wellFormed.below_lt below).2⟩ (.single below) with
            ⟨tree, isTree, within⟩
          exact ⟨tree, isTree, (shown tree isTree).mem_of_below tree above within node.val below⟩

/-- Every well-formed arena stores some expressions. -/
theorem exists_stores (wellFormed : arena.WellFormed) :
    Exists fun trees : List Node => arena.Stores ⟨arena.size, trees⟩ := by
  let isTop : Handle -> Bool := fun node =>
    decide ((arena.cell? node).map Cell.parent = some none)
  let tops := (List.range arena.size).filter isTop
  obtain ⟨trees, handles, shown⟩ := exists_trees tops (fun node member =>
    wellFormed.exists_tree ⟨node, List.mem_range.mp (List.mem_filter.mp member).1⟩)
  have distinct : (trees.map Node.handle).Nodup := by
    rw [handles]
    exact List.nodup_range.filter _
  have top : forall tree, tree ∈ trees -> Exists fun found : Cell =>
      arena.cell? tree.handle = some found ∧ found.parent = none := by
    intro tree isTree
    have listed : tree.handle ∈ tops := handles ▸ List.mem_map_of_mem isTree
    exact Option.map_eq_some_iff.mp (of_decide_eq_true (List.mem_filter.mp listed).2)
  refine ⟨trees, ⟨?_, ?_⟩, rfl⟩
  · intro entry member
    rcases List.mem_flatMap.mp member with ⟨tree, isTree, within⟩
    rcases top tree isTree with ⟨found, look, alone⟩
    rcases wellFormed.detached tree.handle found look alone with ⟨noPrevious, noNext⟩
    apply (shown tree isTree).cells tree found look entry
    rw [alone, noPrevious, noNext]
    exact within
  · have listed : (Forest.cells ⟨arena.size, trees⟩).map Prod.fst = trees.flatMap Node.handles := by
      rw [Forest.cells, List.map_flatMap]
      congr 1
      funext tree
      exact tree.map_fst_cells none none none
    rw [listed]
    refine (List.perm_ext_iff_of_nodup ?_ List.nodup_range).mpr (fun node => ?_)
    · exact wellFormed.nodup_tops shown distinct top
    · rw [List.mem_range]
      constructor
      · intro member
        rcases List.mem_flatMap.mp member with ⟨tree, isTree, within⟩
        exact wellFormed.lt_of_mem_handles (shown tree isTree) within
      · intro bound
        have all := wellFormed.mem_tops shown (fun node bound alone => ?_) ⟨node, bound⟩
        · rcases all with ⟨tree, isTree, within⟩
          exact List.mem_flatMap.mpr ⟨tree, isTree, within⟩
        · have isTop : node ∈ tops :=
            List.mem_filter.mpr ⟨List.mem_range.mpr bound, decide_eq_true alone⟩
          rw [← handles] at isTop
          exact List.mem_map.mp isTop

end WellFormed

/-- The well-formed arenas are those that store some expressions. -/
theorem wellFormed_iff_stores (arena : Arena) :
    arena.WellFormed ↔ Exists fun trees : List Node => arena.Stores ⟨arena.size, trees⟩ := by
  constructor
  · exact WellFormed.exists_stores
  · intro ⟨trees, stored⟩
    exact stored.wellFormed

end Arena

end PlanningDomain
