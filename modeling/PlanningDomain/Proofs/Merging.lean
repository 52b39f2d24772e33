import PlanningDomain.Proofs.Arena.Lists

namespace PlanningDomain

/-!
# Merging, node by node

Merging rebuilds an expression from its top to its leaves, while the nodes that are
merged away lose their places.  Afterwards every node can still be told from the
arena as it was before.  A node that has the connective of the node above it has
given way, and stands alone without operands.  A connective that remains has the
operands that it had, with those that gave way replaced by what they had
themselves, to any depth.  All other nodes of the arena have the operands that they
had.

Nothing is said here about the order in which the nodes are visited.  The list of
operands that a connective gets is described on the links from before, so it does
not matter what has been merged when the walk comes to the connective.
-/

namespace Node

/-! ## What remains of an expression -/

/-- What stands below a merged expression are the merged expressions of nodes that
stood below it. -/
theorem exists_of_mem_flatten :
    (forall node kept : Node, kept ∈ node.flatten.preorder ->
      Exists fun inner : Node => inner ∈ node.preorder ∧ kept = inner.flatten) ∧
    forall (nodes : List Node) (outer : Kind) (kept : Node),
      kept ∈ preorderAll (mergeAll outer nodes) ->
        Exists fun inner : Node => inner ∈ preorderAll nodes ∧ kept = inner.flatten := by
  refine induction_both ?_ (fun _ _ impossible => (List.not_mem_nil impossible).elim) ?_
  · intro handle kind children ih kept member
    rw [flatten, preorder] at member
    rcases List.mem_cons.mp member with top | below
    · exact ⟨mk handle kind children, List.mem_cons_self, top⟩
    · rcases ih kind kept below with ⟨inner, within, same⟩
      exact ⟨inner, List.mem_cons_of_mem _ within, same⟩
  · intro node rest head tail outer kept member
    rcases node with ⟨handle, kind, children⟩
    rw [mergeAll, preorderAll_eq_flatMap, List.flatMap_append, ← preorderAll_eq_flatMap,
      ← preorderAll_eq_flatMap] at member
    rw [preorderAll]
    rcases List.mem_append.mp member with first | later
    · have within : kept ∈ (mk handle kind children).flatten.preorder := by
        rw [mergeInto] at first
        by_cases absorbed : outer.absorbs kind = true
        · rw [if_pos absorbed] at first
          exact List.mem_cons_of_mem _ first
        · rw [if_neg absorbed, preorderAll, preorderAll, List.append_nil] at first
          exact first
      rcases head kept within with ⟨inner, inside, same⟩
      exact ⟨inner, List.mem_append_left _ inside, same⟩
    · rcases tail outer kept later with ⟨inner, inside, same⟩
      exact ⟨inner, List.mem_append_right _ inside, same⟩

/-- The operands of a merged expression are those that are left once its operands
are spliced. -/
theorem map_handle_children_flatten (node : Node) :
    node.flatten.children.map handle = (spliceAll node.kind node.children).map handle := by
  rcases node with ⟨top, kind, children⟩
  rw [flatten, children_mk, merge_eq.2, List.map_map]
  exact List.map_congr_left (fun inner _ => inner.handle_flatten)

/-! ## What is left over -/

theorem mem_shellsAll {outer : Kind} {shell : Node} {nodes : List Node} :
    shell ∈ shellsAll outer nodes ↔ Exists fun node : Node => node ∈ nodes ∧
      (outer.absorbs node.kind = true ∧ shell = mk node.handle node.kind [] ∨
        shell ∈ node.shells) := by
  induction nodes with
  | nil =>
      refine ⟨fun impossible => (List.not_mem_nil impossible).elim, fun ⟨_, impossible, _⟩ => ?_⟩
      exact (List.not_mem_nil impossible).elim
  | cons node rest ih =>
      have here : shell ∈ node.shellsInto outer ↔
          outer.absorbs node.kind = true ∧ shell = mk node.handle node.kind [] ∨
            shell ∈ node.shells := by
        rcases node with ⟨handle, kind, children⟩
        rw [shellsInto, shells, kind_mk, handle_mk]
        by_cases absorbed : outer.absorbs kind = true
        · rw [if_pos absorbed, List.mem_cons, and_iff_right absorbed]
        · rw [if_neg absorbed, or_iff_right (fun both => absorbed both.1)]
      rw [shellsAll, List.mem_append, ih, here]
      constructor
      · rintro (first | ⟨other, isOther, later⟩)
        · exact ⟨node, List.mem_cons_self, first⟩
        · exact ⟨other, List.mem_cons_of_mem _ isOther, later⟩
      · rintro ⟨other, isOther, found⟩
        rcases List.mem_cons.mp isOther with same | later
        · exact Or.inl (same ▸ found)
        · exact Or.inr ⟨other, later, found⟩

/-- Every operand that has the connective of the node above it is left over, and
nothing else is. -/
theorem mem_shells (node shell : Node) :
    shell ∈ node.shells ↔ Exists fun inner : Node => inner ∈ node.preorder ∧
      Exists fun child : Node => child ∈ inner.children ∧
        inner.kind.absorbs child.kind = true ∧ shell = mk child.handle child.kind [] := by
  induction node using Node.induction with
  | step handle kind children ih =>
      rw [shells, mem_shellsAll, preorder, preorderAll_eq_flatMap]
      constructor
      · rintro ⟨child, isChild, ⟨absorbed, same⟩ | below⟩
        · exact ⟨mk handle kind children, List.mem_cons_self, child, isChild, absorbed, same⟩
        · rcases (ih child isChild).mp below with ⟨inner, within, found⟩
          exact ⟨inner, List.mem_cons_of_mem _ (List.mem_flatMap.mpr ⟨child, isChild, within⟩),
            found⟩
      · rintro ⟨inner, within, child, isChild, absorbed, same⟩
        rcases List.mem_cons.mp within with top | below
        · subst top
          exact ⟨child, isChild, Or.inl ⟨absorbed, same⟩⟩
        · rcases List.mem_flatMap.mp below with ⟨upper, isUpper, inside⟩
          exact ⟨upper, isUpper,
            Or.inr ((ih upper isUpper).mpr ⟨inner, inside, child, isChild, absorbed, same⟩)⟩

/-- Every node remains or is left over. -/
theorem handles_flatten_perm :
    (forall node : Node,
      (node.flatten.handles ++ node.shells.map handle).Perm node.handles) ∧
    forall (nodes : List Node) (outer : Kind),
      ((mergeAll outer nodes).flatMap handles ++ (shellsAll outer nodes).map handle).Perm
        (nodes.flatMap handles) := by
  refine induction_both ?_ (fun _ => List.Perm.refl _) ?_
  · intro handle kind children ih
    rw [flatten, shells, handles_mk, handles_mk]
    exact (ih kind).cons handle
  · intro node rest head tail outer
    have here : ((node.mergeInto outer).flatMap handles ++
        (node.shellsInto outer).map handle).Perm node.handles := by
      refine List.Perm.trans ?_ head
      rcases node with ⟨handle, kind, children⟩
      rw [mergeInto, shellsInto, flatten, shells, handles_mk]
      by_cases absorbed : outer.absorbs kind = true
      · rw [if_pos absorbed, if_pos absorbed]
        exact List.perm_middle
      · rw [if_neg absorbed, if_neg absorbed, List.flatMap_singleton, handles_mk]
    rw [mergeAll, shellsAll, List.flatMap_append, List.map_append, List.flatMap_cons]
    refine List.Perm.trans (perm_of_counts (fun entry => ?_)) (here.append (tail outer))
    simp only [List.count_append]
    omega

end Node

namespace Arena

/-! ## Merging by the links -/

/-- The arena has a node of that kind. -/
def IsOf (arena : Arena) (node : Handle) (kind : Kind) : Prop :=
  Exists fun found : Cell => arena.cell? node = some found ∧ found.kind = kind

theorem IsOf.unique {arena : Arena} {node : Handle} {first second : Kind}
    (isFirst : arena.IsOf node first) (isSecond : arena.IsOf node second) : first = second := by
  rcases isFirst with ⟨found, look, same⟩
  rcases isSecond with ⟨again, lookAgain, sameAgain⟩
  rw [look] at lookAgain
  rw [← same, ← sameAgain, Option.some.inj lookAgain]

/-- The operands that stand for some operands of a node of the given kind once all
operands of that kind have given way to their own, to any depth. -/
inductive Splices (arena : Arena) (outer : Kind) : List Handle -> List Handle -> Prop where
  | nil : Splices arena outer [] []
  | keep {node : Handle} {kind : Kind} {rest spliced : List Handle} :
      arena.IsOf node kind -> kind ≠ outer -> Splices arena outer rest spliced ->
      Splices arena outer (node :: rest) (node :: spliced)
  | merge {node : Handle} {operands inner rest spliced : List Handle} :
      arena.IsOf node outer -> arena.Lists node operands -> Splices arena outer operands inner ->
      Splices arena outer rest spliced -> Splices arena outer (node :: rest) (inner ++ spliced)

theorem Splices.unique {arena : Arena} {outer : Kind} {operands first second : List Handle}
    (splices : arena.Splices outer operands first) (again : arena.Splices outer operands second) :
    first = second := by
  induction splices generalizing second with
  | nil =>
      cases again
      rfl
  | keep isKind different _ ih =>
      cases again with
      | keep _ _ rest => rw [ih rest]
      | merge isOuter _ _ _ => exact (different (isKind.unique isOuter)).elim
  | merge isOuter lists _ _ ihInner ih =>
      cases again with
      | keep isKind different _ => exact (different (isKind.unique isOuter)).elim
      | merge _ listsAgain inner rest =>
          rw [lists.unique listsAgain] at ihInner
          rw [ihInner inner, ih rest]

/-- A node of an expression that has the connective of the node above it, where that
node belongs to the expression too. -/
def GivesWay (arena : Arena) (tree : Node) (node : Handle) : Prop :=
  Exists fun parent : Handle => parent ∈ tree.handles ∧ arena.Below node parent ∧
    Exists fun symbol : Connective =>
      arena.IsOf node (.connective symbol) ∧ arena.IsOf parent (.connective symbol)

/-- From one arena to a later one with the same nodes, an expression has been merged,
and nothing else has changed. -/
structure Flattens (arena later : Arena) (tree result : Node) : Prop where
  wellFormed : later.WellFormed
  size : later.size = arena.size
  kinds : arena.Extends later
  handle : result.handle = tree.handle
  remains : forall node,
    node ∈ result.handles ↔ node ∈ tree.handles ∧ ¬ arena.GivesWay tree node
  merged : forall node symbol, node ∈ result.handles -> arena.IsOf node (.connective symbol) ->
    Exists fun operands : List Handle => Exists fun spliced : List Handle =>
      arena.Lists node operands ∧ arena.Splices (.connective symbol) operands spliced ∧
        later.Lists node spliced
  leftOver : forall node, arena.GivesWay tree node -> later.StandsAlone node ∧ later.Lists node []
  unchanged : forall node, node < arena.size -> ¬ arena.GivesWay tree node ->
    (node ∈ result.handles -> forall symbol, ¬ arena.IsOf node (.connective symbol)) ->
      Exists fun operands : List Handle => arena.Lists node operands ∧ later.Lists node operands

namespace Stores

variable {arena : Arena} {size : Nat} {trees : List Node}

theorem isOf (stored : arena.Stores ⟨size, trees⟩) {node : Node} {path : List Step}
    (member : node.climb path ∈ trees) : arena.IsOf node.handle node.kind :=
  ⟨_, stored.cell?_eq node path member, rfl⟩

/-- Splicing by the links is splicing in the expressions that are stored. -/
theorem splices (stored : arena.Stores ⟨size, trees⟩) (outer : Kind)
    (associative : outer.isAssociative = true) :
    (forall (node : Node) (path : List Step), node.climb path ∈ trees ->
      forall rest spliced : List Handle, arena.Splices outer rest spliced ->
        arena.Splices outer (node.handle :: rest)
          ((node.spliceInto outer).map Node.handle ++ spliced)) ∧
    forall nodes : List Node,
      (forall node, node ∈ nodes -> Exists fun path : List Step => node.climb path ∈ trees) ->
        arena.Splices outer (nodes.map Node.handle)
          ((Node.spliceAll outer nodes).map Node.handle) := by
  refine Node.induction_both ?_ (fun _ => .nil) ?_
  · intro handle kind children ih path member rest spliced others
    have here := stored.isOf member
    rw [Node.spliceInto]
    by_cases absorbed : outer.absorbs kind = true
    · rw [if_pos absorbed]
      have same := ((Kind.absorbs_iff outer kind).mp absorbed).2
      refine .merge (same ▸ here) (stored.lists member) (ih (fun child isChild => ?_)) others
      rcases climb_mem_of_child member isChild with ⟨step, below⟩
      exact ⟨step :: path, below⟩
    · rw [if_neg absorbed]
      exact .keep here (fun same => absorbed ((Kind.absorbs_iff _ _).mpr ⟨associative, same⟩))
        others
  · intro node rest head tail placed
    rcases placed node List.mem_cons_self with ⟨path, member⟩
    rw [List.map_cons, Node.spliceAll, List.map_append]
    exact head path member _ _
      (tail (fun other later => placed other (List.mem_cons_of_mem _ later)))

/-- The nodes that give way are those that are left over. -/
theorem givesWay_iff (stored : arena.Stores ⟨size, trees⟩) {tree : Node} {path : List Step}
    (member : tree.climb path ∈ trees) (node : Handle) :
    arena.GivesWay tree node ↔ node ∈ tree.shells.map Node.handle := by
  constructor
  · rintro ⟨parent, isParent, below, symbol, isNode, parentIs⟩
    rcases List.mem_map.mp isParent with ⟨inner, within, same⟩
    subst same
    rcases climb_mem_of_preorder member within with ⟨up, here⟩
    rcases List.mem_map.mp ((stored.mem_operands_iff here node).mpr below) with
      ⟨child, isChild, same⟩
    subst same
    rcases climb_mem_of_child here isChild with ⟨step, there⟩
    have absorbed : inner.kind.absorbs child.kind = true := by
      rw [(stored.isOf here).unique parentIs, (stored.isOf there).unique isNode]
      exact (Kind.absorbs_iff _ _).mpr ⟨rfl, rfl⟩
    exact List.mem_map.mpr ⟨.mk child.handle child.kind [],
      (tree.mem_shells _).mpr ⟨inner, within, child, isChild, absorbed, rfl⟩, rfl⟩
  · intro listed
    rcases List.mem_map.mp listed with ⟨shell, isShell, same⟩
    rcases (tree.mem_shells shell).mp isShell with
      ⟨inner, within, child, isChild, absorbed, isEmptied⟩
    subst isEmptied
    rw [Node.handle_mk] at same
    subst same
    rcases climb_mem_of_preorder member within with ⟨up, here⟩
    rcases climb_mem_of_child here isChild with ⟨step, there⟩
    rcases (Kind.absorbs_iff _ _).mp absorbed with ⟨associative, sameKind⟩
    rcases Kind.exists_connective associative with ⟨symbol, isSymbol⟩
    have below : arena.Below child.handle inner.handle :=
      (stored.mem_operands_iff here child.handle).mp (List.mem_map_of_mem isChild)
    exact ⟨inner.handle, List.mem_map_of_mem within, below, symbol,
      sameKind.trans isSymbol ▸ stored.isOf there, isSymbol ▸ stored.isOf here⟩

end Stores

section Merged

variable {arena later : Arena} {size : Nat} {tree : Node} {path : List Step} {rest : List Node}

/-- A node outside of the expression has the operands that it had. -/
theorem lists_outside_flatten
    (stored : arena.Stores ⟨size, tree.climb path :: rest⟩)
    (kept : later.Stores ⟨size, tree.flatten.climb path :: (tree.shells ++ rest)⟩) {node : Handle}
    (bound : node < size) (outside : node ∉ tree.handles) :
    Exists fun operands : List Handle => arena.Lists node operands ∧ later.Lists node operands := by
  rcases stored.locate_outside bound outside with ⟨entry, same, listed⟩
  subst same
  have before : entry ∈ (tree.climb path :: rest).flatMap (Node.entries none) :=
    (flatMap_entries_climb tree path rest).mem_iff.mpr (List.mem_append_right _ listed)
  have after : entry ∈ (tree.flatten.climb path :: (tree.shells ++ rest)).flatMap
      (Node.entries none) := by
    refine (flatMap_entries_climb tree.flatten path _).mem_iff.mpr (List.mem_append_right _ ?_)
    rw [Step.entriesOutside, tree.handle_flatten, List.flatMap_append]
    rcases List.mem_append.mp listed with around | beside
    · exact List.mem_append_left _ around
    · exact List.mem_append_right _ (List.mem_append_right _ beside)
  exact ⟨entry.operands, stored.lists_of_row (List.mem_map_of_mem (f := Entry.row) before),
    kept.lists_of_row (List.mem_map_of_mem (f := Entry.row) after)⟩

/-- The operands of a node that remains, before and after. -/
theorem lists_of_mem_flatten
    (kept : later.Stores ⟨size, tree.flatten.climb path :: (tree.shells ++ rest)⟩) {node : Handle}
    (remains : node ∈ tree.flatten.handles) :
    Exists fun inner : Node => Exists fun up : List Step => inner.handle = node ∧
      inner.climb up ∈ tree.climb path :: rest ∧
      later.Lists node ((Node.spliceAll inner.kind inner.children).map Node.handle) := by
  rcases List.mem_map.mp remains with ⟨found, within, same⟩
  rcases Node.exists_of_mem_flatten.1 tree found within with ⟨inner, inside, isMerged⟩
  rcases climb_mem_of_preorder List.mem_cons_self within with ⟨way, there⟩
  rcases climb_mem_of_preorder List.mem_cons_self inside with ⟨up, here⟩
  have lists := kept.lists there
  rw [isMerged, inner.map_handle_children_flatten] at lists
  rw [isMerged] at same
  rw [same] at lists
  exact ⟨inner, _, inner.handle_flatten.symm.trans same, here, lists⟩

theorem flattens_of_stores
    (stored : arena.Stores ⟨size, tree.climb path :: rest⟩)
    (kept : later.Stores ⟨size, tree.flatten.climb path :: (tree.shells ++ rest)⟩)
    (extended : arena.Extends later) : arena.Flattens later tree tree.flatten := by
  have givesWay := fun node => stored.givesWay_iff List.mem_cons_self node
  have remains : forall node, node ∈ tree.flatten.handles ↔
      node ∈ tree.handles ∧ ¬ arena.GivesWay tree node := by
    intro node
    have all := Node.handles_flatten_perm.1 tree
    have nodup := all.nodup_iff.mpr (Node.nodup_of_climb (stored.tree_nodup List.mem_cons_self))
    rw [givesWay, ← all.mem_iff, List.mem_append]
    constructor
    · intro inside
      exact ⟨Or.inl inside, fun left => (List.nodup_append.mp nodup).2.2 node inside node left rfl⟩
    · rintro ⟨inside | left, notLeft⟩
      · exact inside
      · exact (notLeft left).elim
  refine ⟨kept.wellFormed, kept.size.trans stored.size.symm, extended, tree.handle_flatten, remains,
    fun node symbol inside isSymbol => ?_, fun node left => ?_, fun node bound notLeft other => ?_⟩
  · rcases lists_of_mem_flatten kept inside with ⟨inner, up, same, here, lists⟩
    subst same
    rw [(stored.isOf here).unique isSymbol] at lists
    refine ⟨_, _, stored.lists here, (stored.splices (.connective symbol) rfl).2 inner.children ?_,
      lists⟩
    intro child isChild
    rcases climb_mem_of_child here isChild with ⟨step, below⟩
    exact ⟨step :: up, below⟩
  · rcases List.mem_map.mp ((givesWay node).mp left) with ⟨shell, isShell, same⟩
    rcases (tree.mem_shells shell).mp isShell with ⟨_, _, child, _, _, isEmptied⟩
    have there : shell ∈ tree.flatten.climb path :: (tree.shells ++ rest) :=
      List.mem_cons_of_mem _ (List.mem_append_left _ isShell)
    have lists := kept.lists (show shell.climb [] ∈ _ from there)
    rw [isEmptied] at lists same there
    subst same
    exact ⟨kept.standsAlone there, lists⟩
  · rw [stored.size] at bound
    by_cases within : node ∈ tree.handles
    · have inside := (remains node).mpr ⟨within, notLeft⟩
      rcases lists_of_mem_flatten kept inside with ⟨inner, up, same, here, lists⟩
      subst same
      have notAssociative : ¬ inner.kind.isAssociative = true := by
        intro associative
        rcases Kind.exists_connective associative with ⟨symbol, isSymbol⟩
        exact other inside symbol (isSymbol ▸ stored.isOf here)
      rw [(Node.spliceAll_of_not_associative notAssociative inner.children).1] at lists
      exact ⟨_, stored.lists here, lists⟩
    · exact lists_outside_flatten stored kept bound within

end Merged

/-- From every node of a well-formed arena, merging comes to an end, and no node is
added.  The nodes that have the connective of the node above them are set aside
without operands.  The connectives that remain have taken over the operands of those,
in place and to any depth, and all other nodes of the arena have the operands that
they had.  The expression is then flat, and merging it once more changes nothing. -/
theorem flatten_merges {arena : Arena} (wellFormed : arena.WellFormed) {root : Handle}
    (bound : root < arena.size) :
    Exists fun tree : Node => arena.Reads root tree ∧
      Exists fun later : Arena => root.flatten.run.run arena = some (.ok (), later) ∧
        Exists fun result : Node => later.Reads root result ∧ arena.Flattens later tree result ∧
          root.isFlat.run.run later = some (.ok true, later) ∧
          root.flatten.run.run later = some (.ok (), later) := by
  rcases wellFormed.exists_place bound with ⟨tree, path, rest, same, stored⟩
  subst same
  rcases flatten_yields tree path rest arena stored with ⟨later, run, kept, extended⟩
  have isFlat : tree.flatten.isFlat = true := by
    rw [Node.isFlat_eq, tree.term_flatten]
    exact Term.isFlat_flat tree.term
  have tested := run_eq_of_yields kept (isFlat_yields List.mem_cons_self)
  have again := @flatten_yields arena.size tree.flatten path (tree.shells ++ rest)
  rcases Node.flatten_of_isFlat.1 tree.flatten isFlat with ⟨merged, none⟩
  rw [merged, none, List.nil_append] at again
  have unchanged := run_eq_of_yields kept again
  have reads := kept.reads List.mem_cons_self
  rw [tree.handle_flatten] at tested unchanged reads
  rw [isFlat] at tested
  exact ⟨tree, stored.reads List.mem_cons_self, later, run, tree.flatten, reads,
    flattens_of_stores stored kept extended, tested, unchanged⟩

/-- A conjunction takes over the operand of a nested one and loses one without
operands.  The negation beside them keeps its operand. -/
theorem flatten_merges_nested :
    let first : Kind := .var ⟨0, 1⟩
    let second : Kind := .var ⟨2, 3⟩
    let arena : Arena := ⟨#[⟨.and, none, some 1, some 5, none, none⟩,
      ⟨.and, some 0, none, none, none, some 2⟩, ⟨.and, some 0, some 3, some 3, some 1, some 5⟩,
      ⟨.and, some 2, some 4, some 4, none, none⟩, ⟨first, some 3, none, none, none, none⟩,
      ⟨.not, some 0, some 6, some 6, some 2, none⟩, ⟨second, some 5, none, none, none, none⟩]⟩
    Exists fun later : Arena => (Handle.flatten 0).run.run arena = some (.ok (), later) ∧
      later.Lists 0 [4, 5] ∧ later.StandsAlone 3 ∧ later.Lists 5 [6] ∧
      (Handle.flatten 0).run.run later = some (.ok (), later) := by
  intro first second arena
  let tree : Node := .mk 0 .and [.mk 1 .and [], .mk 2 .and [.mk 3 .and [.mk 4 first []]],
    .mk 5 .not [.mk 6 second []]]
  have stored : arena.Stores ⟨7, [tree]⟩ := ⟨⟨by decide, by decide⟩, rfl⟩
  have top : tree.climb [] ∈ [tree] := List.mem_cons_self
  have row : forall node operands, (node, operands) ∈ Node.rows [tree] ->
      arena.Lists node operands := fun _ _ => stored.lists_of_row
  have isOf : forall node found, arena.cell? node = some found -> arena.IsOf node found.kind :=
    fun _ found look => ⟨found, look, rfl⟩
  rcases flatten_merges stored.wellFormed (by decide : 0 < arena.size) with
    ⟨read, reads, later, run, result, _, flattens, _, again⟩
  have isTree : read = tree := reads.unique (stored.reads top)
  subst isTree
  have stays : ¬ arena.GivesWay tree 0 := by
    rintro ⟨parent, _, ⟨found, look, above⟩, _⟩
    rw [← Option.some.inj look] at above
    exact Option.some_ne_none parent above.symm
  have isNot : forall symbol, ¬ arena.IsOf 5 (.connective symbol) :=
    fun _ isSymbol => Kind.noConfusion ((isOf 5 _ rfl).unique isSymbol)
  rcases flattens.merged 0 .and ((flattens.remains 0).mpr ⟨by decide, stays⟩) ⟨_, rfl, rfl⟩ with
    ⟨operands, spliced, before, splices, after⟩
  rw [before.unique (row 0 [1, 2, 5] (by decide))] at splices
  have inner : arena.Splices .and [3] [4] :=
    .merge (isOf 3 _ rfl) (row 3 [4] (by decide)) (.keep (isOf 4 _ rfl) Kind.noConfusion .nil) .nil
  have last : arena.Splices .and [5] [5] := .keep (isOf 5 _ rfl) Kind.noConfusion .nil
  have known : arena.Splices .and [1, 2, 5] [4, 5] :=
    .merge (isOf 1 _ rfl) (row 1 [] (by decide)) .nil
      (.merge (isOf 2 _ rfl) (row 2 [3] (by decide)) inner last)
  rw [splices.unique known] at after
  rcases flattens.unchanged 5 (by decide)
    (fun ⟨_, _, _, symbol, isSymbol, _⟩ => isNot symbol isSymbol)
    (fun _ => isNot) with ⟨kept, beforeNot, afterNot⟩
  rw [beforeNot.unique (row 5 [6] (by decide))] at afterNot
  refine ⟨later, run, after, (flattens.leftOver 3 ?_).1, afterNot, again⟩
  exact ⟨2, by decide, ⟨_, rfl, rfl⟩, .and, ⟨_, rfl, rfl⟩, ⟨_, rfl, rfl⟩⟩

end Arena

end PlanningDomain
