import PlanningDomain.Proofs.Conversions

namespace PlanningDomain

/-!
# What a change leaves as it is

A conversion is known by the expressions that are stored before and after it.
One of them has been rebuilt in its place.  What is said here follows from that
alone: around the rebuilt expression every node has kept its kind, the node
above it and its operands, except that one node stands where another one
stood.  No link has to be followed, since what is known of each node is read off
the way up from it.
-/

/-- What is known of a node from outside: its kind, the node above it, and its
operands in order. -/
structure Entry where
  handle : Handle
  kind : Kind
  parent : Link
  operands : List Handle

namespace Entry

/-- The same with another node in the place of an operand. -/
def replace (old new : Handle) (entry : Entry) : Entry :=
  { entry with operands :=
      entry.operands.map (fun operand => if operand = old then new else operand) }

@[simp] theorem handle_replace (old new : Handle) (entry : Entry) :
    (entry.replace old new).handle = entry.handle := rfl

theorem map_replace_of_not_mem {old : Handle} (new : Handle) {handles : List Handle}
    (absent : old ∉ handles) :
    handles.map (fun operand => if operand = old then new else operand) = handles := by
  have kept : forall operand, operand ∈ handles ->
      (if operand = old then new else operand) = operand := by
    intro operand member
    rw [if_neg]
    intro same
    exact absent (same ▸ member)
  exact (List.map_congr_left kept).trans (List.map_id' _)

theorem replace_of_not_mem {old : Handle} (new : Handle) {entry : Entry}
    (absent : old ∉ entry.operands) : entry.replace old new = entry := by
  rw [replace, map_replace_of_not_mem new absent]

end Entry

namespace Node

/-- The entry of a node at the beginning of a way. -/
def entryAt (node : Node) (path : List Step) : Entry :=
  ⟨node.handle, node.kind, Step.parent? path, node.children.map handle⟩

mutual

/-- The entries of all nodes of an expression, given the node above it. -/
def entries (parent : Link) : Node -> List Entry
  | mk handle kind children =>
      ⟨handle, kind, parent, children.map Node.handle⟩ :: entriesAll handle children

def entriesAll (parent : Handle) : List Node -> List Entry
  | [] => []
  | node :: rest => node.entries (some parent) ++ entriesAll parent rest

end

theorem entriesAll_eq_flatMap (parent : Handle) (nodes : List Node) :
    entriesAll parent nodes = nodes.flatMap (entries (some parent)) := by
  induction nodes with
  | nil => rfl
  | cons node rest ih => rw [entriesAll, ih, List.flatMap_cons]

theorem map_handle_entries_both :
    (forall (node : Node) (parent : Link),
      (node.entries parent).map Entry.handle = node.handles) ∧
    forall (nodes : List Node) (parent : Handle),
      (entriesAll parent nodes).map Entry.handle = nodes.flatMap handles := by
  refine induction_both ?_ (fun _ => rfl) ?_
  · intro handle kind children ih parent
    rw [entries, List.map_cons, ih, handles_mk]
  · intro node rest first later parent
    rw [entriesAll, List.map_append, first, later, List.flatMap_cons]

theorem map_handle_entriesAll (parent : Handle) (nodes : List Node) :
    (entriesAll parent nodes).map Entry.handle = nodes.flatMap handles :=
  map_handle_entries_both.2 nodes parent

/-- The operands of every node of an expression belong to the expression. -/
theorem operands_entries_both :
    (forall (node : Node) (parent : Link), forall entry, entry ∈ node.entries parent ->
      forall operand, operand ∈ entry.operands -> operand ∈ node.handles) ∧
    forall (nodes : List Node) (parent : Handle), forall entry, entry ∈ entriesAll parent nodes ->
      forall operand, operand ∈ entry.operands -> operand ∈ nodes.flatMap handles := by
  refine induction_both ?_ (fun _ _ impossible => (List.not_mem_nil impossible).elim) ?_
  · intro handle kind children ih parent entry member operand isOperand
    rw [entries] at member
    rw [handles_mk]
    apply List.mem_cons_of_mem
    rcases List.mem_cons.mp member with same | below
    · subst same
      exact (map_handle_sublist children).mem isOperand
    · exact ih handle entry below operand isOperand
  · intro node rest first later parent entry member operand isOperand
    rw [List.flatMap_cons]
    rcases List.mem_append.mp member with here | behind
    · exact List.mem_append_left _ (first (some parent) entry here operand isOperand)
    · exact List.mem_append_right _ (later parent entry behind operand isOperand)

theorem operand_mem_handles {node inner : Node} (within : inner ∈ node.preorder)
    {operand : Handle} (isOperand : operand ∈ inner.children.map handle) :
    operand ∈ node.handles := by
  rcases node.climb_of_mem_preorder inner within with ⟨up, climbed⟩
  rw [← climbed]
  apply (inner.handles_climb up).mem_iff.mpr
  apply List.mem_append_left
  rcases inner with ⟨handle, kind, children⟩
  rw [handles_mk]
  exact List.mem_cons_of_mem _ ((map_handle_sublist children).mem isOperand)

/-- A node that some expressions do not have is not replaced in them. -/
theorem map_replace_entriesAll {old : Handle} (new parent : Handle) {nodes : List Node}
    (absent : old ∉ nodes.flatMap handles) :
    (entriesAll parent nodes).map (Entry.replace old new) = entriesAll parent nodes := by
  have kept : forall entry, entry ∈ entriesAll parent nodes -> entry.replace old new = entry :=
    fun entry member => Entry.replace_of_not_mem new
      (fun isOperand => absent (operands_entries_both.2 nodes parent entry member old isOperand))
  exact (List.map_congr_left kept).trans (List.map_id' _)

theorem map_replace_flatMap_entries {old : Handle} (new : Handle) {nodes : List Node}
    (absent : old ∉ nodes.flatMap handles) :
    (nodes.flatMap (entries none)).map (Entry.replace old new) = nodes.flatMap (entries none) := by
  have kept : forall entry, entry ∈ nodes.flatMap (entries none) ->
      entry.replace old new = entry := by
    intro entry member
    rcases List.mem_flatMap.mp member with ⟨node, isNode, within⟩
    refine Entry.replace_of_not_mem new (fun isOperand => absent ?_)
    exact List.mem_flatMap.mpr
      ⟨node, isNode, operands_entries_both.1 node none entry within old isOperand⟩
  exact (List.map_congr_left kept).trans (List.map_id' _)

theorem map_handle_flatMap_entries (nodes : List Node) :
    (nodes.flatMap (entries none)).map Entry.handle = nodes.flatMap handles := by
  rw [List.map_flatMap]
  exact List.flatMap_congr (fun node _ => map_handle_entries_both.1 node none)

/-- Every entry is that of a node in its place. -/
theorem exists_of_mem_entries (node : Node) : forall path : List Step, forall entry,
    entry ∈ node.entries (Step.parent? path) ->
      Exists fun inner : Node => Exists fun up : List Step =>
        inner.climb up = node.climb path ∧ entry = inner.entryAt up := by
  induction node using Node.induction with
  | step handle kind children ih =>
      intro path entry member
      rw [entries, entriesAll_eq_flatMap] at member
      rcases List.mem_cons.mp member with here | below
      · exact ⟨mk handle kind children, path, rfl, here⟩
      · rcases List.mem_flatMap.mp below with ⟨child, isChild, within⟩
        rcases List.append_of_mem isChild with ⟨left, right, split⟩
        rcases ih child isChild (⟨handle, kind, left, right⟩ :: path) entry within with
          ⟨inner, up, climbed, same⟩
        refine ⟨inner, up, ?_, same⟩
        rw [climbed, climb_operand, split]

end Node

namespace Step

/-- The entries of all nodes around a place, given the handle of the node that
stands there. -/
def entriesAround (hole : Handle) : List Step -> List Entry
  | [] => []
  | step :: path =>
      ⟨step.handle, step.kind, parent? path,
          step.left.map Node.handle ++ hole :: step.right.map Node.handle⟩ ::
        (Node.entriesAll step.handle step.left ++ Node.entriesAll step.handle step.right ++
          entriesAround step.handle path)

/-- One node takes the place of another.  Around the place, it is an operand
where the other one was. -/
theorem map_replace_entriesAround (old new : Handle) (path : List Step) : forall hole : Handle,
    old ∉ (entriesAround hole path).map Entry.handle ->
      (entriesAround hole path).map (Entry.replace old new) =
        entriesAround (if hole = old then new else hole) path := by
  induction path with
  | nil => exact fun _ _ => rfl
  | cons step path ih =>
      intro hole absent
      rw [entriesAround, List.map_cons, List.map_append, List.map_append,
        Node.map_handle_entriesAll, Node.map_handle_entriesAll] at absent
      rcases not_or.mp (fun either => absent (List.mem_cons.mpr either)) with ⟨notHere, absent⟩
      rcases not_or.mp (fun either => absent (List.mem_append.mpr either)) with ⟨beside, above⟩
      rcases not_or.mp (fun either => beside (List.mem_append.mpr either)) with ⟨left, right⟩
      have notLeft : old ∉ step.left.map Node.handle :=
        fun member => left ((Node.map_handle_sublist step.left).mem member)
      have notRight : old ∉ step.right.map Node.handle :=
        fun member => right ((Node.map_handle_sublist step.right).mem member)
      have kept : (if step.handle = old then new else step.handle) = step.handle :=
        if_neg (fun same => notHere same.symm)
      have further := ih step.handle above
      rw [kept] at further
      rw [entriesAround, List.map_cons, List.map_append, List.map_append, further,
        Node.map_replace_entriesAll new step.handle left,
        Node.map_replace_entriesAll new step.handle right, entriesAround, Entry.replace,
        List.map_append, List.map_cons, Entry.map_replace_of_not_mem new notLeft,
        Entry.map_replace_of_not_mem new notRight]

/-- The entries of all nodes around and beside a place. -/
def entriesOutside (hole : Handle) (path : List Step) (rest : List Node) : List Entry :=
  entriesAround hole path ++ rest.flatMap (Node.entries none)

theorem map_replace_entriesOutside {old : Handle} (new : Handle) {path : List Step}
    {rest : List Node} (absent : old ∉ (entriesOutside old path rest).map Entry.handle) :
    (entriesOutside old path rest).map (Entry.replace old new) = entriesOutside new path rest := by
  rw [entriesOutside, List.map_append, Node.map_handle_flatMap_entries] at absent
  rcases not_or.mp (fun either => absent (List.mem_append.mpr either)) with ⟨around, beside⟩
  rw [entriesOutside, List.map_append, map_replace_entriesAround old new path old around,
    if_pos rfl, Node.map_replace_flatMap_entries new beside, entriesOutside]

end Step

namespace Node

/-- The entries of a whole expression, seen from one of its nodes. -/
theorem entries_climb (path : List Step) : forall node : Node,
    ((node.climb path).entries none).Perm
      (node.entries (Step.parent? path) ++ Step.entriesAround node.handle path) := by
  induction path with
  | nil =>
      intro node
      rw [climb_nil, Step.entriesAround, List.append_nil]
      exact List.Perm.refl _
  | cons step path ih =>
      intro node
      refine (ih (step.fill [node])).trans ?_
      have here : (step.fill [node]).entries (Step.parent? path) =
          ⟨step.handle, step.kind, Step.parent? path,
              step.left.map handle ++ node.handle :: step.right.map handle⟩ ::
            (entriesAll step.handle step.left ++ (node.entries (some step.handle) ++
              entriesAll step.handle step.right)) := by
        rw [Step.fill, entries, List.append_assoc, List.singleton_append, List.map_append,
          List.map_cons, entriesAll_eq_flatMap, List.flatMap_append, List.flatMap_cons,
          entriesAll_eq_flatMap, entriesAll_eq_flatMap]
      rw [here, Step.entriesAround, Step.handle_fill]
      refine perm_of_counts (fun entry => ?_)
      change List.count entry _ = List.count entry (node.entries (some step.handle) ++ _)
      simp only [List.count_cons, List.count_append]
      omega

end Node

namespace Arena

/-- An arena knows of a node what an entry says. -/
structure Has (arena : Arena) (entry : Entry) : Prop where
  cell : Exists fun found : Cell => arena.cell? entry.handle = some found ∧
    found.kind = entry.kind ∧ found.parent = entry.parent
  operands : entry.handle.operands.run.run arena = some (.ok entry.operands, arena)

/-- There is only one entry for a node. -/
theorem Has.unique {arena : Arena} {first second : Entry} (has : arena.Has first)
    (again : arena.Has second) (same : first.handle = second.handle) : first = second := by
  rcases first with ⟨handle, kind, parent, operands⟩
  rcases second with ⟨other, otherKind, otherParent, otherOperands⟩
  rcases has with ⟨⟨found, look, isKind, isParent⟩, run⟩
  rcases again with ⟨⟨foundAgain, lookAgain, isKindAgain, isParentAgain⟩, runAgain⟩
  change handle = other at same
  subst same
  change arena.cell? handle = some found at look
  change arena.cell? handle = some foundAgain at lookAgain
  change found.kind = kind at isKind
  change found.parent = parent at isParent
  change foundAgain.kind = otherKind at isKindAgain
  change foundAgain.parent = otherParent at isParentAgain
  have sameFound : found = foundAgain := Option.some.inj (look.symm.trans lookAgain)
  have sameOperands : operands = otherOperands := result_unique run runAgain
  subst sameFound sameOperands isKind isKindAgain isParent isParentAgain
  rfl

section Stored

variable {arena : Arena} {size : Nat} {trees : List Node}

/-- The arena has the entry of every node in its place. -/
theorem Stores.has_entryAt (stored : arena.Stores ⟨size, trees⟩) {node : Node} {path : List Step}
    (member : node.climb path ∈ trees) : arena.Has (node.entryAt path) where
  cell := ⟨node.cellAt path, stored.cell?_eq node path member, rfl, rfl⟩
  operands := run_eq_of_yields stored (operands_yields node path member)

theorem Stores.has (stored : arena.Stores ⟨size, trees⟩) {entry : Entry}
    (listed : entry ∈ trees.flatMap (Node.entries none)) : arena.Has entry := by
  rcases List.mem_flatMap.mp listed with ⟨tree, isTree, within⟩
  rcases tree.exists_of_mem_entries [] entry within with ⟨inner, up, climbed, same⟩
  rw [same]
  exact stored.has_entryAt (climbed ▸ isTree)

/-- The entries of some expressions, seen from a node of the first. -/
theorem flatMap_entries_climb (node : Node) (path : List Step) (rest : List Node) :
    ((node.climb path :: rest).flatMap (Node.entries none)).Perm
      (node.entries (Step.parent? path) ++ Step.entriesOutside node.handle path rest) := by
  rw [List.flatMap_cons, Step.entriesOutside, ← List.append_assoc]
  exact (node.entries_climb path).append_right _

theorem Stores.has_outside {node : Node} {path : List Step} {rest : List Node}
    (stored : arena.Stores ⟨size, node.climb path :: rest⟩) {entry : Entry}
    (listed : entry ∈ Step.entriesOutside node.handle path rest) : arena.Has entry :=
  stored.has ((flatMap_entries_climb node path rest).mem_iff.mpr (List.mem_append_right _ listed))

/-- The nodes of an expression and the nodes around and beside it. -/
theorem Stores.handles_outside {node : Node} {path : List Step} {rest : List Node}
    (stored : arena.Stores ⟨size, node.climb path :: rest⟩) :
    (node.handles ++ (Step.entriesOutside node.handle path rest).map Entry.handle).Perm
      (List.range size) := by
  refine List.Perm.trans (List.Perm.symm ?_) stored.handles_perm
  have listed := (flatMap_entries_climb node path rest).map Entry.handle
  rw [List.map_append, Node.map_handle_entries_both.1, Node.map_handle_flatMap_entries] at listed
  exact listed

/-- Every node that is not inside an expression is outside of it. -/
theorem Stores.locate_outside {node : Node} {path : List Step} {rest : List Node}
    (stored : arena.Stores ⟨size, node.climb path :: rest⟩) {handle : Handle}
    (bound : handle < size) (notInside : handle ∉ node.handles) :
    Exists fun entry : Entry => entry.handle = handle ∧
      entry ∈ Step.entriesOutside node.handle path rest := by
  rcases List.mem_append.mp (stored.handles_outside.mem_iff.mpr (List.mem_range.mpr bound)) with
    inside | listed
  · exact (notInside inside).elim
  · rcases List.mem_map.mp listed with ⟨entry, member, same⟩
    exact ⟨entry, same, member⟩

/-- No node is inside an expression and outside of it. -/
theorem Stores.not_mem_outside {node : Node} {path : List Step} {rest : List Node}
    (stored : arena.Stores ⟨size, node.climb path :: rest⟩) {handle : Handle}
    (inside : handle ∈ node.handles) :
    handle ∉ (Step.entriesOutside node.handle path rest).map Entry.handle := by
  intro outside
  have nodup := stored.handles_outside.nodup_iff.mpr List.nodup_range
  exact (List.nodup_append.mp nodup).2.2 handle inside handle outside rfl

end Stored

/-! ## The frame of a change -/

/-- From one arena to a later one, an expression has given up its place to
another one.  Every node outside keeps its kind, the node above it and its
operands, except that the one expression is replaced by the other in the
operands of the node above it. -/
structure Frames (arena later : Arena) (tree result : Node) : Prop where
  outside : forall node, node < arena.size -> node ∉ tree.handles ->
    Exists fun entry : Entry => entry.handle = node ∧ arena.Has entry ∧
      (tree.handle ∈ entry.operands ↔ arena.Below tree.handle node) ∧
      later.Has (entry.replace tree.handle result.handle)
  apart : forall node, node < arena.size -> node ∉ tree.handles -> node ∉ result.handles
  place : Exists fun old : Cell => Exists fun new : Cell =>
    arena.cell? tree.handle = some old ∧ later.cell? result.handle = some new ∧
      new.parent = old.parent

section Changes

variable {arena later : Arena} {size : Nat} {tree result : Node} {path : List Step}
  {rest : List Node}

/-- An expression is rebuilt in its place, with other nodes set aside. -/
theorem frames_of_stores (stored : arena.Stores ⟨arena.size, tree.climb path :: rest⟩)
    {aside : List Node} (kept : later.Stores ⟨size, result.climb path :: (aside ++ rest)⟩) :
    arena.Frames later tree result := by
  have replaced : forall entry, entry ∈ Step.entriesOutside tree.handle path rest ->
      entry.replace tree.handle result.handle ∈
        Step.entriesOutside result.handle path (aside ++ rest) := by
    intro entry listed
    have moved := List.mem_map_of_mem (f := Entry.replace tree.handle result.handle) listed
    rw [Step.map_replace_entriesOutside _ (stored.not_mem_outside tree.handle_mem_handles)] at moved
    rw [Step.entriesOutside, List.flatMap_append]
    rcases List.mem_append.mp moved with around | beside
    · exact List.mem_append_left _ around
    · exact List.mem_append_right _ (List.mem_append_right _ beside)
  refine ⟨fun node bound notInside => ?_, fun node bound notInside inResult => ?_, ?_⟩
  · rcases stored.locate_outside bound notInside with ⟨entry, same, listed⟩
    have has := stored.has_outside listed
    refine ⟨entry, same, has, ?_, kept.has_outside (replaced entry listed)⟩
    rcases stored.locate bound with ⟨inner, up, sameInner, place⟩
    rw [has.unique (stored.has_entryAt place) (same.trans sameInner.symm), ← sameInner]
    exact stored.mem_operands_iff place tree.handle
  · rcases stored.locate_outside bound notInside with ⟨entry, same, listed⟩
    have moved := List.mem_map_of_mem (f := Entry.handle) (replaced entry listed)
    rw [Entry.handle_replace, same] at moved
    exact kept.not_mem_outside inResult moved
  · exact ⟨_, _, stored.cell?_eq tree path List.mem_cons_self,
      kept.cell?_eq result path List.mem_cons_self, rfl⟩

end Changes

/-! ## Reading what has not changed -/

section Reading

variable {arena : Arena} {size : Nat} {trees : List Node}

/-- An expression is read if every one of its nodes has the kind and the
operands that it has in the expression. -/
theorem eq_of_has (stored : arena.Stores ⟨size, trees⟩) (tree : Node) :
    (forall inner, inner ∈ tree.preorder -> Exists fun parent : Link =>
      arena.Has ⟨inner.handle, inner.kind, parent, inner.children.map Node.handle⟩) ->
    forall (other : Node) (path : List Step), other.climb path ∈ trees ->
      other.handle = tree.handle -> other = tree := by
  induction tree using Node.induction with
  | step handle kind children ih =>
      intro each other path place same
      rcases other with ⟨otherHandle, otherKind, otherChildren⟩
      rw [Node.handle_mk, Node.handle_mk] at same
      rcases each (.mk handle kind children) List.mem_cons_self with ⟨parent, has⟩
      have entry := (stored.has_entryAt place).unique has same
      have sameKind : otherKind = kind := congrArg Entry.kind entry
      have operands : otherChildren.map Node.handle = children.map Node.handle :=
        congrArg Entry.operands entry
      have all : forall operands left right : List Node, left ++ right = otherChildren ->
          (forall child, child ∈ operands -> child ∈ children) ->
          right.map Node.handle = operands.map Node.handle -> right = operands := by
        intro operands
        induction operands with
        | nil => exact fun left right _ _ none => List.map_eq_nil_iff.mp none
        | cons child rest onRest =>
            intro left right split among heads
            cases right with
            | nil => exact (List.cons_ne_nil _ _ heads.symm).elim
            | cons found more =>
                rcases List.cons.inj heads with ⟨sameHandle, tails⟩
                have isChild := among child List.mem_cons_self
                have here : found.climb (⟨otherHandle, otherKind, left, more⟩ :: path) ∈ trees := by
                  rw [Node.climb_operand, split]
                  exact place
                have inside : forall inner, inner ∈ child.preorder ->
                    inner ∈ (Node.mk handle kind children).preorder := by
                  intro inner within
                  rw [Node.preorder, Node.preorderAll_eq_flatMap]
                  exact List.mem_cons_of_mem _ (List.mem_flatMap.mpr ⟨child, isChild, within⟩)
                rw [ih child isChild (fun inner within => each inner (inside inner within)) found _
                    here sameHandle,
                  onRest (left ++ [found]) more (by rw [List.append_assoc]; exact split)
                    (fun other later => among other (List.mem_cons_of_mem _ later)) tails]
      rw [same, sameKind, all children [] otherChildren rfl (fun _ isChild => isChild) operands]

/-- An expression without a node in common with the one that gave up its place
is still read afterwards. -/
theorem Frames.reads {later : Arena} {tree result : Node} (frames : arena.Frames later tree result)
    (stored : arena.Stores ⟨arena.size, trees⟩) (wellFormed : later.WellFormed) {other : Node}
    {path : List Step} (place : other.climb path ∈ trees)
    (disjoint : forall handle, handle ∈ other.handles -> handle ∉ tree.handles) :
    later.Reads other.handle other := by
  have each : forall inner, inner ∈ other.preorder -> Exists fun parent : Link =>
      later.Has ⟨inner.handle, inner.kind, parent, inner.children.map Node.handle⟩ := by
    intro inner within
    rcases climb_mem_of_preorder place within with ⟨up, here⟩
    have isNode : inner.handle ∈ other.handles := List.mem_map_of_mem within
    rcases frames.outside inner.handle (stored.handle_lt here) (disjoint _ isNode) with
      ⟨entry, same, has, _, kept⟩
    have known := has.unique (stored.has_entryAt here) same
    have absent : tree.handle ∉ entry.operands := by
      intro isOperand
      rw [known] at isOperand
      exact disjoint _ (Node.operand_mem_handles within isOperand) tree.handle_mem_handles
    rw [Entry.replace_of_not_mem _ absent, known] at kept
    exact ⟨_, kept⟩
  have top : other ∈ other.preorder := by
    cases other
    exact List.mem_cons_self
  rcases each other top with ⟨parent, ⟨found, look, _, _⟩, _⟩
  rcases wellFormed.exists_place (cell?_lt look) with ⟨again, way, rest, same, storedLater⟩
  have isOther : again = other :=
    eq_of_has storedLater other each again way List.mem_cons_self same
  rw [← isOther]
  exact storedLater.reads List.mem_cons_self

end Reading

end Arena

end PlanningDomain
