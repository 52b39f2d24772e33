import PlanningDomain.Proofs.Arena.Frames
import PlanningDomain.Proofs.Arena.Requests

namespace PlanningDomain

/-!
# Changes as changes of lists

The links of a well-formed arena say, for every node, a list of operands.  A change
of links is a change of one of these lists: an operand is added at the end or behind
another one, taken out, or put in the place of another one.  All other nodes keep
their lists.

The lists are compared as a whole.  Every expression has one row for each of its
nodes, and a change of the expressions that are stored exchanges a single row.
-/

/-! ## Rows -/

/-- A node and its operands. -/
abbrev Row := Handle × List Handle

def Entry.row (entry : Entry) : Row :=
  (entry.handle, entry.operands)

namespace Node

/-- The rows of all nodes of some expressions. -/
def rows (trees : List Node) : List Row :=
  (trees.flatMap (entries none)).map Entry.row

theorem rows_perm {trees others : List Node} (permutation : trees.Perm others) :
    (rows trees).Perm (rows others) :=
  (permutation.flatMap_right _).map _

/-- A row does not say what is above its node. -/
theorem map_row_entries (tree : Node) (parent other : Link) :
    (tree.entries parent).map Entry.row = (tree.entries other).map Entry.row := by
  cases tree
  rfl

theorem map_row_entriesAll (parent : Handle) (nodes : List Node) :
    (entriesAll parent nodes).map Entry.row = rows nodes := by
  rw [entriesAll_eq_flatMap, rows, List.map_flatMap, List.map_flatMap]
  exact List.flatMap_congr (fun node _ => node.map_row_entries _ _)

/-- The rows of some expressions, seen from a node of the first. -/
theorem rows_climb (handle : Handle) (kind : Kind) (children : List Node) (path : List Step)
    (rest : List Node) :
    (rows ((mk handle kind children).climb path :: rest)).Perm
      ((handle, children.map Node.handle) ::
        ((Step.entriesAround handle path).map Entry.row ++ rows (children ++ rest))) := by
  refine ((Arena.flatMap_entries_climb (mk handle kind children) path rest).map Entry.row).trans ?_
  rw [entries, Step.entriesOutside, List.cons_append, List.map_cons, List.map_append,
    List.map_append, map_row_entriesAll, rows, rows, List.flatMap_append, List.map_append]
  exact List.Perm.cons _ (List.perm_append_comm_assoc _ _ _)

end Node

namespace Arena

/-! ## Lists of operands -/

/-- The operands of a node are a list, in whichever way they are read off the
links. -/
structure Lists (arena : Arena) (node : Handle) (operands : List Handle) : Prop where
  distinct : operands.Nodup
  walk : node.operands.run.run arena = some (.ok operands, arena)
  count : node.operandCount.run.run arena = some (.ok operands.length, arena)
  ends : Exists fun found : Cell => arena.cell? node = some found ∧
    found.first = operands.head? ∧ found.last = operands.getLast?
  siblings : forall left child right, operands = left ++ child :: right ->
    Exists fun found : Cell => arena.cell? child = some found ∧ found.parent = some node ∧
      found.previous = left.getLast? ∧ found.next = right.head?
  members : forall child, arena.Below child node -> child ∈ operands

/-- The lists of all nodes. -/
def Views (arena : Arena) (lists : Handle -> List Handle) : Prop :=
  forall node, node < arena.size -> arena.Lists node (lists node)

theorem Lists.unique {arena : Arena} {node : Handle} {first second : List Handle}
    (lists : arena.Lists node first) (again : arena.Lists node second) : first = second :=
  result_unique lists.walk again.walk

namespace Stores

variable {arena : Arena} {size : Nat} {trees : List Node}

theorem lists (stored : arena.Stores ⟨size, trees⟩) {node : Node} {path : List Step}
    (member : node.climb path ∈ trees) :
    arena.Lists node.handle (node.children.map Node.handle) := by
  have walk : Yields (Stores ⟨size, trees⟩) node.handle.operands (node.children.map Node.handle)
      (Stores ⟨size, trees⟩) := operands_yields node path member
  refine ⟨?_, run_eq_of_yields stored walk, run_eq_of_yields stored (walk.bind (.pure _)),
    ⟨_, stored.cell?_eq node path member, ?_, ?_⟩, fun left child right split => ?_,
    fun child below => (stored.mem_operands_iff member child).mpr below⟩
  · have nodup := Node.nodup_of_climb (stored.tree_nodup member)
    rcases node with ⟨handle, kind, children⟩
    rw [Node.handles_mk] at nodup
    exact (Node.map_handle_sublist children).nodup (List.nodup_cons.mp nodup).2
  · exact List.head?_map.symm
  · exact List.getLast?_map.symm
  · rcases node with ⟨handle, kind, children⟩
    rcases List.map_eq_append_iff.mp split with ⟨before, others, isChildren, isLeft, isOthers⟩
    rcases List.map_eq_cons_iff.mp isOthers with ⟨inner, after, isCons, isChild, isRight⟩
    rw [Node.children_mk] at isChildren
    subst isCons isChildren isLeft isChild isRight
    refine ⟨_, stored.cell?_eq inner (⟨handle, kind, before, after⟩ :: path) ?_, rfl,
      List.getLast?_map.symm, List.head?_map.symm⟩
    rw [Node.climb_operand]
    exact member

theorem lists_of_row (stored : arena.Stores ⟨size, trees⟩) {node : Handle}
    {operands : List Handle} (listed : (node, operands) ∈ Node.rows trees) :
    arena.Lists node operands := by
  rcases List.mem_map.mp listed with ⟨entry, isEntry, isRow⟩
  rcases List.mem_flatMap.mp isEntry with ⟨tree, isTree, within⟩
  rcases tree.exists_of_mem_entries [] entry within with ⟨inner, up, climbed, same⟩
  rcases Prod.mk.inj isRow with ⟨isNode, isOperands⟩
  subst same isNode isOperands
  have member : inner.climb up ∈ trees := by
    rw [climbed]
    exact isTree
  exact stored.lists member

theorem exists_row (stored : arena.Stores ⟨size, trees⟩) {node : Handle} (bound : node < size) :
    Exists fun operands : List Handle => (node, operands) ∈ Node.rows trees := by
  have listed := stored.handles_perm.mem_iff.mpr (List.mem_range.mpr bound)
  rw [← Node.map_handle_flatMap_entries] at listed
  rcases List.mem_map.mp listed with ⟨entry, isEntry, same⟩
  exact ⟨entry.operands, List.mem_map.mpr ⟨entry, isEntry, same ▸ rfl⟩⟩

theorem exists_views (stored : arena.Stores ⟨size, trees⟩) :
    Exists fun lists : Handle -> List Handle => arena.Views lists := by
  have each : forall node, Exists fun operands : List Handle =>
      node < arena.size -> arena.Lists node operands := by
    intro node
    by_cases bound : node < arena.size
    · rw [stored.size] at bound
      rcases stored.exists_row bound with ⟨operands, listed⟩
      exact ⟨operands, fun _ => stored.lists_of_row listed⟩
    · exact ⟨[], fun impossible => (bound impossible).elim⟩
  exact ⟨fun node => (each node).choose, fun node => (each node).choose_spec⟩

end Stores

/-! ## The list of one node is exchanged -/

/-- One arena has become another one in which one node has other operands.  All other
nodes have the same operands as before, and every node is there with its kind. -/
structure Relists (arena later : Arena) (lists : Handle -> List Handle) (place : Handle)
    (operands : List Handle) : Prop where
  wellFormed : later.WellFormed
  size : later.size = arena.size
  kinds : arena.Extends later
  views : later.Views (Function.update lists place operands)

/-- The expression of a node is the same in both arenas. -/
def KeepsTree (arena later : Arena) (node : Handle) : Prop :=
  Exists fun tree : Node => arena.Reads node tree ∧ later.Reads node tree

/-- A node without a node above it or beside it. -/
def StandsAlone (arena : Arena) (node : Handle) : Prop :=
  Exists fun found : Cell => arena.cell? node = some found ∧
    found.parent = none ∧ found.previous = none ∧ found.next = none

section Exchange

variable {arena later : Arena} {size : Nat} {before after : List Node}
  {lists : Handle -> List Handle} {place : Handle} {old new : List Handle} {others : List Row}

theorem Stores.standsAlone (stored : arena.Stores ⟨size, before⟩) {node : Node}
    (member : node ∈ before) : arena.StandsAlone node.handle :=
  ⟨_, stored.cell?_eq node [] member, rfl, rfl, rfl⟩

theorem Stores.keepsTree (stored : arena.Stores ⟨size, before⟩)
    (kept : later.Stores ⟨size, after⟩) {node : Node} {path way : List Step}
    (here : node.climb path ∈ before) (there : node.climb way ∈ after) :
    arena.KeepsTree later node.handle :=
  ⟨node, stored.reads here, kept.reads there⟩

theorem views_of_rows (stored : arena.Stores ⟨size, before⟩)
    (kept : later.Stores ⟨size, after⟩) (views : arena.Views lists)
    (rowsBefore : (Node.rows before).Perm ((place, old) :: others))
    (rowsAfter : (Node.rows after).Perm ((place, new) :: others)) :
    later.Views (Function.update lists place new) := by
  intro node bound
  rw [kept.size] at bound
  rcases stored.exists_row bound with ⟨operands, listed⟩
  by_cases here : node = place
  · subst here
    rw [Function.update_self]
    exact kept.lists_of_row (rowsAfter.mem_iff.mpr List.mem_cons_self)
  · have known := stored.lists_of_row listed
    rw [Function.update_of_ne here,
      (views node (Nat.lt_of_lt_of_eq bound stored.size.symm)).unique known]
    refine kept.lists_of_row (rowsAfter.mem_iff.mpr (List.mem_cons_of_mem _ ?_))
    rcases List.mem_cons.mp (rowsBefore.mem_iff.mp listed) with same | other
    · exact (here (congrArg Prod.fst same)).elim
    · exact other

/-- Work that changes the operands of one node.  What is no operand any more is set
aside, and what becomes an operand was set aside before. -/
theorem relists_of_yields {work : Edit Unit} {handle : Handle} {kind : Kind} {path : List Step}
    {old new rest beside : List Node} (moved : (old ++ rest).Perm (new ++ beside))
    (stored : arena.Stores ⟨size, (Node.mk handle kind old).climb path :: rest⟩)
    (views : arena.Views lists)
    (yields : Yields (Stores ⟨size, (Node.mk handle kind old).climb path :: rest⟩) work ()
      (Stores ⟨size, (Node.mk handle kind new).climb path :: beside⟩)) :
    lists handle = old.map Node.handle ∧
      Exists fun later : Arena => work.run.run arena = some (.ok (), later) ∧
        later.Stores ⟨size, (Node.mk handle kind new).climb path :: beside⟩ ∧
        Relists arena later lists handle (new.map Node.handle) := by
  have rowsBefore := Node.rows_climb handle kind old path rest
  have rowsAfter := (Node.rows_climb handle kind new path beside).trans
    (((Node.rows_perm moved.symm).append_left _).cons _)
  rcases yields arena stored with ⟨later, run, kept, extended⟩
  have known := (views handle (stored.handle_lt List.mem_cons_self)).unique
    (stored.lists_of_row (rowsBefore.mem_iff.mpr List.mem_cons_self))
  exact ⟨known, later, run, kept, kept.wellFormed, kept.size.trans stored.size.symm, extended,
    views_of_rows stored kept views rowsBefore rowsAfter⟩

end Exchange

/-! ## The four changes -/

section Changes

variable {arena : Arena} {size : Nat} {trees : List Node} {lists : Handle -> List Handle}

theorem append_relists (stored : arena.Stores ⟨size, trees⟩) (views : arena.Views lists)
    {parent child : Handle} (allowed : ¬ (Request.append parent child).Circular arena)
    (proper : ¬ (Request.append parent child).Misused arena) :
    Exists fun later : Arena => (append parent child).run.run arena = some (.ok (), later) ∧
      arena.Relists later lists parent (lists parent ++ [child]) ∧
        arena.KeepsTree later child := by
  rcases append_of_not_misused proper with ⟨detached, different, bound⟩
  rcases places_of_moved stored rfl allowed bound detached different with
    ⟨⟨handle, kind, children⟩, path, moved, rest, rfl, rfl, listed⟩
  have first := stored.perm listed
  have same : children ++ moved :: rest = children ++ [moved] ++ rest := by
    rw [List.append_assoc, List.singleton_append]
  rcases relists_of_yields (.of_eq same) first views
      (append_yields rest handle kind children moved path) with ⟨old, later, run, kept, relists⟩
  have here : moved.climb [] ∈ (Node.mk handle kind children).climb path :: moved :: rest :=
    List.mem_cons_of_mem _ List.mem_cons_self
  have there := moved.climb_operand_mem handle kind children [] path rest
  refine ⟨later, run, ?_, first.keepsTree kept here there⟩
  rw [Node.handle_mk, old, ← List.map_singleton, ← List.map_append]
  exact relists

/-- A node has a place among the operands of the node above it. -/
theorem Stores.below_of_operand {handle : Handle} {kind : Kind} {left right rest : List Node}
    {node : Node} {path : List Step} (stored : arena.Stores
      ⟨size, (Node.mk handle kind (left ++ node :: right)).climb path :: rest⟩) :
    arena.Below node.handle handle := by
  have member := node.climb_operand_mem handle kind left right path rest
  exact ⟨_, stored.cell?_eq node _ member, rfl⟩

theorem insert_relists (stored : arena.Stores ⟨size, trees⟩) (views : arena.Views lists)
    {anchor child : Handle} (allowed : ¬ (Request.insert anchor child).Circular arena)
    (proper : ¬ (Request.insert anchor child).Misused arena) :
    Exists fun later : Arena => (insert anchor child).run.run arena = some (.ok (), later) ∧
      Exists fun parent : Handle => Exists fun left : List Handle =>
        Exists fun right : List Handle => arena.Below anchor parent ∧
          lists parent = left ++ anchor :: right ∧
          arena.Relists later lists parent (left ++ anchor :: child :: right) ∧
          arena.KeepsTree later child := by
  rcases insert_of_not_misused proper with ⟨attached, detached⟩
  rcases places_beside_attached stored rfl allowed attached detached with
    ⟨place, ⟨handle, kind, left, right⟩, path, moved, rest, rfl, rfl, listed⟩
  have first := stored.perm listed
  have exchanged : (left ++ place :: right ++ moved :: rest).Perm
      (left ++ place :: moved :: right ++ rest) := by
    simp only [List.append_assoc, List.cons_append]
    exact (List.perm_middle.cons place).append_left left
  rcases relists_of_yields exchanged first views
      (insert_yields rest handle kind left right place moved path) with
    ⟨old, later, run, kept, relists⟩
  rw [List.map_append, List.map_cons] at old
  rw [List.map_append, List.map_cons, List.map_cons] at relists
  have here : moved.climb [] ∈
      (Node.mk handle kind (left ++ place :: right)).climb path :: moved :: rest :=
    List.mem_cons_of_mem _ List.mem_cons_self
  have there := moved.climb_operand_mem handle kind (left ++ [place]) right path rest
  rw [List.append_assoc, List.singleton_append] at there
  exact ⟨later, run, handle, _, _, first.below_of_operand, old, relists,
    first.keepsTree kept here there⟩

theorem unparent_relists (stored : arena.Stores ⟨size, trees⟩) (views : arena.Views lists)
    {node : Handle} (proper : ¬ (Request.unparent node).Misused arena) :
    Exists fun later : Arena => (unparent node).run.run arena = some (.ok (), later) ∧
      Exists fun parent : Handle => Exists fun left : List Handle =>
        Exists fun right : List Handle => arena.Below node parent ∧
          lists parent = left ++ node :: right ∧
          arena.Relists later lists parent (left ++ right) ∧ later.StandsAlone node ∧
          arena.KeepsTree later node := by
  rcases place_of_attached stored (held_of_not_misused proper) with
    ⟨moved, ⟨handle, kind, left, right⟩, path, rest, rfl, listed⟩
  have first := stored.perm listed
  have exchanged : (left ++ moved :: right ++ rest).Perm (left ++ right ++ moved :: rest) := by
    simp only [List.append_assoc, List.cons_append]
    exact List.perm_middle.symm.append_left left
  rcases relists_of_yields exchanged first views
      (unparent_yields rest handle kind left right moved path) with
    ⟨old, later, run, kept, relists⟩
  rw [List.map_append, List.map_cons] at old
  rw [List.map_append] at relists
  have here := moved.climb_operand_mem handle kind left right path rest
  have there : moved.climb [] ∈
      (Node.mk handle kind (left ++ right)).climb path :: moved :: rest :=
    List.mem_cons_of_mem _ List.mem_cons_self
  exact ⟨later, run, handle, _, _, first.below_of_operand, old, relists, kept.standsAlone there,
    first.keepsTree kept here there⟩

theorem replace_relists (stored : arena.Stores ⟨size, trees⟩) (views : arena.Views lists)
    {old new : Handle} (allowed : ¬ (Request.replace old new).Circular arena)
    (proper : ¬ (Request.replace old new).Misused arena) (different : old ≠ new)
    (attached : arena.Attached old) :
    Exists fun later : Arena => (replace old new).run.run arena = some (.ok (), later) ∧
      Exists fun parent : Handle => Exists fun left : List Handle =>
        Exists fun right : List Handle => arena.Below old parent ∧
          lists parent = left ++ old :: right ∧
          arena.Relists later lists parent (left ++ new :: right) ∧ later.StandsAlone old ∧
          arena.KeepsTree later old ∧ arena.KeepsTree later new := by
  rcases replace_of_not_misused proper different with ⟨_, detached⟩
  rcases places_beside_attached stored rfl allowed attached detached with
    ⟨place, ⟨handle, kind, left, right⟩, path, moved, rest, rfl, rfl, listed⟩
  have first := stored.perm listed
  have exchanged : (left ++ place :: right ++ moved :: rest).Perm
      (left ++ moved :: right ++ place :: rest) := by
    simp only [List.append_assoc, List.cons_append]
    refine List.Perm.append_left left ?_
    exact (List.perm_middle.cons place).trans
      ((List.Perm.swap _ _ _).trans (List.perm_middle.symm.cons moved))
  rcases relists_of_yields exchanged first views
      (replace_operand_yields rest handle kind left right place moved path) with
    ⟨known, later, run, kept, relists⟩
  rw [List.map_append, List.map_cons] at known relists
  have hereOld := place.climb_operand_mem handle kind left right path (moved :: rest)
  have hereNew : moved.climb [] ∈
      (Node.mk handle kind (left ++ place :: right)).climb path :: moved :: rest :=
    List.mem_cons_of_mem _ List.mem_cons_self
  have thereOld : place.climb [] ∈
      (Node.mk handle kind (left ++ moved :: right)).climb path :: place :: rest :=
    List.mem_cons_of_mem _ List.mem_cons_self
  have thereNew := moved.climb_operand_mem handle kind left right path (place :: rest)
  exact ⟨later, run, handle, _, _, first.below_of_operand, known, relists,
    kept.standsAlone thereOld, first.keepsTree kept hereOld thereOld,
    first.keepsTree kept hereNew thereNew⟩

end Changes

/-- Every change that is not refused is a change of the list of one node, unless a
node is put below itself.  A node is put at the end of a list, or behind another one,
or is taken out, or takes the place of another one.  Nothing is changed if that one
has no place or is the node itself.  The expression of a node that is moved stays as
it was. -/
theorem primitives_refine_lists {arena : Arena} (wellFormed : arena.WellFormed) :
    Exists fun lists : Handle -> List Handle => arena.Views lists ∧
      (forall parent child, ¬ (Request.append parent child).Circular arena ->
        arena.Refuses (append parent child) ∨ Exists fun later : Arena =>
          (append parent child).run.run arena = some (.ok (), later) ∧
            arena.Relists later lists parent (lists parent ++ [child]) ∧
            arena.KeepsTree later child) ∧
      (forall anchor child, ¬ (Request.insert anchor child).Circular arena ->
        arena.Refuses (insert anchor child) ∨ Exists fun later : Arena =>
          (insert anchor child).run.run arena = some (.ok (), later) ∧
            Exists fun parent : Handle => Exists fun left : List Handle =>
              Exists fun right : List Handle => arena.Below anchor parent ∧
                lists parent = left ++ anchor :: right ∧
                arena.Relists later lists parent (left ++ anchor :: child :: right) ∧
                arena.KeepsTree later child) ∧
      (forall node, arena.Refuses (unparent node) ∨ Exists fun later : Arena =>
        (unparent node).run.run arena = some (.ok (), later) ∧
          Exists fun parent : Handle => Exists fun left : List Handle =>
            Exists fun right : List Handle => arena.Below node parent ∧
              lists parent = left ++ node :: right ∧
              arena.Relists later lists parent (left ++ right) ∧ later.StandsAlone node ∧
              arena.KeepsTree later node) ∧
      (forall old new, ¬ (Request.replace old new).Circular arena ->
        arena.Refuses (replace old new) ∨ Exists fun later : Arena =>
          (replace old new).run.run arena = some (.ok (), later) ∧
            ((old = new ∨ arena.Detached old) ∧ later = arena ∨
              old ≠ new ∧ Exists fun parent : Handle => Exists fun left : List Handle =>
                Exists fun right : List Handle => arena.Below old parent ∧
                  lists parent = left ++ old :: right ∧
                  arena.Relists later lists parent (left ++ new :: right) ∧
                  later.StandsAlone old ∧ arena.KeepsTree later old ∧
                  arena.KeepsTree later new)) := by
  rcases wellFormed.exists_stores with ⟨trees, stored⟩
  rcases stored.exists_views with ⟨lists, views⟩
  refine ⟨lists, views, fun parent child allowed => ?_, fun anchor child allowed => ?_,
    fun node => ?_, fun old new allowed => ?_⟩
  · by_cases misused : (Request.append parent child).Misused arena
    · exact Or.inl (append_refuses misused)
    · exact Or.inr (append_relists stored views allowed misused)
  · by_cases misused : (Request.insert anchor child).Misused arena
    · exact Or.inl (insert_refuses misused)
    · exact Or.inr (insert_relists stored views allowed misused)
  · by_cases misused : (Request.unparent node).Misused arena
    · exact Or.inl (unparent_refuses misused)
    · exact Or.inr (unparent_relists stored views misused)
  · by_cases misused : (Request.replace old new).Misused arena
    · exact Or.inl (replace_refuses misused)
    · refine Or.inr ?_
      by_cases same : old = new
      · subst same
        have run := run_eq_of_yields stored (replace_self_yields _ old)
        exact ⟨arena, run, Or.inl ⟨Or.inl rfl, rfl⟩⟩
      · have known := (replace_of_not_misused misused same).1
        rcases (arena.unknown_or old).resolve_left (Nat.not_le_of_lt known) with alone | attached
        · exact ⟨arena, run_replace_of_detached misused same alone,
            Or.inl ⟨Or.inr alone, rfl⟩⟩
        · rcases replace_relists stored views allowed misused same attached with
            ⟨later, run, relists⟩
          exact ⟨later, run, Or.inr ⟨same, relists⟩⟩

/-- A third operand for a disjunction of two. -/
theorem primitives_refine_lists_third_operand :
    let arena : Arena := ⟨#[⟨.or, none, some 1, some 2, none, none⟩,
      ⟨.and, some 0, none, none, none, some 2⟩, ⟨.and, some 0, none, none, some 1, none⟩,
      .alone .or]⟩
    arena.WellFormed ∧ arena.Lists 0 [1, 2] ∧
      Exists fun later : Arena => (append 0 3).run.run arena = some (.ok (), later) ∧
        later.Lists 0 [1, 2, 3] ∧ later.Lists 3 [] := by
  intro arena
  let tree : Node := .mk 0 .or [.mk 1 .and [], .mk 2 .and []]
  let single : Node := .mk 3 .or []
  have stored : arena.Stores ⟨4, [tree, single]⟩ := ⟨⟨by decide, by decide⟩, rfl⟩
  have isTree : tree.climb [] ∈ [tree, single] := List.mem_cons_self
  have isSingle : single.climb [] ∈ [tree, single] := List.mem_cons_of_mem _ List.mem_cons_self
  have before : arena.Lists 0 [1, 2] := stored.lists isTree
  have alone : arena.Lists 3 [] := stored.lists isSingle
  have allowed : ¬ (Request.append 0 3).Circular arena :=
    not_circular_of_detached rfl ⟨_, rfl, rfl⟩
  rcases primitives_refine_lists stored.wellFormed with ⟨lists, views, append, _⟩
  refine ⟨stored.wellFormed, before, ?_⟩
  rcases append 0 3 allowed with ⟨misuse, refused⟩ | ⟨later, run, relists, _⟩
  · exact nomatch refused
  · have first := relists.views 0 (relists.size ▸ (by decide : 0 < arena.size))
    have second := relists.views 3 (relists.size ▸ (by decide : 3 < arena.size))
    rw [Function.update_self, (views 0 (by decide)).unique before] at first
    rw [Function.update_of_ne (by decide), (views 3 (by decide)).unique alone] at second
    exact ⟨later, run, first, second⟩

end Arena

end PlanningDomain
