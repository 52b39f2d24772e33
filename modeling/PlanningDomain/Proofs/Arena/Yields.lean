import Mathlib.Data.List.Perm.Basic
import Mathlib.Data.List.Count
import PlanningDomain.Arena.Basic

namespace PlanningDomain

/-!
# Work that comes to an end

A judgement says of some work on an arena that it comes to an end, is not
refused, and has a given result, from every arena of one description, and
that it leaves an arena of another description.  Judgements of consecutive
steps compose.  A loop therefore needs one judgement for what its
body does, and an induction on the data that the loop runs over.

The lowest descriptions list the cells of an arena in any order.  The handles
of a list of cells are a permutation of all handles of the arena.  So
they are different from each other, and to change one cell is to change one
entry of the list.
-/

variable {alpha beta : Type}

/-- Lists in which everything occurs equally often are permutations of each
other. -/
theorem perm_of_counts {first second : List alpha}
    (same : forall [DecidableEq alpha] (entry : alpha), first.count entry = second.count entry) :
    first.Perm second := by
  classical
  exact List.perm_iff_count.mpr (fun entry => same entry)

namespace Arena

/-- Every node of one arena is a node of another one, with the same kind. -/
def Extends (arena later : Arena) : Prop :=
  forall node found, arena.cell? node = some found ->
    Exists fun kept : Cell => later.cell? node = some kept ∧ kept.kind = found.kind

theorem Extends.refl (arena : Arena) : arena.Extends arena :=
  fun _ found look => ⟨found, look, rfl⟩

theorem Extends.trans {arena middle later : Arena} (first : arena.Extends middle)
    (second : middle.Extends later) : arena.Extends later := by
  intro node found look
  rcases first node found look with ⟨between, lookBetween, sameBetween⟩
  rcases second node between lookBetween with ⟨kept, lookLater, same⟩
  exact ⟨kept, lookLater, same.trans sameBetween⟩

/-- Work that comes to an end in an arena has one result there. -/
theorem result_unique {arena left other : Arena} {work : Edit alpha} {first second : alpha}
    (run : work.run.run arena = some (.ok first, left))
    (again : work.run.run arena = some (.ok second, other)) : first = second :=
  Except.ok.inj (Prod.mk.inj (Option.some.inj (run.symm.trans again))).1

end Arena

/-- The work ends in every arena that satisfies `before`, with the result, and
leaves an arena that satisfies `after`.  It takes no node away, and changes the
kind of none. -/
def Yields (before : Arena -> Prop) (work : Edit alpha) (result : alpha)
    (after : Arena -> Prop) : Prop :=
  forall arena, before arena ->
    Exists fun left : Arena =>
      work.run.run arena = some (.ok result, left) ∧ after left ∧ arena.Extends left

namespace Yields

variable {before middle after : Arena -> Prop}

theorem pure (result : alpha) : Yields before (pure result) result before :=
  fun arena holds => ⟨arena, rfl, holds, .refl arena⟩

theorem bind {first : Edit alpha} {next : alpha -> Edit beta} {found : alpha} {result : beta}
    (begun : Yields before first found middle) (ended : Yields middle (next found) result after) :
    Yields before (first >>= next) result after := by
  intro arena holds
  rcases begun arena holds with ⟨reached, firstRun, between, firstKept⟩
  rcases ended reached between with ⟨left, nextRun, done, nextKept⟩
  refine ⟨left, ?_, done, firstKept.trans nextKept⟩
  change (first.run.run arena >>= fun outcome => _) = _
  rw [firstRun]
  exact nextRun

/-- What holds of every arena of the first description may be used. -/
theorem assume {work : Edit alpha} {result : alpha} (fact : Prop)
    (known : forall arena, before arena -> fact)
    (yields : fact -> Yields before work result after) : Yields before work result after :=
  fun arena holds => yields (known arena holds) arena holds

theorem weaken {work : Edit alpha} {result : alpha} {stronger : Arena -> Prop}
    (implied : forall arena, stronger arena -> before arena)
    (yields : Yields before work result after) : Yields stronger work result after :=
  fun arena holds => yields arena (implied arena holds)

theorem relax {work : Edit alpha} {result : alpha} {weaker : Arena -> Prop}
    (implied : forall arena, after arena -> weaker arena)
    (yields : Yields before work result after) : Yields before work result weaker := by
  intro arena holds
  rcases yields arena holds with ⟨left, run, done, kept⟩
  exact ⟨left, run, implied left done, kept⟩

/-- The result of the work is not used. -/
theorem forget {work : Edit alpha} {result : alpha} (yields : Yields before work result after) :
    Yields before (do let _ ← work) () after :=
  yields.bind (.pure ())

end Yields

namespace Arena

/-! ## Lists of cells -/

/-- The arena consists of the listed cells. -/
structure Keeps (cells : List (Handle × Cell)) (arena : Arena) : Prop where
  cell : forall entry, entry ∈ cells -> arena.cell? entry.1 = some entry.2
  handles : (cells.map Prod.fst).Perm (List.range arena.size)

namespace Keeps

variable {cells others : List (Handle × Cell)} {arena : Arena}

theorem perm (permutation : cells.Perm others) (keeps : arena.Keeps cells) :
    arena.Keeps others where
  cell := fun entry member => keeps.cell entry (permutation.mem_iff.mpr member)
  handles := (permutation.map Prod.fst).symm.trans keeps.handles

theorem nodup (keeps : arena.Keeps cells) : (cells.map Prod.fst).Nodup :=
  keeps.handles.nodup_iff.mpr List.nodup_range

theorem lt_size (keeps : arena.Keeps cells) {entry : Handle × Cell} (member : entry ∈ cells) :
    entry.1 < arena.size :=
  List.mem_range.mp (keeps.handles.mem_iff.mp (List.mem_map_of_mem member))

theorem size_eq (keeps : arena.Keeps cells) : arena.size = cells.length := by
  have lengths := keeps.handles.length_eq
  rw [List.length_map, List.length_range] at lengths
  exact lengths.symm

theorem empty : Arena.empty.Keeps [] where
  cell := fun _ impossible => (List.not_mem_nil impossible).elim
  handles := List.Perm.refl _

end Keeps

/-! ## Steps on cells -/

variable {cells : List (Handle × Cell)} {node : Handle} {found : Cell}

theorem cell_yields (before : Arena -> Prop)
    (look : forall arena, before arena -> arena.cell? node = some found) :
    Yields before (cell node) found before := by
  intro arena holds
  have read : Yields (fun other => other = arena) get arena before :=
    fun other same => ⟨other, by rw [same]; rfl, same ▸ holds, .refl other⟩
  have answered : Yields (fun other => other = arena) (cell node) found before := by
    apply read.bind
    rw [look arena holds]
    exact .pure found
  exact answered arena rfl

theorem kind_yields (before : Arena -> Prop)
    (look : forall arena, before arena -> arena.cell? node = some found) :
    Yields before (kind node) found.kind before :=
  (cell_yields before look).bind (.pure found.kind)

theorem isAttached_yields (before : Arena -> Prop)
    (look : forall arena, before arena -> arena.cell? node = some found) :
    Yields before (isAttached node) found.parent.isSome before :=
  (cell_yields before look).bind (.pure found.parent.isSome)

theorem change_yields (update : Cell -> Cell)
    (kept : (update found).kind = found.kind := by rfl) :
    Yields (Keeps ((node, found) :: cells)) (change node update) ()
      (Keeps ((node, update found) :: cells)) := by
  have look : forall arena : Arena, arena.Keeps ((node, found) :: cells) ->
      arena.cell? node = some found :=
    fun arena keeps => keeps.cell (node, found) List.mem_cons_self
  apply (cell_yields _ look).bind
  intro arena keeps
  refine ⟨⟨arena.cells.modify node update⟩, rfl, ⟨?_, ?_⟩, ?_⟩
  · intro entry member
    change (arena.cells.modify node update)[entry.1]? = some entry.2
    rw [Array.getElem?_modify]
    rcases List.mem_cons.mp member with same | other
    · subst same
      have kept := look arena keeps
      unfold cell? at kept
      rw [if_pos rfl, kept]
      rfl
    · have different : node ≠ entry.1 := by
        have fresh := (List.nodup_cons.mp keeps.nodup).1
        intro same
        exact fresh (List.mem_map.mpr ⟨entry, other, same.symm⟩)
      rw [if_neg different]
      exact keeps.cell entry (List.mem_cons_of_mem _ other)
  · have size : (⟨arena.cells.modify node update⟩ : Arena).size = arena.size :=
      Array.size_modify
    rw [size]
    exact keeps.handles
  · intro other before lookOther
    change Exists fun later : Cell => (arena.cells.modify node update)[other]? = some later ∧ _
    have stored : arena.cells[other]? = some before := lookOther
    rw [Array.getElem?_modify, stored]
    by_cases same : node = other
    · subst same
      rw [look arena keeps] at lookOther
      rw [if_pos rfl, ← Option.some.inj lookOther]
      exact ⟨update found, rfl, kept⟩
    · rw [if_neg same]
      exact ⟨before, rfl, rfl⟩

/-- A change of the second entry of the list. -/
theorem change_second_yields (first : Handle × Cell) (update : Cell -> Cell)
    (kept : (update found).kind = found.kind := by rfl) :
    Yields (Keeps (first :: (node, found) :: cells)) (change node update) ()
      (Keeps (first :: (node, update found) :: cells)) :=
  ((change_yields update kept).weaken (fun _ keeps => keeps.perm (List.Perm.swap _ _ _))).relax
    (fun _ keeps => keeps.perm (List.Perm.swap _ _ _))

/-- A change of the third entry of the list. -/
theorem change_third_yields (first second : Handle × Cell) (update : Cell -> Cell)
    (kept : (update found).kind = found.kind := by rfl) :
    Yields (Keeps (first :: second :: (node, found) :: cells)) (change node update) ()
      (Keeps (first :: second :: (node, update found) :: cells)) := by
  have moved : forall entry : Handle × Cell,
      (first :: second :: entry :: cells).Perm (entry :: first :: second :: cells) := by
    intro entry
    exact (List.Perm.cons first (List.Perm.swap _ _ _)).trans (List.Perm.swap _ _ _)
  exact ((change_yields update kept).weaken (fun _ keeps => keeps.perm (moved _))).relax
    (fun _ keeps => keeps.perm (moved _).symm)

/-- A new cell takes the first handle that is not given out. -/
theorem alloc_yields_of_size (size : Nat) (added : Kind) (counted : cells.length = size) :
    Yields (Keeps cells) (alloc added) size (Keeps ((size, .alone added) :: cells)) := by
  intro arena keeps
  have sized : arena.size = size := keeps.size_eq.trans counted
  refine ⟨⟨arena.cells.push (.alone added)⟩, ?_, ⟨?_, ?_⟩, ?_⟩
  · rw [← sized]
    rfl
  · intro entry member
    change (arena.cells.push (.alone added))[entry.1]? = some entry.2
    rw [Array.getElem?_push]
    have here : arena.cells.size = size := sized
    rcases List.mem_cons.mp member with same | other
    · subst same
      rw [if_pos here.symm]
    · have bound := keeps.lt_size other
      rw [if_neg (by rw [sized] at bound; rw [here]; exact Nat.ne_of_lt bound)]
      exact keeps.cell entry other
  · have grown : (⟨arena.cells.push (.alone added)⟩ : Arena).size = size + 1 := by
      rw [← sized]
      exact Array.size_push _
    rw [grown, List.range_succ, List.map_cons]
    have handles := keeps.handles
    rw [sized] at handles
    exact (List.Perm.cons size handles).trans (List.perm_append_singleton size _).symm
  · intro other before lookOther
    have stored : arena.cells[other]? = some before := lookOther
    rcases Array.getElem?_eq_some_iff.mp stored with ⟨bound, _⟩
    refine ⟨before, ?_, rfl⟩
    change (arena.cells.push (.alone added))[other]? = some before
    rw [Array.getElem?_push, if_neg (Nat.ne_of_lt bound)]
    exact stored

end Arena

end PlanningDomain
