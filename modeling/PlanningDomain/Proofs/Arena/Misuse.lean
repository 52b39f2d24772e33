import PlanningDomain.Arena.Conversion
import PlanningDomain.Proofs.Arena.WellFormed

namespace PlanningDomain

/-!
# Requests and their misuse

A request to an arena may name any handles.  It may be one that makes no sense, and
is then refused.  It is refused before anything is written, in every arena, whether
the links of the arena are well formed or not.
-/

namespace Arena

/-- A node of the arena without a node above it. -/
def Detached (arena : Arena) (node : Handle) : Prop :=
  Exists fun found : Cell => arena.cell? node = some found ∧ found.parent = none

/-- A node of the arena with a node above it. -/
def Attached (arena : Arena) (node : Handle) : Prop :=
  Exists fun found : Cell => Exists fun parent : Handle =>
    arena.cell? node = some found ∧ found.parent = some parent

section Nodes

variable {arena : Arena} {node : Handle}

theorem cell?_eq_none_iff : arena.cell? node = none ↔ arena.size ≤ node :=
  Array.getElem?_eq_none_iff

theorem unknown_or (arena : Arena) (node : Handle) :
    arena.size ≤ node ∨ arena.Detached node ∨ arena.Attached node := by
  cases look : arena.cell? node with
  | none => exact Or.inl (cell?_eq_none_iff.mp look)
  | some found =>
      cases above : found.parent with
      | none => exact Or.inr (Or.inl ⟨found, look, above⟩)
      | some parent => exact Or.inr (Or.inr ⟨found, parent, look, above⟩)

theorem Detached.lt_size (detached : arena.Detached node) : node < arena.size := by
  rcases detached with ⟨found, look, _⟩
  exact cell?_lt look

theorem Attached.lt_size (attached : arena.Attached node) : node < arena.size := by
  rcases attached with ⟨found, _, look, _⟩
  exact cell?_lt look

theorem Attached.not_detached (attached : arena.Attached node) : ¬ arena.Detached node := by
  intro ⟨again, lookAgain, alone⟩
  rcases attached with ⟨found, parent, look, above⟩
  rw [look] at lookAgain
  rw [Option.some.inj lookAgain, alone] at above
  exact Option.some_ne_none _ above.symm

theorem Detached.map_parent (detached : arena.Detached node) :
    (arena.cell? node).map Cell.parent = some none := by
  rcases detached with ⟨found, look, alone⟩
  rw [look, Option.map_some, alone]

end Nodes

end Arena

/-- A request to an arena, with the handles that it names. -/
inductive Request where
  | alloc (kind : Kind)
  | append (parent child : Handle)
  | insert (anchor child : Handle)
  | unparent (node : Handle)
  | replace (old new : Handle)
  | duplicate (node : Handle)
  | flatten (root : Handle)
  | toNnf (root : Handle)
  | toDnf (root : Handle)
deriving DecidableEq, Repr

namespace Request

/-- The work that a request asks for, whatever it answers. -/
def work : Request -> Edit Unit
  | alloc kind => do let _ ← Arena.alloc kind
  | append parent child => Arena.append parent child
  | insert anchor child => Arena.insert anchor child
  | unparent node => Arena.unparent node
  | replace old new => Arena.replace old new
  | duplicate node => do let _ ← node.duplicate
  | flatten root => root.flatten
  | toNnf root => do let _ ← root.toNnf
  | toDnf root => do let _ ← root.toDnf

/-- The arena after a request.  A request that is refused counts as if it had
not been made.  There is none if the work does not come to an end. -/
def apply (request : Request) (arena : Arena) : Option Arena :=
  (request.work.run.run arena).map (fun outcome =>
    match outcome.1 with
    | .ok _ => outcome.2
    | .error _ => arena)

/-- The nodes that are given a common parent by a request: one that has its
place already, or is the parent, and one that is to be put there. -/
def moved? : Request -> Option (Handle × Handle)
  | append parent child => some (parent, child)
  | insert anchor child => some (anchor, child)
  | replace old new => some (old, new)
  | _ => none

/-- The request names a node that the arena does not have, or one that is attached
where it may not be, or detached where it may not be, or one node twice. -/
def Misused (arena : Arena) : Request -> Prop
  | alloc _ => False
  | append parent child =>
      arena.size ≤ child ∨ arena.Attached child ∨ parent = child ∨ arena.size ≤ parent
  | insert anchor child =>
      (arena.size ≤ anchor ∨ arena.Detached anchor) ∨ arena.size ≤ child ∨ arena.Attached child
  | unparent node => arena.size ≤ node ∨ arena.Detached node
  | replace old new => old ≠ new ∧ (arena.size ≤ old ∨ arena.size ≤ new ∨ arena.Attached new)
  | duplicate node => arena.size ≤ node
  | flatten root => arena.size ≤ root
  | toNnf root => arena.size ≤ root
  | toDnf root => arena.size ≤ root

/-- The request puts a detached node into a place that is below the node. -/
def Circular (request : Request) (arena : Arena) : Prop :=
  Exists fun place : Handle => Exists fun moved : Handle =>
    request.moved? = some (place, moved) ∧ (arena.cell? moved).map Cell.parent = some none ∧
      Relation.TransGen arena.Below place moved

end Request

namespace Arena

/-! ## Refusals -/

/-- The work is refused, and the arena is left as it was. -/
def Refuses {alpha : Type} (arena : Arena) (work : Edit alpha) : Prop :=
  Exists fun misuse : Misuse => work.run.run arena = some (.error misuse, arena)

namespace Refuses

variable {alpha beta : Type} {arena : Arena}

theorem throw (misuse : Misuse) : arena.Refuses (throw misuse : Edit alpha) :=
  ⟨misuse, rfl⟩

theorem bind {first : Edit alpha} {next : alpha -> Edit beta} (refuses : arena.Refuses first) :
    arena.Refuses (first >>= next) := by
  rcases refuses with ⟨misuse, run⟩
  refine ⟨misuse, ?_⟩
  change (first.run.run arena >>= fun outcome => _) = _
  rw [run]
  rfl

/-- The arena has only been looked at before what follows is refused. -/
theorem after {first : Edit alpha} {next : alpha -> Edit beta} {found : alpha}
    (looked : first.run.run arena = some (.ok found, arena))
    (refuses : arena.Refuses (next found)) :
    arena.Refuses (first >>= next) := by
  rcases refuses with ⟨misuse, run⟩
  refine ⟨misuse, ?_⟩
  change (first.run.run arena >>= fun outcome => _) = _
  rw [looked]
  exact run

theorem cell {node : Handle} (unknown : arena.cell? node = none) :
    arena.Refuses (Arena.cell node) := by
  have read : (get : Edit Arena).run.run arena = some (.ok arena, arena) := rfl
  apply after read
  rw [unknown]
  exact .throw (.unknownHandle node)

end Refuses

section Looking

variable {arena : Arena} {node : Handle} {found : Cell}

theorem run_cell (look : arena.cell? node = some found) :
    (cell node).run.run arena = some (.ok found, arena) := by
  rcases cell_yields (fun other => other = arena) (fun other same => same ▸ look) arena rfl with
    ⟨left, run, same, _⟩
  rw [run, same]

theorem run_isAttached (look : arena.cell? node = some found) :
    (isAttached node).run.run arena = some (.ok found.parent.isSome, arena) := by
  obtain ⟨left, run, same, _⟩ := isAttached_yields (fun other => other = arena)
    (fun other same => same ▸ look) arena rfl
  rw [run, same]

end Looking

/-! ## Every misuse is refused -/

section Misuse

variable {arena : Arena}

theorem refuses_cell {node : Handle} (unknown : arena.size ≤ node) :
    arena.Refuses (cell node) :=
  .cell (cell?_eq_none_iff.mpr unknown)

theorem run_isAttached_of_detached {node : Handle} (detached : arena.Detached node) :
    (isAttached node).run.run arena = some (.ok false, arena) := by
  rcases detached with ⟨found, look, alone⟩
  rw [run_isAttached look, alone]
  rfl

theorem run_isAttached_of_attached {node : Handle} (attached : arena.Attached node) :
    (isAttached node).run.run arena = some (.ok true, arena) := by
  rcases attached with ⟨found, parent, look, above⟩
  rw [run_isAttached look, above]
  rfl

theorem append_refuses {parent child : Handle}
    (misused : (Request.append parent child).Misused arena) :
    arena.Refuses (append parent child) := by
  rcases arena.unknown_or child with unknown | detached | attached
  · exact .bind (.bind (refuses_cell unknown))
  · refine .after (run_isAttached_of_detached detached) ?_
    rw [if_neg (by exact Bool.false_ne_true)]
    rcases misused with unknown | attached | itself | unknown
    · exact (Nat.not_le_of_lt detached.lt_size unknown).elim
    · exact (attached.not_detached detached).elim
    · rw [if_pos itself]
      exact .throw _
    · split
      · exact .throw _
      · exact .bind (refuses_cell unknown)
  · exact .after (run_isAttached_of_attached attached) (.throw _)

/-- A node that may not be put anywhere is found out before the rest. -/
theorem refuses_of_not_free {alpha : Type} {node : Handle} {misuse : Misuse} {work : Edit alpha}
    (misused : arena.size ≤ node ∨ arena.Attached node) :
    arena.Refuses (do if (← isAttached node) then throw misuse else work) := by
  rcases misused with unknown | attached
  · exact .bind (.bind (refuses_cell unknown))
  · exact .after (run_isAttached_of_attached attached) (.throw _)

theorem insert_refuses {anchor child : Handle}
    (misused : (Request.insert anchor child).Misused arena) :
    arena.Refuses (insert anchor child) := by
  rcases arena.unknown_or anchor with unknown | ⟨found, look, alone⟩ | attached
  · exact .bind (refuses_cell unknown)
  · refine .after (run_cell look) ?_
    rw [alone]
    exact .throw _
  · rcases misused with (unknown | detached) | misused
    · exact (Nat.not_le_of_lt attached.lt_size unknown).elim
    · exact (attached.not_detached detached).elim
    · rcases attached with ⟨found, parent, look, above⟩
      refine .after (run_cell look) ?_
      rw [above]
      exact refuses_of_not_free misused

theorem unparent_refuses {node : Handle} (misused : (Request.unparent node).Misused arena) :
    arena.Refuses (unparent node) := by
  rcases misused with unknown | ⟨found, look, alone⟩
  · exact .bind (refuses_cell unknown)
  · refine .after (run_cell look) ?_
    rw [alone]
    exact .throw _

theorem replace_refuses {old new : Handle} (misused : (Request.replace old new).Misused arena) :
    arena.Refuses (replace old new) := by
  rcases misused with ⟨different, misused⟩
  unfold replace
  rw [if_neg different]
  rcases arena.unknown_or old with unknown | detached | attached
  · exact .bind (.bind (refuses_cell unknown))
  · refine .after (run_isAttached_of_detached detached) ?_
    rw [if_neg (by exact Bool.false_ne_true)]
    refine refuses_of_not_free (misused.resolve_left ?_)
    exact Nat.not_le_of_lt detached.lt_size
  · refine .after (run_isAttached_of_attached attached) (.bind (insert_refuses (Or.inr ?_)))
    exact misused.resolve_left (Nat.not_le_of_lt attached.lt_size)

/-- Every misuse is refused, and nothing has been changed before. -/
theorem refuses_of_misused (request : Request) (misused : request.Misused arena) :
    arena.Refuses request.work := by
  cases request with
  | alloc kind => exact misused.elim
  | append parent child => exact append_refuses misused
  | insert anchor child => exact insert_refuses misused
  | unparent node => exact unparent_refuses misused
  | replace old new => exact replace_refuses misused
  | duplicate node =>
      rw [Request.work, Handle.duplicate]
      exact .bind (.bind (.bind (refuses_cell misused)))
  | flatten root =>
      rw [Request.work, Handle.flatten, Handle.flattenFrom]
      exact .bind (.bind (refuses_cell misused))
  | toNnf root =>
      rw [Request.work, Handle.toNnf, Handle.negate]
      exact .bind (.bind (.bind (.bind (refuses_cell misused))))
  | toDnf root =>
      rw [Request.work, Handle.toDnf, Handle.toNnf, Handle.negate]
      exact .bind (.bind (.bind (.bind (.bind (refuses_cell misused)))))

/-! ## Requests that are no misuse -/

/-- A place below no node is not below the node that is put there. -/
theorem not_circular_of_detached {request : Request} {place moved : Handle}
    (named : request.moved? = some (place, moved)) (detached : arena.Detached place) :
    ¬ request.Circular arena := by
  intro ⟨other, _, again, _, below⟩
  rw [named] at again
  rw [← (Prod.mk.inj (Option.some.inj again)).1] at below
  rcases Relation.TransGen.head'_iff.mp below with ⟨parent, ⟨found, look, above⟩, _⟩
  exact Attached.not_detached ⟨found, parent, look, above⟩ detached

theorem free_of_not_misused {node : Handle}
    (proper : ¬ (arena.size ≤ node ∨ arena.Attached node)) : arena.Detached node := by
  rcases not_or.mp proper with ⟨known, notAttached⟩
  exact ((arena.unknown_or node).resolve_left known).resolve_right notAttached

theorem held_of_not_misused {node : Handle}
    (proper : ¬ (arena.size ≤ node ∨ arena.Detached node)) : arena.Attached node := by
  rcases not_or.mp proper with ⟨known, notDetached⟩
  exact ((arena.unknown_or node).resolve_left known).resolve_left notDetached

theorem append_of_not_misused {parent child : Handle}
    (proper : ¬ (Request.append parent child).Misused arena) :
    arena.Detached child ∧ parent ≠ child ∧ parent < arena.size := by
  rcases not_or.mp proper with ⟨known, others⟩
  rcases not_or.mp others with ⟨notAttached, others⟩
  rcases not_or.mp others with ⟨different, knownParent⟩
  exact ⟨free_of_not_misused (not_or.mpr ⟨known, notAttached⟩), different,
    Nat.lt_of_not_le knownParent⟩

theorem insert_of_not_misused {anchor child : Handle}
    (proper : ¬ (Request.insert anchor child).Misused arena) :
    arena.Attached anchor ∧ arena.Detached child := by
  rcases not_or.mp proper with ⟨isAnchor, isChild⟩
  exact ⟨held_of_not_misused isAnchor, free_of_not_misused isChild⟩

theorem replace_of_not_misused {old new : Handle}
    (proper : ¬ (Request.replace old new).Misused arena) (different : old ≠ new) :
    old < arena.size ∧ arena.Detached new := by
  rcases not_or.mp (fun misused => proper ⟨different, misused⟩) with ⟨known, others⟩
  exact ⟨Nat.lt_of_not_le known, free_of_not_misused others⟩

/-- A node that is detached has no place to give up. -/
theorem run_replace_of_detached {old new : Handle}
    (proper : ¬ (Request.replace old new).Misused arena) (different : old ≠ new)
    (alone : arena.Detached old) : (replace old new).run.run arena = some (.ok (), arena) := by
  rcases replace_of_not_misused proper different with ⟨_, detached⟩
  unfold replace
  rw [if_neg different]
  change ((isAttached old).run.run arena >>= fun outcome => _) = _
  rw [run_isAttached_of_detached alone]
  change ((isAttached new).run.run arena >>= fun outcome => _) = _
  rw [run_isAttached_of_detached detached]
  rfl

end Misuse

end Arena

end PlanningDomain
