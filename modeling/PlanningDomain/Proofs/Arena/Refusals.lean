import PlanningDomain.Proofs.Arena.Requests

namespace PlanningDomain

/-!
# What is refused, and what is not

In a well-formed arena a request is refused if it is a misuse, and only then.  This
holds of requests that put a node below itself too, which are no misuse.  The arena
is not well formed after these, so nothing can be said of its expressions.  It is
enough that every link leads to some node.  A change writes to nodes only that it was
given or that it has found by a link.
-/

/-- All links of a cell lead to nodes of an arena of some size.  The cell may be known
to have a node above it. -/
structure Cell.Linked (size : Nat) (held : Prop) (found : Cell) : Prop where
  parent : forall link : Handle, found.parent = some link -> link < size
  first : forall link : Handle, found.first = some link -> link < size
  last : forall link : Handle, found.last = some link -> link < size
  previous : forall link : Handle, found.previous = some link -> link < size
  next : forall link : Handle, found.next = some link -> link < size
  attached : held -> found.parent ≠ none

theorem lt_of_some {size : Nat} {node : Handle} (bound : node < size) :
    forall link : Handle, some node = some link -> link < size :=
  fun _ same => Option.some.inj same ▸ bound

theorem lt_of_none {size : Nat} : forall link : Handle, none = some link -> link < size :=
  fun _ impossible => (Option.some_ne_none _ impossible.symm).elim

namespace Cell.Linked

variable {size : Nat} {held : Prop} {found : Cell} {link : Link}

/-- A node that is put somewhere becomes attached. -/
theorem put {parent : Handle} {before after : Link} (linked : found.Linked size held)
    (bound : parent < size) (isBefore : forall node : Handle, before = some node -> node < size)
    (isAfter : forall node : Handle, after = some node -> node < size) :
    ({ found with parent := some parent, previous := before, next := after } : Cell).Linked
      size held where
  parent := lt_of_some bound
  first := linked.first
  last := linked.last
  previous := isBefore
  next := isAfter
  attached := fun _ => Option.some_ne_none _

theorem first_set (linked : found.Linked size held)
    (bound : forall node : Handle, link = some node -> node < size) :
    ({ found with first := link } : Cell).Linked size held :=
  { linked with first := bound }

theorem last_set (linked : found.Linked size held)
    (bound : forall node : Handle, link = some node -> node < size) :
    ({ found with last := link } : Cell).Linked size held :=
  { linked with last := bound }

theorem previous_set (linked : found.Linked size held)
    (bound : forall node : Handle, link = some node -> node < size) :
    ({ found with previous := link } : Cell).Linked size held :=
  { linked with previous := bound }

theorem next_set (linked : found.Linked size held)
    (bound : forall node : Handle, link = some node -> node < size) :
    ({ found with next := link } : Cell).Linked size held :=
  { linked with next := bound }

end Cell.Linked

namespace Arena

/-- All links of an arena of some size lead to its nodes, and some nodes are known to
be attached. -/
structure Linked (size : Nat) (held : Handle -> Prop) (arena : Arena) : Prop where
  sized : arena.size = size
  cell : forall node found, arena.cell? node = some found -> found.Linked size (held node)

section Linked

variable {size : Nat} {held : Handle -> Prop} {arena : Arena}

theorem Linked.exists_cell {node : Handle} (linked : arena.Linked size held)
    (bound : node < size) : Exists fun found : Cell => arena.cell? node = some found :=
  WellFormed.exists_cell (linked.sized ▸ bound)

theorem Linked.weaken (linked : arena.Linked size held) :
    arena.Linked size (fun _ => False) where
  sized := linked.sized
  cell := fun node found look =>
    { linked.cell node found look with attached := fun impossible => impossible.elim }

theorem change_linked_yields {node : Handle} {update : Cell -> Cell} (bound : node < size)
    (keeps : forall found : Cell, found.Linked size (held node) ->
      (update found).Linked size (held node))
    (kinds : forall found : Cell, (update found).kind = found.kind := by exact fun _ => rfl) :
    Yields (Linked size held) (change node update) () (Linked size held) := by
  intro arena linked
  rcases linked.exists_cell bound with ⟨found, look⟩
  have looked (other : Handle) : (⟨arena.cells.modify node update⟩ : Arena).cell? other =
      if node = other then (arena.cell? other).map update else arena.cell? other :=
    Array.getElem?_modify
  have run : (change node update).run.run arena =
      some (.ok (), ⟨arena.cells.modify node update⟩) := by
    change ((cell node).run.run arena >>= fun outcome => _) = _
    rw [run_cell look]
    rfl
  refine ⟨_, run, ⟨Array.size_modify.trans linked.sized, fun other cell lookOther => ?_⟩,
    fun other before lookBefore => ?_⟩
  · rw [looked] at lookOther
    split at lookOther
    case isTrue same =>
      subst same
      rw [look] at lookOther
      rw [← Option.some.inj lookOther]
      exact keeps found (linked.cell node found look)
    case isFalse => exact linked.cell other cell lookOther
  · rw [looked, lookBefore]
    split
    · exact ⟨update before, rfl, kinds before⟩
    · exact ⟨before, rfl, rfl⟩

/-! ## Changes that only follow links -/

theorem append_linked_yields {parent child : Handle} (linked : arena.Linked size held)
    (detached : arena.Detached child) (different : parent ≠ child) (bound : parent < size) :
    Yields (fun other => other = arena) (append parent child) () (Linked size held) := by
  rcases detached with ⟨found, look, alone⟩
  rcases linked.exists_cell bound with ⟨place, lookPlace⟩
  have childBound : child < size := linked.sized ▸ cell?_lt look
  unfold append
  apply (isAttached_yields _ (fun _ same => same ▸ look)).bind
  rw [alone, if_neg (by exact Bool.false_ne_true), if_neg different]
  apply (cell_yields _ (fun _ same => same ▸ lookPlace)).bind
  refine Yields.weaken (fun _ same => same ▸ linked) ?_
  have tails := (linked.cell parent place lookPlace).last
  have isChild := lt_of_some childBound
  apply (change_linked_yields childBound (fun _ kept => kept.put bound tails lt_of_none)).bind
  cases tail : place.last with
  | some tail =>
      apply (change_linked_yields (tails _ tail) (fun _ kept => kept.next_set isChild)).bind
      exact change_linked_yields bound (fun _ kept => kept.last_set isChild)
  | none =>
      apply (change_linked_yields bound (fun _ kept => kept.first_set isChild)).bind
      exact change_linked_yields bound (fun _ kept => kept.last_set isChild)

theorem insert_linked_yields {anchor child : Handle} (linked : arena.Linked size held)
    (attached : arena.Attached anchor) (detached : arena.Detached child) :
    Yields (fun other => other = arena) (insert anchor child) () (Linked size held) := by
  rcases attached with ⟨place, parent, lookPlace, above⟩
  rcases detached with ⟨found, look, alone⟩
  have anchorBound : anchor < size := linked.sized ▸ cell?_lt lookPlace
  have childBound : child < size := linked.sized ▸ cell?_lt look
  have isChild := lt_of_some childBound
  have known := linked.cell anchor place lookPlace
  have bound := known.parent parent above
  unfold insert
  apply (cell_yields _ (fun _ same => same ▸ lookPlace)).bind
  rw [above]
  apply (isAttached_yields _ (fun _ same => same ▸ look)).bind
  rw [alone, if_neg (by exact Bool.false_ne_true)]
  refine Yields.weaken (fun _ same => same ▸ linked) ?_
  apply (change_linked_yields childBound
    (fun _ kept => kept.put bound (lt_of_some anchorBound) known.next)).bind
  apply (change_linked_yields anchorBound (fun _ kept => kept.next_set isChild)).bind
  cases next : place.next with
  | some next =>
      exact change_linked_yields (known.next _ next) (fun _ kept => kept.previous_set isChild)
  | none => exact change_linked_yields bound (fun _ kept => kept.last_set isChild)

theorem unparent_linked_yields {node : Handle} (linked : arena.Linked size held)
    (attached : arena.Attached node) :
    Yields (fun other => other = arena) (unparent node) () (Linked size (fun _ => False)) := by
  rcases attached with ⟨place, parent, look, above⟩
  have nodeBound : node < size := linked.sized ▸ cell?_lt look
  have known := linked.cell node place look
  have bound := known.parent parent above
  have detach : Yields (Linked size (fun _ => False))
      (change node (fun cell => { cell with parent := none, previous := none, next := none })) ()
      (Linked size (fun _ => False)) :=
    change_linked_yields nodeBound (fun _ kept => { kept with
      parent := lt_of_none
      previous := lt_of_none
      next := lt_of_none
      attached := fun impossible => impossible.elim })
  unfold unparent
  apply (cell_yields _ (fun _ same => same ▸ look)).bind
  rw [above]
  refine Yields.weaken (fun _ same => same ▸ linked.weaken) ?_
  cases previous : place.previous with
  | some previous =>
      apply (change_linked_yields (known.previous _ previous)
        (fun _ kept => kept.next_set known.next)).bind
      cases next : place.next with
      | some next =>
          refine Yields.bind (change_linked_yields (known.next _ next) (fun _ kept => ?_)) detach
          exact kept.previous_set (previous ▸ known.previous)
      | none =>
          refine Yields.bind (change_linked_yields bound (fun _ kept => ?_)) detach
          exact kept.last_set (previous ▸ known.previous)
  | none =>
      apply (change_linked_yields bound (fun _ kept => kept.first_set known.next)).bind
      cases next : place.next with
      | some next =>
          refine Yields.bind (change_linked_yields (known.next _ next) (fun _ kept => ?_)) detach
          exact kept.previous_set lt_of_none
      | none =>
          refine Yields.bind (change_linked_yields bound (fun _ kept => ?_)) detach
          exact kept.last_set lt_of_none

/-- While the new node is put beside it, the old one stays attached. -/
theorem replace_linked_yields {old new : Handle}
    (linked : arena.Linked size (fun node => node = old)) (different : old ≠ new)
    (attached : arena.Attached old) (detached : arena.Detached new) :
    Yields (fun other => other = arena) (replace old new) () (Linked size (fun _ => False)) := by
  rcases attached with ⟨found, parent, look, above⟩
  unfold replace
  rw [if_neg different]
  apply (isAttached_yields _ (fun _ same => same ▸ look)).bind
  rw [above, if_pos (by rfl)]
  apply (insert_linked_yields linked ⟨found, parent, look, above⟩ detached).bind
  intro between kept
  rcases kept.exists_cell (linked.sized ▸ cell?_lt look) with ⟨place, lookPlace⟩
  cases still : place.parent with
  | none => exact ((kept.cell old place lookPlace).attached rfl still).elim
  | some parent =>
      exact unparent_linked_yields kept ⟨place, parent, lookPlace, still⟩ between rfl

end Linked

/-! ## Every request -/

/-- The work is refused, in whatever state it leaves the arena. -/
def Panics (arena : Arena) (work : Edit Unit) : Prop :=
  Exists fun misuse : Misuse => Exists fun left : Arena =>
    work.run.run arena = some (.error misuse, left)

section Requests

variable {arena : Arena}

theorem WellFormed.linked (wellFormed : arena.WellFormed) {held : Handle -> Prop}
    (attached : forall node, held node -> arena.Attached node) :
    arena.Linked arena.size held where
  sized := rfl
  cell := fun node found look =>
    { parent := fun link is => wellFormed.bounded node found look link (Or.inl is)
      first := fun link is => wellFormed.bounded node found look link (Or.inr (Or.inl is))
      last := fun link is =>
        wellFormed.bounded node found look link (Or.inr (Or.inr (Or.inl is)))
      previous := fun link is =>
        wellFormed.bounded node found look link (Or.inr (Or.inr (Or.inr (Or.inl is))))
      next := fun link is =>
        wellFormed.bounded node found look link (Or.inr (Or.inr (Or.inr (Or.inr is))))
      attached := fun isHeld alone =>
        (attached node isHeld).not_detached ⟨found, look, alone⟩ }

theorem ends_of_yields {work : Edit Unit} {after : Arena -> Prop}
    (yields : Yields (fun other => other = arena) work () after) :
    Exists fun left : Arena => work.run.run arena = some (.ok (), left) := by
  rcases yields arena rfl with ⟨left, run, _⟩
  exact ⟨left, run⟩

/-- What is no misuse comes to an end, also if it puts a node below itself. -/
theorem WellFormed.ends_of_not_misused (wellFormed : arena.WellFormed) (request : Request)
    (proper : ¬ request.Misused arena) :
    Exists fun left : Arena => request.work.run.run arena = some (.ok (), left) := by
  have linked : arena.Linked arena.size (fun _ => False) :=
    wellFormed.linked (fun _ impossible => impossible.elim)
  have settled (stays : request.moved? = none) :
      Exists fun left : Arena => request.work.run.run arena = some (.ok (), left) := by
    have allowed : ¬ request.Circular arena := by
      intro ⟨place, moved, named, _⟩
      rw [stays] at named
      exact Option.some_ne_none _ named.symm
    rcases wellFormed.settles request allowed proper with ⟨left, run, _⟩
    exact ⟨left, run⟩
  cases request with
  | append parent child =>
      rcases append_of_not_misused proper with ⟨detached, different, bound⟩
      exact ends_of_yields (append_linked_yields linked detached different bound)
  | insert anchor child =>
      rcases insert_of_not_misused proper with ⟨attached, detached⟩
      exact ends_of_yields (insert_linked_yields linked attached detached)
  | replace old new =>
      by_cases same : old = new
      · subst same
        exact ends_of_yields (replace_self_yields _ old)
      · rcases replace_of_not_misused proper same with ⟨known, detached⟩
        rcases (arena.unknown_or old).resolve_left (Nat.not_le_of_lt known) with alone | attached
        · exact ⟨arena, run_replace_of_detached proper same alone⟩
        · have holds : forall node, node = old -> arena.Attached node :=
            fun _ isOld => isOld ▸ attached
          exact ends_of_yields
            (replace_linked_yields (wellFormed.linked holds) same attached detached)
  | _ => exact settled rfl

end Requests

/-- A request is refused if it is a misuse, and only then.  If it is refused, then
nothing has been changed, and otherwise it comes to an end. -/
theorem panics_iff_misused {arena : Arena} (wellFormed : arena.WellFormed) (request : Request) :
    (arena.Panics request.work ↔ request.Misused arena) ∧
      (forall misuse left, request.work.run.run arena = some (.error misuse, left) ->
        left = arena) ∧
      (¬ request.Misused arena -> Exists fun left : Arena =>
        request.work.run.run arena = some (.ok (), left)) := by
  have proper_of_run {misuse : Misuse} {left : Arena}
      (run : request.work.run.run arena = some (.error misuse, left)) : request.Misused arena := by
    by_contra proper
    rcases wellFormed.ends_of_not_misused request proper with ⟨other, again⟩
    rw [run] at again
    exact nomatch (Prod.mk.inj (Option.some.inj again)).1
  refine ⟨⟨fun panics => ?_, fun misused => ?_⟩, fun misuse left run => ?_,
    wellFormed.ends_of_not_misused request⟩
  · rcases panics with ⟨misuse, left, run⟩
    exact proper_of_run run
  · rcases refuses_of_misused request misused with ⟨misuse, run⟩
    exact ⟨misuse, arena, run⟩
  · rcases refuses_of_misused request (proper_of_run run) with ⟨other, again⟩
    rw [run] at again
    exact (Prod.mk.inj (Option.some.inj again)).2

/-- A disjunction is not refused as an operand of its own operand, which is refused
as its operand. -/
theorem panics_iff_misused_pair :
    let arena : Arena := ⟨#[⟨.or, none, some 1, some 1, none, none⟩,
      ⟨.and, some 0, none, none, none, none⟩]⟩
    arena.WellFormed ∧ ¬ arena.Panics (append 1 0) ∧ arena.Panics (append 0 1) := by
  intro arena
  have stored : arena.Stores ⟨2, [.mk 0 .or [.mk 1 .and []]]⟩ := ⟨⟨by decide, by decide⟩, rfl⟩
  have attached : arena.Attached 1 := ⟨_, 0, rfl, rfl⟩
  have proper : ¬ (Request.append 1 0).Misused arena := by
    rintro (unknown | above | itself | unknown)
    · exact absurd unknown (by decide)
    · exact above.not_detached ⟨_, rfl, rfl⟩
    · exact absurd itself (by decide)
    · exact absurd unknown (by decide)
  refine ⟨stored.wellFormed, fun panics => ?_, ?_⟩
  · exact proper ((panics_iff_misused stored.wellFormed (.append 1 0)).1.mp panics)
  · exact (panics_iff_misused stored.wellFormed (.append 0 1)).1.mpr (Or.inr (Or.inl attached))

end Arena

end PlanningDomain
