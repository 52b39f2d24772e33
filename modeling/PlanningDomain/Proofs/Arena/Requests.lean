import PlanningDomain.Proofs.Arena.Disjunctions
import PlanningDomain.Proofs.Arena.Misuse
import PlanningDomain.Proofs.Arena.Trees

namespace PlanningDomain

/-!
# Any sequence of requests

An arena is changed by requests only, and a request may name any handles.  If it
is a misuse, it is refused.  One thing is asked of the requests.  None may put a
node below itself, which the changes do not find out.  From the empty arena on,
every such request comes to an end, and the arena is well formed after it.  Nodes
are added, but none is taken away, and no kind changes.
-/

namespace Arena

/-- One request, of any kind and with any handles, that is not circular. -/
def Changes (arena later : Arena) : Prop :=
  Exists fun request : Request => ¬ request.Circular arena ∧ request.apply arena = some later

/-! ## Single requests -/

/-- The work ends in a well-formed arena. -/
def Settles (arena : Arena) (work : Edit Unit) : Prop :=
  Exists fun left : Arena =>
    work.run.run arena = some (.ok (), left) ∧ left.WellFormed ∧ arena.Extends left

theorem settles_of_yields {arena : Arena} {work : Edit Unit} {forest left : Forest}
    (stored : arena.Stores forest) (yields : Yields (Stores forest) work () (Stores left)) :
    arena.Settles work := by
  rcases yields arena stored with ⟨later, run, storedLater, extended⟩
  exact ⟨later, run, storedLater.wellFormed, extended⟩

section Single

variable {arena : Arena} {size : Nat} {trees : List Node}

/-- A node and a detached one that it is not below stand in two
expressions. -/
theorem separate (stored : arena.Stores ⟨size, trees⟩) {place moved : Node} {path : List Step}
    (member : place.climb path ∈ trees) (isTop : moved ∈ trees)
    (different : place.handle ≠ moved.handle)
    (notBelow : ¬ Relation.TransGen arena.Below place.handle moved.handle) :
    Exists fun rest : List Node => trees.Perm (place.climb path :: moved :: rest) := by
  have distinct : place.climb path ≠ moved := by
    intro same
    have chain := stored.below_along [] path place (by
      rw [List.append_nil]
      exact member)
    rw [same] at chain
    rcases Relation.reflTransGen_iff_eq_or_transGen.mp chain with equal | below
    · exact different equal.symm
    · exact notBelow below
  rcases List.append_of_mem isTop with ⟨before, after, split⟩
  subst split
  have elsewhere : place.climb path ∈ before ++ after := by
    rcases List.mem_append.mp member with first | later
    · exact List.mem_append_left _ first
    · rcases List.mem_cons.mp later with same | last
      · exact (distinct same).elim
      · exact List.mem_append_right _ last
  rcases List.append_of_mem elsewhere with ⟨left, right, others⟩
  refine ⟨left ++ right, ?_⟩
  apply List.perm_middle.trans
  rw [others]
  exact (List.perm_middle.cons moved).trans (List.Perm.swap _ _ _)

/-- The place of an attached node is below another node. -/
theorem path_of_attached (stored : arena.Stores ⟨size, trees⟩) {node : Node} {path : List Step}
    (member : node.climb path ∈ trees) (attached : arena.Attached node.handle) :
    Exists fun step : Step => Exists fun above : List Step => path = step :: above := by
  rcases attached with ⟨found, parent, look, isParent⟩
  rw [stored.cell?_eq node path member] at look
  cases path with
  | nil =>
      rw [← Option.some.inj look] at isParent
      exact (Option.some_ne_none _ isParent.symm).elim
  | cons step above => exact ⟨step, above, rfl⟩

theorem path_of_detached (stored : arena.Stores ⟨size, trees⟩) {node : Node} {path : List Step}
    (member : node.climb path ∈ trees) (detached : arena.Detached node.handle) : path = [] := by
  rcases detached with ⟨found, look, alone⟩
  rw [stored.cell?_eq node path member] at look
  cases path with
  | nil => rfl
  | cons step above =>
      rw [← Option.some.inj look] at alone
      exact (Option.some_ne_none _ alone).elim

/-- The operand that an attached node is. -/
theorem place_of_attached (stored : arena.Stores ⟨size, trees⟩) {handle : Handle}
    (attached : arena.Attached handle) :
    Exists fun node : Node => Exists fun step : Step => Exists fun path : List Step =>
      Exists fun rest : List Node => node.handle = handle ∧
        trees.Perm ((Node.mk step.handle step.kind (step.left ++ node :: step.right)).climb path ::
          rest) := by
  rcases stored.place_of_lt attached.lt_size with ⟨node, path, rest, same, listed⟩
  subst same
  rcases path_of_attached (stored.perm listed) List.mem_cons_self attached with
    ⟨step, above, split⟩
  subst split
  exact ⟨node, step, above, rest, rfl, node.climb_operand step.handle step.kind _ _ above ▸ listed⟩

/-- The node that a request puts somewhere, and the place that it is put to. -/
theorem places_of_moved (stored : arena.Stores ⟨size, trees⟩) {request : Request}
    {place moved : Handle} (named : request.moved? = some (place, moved))
    (allowed : ¬ request.Circular arena) (bound : place < arena.size)
    (detached : arena.Detached moved) (different : place ≠ moved) :
    Exists fun outer : Node => Exists fun path : List Step => Exists fun inner : Node =>
      Exists fun rest : List Node => outer.handle = place ∧ inner.handle = moved ∧
        trees.Perm (outer.climb path :: inner :: rest) := by
  rcases stored.place_of_lt bound with ⟨outer, path, beside, samePlace, listed⟩
  rcases stored.place_of_lt detached.lt_size with ⟨inner, up, _, sameMoved, listedMoved⟩
  subst samePlace sameMoved
  have isTop := listedMoved.mem_iff.mpr List.mem_cons_self
  have alone := path_of_detached stored isTop detached
  subst alone
  rcases separate stored (listed.mem_iff.mpr List.mem_cons_self) isTop different
      (fun below => allowed ⟨_, _, named, detached.map_parent, below⟩) with ⟨rest, apart⟩
  exact ⟨outer, path, inner, rest, rfl, rfl, apart⟩

/-- The same for a place beside an attached node. -/
theorem places_beside_attached (stored : arena.Stores ⟨size, trees⟩) {request : Request}
    {place moved : Handle} (named : request.moved? = some (place, moved))
    (allowed : ¬ request.Circular arena) (attached : arena.Attached place)
    (detached : arena.Detached moved) :
    Exists fun outer : Node => Exists fun step : Step => Exists fun path : List Step =>
      Exists fun inner : Node => Exists fun rest : List Node =>
        outer.handle = place ∧ inner.handle = moved ∧
          trees.Perm ((Node.mk step.handle step.kind (step.left ++ outer :: step.right)).climb
            path :: inner :: rest) := by
  have different : place ≠ moved := fun same => attached.not_detached (same ▸ detached)
  rcases places_of_moved stored named allowed attached.lt_size detached different with
    ⟨outer, path, inner, rest, isPlace, isMoved, listed⟩
  subst isPlace
  rcases path_of_attached (stored.perm listed) List.mem_cons_self attached with ⟨step, above, split⟩
  subst split
  exact ⟨outer, step, above, inner, rest, rfl, isMoved,
    outer.climb_operand step.handle step.kind _ _ above ▸ listed⟩

theorem append_settles (stored : arena.Stores ⟨size, trees⟩) {parent child : Handle}
    (allowed : ¬ (Request.append parent child).Circular arena)
    (proper : ¬ (Request.append parent child).Misused arena) :
    arena.Settles (append parent child) := by
  rcases append_of_not_misused proper with ⟨detached, different, bound⟩
  rcases places_of_moved stored rfl allowed bound detached different with
    ⟨⟨handle, kind, children⟩, path, moved, rest, rfl, rfl, listed⟩
  exact settles_of_yields (stored.perm listed) (append_yields rest handle kind children moved path)

theorem insert_settles (stored : arena.Stores ⟨size, trees⟩) {anchor child : Handle}
    (allowed : ¬ (Request.insert anchor child).Circular arena)
    (proper : ¬ (Request.insert anchor child).Misused arena) :
    arena.Settles (insert anchor child) := by
  rcases insert_of_not_misused proper with ⟨attached, detached⟩
  rcases places_beside_attached stored rfl allowed attached detached with
    ⟨place, step, path, moved, rest, rfl, rfl, listed⟩
  exact settles_of_yields (stored.perm listed)
    (insert_yields rest step.handle step.kind step.left step.right place moved path)

theorem unparent_settles (stored : arena.Stores ⟨size, trees⟩) {node : Handle}
    (proper : ¬ (Request.unparent node).Misused arena) : arena.Settles (unparent node) := by
  rcases place_of_attached stored (held_of_not_misused proper) with
    ⟨moved, step, path, rest, rfl, listed⟩
  exact settles_of_yields (stored.perm listed)
    (unparent_yields rest step.handle step.kind step.left step.right moved path)

theorem replace_settles (stored : arena.Stores ⟨size, trees⟩) {old new : Handle}
    (allowed : ¬ (Request.replace old new).Circular arena)
    (proper : ¬ (Request.replace old new).Misused arena) : arena.Settles (replace old new) := by
  by_cases itself : old = new
  · subst itself
    exact settles_of_yields stored (replace_self_yields _ old)
  · rcases replace_of_not_misused proper itself with ⟨bound, detached⟩
    rcases (arena.unknown_or old).resolve_left (Nat.not_le_of_lt bound) with alone | attached
    · rcases places_of_moved stored rfl allowed bound detached itself with
        ⟨place, path, moved, rest, rfl, rfl, listed⟩
      have isTop := path_of_detached (stored.perm listed) List.mem_cons_self alone
      subst isTop
      exact settles_of_yields (stored.perm listed) (replace_detached_yields rest place moved)
    · rcases places_beside_attached stored rfl allowed attached detached with
        ⟨place, step, path, moved, rest, rfl, rfl, listed⟩
      have replaced := @replace_operand_yields size rest step.handle step.kind step.left
        step.right place moved path
      exact settles_of_yields (stored.perm listed) replaced

/-- Work that begins at one node of the arena. -/
theorem settles_of_place (stored : arena.Stores ⟨size, trees⟩) {handle : Handle}
    {work : Edit Unit} (known : ¬ arena.size ≤ handle)
    (yields : forall (node : Node) (path : List Step) (rest : List Node), node.handle = handle ->
      Exists fun left : Forest =>
        Yields (Stores ⟨size, node.climb path :: rest⟩) work () (Stores left)) :
    arena.Settles work := by
  rcases stored.place_of_lt (Nat.lt_of_not_le known) with ⟨node, path, rest, same, listed⟩
  rcases yields node path rest same with ⟨left, done⟩
  exact settles_of_yields (stored.perm listed) done

end Single

/-! ## Sequences of requests -/

/-- What one request does to a well-formed arena. -/
theorem WellFormed.settles {arena : Arena} (wellFormed : arena.WellFormed) (request : Request)
    (allowed : ¬ request.Circular arena) (proper : ¬ request.Misused arena) :
    arena.Settles request.work := by
  rcases wellFormed.exists_stores with ⟨trees, stored⟩
  cases request with
  | alloc kind => exact settles_of_yields stored (alloc_yields kind trees).forget
  | append parent child => exact append_settles stored allowed proper
  | insert anchor child => exact insert_settles stored allowed proper
  | unparent node => exact unparent_settles stored proper
  | replace old new => exact replace_settles stored allowed proper
  | duplicate node =>
      refine settles_of_place stored proper (fun inner path rest same => ?_)
      exact ⟨_, same ▸ (duplicate_yields inner path arena.size _ List.mem_cons_self).forget⟩
  | flatten root =>
      refine settles_of_place stored proper (fun inner path rest same => ?_)
      exact ⟨_, same ▸ flatten_yields inner path rest⟩
  | toNnf root =>
      refine settles_of_place stored proper (fun inner path rest same => ?_)
      exact ⟨_, same ▸ (toNnf_yields inner path ⟨arena.size, []⟩ rest).forget⟩
  | toDnf root =>
      refine settles_of_place stored proper (fun inner path rest same => ?_)
      exact ⟨_, same ▸ (toDnf_yields inner path ⟨arena.size, []⟩ rest).forget⟩

/-- Every request comes to an end, in a well-formed arena. -/
theorem WellFormed.apply {arena : Arena} (wellFormed : arena.WellFormed) (request : Request)
    (allowed : ¬ request.Circular arena) :
    Exists fun later : Arena =>
      request.apply arena = some later ∧ later.WellFormed ∧ arena.Extends later := by
  by_cases misused : request.Misused arena
  · rcases refuses_of_misused request misused with ⟨misuse, run⟩
    refine ⟨arena, ?_, wellFormed, .refl arena⟩
    rw [Request.apply, run]
    rfl
  · rcases wellFormed.settles request allowed misused with ⟨left, run, kept, extended⟩
    refine ⟨left, ?_, kept, extended⟩
    rw [Request.apply, run]
    rfl

theorem Changes.keeps {arena later : Arena} (changes : arena.Changes later)
    (wellFormed : arena.WellFormed) : later.WellFormed ∧ arena.Extends later := by
  rcases changes with ⟨request, allowed, applied⟩
  rcases wellFormed.apply request allowed with ⟨left, reached, kept, extended⟩
  rw [applied] at reached
  rw [Option.some.inj reached]
  exact ⟨kept, extended⟩

/-- Any number of requests keeps an arena well formed, and keeps its nodes with
their kinds. -/
theorem keeps_of_changes {arena later : Arena} (reaches : Relation.ReflTransGen Changes arena later)
    (wellFormed : arena.WellFormed) : later.WellFormed ∧ arena.Extends later := by
  induction reaches with
  | refl => exact ⟨wellFormed, .refl arena⟩
  | tail _ last ih =>
      rcases ih with ⟨kept, extended⟩
      rcases last.keeps kept with ⟨keptThere, extendedThere⟩
      exact ⟨keptThere, extended.trans extendedThere⟩

theorem wellFormed_empty : Arena.empty.WellFormed :=
  (⟨Keeps.empty, rfl⟩ : Arena.empty.Stores ⟨0, []⟩).wellFormed

/-- Whatever was asked of an arena since it was empty, it is well formed, every
node that it ever had is there with its kind, and the next request comes to an
end. -/
theorem wellFormed_of_reachable {arena later : Arena}
    (before : Relation.ReflTransGen Changes .empty arena)
    (after : Relation.ReflTransGen Changes arena later) :
    later.WellFormed ∧ arena.Extends later ∧
      forall request : Request, ¬ request.Circular later ->
        Exists fun next : Arena => request.apply later = some next := by
  rcases keeps_of_changes before wellFormed_empty with ⟨between, _⟩
  rcases keeps_of_changes after between with ⟨kept, extended⟩
  refine ⟨kept, extended, fun request allowed => ?_⟩
  rcases kept.apply request allowed with ⟨next, applied, _⟩
  exact ⟨next, applied⟩

/-- An arena of one disjunction, and the same one with an operand for it. -/
theorem wellFormed_of_reachable_pair :
    let single : Arena := ⟨#[.alone .or]⟩
    let pair : Arena := ⟨#[⟨.or, none, some 1, some 1, none, none⟩,
      ⟨.and, some 0, none, none, none, none⟩]⟩
    pair.WellFormed ∧ single.Extends pair ∧
      forall request : Request, ¬ request.Circular pair ->
        Exists fun next : Arena => request.apply pair = some next := by
  intro single pair
  have alloc (arena : Arena) (kind : Kind) : ¬ (Request.alloc kind).Circular arena := by
    intro ⟨_, _, impossible, _⟩
    exact Option.some_ne_none _ impossible.symm
  let detached : Arena := ⟨#[.alone .or, .alone .and]⟩
  have append : ¬ (Request.append 0 1).Circular detached := by
    intro ⟨place, moved, named, _, below⟩
    rcases Prod.mk.inj (Option.some.inj named) with ⟨isPlace, _⟩
    subst isPlace
    rcases Relation.TransGen.head'_iff.mp below with ⟨parent, ⟨found, look, above⟩, _⟩
    rw [← Option.some.inj (look : some (Cell.alone .or) = some found)] at above
    exact Option.some_ne_none _ above.symm
  apply wellFormed_of_reachable (.single ⟨.alloc .or, alloc _ _, rfl⟩)
  exact .head ⟨.alloc .and, alloc _ _, (rfl : _ = some detached)⟩
    (.single ⟨.append 0 1, append, rfl⟩)

end Arena

end PlanningDomain
