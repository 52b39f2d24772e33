import PlanningDomain.Proofs.Arena.Frames
import PlanningDomain.Proofs.Compilation

namespace PlanningDomain

/-!
# Conversions side by side

A conversion rebuilds one expression and leaves everything around it as it is.
Two expressions of which neither is below the other have no node in common.
So each of them is still the same when the other has been converted, and the
result of each conversion is still the same after the other one.  The order of
the two makes no difference to their terms.  The preconditions of a domain are
a case of this.
-/

namespace Arena

variable {arena : Arena} {size : Nat} {trees : List Node}

/-! ## Expressions without a node in common -/

/-- Two nodes of which neither is below the other. -/
structure Separate (arena : Arena) (first second : Handle) : Prop where
  different : first ≠ second
  notBelow : ¬ Relation.TransGen arena.Below first second
  notAbove : ¬ Relation.TransGen arena.Below second first

theorem Separate.symm {first second : Handle} (separate : arena.Separate first second) :
    arena.Separate second first :=
  ⟨separate.different.symm, separate.notAbove, separate.notBelow⟩

theorem Separate.disjoint {first second : Node} {path up : List Step}
    (separate : arena.Separate first.handle second.handle)
    (stored : arena.Stores ⟨size, trees⟩) (place : first.climb path ∈ trees)
    (other : second.climb up ∈ trees) {handle : Handle} (inside : handle ∈ first.handles) :
    handle ∉ second.handles := by
  intro insideOther
  rcases Relation.ReflTransGen.total_of_right_unique arena.below_rightUnique
    (stored.below_of_mem_handles place inside)
    (stored.below_of_mem_handles other insideOther) with up | down
  · rcases Relation.reflTransGen_iff_eq_or_transGen.mp up with same | chain
    · exact separate.different same.symm
    · exact separate.notBelow chain
  · rcases Relation.reflTransGen_iff_eq_or_transGen.mp down with same | chain
    · exact separate.different same
    · exact separate.notAbove chain

/-! ## One conversion -/

/-- From every node of a well-formed arena, every stage rebuilds the expression
in its place. -/
theorem convert_frames (wellFormed : arena.WellFormed) {root : Handle} (bound : root < arena.size)
    (stage : Stage) :
    Exists fun tree : Node => Exists fun result : Node => Exists fun later : Arena =>
      arena.Reads root tree ∧ result.term = stage.form tree.term ∧
      (stage.convert root).run.run arena = some (.ok result.handle, later) ∧
      later.Reads result.handle result ∧ later.WellFormed ∧ arena.Frames later tree result := by
  rcases wellFormed.exists_place bound with ⟨tree, path, rest, same, stored⟩
  subst same
  rcases stage.convert_yields tree path arena.size rest with ⟨result, left, form, yields⟩
  rcases yields arena stored with ⟨later, run, kept, _⟩
  exact ⟨tree, result, later, stored.reads List.mem_cons_self, form, run,
    kept.reads List.mem_cons_self, kept.wellFormed, frames_of_stores stored kept⟩

/-- What is read at a node stands in its place. -/
theorem Stores.place_of_reads (stored : arena.Stores ⟨size, trees⟩) {root : Handle} {tree : Node}
    (reads : arena.Reads root tree) (bound : root < arena.size) :
    tree.handle = root ∧ Exists fun path : List Step => tree.climb path ∈ trees := by
  rw [stored.size] at bound
  rcases stored.locate bound with ⟨found, path, same, place⟩
  rw [← same] at reads
  rw [reads.unique (stored.reads place)]
  exact ⟨same, path, place⟩

end Arena

namespace Stage

/-- Bring one node to a stage and then another node to a stage, and read what
stands in their places in the end. -/
def convertBoth (first second : Stage) (root other : Handle) : Edit (Node × Node) := do
  let one ← first.convert root
  let two ← second.convert other
  return (← one.expression, ← two.expression)

end Stage

namespace Arena

variable {arena : Arena}

/-- Two separate nodes are converted as each would be alone. -/
theorem Separate.answers {root other : Handle} (separate : arena.Separate root other)
    (wellFormed : arena.WellFormed) (bound : root < arena.size) (otherBound : other < arena.size)
    {tree beside : Node} (reads : arena.Reads root tree) (readsOther : arena.Reads other beside)
    (first second : Stage) :
    Exists fun one : Node => Exists fun two : Node =>
      arena.Answers (Stage.convertBoth first second root other) (one, two) ∧
      one.term = first.form tree.term ∧ two.term = second.form beside.term := by
  rcases wellFormed.exists_stores with ⟨trees, stored⟩
  rcases stored.place_of_reads reads bound with ⟨same, path, place⟩
  rcases stored.place_of_reads readsOther otherBound with ⟨sameOther, up, placeOther⟩
  subst same sameOther
  have apart : forall handle, handle ∈ beside.handles -> handle ∉ tree.handles :=
    fun handle inside => separate.symm.disjoint stored placeOther place inside
  rcases convert_frames wellFormed bound first with
    ⟨found, one, middle, readsFound, form, run, readsOne, wellFormedMiddle, frames⟩
  rw [readsFound.unique reads] at form frames
  have readsBeside := frames.reads stored wellFormedMiddle placeOther apart
  rcases frames.outside beside.handle otherBound (apart _ beside.handle_mem_handles) with
    ⟨entry, sameEntry, _, _, ⟨cell, look, _, _⟩, _⟩
  rw [Entry.handle_replace, sameEntry] at look
  rcases convert_frames wellFormedMiddle (cell?_lt look) second with
    ⟨again, two, later, readsAgain, formOther, runOther, readsTwo, wellFormedLater, framesOther⟩
  rw [readsAgain.unique readsBeside] at formOther framesOther
  -- The result of the first conversion has no node of the other expression, so
  -- the second conversion keeps it.
  have keptApart : forall handle, handle ∈ one.handles -> handle ∉ beside.handles :=
    fun handle inside insideOther => frames.apart handle
      (stored.lt_of_mem_handles placeOther insideOther) (apart handle insideOther) inside
  rcases wellFormedMiddle.exists_stores with ⟨trees, storedMiddle⟩
  rcases frames.place with ⟨_, new, _, lookNew, _⟩
  rcases storedMiddle.place_of_reads readsOne (cell?_lt lookNew) with ⟨_, way, placeOne⟩
  have readsKept := framesOther.reads storedMiddle wellFormedLater placeOne keptApart
  exact ⟨one, two, .of_run run (.of_run runOther (.of_run readsKept (.of_run readsTwo ⟨_, rfl⟩))),
    form, formOther⟩

/-- The other preconditions are the same after one of them has been converted,
whether they are converted already or still to be converted. -/
theorem convert_among {size : Nat} {trees : List Node} (stored : arena.Stores ⟨size, trees⟩)
    (stage : Stage) {before after : List Handle} {root : Handle}
    (roots : trees.map Node.handle = before ++ root :: after) :
    Exists fun converted : List Handle => Exists fun middle : Arena =>
      (stage.convertAll before).run.run arena = some (.ok converted, middle) ∧
      Exists fun result : Handle => Exists fun later : Arena =>
        (stage.convert root).run.run middle = some (.ok result, later) ∧
        forall other, other ∈ converted ++ after ->
          Exists fun tree : Node => middle.Reads other tree ∧ later.Reads other tree := by
  rcases List.map_eq_append_iff.mp roots with ⟨first, others, split, firstRoots, otherRoots⟩
  rcases List.map_eq_cons_iff.mp otherRoots with ⟨tree, last, isOthers, isRoot, lastRoots⟩
  subst split firstRoots isOthers isRoot lastRoots
  rcases stage.convertAll_yields first size (tree :: last) with ⟨results, left, _, yields⟩
  rcases yields arena stored with ⟨middle, run, kept, _⟩
  have listed : (results ++ (left.roots ++ tree :: last)).Perm
      (tree :: (results ++ last ++ left.roots)) := by
    refine perm_of_counts (fun entry => ?_)
    simp only [List.count_cons, List.count_append]
    omega
  have beside := kept.perm listed
  rcases stage.convert_yields tree [] left.allocated (results ++ last ++ left.roots) with
    ⟨result, spare, _, yieldsNext⟩
  rcases yieldsNext middle beside with ⟨later, runNext, keptNext, _⟩
  refine ⟨_, middle, run, result.handle, later, runNext, fun other isOther => ?_⟩
  rw [← List.map_append] at isOther
  rcases List.mem_map.mp isOther with ⟨found, isFound, same⟩
  subst same
  have among : found ∈ results ++ last ++ left.roots := List.mem_append_left _ isFound
  exact ⟨found, beside.reads_of_mem (List.mem_cons_of_mem _ among),
    keptNext.reads_of_mem (List.mem_cons_of_mem _ (List.mem_append_right _ among))⟩

/-! ## All conversions -/

/-- From every node of a well-formed arena, every stage keeps all nodes outside
of the expression as they are, with the result in the place of the expression.
Two nodes of which neither is below the other get the same terms in either
order.  While a source is compiled, converting one precondition does not change
any other. -/
theorem conversions_separate (wellFormed : arena.WellFormed) :
    (forall root, root < arena.size -> forall stage : Stage,
      Exists fun tree : Node => Exists fun result : Node => Exists fun later : Arena =>
        arena.Reads root tree ∧
        (stage.convert root).run.run arena = some (.ok result.handle, later) ∧
        later.Reads result.handle result ∧ arena.Frames later tree result) ∧
    (forall root other, root < arena.size -> other < arena.size -> arena.Separate root other ->
      forall first second : Stage,
        Exists fun one : Node => Exists fun two : Node =>
          arena.Answers (Stage.convertBoth first second root other) (one, two) ∧
          Exists fun oneLater : Node => Exists fun twoSooner : Node =>
            arena.Answers (Stage.convertBoth second first other root) (twoSooner, oneLater) ∧
            one.term = oneLater.term ∧ two.term = twoSooner.term) ∧
    (forall (source : Source) (options : Options) (before after : List Handle) (root : Handle),
      (Domain.read source options).1.preconditions = before ++ root :: after ->
        Exists fun converted : List Handle => Exists fun middle : Arena =>
          (Stage.dnf.convertAll before).run.run (Domain.read source options).1.arena =
            some (.ok converted, middle) ∧
          Exists fun result : Handle => Exists fun later : Arena =>
            (Stage.dnf.convert root).run.run middle = some (.ok result, later) ∧
            forall other, other ∈ converted ++ after ->
              Exists fun tree : Node => middle.Reads other tree ∧ later.Reads other tree) := by
  refine ⟨fun root bound stage => ?_, fun root other bound otherBound separate first second => ?_,
    fun source options before after root roots => ?_⟩
  · rcases convert_frames wellFormed bound stage with
      ⟨tree, result, later, reads, _, run, readsResult, _, frames⟩
    exact ⟨tree, result, later, reads, run, readsResult, frames⟩
  · rcases convert_frames wellFormed bound first with ⟨tree, _, _, reads, _⟩
    rcases convert_frames wellFormed otherBound second with ⟨beside, _, _, readsOther, _⟩
    rcases separate.answers wellFormed bound otherBound reads readsOther first second with
      ⟨one, two, answers, oneTerm, twoTerm⟩
    rcases separate.symm.answers wellFormed otherBound bound readsOther reads second first with
      ⟨twoSooner, oneLater, answersBack, twoTermBack, oneTermBack⟩
    exact ⟨one, two, answers, oneLater, twoSooner, answersBack, oneTerm.trans oneTermBack.symm,
      twoTerm.trans twoTermBack.symm⟩
  · exact convert_among (Machine.stores_read source options) .dnf roots

/-- The first operand of a disjunction gives up its place to its negation normal
form, before or after the second operand is distributed.  Of two preconditions
the second is kept while the first is converted. -/
theorem conversions_separate_operands :
    let first : Kind := .var ⟨0, 1⟩
    let second : Kind := .var ⟨2, 3⟩
    let arena : Arena := ⟨#[⟨.or, none, some 1, some 4, none, none⟩,
      ⟨.not, some 0, some 2, some 2, none, some 4⟩, ⟨.and, some 1, some 3, some 3, none, none⟩,
      ⟨first, some 2, none, none, none, none⟩, ⟨.or, some 0, some 5, some 5, some 1, none⟩,
      ⟨second, some 4, none, none, none, none⟩]⟩
    (Exists fun result : Handle => Exists fun later : Arena =>
      (Handle.toNnf 1).run.run arena = some (.ok result, later) ∧
      (Handle.operands 0).run.run later = some (.ok [result, 4], later)) ∧
    (Exists fun one : Node => Exists fun two : Node =>
      arena.Answers (Stage.convertBoth .nnf .dnf 1 4) (one, two) ∧
      Exists fun oneLater : Node => Exists fun twoSooner : Node =>
        arena.Answers (Stage.convertBoth .dnf .nnf 4 1) (twoSooner, oneLater) ∧
        one.term = oneLater.term ∧ two.term = twoSooner.term) ∧
    Exists fun middle : Arena => Exists fun result : Handle => Exists fun later : Arena =>
      (Handle.toDnf 1).run.run middle = some (.ok result, later) ∧
      Exists fun tree : Node => middle.Reads 3 tree ∧ later.Reads 3 tree := by
  intro first second arena
  let tree : Node := .mk 0 .or [.mk 1 .not [.mk 2 .and [.mk 3 first []]],
    .mk 4 .or [.mk 5 second []]]
  have stored : arena.Stores ⟨6, [tree]⟩ := ⟨⟨by decide, by decide⟩, rfl⟩
  have top : tree.climb [] ∈ [tree] := List.mem_cons_self
  -- The only node above both operands is the disjunction.
  have above : forall root, root = 1 ∨ root = 4 -> forall other,
      Relation.TransGen arena.Below root other -> other = 0 := by
    intro root isOperand other chain
    have parent : forall up, arena.Below root up -> up = 0 := by
      intro up below
      have isBelow : arena.Below root 0 := by
        rcases isOperand with same | same
        · subst same
          exact ⟨_, rfl, rfl⟩
        · subst same
          exact ⟨_, rfl, rfl⟩
      exact arena.below_rightUnique below isBelow
    have noParent : forall up, ¬ arena.Below 0 up := by
      rintro up ⟨found, look, isParent⟩
      rw [← Option.some.inj look] at isParent
      exact Option.some_ne_none up isParent.symm
    rcases Relation.TransGen.head'_iff.mp chain with ⟨up, below, rest⟩
    rw [parent up below] at rest
    rcases Relation.ReflTransGen.cases_head rest with same | ⟨next, further, _⟩
    · exact same.symm
    · exact (noParent next further).elim
  have separate : arena.Separate 1 4 :=
    ⟨by decide, fun chain => absurd (above 1 (.inl rfl) 4 chain) (by decide),
      fun chain => absurd (above 4 (.inr rfl) 1 chain) (by decide)⟩
  rcases conversions_separate stored.wellFormed with ⟨frames, orders, preconditions⟩
  refine ⟨?_, orders 1 4 (by decide) (by decide) separate .nnf .dnf, ?_⟩
  · rcases frames 1 (by decide) .nnf with ⟨inner, result, later, reads, run, _, kept⟩
    have isInner : inner = .mk 1 .not [.mk 2 .and [.mk 3 first []]] :=
      reads.unique (stored.reads (Node.climb_operand_mem
        (.mk 1 .not [.mk 2 .and [.mk 3 first []]]) 0 .or [] [.mk 4 .or [.mk 5 second []]] [] []))
    subst isInner
    rcases kept.outside 0 (by decide) (by decide) with ⟨entry, same, has, _, hasLater⟩
    rw [has.unique (stored.has_entryAt top) same] at hasLater
    exact ⟨result.handle, later, run, hasLater.operands⟩
  · rcases preconditions (.ofString "(a & b) (c)") ⟨2, true⟩ [] [3] 1 (by decide +kernel) with
      ⟨converted, middle, _, result, later, run, kept⟩
    exact ⟨middle, result, later, run, kept 3 (List.mem_append_right _ List.mem_cons_self)⟩

end Arena

end PlanningDomain
