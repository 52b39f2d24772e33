import Mathlib.Data.List.Nodup
import PlanningDomain.NormalForm.Disjunction
import PlanningDomain.Proofs.Arena.Flattening

namespace PlanningDomain

/-!
# Clauses in place

A disjunction is built from literals that stand alone, and from nodes that are
taken out of one place and put into another.  A literal that is wanted in more
than one clause is moved to the first of them.  The others get copies.  Whether
it has been moved already is seen from its links, and on the side of the
expressions from the list of the handles that are taken.  The two agree as long
as every literal that is taken stands in some clause, and every other one of
the pool still stands alone.
-/

namespace Node

theorem handle_copy (first : Handle) (node : Node) : (node.copy first).1.handle = first := by
  cases node
  rfl

end Node

namespace Arena

open Handle Link

variable {size : Nat}

/-! ## Copies -/

/-- The copy of an expression stands beside what was stored, with the handles
that come next. -/
theorem duplicate_yields (node : Node) :
    forall (path : List Step) (size : Nat) (trees : List Node), node.climb path ∈ trees ->
      Yields (Stores ⟨size, trees⟩) (duplicate node.handle) size
        (Stores ⟨(node.copy size).2, (node.copy size).1 :: trees⟩) := by
  induction node using Node.induction with
  | step handle kind children ih =>
      intro path size trees member
      have all : forall (right left copied : List Node) (next : Nat), left ++ right = children ->
          Yields (Stores ⟨next, .mk size kind copied :: trees⟩)
            (duplicateInto size (right.head?.map Node.handle)) ()
            (Stores ⟨(Node.copyAll next right).2,
              .mk size kind (copied ++ (Node.copyAll next right).1) :: trees⟩) := by
        intro right
        induction right with
        | nil =>
            intro left copied next _
            change Yields _ (duplicateInto size none) _ _
            rw [duplicateInto, Node.copyAll, List.append_nil]
            exact .pure ()
        | cons child right onRest =>
            intro left copied next split
            have isChild : child ∈ children := by
              rw [← split]
              exact List.mem_append_right _ List.mem_cons_self
            have here : child.climb (⟨handle, kind, left, right⟩ :: path) ∈ trees := by
              rw [Node.climb_operand, split]
              exact member
            let copy := child.copy next
            have appended := @append_yields copy.2 trees size kind copied copy.1 []
            rw [Node.handle_copy] at appended
            have remaining := onRest (left ++ [child]) (copied ++ [copy.1]) copy.2
              (by rw [List.append_assoc]; exact split)
            rw [List.append_assoc] at remaining
            change Yields _ (duplicateInto size (some child.handle)) _ _
            rw [duplicateInto]
            apply (ih child isChild _ next _ (List.mem_cons_of_mem _ here)).bind
            apply Yields.bind (yields_of_perm (List.Perm.swap _ _ _) appended)
            apply (stored_cell_yields child _ (List.mem_cons_of_mem _ here)).bind
            exact remaining
      rw [Node.handle_mk, duplicate]
      apply (stored_kind_yields (.mk handle kind children) _ member).bind
      apply (alloc_yields kind trees).bind
      apply (stored_cell_yields (.mk handle kind children) _ (List.mem_cons_of_mem _ member)).bind
      exact (all children [] [] (size + 1) rfl).bind (.pure size)

/-! ## Moving operands -/

/-- All operands of a node are made to stand alone. -/
theorem detachOperands_yields (handle : Handle) (kind : Kind) (path : List Step)
    (children rest : List Node) :
    Yields (Stores ⟨size, (Node.mk handle kind children).climb path :: rest⟩)
      (detachOperands handle) (children.map Node.handle)
      (Stores ⟨size, (Node.mk handle kind []).climb path :: (children ++ rest)⟩) := by
  have detached : forall (nodes rest : List Node),
      Yields (Stores ⟨size, (Node.mk handle kind nodes).climb path :: rest⟩)
        (detachAll (nodes.map Node.handle)) ()
        (Stores ⟨size, (Node.mk handle kind []).climb path :: (nodes ++ rest)⟩) := by
    intro nodes
    induction nodes with
    | nil => exact fun rest => .pure ()
    | cons node nodes ih =>
        intro rest
        apply (unparent_yields rest handle kind [] nodes node path).bind
        exact yields_to_perm (List.perm_middle.cons _) (ih (node :: rest))
  apply (operands_yields (.mk handle kind children) _ List.mem_cons_self).bind
  exact (detached children rest).bind (.pure _)

/-- All operands of one node become the last operands of another. -/
theorem moveOperands_yields (source target : Handle) (kind other : Kind) (rest nodes : List Node) :
    forall done : List Node,
      Yields (Stores ⟨size, .mk source kind nodes :: .mk target other done :: rest⟩)
        (moveOperands source target) ()
        (Stores ⟨size, .mk source kind [] :: .mk target other (done ++ nodes) :: rest⟩) := by
  induction nodes with
  | nil =>
      intro done
      rw [moveOperands, List.append_nil]
      apply (stored_cell_yields (.mk source kind []) [] List.mem_cons_self).bind
      exact .pure ()
  | cons node nodes ih =>
      intro done
      have taken := @unparent_yields size (.mk target other done :: rest) source kind [] nodes node
        []
      have appended := @append_yields size (.mk source kind nodes :: rest) target other done node []
      have remaining := ih (done ++ [node])
      rw [List.append_assoc] at remaining
      rw [moveOperands]
      apply (stored_cell_yields (.mk source kind (node :: nodes)) [] List.mem_cons_self).bind
      refine taken.bind (Yields.bind (yields_of_perm ?_ appended) ?_)
      · refine perm_of_counts (fun entry => ?_)
        simp only [List.count_cons, Node.climb_nil, List.nil_append]
        omega
      · exact yields_of_perm (List.Perm.swap _ _ _) remaining

/-! ## Placing literals -/

/-- The literals of a pool that have no place yet. -/
def unplaced (taken : List Handle) (pool : List Node) : List Node :=
  pool.filter (fun literal => !taken.contains literal.handle)

theorem unplaced_nil (pool : List Node) : unplaced [] pool = pool :=
  List.filter_eq_self.mpr (fun _ _ => rfl)

theorem mem_unplaced {taken : List Handle} {pool : List Node} {literal : Node} :
    literal ∈ unplaced taken pool ↔ literal ∈ pool ∧ literal.handle ∉ taken := by
  rw [unplaced, List.mem_filter, Bool.not_eq_true', List.contains_eq_mem, decide_eq_false_iff_not]

/-- One literal more has a place. -/
theorem unplaced_perm_cons {taken : List Handle} {pool : List Node} {literal : Node}
    (distinct : (pool.map Node.handle).Nodup) (member : literal ∈ pool)
    (free : literal.handle ∉ taken) :
    (unplaced taken pool).Perm (literal :: unplaced (literal.handle :: taken) pool) := by
  rcases List.append_of_mem member with ⟨before, after, split⟩
  subst split
  have others : forall other, other ∈ before ++ after -> other.handle ≠ literal.handle := by
    intro other within same
    rw [List.map_append, List.map_cons, List.nodup_middle, List.nodup_cons] at distinct
    apply distinct.1
    rw [← List.map_append, ← same]
    exact List.mem_map_of_mem within
  have kept : forall nodes : List Node, (forall other, other ∈ nodes -> other ∈ before ++ after) ->
      unplaced (literal.handle :: taken) nodes = unplaced taken nodes := by
    intro nodes within
    refine List.filter_congr (fun other listed => ?_)
    rw [List.contains_cons, beq_eq_false_iff_ne.mpr (others other (within other listed)),
      Bool.false_or]
  have gone : unplaced (literal.handle :: taken) [literal] = [] := by
    refine List.filter_eq_nil_iff.mpr (fun other listed => ?_)
    rw [List.mem_singleton.mp listed, List.contains_cons, beq_self_eq_true]
    exact Bool.false_ne_true
  have stays : unplaced taken [literal] = [literal] := by
    refine List.filter_eq_self.mpr (fun other listed => ?_)
    rw [List.mem_singleton.mp listed, Bool.not_eq_true', List.contains_eq_mem,
      decide_eq_false_iff_not]
    exact free
  have split (handles : List Handle) : unplaced handles (before ++ literal :: after) =
      unplaced handles before ++ (unplaced handles [literal] ++ unplaced handles after) := by
    rw [unplaced, List.filter_append, ← List.singleton_append, List.filter_append]
    rfl
  rw [split, split, gone, stays, List.nil_append,
    kept before (fun other within => List.mem_append_left _ within),
    kept after (fun other within => List.mem_append_right _ within)]
  exact List.perm_middle

/-- Every literal of the pool that is taken stands below some node. -/
def Housed (taken : List Handle) (pool trees : List Node) : Prop :=
  forall literal, literal ∈ pool -> literal.handle ∈ taken ->
    Exists fun path : List Step => path ≠ [] ∧ literal.climb path ∈ trees

namespace Housed

variable {taken : List Handle} {pool rest : List Node} {handle : Handle} {kind : Kind}
  {children : List Node}

theorem mono {trees : List Node} (housed : Housed taken pool rest)
    (listed : forall tree, tree ∈ rest -> tree ∈ trees) : Housed taken pool trees := by
  intro literal inPool isTaken
  rcases housed literal inPool isTaken with ⟨path, below, here⟩
  exact ⟨path, below, listed _ here⟩

/-- No literal loses its place when a node gets one more operand. -/
theorem append (housed : Housed taken pool (.mk handle kind children :: rest)) (added : Node) :
    Housed taken pool (.mk handle kind (children ++ [added]) :: rest) := by
  intro literal inPool isTaken
  rcases housed literal inPool isTaken with ⟨path, below, here⟩
  rcases List.mem_cons.mp here with grown | other
  · rcases List.eq_nil_or_concat' path with none | ⟨lower, top, concat⟩
    · exact (below none).elim
    · subst concat
      rw [Node.climb_append] at grown
      rcases Node.mk.inj grown with ⟨_, _, split⟩
      refine ⟨lower ++ [⟨handle, kind, top.left, top.right ++ [added]⟩], ?_, ?_⟩
      · exact List.append_ne_nil_of_right_ne_nil _ (List.cons_ne_nil _ _)
      · rw [Node.climb_append, Node.climb_operand, ← split, List.append_assoc, List.append_assoc]
        exact List.mem_cons_self
  · exact ⟨path, below, List.mem_cons_of_mem _ other⟩

/-- Literals below a node that becomes an operand keep their places in it. -/
theorem join {child : Node}
    (housed : Housed taken pool (child :: .mk handle kind children :: rest)) :
    Housed taken pool (.mk handle kind (children ++ [child]) :: rest) := by
  intro literal inPool isTaken
  rcases housed literal inPool isTaken with ⟨path, below, here⟩
  rcases List.mem_cons.mp here with same | other
  · refine ⟨path ++ [⟨handle, kind, children, []⟩], ?_, ?_⟩
    · exact List.append_ne_nil_of_right_ne_nil _ (List.cons_ne_nil _ _)
    · rw [Node.climb_append, same, Node.climb_operand]
      exact List.mem_cons_self
  · -- Only the places outside the new operand are left to look at.
    have elsewhere : Housed [literal.handle] [literal] (.mk handle kind children :: rest) := by
      intro same listed _
      rw [List.mem_singleton.mp listed]
      exact ⟨path, below, other⟩
    exact elsewhere.append child literal List.mem_cons_self List.mem_cons_self

/-- A literal that becomes an operand has a place. -/
theorem take {literal : Node} (distinct : (pool.map Node.handle).Nodup) (inPool : literal ∈ pool)
    (housed : Housed taken pool (.mk handle kind children :: rest)) :
    Housed (literal.handle :: taken) pool (.mk handle kind (children ++ [literal]) :: rest) := by
  intro other otherInPool isTaken
  rcases List.mem_cons.mp isTaken with same | before
  · have equal := List.inj_on_of_nodup_map distinct otherInPool inPool same
    refine ⟨[⟨handle, kind, children, []⟩], List.cons_ne_nil _ _, ?_⟩
    rw [equal, Node.climb_operand]
    exact List.mem_cons_self
  · exact housed.append literal other otherInPool before

end Housed

section Literal

variable {clause : Handle} {pool done rest : List Node} {taken : List Handle} {literal : Node}
  {forest : Forest} {next : Edit Unit} {after : Arena -> Prop}

/-- A literal that has a place is copied into the clause. -/
theorem placeTaken_yields (housed : Housed taken pool (.mk clause .and done :: rest))
    (inPool : literal ∈ pool) (isTaken : literal.handle ∈ taken)
    (continued : Yields
      (Stores ⟨(literal.copy forest.allocated).2,
        .mk clause .and (done ++ [(literal.copy forest.allocated).1]) ::
          (unplaced taken pool ++ (forest.roots ++ rest))⟩) next () after) :
    Yields
      (Stores ⟨forest.allocated, .mk clause .and done ::
        (unplaced taken pool ++ (forest.roots ++ rest))⟩)
      (do
        let placed ← if (← isAttached literal.handle) then literal.handle.duplicate
          else pure literal.handle
        append clause placed
        next) () after := by
  rcases housed literal inPool isTaken with ⟨path, below, here⟩
  have listed : literal.climb path ∈ Node.mk clause .and done ::
      (unplaced taken pool ++ (forest.roots ++ rest)) := by
    rcases List.mem_cons.mp here with same | other
    · exact same ▸ List.mem_cons_self
    · exact List.mem_cons_of_mem _ (List.mem_append_right _ (List.mem_append_right _ other))
  have attached : (Step.parent? path).isSome = true := by
    cases path with
    | nil => exact (below rfl).elim
    | cons step path => rfl
  apply (stored_isAttached_yields literal path listed).bind
  rw [if_pos attached]
  apply (duplicate_yields literal _ _ _ listed).bind
  have appended := @append_yields (literal.copy forest.allocated).2
    (unplaced taken pool ++ (forest.roots ++ rest)) clause .and done
    (literal.copy forest.allocated).1 []
  rw [Node.handle_copy] at appended
  apply Yields.bind (yields_of_perm (List.Perm.swap _ _ _) appended)
  exact continued

/-- A literal that has no place yet is moved into the clause. -/
theorem placeFree_yields (distinct : (pool.map Node.handle).Nodup)
    (inPool : literal ∈ pool) (free : literal.handle ∉ taken)
    (continued : Yields
      (Stores ⟨forest.allocated, .mk clause .and (done ++ [literal]) ::
        (unplaced (literal.handle :: taken) pool ++ (forest.roots ++ rest))⟩) next () after) :
    Yields
      (Stores ⟨forest.allocated, .mk clause .and done ::
        (unplaced taken pool ++ (forest.roots ++ rest))⟩)
      (do
        let placed ← if (← isAttached literal.handle) then literal.handle.duplicate
          else pure literal.handle
        append clause placed
        next) () after := by
  have listed : literal ∈ unplaced taken pool := mem_unplaced.mpr ⟨inPool, free⟩
  refine (stored_isAttached_yields literal [] (List.mem_cons_of_mem _
    (List.mem_append_left _ listed))).bind ?_
  have appended := @append_yields forest.allocated
    (unplaced (literal.handle :: taken) pool ++ (forest.roots ++ rest)) clause .and done literal []
  refine Yields.bind (.pure literal.handle)
    (Yields.bind (yields_of_perm ?_ appended) continued)
  exact ((unplaced_perm_cons distinct inPool free).append_right _).cons _

end Literal

/-- Literals are put into a clause one by one. -/
theorem placeLiterals_yields (clause : Handle) (pool : List Node)
    (distinct : (pool.map Node.handle).Nodup) (rest : List Node) (literals : List Node) :
    forall (taken : List Handle) (forest : Forest) (done : List Node)
      (placement : Placement (List Node)),
      Placement.literals taken forest literals = placement ->
      (forall literal, literal ∈ literals -> literal ∈ pool) ->
      Housed taken pool (.mk clause .and done :: rest) ->
      Yields
        (Stores ⟨forest.allocated, .mk clause .and done ::
          (unplaced taken pool ++ (forest.roots ++ rest))⟩)
        (placeLiterals clause (literals.map Node.handle)) ()
        (Stores ⟨placement.forest.allocated, .mk clause .and (done ++ placement.placed) ::
          (unplaced placement.taken pool ++ (placement.forest.roots ++ rest))⟩) ∧
      Housed placement.taken pool (.mk clause .and (done ++ placement.placed) :: rest) := by
  induction literals with
  | nil =>
      intro taken forest done placement computed _ housed
      subst computed
      rw [List.map_nil, placeLiterals, Placement.literals, List.append_nil]
      exact ⟨.pure (), housed⟩
  | cons literal literals ih =>
      intro taken forest done placement computed members housed
      have inPool := members literal List.mem_cons_self
      have others := fun other member => members other (List.mem_cons_of_mem _ member)
      rw [Placement.literals] at computed
      rw [List.map_cons, placeLiterals]
      by_cases isTaken : literal.handle ∈ taken
      · rw [if_pos (by rw [List.contains_eq_mem]; exact decide_eq_true isTaken)] at computed
        subst computed
        let copied := literal.copy forest.allocated
        have remaining := ih taken { forest with allocated := copied.2 } (done ++ [copied.1]) _ rfl
          others (housed.append copied.1)
        rw [List.append_assoc] at remaining
        exact ⟨placeTaken_yields housed inPool isTaken remaining.1, remaining.2⟩
      · have notListed : ¬ taken.contains literal.handle = true := by
          rw [List.contains_eq_mem]
          exact fun found => isTaken (of_decide_eq_true found)
        rw [if_neg notListed] at computed
        subst computed
        have remaining := ih (literal.handle :: taken) forest (done ++ [literal]) _ rfl others
          (housed.take distinct inPool)
        rw [List.append_assoc] at remaining
        exact ⟨placeFree_yields distinct inPool isTaken remaining.1, remaining.2⟩

/-- Clauses are built one by one. -/
theorem placeClauses_yields (disjunction : Handle) (pool : List Node)
    (distinct : (pool.map Node.handle).Nodup) (rest : List Node) (choices : List (List Node)) :
    forall (taken : List Handle) (forest : Forest) (done : List Clause)
      (placement : Placement (List Clause)),
      Placement.clauses taken forest choices = placement ->
      (forall choice, choice ∈ choices -> forall literal, literal ∈ choice -> literal ∈ pool) ->
      Housed taken pool (.mk disjunction .or (done.map Clause.toNode) :: rest) ->
      Yields
        (Stores ⟨forest.allocated, .mk disjunction .or (done.map Clause.toNode) ::
          (unplaced taken pool ++ (forest.roots ++ rest))⟩)
        (placeClauses disjunction (choices.map (fun choice => choice.map Node.handle))) ()
        (Stores ⟨placement.forest.allocated,
          .mk disjunction .or ((done ++ placement.placed).map Clause.toNode) ::
            (unplaced placement.taken pool ++ (placement.forest.roots ++ rest))⟩) := by
  induction choices with
  | nil =>
      intro taken forest done placement computed _ _
      subst computed
      rw [List.map_nil, placeClauses, Placement.clauses, List.append_nil]
      exact .pure ()
  | cons choice choices ih =>
      intro taken forest done placement computed members housed
      rw [Placement.clauses] at computed
      subst computed
      let head := Placement.literals taken forest.reserve choice
      let built : Clause := ⟨forest.allocated, head.placed⟩
      let before := Node.mk disjunction .or (done.map Clause.toNode)
      obtain ⟨placed, housedThere⟩ := placeLiterals_yields forest.allocated pool distinct
        (before :: rest) choice taken forest.reserve [] head rfl (members choice List.mem_cons_self)
        (housed.mono (fun tree listed => List.mem_cons_of_mem _ listed))
      have housedHere : Housed head.taken pool
          (.mk disjunction .or ((done ++ [built]).map Clause.toNode) :: rest) := by
        rw [List.map_append]
        exact housedThere.join
      have remaining := ih head.taken head.forest (done ++ [built]) _ rfl
        (fun other member => members other (List.mem_cons_of_mem _ member)) housedHere
      rw [List.append_assoc, List.map_append] at remaining
      rw [List.map_cons, placeClauses]
      apply (alloc_yields .and _).bind
      refine Yields.bind (yields_of_perm ?_ placed) ?_
      · apply List.Perm.cons _
        rw [← List.append_assoc, ← List.append_assoc]
        exact List.perm_middle.symm
      have appended := @append_yields head.forest.allocated
        (unplaced head.taken pool ++ (head.forest.roots ++ rest)) disjunction .or
        (done.map Clause.toNode) built.toNode []
      refine Yields.bind (yields_of_perm ?_ appended) remaining
      refine (List.Perm.cons _ ?_).trans (List.Perm.swap _ _ _)
      rw [← List.append_assoc, ← List.append_assoc]
      exact List.perm_middle

/-! ## Taking clauses apart -/

/-- The literals of some clauses of a disjunction are made to stand alone. -/
theorem takeLiterals_yields (disjunction : Handle) (kind : Kind)
    (clauses : List Clause) :
    forall (done rest : List Node),
      Yields
        (Stores ⟨size, .mk disjunction kind (done ++ clauses.map Clause.toNode) :: rest⟩)
        (takeLiterals (clauses.map Clause.handle))
        (clauses.map (fun clause => clause.literals.map Node.handle))
        (Stores ⟨size, .mk disjunction kind (done ++ clauses.map Clause.shell) ::
          (clauses.flatMap Clause.literals ++ rest)⟩) := by
  induction clauses with
  | nil =>
      intro done rest
      change Yields _ (takeLiterals []) [] _
      rw [takeLiterals]
      exact .pure []
  | cons clause clauses ih =>
      intro done rest
      have taken := @detachOperands_yields size clause.handle .and
        [⟨disjunction, kind, done, clauses.map Clause.toNode⟩] clause.literals rest
      rw [Node.climb_operand, Node.climb_operand, Node.climb_nil, Node.climb_nil,
        List.append_cons done (.mk clause.handle .and [])] at taken
      have remaining := ih (done ++ [clause.shell]) (clause.literals ++ rest)
      rw [List.append_assoc done [clause.shell] (clauses.map Clause.shell)] at remaining
      change Yields _ (takeLiterals (clause.handle :: clauses.map Clause.handle)) _ _
      rw [takeLiterals]
      refine taken.bind (Yields.bind (yields_to_perm ?_ remaining) (.pure _))
      rw [List.flatMap_cons, List.append_assoc clause.literals]
      exact (List.perm_append_comm_assoc _ _ _).cons _

end Arena

end PlanningDomain
