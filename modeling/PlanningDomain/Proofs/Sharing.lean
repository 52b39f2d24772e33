import PlanningDomain.Proofs.Arena.Lists
import PlanningDomain.Proofs.Occurrences

namespace PlanningDomain

/-!
# Sharing is resolved by copying

No two clauses of a disjunctive normal form share a node.  Written with the literals of
the negation normal form themselves, the clauses would share many.  The first place in
which such a literal is wanted gets the literal, with all nodes below it.  Every other
place gets a copy of its own, made of new nodes.  A literal that is wanted nowhere
stands alone, and this happens only below a conjunction with an operand that
has no clauses.
-/

namespace Node

open Occurrence

variable {bound : Nat}

/-! ## The clauses of a disjunction -/

/-- The clauses of an expression can be written down with its literals so that they have in each
place the literal or a new copy, and in its first place the literal. -/
def Disperses (bound : Nat) (node : Node) : Prop :=
  (forall handle, handle ∈ node.handles -> handle < bound) ->
    forall forest : Forest, bound ≤ forest.allocated ->
      bound ≤ (node.disjoin forest).2.allocated ∧
        Exists fun occurrences : List (List Occurrence) =>
          occurrences.map (List.map literal) = node.choices ∧
          occurrences.map (List.map Occurrence.node) = (node.disjoin forest).1.literals ∧
          Led bound occurrences.flatten

theorem disperses_all {nodes : List Node} (each : forall node, node ∈ nodes -> node.Disperses bound)
    (old : forall handle, handle ∈ nodes.flatMap handles -> handle < bound) :
    forall forest : Forest, bound ≤ forest.allocated ->
      bound ≤ (disjoinAll forest nodes).2.allocated ∧
        Exists fun families : List (List (List Occurrence)) =>
          families.map (List.map (List.map literal)) = choicesAll nodes ∧
          families.map (List.map (List.map Occurrence.node)) =
            (disjoinAll forest nodes).1.map Disjunction.literals ∧
          forall family, family ∈ families -> Led bound family.flatten := by
  induction nodes with
  | nil => exact fun forest new =>
      ⟨new, [], rfl, rfl, fun _ impossible => (List.not_mem_nil impossible).elim⟩
  | cons node rest ih =>
      intro forest new
      rw [List.flatMap_cons, List.forall_mem_append] at old
      rcases each node List.mem_cons_self old.1 forest new with
        ⟨middle, occurrences, wantedHere, standingHere, led⟩
      rcases ih (fun other listed => each other (List.mem_cons_of_mem _ listed)) old.2
        (node.disjoin forest).2 middle with ⟨grown, families, wanted, standing, allLed⟩
      refine ⟨grown, occurrences :: families, ?_, ?_, List.forall_mem_cons.mpr ⟨led, allLed⟩⟩
      · rw [List.map_cons, wanted, choicesAll, wantedHere]
      · rw [List.map_cons, standing, disjoinAll, List.map_cons, standingHere]

theorem disperses (node : Node) : node.Disperses bound := by
  induction node using Node.induction_connectives with
  | literal node isLiteral =>
      intro old forest new
      rw [disjoin_of_literal isLiteral, choices_of_literal isLiteral]
      exact ⟨Nat.le_succ_of_le (Nat.le_succ_of_le new), [[⟨_, _⟩]], rfl, rfl,
        .single (old _ node.handle_mem_handles)⟩
  | connective handle symbol children ih =>
      intro old forest new
      rw [handles_mk, List.forall_mem_cons] at old
      cases symbol with
      | or =>
          rcases disjoin_or forest handle children with ⟨grown, computed, allocated, _⟩
          rcases disperses_all ih old.2 forest.reserve (Nat.le_succ_of_le new) with
            ⟨newer, families, wanted, standing, led⟩
          rw [computed, allocated]
          refine ⟨newer, families.flatten, ?_, ?_, .flatten led⟩
          · rw [choices, ← wanted, List.map_flatten]
          · change _ = (List.flatMap _ _).map Clause.literals
            rw [List.map_flatten, standing, List.map_flatMap, List.flatMap_def]
            rfl
      | and =>
          rcases disjoin_and forest handle children with ⟨grown, computed, allocated, _⟩
          rcases disperses_all ih old.2 forest new with
            ⟨newer, families, wanted, standing, led⟩
          have combined := Led.combinations led
          -- What the operands have placed is placed once more.
          rcases Placement.exists_clauses (combinations families) []
            (disjoinAll forest children).2.reserve (Nat.le_succ_of_le newer) combined.fits with
            ⟨newest, after, nodes, literals, settles⟩
          rw [map_combinations, standing] at nodes newest settles
          rw [computed, allocated]
          refine ⟨newest, after, ?_, nodes, settles.led combined⟩
          rw [literals, map_combinations, wanted, choices]

/-! ## Literals without a place -/

/-- The node is a conjunction, and one of its operands has no clauses. -/
def HasNoClause (node : Node) : Prop :=
  node.kind = .and ∧ Exists fun operand : Node =>
    operand ∈ node.children ∧ operand.choices = []

theorem choicesAll_eq_map (nodes : List Node) : choicesAll nodes = nodes.map choices := by
  induction nodes with
  | nil => rfl
  | cons node rest ih => rw [choicesAll, ih, List.map_cons]

/-- A literal that is wanted nowhere stands below a conjunction with an operand without
clauses. -/
theorem exists_hasNoClause_both (unused : Node) :
    (forall node : Node, unused ∈ node.literals -> unused ∉ node.choices.flatten ->
      Exists fun inner : Node => inner ∈ node.preorder ∧ inner.HasNoClause ∧
        unused ∈ inner.preorder) ∧
      forall nodes : List Node, unused ∈ literalsAll nodes ->
        unused ∉ (choicesAll nodes).flatMap List.flatten ->
          Exists fun inner : Node => inner ∈ preorderAll nodes ∧ inner.HasNoClause ∧
            unused ∈ inner.preorder := by
  refine induction_both ?_ (fun impossible => (List.not_mem_nil impossible).elim) ?_
  · intro handle kind children ih member notChosen
    cases kind with
    | connective symbol =>
        by_cases among : unused ∈ (choicesAll children).flatMap List.flatten
        · cases symbol with
          | or =>
              rw [List.flatMap_def, ← List.flatten_flatten] at among
              exact (notChosen among).elim
          | and =>
              have none := combinations_eq_nil_of_not_mem among notChosen
              rw [choicesAll_eq_map] at none
              rcases List.mem_map.mp (nil_mem_of_combinations none) with ⟨operand, isChild, empty⟩
              exact ⟨_, List.mem_cons_self, ⟨rfl, operand, isChild, empty⟩,
                literals_subset_both.1 _ member⟩
        · rcases ih member among with ⟨inner, below, found⟩
          exact ⟨inner, List.mem_cons_of_mem _ below, found⟩
    | _ => exact (notChosen member).elim
  · intro node rest head tail member notChosen
    rw [literalsAll, List.mem_append] at member
    rw [choicesAll, List.flatMap_cons, List.mem_append, not_or] at notChosen
    rw [preorderAll]
    rcases member with here | later
    · rcases head here notChosen.1 with ⟨inner, below, found⟩
      exact ⟨inner, List.mem_append_left _ below, found⟩
    · rcases tail later notChosen.2 with ⟨inner, below, found⟩
      exact ⟨inner, List.mem_append_right _ below, found⟩

theorem roots_literals (literals : List Node) : forall (taken : List Handle) (forest : Forest),
    (Placement.literals taken forest literals).forest.roots = forest.roots := by
  induction literals with
  | nil => exact fun _ _ => rfl
  | cons literal rest ih =>
      intro taken forest
      rw [Placement.literals]
      split
      · exact ih _ _
      · exact ih _ _

theorem roots_clauses (choices : List (List Node)) : forall (taken : List Handle) (forest : Forest),
    (Placement.clauses taken forest choices).forest.roots = forest.roots := by
  induction choices with
  | nil => exact fun _ _ => rfl
  | cons choice rest ih =>
      intro taken forest
      rw [Placement.clauses]
      exact (ih _ _).trans (roots_literals _ _ _)

theorem roots_subset_disjoinAll {nodes : List Node}
    (each : forall node, node ∈ nodes -> forall forest : Forest,
      forest.roots ⊆ (node.disjoin forest).2.roots) :
    forall forest : Forest, forest.roots ⊆ (disjoinAll forest nodes).2.roots := by
  induction nodes with
  | nil => exact fun _ => List.Subset.refl _
  | cons node rest ih =>
      intro forest
      exact List.Subset.trans (each node List.mem_cons_self forest)
        (ih (fun other listed => each other (List.mem_cons_of_mem _ listed)) _)

section Connective

variable (forest : Forest) (handle : Handle) (children : List Node)

/-- What stands alone once the operands are converted is left alone when their clauses are
joined. -/
theorem roots_subset_or :
    (disjoinAll forest.reserve children).2.roots ⊆
      ((mk handle .or children).disjoin forest).2.roots := by
  rcases disjoin_or forest handle children with ⟨grown, computed, _, listed⟩
  intro root member
  rw [computed, listed.mem_iff]
  exact List.mem_cons_of_mem _ (List.mem_append_right _ member)

theorem roots_subset_and :
    (disjoinAll forest children).2.roots ⊆
      ((mk handle .and children).disjoin forest).2.roots := by
  rcases disjoin_and forest handle children with ⟨grown, computed, _, listed⟩
  intro root member
  rw [computed, listed.mem_iff, roots_clauses]
  exact List.mem_cons_of_mem _ (List.mem_append_right _ (List.mem_append_right _ member))

end Connective

/-- What stands alone is left alone when another expression is converted. -/
theorem roots_subset_disjoin (node : Node) :
    forall forest : Forest, forest.roots ⊆ (node.disjoin forest).2.roots := by
  induction node using Node.induction_connectives with
  | literal node isLiteral =>
      intro forest
      rw [disjoin_of_literal isLiteral]
      exact List.Subset.refl _
  | connective handle symbol children ih =>
      intro forest
      cases symbol with
      | or =>
          exact List.Subset.trans (roots_subset_disjoinAll ih forest.reserve)
            (roots_subset_or forest handle children)
      | and =>
          exact List.Subset.trans (roots_subset_disjoinAll ih forest)
            (roots_subset_and forest handle children)

/-- A literal that is wanted in no clause of its operand stands alone in the end. -/
theorem unused_all {nodes : List Node} {unused : Node}
    (each : forall node, node ∈ nodes -> forall forest : Forest, bound ≤ forest.allocated ->
      unused ∈ node.literals -> unused ∉ node.choices.flatten ->
        unused ∈ (node.disjoin forest).2.roots)
    (old : forall handle, handle ∈ nodes.flatMap handles -> handle < bound)
    (member : unused ∈ literalsAll nodes)
    (notChosen : unused ∉ (choicesAll nodes).flatMap List.flatten) :
    forall forest : Forest, bound ≤ forest.allocated ->
      unused ∈ (disjoinAll forest nodes).2.roots := by
  induction nodes with
  | nil => exact (List.not_mem_nil member).elim
  | cons node rest ih =>
      intro forest new
      rw [literalsAll, List.mem_append] at member
      rw [choicesAll, List.flatMap_cons, List.mem_append, not_or] at notChosen
      rw [List.flatMap_cons, List.forall_mem_append] at old
      rcases member with here | later
      · have kept := @roots_subset_disjoinAll rest (fun other _ => other.roots_subset_disjoin)
        exact kept _ (each node List.mem_cons_self forest new here notChosen.1)
      · exact ih (fun other listed => each other (List.mem_cons_of_mem _ listed)) old.2 later
          notChosen.2 _ (node.disperses old.1 forest new).1

/-- If a literal is wanted in a clause of its operand, and the conjunction has no clauses, the
literal is left over and stands alone. -/
theorem unused_of_combinations_eq_nil {children : List Node} {unused : Node}
    (distinct : ((preorderAll children).map Node.handle).Nodup)
    (old : forall handle, handle ∈ children.flatMap handles -> handle < bound)
    (among : unused ∈ (choicesAll children).flatMap List.flatten)
    (none : combinations (choicesAll children) = []) (forest : Forest)
    (new : bound ≤ forest.allocated) (handle : Handle) :
    unused ∈ ((mk handle .and children).disjoin forest).2.roots := by
  rcases disperses_all (fun child _ => child.disperses) old forest new with
    ⟨_, families, wanted, standing, led⟩
  have noPlace : combinations ((disjoinAll forest children).1.map Disjunction.literals) = [] := by
    rw [← wanted, ← map_combinations, List.map_eq_nil_iff] at none
    rw [← standing, ← map_combinations, none, List.map_nil]
  have within : forall other, other ∈ (choicesAll children).flatMap List.flatten ->
      other ∈ preorderAll children :=
    fun other isOther => literals_subset_both.2 _ (choices_subset_both.2 _ isOther)
  have isUnused : forall other, other ∈ (choicesAll children).flatMap List.flatten ->
      other.handle = unused.handle -> other = unused :=
    fun other isOther => List.inj_on_of_nodup_map distinct (within other isOther)
      (within unused among)
  rw [← wanted, flatMap_flatten_map] at among isUnused
  have original := firstOf_mem ((Led.flatten led).firstOf_eq among isUnused)
  have inPool : unused ∈ ((disjoinAll forest children).1.map Disjunction.literals).flatMap
      List.flatten := by
    rw [← standing, flatMap_flatten_map]
    exact List.mem_map_of_mem (f := Occurrence.node) original.1
  rcases disjoin_and forest handle children with ⟨grown, computed, _, listed⟩
  rw [List.flatMap_map] at inPool
  rw [computed, listed.mem_iff, noPlace, Placement.clauses, Arena.unplaced_nil]
  exact List.mem_cons_of_mem _ (List.mem_append_left _ inPool)

/-- A literal that is wanted nowhere stands alone after the conversion. -/
theorem unused_mem_roots (node : Node) (distinct : node.handles.Nodup)
    (old : forall handle, handle ∈ node.handles -> handle < bound) {unused : Node}
    (member : unused ∈ node.literals) (notChosen : unused ∉ node.choices.flatten) :
    forall forest : Forest, bound ≤ forest.allocated ->
      unused ∈ (node.disjoin forest).2.roots := by
  induction node using Node.induction_connectives with
  | literal node isLiteral =>
      rw [literals_of_literal isLiteral] at member
      rw [choices_of_literal isLiteral] at notChosen
      exact (notChosen member).elim
  | connective handle symbol children ih =>
      intro forest new
      have distinctBelow : ((preorderAll children).map Node.handle).Nodup :=
        (List.nodup_cons.mp distinct).2
      rw [handles_mk] at old distinct
      rw [List.forall_mem_cons] at old
      have below : forall child, child ∈ children -> forall forest : Forest,
          bound ≤ forest.allocated -> unused ∈ child.literals ->
            unused ∉ child.choices.flatten -> unused ∈ (child.disjoin forest).2.roots := by
        intro child isChild forest new inChild notChosen
        have within := List.sublist_flatten_of_mem (List.mem_map_of_mem (f := handles) isChild)
        rw [← List.flatMap_def] at within
        exact ih child isChild (within.nodup (List.nodup_cons.mp distinct).2)
          (fun handle inside => old.2 handle (within.subset inside)) inChild notChosen forest new
      cases symbol with
      | or =>
          have none : unused ∉ (choicesAll children).flatMap List.flatten := by
            rw [List.flatMap_def, ← List.flatten_flatten]
            exact notChosen
          exact roots_subset_or forest handle children
            (unused_all below old.2 member none forest.reserve (Nat.le_succ_of_le new))
      | and =>
          -- The literal is left over here, or was left over below.
          by_cases among : unused ∈ (choicesAll children).flatMap List.flatten
          · have none := combinations_eq_nil_of_not_mem among notChosen
            exact unused_of_combinations_eq_nil distinctBelow old.2 among none forest new handle
          · exact roots_subset_and forest handle children
              (unused_all below old.2 member among forest new)

/-! ## First and later places -/

/-- Some literals are wanted in the clauses, and nodes stand in their places.  Place by place,
clause after clause, the first place of a literal has the literal itself, with all nodes below
it.  Every later place has a copy whose nodes are all new. -/
structure SharesByCopying (bound : Nat) (wanted standing : List (List Node)) : Prop where
  lengths : standing.map List.length = wanted.map List.length
  first : forall place literal node, wanted.flatten[place]? = some literal ->
    standing.flatten[place]? = some node -> literal ∉ wanted.flatten.take place -> node = literal
  later : forall place literal node, wanted.flatten[place]? = some literal ->
    standing.flatten[place]? = some node -> literal ∈ wanted.flatten.take place ->
      literal.IsNewCopy bound node

section Places

variable {occurrences : List Occurrence} {place : Nat} {here : Occurrence}

theorem split_at_place (found : occurrences[place]? = some here) :
    occurrences = occurrences.take place ++ here :: occurrences.drop (place + 1) := by
  rcases List.getElem?_eq_some_iff.mp found with ⟨within, same⟩
  rw [← same, List.cons_getElem_drop_succ, List.take_append_drop]

variable (led : Led bound occurrences)
  (distinct : forall first, first ∈ occurrences.map literal ->
    forall second, second ∈ occurrences.map literal -> first.handle = second.handle ->
      first = second)

include led distinct

theorem firstOf_of_place (found : occurrences[place]? = some here) :
    firstOf here.literal.handle occurrences = some ⟨here.literal, here.literal⟩ := by
  have wanted := List.mem_map_of_mem (f := literal) (List.mem_of_getElem? found)
  exact led.firstOf_eq wanted (fun other isOther => distinct other isOther _ wanted)

theorem node_eq_of_first (found : occurrences[place]? = some here)
    (isFirst : here.literal ∉ (occurrences.map literal).take place) :
    here.node = here.literal := by
  have first := firstOf_of_place led distinct found
  have noneBefore : firstOf here.literal.handle (occurrences.take place) = none := by
    refine firstOf_eq_none.mpr (fun other isOther same => isFirst ?_)
    rw [List.map_take] at isOther
    have wanted := List.mem_map_of_mem (f := literal) (List.mem_of_getElem? found)
    rw [← distinct other (List.mem_of_mem_take isOther) _ wanted same]
    exact isOther
  have isHere : firstOf here.literal.handle (here :: occurrences.drop (place + 1)) = some here :=
    List.find?_cons_of_pos (by rw [beq_self_eq_true])
  rw [split_at_place found, firstOf_append, noneBefore, isHere, Option.none_or] at first
  exact congrArg Occurrence.node (Option.some.inj first)

theorem isNewCopy_of_later (apart : (occurrences.map (fun other => other.node.handle)).Nodup)
    (found : occurrences[place]? = some here)
    (isLater : here.literal ∈ (occurrences.map literal).take place) :
    here.literal.IsNewCopy bound here.node := by
  have first := firstOf_of_place led distinct found
  rcases (led.fits here (List.mem_of_getElem? found)).choice with same | copied
  · rw [split_at_place found, firstOf_append] at first
    cases before : firstOf here.literal.handle (occurrences.take place) with
    | none =>
        rw [← List.map_take] at isLater
        exact (firstOf_eq_none.mp before _ isLater rfl).elim
    | some original =>
        rw [before, Option.some_or] at first
        have early := (firstOf_mem before).1
        rw [Option.some.inj first] at early
        -- The literal would stand in two places.
        rw [split_at_place found, List.map_append, List.map_cons, List.nodup_middle,
          List.nodup_cons, same] at apart
        exact (apart.1 (List.mem_append_left _
          (List.mem_map_of_mem (f := fun other => other.node.handle) early))).elim
  · exact copied

end Places

theorem sharesByCopying {occurrences : List (List Occurrence)}
    (led : Led bound occurrences.flatten)
    (distinct : forall first, first ∈ occurrences.flatten.map literal ->
      forall second, second ∈ occurrences.flatten.map literal -> first.handle = second.handle ->
        first = second)
    (apart : (occurrences.flatten.map (fun other => other.node.handle)).Nodup) :
    SharesByCopying bound (occurrences.map (List.map literal))
      (occurrences.map (List.map Occurrence.node)) := by
  have located : forall (place : Nat) (wanted standing : Node),
      (occurrences.flatten.map literal)[place]? = some wanted ->
        (occurrences.flatten.map Occurrence.node)[place]? = some standing ->
          occurrences.flatten[place]? = some ⟨wanted, standing⟩ := by
    intro place wanted standing isWanted stands
    rw [List.getElem?_map] at isWanted stands
    rcases Option.map_eq_some_iff.mp isWanted with ⟨here, found, same⟩
    rw [found, Option.map_some] at stands
    rw [found, ← same, ← Option.some.inj stands]
  refine ⟨?_, ?_, ?_⟩
  · rw [List.map_map, List.map_map]
    exact List.map_congr_left (fun choice _ => by simp)
  · rw [← List.map_flatten, ← List.map_flatten]
    intro place wanted standing isWanted stands isFirst
    exact node_eq_of_first led distinct (located place wanted standing isWanted stands) isFirst
  · rw [← List.map_flatten, ← List.map_flatten]
    intro place wanted standing isWanted stands isLater
    exact isNewCopy_of_later led distinct apart (located place wanted standing isWanted stands)
      isLater

/-! ## Whole expressions -/

/-- The clauses of the disjunctive normal form of an expression, with its own nodes as literals.
A conjunction without operands has none. -/
def wanted : Node -> List (List Node)
  | mk _ .and [] => []
  | node => node.choices

theorem wanted_of_not_childless {node : Node}
    (notChildless : ¬ (node.kind = .and ∧ node.children = [])) : node.wanted = node.choices := by
  rw [wanted]
  intro handle childless
  subst childless
  exact notChildless ⟨rfl, rfl⟩

/-- The operands of some nodes, with everything below them, have handles that these nodes
have. -/
theorem handles_children_sublist (nodes : List Node) :
    ((nodes.flatMap children).flatMap handles).Sublist (nodes.flatMap handles) := by
  induction nodes with
  | nil => exact List.Sublist.slnil
  | cons node rest ih =>
      rcases node with ⟨handle, kind, children⟩
      rw [List.flatMap_cons, List.flatMap_append, List.flatMap_cons, handles_mk, children_mk]
      exact (List.sublist_cons_self _ _).append ih

theorem clausesOf_shares {node : Node} (distinct : node.handles.Nodup)
    (old : forall handle, handle ∈ node.handles -> handle < bound) {forest : Forest}
    (new : bound ≤ forest.allocated) (apart : (node.clausesOf forest).1.handles.Nodup) :
    SharesByCopying bound node.wanted ((node.clausesOf forest).1.children.map children) ∧
      forall unused, unused ∈ node.literals -> unused ∉ node.wanted.flatten ->
        unused ∈ (node.clausesOf forest).2.roots ∧
          Exists fun inner : Node => inner ∈ node.preorder ∧ inner.HasNoClause ∧
            unused ∈ inner.preorder := by
  by_cases childless : node.kind = .and ∧ node.children = []
  · rcases node with ⟨handle, kind, children⟩
    rcases childless with ⟨conjunction, none⟩
    rw [kind_mk] at conjunction
    rw [children_mk] at none
    subst conjunction none
    refine ⟨⟨rfl, fun _ _ _ impossible => ?_, fun _ _ _ impossible => ?_⟩,
      fun _ impossible => (List.not_mem_nil impossible).elim⟩
    · exact absurd impossible (by simp [wanted])
    · exact absurd impossible (by simp [wanted])
  · rw [wanted_of_not_childless childless, clausesOf_of_not_childless childless] at *
    rcases node.disperses old forest new with ⟨_, occurrences, isWanted, stands, led⟩
    have clauses : (node.disjoin forest).1.toNode.children.map children =
        (node.disjoin forest).1.literals := by
      rw [Disjunction.toNode, children_mk, List.map_map]
      rfl
    refine ⟨?_, fun unused member notChosen =>
      ⟨node.unused_mem_roots distinct old member notChosen forest new,
        (exists_hasNoClause_both unused).1 node member notChosen⟩⟩
    have among : forall literal, literal ∈ occurrences.flatten.map Occurrence.literal ->
        literal ∈ node.preorder := by
      intro literal member
      rw [List.map_flatten, isWanted] at member
      exact literals_subset_both.1 node (choices_subset_both.1 node member)
    rw [clauses, ← isWanted, ← stands]
    refine sharesByCopying led (fun first isFirst second isSecond => ?_) ?_
    · exact List.inj_on_of_nodup_map distinct (among first isFirst) (among second isSecond)
    · have nested := (map_handle_sublist _).trans
        (handles_children_sublist (node.disjoin forest).1.toNode.children)
      rw [List.flatMap_def, clauses, ← stands, ← List.map_flatten, List.map_map] at nested
      rw [Disjunction.toNode, handles_mk] at apart
      exact nested.nodup (List.nodup_cons.mp apart).2

/-- The disjunctive normal form is made of the clauses of the negation normal form, in a forest
with at least the same handles. -/
theorem toDnf_eq_clausesOf (attached : Bool) (node : Node) (forest : Forest) :
    Exists fun start : Forest => (node.toNnf forest).2.allocated ≤ start.allocated ∧
      (node.toDnf attached forest).1 = ((node.toNnf forest).1.clausesOf start).1 ∧
      ((node.toNnf forest).1.clausesOf start).2.roots ⊆ (node.toDnf attached forest).2.roots := by
  cases attached with
  | false => exact ⟨_, Nat.le_refl _, rfl, List.Subset.refl _⟩
  | true =>
      refine ⟨(node.toNnf forest).2.reserve, Nat.le_succ _, rfl, fun root member => ?_⟩
      exact (Forest.roots_plant_perm _ _).mem_iff.mpr (List.mem_cons_of_mem _ member)

end Node

namespace Arena

/-- The conversion of any node to disjunctive normal form ends with a disjunction whose nodes are
all different.  Its clauses have the literals of the negation normal form.  In its first place
stands each literal itself, and in every later place a copy that is made of nodes which the
negation normal form did not have.  Literals that are in no clause are no part of the
result and stand alone, and there are such literals only below a conjunction with an
operand that has no clauses. -/
theorem toDnf_shares_by_copying {arena : Arena} (wellFormed : arena.WellFormed) {root : Handle}
    (bound : root < arena.size) :
    Exists fun nnf : Node => Exists fun middle : Arena =>
      root.toNnf.run.run arena = some (.ok nnf.handle, middle) ∧ middle.Reads nnf.handle nnf ∧
      Exists fun dnf : Node => Exists fun later : Arena =>
        root.toDnf.run.run arena = some (.ok dnf.handle, later) ∧ later.Reads dnf.handle dnf ∧
        dnf.handles.Nodup ∧
        Node.SharesByCopying middle.size nnf.wanted (dnf.children.map Node.children) ∧
        forall unused, unused ∈ nnf.literals -> unused ∉ nnf.wanted.flatten ->
          later.Reads unused.handle unused ∧ later.StandsAlone unused.handle ∧
          unused.handles.Disjoint dnf.handles ∧
          Exists fun inner : Node => inner ∈ nnf.preorder ∧ inner.HasNoClause ∧
            unused ∈ inner.preorder := by
  rcases wellFormed.exists_place bound with ⟨tree, path, rest, same, stored⟩
  subst same
  rcases toNnf_yields tree path ⟨arena.size, []⟩ rest arena stored with ⟨middle, runNnf, between, _⟩
  rcases toDnf_yields tree path ⟨arena.size, []⟩ rest arena stored with ⟨later, runDnf, kept, _⟩
  rcases tree.toDnf_eq_clausesOf (Step.parent? path).isSome ⟨arena.size, []⟩ with
    ⟨start, new, isClauses, left⟩
  generalize tree.toNnf ⟨arena.size, []⟩ = nnf at runNnf between new isClauses left
  generalize tree.toDnf _ _ = dnf at runDnf kept isClauses left
  have member : nnf.1.climb path ∈ nnf.1.climb path :: (nnf.2.roots ++ rest) := List.mem_cons_self
  have top : dnf.1.climb path ∈ dnf.1.climb path :: (dnf.2.roots ++ rest) := List.mem_cons_self
  have distinct : nnf.1.handles.Nodup := Node.nodup_of_climb (between.tree_nodup member)
  have apart : dnf.1.handles.Nodup := Node.nodup_of_climb (kept.tree_nodup top)
  have old : forall handle, handle ∈ nnf.1.handles -> handle < middle.size :=
    fun _ inside => between.lt_of_mem_handles member inside
  rw [← between.size] at new
  rw [isClauses] at apart
  rcases Node.clausesOf_shares distinct old new apart with ⟨shares, unused⟩
  rw [← isClauses] at apart shares
  refine ⟨nnf.1, middle, runNnf, between.reads member, dnf.1, later, runDnf, kept.reads top, apart,
    shares, fun literal isLiteral notWanted => ?_⟩
  rcases unused literal isLiteral notWanted with ⟨isRoot, below⟩
  have aside : literal ∈ dnf.2.roots ++ rest := List.mem_append_left _ (left isRoot)
  have listed := List.mem_cons_of_mem (dnf.1.climb path) aside
  refine ⟨kept.reads_of_mem listed, kept.standsAlone listed, fun handle inLiteral inResult => ?_,
    below⟩
  have separate := kept.handles_nodup
  rw [List.flatMap_cons] at separate
  exact (List.nodup_append.mp separate).2.2 handle
    ((dnf.1.handles_climb path).mem_iff.mpr (List.mem_append_left _ inResult)) handle
    (List.mem_flatMap.mpr ⟨literal, aside, inLiteral⟩) rfl

/-- A literal beside a disjunction of two is copied once.  A literal beside an empty disjunction
is left over. -/
theorem toDnf_shares_by_copying_distributed :
    let kind : Nat -> Kind := fun start => .var ⟨start, start + 1⟩
    let arena : Arena := ⟨#[⟨.or, none, some 1, some 6, none, none⟩,
      ⟨.and, some 0, some 2, some 5, none, some 6⟩, ⟨.or, some 1, some 3, some 4, none, some 5⟩,
      ⟨kind 0, some 2, none, none, none, some 4⟩, ⟨kind 2, some 2, none, none, some 3, none⟩,
      ⟨kind 4, some 1, none, none, some 2, none⟩, ⟨.and, some 0, some 7, some 8, some 1, none⟩,
      ⟨kind 6, some 6, none, none, none, some 8⟩, ⟨.or, some 6, none, none, some 7, none⟩]⟩
    let shared : Node := .mk 5 (kind 4) []
    Exists fun dnf : Node => Exists fun later : Arena =>
      (Handle.toDnf 0).run.run arena = some (.ok dnf.handle, later) ∧
      later.Reads dnf.handle dnf ∧
      (dnf.children.map Node.children).flatten[1]? = some shared ∧
      (Exists fun copy : Node => (dnf.children.map Node.children).flatten[3]? = some copy ∧
        shared.IsNewCopy 9 copy) ∧
      later.Reads 7 (.mk 7 (kind 6) []) ∧ later.StandsAlone 7 ∧ 7 ∉ dnf.handles := by
  intro kind arena shared
  let first : Node := .mk 3 (kind 0) []
  let second : Node := .mk 4 (kind 2) []
  let left : Node := .mk 7 (kind 6) []
  let tree : Node := .mk 0 .or [.mk 1 .and [.mk 2 .or [first, second], shared],
    .mk 6 .and [left, .mk 8 .or []]]
  have stored : arena.Stores ⟨9, [tree]⟩ := ⟨⟨by decide, by decide⟩, rfl⟩
  have top : tree.climb [] ∈ [tree] := List.mem_cons_self
  rcases toDnf_shares_by_copying stored.wellFormed (by decide : 0 < arena.size) with
    ⟨nnf, middle, runNnf, reads, dnf, later, run, readsDnf, _, shares, unused⟩
  rcases toNnf_yields tree [] ⟨9, []⟩ [] arena stored with ⟨again, runAgain, between, _⟩
  have sameRun := Option.some.inj (runNnf.symm.trans runAgain)
  have sameArena : middle = again := congrArg Prod.snd sameRun
  have sameHandle : nnf.handle = 0 := Except.ok.inj (congrArg Prod.fst sameRun)
  subst sameArena
  rw [sameHandle] at reads
  have isTree : nnf = tree := reads.unique (between.reads_of_mem List.mem_cons_self)
  subst isTree
  have places : (dnf.children.map Node.children).flatten.length = 4 := by
    rw [List.length_flatten, shares.lengths]
    rfl
  have standing : forall place, place < 4 -> Exists fun node : Node =>
      (dnf.children.map Node.children).flatten[place]? = some node :=
    fun place within => ⟨_, List.getElem?_eq_getElem (places.symm ▸ within)⟩
  rcases standing 1 (by decide) with ⟨early, isEarly⟩
  rcases standing 3 (by decide) with ⟨late, isLate⟩
  have isWanted : tree.wanted = [[first, shared], [second, shared]] := rfl
  rw [isWanted] at shares unused
  have original : early = shared := shares.first 1 shared early rfl isEarly
    (by simp [shared, first])
  have copied : shared.IsNewCopy middle.size late := shares.later 3 shared late rfl isLate (by simp)
  rw [between.size] at copied
  have isLiteral : left ∈ tree.literals := List.mem_append_right _ List.mem_cons_self
  rcases unused left isLiteral (by simp [left, first, second, shared]) with
    ⟨readsLeft, alone, apart, _⟩
  exact ⟨dnf, later, run, readsDnf, isEarly.trans (congrArg some original), ⟨late, isLate, copied⟩,
    readsLeft, alone, apart List.mem_cons_self⟩

end Arena

end PlanningDomain
