import PlanningDomain.Proofs.Arena.Disjunctions

namespace PlanningDomain

/-!
# Literals in more than one clause

The clauses of a disjunctive normal form are first written down with the literals
themselves, so that one node may stand in many places.  In the conversion this is not
possible, and something else stands in all places but one.  An occurrence
is such a place, with the literal that is wanted there and the node that stands there.

The conversion looks no further than one conjunction.  What was placed for an operand,
originals and copies alike, is placed again for the conjunction around it, and may be
copied once more.  Two facts are enough to follow a literal through this.  In each place
stands the literal or a younger copy, and the first place of a literal has the literal
itself.
-/

/-! ## First members of combinations -/

section First

variable {alpha : Type} (test : alpha -> Bool) {found : alpha}

/-- If all lists of a family begin alike, what is found first is found in the common part or
in the family. -/
theorem find?_flatten_map_append {choice : List alpha} {family : List (List alpha)}
    (first : (family.map (fun joined => choice ++ joined)).flatten.find? test = some found) :
    choice.find? test = some found ∨ family.flatten.find? test = some found := by
  induction family with
  | nil => simp at first
  | cons joined family ih =>
      rw [List.map_cons, List.flatten_cons, List.find?_append, List.find?_append] at first
      rw [List.flatten_cons, List.find?_append]
      cases here : choice.find? test with
      | some early =>
          rw [here] at first
          exact Or.inl first
      | none =>
          rw [here, Option.none_or] at first
          refine Or.inr ?_
          cases there : joined.find? test with
          | some early =>
              rw [there] at first
              exact first
          | none =>
              rw [there, Option.none_or] at first
              rcases ih first with impossible | later
              · exact absurd (here.symm.trans impossible) (Option.some_ne_none found).symm
              · exact later

theorem find?_flatten_flatMap_append {choices family : List (List alpha)}
    (first : (choices.flatMap (fun choice =>
      family.map (fun joined => choice ++ joined))).flatten.find? test = some found) :
    choices.flatten.find? test = some found ∨ family.flatten.find? test = some found := by
  induction choices with
  | nil => simp at first
  | cons choice choices ih =>
      rw [List.flatMap_cons, List.flatten_append, List.find?_append] at first
      rw [List.flatten_cons, List.find?_append]
      cases here : (family.map (fun joined => choice ++ joined)).flatten.find? test with
      | some early =>
          rw [here, Option.some_or] at first
          rcases find?_flatten_map_append test (here.trans first) with inChoice | inFamily
          · rw [inChoice]
            exact Or.inl rfl
          · exact Or.inr inFamily
      | none =>
          rw [here, Option.none_or] at first
          -- The part in front was there to be searched, for the family has a member.
          have none : choice.find? test = none := by
            cases family with
            | nil => simp [List.flatMap_eq_nil_iff.mpr] at first
            | cons joined family =>
                rw [List.map_cons, List.flatten_cons, List.find?_append, List.find?_append,
                  Option.or_eq_none_iff, Option.or_eq_none_iff] at here
                exact here.1.1
          rw [none, Option.none_or]
          exact ih first

/-- What is found first in all combinations is what is found first in one of the families. -/
theorem exists_find?_of_combinations {families : List (List (List alpha))}
    (first : (combinations families).flatten.find? test = some found) :
    Exists fun family : List (List alpha) =>
      family ∈ families ∧ family.flatten.find? test = some found := by
  induction families with
  | nil => simp [combinations] at first
  | cons family families ih =>
      rcases find?_flatten_flatMap_append test first with here | later
      · exact ⟨family, List.mem_cons_self, here⟩
      · rcases ih later with ⟨other, listed, same⟩
        exact ⟨other, List.mem_cons_of_mem _ listed, same⟩

end First

/-- If there is a combination at all, every member of the families is in one. -/
theorem mem_flatten_combinations {alpha : Type} {families : List (List (List alpha))}
    (possible : combinations families ≠ []) {entry : alpha}
    (member : entry ∈ families.flatMap List.flatten) :
    entry ∈ (combinations families).flatten := by
  induction families with
  | nil => exact (List.not_mem_nil member).elim
  | cons family families ih =>
      have joins : forall choice, choice ∈ family -> forall joined,
          joined ∈ combinations families -> choice ++ joined ∈ combinations (family :: families) :=
        fun choice isChoice joined isJoined =>
          List.mem_flatMap.mpr ⟨choice, isChoice, List.mem_map_of_mem isJoined⟩
      rcases List.exists_mem_of_ne_nil _ possible with ⟨combination, listed⟩
      rcases List.mem_flatMap.mp listed with ⟨choice, isChoice, among⟩
      rcases List.mem_map.mp among with ⟨joined, isJoined, _⟩
      rw [List.flatMap_cons, List.mem_append] at member
      rcases member with here | later
      · rcases List.mem_flatten.mp here with ⟨other, isOther, within⟩
        exact List.mem_flatten.mpr
          ⟨_, joins other isOther joined isJoined, List.mem_append_left _ within⟩
      · rcases List.mem_flatten.mp (ih (List.ne_nil_of_mem isJoined) later) with
          ⟨other, isOther, within⟩
        exact List.mem_flatten.mpr
          ⟨_, joins choice isChoice other isOther, List.mem_append_right _ within⟩

/-- If a member of the families is in no combination, there is no combination. -/
theorem combinations_eq_nil_of_not_mem {alpha : Type} {families : List (List (List alpha))}
    {entry : alpha} (member : entry ∈ families.flatMap List.flatten)
    (absent : entry ∉ (combinations families).flatten) : combinations families = [] := by
  by_contra possible
  exact absent (mem_flatten_combinations possible member)

/-- If there is no combination, one of the families is empty. -/
theorem nil_mem_of_combinations {alpha : Type} {families : List (List (List alpha))}
    (none : combinations families = []) : [] ∈ families := by
  induction families with
  | nil => exact (List.cons_ne_nil _ _ none).elim
  | cons family families ih =>
      cases family with
      | nil => exact List.mem_cons_self
      | cons choice family =>
          have empty := List.flatMap_eq_nil_iff.mp none choice List.mem_cons_self
          exact List.mem_cons_of_mem _ (ih (List.map_eq_nil_iff.mp empty))

/-- A change of all members of some families is a change of their joined members. -/
theorem flatMap_flatten_map {alpha beta : Type} (rename : alpha -> beta)
    (families : List (List (List alpha))) :
    (families.map (List.map (List.map rename))).flatMap List.flatten =
      families.flatten.flatten.map rename := by
  rw [List.map_flatten, List.map_flatten, List.flatten_flatten, List.flatMap_def]

/-! ## Copies are new -/

namespace Node

theorem handles_copy_both :
    (forall (node : Node) (first : Handle),
      (node.copy first).1.handles = List.range' first node.size ∧
        (node.copy first).2 = first + node.size) ∧
      forall (nodes : List Node) (first : Handle),
        (copyAll first nodes).1.flatMap handles =
            List.range' first (nodes.flatMap handles).length ∧
          (copyAll first nodes).2 = first + (nodes.flatMap handles).length := by
  refine induction_both ?_ (fun _ => ⟨rfl, rfl⟩) ?_
  · intro handle kind children ih first
    rcases ih (first + 1) with ⟨numbered, next⟩
    rw [copy, handles_mk, size_mk, numbered, next, List.range'_succ, Nat.add_right_comm]
    exact ⟨rfl, rfl⟩
  · intro node rest head tail first
    rcases head first with ⟨here, middle⟩
    rcases tail (first + node.size) with ⟨later, next⟩
    rw [copyAll, middle, List.flatMap_cons, List.flatMap_cons, here, later, next,
      List.length_append, length_handles, List.range'_append_1, Nat.add_assoc]
    exact ⟨rfl, rfl⟩

/-- A node is a copy of another, and all its nodes have handles from a bound on. -/
structure IsNewCopy (bound : Nat) (node copy : Node) : Prop where
  term : copy.term = node.term
  new : forall handle, handle ∈ copy.handles -> bound ≤ handle

theorem isNewCopy_copy {bound first : Nat} (new : bound ≤ first) (node : Node) :
    node.IsNewCopy bound (node.copy first).1 where
  term := term_copy.1 node first
  new := by
    intro handle member
    rw [(handles_copy_both.1 node first).1, List.mem_range'_1] at member
    exact Nat.le_trans new member.1

/-! ## Clauses with the literals themselves -/

/-- Clauses are made by connectives.  All other nodes are literals to them, with whatever they
have below them. -/
theorem induction_connectives {motive : Node -> Prop}
    (literal : forall node : Node, (forall symbol, node.kind ≠ .connective symbol) -> motive node)
    (connective : forall handle symbol children,
      (forall child, child ∈ children -> motive child) ->
        motive (mk handle (.connective symbol) children))
    (node : Node) : motive node := by
  induction node using Node.induction with
  | step handle kind children ih =>
      by_cases isConnective : Exists fun symbol : Connective => kind = .connective symbol
      · rcases isConnective with ⟨symbol, same⟩
        subst same
        exact connective handle symbol children ih
      · exact literal _ (fun symbol same => isConnective ⟨symbol, same⟩)

mutual

/-- The clauses of an expression, with its own nodes as literals. -/
def choices : Node -> List (List Node)
  | mk _ .or children => (choicesAll children).flatten
  | mk _ .and children => combinations (choicesAll children)
  | mk handle kind children => [[mk handle kind children]]

def choicesAll : List Node -> List (List (List Node))
  | [] => []
  | node :: rest => node.choices :: choicesAll rest

end

theorem choices_of_literal {node : Node} (literal : forall symbol, node.kind ≠ .connective symbol) :
    node.choices = [[node]] := by
  rcases node with ⟨handle, kind, children⟩
  cases kind with
  | connective symbol => exact (literal symbol rfl).elim
  | _ => rfl

mutual

/-- The nodes of an expression at which its connectives end. -/
def literals : Node -> List Node
  | mk _ (.connective _) children => literalsAll children
  | mk handle kind children => [mk handle kind children]

def literalsAll : List Node -> List Node
  | [] => []
  | node :: rest => node.literals ++ literalsAll rest

end

theorem literals_of_literal {node : Node}
    (literal : forall symbol, node.kind ≠ .connective symbol) : node.literals = [node] := by
  rcases node with ⟨handle, kind, children⟩
  cases kind with
  | connective symbol => exact (literal symbol rfl).elim
  | _ => rfl

theorem literals_subset_both :
    (forall node : Node, node.literals ⊆ node.preorder) ∧
      forall nodes : List Node, literalsAll nodes ⊆ preorderAll nodes := by
  refine induction_both ?_ (fun _ => id) ?_
  · intro handle kind children ih
    cases kind with
    | connective symbol => exact List.Subset.trans ih (List.subset_cons_self _ _)
    | _ => exact List.cons_subset_cons _ (List.nil_subset _)
  · intro node rest head tail literal member
    rw [literalsAll, List.mem_append] at member
    exact List.mem_append.mpr (member.imp (fun first => head first) (fun later => tail later))

/-- Only literals of the expression stand in its clauses. -/
theorem choices_subset_both :
    (forall node : Node, node.choices.flatten ⊆ node.literals) ∧
      forall nodes : List Node, (choicesAll nodes).flatMap List.flatten ⊆ literalsAll nodes := by
  refine induction_both ?_ (fun _ => id) ?_
  · intro handle kind children ih
    cases kind with
    | connective symbol =>
        intro literal member
        rcases List.mem_flatten.mp member with ⟨choice, listed, within⟩
        apply ih
        cases symbol with
        | and => exact mem_of_mem_combinations choice listed literal within
        | or =>
            rcases List.mem_flatten.mp listed with ⟨family, isFamily, among⟩
            exact List.mem_flatMap.mpr
              ⟨family, isFamily, List.mem_flatten.mpr ⟨choice, among, within⟩⟩
    | _ => exact List.Subset.refl _
  · intro node rest head tail literal member
    rw [choicesAll, List.flatMap_cons, List.mem_append] at member
    exact List.mem_append.mpr (member.imp (fun first => head first) (fun later => tail later))

end Node

/-! ## Occurrences -/

/-- A place in a clause: the literal that is wanted there, and the node that stands there. -/
structure Occurrence where
  literal : Node
  node : Node

/-- What stands in a place is the literal, which is older than the bound, or a newer copy. -/
structure Occurrence.Fits (bound : Nat) (occurrence : Occurrence) : Prop where
  old : occurrence.literal.handle < bound
  choice : occurrence.node = occurrence.literal ∨
    occurrence.literal.IsNewCopy bound occurrence.node

/-- A node with an old handle is no copy. -/
theorem Occurrence.Fits.eq_of_lt {bound : Nat} {occurrence : Occurrence}
    (fits : occurrence.Fits bound) (old : occurrence.node.handle < bound) :
    occurrence.node = occurrence.literal := by
  rcases fits.choice with same | copied
  · exact same
  · exact absurd old (Nat.not_lt.mpr (copied.new _ occurrence.node.handle_mem_handles))

/-- The first place in which the literal with some handle is wanted. -/
def firstOf (key : Handle) (occurrences : List Occurrence) : Option Occurrence :=
  occurrences.find? (fun occurrence => occurrence.literal.handle == key)

theorem firstOf_append (key : Handle) (before after : List Occurrence) :
    firstOf key (before ++ after) = (firstOf key before).or (firstOf key after) :=
  List.find?_append

theorem firstOf_singleton {key : Handle} {occurrence found : Occurrence}
    (first : firstOf key [occurrence] = some found) :
    occurrence = found ∧ occurrence.literal.handle = key := by
  rw [firstOf, List.find?_singleton] at first
  rw [Option.ite_none_right_eq_some, beq_iff_eq] at first
  exact ⟨Option.some.inj first.2, first.1⟩

theorem firstOf_eq_none {key : Handle} {occurrences : List Occurrence} :
    firstOf key occurrences = none ↔
      forall literal, literal ∈ occurrences.map Occurrence.literal -> literal.handle ≠ key := by
  rw [firstOf, List.find?_eq_none, List.forall_mem_map]
  exact forall₂_congr (fun occurrence _ => by rw [beq_iff_eq])

theorem firstOf_mem {key : Handle} {occurrences : List Occurrence} {found : Occurrence}
    (first : firstOf key occurrences = some found) :
    found ∈ occurrences ∧ found.literal.handle = key :=
  ⟨List.mem_of_find?_eq_some first, by
    have test := List.find?_some first
    exact beq_iff_eq.mp test⟩

/-- The first place of each literal has the literal, and the other places have newer
copies or originals. -/
structure Led (bound : Nat) (occurrences : List Occurrence) : Prop where
  fits : forall occurrence, occurrence ∈ occurrences -> occurrence.Fits bound
  leads : forall key found, firstOf key occurrences = some found -> found.node = found.literal

namespace Led

variable {bound : Nat}

theorem nil : Led bound [] where
  fits := fun _ impossible => (List.not_mem_nil impossible).elim
  leads := fun _ found impossible => absurd impossible (Option.some_ne_none found).symm

theorem single {literal : Node} (old : literal.handle < bound) :
    Led bound [⟨literal, literal⟩] where
  fits := List.forall_mem_singleton.mpr ⟨old, Or.inl rfl⟩
  leads := by
    intro key found first
    rw [← (firstOf_singleton first).1]

theorem append {before after : List Occurrence} (first : Led bound before)
    (second : Led bound after) : Led bound (before ++ after) where
  fits := List.forall_mem_append.mpr ⟨first.fits, second.fits⟩
  leads := by
    intro key found here
    rw [firstOf_append, Option.or_eq_some_iff] at here
    rcases here with early | ⟨_, late⟩
    · exact first.leads key found early
    · exact second.leads key found late

theorem flatten {families : List (List (List Occurrence))}
    (each : forall family, family ∈ families -> Led bound family.flatten) :
    Led bound families.flatten.flatten := by
  induction families with
  | nil => exact nil
  | cons family families ih =>
      rw [List.flatten_cons, List.flatten_append]
      exact (each family List.mem_cons_self).append
        (ih (fun other listed => each other (List.mem_cons_of_mem _ listed)))

/-- If the literals are told apart by their handles, every wanted literal stands in its first
place. -/
theorem firstOf_eq {occurrences : List Occurrence} (led : Led bound occurrences) {literal : Node}
    (wanted : literal ∈ occurrences.map Occurrence.literal)
    (distinct : forall other, other ∈ occurrences.map Occurrence.literal ->
      other.handle = literal.handle -> other = literal) :
    firstOf literal.handle occurrences = some ⟨literal, literal⟩ := by
  cases first : firstOf literal.handle occurrences with
  | none => exact (firstOf_eq_none.mp first literal wanted rfl).elim
  | some found =>
      rcases firstOf_mem first with ⟨listed, same⟩
      have original := led.leads _ found first
      have isLiteral := distinct _ (List.mem_map_of_mem listed) same
      rcases found with ⟨wantedThere, standing⟩
      change standing = wantedThere at original
      change wantedThere = literal at isLiteral
      rw [original, isLiteral]

/-- Combining keeps the first places of all literals first. -/
theorem combinations {families : List (List (List Occurrence))}
    (each : forall family, family ∈ families -> Led bound family.flatten) :
    Led bound (PlanningDomain.combinations families).flatten where
  fits := by
    intro occurrence member
    rcases List.mem_flatten.mp member with ⟨choice, listed, within⟩
    rcases List.mem_flatMap.mp (mem_of_mem_combinations choice listed occurrence within) with
      ⟨family, isFamily, inside⟩
    exact (each family isFamily).fits occurrence inside
  leads := by
    intro key found first
    rcases exists_find?_of_combinations _ first with ⟨family, isFamily, there⟩
    exact (each family isFamily).leads key found there

end Led

/-! ## Placing once more -/

/-- Nodes that stood in some places were placed again, when the nodes with the taken handles
had a place already.  The literals are the same, and nothing but literals and new copies was
placed.  Old handles are taken for literals that were placed.  A literal that stood first and
had no place before is left where it was. -/
structure Settles (bound : Nat) (among : List Handle) (before after : List Occurrence)
    (left : List Handle) : Prop where
  literals : after.map Occurrence.literal = before.map Occurrence.literal
  fits : forall occurrence, occurrence ∈ after -> occurrence.Fits bound
  taken : forall key, key ∈ left -> key < bound -> key ∈ among ∨ firstOf key before ≠ none
  first : forall key found, key ∉ among -> firstOf key before = some found ->
    found.node = found.literal -> firstOf key after = some found

namespace Settles

variable {bound : Nat} {taken middle left : List Handle} {occurrence : Occurrence}

theorem nil : Settles bound taken [] [] taken where
  literals := rfl
  fits := fun _ impossible => (List.not_mem_nil impossible).elim
  taken := fun _ member _ => Or.inl member
  first := fun _ _ _ impossible _ => impossible

/-- A node that has no place yet is kept. -/
theorem keep (fits : occurrence.Fits bound) :
    Settles bound taken [occurrence] [occurrence] (occurrence.node.handle :: taken) where
  literals := rfl
  fits := List.forall_mem_singleton.mpr fits
  taken := by
    intro key member old
    rcases List.mem_cons.mp member with same | earlier
    · subst same
      refine Or.inr (fun none => ?_)
      rw [fits.eq_of_lt old] at none
      exact firstOf_eq_none.mp none _ List.mem_cons_self rfl
    · exact Or.inl earlier
  first := fun _ _ _ found _ => found

/-- A node that has a place is copied. -/
theorem copy (fits : occurrence.Fits bound) (isTaken : occurrence.node.handle ∈ taken)
    {copied : Node} (isCopy : occurrence.node.IsNewCopy bound copied) :
    Settles bound taken [occurrence] [⟨occurrence.literal, copied⟩] taken where
  literals := rfl
  fits := by
    refine List.forall_mem_singleton.mpr ⟨fits.old, Or.inr ⟨isCopy.term.trans ?_, isCopy.new⟩⟩
    rcases fits.choice with same | earlier
    · rw [same]
    · exact earlier.term
  taken := fun _ member _ => Or.inl member
  first := by
    intro key found free first original
    rcases firstOf_singleton first with ⟨same, isKey⟩
    subst same
    rw [original, isKey] at isTaken
    exact (free isTaken).elim

theorem append {before beforeRest after afterRest : List Occurrence}
    (head : Settles bound taken before after middle)
    (tail : Settles bound middle beforeRest afterRest left) :
    Settles bound taken (before ++ beforeRest) (after ++ afterRest) left where
  literals := by
    rw [List.map_append, List.map_append, head.literals, tail.literals]
  fits := List.forall_mem_append.mpr ⟨head.fits, tail.fits⟩
  taken := by
    intro key member old
    rw [firstOf_append, ne_eq, Option.or_eq_none_iff, not_and_or]
    rcases tail.taken key member old with inMiddle | later
    · exact (head.taken key inMiddle old).imp_right Or.inl
    · exact Or.inr (Or.inr later)
  first := by
    intro key found free first original
    rw [firstOf_append, Option.or_eq_some_iff] at first ⊢
    rcases first with early | ⟨none, late⟩
    · exact Or.inl (head.first key found free early original)
    · have stillNone : firstOf key after = .none := by
        rw [firstOf_eq_none, head.literals]
        exact firstOf_eq_none.mp none
      -- The handle of the literal cannot have been taken in front, where the literal was not placed.
      refine Or.inr ⟨stillNone, tail.first key found (fun member => ?_) late original⟩
      have old : key < bound := by
        rcases firstOf_mem late with ⟨listed, same⟩
        have wanted := List.mem_map_of_mem (f := Occurrence.literal) listed
        rw [← tail.literals] at wanted
        rcases List.mem_map.mp wanted with ⟨other, isOther, sameLiteral⟩
        rw [← same, ← sameLiteral]
        exact (tail.fits other isOther).old
      rcases head.taken key member old with wasTaken | placed
      · exact free wasTaken
      · exact placed none

/-- If nothing had a place before, every literal that stood first stands first. -/
theorem led {before after : List Occurrence} (settles : Settles bound [] before after left)
    (led : Led bound before) : Led bound after where
  fits := settles.fits
  leads := by
    intro key found there
    cases here : firstOf key before with
    | none =>
        have none : firstOf key after = .none := by
          rw [firstOf_eq_none, settles.literals]
          exact firstOf_eq_none.mp here
        exact absurd (none.symm.trans there) (Option.some_ne_none found).symm
    | some original =>
        have leads := led.leads key original here
        have kept := settles.first key original List.not_mem_nil here leads
        rw [Option.some.inj (there.symm.trans kept)]
        exact leads

end Settles

namespace Placement

variable {bound : Nat}

theorem exists_literals (before : List Occurrence) : forall (taken : List Handle) (forest : Forest),
    bound ≤ forest.allocated -> (forall occurrence, occurrence ∈ before -> occurrence.Fits bound) ->
      let placement := Placement.literals taken forest (before.map Occurrence.node)
      bound ≤ placement.forest.allocated ∧ Exists fun after : List Occurrence =>
        after.map Occurrence.node = placement.placed ∧
        Settles bound taken before after placement.taken := by
  induction before with
  | nil => exact fun taken forest new _ => ⟨new, [], rfl, .nil⟩
  | cons occurrence before ih =>
      intro taken forest new fits
      rcases List.forall_mem_cons.mp fits with ⟨fitsHere, others⟩
      rw [List.map_cons, Placement.literals, List.contains_eq_mem]
      by_cases isTaken : occurrence.node.handle ∈ taken
      · rw [if_pos (decide_eq_true isTaken)]
        let copied := occurrence.node.copy forest.allocated
        have isCopy : occurrence.node.IsNewCopy bound copied.1 := Node.isNewCopy_copy new _
        have newer : bound ≤ copied.2 := by
          rw [(Node.handles_copy_both.1 occurrence.node _).2]
          exact Nat.le_add_right_of_le new
        rcases ih taken { forest with allocated := copied.2 } newer others with
          ⟨grown, after, nodes, settles⟩
        exact ⟨grown, ⟨occurrence.literal, copied.1⟩ :: after, by rw [List.map_cons, nodes],
          (Settles.copy fitsHere isTaken isCopy).append settles⟩
      · rw [if_neg (fun found => isTaken (of_decide_eq_true found))]
        rcases ih (occurrence.node.handle :: taken) forest new others with
          ⟨grown, after, nodes, settles⟩
        exact ⟨grown, occurrence :: after, by rw [List.map_cons, nodes],
          (Settles.keep fitsHere).append settles⟩

theorem exists_clauses (before : List (List Occurrence)) :
    forall (taken : List Handle) (forest : Forest), bound ≤ forest.allocated ->
      (forall occurrence, occurrence ∈ before.flatten -> occurrence.Fits bound) ->
        let placement := Placement.clauses taken forest
          (before.map (fun choice => choice.map Occurrence.node))
        bound ≤ placement.forest.allocated ∧ Exists fun after : List (List Occurrence) =>
          after.map (fun choice => choice.map Occurrence.node) =
            placement.placed.map Clause.literals ∧
          after.map (fun choice => choice.map Occurrence.literal) =
            before.map (fun choice => choice.map Occurrence.literal) ∧
          Settles bound taken before.flatten after.flatten placement.taken := by
  induction before with
  | nil => exact fun taken forest new _ => ⟨new, [], rfl, rfl, .nil⟩
  | cons choice before ih =>
      intro taken forest new fits
      rw [List.flatten_cons] at fits
      rcases List.forall_mem_append.mp fits with ⟨fitsHere, others⟩
      rw [List.map_cons, Placement.clauses]
      rcases exists_literals choice taken forest.reserve (Nat.le_succ_of_le new) fitsHere with
        ⟨newer, placed, nodes, settles⟩
      rcases ih _ _ newer others with ⟨grown, after, nodesRest, literalsRest, settlesRest⟩
      refine ⟨grown, placed :: after, ?_, ?_, settles.append settlesRest⟩
      · rw [List.map_cons, List.map_cons, nodes, nodesRest]
      · rw [List.map_cons, List.map_cons, settles.literals, literalsRest]

end Placement

end PlanningDomain
