import PlanningDomain.Proofs.Stages

namespace PlanningDomain

/-!
# Conversions of terms

What a stage makes of an expression depends on its term only.  The arena, the
handles, and what stands around the expression make no difference.  So a stage
relates terms, and laws of the conversions can be stated between terms that
stand in different arenas.  Every term can be built, and so has exactly one term
that it is related to.
-/

namespace Arena

variable {arena : Arena} {size : Nat} {handle : Handle} {kind : Kind}

/-- One more operand for a node that stands first. -/
theorem Stores.append {built : List Node} {child : Node} {rest : List Node}
    (stored : arena.Stores ⟨size, child :: .mk handle kind built :: rest⟩) :
    Exists fun later : Arena =>
      later.Stores ⟨size, .mk handle kind (built ++ [child]) :: rest⟩ := by
  rcases append_yields rest handle kind built child [] arena (stored.perm (.swap ..)) with
    ⟨later, _, kept, _⟩
  exact ⟨later, kept⟩

/-- Terms are built from the leaves on.  The second half is about the operands of a
node that has some operands already. -/
theorem exists_stores_both :
    (forall (term : Term) (arena : Arena) (size : Nat) (rest : List Node),
      arena.Stores ⟨size, rest⟩ ->
        Exists fun later : Arena => Exists fun bound : Nat => Exists fun tree : Node =>
          tree.term = term ∧ later.Stores ⟨bound, tree :: rest⟩) ∧
    forall (terms : List Term) (arena : Arena) (size : Nat) (handle : Handle) (kind : Kind)
      (built rest : List Node), arena.Stores ⟨size, .mk handle kind built :: rest⟩ ->
        Exists fun later : Arena => Exists fun bound : Nat => Exists fun trees : List Node =>
          trees.map Node.term = terms ∧
            later.Stores ⟨bound, .mk handle kind (built ++ trees) :: rest⟩ := by
  refine Term.induction_both ?_ ?_ ?_
  · intro kind children ih arena size rest stored
    rcases alloc_yields kind rest arena stored with ⟨begun, _, alone, _⟩
    rcases ih begun (size + 1) size kind [] rest alone with ⟨later, bound, trees, terms, kept⟩
    refine ⟨later, bound, .mk size kind trees, ?_, kept⟩
    rw [Node.term_mk, terms]
  · intro arena size handle kind built rest stored
    refine ⟨arena, size, [], rfl, ?_⟩
    rw [List.append_nil]
    exact stored
  · intro term others head tail arena size handle kind built rest stored
    rcases head arena size _ stored with ⟨middle, between, tree, isTerm, beside⟩
    rcases beside.append with ⟨joined, below⟩
    rcases tail joined between handle kind _ rest below with ⟨later, bound, trees, terms, kept⟩
    refine ⟨later, bound, tree :: trees, ?_, ?_⟩
    · rw [List.map_cons, isTerm, terms]
    · rw [List.append_assoc, List.singleton_append] at kept
      exact kept

/-- Every term is the term of an expression of some well-formed arena. -/
theorem exists_reads (term : Term) :
    Exists fun arena : Arena => Exists fun tree : Node =>
      arena.WellFormed ∧ tree.handle < arena.size ∧ arena.Reads tree.handle tree ∧
        tree.term = term := by
  rcases exists_stores_both.1 term empty 0 [] ⟨Keeps.empty, rfl⟩ with
    ⟨arena, bound, tree, isTerm, stored⟩
  have member : tree.climb [] ∈ [tree] := List.mem_cons_self
  exact ⟨arena, tree, stored.wellFormed, stored.handle_lt member, stored.reads_of_mem member,
    isTerm⟩

theorem Answers.unique {alpha : Type} {work : Edit alpha} {result other : alpha}
    (answers : arena.Answers work result) (again : arena.Answers work other) :
    result = other := by
  rcases answers with ⟨left, run⟩
  rcases again with ⟨leftAgain, runAgain⟩
  exact result_unique run runAgain

end Arena

namespace Stage

/-- From every node of a well-formed arena whose expression has the first term, the
stage comes to an end, and leads to an expression that has the second one. -/
def Forms (stage : Stage) (term result : Term) : Prop :=
  forall arena : Arena, arena.WellFormed -> forall root : Handle, root < arena.size ->
    forall tree : Node, arena.Reads root tree -> tree.term = term ->
      Exists fun found : Node =>
        arena.Answers (do (← stage.convert root).expression) found ∧ found.term = result

theorem forms_form (stage : Stage) (term : Term) : stage.Forms term (stage.form term) := by
  intro arena wellFormed root bound tree reads isTerm
  rcases wellFormed.exists_place bound with ⟨stands, path, rest, same, stored⟩
  subst same
  rw [← isTerm, reads.unique (stored.reads List.mem_cons_self)]
  rcases stage.convert_yields stands path arena.size rest with ⟨found, left, form, yields⟩
  rcases yields arena stored with ⟨later, run, kept, _⟩
  exact ⟨found, .of_run run ⟨later, kept.reads List.mem_cons_self⟩, form⟩

theorem Forms.unique {stage : Stage} {term result other : Term} (forms : stage.Forms term result)
    (again : stage.Forms term other) : result = other := by
  rcases Arena.exists_reads term with ⟨arena, tree, wellFormed, bound, reads, isTerm⟩
  rcases forms arena wellFormed _ bound tree reads isTerm with ⟨found, answers, isResult⟩
  rcases again arena wellFormed _ bound tree reads isTerm with ⟨foundAgain, same, isOther⟩
  rw [← isResult, ← isOther, answers.unique same]

/-- A stage relates each term to one term, and to no other. -/
theorem forms_iff {stage : Stage} {term result : Term} :
    stage.Forms term result ↔ result = stage.form term := by
  refine ⟨fun forms => forms.unique (stage.forms_form term), fun same => ?_⟩
  rw [same]
  exact stage.forms_form term

end Stage

end PlanningDomain
