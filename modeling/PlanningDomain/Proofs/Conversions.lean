import PlanningDomain.Proofs.Arena.Disjunctions
import PlanningDomain.Proofs.Arena.Trees
import PlanningDomain.Proofs.Term.Meaning

namespace PlanningDomain

/-!
# What the conversions compute

The three conversions come to an end on every node of a well-formed arena, and
the expressions that are then read from the arena are known.  They are
compared as terms, with all kinds and payloads and the order of the operands.
The disjunctive normal form has exactly the clauses of the flat negation normal
form.  All conversions keep the truth value, unless the negation normal form is
a conjunction without operands.
-/

namespace Arena

/-- The expression of a node is read, and the arena is left as it was. -/
def Reads (arena : Arena) (root : Handle) (tree : Node) : Prop :=
  root.expression.run.run arena = some (.ok tree, arena)

/-- There is only one arena that stores a forest. -/
theorem Stores.unique {first second : Arena} {size : Nat} {trees : List Node}
    (stored : first.Stores ⟨size, trees⟩) (again : second.Stores ⟨size, trees⟩) :
    first = second := by
  rcases first with ⟨firstCells⟩
  rcases second with ⟨secondCells⟩
  congr 1
  refine Array.ext (stored.size.trans again.size.symm) (fun node bound boundAgain => ?_)
  have small : node < size := Nat.lt_of_lt_of_eq bound stored.size
  rcases stored.locate small with ⟨place, path, same, member⟩
  have look := stored.cell?_eq place path member
  have lookAgain := again.cell?_eq place path member
  rw [same] at look lookAgain
  rcases Array.getElem?_eq_some_iff.mp look with ⟨_, cell⟩
  rcases Array.getElem?_eq_some_iff.mp lookAgain with ⟨_, cellAgain⟩
  exact cell.trans cellAgain.symm

/-- Work that stores what was stored before leaves the arena as it was. -/
theorem run_eq_of_yields {alpha : Type} {arena : Arena} {size : Nat} {trees : List Node}
    {work : Edit alpha} {result : alpha} (stored : arena.Stores ⟨size, trees⟩)
    (yields : Yields (Stores ⟨size, trees⟩) work result (Stores ⟨size, trees⟩)) :
    work.run.run arena = some (.ok result, arena) := by
  rcases yields arena stored with ⟨left, run, again, _⟩
  rw [run, again.unique stored]

theorem Stores.reads {arena : Arena} {size : Nat} {trees : List Node}
    (stored : arena.Stores ⟨size, trees⟩) {node : Node} {path : List Step}
    (member : node.climb path ∈ trees) : arena.Reads node.handle node :=
  run_eq_of_yields stored (expression_yields node path member)

theorem Stores.reads_of_mem {arena : Arena} {size : Nat} {trees : List Node}
    (stored : arena.Stores ⟨size, trees⟩) {tree : Node} (member : tree ∈ trees) :
    arena.Reads tree.handle tree :=
  stored.reads (show tree.climb [] ∈ trees from member)

theorem Reads.unique {arena : Arena} {root : Handle} {tree other : Node}
    (reads : arena.Reads root tree) (again : arena.Reads root other) : tree = other :=
  result_unique reads again

/-- Every node of a well-formed arena stands at some place in one of the
expressions. -/
theorem WellFormed.exists_place {arena : Arena} (wellFormed : arena.WellFormed) {root : Handle}
    (bound : root < arena.size) :
    Exists fun tree : Node => Exists fun path : List Step => Exists fun rest : List Node =>
      tree.handle = root ∧ arena.Stores ⟨arena.size, tree.climb path :: rest⟩ := by
  rcases wellFormed.exists_stores with ⟨trees, stored⟩
  rcases stored.place_of_lt bound with ⟨tree, path, rest, same, listed⟩
  exact ⟨tree, path, rest, same, stored.perm listed⟩

/-- The work comes to an end with the given result. -/
def Answers {alpha : Type} (arena : Arena) (work : Edit alpha) (result : alpha) : Prop :=
  Exists fun left : Arena => work.run.run arena = some (.ok result, left)

theorem Answers.of_run {alpha beta : Type} {arena middle : Arena} {first : Edit alpha}
    {found : alpha} {next : alpha -> Edit beta} {result : beta}
    (begun : first.run.run arena = some (.ok found, middle))
    (ended : middle.Answers (next found) result) : arena.Answers (first >>= next) result := by
  rcases ended with ⟨left, run⟩
  refine ⟨left, ?_⟩
  change (first.run.run arena >>= fun outcome => _) = _
  rw [begun]
  exact run

/-! ## Results as terms -/

section Results

variable {arena : Arena} {tree : Node} {path : List Step} {rest : List Node}

theorem flatten_answers (stored : arena.Stores ⟨arena.size, tree.climb path :: rest⟩) :
    Exists fun result : Node => result.term = tree.term.flat ∧
      arena.Answers (do tree.handle.flatten; tree.handle.expression) result := by
  rcases flatten_yields tree path rest arena stored with ⟨left, run, kept, _⟩
  refine ⟨tree.flatten, tree.term_flatten, .of_run run ⟨left, ?_⟩⟩
  rw [← tree.handle_flatten]
  exact kept.reads List.mem_cons_self

theorem toNnf_answers (stored : arena.Stores ⟨arena.size, tree.climb path :: rest⟩) :
    Exists fun result : Node => result.term = tree.term.nnf.flat ∧
      arena.Answers (do (← tree.handle.toNnf).expression) result := by
  rcases toNnf_yields tree path ⟨arena.size, []⟩ rest arena stored with ⟨left, run, kept, _⟩
  exact ⟨_, tree.term_toNnf _, .of_run run ⟨left, kept.reads List.mem_cons_self⟩⟩

/-- The disjunctive normal form and the answers of the three tests for it. -/
theorem toDnf_answers (stored : arena.Stores ⟨arena.size, tree.climb path :: rest⟩) :
    Exists fun result : Node => result.term = tree.term.nnf.flat.dnf ∧
      arena.Answers (do (← tree.handle.toDnf).expression) result ∧
      arena.Answers (do (← tree.handle.toDnf).isDnf) result.term.isDnf ∧
      arena.Answers (do (← tree.handle.toDnf).isNnf) result.term.isNnf ∧
      arena.Answers (do (← tree.handle.toDnf).isFlat) result.term.isFlat := by
  rcases toDnf_yields tree path ⟨arena.size, []⟩ rest arena stored with ⟨left, run, kept, _⟩
  refine ⟨_, tree.term_toDnf _ _, .of_run run ⟨left, kept.reads List.mem_cons_self⟩,
    .of_run run ⟨left, ?_⟩, .of_run run ⟨left, ?_⟩, .of_run run ⟨left, ?_⟩⟩
  · rw [← Node.isDnf_eq]
    exact run_eq_of_yields kept (isDnf_yields List.mem_cons_self)
  · rw [← Node.isNnf_eq]
    exact run_eq_of_yields kept (isNnf_yields List.mem_cons_self)
  · rw [← Node.isFlat_eq]
    exact run_eq_of_yields kept (isFlat_yields List.mem_cons_self)

end Results

/-! ## Meaning -/

/-- The conversions of any node come to an end.  If every negation below the
node has exactly one operand, all results have the truth value of the node in
every interpretation.  The disjunctive normal form has none of its own if the
negation normal form is a conjunction without operands.  It is then the
disjunction without operands. -/
theorem truth_of_conversions {arena : Arena} (wellFormed : arena.WellFormed) {root : Handle}
    (bound : root < arena.size) :
    Exists fun tree : Node => arena.Reads root tree ∧
      Exists fun flat : Node => Exists fun nnf : Node => Exists fun dnf : Node =>
        arena.Answers (do root.flatten; root.expression) flat ∧
        arena.Answers (do (← root.toNnf).expression) nnf ∧
        arena.Answers (do (← root.toDnf).expression) dnf ∧
        (tree.term.isUnary = true -> forall world : Interpretation,
          flat.term.truth world = tree.term.truth world ∧
          nnf.term.truth world = tree.term.truth world ∧
          (nnf.term = .mk .and [] -> dnf.term = .mk .or []) ∧
          (nnf.term ≠ .mk .and [] -> dnf.term.truth world = tree.term.truth world)) := by
  rcases wellFormed.exists_place bound with ⟨tree, path, rest, same, stored⟩
  subst same
  rcases flatten_answers stored with ⟨flat, flatTerm, flattened⟩
  rcases toNnf_answers stored with ⟨nnf, nnfTerm, negated⟩
  rcases toDnf_answers stored with ⟨dnf, dnfTerm, disjoined, _⟩
  refine ⟨tree, stored.reads List.mem_cons_self, flat, nnf, dnf, flattened, negated, disjoined,
    fun unary world => ?_⟩
  have nnfTruth : tree.term.nnf.flat.truth world = tree.term.truth world := by
    rw [Term.truth_flat]
    exact (Term.truth_nnf_both world tree.term unary).1
  rw [flatTerm, nnfTerm, dnfTerm]
  refine ⟨Term.truth_flat world tree.term, nnfTruth, fun childless => ?_, fun notChildless => ?_⟩
  · rw [childless]
    rfl
  · rw [Term.dnf_of_not_childless notChildless, Term.truth_clauses]
    exact nnfTruth

/-- A conjunction without operands below a disjunction still counts as true in
the disjunctive normal form. -/
theorem truth_of_conversions_inner_conjunction :
    let first : Kind := .var ⟨0, 1⟩
    let second : Kind := .var ⟨2, 3⟩
    let arena : Arena := ⟨#[⟨.and, none, some 1, some 4, none, none⟩,
      ⟨.or, some 0, some 2, some 3, none, some 4⟩, ⟨.and, some 1, none, none, none, some 3⟩,
      ⟨first, some 1, none, none, some 2, none⟩, ⟨second, some 0, none, none, some 1, none⟩]⟩
    Exists fun dnf : Node => arena.Answers (do (← Handle.toDnf 0).expression) dnf ∧
      forall world : Interpretation, dnf.term.truth world = world second [] := by
  intro first second arena
  let tree : Node := .mk 0 .and [.mk 1 .or [.mk 2 .and [], .mk 3 first []], .mk 4 second []]
  have stored : arena.Stores ⟨5, [tree]⟩ := ⟨⟨by decide, by decide⟩, rfl⟩
  have bound : 0 < arena.size := by decide
  have top : tree.climb [] ∈ [tree] := List.mem_cons_self
  rcases truth_of_conversions stored.wellFormed bound with
    ⟨read, reads, _, nnf, dnf, _, _, answers, same⟩
  have isTree : read = tree := reads.unique (stored.reads top)
  subst isTree
  have values := same rfl
  have notChildless : nnf.term ≠ .mk .and [] := by
    intro childless
    rcases values (fun _ _ => false) with ⟨_, impossible, _⟩
    rw [childless] at impossible
    exact Bool.noConfusion impossible
  refine ⟨dnf, answers, fun world => ?_⟩
  rcases values world with ⟨_, _, _, kept⟩
  calc
    dnf.term.truth world = tree.term.truth world := kept notChildless
    _ = (world second [] && true) := rfl
    _ = world second [] := Bool.and_true _

/-! ## Clauses -/

/-- The disjunctive normal form of any node has the clauses of its flat negation
normal form, as whole terms and in order.  If that is a conjunction without
operands, it is the disjunction without operands.  If every negation
below the node has exactly one operand, it passes all three tests. -/
theorem clauses_of_toDnf {arena : Arena} (wellFormed : arena.WellFormed) {root : Handle}
    (bound : root < arena.size) :
    Exists fun tree : Node => arena.Reads root tree ∧
      Exists fun nnf : Node => Exists fun dnf : Node =>
        arena.Answers (do (← root.toNnf).expression) nnf ∧ nnf.term = tree.term.nnf.flat ∧
        arena.Answers (do (← root.toDnf).expression) dnf ∧
        (nnf.term = .mk .and [] -> dnf.term = .mk .or []) ∧
        (nnf.term ≠ .mk .and [] -> dnf.term = .mk .or (nnf.term.clauses.map (.mk .and))) ∧
        (tree.term.isUnary = true ->
          arena.Answers (do (← root.toDnf).isDnf) true ∧
          arena.Answers (do (← root.toDnf).isNnf) true ∧
          arena.Answers (do (← root.toDnf).isFlat) true) := by
  rcases wellFormed.exists_place bound with ⟨tree, path, rest, same, stored⟩
  subst same
  rcases toNnf_answers stored with ⟨nnf, nnfTerm, negated⟩
  rcases toDnf_answers stored with ⟨dnf, dnfTerm, disjoined, answersDnf, answersNnf, answersFlat⟩
  refine ⟨tree, stored.reads List.mem_cons_self, nnf, dnf, negated, nnfTerm, disjoined, ?_⟩
  rw [nnfTerm, dnfTerm]
  refine ⟨fun childless => ?_, Term.dnf_of_not_childless, fun unary => ?_⟩
  · rw [childless]
    rfl
  · rcases Term.nnf_forms tree.term unary with ⟨⟨_, nnfForm⟩, _⟩
    rcases Term.dnf_forms (Term.isNnf_flat _ nnfForm) with ⟨isDnf, isNnf⟩
    rw [dnfTerm, isDnf] at answersDnf
    rw [dnfTerm, isNnf] at answersNnf
    rw [dnfTerm, Term.isFlat_dnf (Term.isFlat_flat _)] at answersFlat
    exact ⟨answersDnf, answersNnf, answersFlat⟩

/-- A disjunction of two variables and the negation of a third, combined. -/
theorem clauses_of_toDnf_disjunction :
    let first : Kind := .var ⟨0, 1⟩
    let second : Kind := .var ⟨2, 3⟩
    let third : Kind := .var ⟨4, 5⟩
    let arena : Arena := ⟨#[⟨.and, none, some 1, some 4, none, none⟩,
      ⟨.or, some 0, some 2, some 3, none, some 4⟩, ⟨first, some 1, none, none, none, some 3⟩,
      ⟨second, some 1, none, none, some 2, none⟩, ⟨.not, some 0, some 5, some 5, some 1, none⟩,
      ⟨third, some 4, none, none, none, none⟩]⟩
    Exists fun dnf : Node => arena.Answers (do (← Handle.toDnf 0).expression) dnf ∧
      dnf.term = .mk .or [.mk .and [.mk first [], .mk .not [.mk third []]],
        .mk .and [.mk second [], .mk .not [.mk third []]]] ∧
      arena.Answers (do (← Handle.toDnf 0).isDnf) true := by
  intro first second third arena
  let tree : Node := .mk 0 .and [.mk 1 .or [.mk 2 first [], .mk 3 second []],
    .mk 4 .not [.mk 5 third []]]
  have stored : arena.Stores ⟨6, [tree]⟩ := ⟨⟨by decide, by decide⟩, rfl⟩
  have bound : 0 < arena.size := by decide
  have top : tree.climb [] ∈ [tree] := List.mem_cons_self
  rcases clauses_of_toDnf stored.wellFormed bound with
    ⟨read, reads, nnf, dnf, _, nnfTerm, answers, _, clauses, forms⟩
  have isTree : read = tree := reads.unique (stored.reads top)
  subst isTree
  rw [nnfTerm] at clauses
  refine ⟨dnf, answers, clauses (fun impossible => ?_), (forms rfl).1⟩
  exact List.cons_ne_nil _ _ (Term.mk.inj impossible).2

end Arena

end PlanningDomain
