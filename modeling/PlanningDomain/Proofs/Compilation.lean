import PlanningDomain.Proofs.Machine.Total
import PlanningDomain.Proofs.Reader.Calls
import PlanningDomain.Proofs.Stages

namespace PlanningDomain

/-!
# Compiling

A source is compiled if and only if it is read silently.  The preconditions of
the compiled domain are the disjunctive normal forms of those that were read.
A condition on all calls that were read is therefore a condition on all calls of
the compiled domain, copies included.

Calls are checked while they are read, so the check knows nothing of facts
that are declared behind a precondition.  Every call that stands behind some
declaration is well-typed in the compiled domain.  A call before all
declarations is not checked at all.
-/

namespace World

/-- A call has the name of a fact of the world, and as many arguments as that
has parameters. -/
def Types (world : World) (source : Source) (name : Span) (count : Nat) : Prop :=
  Exists fun fact : Fact => fact ∈ world.facts ∧ source.slice? name = some fact.name ∧
    fact.arity = count

end World

/-- Every subterm of an expression is the term of one of its nodes. -/
theorem Node.exists_of_mem_subterms (node : Node) {term : Term}
    (below : term ∈ node.term.subterms) :
    Exists fun inner : Node => inner ∈ node.preorder ∧ inner.term = term :=
  List.mem_map.mp (Node.map_term_preorder.1 node ▸ below)

namespace Domain

variable {source : Source} {options : Options}

theorem compile_of_advanceTo {converted : Domain}
    (advanced : (Domain.read source options).1.advanceTo .dnf = some (.ok converted)) :
    compile source options = some (.ok (if (Domain.read source options).2.isEmpty then
      .ok converted else .error (.invalid (Domain.read source options).2))) := by
  unfold compile
  dsimp only
  rw [advanced]
  rfl

/-- What is compiled has the normal forms of the expressions that were read. -/
theorem compile_states {size : Nat} {trees : List Node}
    (stored : (Domain.read source options).1.arena.Stores ⟨size, trees⟩)
    (roots : (Domain.read source options).1.preconditions = trees.map Node.handle) :
    Exists fun converted : Domain => converted.world = (Domain.read source options).1.world ∧
      converted.States (trees.map (fun tree => tree.term.nnf.flat.dnf)) ∧
      compile source options = some (.ok (if (Domain.read source options).2.isEmpty then
        .ok converted else .error (.invalid (Domain.read source options).2))) := by
  rcases advanceTo_states stored roots .dnf with ⟨converted, advanced, _, world, states⟩
  exact ⟨converted, world, states, compile_of_advanceTo advanced⟩

theorem compile_of_silent {size : Nat} {trees : List Node}
    (stored : (Domain.read source options).1.arena.Stores ⟨size, trees⟩)
    (roots : (Domain.read source options).1.preconditions = trees.map Node.handle)
    (silent : (Domain.read source options).2 = []) :
    Exists fun domain : Domain => compile source options = some (.ok (.ok domain)) ∧
      domain.world = (Domain.read source options).1.world ∧
      domain.States (trees.map (fun tree => tree.term.nnf.flat.dnf)) := by
  rcases compile_states stored roots with ⟨domain, world, states, compiled⟩
  rw [silent] at compiled
  exact ⟨domain, compiled, world, states⟩

theorem states_of_compile {domain : Domain}
    (compiled : compile source options = some (.ok (.ok domain))) :
    (Domain.read source options).2 = [] ∧ domain.world = (Domain.read source options).1.world ∧
      domain.States ((Reader.start source options).preconditions.1.map
        (fun tree => tree.term.nnf.flat.dnf)) := by
  rcases compile_states (Machine.stores_read source options) rfl with
    ⟨converted, world, states, result⟩
  have outcome := Except.ok.inj (Option.some.inj (result.symm.trans compiled))
  by_cases silent : (Domain.read source options).2.isEmpty = true
  · rw [if_pos silent] at outcome
    rw [← Except.ok.inj outcome]
    exact ⟨List.isEmpty_iff.mp silent, world, states⟩
  · rw [if_neg silent] at outcome
    cases outcome

/-! ## Calls -/

/-- A call that is settled is well-typed if it stands behind a declaration. -/
theorem types_of_settles {world : World} {kind : Kind} {count : Nat}
    (settled : Reader.Settles world source.tokens kind count) {name : Span}
    (isCall : kind = .func name) {declared : Fact} (isDeclared : declared ∈ world.facts)
    (before : declared.span.start < name.start) : world.Types source name count := by
  rcases settled name isCall with ⟨earlier, token, later, split, same, outcome⟩
  subst same
  have isToken : token ∈ source.tokens := by
    rw [split]
    exact List.mem_append_right _ List.mem_cons_self
  rcases outcome with ⟨fact, isFact, named, arity⟩ | behind
  · refine ⟨fact, isFact, ?_, arity⟩
    rw [named]
    exact (source.stands_of_mem_tokens isToken).slice?_eq
  · rcases behind declared isDeclared with ⟨other, isOther, span⟩
    have ordered := source.tokens_ordered
    rw [split] at ordered
    have follows := (List.pairwise_cons.mp (List.pairwise_append.mp ordered).2.1).1 other isOther
    have nonempty := source.start_lt_stop_of_mem_tokens isToken
    rw [span] at follows
    omega

/-- The calls of what is read silently. -/
theorem read_settles (validates : options.validateFacts = true)
    (silent : (Domain.read source options).2 = []) :
    forall tree, tree ∈ (Reader.start source options).preconditions.1 ->
      tree.term.EachAtom
        (Reader.Settles (Domain.read source options).1.world source.tokens) := by
  rcases Reader.preconditions_calls (Reader.start source options) validates silent with ⟨_, reads⟩
  rcases reads source.tokens (Reader.shows_start source options) with
    ⟨read, rest, split, ⟨_, settled⟩, _, shows⟩
  rw [shows.eq_nil (Reader.preconditions_end _), List.append_nil] at split
  rw [split]
  exact settled

/-- If calls are checked and a source is compiled, every call in every
precondition that stands behind the declaration of some fact has the name and the
number of arguments of a declared fact. -/
theorem calls_of_compile {domain : Domain} (validates : options.validateFacts = true)
    (compiled : compile source options = some (.ok (.ok domain))) :
    forall root, root ∈ domain.preconditions ->
      Exists fun tree : Node => domain.arena.Reads root tree ∧
        forall inner, inner ∈ tree.preorder -> forall name : Span, inner.kind = .func name ->
          forall declared, declared ∈ domain.world.facts -> declared.span.start < name.start ->
            domain.world.Types source name inner.children.length := by
  rcases states_of_compile compiled with ⟨silent, world, states⟩
  intro root isRoot
  rcases exists_related_of_mem states isRoot with ⟨term, isTerm, tree, reads, same⟩
  rcases List.mem_map.mp isTerm with ⟨original, isOriginal, form⟩
  have settled := (read_settles validates silent original isOriginal).nnf.flat.dnf
  rw [form, ← same, ← world] at settled
  refine ⟨tree, reads, fun inner isInner name isCall declared isDeclared before => ?_⟩
  have below : inner.term ∈ tree.term.subterms :=
    Node.map_term_preorder.1 tree ▸ List.mem_map_of_mem isInner
  have call := settled inner.term below (by rw [inner.kind_term, isCall]; rfl)
  rw [inner.kind_term, inner.children_term, List.length_map] at call
  exact types_of_settles call isCall isDeclared before

/-- The call is copied where the disjunction is distributed, and both calls are
well-typed. -/
theorem calls_of_compile_copied :
    let source := Source.ofString "fact \x7b g(id32) \x7d ( g(x) & (y | z) )"
    let call : Term := .mk (.func ⟨19, 20⟩) [.mk (.var ⟨21, 22⟩) []]
    let first : Term := .mk .and [call, .mk (.var ⟨27, 28⟩) []]
    let second : Term := .mk .and [call, .mk (.var ⟨31, 32⟩) []]
    Exists fun domain : Domain => compile source ⟨2, true⟩ = some (.ok (.ok domain)) ∧
      domain.States [.mk .or [first, second]] ∧ domain.world.Types source ⟨19, 20⟩ 1 := by
  intro source call first second
  let tree : Node := .mk 2 .and [.mk 0 (.func ⟨19, 20⟩) [.mk 1 (.var ⟨21, 22⟩) []],
    .mk 4 .or [.mk 3 (.var ⟨27, 28⟩) [], .mk 5 (.var ⟨31, 32⟩) []]]
  have arena : (Domain.read source ⟨2, true⟩).1.arena =
      ⟨#[⟨.func ⟨19, 20⟩, some 2, some 1, some 1, none, some 4⟩,
        ⟨.var ⟨21, 22⟩, some 0, none, none, none, none⟩, ⟨.and, none, some 0, some 4, none, none⟩,
        ⟨.var ⟨27, 28⟩, some 4, none, none, none, some 5⟩,
        ⟨.or, some 2, some 3, some 5, some 0, none⟩,
        ⟨.var ⟨31, 32⟩, some 4, none, none, some 3, none⟩]⟩ :=
    congrArg Arena.mk (by decide +kernel)
  have stored : (Domain.read source ⟨2, true⟩).1.arena.Stores ⟨6, [tree]⟩ := by
    rw [arena]
    exact ⟨⟨by decide, by decide⟩, rfl⟩
  have facts : (Domain.read source ⟨2, true⟩).1.world.facts = [⟨"g", ⟨7, 8⟩, [.id32]⟩] := by
    decide +kernel
  rcases compile_of_silent stored (by decide +kernel) (by decide +kernel) with
    ⟨domain, compiled, world, states⟩
  refine ⟨domain, compiled, states, ?_⟩
  rcases List.forall₂_cons_right_iff.mp states with ⟨root, _, ⟨result, reads, isTerm⟩, _, roots⟩
  rcases calls_of_compile rfl compiled root (roots ▸ List.mem_cons_self) with
    ⟨found, readsAgain, calls⟩
  rw [readsAgain.unique reads] at calls
  have isCall : call ∈ result.term.subterms := by
    rw [isTerm]
    exact List.mem_cons_of_mem _ (List.mem_cons_of_mem _ List.mem_cons_self)
  rcases result.exists_of_mem_subterms isCall with ⟨inner, isInner, same⟩
  have kind : inner.kind = .func ⟨19, 20⟩ := by rw [← inner.kind_term, same]; rfl
  have count : inner.children.length = 1 := by
    rw [← List.length_map Node.term, ← inner.children_term, same]
    rfl
  rw [← count]
  exact calls inner isInner _ kind _ (world ▸ facts ▸ List.mem_cons_self) (by decide)

/-- A call before all declarations is not checked, whatever is declared behind
it. -/
theorem unchecked_before_declaration :
    let source := Source.ofString "( f(x) ) fact \x7b g() \x7d"
    Exists fun domain : Domain => compile source ⟨2, true⟩ = some (.ok (.ok domain)) ∧
      domain.world.facts = [⟨"g", ⟨16, 17⟩, []⟩] ∧
      Exists fun root : Handle => root ∈ domain.preconditions ∧
        Exists fun tree : Node => domain.arena.Reads root tree ∧
          Exists fun inner : Node => inner ∈ tree.preorder ∧ inner.kind = .func ⟨2, 3⟩ ∧
            ¬ domain.world.Types source ⟨2, 3⟩ inner.children.length := by
  intro source
  let tree : Node := .mk 0 (.func ⟨2, 3⟩) [.mk 1 (.var ⟨4, 5⟩) []]
  have arena : (Domain.read source ⟨2, true⟩).1.arena =
      ⟨#[⟨.func ⟨2, 3⟩, none, some 1, some 1, none, none⟩,
        ⟨.var ⟨4, 5⟩, some 0, none, none, none, none⟩]⟩ :=
    congrArg Arena.mk (by decide +kernel)
  have stored : (Domain.read source ⟨2, true⟩).1.arena.Stores ⟨2, [tree]⟩ := by
    rw [arena]
    exact ⟨⟨by decide, by decide⟩, rfl⟩
  have facts : (Domain.read source ⟨2, true⟩).1.world.facts = [⟨"g", ⟨16, 17⟩, []⟩] := by
    decide +kernel
  rcases compile_of_silent stored (by decide +kernel) (by decide +kernel) with
    ⟨domain, compiled, world, states⟩
  rw [← world] at facts
  refine ⟨domain, compiled, facts, ?_⟩
  rcases List.forall₂_cons_right_iff.mp states with ⟨root, _, ⟨result, reads, isTerm⟩, _, roots⟩
  have isCall : tree.term ∈ result.term.subterms := by
    rw [isTerm]
    exact List.mem_cons_of_mem _ (List.mem_cons_of_mem _ List.mem_cons_self)
  rcases result.exists_of_mem_subterms isCall with ⟨inner, isInner, same⟩
  refine ⟨root, roots ▸ List.mem_cons_self, result, reads, inner, isInner, ?_, ?_⟩
  · rw [← inner.kind_term, same]
    rfl
  · intro ⟨fact, isFact, text, _⟩
    rw [facts] at isFact
    rw [List.mem_singleton.mp isFact] at text
    exact absurd text (by decide +kernel)

end Domain

end PlanningDomain
