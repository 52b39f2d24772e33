import PlanningDomain.Proofs.Compilation

namespace PlanningDomain

/-!
# Conversions always come to an end

A conversion goes along the links of an arena while it changes them, and every
change may be refused.  In a well-formed arena none is, whatever node the
conversion begins with, and however many operands the nodes have.  It needs no
normal form, no complete nodes, and no detached node to begin with.

So compiling comes to an end for every source, also for one that is full of
errors.  This is said of a machine too, which reads a source without
taking anything for granted.
-/

namespace Arena

/-- The work comes to an end and is not refused.  It leaves a well-formed arena
with all nodes and kinds that there were. -/
def Succeeds {alpha : Type} (arena : Arena) (work : Edit alpha) : Prop :=
  Exists fun result : alpha => Exists fun left : Arena =>
    work.run.run arena = some (.ok result, left) ∧ left.WellFormed ∧ arena.Extends left

theorem succeeds_of_yields {alpha : Type} {arena : Arena} {work : Edit alpha} {result : alpha}
    {before after : Forest} (stored : arena.Stores before)
    (yields : Yields (Stores before) work result (Stores after)) : arena.Succeeds work := by
  rcases yields arena stored with ⟨left, run, kept, extended⟩
  exact ⟨result, left, run, kept.wellFormed, extended⟩

end Arena

open Arena in
/-- The first step of a negation, where the dual of a connective is looked up.
There is no result if it has none. -/
def Handle.negateStep (node : Handle) : Edit Handle := do
  match ← kind node with
  | .not =>
      match (← cell node).first with
      | none => pure node
      | some operand =>
          let below ← kind operand
          if below = .not then
            match (← cell operand).first with
            | none => pure node
            | some inner => do
                unparent inner
                inner.negate
          else if below.isAssociative then
            let dual ← liftM below.dual?
            let shell ← alloc dual
            (← operand.operands).forM (fun inner => do
              unparent inner
              let negation ← alloc .not
              append negation inner
              append shell (← negation.negate))
            pure shell
          else
            (← operand.operands).forM (fun inner => do replace inner (← inner.negate))
            pure node
  | _ => do
      (← node.operands).forM (fun operand => do replace operand (← operand.negate))
      pure node

/-- A dual is looked up for connectives only, and these have one. -/
theorem Handle.negateStep_eq (node : Handle) : node.negateStep = node.negate := by
  rw [negate, negateStep]
  refine bind_congr (fun outer => ?_)
  cases outer with
  | not =>
      refine bind_congr (fun place => ?_)
      cases place.first with
      | none => rfl
      | some operand =>
          refine bind_congr (fun below => ?_)
          cases below with
          | not => rfl
          | connective symbol => rfl
          | comparison symbol => rfl
          | arithmetic symbol => rfl
          | var name => rfl
          | func name => rfl
          | literal value => rfl
  | connective symbol => rfl
  | comparison symbol => rfl
  | arithmetic symbol => rfl
  | var name => rfl
  | func name => rfl
  | literal value => rfl

namespace Machine

/-- Compile a source by a machine, which need not have a result. -/
def compile (source : Source) (options : Options) :
    Option (Except Misuse (Except CompileError Domain)) := do
  let (roots, last) ← preconditions.run (start source options)
  let outcome ← (last.domain roots).advanceTo .dnf
  return outcome.map (fun converted =>
    if last.diagnostics.isEmpty then .ok converted else .error (.invalid last.diagnostics))

/-- A machine has a result for every source, which is the same as without a
machine. -/
theorem compile_eq (source : Source) (options : Options) :
    compile source options = PlanningDomain.compile source options := by
  rcases preconditions_runs _ [] _ (follows_start source options) with ⟨last, run, done⟩
  have domain : last.domain ((Reader.start source options).preconditions.1.map Node.handle) =
      (Domain.read source options).1 := by
    unfold Machine.domain
    rw [done.ofMachine.trans done.ofReader.symm, done.world, done.arena_eq]
    rfl
  have diagnostics : last.diagnostics = (Domain.read source options).2 := done.diagnostics
  unfold compile PlanningDomain.compile
  rw [run]
  dsimp only [Option.bind_eq_bind, Option.bind_some]
  rw [domain, diagnostics]
  cases (Domain.read source options).1.advanceTo .dnf with
  | none => rfl
  | some outcome => rfl

end Machine

open Arena in
/-- In a well-formed arena, copying and converting come to an end without a
refusal, from any node, and no dual is missing.  So compiling comes to an end for
every source.  It is refused only for the diagnostics of the source.  The arena is taken
to have room for all new nodes. -/
theorem passes_succeed :
    (forall (arena : Arena) (root : Handle), arena.WellFormed -> root < arena.size ->
      arena.Succeeds root.duplicate ∧ arena.Succeeds root.flatten ∧ arena.Succeeds root.toNnf ∧
        arena.Succeeds root.toDnf) ∧
      (forall node : Handle, node.negateStep = node.negate) ∧
      forall (source : Source) (options : Options), Exists fun converted : Domain =>
        Machine.compile source options = some (.ok (
          if (Domain.read source options).2.isEmpty then .ok converted
          else .error (.invalid (Domain.read source options).2))) ∧
        compile source options = Machine.compile source options := by
  refine ⟨fun arena root wellFormed bound => ?_, Handle.negateStep_eq, fun source options => ?_⟩
  · rcases wellFormed.exists_stores with ⟨trees, stored⟩
    rcases stored.locate bound with ⟨node, path, same, member⟩
    rcases List.append_of_mem member with ⟨before, after, split⟩
    subst same split
    have first := stored.perm List.perm_middle
    exact ⟨succeeds_of_yields stored (duplicate_yields node path _ _ member),
      succeeds_of_yields first (flatten_yields node path _),
      succeeds_of_yields first (toNnf_yields node path ⟨arena.size, []⟩ _),
      succeeds_of_yields first (toDnf_yields node path ⟨arena.size, []⟩ _)⟩
  · rcases Domain.compile_states (Machine.stores_read source options) rfl with
      ⟨converted, _, _, compiled⟩
    exact ⟨converted, (Machine.compile_eq source options).trans compiled,
      (Machine.compile_eq source options).symm⟩

open Arena in
/-- The conversions begin at an attached conjunction, above a negation without an
operand and one with two, one of which is an empty disjunction. -/
theorem passes_succeed_partial_nodes :
    let arena : Arena := ⟨#[⟨.not, none, some 1, some 1, none, none⟩,
      ⟨.and, some 0, some 2, some 3, none, none⟩, ⟨.not, some 1, none, none, none, some 3⟩,
      ⟨.not, some 1, some 4, some 5, some 2, none⟩, ⟨.var ⟨0, 1⟩, some 3, none, none, none, some 5⟩,
      ⟨.or, some 3, none, none, some 4, none⟩]⟩
    arena.WellFormed ∧ arena.Succeeds (Handle.duplicate 1) ∧ arena.Succeeds (Handle.flatten 1) ∧
      arena.Succeeds (Handle.toNnf 1) ∧ arena.Succeeds (Handle.toDnf 1) := by
  intro arena
  let tree : Node := .mk 0 .not [.mk 1 .and [.mk 2 .not [],
    .mk 3 .not [.mk 4 (.var ⟨0, 1⟩) [], .mk 5 .or []]]]
  have stored : arena.Stores ⟨6, [tree]⟩ := ⟨⟨by decide, by decide⟩, rfl⟩
  exact ⟨stored.wellFormed, passes_succeed.1 arena 1 stored.wellFormed (by decide)⟩

end PlanningDomain
