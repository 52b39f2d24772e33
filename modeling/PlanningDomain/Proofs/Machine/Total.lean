import PlanningDomain.Proofs.Arena.Forests
import PlanningDomain.Proofs.Conversions
import PlanningDomain.Proofs.Machine.Sources
import PlanningDomain.Proofs.Reader.Texts

namespace PlanningDomain

/-!
# Reading is total

From the beginning of any source, preconditions and blocks of facts may be asked
for any number of times and in any order, and then the rest of the source.  A
machine does all this without relying on anything that does not hold.  In the end
it has read every token once, in order, and stands at the end of input.  The
domain it has built is the one that the reader gives.
-/

/-- What may be asked for while a source is read. -/
inductive Call where
  | precondition
  | factBlock
deriving DecidableEq, Repr

namespace Call

/-- The work of a machine for a call. -/
def work : Call -> Work Unit
  | precondition => do let _ ← Machine.precondition
  | factBlock => Machine.factBlock

/-- The reader after a call. -/
def apply : Call -> Reader -> Reader
  | precondition, reader => reader.plantPrecondition.2
  | factBlock, reader => reader.factBlock.reader

/-- The reader after some calls. -/
def applyAll (calls : List Call) (reader : Reader) : Reader :=
  calls.foldl (fun reader call => call.apply reader) reader

end Call

namespace Machine

variable {source : Source}

/-! ## Calls -/

theorem follows_start (source : Source) (options : Options) :
    Follows source (start source options) (Reader.start source options) [] where
  ofMachine := rfl
  ofReader := rfl
  options := rfl
  window := rfl
  world := rfl
  diagnostics := rfl
  place := ⟨source.tokens, rfl, rfl⟩
  stores := ⟨.empty, rfl⟩

/-- What readers keep from call to call. -/
structure Keeps (source : Source) (reader : Reader) : Prop where
  within : (Reader.within source).holds reader
  texts : forall tree, tree ∈ reader.forest.roots ->
    (tree.dump? source).isSome = true ∧ (tree.literalTexts? source).isSome = true

namespace Keeps

variable {reader : Reader}

theorem start (source : Source) (options : Options) : Keeps source (Reader.start source options) :=
  ⟨Reader.within_start source options, fun _ impossible => (List.not_mem_nil impossible).elim⟩

theorem call (keeps : Keeps source reader) (call : Call) : Keeps source (call.apply reader) := by
  have untouched : (Reader.untouched reader.forest.roots reader.source).holds reader := ⟨rfl, rfl⟩
  cases call with
  | factBlock =>
      refine ⟨(Reader.within source).factBlock keeps.within, fun tree member => ?_⟩
      have same := ((Reader.untouched _ _).factBlock untouched).1
      exact keeps.texts tree (same ▸ member)
  | precondition =>
      refine ⟨(Reader.within source).precondition keeps.within, fun tree member => ?_⟩
      have same := ((Reader.untouched _ _).precondition untouched).1
      have planted := reader.precondition.2.forest.roots_plant_perm reader.precondition.1
      have listed := planted.mem_iff.mp member
      rw [same] at listed
      rcases List.mem_cons.mp listed with new | old
      · have alike := ((Reader.written source).precondition
          (Reader.written_relates keeps.within)).2
        exact new ▸ Reader.texts_of_written alike
      · exact keeps.texts tree old

end Keeps

theorem call_runs (call : Call) (reader : Reader) :
    Runs source reader reader.forest.roots call.work () (call.apply reader)
      (call.apply reader).forest.roots := by
  have untouched : (Reader.untouched reader.forest.roots reader.source).holds reader := ⟨rfl, rfl⟩
  cases call with
  | factBlock =>
      have same := ((Reader.untouched _ _).factBlock untouched).1
      change Runs source reader reader.forest.roots factBlock () reader.factBlock.reader
        reader.factBlock.reader.forest.roots
      rw [same]
      exact factBlock_runs
  | precondition =>
      have same := ((Reader.untouched _ _).precondition untouched).1
      refine precondition_runs.bind (fun machine follows => ⟨machine, rfl, ?_⟩)
      rw [← same] at follows
      exact { follows.perm (reader.precondition.2.forest.roots_plant_perm _).symm with
        stores := (follows.perm
          (reader.precondition.2.forest.roots_plant_perm reader.precondition.1).symm).stores }

theorem calls_run (calls : List Call) (reader : Reader) (keeps : Keeps source reader) :
    Runs source reader reader.forest.roots (calls.forM Call.work) () (Call.applyAll calls reader)
        (Call.applyAll calls reader).forest.roots ∧
      Keeps source (Call.applyAll calls reader) := by
  induction calls generalizing reader with
  | nil => exact ⟨.pure (), keeps⟩
  | cons call rest ih =>
      rcases ih (call.apply reader) (keeps.call call) with ⟨runs, kept⟩
      exact ⟨(call_runs call reader).bind runs, kept⟩

/-! ## Stored forests -/

/-- After any calls, the arena of the forest stores it. -/
theorem stores_calls (calls : List Call) (source : Source) (options : Options) :
    (Arena.ofForest (Call.applyAll calls (Reader.start source options)).forest).Stores
      (Call.applyAll calls (Reader.start source options)).forest := by
  rcases (calls_run calls _ (Keeps.start source options)).1 _ (follows_start source options) with
    ⟨machine, _, follows⟩
  have stored : machine.arena.Stores (Call.applyAll calls (Reader.start source options)).forest :=
    follows.stores
  exact stored.ofForest_eq ▸ stored

/-- A machine that has read the rest of a source has built the arena of the
forest in which the reader keeps all expressions. -/
theorem Follows.arena_eq {machine : Machine} {reader : Reader}
    (follows : Follows source machine reader.preconditions.2
      (reader.preconditions.1 ++ reader.forest.roots)) :
    machine.arena = .ofForest (reader.preconditions.2.forest.plantAll reader.preconditions.1) := by
  have untouched : (Reader.untouched reader.forest.roots reader.source).holds reader := ⟨rfl, rfl⟩
  have planted := reader.preconditions.2.forest.roots_plantAll_perm reader.preconditions.1
  rw [((Reader.untouched _ _).preconditions untouched).1] at planted
  have stored := (follows.perm planted.symm).stores
  rw [← Forest.allocated_plantAll _ reader.preconditions.1] at stored
  exact stored.ofForest_eq.symm

/-- The arena of a domain stores the preconditions that were read. -/
theorem stores_read (source : Source) (options : Options) :
    (Domain.read source options).1.arena.Stores
      ⟨(Reader.start source options).preconditions.2.forest.allocated,
        (Reader.start source options).preconditions.1⟩ := by
  rcases preconditions_runs _ [] _ (follows_start source options) with ⟨last, _, done⟩
  have built : last.arena = (Domain.read source options).1.arena := done.arena_eq
  rw [← built, ← List.append_nil (Reader.start source options).preconditions.1]
  exact done.stores

/-- The preconditions of a domain are the roots of the expressions that were
read. -/
theorem reads_read (source : Source) (options : Options) :
    List.Forall₂ (Domain.read source options).1.arena.Reads
      (Domain.read source options).1.preconditions
      (Reader.start source options).preconditions.1 := by
  have stored := stores_read source options
  refine List.forall₂_map_left_iff.mpr (List.forall₂_same.mpr (fun tree member => ?_))
  exact stored.reads_of_mem member

/-! ## The end of the source -/

/-- A machine that follows a reader to the end of input has passed all tokens,
each once. -/
theorem Follows.passed_of_end {machine : Machine} {reader : Reader} {held : List Node}
    (follows : Follows source machine reader held) (ended : reader.sees .endOfInput = true) :
    machine.passed = source.tokens ∧ machine.window.current = source.endToken := by
  rcases follows.place with ⟨rest, split, window⟩
  cases rest with
  | nil =>
      refine ⟨(split.trans (List.append_nil _)).symm, ?_⟩
      rw [follows.window, window]
      rfl
  | cons token rest =>
      have same : reader.current = token := by rw [Reader.current, window]; rfl
      have input := source.isInput_of_mem_tokens token
        (split ▸ List.mem_append_right _ List.mem_cons_self)
      rw [Reader.sees, same] at ended
      exact (bne_iff_ne.mp input (beq_iff_eq.mp ended)).elim

/-- The domain that a machine has built. -/
def domain (machine : Machine) (roots : List Handle) : Domain :=
  ⟨machine.source, machine.world, machine.arena, roots⟩

/-- After any calls, reading the rest of the source has a result too.  All tokens
are then passed in order, and the machine has built the domain of the reader. -/
theorem preconditions_total (source : Source) (options : Options) (calls : List Call) :
    Exists fun machine : Machine =>
      (calls.forM Call.work).run (start source options) = some ((), machine) ∧
      Exists fun roots : List Handle => Exists fun last : Machine =>
        preconditions.run machine = some (roots, last) ∧
        last.passed = source.tokens ∧
        last.window.current = source.endToken ∧
        (last.domain roots, last.diagnostics) =
          (Call.applyAll calls (Reader.start source options)).finish ∧
        forall root, root ∈ roots -> Exists fun tree : Node =>
          last.arena.Reads root tree ∧ (tree.dump? source).isSome = true ∧
            (tree.literalTexts? source).isSome = true := by
  rcases calls_run calls _ (Keeps.start source options) with ⟨runs, keeps⟩
  rcases runs _ (follows_start source options) with ⟨machine, called, follows⟩
  generalize Call.applyAll calls (Reader.start source options) = reader at keeps follows ⊢
  rcases preconditions_runs _ _ machine follows with ⟨last, read, done⟩
  rcases done.passed_of_end (Reader.preconditions_end _) with ⟨passed, ended⟩
  refine ⟨machine, called, _, last, read, passed, ended, ?_, fun root member => ?_⟩
  · refine Prod.ext ?_ done.diagnostics
    unfold domain
    rw [done.ofMachine.trans done.ofReader.symm, done.world, done.arena_eq]
    rfl
  · rcases List.mem_map.mp member with ⟨tree, isRead, same⟩
    have alike := ((Reader.written source).preconditions _
      (Reader.written_relates keeps.within)).2
    rcases exists_related_of_mem alike isRead with ⟨_, _, related⟩
    refine ⟨tree, ?_, Reader.texts_of_written related⟩
    exact same ▸ done.stores.reads_of_mem (List.mem_append_left _ isRead)

end Machine

end PlanningDomain
