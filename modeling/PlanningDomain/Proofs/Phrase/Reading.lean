import PlanningDomain.Proofs.Machine.Total
import PlanningDomain.Proofs.Phrase.Basic

namespace PlanningDomain

/-!
# Reading phrases back

A phrase that is written in its parentheses is read without a report, up to
the end of the source, and the expression that is read means the phrase.  As long
as no facts are declared, the options have no influence on what is read.
-/

namespace Reader

theorem checkCall_of_empty {reader : Reader} (noFacts : reader.world = .empty) (name : Token)
    (found : Nat) : reader.checkCall name found = reader := by
  have isEmpty : reader.world.isEmpty = true := by rw [noFacts]; rfl
  unfold checkCall
  rw [isEmpty, Bool.not_true, Bool.and_false]
  rfl

/-- Readers of a world without facts that differ in their options. -/
def unchecked (options : Options) : Agreement where
  relates := fun _ reader other =>
    reader.world = .empty ∧ other = { reader with options := options }
  window_eq := fun related => related.2 ▸ rfl
  nextHandle_eq := fun related => related.2 ▸ rfl
  opened := fun related _ => ⟨related.1, related.2 ▸ rfl⟩
  closed := fun related _ => ⟨related.1, related.2 ▸ rfl⟩
  advanced := fun related _ _ => ⟨related.1, related.2 ▸ rfl⟩
  ended := fun related _ => related
  reported := fun _ _ related => ⟨related.1, related.2 ▸ rfl⟩
  reserved := fun related => ⟨related.1, related.2 ▸ rfl⟩
  checked := by
    intro _ reader other token found related
    have noFactsOther : other.world = .empty := related.2 ▸ related.1
    rw [checkCall_of_empty related.1, checkCall_of_empty noFactsOther]
    exact related

end Reader

namespace Phrase

open Grammar Reader

/-- Tokens that spell a phrase in its parentheses are read as a precondition
that means the phrase. -/
theorem precondition_of_spells {source : Source} {phrase : Phrase} {tokens : List Token}
    (spells : source.Spells
      (Mark.leftParen.word :: phrase.words .loosest ++ [Mark.rightParen.word]) tokens)
    {reader : Reader} (off : reader.options.validateFacts = false) (shows : reader.Shows tokens) :
    reader.precondition.2.diagnostics = reader.diagnostics ∧ reader.precondition.2.Shows [] ∧
      Means source phrase reader.precondition.1.term := by
  rcases spells.mark with ⟨opening, others, starts, isOpening, rest⟩
  rcases rest.lastMark with ⟨inner, closing, ends, spellsInner, isClosing⟩
  rcases phrase.derives_words .loosest inner spellsInner with ⟨term, derived, meant⟩
  have fits : forall token, token ∈ inner -> token.Fits := by
    intro token member
    rcases List.mem_iff_getElem.mp member with ⟨place, bound, isToken⟩
    have same := (List.forall₂_iff_get.mp spellsInner).2 place (spellsInner.length_eq ▸ bound) bound
    exact isToken ▸ same.1.fits
  subst starts ends
  have separated : Separated inner [term] := by
    rw [← List.append_nil inner]
    refine .cons derived (fun ⟨_, _, _, _, _, starts, _⟩ => ?_) .nil
    exact List.cons_ne_nil _ _ starts.symm
  have opens : reader.sees .leftParen = true := shows.sees_of isOpening
  have offInside : reader.advance.options.validateFacts = false := off
  rcases conjuncts_reads separated fits offInside shows.advance isClosing with ⟨terms, passes⟩
  have closed := passes.trans (Passes.closeGroup passes.shows isClosing reader.current.span)
  rw [precondition_of_opens opens, (conjoin_eq _ _).1, terms]
  rcases (conjoin_eq (reader.advance.conjuncts.reader.closeGroup reader.current.span)
    reader.advance.conjuncts.value).2 with same | reserved
  · rw [same]
    exact ⟨closed.diagnostics, closed.shows, meant⟩
  · rw [reserved]
    exact ⟨closed.diagnostics, closed.shows, meant⟩

theorem spells_source (phrase : Phrase) : phrase.source.Spells
    (Mark.leftParen.word :: phrase.words .loosest ++ [Mark.rightParen.word])
    phrase.source.tokens := by
  have tokens := Word.tokens_source
    (Mark.leftParen.word :: phrase.words .loosest ++ [Mark.rightParen.word])
  refine List.forall₂_iff_get.mpr ⟨tokens.length_eq, fun place first second => ?_⟩
  exact ⟨(List.forall₂_iff_get.mp tokens).2 place first second,
    phrase.source.stands_of_mem_tokens (List.get_mem _ _)⟩

theorem precondition_source (phrase : Phrase) (options : Options) :
    ((start phrase.source options).precondition).2.diagnostics = [] ∧
      ((start phrase.source options).precondition).2.sees .endOfInput = true ∧
      Means phrase.source phrase ((start phrase.source options).precondition).1.term := by
  have shows := shows_start phrase.source ⟨options.lookAhead, false⟩
  rcases precondition_of_spells phrase.spells_source rfl shows with ⟨silent, ends, meant⟩
  have related : (unchecked options).relates 0 (start phrase.source ⟨options.lookAhead, false⟩)
      (start phrase.source options) := ⟨rfl, rfl⟩
  rcases (unchecked options).precondition related with ⟨⟨_, left⟩, same⟩
  rw [left, ← same]
  exact ⟨silent, ends.sees_end, meant⟩

/-- A phrase that was written is read back.  Nothing is reported, all of the
source is read, and the tree at the handle that is answered means the phrase. -/
theorem plantPrecondition_source (phrase : Phrase) (options : Options) :
    let read := (start phrase.source options).plantPrecondition
    read.2.diagnostics = [] ∧ read.2.sees .endOfInput = true ∧
      Exists fun tree : Node => (Arena.ofForest read.2.forest).Reads read.1 tree ∧
        Means phrase.source phrase tree.term := by
  rcases phrase.precondition_source options with ⟨silent, ends, meant⟩
  refine ⟨silent, ends, _, ?_, meant⟩
  have stored := Machine.stores_calls [.precondition] phrase.source options
  exact stored.reads_of_mem ((Forest.roots_plant_perm _ _).mem_iff.mpr List.mem_cons_self)

end Phrase

end PlanningDomain
