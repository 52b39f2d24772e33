import PlanningDomain.Proofs.Nodes
import PlanningDomain.Proofs.Reader.Correspondence.Sources
import PlanningDomain.Proofs.Token.Places

namespace PlanningDomain

/-!
# Invariants of reading

What every single step of a reader keeps is kept by reading as a whole.  This is
a correspondence of readers with themselves.  One such invariant is that the
tokens in the window belong to the source.  Hence all names and strings of the
nodes that are read are texts of the source.
-/

namespace Reader

/-- A property of readers that every single step keeps. -/
structure Invariant where
  holds : Reader -> Prop
  advanced {reader : Reader} : holds reader -> holds reader.advance
  reported {reader : Reader} (span : Span) (problem : Problem) : holds reader ->
    holds (reader.report span problem)
  reserved {reader : Reader} : holds reader -> holds reader.reserve
  declared {reader : Reader} (fact : Fact) : holds reader -> holds (reader.declare fact)

namespace Invariant

variable (i : Invariant) {reader : Reader}

theorem checked (name : Token) (found : Nat) (holds : i.holds reader) :
    i.holds (reader.checkCall name found) := by
  rw [checkCall_eq]
  cases reader.callProblem? name found with
  | none => exact holds
  | some problem => exact i.reported _ problem holds

/-- The readers with the property correspond to themselves.  So do tokens and
kinds about which it says something more. -/
def correspondence (tokens : Token -> Prop) (kinds : Kind -> Prop)
    (current : forall {reader : Reader}, i.holds reader -> tokens reader.current)
    (plain : forall {kind : Kind}, kind.name? = none -> kind.literal? = none -> kinds kind)
    (name : forall {token : Token}, tokens token -> token.kind = .identifier ->
      kinds (.var token.span) ∧ kinds (.func token.span))
    (constant : forall {token : Token} {value : Literal} {problems : List Problem}, tokens token ->
      token.constant? = some (value, problems) -> kinds (.literal value)) :
    SourceCorrespondence where
  relates := fun _ reader other => reader = other ∧ i.holds reader
  tokens := fun token like => token = like ∧ tokens token
  handles := Eq
  kinds := fun kind like => kind = like ∧ kinds kind
  current := fun related => ⟨related.1 ▸ rfl, current related.2⟩
  kind_eq := fun same => same.1 ▸ rfl
  seesNext_eq := fun related _ => related.1 ▸ rfl
  nextHandle := fun related => related.1 ▸ rfl
  plain := fun noName noLiteral => ⟨rfl, plain noName noLiteral⟩
  name := fun same isName => same.1 ▸
    ⟨⟨rfl, (name same.2 isName).1⟩, ⟨rfl, (name same.2 isName).2⟩⟩
  constant := fun same found => ⟨_, same.1 ▸ found, rfl, constant same.2 found⟩
  opened := fun related _ => ⟨related.1 ▸ rfl, i.advanced related.2⟩
  closed := fun related _ => ⟨related.1 ▸ rfl, i.advanced related.2⟩
  advanced := fun related _ _ => ⟨related.1 ▸ rfl, i.advanced related.2⟩
  ended := fun related _ => related
  reported := fun problem related same =>
    ⟨related.1 ▸ same.1 ▸ rfl, i.reported _ problem related.2⟩
  reserved := fun related => ⟨related.1 ▸ rfl, i.reserved related.2⟩
  checked := fun found related same _ =>
    ⟨related.1 ▸ same.1 ▸ rfl, i.checked _ found related.2⟩
  anywhere := fun _ related => related
  text_eq := fun same _ => same.1 ▸ rfl
  declared := fun _ related same _ =>
    ⟨related.1 ▸ same.1 ▸ rfl, i.declared _ related.2⟩

/-- The correspondence that says nothing more. -/
def plain : SourceCorrespondence :=
  i.correspondence (fun _ => True) (fun _ => True) (fun _ => trivial) (fun _ _ => trivial)
    (fun _ _ => ⟨trivial, trivial⟩) (fun _ _ => trivial)

theorem plain_relates (holds : i.holds reader) : i.plain.relates 0 reader reader :=
  ⟨rfl, holds⟩

theorem precondition (holds : i.holds reader) : i.holds reader.precondition.2 :=
  (i.plain.precondition (i.plain_relates holds)).1.2

theorem factBlock (holds : i.holds reader) : i.holds reader.factBlock.reader :=
  (i.plain.factBlock (i.plain_relates holds)).2

theorem preconditions (holds : i.holds reader) : i.holds reader.preconditions.2 :=
  (i.plain.preconditions reader (i.plain_relates holds)).1.2

end Invariant

/-- The roots of the forest are not touched, and neither is the source. -/
def untouched (roots : List Node) (source : Source) : Invariant where
  holds := fun reader => reader.forest.roots = roots ∧ reader.source = source
  advanced := fun holds => holds
  reported := fun _ _ holds => holds
  reserved := fun holds => holds
  declared := by
    intro reader fact holds
    unfold Reader.declare
    split <;> exact holds

end Reader

/-- A domain is about the source that it was read from. -/
theorem Domain.source_read (source : Source) (options : Options) :
    (Domain.read source options).1.source = source := by
  have untouched : (Reader.untouched [] source).holds (Reader.start source options) := ⟨rfl, rfl⟩
  exact ((Reader.untouched _ _).preconditions untouched).2

end PlanningDomain
