import PlanningDomain.Domain
import PlanningDomain.Proofs.Reader.Relocation
import PlanningDomain.Proofs.Reader.Texts

namespace PlanningDomain

/-!
# Transcripts of preconditions

The handles of an expression and the ranges of its names say where it was built
and where it stands.  What is left without them is its dump and the values of its
constants.  Together with the messages of the problems that were found, this is
the transcript of a precondition.  Expressions of one shape have the same dump
and the same values if their names and strings are the same texts, each in its
own source.
-/

/-- The value of a constant, in which a string is given by its text. -/
inductive Payload where
  | int (value : Int64)
  | float (value : Binary64)
  | string (text : String)
deriving DecidableEq, Repr

namespace Literal

/-- The value of a constant, unless the range of a string denotes no text. -/
def payload? (source : Source) : Literal -> Option Payload
  | int value => some (.int value)
  | float value => some (.float value)
  | string text => (source.slice? text).map .string

theorem isSome_payload? {source : Source} {value : Literal}
    (written : (value.toText? source).isSome = true) : (value.payload? source).isSome = true := by
  cases value with
  | int => rfl
  | float => rfl
  | string text =>
      rw [toText?, Option.isSome_map] at written
      rw [payload?, Option.isSome_map]
      exact written

end Literal

namespace Node

/-- The values of all constants of an expression, in the order of `preorder`. -/
def payloads? (source : Source) (node : Node) : Option (List Payload) :=
  (node.preorder.filterMap (fun inner => inner.kind.literal?)).mapM (Literal.payload? source)

end Node

/-- Kinds with the same words, names and values, each in its own source. -/
structure Kind.Alike (source other : Source) (kind like : Kind) : Prop where
  typeName : kind.typeName = like.typeName
  name : Node.nameTag? source kind = Node.nameTag? other like
  value : kind.literal?.map (Literal.payload? source) = like.literal?.map (Literal.payload? other)

theorem Kind.Alike.plain {source other : Source} {kind : Kind} (noName : kind.name? = none)
    (noLiteral : kind.literal? = none) : kind.Alike source other kind where
  typeName := rfl
  name := by rw [Node.nameTag?, Node.nameTag?, noName]
  value := by rw [noLiteral]; rfl

/-- A name has the same tag wherever it stands. -/
theorem Source.SameText.nameTag?_eq {source other : Source} {span like : Span}
    (same : source.SameText other span like) {kind twin : Kind} (isName : kind.name? = some span)
    (isTwin : twin.name? = some like) : Node.nameTag? source kind = Node.nameTag? other twin := by
  have empty := same.isEmpty_eq
  rcases same with ⟨text, first, second⟩
  rw [Node.nameTag?, Node.nameTag?, isName, isTwin]
  dsimp only
  rw [empty, first, second]

namespace Kind.Relocated

variable {source other : Source} {kind like : Kind}

/-- Relocated kinds have the same words, names and values. -/
theorem alike (related : kind.Relocated source other like) : kind.Alike source other like := by
  cases related with
  | plain noName noLiteral => exact .plain noName noLiteral
  | var same => exact ⟨rfl, same.nameTag?_eq rfl rfl, rfl⟩
  | func same => exact ⟨rfl, same.nameTag?_eq rfl rfl, rfl⟩
  | int value => exact ⟨rfl, rfl, rfl⟩
  | float value => exact ⟨rfl, rfl, rfl⟩
  | string same =>
      rcases same with ⟨text, first, second⟩
      refine ⟨rfl, rfl, ?_⟩
      rw [Kind.literal?, Kind.literal?, Option.map_some, Option.map_some, Literal.payload?,
        Literal.payload?, first, second]

/-- And their constants are written in the same way. -/
theorem toText?_eq (related : kind.Relocated source other like) :
    kind.literal?.map (Literal.toText? source) = like.literal?.map (Literal.toText? other) := by
  cases related with
  | plain _ noLiteral =>
      rw [noLiteral]
      rfl
  | var _ => rfl
  | func _ => rfl
  | int value => rfl
  | float value => rfl
  | string same =>
      rcases same with ⟨text, first, second⟩
      rw [Kind.literal?, Kind.literal?, Option.map_some, Option.map_some, Literal.toText?,
        Literal.toText?, first, second]

theorem isWritten (related : kind.Relocated source other like) : kind.IsWritten source := by
  have isSome {span twin : Span} (same : source.SameText other span twin) :
      (source.slice? span).isSome = true := by
    rcases same with ⟨text, first, _⟩
    rw [first]
    rfl
  cases related with
  | plain noName noLiteral => exact .plain noName noLiteral
  | var same =>
      exact ⟨Kind.IsWritten.isSome_nameTag? rfl (isSome same),
        fun _ impossible => (Option.some_ne_none _ impossible.symm).elim⟩
  | func same =>
      exact ⟨Kind.IsWritten.isSome_nameTag? rfl (isSome same),
        fun _ impossible => (Option.some_ne_none _ impossible.symm).elim⟩
  | int value => exact ⟨rfl, fun _ isValue => Option.some.inj isValue ▸ rfl⟩
  | float value => exact ⟨rfl, fun _ isValue => Option.some.inj isValue ▸ rfl⟩
  | string same =>
      refine ⟨rfl, fun _ isValue => ?_⟩
      rw [← Option.some.inj isValue, Literal.toText?, Option.isSome_map]
      exact isSome same

end Kind.Relocated

namespace Node.Corresponds

variable {handles : Handle -> Handle -> Prop} {source other : Source}

/-- Expressions of one shape with the same words and names have the same dump. -/
theorem dump?_eq_of_words {kinds : Kind -> Kind -> Prop}
    (words : forall {kind like : Kind}, kinds kind like ->
      kind.typeName = like.typeName ∧ nameTag? source kind = nameTag? other like) (node : Node) :
    forall {twin : Node}, Corresponds handles kinds node twin ->
      node.dump? source = twin.dump? other := by
  induction node using Node.induction with
  | step handle kind children ih =>
      intro twin alike
      cases alike with
      | @mk _ _ _ like _ twins _ isKind operands =>
          rcases words isKind with ⟨typeName, name⟩
          have dumps : dumpAll? source children = dumpAll? other twins := by
            clear isKind
            induction operands with
            | nil => rfl
            | cons first _ onRest =>
                rw [dumpAll?, dumpAll?, ih _ List.mem_cons_self first,
                  onRest (fun inner member => ih inner (List.mem_cons_of_mem _ member))]
          have leaves : children.isEmpty = twins.isEmpty := by
            cases operands <;> rfl
          rw [dump?, dump?, dumps, leaves, name, typeName]

theorem dump?_eq (node : Node) {twin : Node}
    (alike : Corresponds handles (Kind.Alike source other) node twin) :
    node.dump? source = twin.dump? other :=
  dump?_eq_of_words (fun alike => ⟨alike.typeName, alike.name⟩) node alike

/-- What is asked of all constants of an expression is answered in the same way for
an expression of the same shape, if it is for each of them. -/
theorem mapM_literals_eq {kinds : Kind -> Kind -> Prop} {alpha : Type}
    {answer reply : Literal -> Option alpha}
    (same : forall {kind like : Kind}, kinds kind like ->
      kind.literal?.map answer = like.literal?.map reply)
    {node twin : Node} (alike : Corresponds handles kinds node twin) :
    (node.preorder.filterMap (fun inner => inner.kind.literal?)).mapM answer =
      (twin.preorder.filterMap (fun inner => inner.kind.literal?)).mapM reply := by
  have related := alike.preorder node
  generalize node.preorder = inner, twin.preorder = others at related
  induction related with
  | nil => rfl
  | @cons first second rest later isKind _ ih =>
      have value := same isKind
      cases constant : first.kind.literal? with
      | none =>
          rw [constant, Option.map_none] at value
          have none := Option.map_eq_none_iff.mp value.symm
          simp only [List.filterMap_cons, constant, none, ih]
      | some found =>
          rw [constant, Option.map_some] at value
          rcases Option.map_eq_some_iff.mp value.symm with ⟨result, again, answered⟩
          simp only [List.filterMap_cons, constant, again, List.mapM_cons, answered, ih]

theorem payloads?_eq {node twin : Node}
    (alike : Corresponds handles (Kind.Alike source other) node twin) :
    node.payloads? source = twin.payloads? other :=
  mapM_literals_eq Kind.Alike.value alike

end Node.Corresponds

/-- What is left of a precondition without its handles and ranges. -/
structure Transcript where
  dump : Option String
  payloads : Option (List Payload)
  messages : List String

namespace Reader

/-- The transcript of the precondition that a reader reads next. -/
def transcript (reader : Reader) : Transcript where
  dump := reader.precondition.1.dump? reader.source
  payloads := reader.precondition.1.payloads? reader.source
  messages :=
    (reader.precondition.2.diagnostics.drop reader.diagnostics.length).map Diagnostic.message

/-- The constants of an expression that is read from a source have values. -/
theorem payloads_of_written {source : Source} {node other : Node}
    (alike : (written source).nodes node other) : (node.payloads? source).isSome = true := by
  apply isSome_mapM
  intro value member
  rcases List.mem_filterMap.mp member with ⟨inner, isInner, same⟩
  exact Literal.isSome_payload? ((kinds_of_written alike inner isInner).literal value same)

end Reader

end PlanningDomain
