import PlanningDomain.Source.Text

namespace PlanningDomain

/-!
# Facts and worlds

A world declares kinds of facts.  Each has a name and the types of its
parameters.  The declarations stay in the order in which they were made, and
no name is declared twice.  A second declaration of a name is turned away and
changes nothing.
-/

/-- The types of parameters. -/
inductive DataType where
  | int8
  | int32
  | int64
  | float
  | id32
  | id64
deriving DecidableEq, Repr

namespace DataType

/-- The type that a word of the source names. -/
def ofKeyword? : String -> Option DataType
  | "int8" => some int8
  | "int32" => some int32
  | "int64" => some int64
  | "float" => some float
  | "id32" => some id32
  | "id64" => some id64
  | _ => none

/-- There are six words that name a type. -/
theorem isSome_ofKeyword?_iff {word : String} : (ofKeyword? word).isSome = true ↔
    word ∈ ["int8", "int32", "int64", "float", "id32", "id64"] := by
  simp only [List.mem_cons, List.not_mem_nil, or_false]
  constructor
  · intro known
    unfold ofKeyword? at known
    split at known
    case h_7 => exact (Bool.false_ne_true known).elim
    all_goals simp only [true_or, or_true]
  · rintro (same | same | same | same | same | same)
    all_goals
      rw [same]
      rfl

def name : DataType -> String
  | int8 => "Int8"
  | int32 => "Int32"
  | int64 => "Int64"
  | float => "Float"
  | id32 => "Id32"
  | id64 => "Id64"

/-- Whether the values of the type are whole numbers.  Identifiers are. -/
def isIntegral : DataType -> Bool
  | float => false
  | _ => true

end DataType

/-- A kind of facts: its name, where the name stands, and the types of its
parameters. -/
structure Fact where
  name : String
  span : Span
  params : List DataType
deriving DecidableEq, Repr

namespace Fact

def arity (fact : Fact) : Nat :=
  fact.params.length

def toText (fact : Fact) : String :=
  fact.name ++ "[" ++ ", ".intercalate (fact.params.map DataType.name) ++ "]"

end Fact

/-- Declared kinds of facts, in the order of their declarations. -/
structure World where
  facts : List Fact
  distinct : (facts.map Fact.name).Nodup

namespace World

def empty : World :=
  ⟨[], List.nodup_nil⟩

/-- The declaration of a name. -/
def find? (world : World) (name : String) : Option Fact :=
  world.facts.find? (fun fact => fact.name == name)

theorem name_not_mem_of_find?_eq_none {world : World} {name : String}
    (absent : world.find? name = none) : name ∉ world.facts.map Fact.name := by
  intro member
  obtain ⟨fact, declared, same⟩ := List.mem_map.mp member
  have different := List.find?_eq_none.mp absent fact declared
  exact different (beq_iff_eq.mpr same)

/-- Add a declaration of a name that is not declared yet. -/
def add (world : World) (fact : Fact) (absent : world.find? fact.name = none) : World where
  facts := world.facts ++ [fact]
  distinct := by
    rw [List.map_append, List.nodup_append]
    refine ⟨world.distinct, by simp, ?_⟩
    intro name member other single
    rw [List.map_singleton, List.mem_singleton] at single
    rw [single]
    intro same
    exact name_not_mem_of_find?_eq_none absent (same ▸ member)

/-- Declare a kind of facts, or answer the declaration that has its name. -/
def declare (world : World) (fact : Fact) : Except Fact World :=
  match found : world.find? fact.name with
  | some existing => .error existing
  | none => .ok (world.add fact found)

def size (world : World) : Nat :=
  world.facts.length

def isEmpty (world : World) : Bool :=
  world.facts.isEmpty

def toText (world : World) : String :=
  " ".intercalate (world.facts.map Fact.toText)

end World

end PlanningDomain
