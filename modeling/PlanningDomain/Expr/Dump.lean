import PlanningDomain.Expr.Node

namespace PlanningDomain

/-!
# Dumps

A dump writes an expression as the words for its kinds.  The name of a
variable or a call follows in square brackets, and the operands of a node
follow in braces, each with a blank after it.  Handles and the values of
constants are left out.
-/

namespace Node

/-- The name in its brackets.  An empty name is left out together with its
brackets, and so is its range never looked up. -/
def nameTag? (source : Source) (kind : Kind) : Option String :=
  match kind.name? with
  | none => some ""
  | some name =>
      if name.isEmpty then some ""
      else (source.slice? name).map (fun text => "[" ++ text ++ "]")

mutual

/-- The dump of an expression, unless the range of some name denotes no text
of the source. -/
def dump? (source : Source) : Node -> Option String
  | mk _ kind children =>
      (nameTag? source kind).bind (fun tag =>
        (dumpAll? source children).map (fun operands =>
          kind.typeName ++ tag ++
            (if children.isEmpty then "" else "\x7b " ++ operands ++ "\x7d")))

/-- The dumps of several expressions, each with a blank after it. -/
def dumpAll? (source : Source) : List Node -> Option String
  | [] => some ""
  | node :: rest =>
      (node.dump? source).bind (fun head =>
        (dumpAll? source rest).map (fun tail => head ++ " " ++ tail))

end

/-- The texts of all constants of an expression, in the order of `preorder`. -/
def literalTexts? (source : Source) (node : Node) : Option (List String) :=
  (node.preorder.filterMap (fun inner => inner.kind.literal?)).mapM (Literal.toText? source)

end Node

end PlanningDomain
