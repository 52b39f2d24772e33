import PlanningDomain.Arena.Walk

namespace PlanningDomain

/-!
# Conversions in place

Expressions are brought into their normal forms where they stand.  Nodes are
taken out of their places and put into others, nodes of a new kind are added,
and nothing is removed from the arena.  A node that a conversion has no
further use for stays behind, detached.

What the conversions compute is said by the functions on expressions of the
same names.  Here they go along the links, and each of them has to keep its
own place while the links change under it.
-/

open Arena

namespace Handle

/-! ## Merging connectives -/

/-- Move nodes behind an anchor, each behind the one before it. -/
def spliceAfter (anchor : Handle) : List Handle -> Edit Unit
  | [] => pure ()
  | node :: rest => do
      unparent node
      insert anchor node
      node.spliceAfter rest

end Handle

/-- Merge the operands of the same kind into a node, from one of its operands
on.  An operand that comes from a merged one is looked at again. -/
def Link.absorbFrom (outer : Kind) : Link -> Edit Unit
  | none => pure ()
  | some child => do
      if (← kind child) = outer then
        child.spliceAfter (← child.operands)
        let following := (← cell child).next
        unparent child
        following |>.absorbFrom outer
      else (← cell child).next |>.absorbFrom outer
partial_fixpoint

namespace Handle

/-- Merge the connectives of an expression from one of its nodes on, in
pre-order. -/
def flattenFrom (root : Handle) : Link -> Edit Unit
  | none => pure ()
  | some node => do
      let outer ← kind node
      if outer.isAssociative then (← cell node).first.absorbFrom outer
      root |>.flattenFrom (← root.preorderNext node)
partial_fixpoint

/-- Merge all nested connectives of an expression. -/
def flatten (root : Handle) : Edit Unit :=
  root.flattenFrom (some root)

/-! ## Negation normal form -/

/-- Convert a node, and answer the node that is to take its place.  If that
is another node, it is detached.  The operands of a negated connective are
moved below a new node, each below a negation that is converted.  Other
operands are converted in their places. -/
def negate (node : Handle) : Edit Handle := do
  match ← kind node with
  | .not =>
      match (← cell node).first with
      | none => pure node
      | some operand =>
          match ← kind operand with
          | .not =>
              match (← cell operand).first with
              | none => pure node
              | some inner => do
                  unparent inner
                  inner |>.negate
          | .connective symbol => do
              let shell ← alloc (.connective symbol.dual)
              (← operand.operands).forM (fun inner => do
                unparent inner
                let negation ← alloc .not
                append negation inner
                append shell (← negation |>.negate))
              pure shell
          | _ => do
              (← operand.operands).forM (fun inner => do replace inner (← inner |>.negate))
              pure node
  | _ => do
      (← node.operands).forM (fun operand => do replace operand (← operand |>.negate))
      pure node
partial_fixpoint

/-- Bring an expression into negation normal form, and answer the handle of
the node that is now in its place. -/
def toNnf (root : Handle) : Edit Handle := do
  let result ← root.negate
  replace root result
  result.flatten
  pure result

/-! ## Disjunctive normal form -/

def detachAll : List Handle -> Edit Unit
  | [] => pure ()
  | node :: rest => do
      unparent node
      detachAll rest

/-- Take all operands away from a node. -/
def detachOperands (node : Handle) : Edit (List Handle) := do
  let nodes ← node.operands
  detachAll nodes
  pure nodes

/-- Take the literals away from some clauses. -/
def takeLiterals : List Handle -> Edit (List (List Handle))
  | [] => pure []
  | clause :: rest => do
      let literals ← clause.detachOperands
      return literals :: (← takeLiterals rest)

/-- Join each list of the first family with each of the second.  The first
family varies slowest. -/
def distribute (product clauses : List (List Handle)) : List (List Handle) :=
  product.flatMap (fun joined => clauses.map (fun clause => joined ++ clause))

/-- Give literals their place in a clause.  A literal that has a place already
is copied. -/
def placeLiterals (clause : Handle) : List Handle -> Edit Unit
  | [] => pure ()
  | literal :: rest => do
      let placed ← if (← isAttached literal) then literal.duplicate else pure literal
      append clause placed
      clause.placeLiterals rest

/-- Build a clause for each list of literals. -/
def placeClauses (disjunction : Handle) : List (List Handle) -> Edit Unit
  | [] => pure ()
  | literals :: rest => do
      let clause ← alloc .and
      clause.placeLiterals literals
      append disjunction clause
      disjunction.placeClauses rest

/-- Move all operands of one node to the end of another. -/
def moveOperands (source target : Handle) : Edit Unit := do
  match (← cell source).first with
  | none => pure ()
  | some node => do
      unparent node
      append target node
      source |>.moveOperands target
partial_fixpoint

/-- Convert a detached node in negation normal form to the disjunction of its
clauses.  The clauses of the operands of a disjunction are moved to a new one.
Those of the operands of a conjunction are joined, each with all clauses of
the operands before it. -/
def disjoin (node : Handle) : Edit Handle := do
  match ← kind node with
  | .connective .or => do
      let disjunction ← alloc .or
      (← node.detachOperands).forM (fun operand => do
        (← operand |>.disjoin).moveOperands disjunction)
      pure disjunction
  | .connective .and => do
      let product ← (← node.detachOperands).foldlM (fun product operand => do
        let clauses ← takeLiterals (← (← operand |>.disjoin).operands)
        pure (distribute product clauses)) [[]]
      let disjunction ← alloc .or
      disjunction.placeClauses product
      pure disjunction
  | _ => do
      let clause ← alloc .and
      append clause node
      let disjunction ← alloc .or
      append disjunction clause
      pure disjunction
partial_fixpoint

/-- Detach a node, and answer the new node that keeps its place if it was
attached. -/
def takeOut (node : Handle) : Edit (Option Handle) := do
  if (← isAttached node) then
    let slot ← alloc .or
    insert node slot
    unparent node
    pure (some slot)
  else pure none

/-- The disjunction of the clauses of a detached node in negation normal form.
A conjunction without operands becomes a disjunction without operands. -/
def clausesOf (node : Handle) : Edit Handle := do
  let place ← cell node
  if place.kind = .and ∧ place.first = none then alloc .or else node.disjoin

/-- Bring an expression into disjunctive normal form, and answer the handle of
the node that is now in its place. -/
def toDnf (root : Handle) : Edit Handle := do
  let converted ← root.toNnf
  let slot ← converted.takeOut
  let result ← converted.clausesOf
  match slot with
  | some slot => replace slot result
  | none => pure ()
  result.flatten
  pure result

end Handle

end PlanningDomain
