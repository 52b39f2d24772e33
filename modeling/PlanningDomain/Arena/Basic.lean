import PlanningDomain.Expr.Node

namespace PlanningDomain

/-!
# Arenas

An arena keeps the nodes of all expressions in cells, one after the other.
The handle of a node is the number of its cell, and no cell is ever given up.
A cell holds the kind of its node and five links to other nodes: to the node
above, to the first and the last operand, and to the siblings on both sides.

An arena has no greatest size.  A program with handles of thirty-two bits stops
when they are exhausted, and that it may stop there is left aside.

The links repeat one another.  A change of the operands of one node therefore
has to mend links in several cells.  The changes below mend them one by one,
after they have looked at the nodes they are asked about.  A request that
makes no sense is refused with its cause before anything is written.
-/

/-- A link to another node, if there is one. -/
abbrev Link := Option Handle

/-- A node without its handle: its kind, and its links to other nodes. -/
structure Cell where
  kind : Kind
  parent : Link
  first : Link
  last : Link
  previous : Link
  next : Link
deriving DecidableEq, Repr

namespace Cell

/-- The cell of a node that stands alone and has no operands. -/
def alone (kind : Kind) : Cell :=
  ⟨kind, none, none, none, none, none⟩

end Cell

structure Arena where
  cells : Array Cell

/-- Why a request is refused. -/
inductive Misuse where
  /-- The arena has no cell of that number. -/
  | unknownHandle (handle : Handle)
  | appendAttached (child : Handle)
  | appendToItself
  | insertAfterDetached (anchor : Handle)
  | insertAttached (child : Handle)
  | unparentDetached (node : Handle)
  | replaceByAttached (new : Handle)
deriving DecidableEq, Repr

namespace Misuse

def nodeName (handle : Handle) : String :=
  "ExprId(" ++ toString handle ++ ")"

/-- The words for a refusal.  A handle that was never given out has none. -/
def message? : Misuse -> Option String
  | unknownHandle _ => none
  | appendAttached child =>
      some ("cannot append " ++ nodeName child ++ ": node is already attached")
  | appendToItself => some "cannot make a node its own child"
  | insertAfterDetached anchor =>
      some ("cannot insert after " ++ nodeName anchor ++ ": anchor is detached")
  | insertAttached child =>
      some ("cannot insert " ++ nodeName child ++ ": node is already attached")
  | unparentDetached node => some ("cannot unparent " ++ nodeName node ++ ": node is detached")
  | replaceByAttached new =>
      some ("cannot replace with " ++ nodeName new ++ ": node is already attached")

end Misuse

/-- Work on an arena.  It need not come to an end, which is `none`.  If it
does, there is a result or a refusal, and in both cases the arena as it was
left. -/
abbrev Edit (alpha : Type) := ExceptT Misuse (StateT Arena Option) alpha

namespace Arena

def empty : Arena :=
  ⟨#[]⟩

def size (arena : Arena) : Nat :=
  arena.cells.size

def cell? (arena : Arena) (node : Handle) : Option Cell :=
  arena.cells[node]?

/-! ## Cells -/

/-- Look at the cell of a node. -/
def cell (node : Handle) : Edit Cell := do
  match (← get).cell? node with
  | some cell => pure cell
  | none => throw (.unknownHandle node)

/-- Change the cell of a node. -/
def change (node : Handle) (update : Cell -> Cell) : Edit Unit := do
  let _ ← cell node
  modify (fun arena => ⟨arena.cells.modify node update⟩)

def kind (node : Handle) : Edit Kind := do
  return (← cell node).kind

def isAttached (node : Handle) : Edit Bool := do
  return (← cell node).parent.isSome

/-! ## Changes -/

/-- Add a node that stands alone, and answer its handle.  There is always room
for it. -/
def alloc (kind : Kind) : Edit Handle :=
  modifyGet (fun arena => (arena.size, ⟨arena.cells.push (.alone kind)⟩))

/-- Make a detached node the last operand of another node. -/
def append (parent child : Handle) : Edit Unit := do
  if (← isAttached child) then throw (.appendAttached child)
  else if parent = child then throw .appendToItself
  else
    let tail := (← cell parent).last
    change child (fun cell => { cell with parent := some parent, previous := tail, next := none })
    match tail with
    | some tail => change tail (fun cell => { cell with next := some child })
    | none => change parent (fun cell => { cell with first := some child })
    change parent (fun cell => { cell with last := some child })

/-- Make a detached node the next sibling of an attached one. -/
def insert (anchor child : Handle) : Edit Unit := do
  let place ← cell anchor
  match place.parent with
  | none => throw (.insertAfterDetached anchor)
  | some parent =>
      if (← isAttached child) then throw (.insertAttached child)
      else
        change child (fun cell =>
          { cell with parent := some parent, previous := some anchor, next := place.next })
        change anchor (fun cell => { cell with next := some child })
        match place.next with
        | some next => change next (fun cell => { cell with previous := some child })
        | none => change parent (fun cell => { cell with last := some child })

/-- Take an attached node out of the operands of its parent. -/
def unparent (node : Handle) : Edit Unit := do
  let place ← cell node
  match place.parent with
  | none => throw (.unparentDetached node)
  | some parent =>
      match place.previous with
      | some previous => change previous (fun cell => { cell with next := place.next })
      | none => change parent (fun cell => { cell with first := place.next })
      match place.next with
      | some next => change next (fun cell => { cell with previous := place.previous })
      | none => change parent (fun cell => { cell with last := place.previous })
      change node (fun cell => { cell with parent := none, previous := none, next := none })

/-- Put a detached node in the place of another one, which becomes detached.
If that one is detached already, there is no place to put the new one in.  A
node may always take its own place. -/
def replace (old new : Handle) : Edit Unit := do
  if old = new then pure ()
  else if (← isAttached old) then
    insert old new
    unparent old
  else if (← isAttached new) then throw (.replaceByAttached new)
  else pure ()

end Arena

end PlanningDomain
