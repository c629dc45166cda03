/-
SpanTree.Forest.Edits — rotations, splits, merges and removal, in a
forest.

An edit of a tree is made where the tree is. Whether the tree is the
text's own decides what becomes of a root that is removed, and after a
split the root of the text is balanced.
-/
import SpanTree.Forest.Moves
import SpanTree.Forest.Nodes

namespace SpanTree

namespace Run

/-- Raises the child on a side of a node by exchanging payloads. -/
def rotateInPlace (s : Side) (id : NodeId) : Run Unit := do
  let site ← locate id
  let (t, result) := site.cursor.subtree.rotateInPlace s
  plant site.place (Path.plug site.cursor.path t)
  match result with
  | .ok _ => pure ()
  | .error v => violate v

/-- Raises the child on a side of the top of a loose tree. A failure leaves the slot empty. -/
def rotateLoose (s : Side) (slot : String) : Run (Option NodeId) := do
  let t ← takeLoose slot
  match t.rotateOwned s with
  | .ok u =>
    storeLoose slot u
    pure u.id?
  | .error v => violate v

/-- Balances at the top of the tree at a place. -/
def balanceSelf (place : Place) : Run Nat := do conclude place ((← get).tree place).balanceSelf

/-- Balances every slot of the tree at a place. -/
def balance (place : Place) : Run Nat := do conclude place ((← get).tree place).balance

/-- Cuts the own span of a node at an offset. A new node takes the part on the given side. -/
def split (s : Side) (id : NodeId) (offset : Size) : Run NodeId := do
  let site ← locate id
  require (site.cursor.splits offset) (.offsetOutside s)
  profiled ("interval::split_" ++ s.word) do
    let piece ← freshId
    let (c, result) := site.cursor.splitOff s offset piece
    putBack { site with cursor := c }
    addRotations (← ofExcept result)
    let _ ← balancePossibleRoot id
    pure piece

/-- Hands the span of a node to its neighbour on a side and removes the node. -/
def merge (s : Side) (id : NodeId) : Run NodeId := do
  let site ← locate id
  conclude site.place (site.cursor.mergeInto s site.place.home?)

/-- Removes a node; its span goes to a neighbour. -/
def remove (id : NodeId) : Run Unit := do
  let site ← locate id
  conclude site.place (site.cursor.remove site.place.home?)

end Run

end SpanTree
