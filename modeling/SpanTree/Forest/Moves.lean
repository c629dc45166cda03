/-
SpanTree.Forest.Moves — finding nodes and moving between them.

A search from the root of a text takes an absolute position and balances
the root first. A search from any other node takes an offset into the
subtree of the node. The end position finds the last node.

`balancePossibleRoot` balances at the slot of the root and hands what
has become the root back to its text, whether or not it succeeded.
-/
import SpanTree.Forest.Basic
import SpanTree.Tree.Check

namespace SpanTree

namespace Run

/-- Makes a tree the tree of a text and links it to the text. -/
def attachRoot (t : TextId) (root : Tree) : Run Unit :=
  modifyText t fun x => { x with root := root.setLink (.owner t) }

/-- Takes the tree of a text. Its link still names the text. -/
def detachRoot (t : TextId) : Run Tree := do
  let root := (← text t).root
  modifyText t fun x => { x with root := .nil }
  pure root

/-- A node that covers a text that has no tree, as its root. -/
def createRoot (t : TextId) : Run NodeId := do
  let x ← text t
  require x.root.isNil .treePresent
  require (0 < x.length) .textEmpty
  let id ← freshId
  attachRoot t (.node ((Node.fresh id x.length).withPosition x.beginOffset) .nil .nil)
  pure id

/-- Balances at the root if the node is linked to a text. Gives the node that is then
there, or the node itself. -/
def balancePossibleRoot (id : NodeId) : Run NodeId := do
  let site ← locate id
  match site.cursor.node.link with
  | .owner t =>
    require ((← text t).root.id? = some id) .balanceForeignRoot
    profiled "interval::balance_possible_root" do
      let root ← detachRoot t
      let (balanced, result) := root.balanceSelf
      attachRoot t balanced
      addRotations (← ofExcept result)
      pure (balanced.id?.getD id)
  | _ => pure id

/-- The refusal of a position by a search. -/
def findOutside (position first last : Size) : Fault :=
  .range { operation := "interval::find", position, first, last }

/-- The node that contains a position, which is absolute at the root of a text and an offset
elsewhere. -/
def find (id : NodeId) (position : Size) : Run NodeId :=
  profiled "interval::find" do
    let site ← locate id
    let (top, offset) ← match site.cursor.node.link with
      | .owner t => do
        let start := (← text t).beginOffset
        if position < start then
          throw (findOutside position start (start + site.cursor.node.data.total))
        let top ← balancePossibleRoot id
        pure (top, position - start)
      | _ => pure (id, position)
    let site ← locate top
    let total := site.cursor.node.data.total
    if total < offset then
      throw (findOutside position (position - offset) (position - offset + total))
    let found := site.cursor.seek offset position
    putBack { site with cursor := found }
    pure found.node.id

/-- Moves to another node, if there is one, and keeps the caches the move set. -/
def moveTo (move : Cursor → Option Cursor) (id : NodeId) : Run (Option NodeId) := do
  let site ← locate id
  match move site.cursor with
  | some c =>
    putBack { site with cursor := c }
    pure (some c.node.id)
  | none => pure none

/-- The next node, from left to right. -/
def next (id : NodeId) : Run (Option NodeId) := moveTo (·.next?) id

/-- The node before, from left to right. -/
def prev (id : NodeId) : Run (Option NodeId) := moveTo (·.prev?) id

/-- The spans from a node to the end on a side, by single steps. -/
def walk (s : Side) (id : NodeId) : Run (List Span) := do
  let site ← locate id
  let (spans, last) := site.cursor.walk s
  putBack { site with cursor := last }
  pure spans

/-- The outermost node on a side of the subtree of a node. -/
def outermost (s : Side) (id : NodeId) : Run NodeId := do
  pure ((← locate id).cursor.outermost s).node.id

/-- The node that contains an absolute position, by a walk from a node with a trusted cache. -/
def update (id : NodeId) (position : Size) : Run NodeId := do
  let site ← locate id
  let (c, result) := site.cursor.update position
  putBack { site with cursor := c }
  let _ ← ofExcept result
  pure c.node.id

/-- The structural check of the subtree of a node. -/
def checkInvariants (id : NodeId) : Run Unit := do
  match (← locate id).cursor.subtree.check with
  | .ok _ => pure ()
  | .error v => violate v

end Run

end SpanTree
