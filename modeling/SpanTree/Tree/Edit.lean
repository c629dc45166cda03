/-
SpanTree.Tree.Edit — splitting and merging spans.

A split cuts the own span of a node in two. The new piece becomes the
child on its side, adopts the subtree that was there, and is balanced
over it.

A merge hands the span of a node to its neighbour on one side and unlinks
the node. The neighbour is below, at the end of a spine, or above, where
the way up turns; the weights between the two change by the length that
moves. A node that is unlinked leaves the merge of its children in its
place: the left subtree below the leftmost node of the right one.

Weights are changed before the node is unlinked. Where unlinking fails
they stay changed.
-/
import SpanTree.Tree.Balance
import SpanTree.Tree.Navigate

namespace SpanTree

/-- What an edit leaves of the whole tree, and its result or failure. -/
abbrev Edited (α : Type) := Tree × Except Fault α

namespace Tree

/-- Hangs a tree below the leftmost node, and adds a weight to the leftmost node and to every
node on the way to it. -/
def graft (amount : Size) (t : Tree) : Tree → Tree
  | .nil => t
  | .node n l r =>
    let n' := n.withTotal (n.data.total + amount)
    if l.isNil then .node n' (t.setLink (.node n.id)) r else .node n' (graft amount t l) r

/-- Two subtrees as one, linked to nothing. -/
def mergeChildren (l r : Tree) : Tree :=
  if l.isNil then r.setLink .unset
  else if r.isNil then l.setLink .unset
  else (graft l.total (l.setLink .unset) r).setLink .unset

/-- Lets the outermost node on a side take over a length that starts at a position. The
leftmost node grows at its start, which is then that position; the rightmost one grows at its
end, so that it starts before that position by its old length. -/
def absorbAtEnd (s : Side) (amount start : Size) : Tree → Tree
  | .nil => .nil
  | .node n l r =>
    let n' := n.withTotal (n.data.total + amount)
    match s with
    | .left =>
      if l.isNil then .node (n'.withPosition start) l r
      else .node n' (absorbAtEnd .left amount start l) r
    | .right =>
      if r.isNil then .node (n'.withPosition (start - (n'.length l r - amount))) l r
      else .node n' l (absorbAtEnd .right amount start r)

end Tree

/-- The way up after a length has left the subtree below it: every node loses the length up
to the one where the way turns, whose own span takes it over. The side is where the length
moves to, the start is where it was, and the last weight is that of the subtree below. -/
def Path.absorb (s : Side) (amount start : Size) : Size → Path → Path
  | _, [] => []
  | below, b :: rest =>
    if b.side = s.other then
      let held := b.holder.data.total - below - b.sibling.total
      let position := match s with
        | .left => start - (held - amount)
        | .right => start
      { b with holder := b.holder.withPosition position } :: rest
    else
      let total := b.holder.data.total - amount
      { b with holder := b.holder.withTotal total } :: Path.absorb s amount start total rest

namespace Cursor

/-- Puts the merge of the children in the place of the node. The text is the one that has
the tree as its own, if there is one; only the root of that text may be linked to a text. -/
def unlink (c : Cursor) (home : Option TextId) : Edited Unit :=
  if ¬ (c.length = 0 ∨ c.isOnly) then (c.toTree, .error (.violation .removeOwnsSpan))
  else
    let merged := Tree.mergeChildren c.left c.right
    match c.node.link with
    | .owner text =>
      if home = some text ∧ c.path.isEmpty then (merged.setLink (.owner text), .ok ())
      else (c.toTree, .error (.violation .removeForeignRoot))
    | .node holder =>
      match c.path with
      | b :: _ =>
        if b.holder.id = holder then (Path.plug c.path (merged.setLink (.node holder)), .ok ())
        else (c.toTree, .error (.breach .lostNode))
      | [] => (c.toTree, .error (.breach .lostNode))
    | .unset => (c.toTree, .error (.violation .removeUnlinked))

/-- Hands the span of the node to its neighbour on a side and removes the node. Gives the
neighbour. -/
def mergeInto (s : Side) (c : Cursor) (home : Option TextId) : Edited NodeId :=
  let amount := c.length
  let start := c.position
  match c.down? s with
  | some d =>
    let neighbour := (d.outermost s.other).node.id
    let c' := c.withChild s ((c.child s).absorbAtEnd s.other amount start)
    let (t, result) := c'.unlink home
    (t, result.map fun _ => neighbour)
  | none =>
    match c.turn? s.other with
    | none => (c.toTree, .error (.violation (.noNeighbour s)))
    | some neighbour =>
      let total := c.node.data.total - amount
      let c' : Cursor :=
        { c with
          node := c.node.withTotal total
          path := Path.absorb s amount start total c.path }
      let (t, result) := c'.unlink home
      (t, result.map fun _ => neighbour.node.id)

/-- Removes the node. Its span goes to the next node, or to the one before if it is the
last; the only node of a text leaves no tree. -/
def remove (c : Cursor) (home : Option TextId) : Edited Unit :=
  if ¬ (c.isRoot ∨ c.hasParent) then (c.toTree, .error (.violation .removeUnlinked))
  else if !c.right.isNil || (c.turn? .left).isSome then
    let (t, result) := c.mergeInto .right home
    (t, result.map fun _ => ())
  else if !c.left.isNil || (c.turn? .right).isSome then
    let (t, result) := c.mergeInto .left home
    (t, result.map fun _ => ())
  else c.unlink home

/-- Whether an offset is strictly inside the own span. -/
def splits (c : Cursor) (offset : Size) : Bool := 0 < offset && offset < c.length

/-- Cuts the own span at an offset. A new node takes the part on the given side, with the
subtree on that side. Gives the rotations of the new subtree, or their failure. -/
def splitOff (s : Side) (c : Cursor) (offset : Size) (piece : NodeId) : Cursor × Except Fault Nat :=
  let adopted := c.child s
  let start := c.position
  let own := s.pick offset (c.length - offset)
  let pieceStart := s.pick start (start + offset)
  let pieceNode : Node :=
    ((Node.fresh piece (own + adopted.total)).withPosition pieceStart).withLink (.node c.node.id)
  let kept := c.withPosition (s.pick (start + offset) start)
  let sub := Tree.join s pieceNode (adopted.setLink (.node piece)) .nil
  if adopted.isNil then (kept.withChild s sub, .ok 0)
  else
    let (t, result) := sub.balanceSelf
    (kept.withChild s t, result)

end Cursor

end SpanTree
