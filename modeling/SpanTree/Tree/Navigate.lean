/-
SpanTree.Tree.Navigate — moving between the nodes of a tree.

`seek` goes down to the node whose span contains an offset. `next?` and
`prev?` step to the neighbour on a side: to the outermost node of the
subtree on that side, or else up to the first ancestor that has the node
on its other side. `update` walks from a node with a trusted cache to
the node whose span contains an absolute position, as far up as it has
to and down again.

`seek` and the steps set the cache of the node they arrive at, and
`update` that of every node it passes. Every cache is derived from the
one before by adding and subtracting weights, so a walk that comes back
to a node would find the cache it left there and go in circles. This
happens only on weights that wrap. A walk is therefore given as many
moves as there are nodes: more are never of use.
-/
import SpanTree.Fault
import SpanTree.Tree.Cursor

namespace SpanTree

/-- From a subtree below a path down to the node whose own span contains an offset into the
subtree. Gives the node with the offset into the subtree that it tops. -/
def Tree.seekBelow (offset : Size) (path : Path) : Tree → Option (Cursor × Size)
  | .nil => none
  | .node n l r =>
    if offset < l.total then l.seekBelow offset (⟨.left, n, r⟩ :: path)
    else if !r.isNil && n.data.total - r.total ≤ offset then
      r.seekBelow (offset - (n.data.total - r.total)) (⟨.right, n, l⟩ :: path)
    else some (⟨n, l, r, path⟩, offset)

namespace Cursor

/-- The node of the subtree whose own span contains an offset, with its cache set from the
position that the offset stands for. -/
def seek (c : Cursor) (offset position : Size) : Cursor :=
  match c.subtree.seekBelow offset c.path with
  | some (found, rest) => found.withPosition (position - rest + found.left.total)
  | none => c

/-- The first linked ancestor that holds the way up on a side. -/
def turnFrom (s : Side) (t : Tree) (link : Link) : Path → Option Cursor
  | [] => none
  | b :: rest =>
    if link = .node b.holder.id then
      if b.side = s then ofTree? rest (b.attach t)
      else turnFrom s (b.attach t) b.holder.link rest
    else none

/-- The first linked ancestor below which this node lies on a side. -/
def turn? (s : Side) (c : Cursor) : Option Cursor := turnFrom s c.subtree c.node.link c.path

/-- The neighbour on a side in the order from left to right. -/
def adjacent? (s : Side) (c : Cursor) : Option Cursor :=
  match c.down? s with
  | some d => some (d.outermost s.other)
  | none => c.turn? s.other

/-- The next node; its cache continues from this one's. -/
def next? (c : Cursor) : Option Cursor :=
  (c.adjacent? .right).map (·.withPosition c.ending)

/-- The node before; its cache ends where this one's starts. -/
def prev? (c : Cursor) : Option Cursor :=
  (c.adjacent? .left).map fun p => p.withPosition (c.position - p.length)

/-- The nodes that single steps lead to from one on, with the node where they end. The fuel
bounds the number of steps. -/
def trail (step : Cursor → Option Cursor) : Nat → Cursor → List Span × Cursor
  | 0, c => ([c.node.span c.left c.right], c)
  | fuel + 1, c =>
    match step c with
    | none => ([c.node.span c.left c.right], c)
    | some d =>
      let (rest, last) := trail step fuel d
      (c.node.span c.left c.right :: rest, last)

/-- The spans from a node to the end on a side, by single steps that set the caches. No step
comes back to a node, so that there are fewer steps than nodes. -/
def walk (s : Side) (c : Cursor) : List Span × Cursor :=
  trail (s.pick prev? next?) c.toTree.size c

/-- The parent, with its cache derived from this node's. -/
def ascend? (c : Cursor) : Option Cursor :=
  match c.linkedSide?, c.parent? with
  | some .left, some p => some (p.withPosition (c.ending + c.right.total))
  | some .right, some p => some (p.withPosition (c.position - c.left.total - p.length))
  | _, _ => none

/-- A child, with its cache derived from this node's. -/
def descend? (c : Cursor) (s : Side) : Option Cursor :=
  (c.down? s).map fun d =>
    match s with
    | .left => d.withPosition (c.position - d.node.data.total + d.left.total)
    | .right => d.withPosition (c.ending + d.left.total)

/-- The refusal of a position, at the top of the walk. -/
def outside (c : Cursor) (position : Size) : Fault :=
  .range
    { operation := "interval::update"
      position
      first := c.position - c.left.total
      last := c.ending + c.right.total - 1 }

/-- Where a walk to a position goes from a node. -/
inductive Move where
  /-- The position is in the node's own span. -/
  | arrived
  /-- On to another node. -/
  | on (c : Cursor)
  /-- There is nowhere else to go. -/
  | refused (fault : Fault)

/-- One move of a walk to a position. -/
def moveTowards (c : Cursor) (position : Size) : Move :=
  let side? : Option (Option Side) :=
    if position < c.position then
      some (if c.position - c.left.total ≤ position then some .left else none)
    else if c.ending ≤ position then
      some (if position < c.ending + c.right.total then some .right else none)
    else none
  match side? with
  | none => .arrived
  | some (some s) =>
    match c.descend? s with
    | some d => .on d
    | none => .refused (.breach .absentChild)
  | some none =>
    match c.ascend? with
    | some p => .on p
    | none => .refused (c.outside position)

/-- The walk to a position, for a number of moves. Gives where it ends. -/
def updateLoop (position : Size) : Nat → Cursor → Cursor × Except Fault Unit
  | fuel, c =>
    match c.moveTowards position with
    | .arrived => (c, .ok ())
    | .refused f => (c, .error f)
    | .on d =>
      match fuel with
      | 0 => (c, .error (.breach .unending))
      | fuel + 1 => updateLoop position fuel d

/-- The walk from a node to the one whose own span contains a position. -/
def update (c : Cursor) (position : Size) : Cursor × Except Fault Unit :=
  updateLoop position c.toTree.size c

end Cursor

end SpanTree
