/-
SpanTree.Tree.Cursor — one node of a tree, with the way back to the top.

A `Crumb` is one step of the way: the node above, the side the way goes
down on, and the subtree on the other side. A `Path` lists the crumbs
from the lowest to the top, and `Path.plug` closes a tree over a
subtree. A `Cursor` looks at a node: it holds the node, its subtrees and
its path, and `Cursor.toTree` is the whole tree again.

A node reaches its parent through its link. `Cursor.parent?` follows the
link, so it climbs only where the link names the node that really holds
the child. A way that is cut by a link to nothing, or to a text, ends
there.
-/
import SpanTree.Tree.Basic

namespace SpanTree

/-- One step of the way from a subtree to the top. -/
structure Crumb where
  /-- The side on which the subtree hangs. -/
  side : Side
  /-- The node that holds the subtree. -/
  holder : Node
  /-- The subtree on the other side. -/
  sibling : Tree

/-- The tree over a subtree that takes the place of the crumb. -/
def Crumb.attach (c : Crumb) (t : Tree) : Tree := Tree.join c.side c.holder t c.sibling

/-- The way from a subtree to the top, lowest step first. -/
abbrev Path := List Crumb

/-- The whole tree over a subtree. -/
def Path.plug : Path → Tree → Tree
  | [], t => t
  | c :: rest, t => Path.plug rest (c.attach t)

/-- A node of a tree. -/
structure Cursor where
  node : Node
  left : Tree
  right : Tree
  path : Path := []

namespace Cursor

/-- The subtree below the node, with the node. -/
def subtree (c : Cursor) : Tree := .node c.node c.left c.right

/-- The whole tree. -/
def toTree (c : Cursor) : Tree := Path.plug c.path c.subtree

/-- The subtree on a side. -/
def child (c : Cursor) (s : Side) : Tree := s.pick c.left c.right

/-- The length of the own span. -/
def length (c : Cursor) : Size := c.node.length c.left c.right

/-- The cached absolute start of the own span. -/
def position (c : Cursor) : Size := c.node.data.position

/-- The end of the own span, by the cache. -/
def ending (c : Cursor) : Size := c.position + c.length

/-- The node with its payload changed. -/
def mapData (c : Cursor) (f : Payload → Payload) : Cursor :=
  { c with node := { c.node with data := f c.node.data } }

/-- The node with another cached position. -/
def withPosition (c : Cursor) (position : Size) : Cursor :=
  { c with node := c.node.withPosition position }

/-- The subtree on a side exchanged for another. -/
def withChild (c : Cursor) (s : Side) (t : Tree) : Cursor :=
  match s with
  | .left => { c with left := t }
  | .right => { c with right := t }

/-- The cursor at the top of a tree below a path. -/
def ofTree? (path : Path) : Tree → Option Cursor
  | .nil => none
  | .node n l r => some { node := n, left := l, right := r, path }

/-- The crumb of the way down to the child on a side. -/
def crumb (c : Cursor) (s : Side) : Crumb := ⟨s, c.node, s.pick c.right c.left⟩

/-- The child on a side. -/
def down? (c : Cursor) (s : Side) : Option Cursor := ofTree? (c.crumb s :: c.path) (c.child s)

/-- The node that holds this one, whatever the links say. -/
def up? (c : Cursor) : Option Cursor :=
  match c.path with
  | [] => none
  | b :: rest =>
    some
      { node := b.holder
        left := b.side.pick c.subtree b.sibling
        right := b.side.pick b.sibling c.subtree
        path := rest }

/-- The side on which the linked parent holds this node. -/
def linkedSide? (c : Cursor) : Option Side :=
  match c.path with
  | [] => none
  | b :: _ => if c.node.link = .node b.holder.id then some b.side else none

/-- The node that the link names. -/
def parent? (c : Cursor) : Option Cursor :=
  match c.linkedSide? with
  | some _ => c.up?
  | none => none

/-- Whether the link names a node. -/
def hasParent (c : Cursor) : Bool := c.node.link.holder?.isSome

/-- Whether the link names a text. -/
def isRoot (c : Cursor) : Bool := c.node.link.owner?.isSome

/-- Whether there is a child. -/
def hasChildren (c : Cursor) : Bool := !c.left.isNil || !c.right.isNil

/-- Neither a linked parent nor children. -/
def isOnly (c : Cursor) : Bool := !c.hasParent && !c.hasChildren

/-- Without properties. -/
def isDefault (c : Cursor) : Bool := c.node.data.plist.isEmpty

end Cursor

/-- The outermost node on a side of a subtree below a path. -/
def Tree.outermostBelow (s : Side) (path : Path) : Tree → Option Cursor
  | .nil => none
  | .node n l r =>
    match s with
    | .left => some ((l.outermostBelow .left (⟨.left, n, r⟩ :: path)).getD ⟨n, l, r, path⟩)
    | .right => some ((r.outermostBelow .right (⟨.right, n, l⟩ :: path)).getD ⟨n, l, r, path⟩)

/-- The outermost node on a side of the subtree below a node. -/
def Cursor.outermost (s : Side) (c : Cursor) : Cursor :=
  (c.subtree.outermostBelow s c.path).getD c

/-- The sides on which the way down to the node with an identity goes. The node nearest to the
top is found first, and what is on the left before what is on the right. -/
def Tree.wayTo? (id : NodeId) : Tree → Option (List Side)
  | .nil => none
  | .node n l r =>
    if n.id = id then some []
    else
      match l.wayTo? id with
      | some way => some (.left :: way)
      | none => (r.wayTo? id).map (.right :: ·)

/-- The cursor that a way down leads to, in a subtree below a path. -/
def Tree.descend? (path : Path) : List Side → Tree → Option Cursor
  | [], t => Cursor.ofTree? path t
  | _ :: _, .nil => none
  | s :: way, .node n l r => (s.pick l r).descend? (⟨s, n, s.pick r l⟩ :: path) way

/-- The cursor at the node with an identity. -/
def Tree.locate? (t : Tree) (id : NodeId) : Option Cursor := do t.descend? [] (← t.wayTo? id)

/-- Whether a tree has the node. -/
def Tree.hasNode (t : Tree) (id : NodeId) : Bool := (t.subtree? id).isSome

end SpanTree
