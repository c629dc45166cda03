/-
SpanTree.Tree.Basic — trees of weighted nodes.

Each node owns a span of characters and everything in its two subtrees.
Only the cumulative weight is stored, the `total`; the length of the own
span is what the totals of the children leave of it. Read from left to
right the spans cover the text without gaps, and `Tree.spans` is this
reading: it is what a tree says about its text, whatever its shape.

A node carries its identity and a link to what holds it: nothing, a
node, or a text. A tree owns its nodes; a link is only a name, and the
types do not tie it to the place of the node. Nor do they tie a total to
the totals below it. Consistent trees are singled out by the checks of
`SpanTree.Tree.Check`, and every operation is defined on the others too.

The position of a node is a cache of the absolute start of its own span.
No operation orders nodes by it.
-/
import SpanTree.Side
import SpanTree.Size
import SpanTree.Table

namespace SpanTree

/-- The identity of a node. No two nodes ever made have the same one. -/
abbrev NodeId := Nat

/-- The number of a text, in the order in which the texts were made. -/
abbrev TextId := Nat

/-- What a node names as its holder. -/
inductive Link where
  /-- Nothing. -/
  | unset
  /-- The node that has it as a child. -/
  | node (holder : NodeId)
  /-- The text that has it as its root. -/
  | owner (text : TextId)
deriving DecidableEq, Repr

namespace Link

/-- The node named by a link. -/
def holder? : Link → Option NodeId
  | .node holder => some holder
  | _ => none

/-- The text named by a link. -/
def owner? : Link → Option TextId
  | .owner text => some text
  | _ => none

end Link

/-- The four marks of a span of characters. -/
structure Flags where
  writeProtect : Bool := false
  visible : Bool := false
  frontSticky : Bool := false
  rearSticky : Bool := false
deriving DecidableEq, Repr

/-- What a node carries apart from its identity, its link and its children. -/
structure Payload where
  /-- The weight of the whole subtree. -/
  total : Size := 0
  /-- The cached absolute start of the own span. -/
  position : Size := 0
  flags : Flags := {}
  plist : PropertyList := {}
deriving DecidableEq, Repr

/-- A node without its children. -/
structure Node where
  id : NodeId
  link : Link := .unset
  data : Payload := {}
deriving DecidableEq, Repr

namespace Node

/-- A new node of a given weight. -/
def fresh (id : NodeId) (total : Size) : Node := { id, data := { total } }

/-- The node with another link. -/
def withLink (n : Node) (link : Link) : Node := { n with link }

/-- The node with another weight. -/
def withTotal (n : Node) (total : Size) : Node := { n with data := { n.data with total } }

/-- The node with another cached position. -/
def withPosition (n : Node) (position : Size) : Node :=
  { n with data := { n.data with position } }

end Node

/-- A tree of nodes, or the content of a slot that holds none. -/
inductive Tree where
  | nil
  | node (head : Node) (left right : Tree)
deriving Repr

namespace Tree

/-- The weight of a tree. -/
def total : Tree → Size
  | .nil => 0
  | .node n _ _ => n.data.total

/-- The node at the top. -/
def head? : Tree → Option Node
  | .nil => none
  | .node n _ _ => some n

/-- The identity of the node at the top. -/
def id? (t : Tree) : Option NodeId := t.head?.map (·.id)

/-- Whether there is no node. -/
def isNil : Tree → Bool
  | .nil => true
  | .node _ _ _ => false

/-- The subtree on a side. -/
def child (s : Side) : Tree → Tree
  | .nil => .nil
  | .node _ l r => s.pick l r

/-- The tree with another subtree on a side. The links stay as they are. -/
def setChild (t : Tree) (s : Side) (c : Tree) : Tree :=
  match t with
  | .nil => .nil
  | .node n l r =>
    match s with
    | .left => .node n c r
    | .right => .node n l c

/-- A node over two subtrees, the first of which stands on the given side. -/
def join (s : Side) (n : Node) (near far : Tree) : Tree :=
  match s with
  | .left => .node n near far
  | .right => .node n far near

/-- The tree with another link at its top. -/
def setLink (link : Link) : Tree → Tree
  | .nil => .nil
  | .node n l r => .node (n.withLink link) l r

/-- The number of nodes. -/
def size : Tree → Nat
  | .nil => 0
  | .node _ l r => l.size + r.size + 1

/-- The number of levels. -/
def height : Tree → Nat
  | .nil => 0
  | .node _ l r => max l.height r.height + 1

/-- A function of the nodes accumulated over the tree, each node before its subtrees. -/
def foldPre {α : Type} (f : α → Node → α) (a : α) : Tree → α
  | .nil => a
  | .node n l r => r.foldPre f (l.foldPre f (f a n))

/-- The nodes on the way from the top to the outermost one on a side, top first. -/
def spine (s : Side) : Tree → List NodeId
  | .nil => []
  | .node n l r =>
    match s with
    | .left => n.id :: l.spine .left
    | .right => n.id :: r.spine .right

@[simp] theorem size_setLink (link : Link) (t : Tree) : (t.setLink link).size = t.size := by
  cases t <;> rfl

@[simp] theorem size_join (s : Side) (n : Node) (near far : Tree) :
    (join s n near far).size = near.size + far.size + 1 := by
  cases s <;> simp [join, size, Nat.add_comm]

/-- A subtree of a tree that has a node is smaller than the tree. -/
theorem size_child_lt (s : Side) {t : Tree} (h : t.isNil = false) : (t.child s).size < t.size := by
  cases t with
  | nil => simp [isNil] at h
  | node n l r =>
    cases s with
    | left => exact Nat.lt_succ_of_le (Nat.le_add_right _ _)
    | right => exact Nat.lt_succ_of_le (Nat.le_add_left _ _)

/-- Putting back the subtree on a side changes nothing. -/
theorem setChild_child (s : Side) (t : Tree) : t.setChild s (t.child s) = t := by
  cases t with
  | nil => rfl
  | node n l r => cases s <;> rfl

/-- Replacing a subtree by one that is no larger makes no tree larger. -/
theorem size_setChild_le {s : Side} {t c : Tree} (h : c.size ≤ (t.child s).size) :
    (t.setChild s c).size ≤ t.size := by
  cases t with
  | nil => simp [setChild]
  | node n l r => cases s <;> simp_all [setChild, child, size]

end Tree

/-- The length of the own span of a node over its two subtrees. -/
def Node.length (n : Node) (l r : Tree) : Size := n.data.total - l.total - r.total

/-- A span of characters: the node that owns it, and what it says about it. -/
structure Span where
  id : NodeId
  length : Size
  position : Size
  flags : Flags
  plist : PropertyList
deriving DecidableEq, Repr

/-- The own span of a node over its two subtrees. -/
def Node.span (n : Node) (l r : Tree) : Span :=
  ⟨n.id, n.length l r, n.data.position, n.data.flags, n.data.plist⟩

namespace Tree

/-- The length of the own span of the node at the top. -/
def length : Tree → Size
  | .nil => 0
  | .node n l r => n.length l r

/-- The own span of the node at the top. -/
def span? : Tree → Option Span
  | .nil => none
  | .node n l r => some (n.span l r)

/-- The subtree that the node with an identity tops. -/
def subtree? (id : NodeId) : Tree → Option Tree
  | .nil => none
  | .node n l r =>
    if n.id = id then some (.node n l r)
    else
      match l.subtree? id with
      | some t => some t
      | none => r.subtree? id

/-- The spans from left to right. -/
def spans : Tree → List Span
  | .nil => []
  | .node n l r => l.spans ++ n.span l r :: r.spans

@[simp] theorem total_setLink (link : Link) (t : Tree) : (t.setLink link).total = t.total := by
  cases t <;> rfl

/-- The links say nothing about the text. -/
@[simp] theorem spans_setLink (link : Link) (t : Tree) : (t.setLink link).spans = t.spans := by
  cases t <;> rfl

/-- There is one span for each node. -/
theorem length_spans (t : Tree) : t.spans.length = t.size := by
  induction t with
  | nil => rfl
  | node n l r ihl ihr => simp [spans, size, ihl, ihr]; omega

end Tree

end SpanTree
