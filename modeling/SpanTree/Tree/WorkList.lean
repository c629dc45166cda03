/-
SpanTree.Tree.WorkList — balancing a whole tree from a list of pending
slots.

A `Slot` is a place that holds a tree: the top, or a side of a node. The
walk keeps a list of pending slots and takes them from its front. A slot
met for the first time is put back with its children's slots before it;
met again, it is balanced. What a slot holds changes only when the slot
itself is balanced, after everything below it.

The tree under work is a `Spot`, a subtree with its path. To take up a
pending slot the walk climbs from its spot to the node the slot names,
which costs a few steps because consecutive slots lie close together.
-/
import SpanTree.Tree.Balance
import SpanTree.Tree.Cursor

namespace SpanTree

/-- A place that holds a tree. -/
inductive Slot where
  /-- The place of the whole tree. -/
  | top
  /-- A side of a node. -/
  | child (holder : NodeId) (side : Side)
deriving DecidableEq, Repr

/-- A subtree and the way from it to the top. -/
structure Spot where
  tree : Tree
  path : Path := []

namespace Spot

/-- The whole tree. -/
def toTree (p : Spot) : Tree := Path.plug p.path p.tree

/-- From a subtree up to the node with an identity. -/
def climbFrom (id : NodeId) (t : Tree) : Path → Option Spot
  | [] => if t.id? = some id then some ⟨t, []⟩ else none
  | c :: rest => if t.id? = some id then some ⟨t, c :: rest⟩ else climbFrom id (c.attach t) rest

/-- The subtree on a side of the top of a spot. -/
def down? (p : Spot) (s : Side) : Option Spot :=
  match p.tree with
  | .nil => none
  | .node n l r => some ⟨s.pick l r, ⟨s, n, s.pick r l⟩ :: p.path⟩

/-- The content of a slot of the tree, for a slot at the spot or on the way up. -/
def visit? (p : Spot) : Slot → Option Spot
  | .top => some ⟨p.toTree, []⟩
  | .child holder side => (climbFrom holder p.tree p.path).bind (·.down? side)

end Spot

/-- An entry of the work list. -/
structure Pending where
  slot : Slot
  /-- Whether the slots below have been balanced. -/
  childrenDone : Bool := false
deriving DecidableEq, Repr

namespace Pending

/-- The entries a slot that holds a tree leads to, in the order they are taken up. -/
def expand (slot : Slot) : Tree → List Pending
  | .nil => [⟨slot, true⟩]
  | .node n l r =>
    (if l.isNil then [] else [⟨.child n.id .left, false⟩]) ++
      (if r.isNil then [] else [⟨.child n.id .right, false⟩]) ++ [⟨slot, true⟩]

end Pending

/-- The state of a walk over a work list. -/
structure Walk where
  /-- The pending slots, the next one first. -/
  work : List Pending
  /-- Where the walk stands in the tree. -/
  spot : Spot
  /-- The rotations made so far. -/
  rotations : Nat := 0

namespace Walk

/-- The start of a walk over all slots of a tree. -/
def start (t : Tree) : Walk := { work := [⟨.top, false⟩], spot := ⟨t, []⟩ }

/-- Takes up an entry. A failure comes with the tree that it leaves. -/
def take (w : Walk) (entry : Pending) (rest : List Pending) : Except (Tree × Fault) Walk :=
  match w.spot.visit? entry.slot with
  | none => .error (w.spot.toTree, .breach .lostNode)
  | some here =>
    if entry.childrenDone then
      match here.tree.balanceSelf with
      | (t, .error f) => .error (Path.plug here.path t, f)
      | (t, .ok more) =>
        .ok { work := rest, spot := ⟨t, here.path⟩, rotations := w.rotations + more }
    else .ok { w with work := Pending.expand entry.slot here.tree ++ rest, spot := here }

/-- Takes up entries until none is left. The fuel bounds their number. -/
def run : Nat → Walk → Tree.Balanced
  | fuel, w =>
    match w.work with
    | [] => (w.spot.toTree, .ok w.rotations)
    | entry :: rest =>
      match fuel with
      | 0 => (w.spot.toTree, .error (.breach .unending))
      | fuel + 1 =>
        match w.take entry rest with
        | .error (t, f) => (t, .error f)
        | .ok next => run fuel next

end Walk

/-- Balances every slot of a tree, children before parents. Each slot is taken up twice, and
there are as many slots with a tree as there are nodes. -/
def Tree.balance (t : Tree) : Balanced :=
  if t.isNil then (t, .ok 0) else (Walk.start t).run (2 * t.size)

end SpanTree
