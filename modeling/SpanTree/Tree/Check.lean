/-
SpanTree.Tree.Check — the structural check.

A tree passes when every node owns characters and every child is linked
to the node that holds it; only the top may be linked to a text. The
walk keeps a stack of subtrees. Of the two children of a node both are
checked for their links at once, and the right one is taken up first,
which decides the check that is reported when several fail.

The comparison of a total with the totals below it is made on words. Two
totals below may wrap in their sum, and a node then passes or fails by
what is left of the sum.
-/
import SpanTree.Fault
import SpanTree.Tree.Basic

namespace SpanTree

namespace Tree

/-- The number of nodes and empty slots, which every step of the walk lowers on its stack. -/
def weight : Tree → Nat
  | .nil => 1
  | .node _ l r => l.weight + r.weight + 1

/-- Whether the link of the top names a node; a tree without nodes has no link to be wrong. -/
def linkedTo (holder : NodeId) : Tree → Bool
  | .nil => true
  | .node n _ _ => n.link = .node holder

/-- The checks at one node of a tree whose top has an identity. -/
def checkNode (top : NodeId) (n : Node) (l r : Tree) : Except Violation Unit :=
  if ¬ l.total + r.total < n.data.total then .error .emptyOwnRange
  else if n.id ≠ top ∧ n.link.owner?.isSome then .error .ownerBelowTop
  else if !l.linkedTo n.id then .error (.staleLink .left)
  else if !r.linkedTo n.id then .error (.staleLink .right)
  else .ok ()

/-- The weight of a stack of subtrees. -/
def stackWeight : List Tree → Nat
  | [] => 0
  | t :: rest => t.weight + stackWeight rest

/-- The checks over a stack of subtrees. -/
def checkStack (top : NodeId) : List Tree → Except Violation Unit
  | [] => .ok ()
  | .nil :: rest => checkStack top rest
  | .node n l r :: rest =>
    match checkNode top n l r with
    | .error v => .error v
    | .ok _ => checkStack top (r :: l :: rest)
termination_by stack => stackWeight stack
decreasing_by
  · simp only [stackWeight, weight]; omega
  · simp only [stackWeight, weight]; omega

/-- The structural check of a tree. -/
def check (t : Tree) : Except Violation Unit :=
  match t with
  | .nil => .ok ()
  | .node n _ _ => checkStack n.id [t]

end Tree

end SpanTree
