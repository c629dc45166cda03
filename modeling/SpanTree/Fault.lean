/-
SpanTree.Fault — the ways an operation on a tree can fail.

A `RangeFault` is an ordinary failure: the caller asked for a position
outside the tree. A `Violation` is a structural check that did not hold;
there is one constructor for each check, and `Violation.wording` gives
its text. An `Overlap` is a session the access tracker refused. A
`Breach` marks what no caller is promised anything about: a missing
child that corrupt weights send the balancing to, a walk that corrupt
weights send in circles, a node or a text that does not exist.
-/
import SpanTree.Access
import SpanTree.Side
import SpanTree.Size

namespace SpanTree

namespace Side

/-- The side in words. -/
def word : Side → String
  | .left => "left"
  | .right => "right"

/-- The name of the rotation that raises the child on this side. -/
def rotation : Side → String
  | .left => "rotate_right"
  | .right => "rotate_left"

/-- The name of the interval that has no neighbour on this side. -/
def outermost : Side → String
  | .left => "first"
  | .right => "last"

end Side

/-- A position outside the accepted range, in the caller's coordinates. -/
structure RangeFault where
  /-- The operation that refused the position. -/
  operation : String
  /-- The refused position. -/
  position : Size
  /-- The first accepted position. -/
  first : Size
  /-- The last accepted position. -/
  last : Size
deriving DecidableEq, Repr

/-- The text of a range fault. -/
def RangeFault.message (f : RangeFault) : String :=
  f.operation ++ ": position " ++ toString f.position.toNat ++ " outside [" ++
    toString f.first.toNat ++ ", " ++ toString f.last.toNat ++ "]"

/-- A structural check that did not hold. -/
inductive Violation where
  /-- A text that has a tree was to get its first one. -/
  | treePresent
  /-- A text without characters was to get a tree. -/
  | textEmpty
  /-- A rotation needs a child on the side it raises. -/
  | noChild (raised : Side)
  /-- A rotation needs a node that owns characters. -/
  | emptyInterval (raised : Side)
  /-- A rotation needs a child that owns characters. -/
  | emptyChild (raised : Side)
  /-- A rotation left one of its two nodes without characters. -/
  | lengthsDiverged (raised : Side)
  /-- Balancing was asked of an empty slot. -/
  | balanceEmptySlot
  /-- Balancing was asked of a node that owns no characters. -/
  | balanceEmptyInterval
  /-- Balancing used more rotations at one slot than its weight allows. -/
  | noFixpoint
  /-- The text named by the link of a node to be balanced has another root. -/
  | balanceForeignRoot
  /-- A split offset was not strictly inside the interval. -/
  | offsetOutside (pieceSide : Side)
  /-- A node to be removed has neither a parent nor a text. -/
  | removeUnlinked
  /-- A merge has no neighbour on its side. -/
  | noNeighbour (towards : Side)
  /-- A node to be unlinked still owns characters. -/
  | removeOwnsSpan
  /-- The text named by the link of a node to be unlinked has another root. -/
  | removeForeignRoot
  /-- A node owns no characters. -/
  | emptyOwnRange
  /-- A node below the top of a tree is linked to a text. -/
  | ownerBelowTop
  /-- A child is not linked to the node that holds it. -/
  | staleLink (child : Side)
  /-- The root of a text is not linked to it. -/
  | rootUnlinked
  /-- The weight of a tree is not the length of its text. -/
  | textUncovered
  /-- A check whose text the caller gave. -/
  | stated (text : String)
deriving DecidableEq, Repr

namespace Violation

/-- The text of a check. -/
def wording : Violation → String
  | .treePresent => "create_root: container already has intervals"
  | .textEmpty => "create_root: container is empty"
  | .noChild s => s.rotation ++ ": no " ++ s.word ++ " child"
  | .emptyInterval s => s.rotation ++ ": empty interval"
  | .emptyChild s => s.rotation ++ ": empty " ++ s.word ++ " child"
  | .lengthsDiverged s => s.rotation ++ ": lengths diverged"
  | .balanceEmptySlot => "balance: empty slot"
  | .balanceEmptyInterval => "balance: empty interval"
  | .noFixpoint => "balance: no fixpoint reached"
  | .balanceForeignRoot => "balance_possible_root: container holds another root"
  | .offsetOutside s => "split_" ++ s.word ++ ": offset outside the interval"
  | .removeUnlinked => "remove: interval is not part of a tree"
  | .noNeighbour s => "merge_" ++ s.word ++ ": " ++ s.outermost ++ " interval"
  | .removeOwnsSpan => "remove: interval still owns a span"
  | .removeForeignRoot => "remove: container holds another root"
  | .emptyOwnRange => "interval with an empty own range"
  | .ownerBelowTop => "container link below the root"
  | .staleLink s => "stale back-reference in " ++ s.word ++ " child"
  | .rootUnlinked => "root is not linked to its container"
  | .textUncovered => "tree does not cover the text"
  | .stated text => text

/-- The text of a violation. -/
def message (v : Violation) : String := "ivl: violated invariant: " ++ v.wording

end Violation

/-- What lies outside every promise of the library. -/
inductive Breach where
  /-- Weights that wrapped asked for a rotation of a child that is absent. -/
  | absentChild
  /-- A walk came back to a node it had left. -/
  | unending
  /-- No tree holds the node. -/
  | lostNode
  /-- There is no such text. -/
  | lostText
deriving DecidableEq, Repr

/-- The breach in words. -/
def Breach.message : Breach → String
  | .absentChild => "a rotation needs a child that is absent"
  | .unending => "the walk does not end"
  | .lostNode => "no tree holds the node"
  | .lostText => "there is no such text"

/-- A failure of an operation. -/
inductive Fault where
  | range (fault : RangeFault)
  | violation (violation : Violation)
  | overlap (overlap : Overlap)
  | breach (breach : Breach)
deriving DecidableEq, Repr

end SpanTree
