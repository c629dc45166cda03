/-
SpanTree.Side — the two sides of a binary tree.

Every operation that comes in a left and a right version is written
once, for a side. The operations that move towards a side, such as a
merge into the left neighbour, take that side; the other version is the
same definition at `Side.other`.
-/

namespace SpanTree

/-- A side of a node. -/
inductive Side where
  | left
  | right
deriving DecidableEq, Repr

namespace Side

/-- The opposite side. -/
def other : Side → Side
  | .left => .right
  | .right => .left

/-- The member of a pair that stands on this side. -/
def pick {α : Type} (s : Side) (l r : α) : α :=
  match s with
  | .left => l
  | .right => r

@[simp] theorem other_other (s : Side) : s.other.other = s := by
  cases s <;> rfl

@[simp] theorem pick_left {α : Type} (l r : α) : Side.left.pick l r = l := rfl

@[simp] theorem pick_right {α : Type} (l r : α) : Side.right.pick l r = r := rfl

end Side

end SpanTree
