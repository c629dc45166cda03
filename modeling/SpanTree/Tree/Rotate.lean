/-
SpanTree.Tree.Rotate — the two kinds of rotation.

    A              B
   / \            / \
  B   e   <=>    a   A
 / \                / \
a   c              c   e

A rotation raises the child on one side. Both kinds start from the same
checks and the same `Pivot`. An owned rotation moves nodes: the child
becomes the top and inherits its link. A rotation in place moves
payloads: the top stays where it is and exchanges its payload with the
child, so that nothing above it has to change. Of the payloads both make
the same tree.

An owned rotation consumes its tree. When it fails, nothing is left of
it. A rotation in place keeps what it did before the last check.
-/
import SpanTree.Fault
import SpanTree.Tree.Basic

namespace SpanTree

namespace Tree

/-- The pieces of a rotation that raises the child on a side. -/
structure Pivot where
  /-- The node at the top. -/
  upper : Node
  /-- Its child on the raised side. -/
  lower : Node
  /-- The subtree of the child on the raised side. -/
  outer : Tree
  /-- The subtree of the child that changes its holder. -/
  inner : Tree
  /-- The subtree of the top on the side that sinks. -/
  far : Tree

/-- The pieces of a rotation, once its checks hold. -/
def pivot (s : Side) : Tree → Except Violation Pivot
  | .nil => .error (.noChild s)
  | .node a l r =>
    match s.pick l r with
    | .nil => .error (.noChild s)
    | .node b bl br =>
      if ¬ (0 < a.data.total ∧ 0 < a.length l r) then .error (.emptyInterval s)
      else if ¬ 0 < b.length bl br then .error (.emptyChild s)
      else .ok ⟨a, b, s.pick bl br, s.pick br bl, s.pick r l⟩

namespace Pivot

/-- The length of the own span of the top. -/
def ownLength (p : Pivot) : Size :=
  p.upper.data.total - p.lower.data.total - p.far.total

/-- The tree of an owned rotation: nodes move, payloads stay with them. -/
def raised (s : Side) (p : Pivot) : Tree :=
  let sunk := p.upper.withTotal
    (p.upper.data.total - (p.lower.data.total - p.inner.total))
  let top := p.lower.withTotal p.upper.data.total
  join s (top.withLink p.upper.link) p.outer
    (join s (sunk.withLink (.node p.lower.id)) (p.inner.setLink (.node p.upper.id)) p.far)

/-- The tree of a rotation in place: nodes stay, payloads move. -/
def exchanged (s : Side) (p : Pivot) : Tree :=
  let sunk := { p.lower with data := p.upper.data }.withTotal
    (p.ownLength + p.inner.total + p.far.total)
  let top := { p.upper with data := p.lower.data }.withTotal p.upper.data.total
  join s top (p.outer.setLink (.node p.upper.id))
    (join s sunk p.inner (p.far.setLink (.node p.lower.id)))

end Pivot

/-- Whether the top and its child on a side both own characters. -/
def bothOwn (s : Side) (t : Tree) : Bool := 0 < t.length && 0 < (t.child s).length

/-- Raises the child on a side by moving nodes. -/
def rotateOwned (s : Side) (t : Tree) : Except Violation Tree :=
  match t.pivot s with
  | .error v => .error v
  | .ok p =>
    let u := p.raised s
    if u.bothOwn s.other then .ok u else .error (.lengthsDiverged s)

/-- Raises the child on a side by exchanging payloads; gives the tree there is afterwards. -/
def rotateInPlace (s : Side) (t : Tree) : Tree × Except Violation Unit :=
  match t.pivot s with
  | .error v => (t, .error v)
  | .ok p =>
    let u := p.exchanged s
    if u.bothOwn s.other then (u, .ok ()) else (u, .error (.lengthsDiverged s))

/-- The pieces of a rotation are all there is. -/
theorem size_of_pivot {s : Side} {t : Tree} {p : Pivot} (h : t.pivot s = .ok p) :
    t.size = p.outer.size + p.inner.size + p.far.size + 2 := by
  cases t with
  | nil => simp [pivot] at h
  | node a l r =>
    cases s
    · cases l with
      | nil => simp [pivot] at h
      | node b bl br =>
        simp only [pivot, Side.pick_left] at h
        split at h <;> try simp at h
        split at h <;> simp at h
        subst h
        simp [size]; omega
    · cases r with
      | nil => simp [pivot] at h
      | node b bl br =>
        simp only [pivot, Side.pick_right] at h
        split at h <;> try simp at h
        split at h <;> simp at h
        subst h
        simp [size]; omega

/-- An owned rotation keeps the number of nodes. -/
theorem size_of_rotateOwned {s : Side} {t u : Tree} (h : t.rotateOwned s = .ok u) :
    u.size = t.size := by
  unfold rotateOwned at h
  split at h
  · simp at h
  · next p hp =>
    simp only at h
    split at h
    · simp only [Except.ok.injEq] at h
      rw [size_of_pivot hp, ← h]
      simp [Pivot.raised]; omega
    · simp at h

/-- A rotated tree has a node. -/
theorem isNil_of_rotateOwned {s : Side} {t u : Tree} (h : t.rotateOwned s = .ok u) :
    u.isNil = false := by
  unfold rotateOwned at h
  split at h
  · simp at h
  · simp only at h
    split at h
    · simp only [Except.ok.injEq] at h
      subst h
      cases s <;> simp [Pivot.raised, join, isNil]
    · simp at h

end Tree

end SpanTree
