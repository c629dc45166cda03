/-
SpanTree.Tree.Balance — rotating towards even weights.

`balanceSelf` works at one slot. While the two subtrees differ in weight
and raising the heavier child brings them strictly closer, it raises
that child and balances the node that sank. `settle` is its loop: it
takes the number of rotations that are still allowed at this slot, which
`balanceSelf` sets to the weight of the tree.

A failed rotation destroys the subtree it was given, so a failure comes
with the tree that is left. `settle` calls itself on a subtree of a
rotated tree, or on a tree with no more nodes and one rotation fewer;
`settle_eq` is its equation without the bookkeeping this needs.

`balanceAll` balances every slot of a tree, those below before those
above. `SpanTree.Tree.WorkList` does the same with a list of pending
slots.
-/
import SpanTree.Tree.Rotate

namespace SpanTree

namespace Tree

/-- What a balancing leaves of its tree, and the number of rotations or the failure. -/
abbrev Balanced := Tree × Except Fault Nat

/-- The weight on the left less the weight on the right, as signed numbers. -/
def tilt : Tree → Int
  | .nil => 0
  | .node _ l r => signed l.total - signed r.total

/-- The side of the heavier subtree, if the weights differ. -/
def heavySide (t : Tree) : Option Side :=
  if t.tilt = 0 then none else if 0 < t.tilt then some .left else some .right

/-- The weight difference, up to its sign, once the child on a side is raised. -/
def raisedTilt? (s : Side) : Tree → Option Int
  | .nil => none
  | .node n l r =>
    match s.pick l r with
    | .nil => none
    | .node b bl br =>
      some (signed n.data.total - signed b.data.total +
        signed (s.pick br bl).total - signed (s.pick bl br).total)

/-- The checks before a balancing. -/
def balanceCheck (t : Tree) : Except Fault Unit :=
  if t.isNil then .error (.violation .balanceEmptySlot)
  else if t.length = 0 then .error (.violation .balanceEmptyInterval)
  else .ok ()

/-- What a look at the weights of a slot leads to. -/
inductive Improvement where
  /-- No rotation brings the weights closer. -/
  | none
  /-- The rotation cannot be made; the tree is what it leaves. -/
  | failed (left : Tree) (fault : Fault)
  /-- The child on a side was raised. -/
  | raised (s : Side) (t : Tree)

/-- Raises the heavier child if that brings the weights strictly closer. -/
def improve (t : Tree) : Improvement :=
  match t.heavySide with
  | .none => .none
  | some s =>
    match t.raisedTilt? s with
    | .none => .failed t (.breach .absentChild)
    | some tilt =>
      if tilt.natAbs < t.tilt.natAbs then
        match t.rotateOwned s with
        | .error v => .failed .nil (.violation v)
        | .ok u => .raised s u
      else .none

/-- An improvement is an owned rotation. -/
theorem rotateOwned_of_improve {t u : Tree} {s : Side} (h : t.improve = .raised s u) :
    t.rotateOwned s = .ok u := by
  unfold improve at h
  split at h
  · simp at h
  · split at h
    · simp at h
    · split at h
      · split at h
        · simp at h
        · next hr => simp_all
      · simp at h

/-- A failed improvement leaves no more nodes than there were. -/
theorem size_of_improve_failed {t left : Tree} {f : Fault} (h : t.improve = .failed left f) :
    left.size ≤ t.size := by
  unfold improve at h
  split at h
  · simp at h
  · split at h
    · simp_all
    · split at h
      · split at h
        · simp only [Improvement.failed.injEq] at h
          rw [← h.1]
          exact Nat.zero_le _
        · simp at h
      · simp at h

/-- Rotates at the slot of a tree while that brings the weights of the top
strictly closer, for at most the given number of rotations there. -/
def settle (steps : Nat) (t : Tree) : { r : Balanced // r.1.size ≤ t.size } :=
  if t.tilt = 0 then ⟨(t, .ok 0), Nat.le_refl _⟩
  else
    match steps with
    | 0 => ⟨(t, .error (.violation .noFixpoint)), Nat.le_refl _⟩
    | rest + 1 =>
      match h : t.improve with
      | .none => ⟨(t, .ok 0), Nat.le_refl _⟩
      | .failed left f => ⟨(left, .error f), size_of_improve_failed h⟩
      | .raised s u =>
        have hr : t.rotateOwned s = .ok u := rotateOwned_of_improve h
        have hu : u.size = t.size := size_of_rotateOwned hr
        match (u.child s.other).balanceCheck with
        | .error f => ⟨(u, .error f), Nat.le_of_eq hu⟩
        | .ok _ =>
          let below := settle (u.child s.other).total.toNat (u.child s.other)
          let v := u.setChild s.other below.1.1
          have hv : v.size ≤ t.size := hu ▸ size_setChild_le below.2
          match below.1.2 with
          | .error f => ⟨(v, .error f), hv⟩
          | .ok more =>
            let last := settle rest v
            ⟨(last.1.1, last.1.2.map (1 + more + ·)), Nat.le_trans last.2 hv⟩
termination_by (t.size, steps)
decreasing_by
  · exact Prod.Lex.left _ _ (hu ▸ size_child_lt s.other (isNil_of_rotateOwned hr))
  · rcases Nat.lt_or_eq_of_le hv with hlt | heq
    · exact Prod.Lex.left _ _ hlt
    · rw [heq]
      exact Prod.Lex.right _ (Nat.lt_succ_self rest)

/-- Rotates at the slot of a tree until no rotation there brings the weights
of the top closer. Only the node at the top is checked first. -/
def balanceSelf (t : Tree) : Balanced :=
  match t.balanceCheck with
  | .error f => (t, .error f)
  | .ok _ => (settle t.total.toNat t).1

/-- The loop of `balanceSelf` in terms of `balanceSelf` itself. -/
theorem settle_eq (steps : Nat) (t : Tree) :
    (settle steps t).1 =
      if t.tilt = 0 then (t, .ok 0)
      else
        match steps with
        | 0 => (t, .error (.violation .noFixpoint))
        | rest + 1 =>
          match t.improve with
          | .none => (t, .ok 0)
          | .failed left f => (left, .error f)
          | .raised s u =>
            let below := (u.child s.other).balanceSelf
            let v := u.setChild s.other below.1
            match below.2 with
            | .error f => (v, .error f)
            | .ok more =>
              let last := (settle rest v).1
              (last.1, last.2.map (1 + more + ·)) := by
  rw [settle.eq_def]
  split
  · rfl
  · cases steps with
    | zero => rfl
    | succ rest =>
      simp only
      split
      · next h => simp [h]
      · next h => simp [h]
      · next s u h =>
        simp only [h, balanceSelf]
        cases hc : (u.child s.other).balanceCheck with
        | error f => simp only [setChild_child]
        | ok _ =>
          simp only
          cases hb : (settle (u.child s.other).total.toNat (u.child s.other)).1.2 with
          | error f => rfl
          | ok more => rfl

/-- Balances every slot of a tree: the left subtree, the right subtree, the top. -/
def balanceAll : Tree → Balanced
  | .nil => (.nil, .ok 0)
  | .node n l r =>
    match l.balanceAll with
    | (l', .error f) => (.node n l' r, .error f)
    | (l', .ok a) =>
      match r.balanceAll with
      | (r', .error f) => (.node n l' r', .error f)
      | (r', .ok b) =>
        match (Tree.node n l' r').balanceSelf with
        | (t, .error f) => (t, .error f)
        | (t, .ok c) => (t, .ok (a + b + c))

end Tree

end SpanTree
