/-
SpanTree.Proofs.Neighbours — steps to the left and to the right.

`Cursor.Precedes` is the relation of a node to the next one from left to
right: they look at the same tree, and the cut of the second comes one
span later. `next` and `prev` find exactly this neighbour: a step down
goes to the outermost node of a subtree, a step up follows the links to
the first ancestor that has the way up on its other side. On a linked
tree every link names the node that holds the child, so that the way up
ends only at the top.
-/
import SpanTree.Tree.Navigate
import SpanTree.Proofs.Paths

namespace SpanTree

namespace Cursor

/-! ## Neighbours -/

/-- The second cursor is at the node after that of the first, in the same tree. -/
structure Precedes (c d : Cursor) : Prop where
  toTree : d.toTree = c.toTree
  before : d.before = c.before ++ [c.span]

theorem Precedes.after {c d : Cursor} (h : Precedes c d) : c.after = d.span :: d.after := by
  have hs := congrArg Tree.spans h.toTree
  rw [spans_toTree, spans_toTree, h.before, List.append_assoc, List.append_cancel_left_eq] at hs
  simpa using hs.symm

/-- Two cuts of a tree are next to each other when what follows the first is the second. -/
theorem precedes_of_after {c d : Cursor} (ht : d.toTree = c.toTree)
    (h : c.after = d.span :: d.after) : Precedes c d where
  toTree := ht
  before := by
    have hs := congrArg Tree.spans ht
    rw [spans_toTree, spans_toTree, h] at hs
    have hs' : d.before ++ d.span :: d.after = (c.before ++ [c.span]) ++ d.span :: d.after := by
      simpa using hs
    exact List.append_cancel_right hs'

@[simp] theorem toTree_mk (n : Node) (l r : Tree) (path : Path) :
    toTree ⟨n, l, r, path⟩ = Path.plug path (.node n l r) := rfl

end Cursor

/-! ## The ends of a subtree -/

namespace Tree

theorem outermostBelow_left {t : Tree} (ht : t.isNil = false) (path : Path) :
    ∃ d, t.outermostBelow .left path = some d ∧ d.toTree = Path.plug path t ∧
      d.before = Path.before path t := by
  induction t generalizing path with
  | nil => simp [isNil] at ht
  | node n l r ihl _ =>
    cases hl : l.isNil with
    | true =>
      cases l with
      | nil => exact ⟨⟨n, .nil, r, path⟩, rfl, rfl, by simp [Cursor.before, Cursor.subtree]⟩
      | node => simp [isNil] at hl
    | false =>
      obtain ⟨d, hd, htree, hbefore⟩ := ihl hl (⟨.left, n, r⟩ :: path)
      exact ⟨d, by simp [outermostBelow, hd], htree, by
        simpa [Path.before, Crumb.before, Crumb.attach, join] using hbefore⟩

theorem outermostBelow_right {t : Tree} (ht : t.isNil = false) (path : Path) :
    ∃ d, t.outermostBelow .right path = some d ∧ d.toTree = Path.plug path t ∧
      d.after = Path.after path t := by
  induction t generalizing path with
  | nil => simp [isNil] at ht
  | node n l r _ ihr =>
    cases hr : r.isNil with
    | true =>
      cases r with
      | nil => exact ⟨⟨n, l, .nil, path⟩, rfl, rfl, by simp [Cursor.after, Cursor.subtree]⟩
      | node => simp [isNil] at hr
    | false =>
      obtain ⟨d, hd, htree, hafter⟩ := ihr hr (⟨.right, n, l⟩ :: path)
      exact ⟨d, by simp [outermostBelow, hd], htree, by
        simpa [Path.after, Crumb.after, Crumb.attach, join] using hafter⟩

end Tree

namespace Cursor

/-- The outermost node on a side of a whole tree has nothing beyond it. -/
theorem outermost_of_top {c : Cursor} (htop : c.path = []) (s : Side) :
    (c.outermost s).toTree = c.toTree ∧
      s.pick (c.outermost s).before (c.outermost s).after = [] := by
  cases s with
  | left =>
    obtain ⟨d, hd, htree, hbefore⟩ := Tree.outermostBelow_left (t := c.subtree) rfl c.path
    rw [htop] at hbefore
    exact ⟨by simpa [outermost, hd, toTree] using htree,
      by simpa [outermost, hd, Path.before] using hbefore⟩
  | right =>
    obtain ⟨d, hd, htree, hafter⟩ := Tree.outermostBelow_right (t := c.subtree) rfl c.path
    rw [htop] at hafter
    exact ⟨by simpa [outermost, hd, toTree] using htree,
      by simpa [outermost, hd, Path.after] using hafter⟩

/-! ## Ancestors -/

/-- The first ancestor with the way up on its left is the next node after
the subtree; there is none where nothing follows the subtree. -/
theorem turnFrom_left {path : Path} {t : Tree} {link : Link} (hlink : t.link? = some link)
    (hl : Path.Linked path t) :
    (Path.after path t = [] ∧ turnFrom .left t link path = none) ∨
      ∃ d, turnFrom .left t link path = some d ∧ d.toTree = Path.plug path t ∧
        d.span :: d.after = Path.after path t := by
  induction path generalizing t link with
  | nil => exact .inl ⟨rfl, rfl⟩
  | cons b rest ih =>
    obtain ⟨hto, -, -, hrest⟩ := hl
    obtain rfl : link = .node b.holder.id := Tree.linkedTo_iff.mp hto link hlink
    obtain ⟨side, holder, sibling⟩ := b
    cases side with
    | left =>
      refine .inr ⟨⟨holder, t, sibling, rest⟩, by simp [turnFrom, Crumb.attach, Tree.join, ofTree?],
        rfl, ?_⟩
      simp [Path.after, Crumb.after, Cursor.after, span, subtree, Crumb.attach, Tree.join]
    | right =>
      have step : turnFrom .left t (.node holder.id) (⟨.right, holder, sibling⟩ :: rest) =
          turnFrom .left (Crumb.attach ⟨.right, holder, sibling⟩ t) holder.link rest := by
        simp [turnFrom]
      simpa [step, Path.after, Crumb.after] using ih (Crumb.link?_attach _ t) hrest

/-- The first ancestor with the way up on its right is the node before the subtree. -/
theorem turnFrom_right {path : Path} {t : Tree} {link : Link} (hlink : t.link? = some link)
    (hl : Path.Linked path t) :
    (Path.before path t = [] ∧ turnFrom .right t link path = none) ∨
      ∃ d, turnFrom .right t link path = some d ∧ d.toTree = Path.plug path t ∧
        d.before ++ [d.span] = Path.before path t := by
  induction path generalizing t link with
  | nil => exact .inl ⟨rfl, rfl⟩
  | cons b rest ih =>
    obtain ⟨hto, -, -, hrest⟩ := hl
    obtain rfl : link = .node b.holder.id := Tree.linkedTo_iff.mp hto link hlink
    obtain ⟨side, holder, sibling⟩ := b
    cases side with
    | right =>
      refine .inr ⟨⟨holder, sibling, t, rest⟩, by simp [turnFrom, Crumb.attach, Tree.join, ofTree?],
        rfl, ?_⟩
      simp [Path.before, Crumb.before, Cursor.before, span, subtree, Crumb.attach, Tree.join]
    | left =>
      have step : turnFrom .right t (.node holder.id) (⟨.left, holder, sibling⟩ :: rest) =
          turnFrom .right (Crumb.attach ⟨.left, holder, sibling⟩ t) holder.link rest := by
        simp [turnFrom]
      simpa [step, Path.before, Crumb.before] using ih (Crumb.link?_attach _ t) hrest

/-! ## One step -/

theorem down?_eq_none {c : Cursor} {s : Side} : c.down? s = none ↔ c.child s = .nil := by
  rw [down?]
  cases c.child s <;> simp [ofTree?]

theorem down?_eq_some {c d : Cursor} {s : Side} (h : c.down? s = some d) :
    d.subtree = c.child s ∧ d.path = c.crumb s :: c.path := by
  rw [down?] at h
  cases hc : c.child s with
  | nil => simp [hc, ofTree?] at h
  | node n l r =>
    rw [hc] at h
    simp only [ofTree?, Option.some.injEq] at h
    subst h
    exact ⟨rfl, rfl⟩

@[simp] theorem attach_crumb (c : Cursor) (s : Side) :
    (c.crumb s).attach (c.child s) = c.subtree := by
  cases s <;> rfl

/-- Following the links of a linked tree to the right, one gets to the next
node; only the last node has none. -/
theorem adjacent?_right {c : Cursor} (h : c.toTree.Linked) :
    (c.after = [] ∧ c.adjacent? .right = none) ∨
      ∃ d, c.adjacent? .right = some d ∧ Precedes c d := by
  cases hd : c.down? .right with
  | some d =>
    obtain ⟨hsub, hpath⟩ := down?_eq_some hd
    obtain ⟨e, he, htree, hbefore⟩ :=
      Tree.outermostBelow_left (t := d.subtree) rfl (c.crumb .right :: c.path)
    refine .inr ⟨e, by simp [adjacent?, hd, outermost, Side.other, hpath, he], ?_, ?_⟩
    · rw [htree, hsub, Path.plug_cons, attach_crumb, toTree]
    · rw [hbefore, hsub, Path.before, attach_crumb]
      simp [Crumb.before, crumb, before, child, span]
  | none =>
    have hnil : c.right = .nil := down?_eq_none.mp hd
    have hafter : c.after = Path.after c.path c.subtree := by simp [after, hnil]
    rw [hafter, adjacent?, hd]
    rcases turnFrom_left (show c.subtree.link? = some c.node.link from rfl) (linked_path h) with
      ⟨hempty, hnone⟩ | ⟨d, hsome, htree, hspans⟩
    · exact .inl ⟨hempty, hnone⟩
    · exact .inr ⟨d, hsome, precedes_of_after htree (hafter.trans hspans.symm)⟩

/-- Following the links of a linked tree to the left, one gets to the node
before; only the first node has none. -/
theorem adjacent?_left {c : Cursor} (h : c.toTree.Linked) :
    (c.before = [] ∧ c.adjacent? .left = none) ∨
      ∃ d, c.adjacent? .left = some d ∧ Precedes d c := by
  cases hd : c.down? .left with
  | some d =>
    obtain ⟨hsub, hpath⟩ := down?_eq_some hd
    obtain ⟨e, he, htree, hafter⟩ :=
      Tree.outermostBelow_right (t := d.subtree) rfl (c.crumb .left :: c.path)
    refine .inr ⟨e, by simp [adjacent?, hd, outermost, Side.other, hpath, he], ?_⟩
    have htree' : c.toTree = e.toTree := by
      rw [htree, hsub, Path.plug_cons, attach_crumb, toTree]
    refine precedes_of_after htree' ?_
    rw [hafter, hsub, Path.after, attach_crumb]
    simp [Crumb.after, crumb, after, child, span]
  | none =>
    have hnil : c.left = .nil := down?_eq_none.mp hd
    have hbefore : c.before = Path.before c.path c.subtree := by simp [before, hnil]
    rw [hbefore, adjacent?, hd]
    rcases turnFrom_right (show c.subtree.link? = some c.node.link from rfl) (linked_path h) with
      ⟨hempty, hnone⟩ | ⟨d, hsome, htree, hspans⟩
    · exact .inl ⟨hempty, hnone⟩
    · exact .inr ⟨d, hsome, htree.symm, hbefore.trans hspans.symm⟩

end Cursor

end SpanTree
