/-
SpanTree.Proofs.Fills — trees that cover a text, whatever their caches.

`Tree.Fills` says that a tree, if there is one, is weighed and weighs as
much as a text has characters. The operations on the tree of a text keep
this, and do not need more of the tree than that it is linked: neither
exact caches nor one reading. The lemmas are about what an operation
leaves, whether it succeeded or failed.

`Tree.skeleton` is what links and weights are read off: a tree without
caches, flags and properties. The moves between nodes keep it.
-/
import SpanTree.Proofs.Outlines

namespace SpanTree

/-! ## Skeletons -/

/-- A node without its cache, flags and properties. -/
def Node.bone (n : Node) : Node := { n with data := { total := n.data.total } }

namespace Tree

/-- A tree without caches, flags and properties. -/
def skeleton : Tree → Tree
  | .nil => .nil
  | .node n l r => .node n.bone l.skeleton r.skeleton

variable {t u : Tree}

@[simp] theorem total_skeleton (t : Tree) : t.skeleton.total = t.total := by
  cases t <;> rfl

@[simp] theorem outline_skeleton (t : Tree) : t.skeleton.outline = t.outline := by
  induction t with
  | nil => rfl
  | node n l r ihl ihr => rw [skeleton, outline, ihl, ihr]; rfl

@[simp] theorem weighed_skeleton (t : Tree) : t.skeleton.Weighed ↔ t.Weighed := by
  induction t with
  | nil => exact Iff.rfl
  | node n l r ihl ihr => simp only [skeleton, Weighed, ihl, ihr, total_skeleton, Node.bone]

theorem outline_congr (h : u.skeleton = t.skeleton) : u.outline = t.outline := by
  rw [← outline_skeleton, h, outline_skeleton]

@[simp] theorem skeleton_join (s : Side) (n : Node) (near far : Tree) :
    (join s n near far).skeleton = join s n.bone near.skeleton far.skeleton := by
  cases s <;> rfl

end Tree

/-- Subtrees with one skeleton leave the skeleton of the tree as it is. -/
theorem Path.skeleton_plug_congr (p : Path) {t u : Tree} (h : u.skeleton = t.skeleton) :
    (plug p u).skeleton = (plug p t).skeleton := by
  induction p generalizing t u with
  | nil => exact h
  | cons b rest ih => exact ih (by simp only [Crumb.attach, Tree.skeleton_join, h])

namespace Cursor

variable {c d : Cursor} {s : Side}

@[simp] theorem skeleton_withPosition (c : Cursor) (position : Size) :
    (c.withPosition position).toTree.skeleton = c.toTree.skeleton :=
  Path.skeleton_plug_congr c.path rfl

/-- What keeps the weight of a node keeps the skeleton. -/
theorem skeleton_mapData {e : Payload → Payload} (h : (e c.node.data).total = c.node.data.total) :
    (c.mapData e).toTree.skeleton = c.toTree.skeleton :=
  Path.skeleton_plug_congr c.path (by
    simp only [subtree, mapData, Tree.skeleton, Node.bone, h])

@[simp] theorem skeleton_seek (c : Cursor) (offset position : Size) :
    (c.seek offset position).toTree.skeleton = c.toTree.skeleton := by
  unfold seek
  split
  · next found rest h => rw [skeleton_withPosition, toTree_of_seekBelow h]; rfl
  · rfl

/-! ## Moves stay in the tree -/

theorem toTree_of_down (h : c.down? s = some d) : d.toTree = c.toTree := by
  unfold down? at h
  cases hchild : c.child s with
  | nil => simp [hchild, ofTree?] at h
  | node n l r =>
    rw [hchild] at h
    cases h
    rw [c.toTree_crumb s, hchild]
    rfl

theorem toTree_of_up (h : c.up? = some d) : d.toTree = c.toTree := by
  obtain ⟨node, left, right, path⟩ := c
  cases path with
  | nil => cases h
  | cons b rest =>
    cases h
    obtain ⟨side, holder, sibling⟩ := b
    cases side <;> rfl

theorem toTree_of_turnFrom {t : Tree} {link : Link} {path : Path}
    (h : turnFrom s t link path = some d) : d.toTree = Path.plug path t := by
  induction path generalizing t link with
  | nil => cases h
  | cons b rest ih =>
    unfold turnFrom at h
    split at h
    · split at h
      · obtain ⟨side, holder, sibling⟩ := b
        cases side <;> cases h <;> rfl
      · exact ih h
    · cases h

theorem toTree_outermostBelow {t : Tree} {path : Path} (h : t.outermostBelow s path = some d) :
    d.toTree = Path.plug path t := by
  have hnil : t.isNil = false := by
    cases t with
    | nil => cases h
    | node n l r => rfl
  cases s with
  | left =>
    obtain ⟨e, he, htree, -⟩ := Tree.outermostBelow_left hnil path
    obtain rfl : e = d := by simpa [he] using h
    exact htree
  | right =>
    obtain ⟨e, he, htree, -⟩ := Tree.outermostBelow_right hnil path
    obtain rfl : e = d := by simpa [he] using h
    exact htree

theorem toTree_outermost (s : Side) (c : Cursor) : (c.outermost s).toTree = c.toTree := by
  unfold outermost
  cases h : c.subtree.outermostBelow s c.path with
  | none => rfl
  | some d => exact toTree_outermostBelow h

theorem toTree_of_adjacent (h : c.adjacent? s = some d) : d.toTree = c.toTree := by
  unfold adjacent? at h
  split at h
  · next e he =>
    cases h
    rw [toTree_outermost, toTree_of_down he]
  · exact toTree_of_turnFrom h

theorem skeleton_of_next (h : c.next? = some d) : d.toTree.skeleton = c.toTree.skeleton := by
  obtain ⟨e, he, rfl⟩ := Option.map_eq_some_iff.mp h
  rw [skeleton_withPosition, toTree_of_adjacent he]

theorem skeleton_of_prev (h : c.prev? = some d) : d.toTree.skeleton = c.toTree.skeleton := by
  obtain ⟨e, he, rfl⟩ := Option.map_eq_some_iff.mp h
  rw [skeleton_withPosition, toTree_of_adjacent he]

theorem skeleton_of_ascend (h : c.ascend? = some d) : d.toTree.skeleton = c.toTree.skeleton := by
  have hparent {p : Cursor} (hp : c.parent? = some p) : p.toTree = c.toTree := by
    unfold parent? at hp
    split at hp
    · exact toTree_of_up hp
    · cases hp
  unfold ascend? at h
  split at h
  · next p _ hp =>
    cases h
    rw [skeleton_withPosition, hparent hp]
  · next p _ hp =>
    cases h
    rw [skeleton_withPosition, hparent hp]
  · cases h

theorem skeleton_of_descend (h : c.descend? s = some d) :
    d.toTree.skeleton = c.toTree.skeleton := by
  obtain ⟨e, he, rfl⟩ := Option.map_eq_some_iff.mp h
  cases s <;> rw [skeleton_withPosition, toTree_of_down he]

theorem skeleton_of_move {position : Size} (h : c.moveTowards position = .on d) :
    d.toTree.skeleton = c.toTree.skeleton := by
  unfold moveTowards at h
  dsimp only at h
  split at h
  · cases h
  · split at h
    · next e he =>
      cases h
      exact skeleton_of_descend he
    · cases h
  · split at h
    · next e he =>
      cases h
      exact skeleton_of_ascend he
    · cases h

/-- A walk to a position keeps the skeleton, wherever it ends. -/
theorem skeleton_updateLoop (position : Size) (fuel : Nat) (c : Cursor) :
    (updateLoop position fuel c).1.toTree.skeleton = c.toTree.skeleton := by
  induction fuel generalizing c with
  | zero =>
    unfold updateLoop
    split <;> rfl
  | succ fuel ih =>
    unfold updateLoop
    split
    · rfl
    · rfl
    · next d hd => rw [ih, skeleton_of_move hd]

end Cursor

/-! ## Trees that cover a text -/

/-- The tree of a text with a number of characters: there is none, or it weighs as much, and every
node owns characters. -/
def Tree.Fills (n : Nat) (t : Tree) : Prop := t = .nil ∨ (t.Weighed ∧ t.total.toNat = n)

namespace Tree

variable {t u : Tree} {n : Nat}

theorem fills_nil (n : Nat) : Fills n .nil := .inl rfl

theorem Fills.weighed (h : t.Fills n) : t.Weighed := by
  rcases h with rfl | ⟨hw, -⟩
  · trivial
  · exact hw

theorem Fills.light (h : t.Fills n) (hn : n < 2 ^ 63) : t.total.toNat < 2 ^ 63 := by
  rcases h with rfl | ⟨-, ht⟩
  · exact Nat.two_pow_pos 63
  · rwa [ht]

/-- What has the weight of a tree that fills, fills. -/
theorem Fills.trans (h : t.Fills n) (hnil : t = .nil → u = .nil)
    (hu : t.Weighed → u.Weighed ∧ u.total = t.total) : u.Fills n := by
  rcases h with rfl | ⟨hw, ht⟩
  · exact .inl (hnil rfl)
  · obtain ⟨huw, hut⟩ := hu hw
    exact .inr ⟨huw, by rw [hut, ht]⟩

theorem Fills.congr (h : t.Fills n) (hu : u.skeleton = t.skeleton) : u.Fills n := by
  refine h.trans ?_ fun hw => ⟨?_, ?_⟩
  · rintro rfl
    cases u with
    | nil => rfl
    | node n l r => cases hu
  · rwa [← weighed_skeleton, hu, weighed_skeleton]
  · rw [← total_skeleton, hu, total_skeleton]

theorem Fills.setLink (h : t.Fills n) (link : Link) : (t.setLink link).Fills n := by
  rcases h with rfl | ⟨hw, ht⟩
  · exact .inl rfl
  · exact .inr ⟨by simpa using hw, by simpa using ht⟩

theorem Fills.reshaped (h : t.Fills n) (hu : Reshaped t u) : u.Fills n := by
  refine h.trans ?_ fun hw => ⟨hu.weighed hw, hu.total⟩
  rintro rfl
  exact spans_eq_nil.mp (by simpa using hu.spans)

theorem fills_balanceSelf (h : t.Fills n) (hn : n < 2 ^ 63) : t.balanceSelf.1.Fills n := by
  cases hnil : t.isNil with
  | true =>
    cases t with
    | nil => exact .inl rfl
    | node n l r => cases hnil
  | false =>
    obtain ⟨u, k, hu, hto⟩ := balanceSelf_ok h.weighed (h.light hn) hnil
    rw [hu]
    exact h.reshaped hto.reshaped

theorem fills_balance (h : t.Fills n) (hn : n < 2 ^ 63) (hl : t.Linked) (hd : t.ids.Nodup) :
    t.balance.1.Fills n := by
  obtain ⟨u, k, hu, hto⟩ := balanceAll_ok h.weighed (h.light hn)
  rw [Tree.balance_eq_balanceAll ⟨h.weighed, hl, hd⟩ (h.light hn), hu]
  exact h.reshaped hto.reshaped

end Tree

namespace Cursor

variable {c : Cursor} {n : Nat} {s : Side} {home : Option TextId}

/-- A tree that has a node weighs what it fills. -/
theorem total_of_fills (h : c.toTree.Fills n) : c.toTree.Weighed ∧ c.toTree.total.toNat = n := by
  rcases h with hnil | h
  · have hspans := c.spans_toTree
    simp [hnil] at hspans
  · exact h

/-- Spans that cover as much as those of the tree do. -/
theorem fills_of_respanned {spans : List Span} {u : Tree} (h : c.toTree.Fills n)
    (hu : c.toTree.Respanned spans u) (hcover : covered spans = covered c.toTree.spans) :
    u.Fills n := by
  obtain ⟨hw, ht⟩ := total_of_fills h
  refine .inr ⟨hu.weighed, ?_⟩
  rw [← hu.weighed.covered_spans, hu.spans, hcover, hw.covered_spans, ht]

theorem fills_rotateInPlace (h : c.toTree.Fills n) (s : Side) :
    (Path.plug c.path (c.subtree.rotateInPlace s).1).Fills n := by
  obtain ⟨hw, ht⟩ := total_of_fills h
  have hu := Path.repainted_plug c.path (Tree.repainted_rotateInPlace s (weighed_subtree hw)).1
  exact .inr ⟨hu.weighed hw, by rw [hu.total]; exact ht⟩

/-- A merge in the tree of a text, also one that fails. -/
theorem fills_mergeInto (h : c.toTree.Fills n) (hl : c.toTree.Linked)
    (hhome : c.path = [] → c.toTree.Homed home) (s : Side) : (c.mergeInto s home).1.Fills n := by
  obtain ⟨hw, -⟩ := total_of_fills h
  have hsum := hw.covered_spans
  have hbound := c.toTree.total.toNat_lt
  rw [spans_toTree] at hsum
  cases s with
  | right =>
    rcases mergeInto_right hw hl hhome with ⟨-, hm⟩ | ⟨y, post, u, hpost, hm, hu⟩
    · rwa [hm]
    · rw [hm]
      refine fills_of_respanned h hu ?_
      rw [spans_toTree, hpost]
      rw [hpost] at hsum
      simp only [covered_append, covered_cons, span_length] at hsum ⊢
      rw [Span.absorb, Size.toNat_add_of_lt (by omega)]
      omega
  | left =>
    rcases mergeInto_left hw hl hhome with ⟨-, hm⟩ | ⟨pre, y, u, hpre, hm, hu⟩
    · rwa [hm]
    · rw [hm]
      refine fills_of_respanned h hu ?_
      rw [spans_toTree, hpre]
      rw [hpre] at hsum
      simp only [covered_append, covered_cons, covered_nil, span_length] at hsum ⊢
      rw [Span.absorb, Size.toNat_add_of_lt (by omega)]
      omega

/-- A removal in the tree of a text, also one that fails. -/
theorem fills_remove (h : c.toTree.Fills n) (hl : c.toTree.Linked)
    (hhome : c.path = [] → c.toTree.Homed home) : (c.remove home).1.Fills n := by
  by_cases ha : c.after = []
  · by_cases hb : c.before = []
    · rw [remove_only hl hhome ha hb]
      exact .inl rfl
    · rw [remove_of_before hl hhome ha hb]
      exact fills_mergeInto h hl hhome .left
  · rw [remove_of_after hl hhome ha]
    exact fills_mergeInto h hl hhome .right

theorem fills_splitOff {offset : Size} (h : c.toTree.Fills n) (hn : n < 2 ^ 63)
    (hl : c.toTree.Linked) (ho : c.splits offset = true) (s : Side) (piece : NodeId) :
    (c.splitOff s offset piece).1.toTree.Fills n := by
  obtain ⟨hw, -⟩ := total_of_fills h
  obtain ⟨d, k, hd, hu⟩ := splitOff_ok hw hl (h.light hn) s ho piece
  rw [hd]
  refine fills_of_respanned h hu ?_
  obtain ⟨-, hlt⟩ := splits_iff.mp ho
  rw [spans_toTree, covered_append, covered_append, covered_append,
    covered_cut s piece (Nat.le_of_lt hlt), covered_cons, span_length]
  omega

end Cursor

end SpanTree
