/-
SpanTree.Proofs.Splits — what a split does to the spans.

A split takes one span and puts two in its place (`Span.cut`). The new
piece hangs between the node and the subtree on its side, over which it
is balanced; balancing keeps spans, weight and link, so that what is
above the piece does not see it.
-/
import SpanTree.Proofs.Balancing
import SpanTree.Proofs.Merges

namespace SpanTree

/-- The two spans that a split makes of one. The new piece is the part on
the given side, and carries no marks and no properties. -/
def Span.cut (s : Side) (piece : NodeId) (offset : Size) (x : Span) : List Span :=
  match s with
  | .left =>
    [⟨piece, offset, x.position, {}, {}⟩,
      { x with length := x.length - offset, position := x.position + offset }]
  | .right =>
    [{ x with length := offset }, ⟨piece, x.length - offset, x.position + offset, {}, {}⟩]

/-- The two parts cover what the span covered. -/
theorem covered_cut {offset : Size} {x : Span} (s : Side) (piece : NodeId)
    (h : offset.toNat ≤ x.length.toNat) : covered (x.cut s piece offset) = x.length.toNat := by
  have hrest : (x.length - offset).toNat = x.length.toNat - offset.toNat :=
    Size.toNat_sub_of_le h
  cases s <;> simp only [Span.cut, covered_cons, covered_nil, hrest] <;> omega

theorem ids_cut {s : Side} {piece id : NodeId} {offset : Size} {x : Span} :
    id ∈ (x.cut s piece offset).map (·.id) ↔ id = piece ∨ id = x.id := by
  cases s <;> simp [Span.cut, or_comm]

/-- A cut adds the identity of the piece to those of the list. -/
theorem perm_ids_cut (s : Side) (piece : NodeId) (offset : Size) (pre post : List Span)
    (x : Span) :
    ((pre ++ x.cut s piece offset ++ post).map (·.id)).Perm
      (piece :: (pre ++ x :: post).map (·.id)) := by
  cases s with
  | left => simp [Span.cut]
  | right =>
    have : (pre.map (·.id) ++ [x.id] ++ piece :: post.map (·.id)).Perm
        (piece :: (pre.map (·.id) ++ [x.id] ++ post.map (·.id))) := List.perm_middle
    simpa [Span.cut] using this

/-- The part of a split that is a new piece. -/
def Span.piece (s : Side) (piece : NodeId) (offset : Size) (x : Span) : Span :=
  ⟨piece, s.pick offset (x.length - offset), s.pick x.position (x.position + offset), {}, {}⟩

/-- The part of a split that is left to the node. -/
def Span.rest (s : Side) (offset : Size) (x : Span) : Span :=
  { x with
    length := s.pick (x.length - offset) offset
    position := s.pick (x.position + offset) x.position }

theorem Span.cut_eq (s : Side) (piece : NodeId) (offset : Size) (x : Span) :
    x.cut s piece offset =
      s.pick [x.piece s piece offset, x.rest s offset]
        [x.rest s offset, x.piece s piece offset] := by
  cases s <;> rfl

/-- The parts of a split make up the span again. -/
theorem Span.absorb_rest (s : Side) (piece : NodeId) (offset : Size) (x : Span) :
    (x.rest s offset).absorb s.other (x.piece s piece offset).length
      (x.piece s piece offset).position = x := by
  obtain ⟨id, length, position, flags, plist⟩ := x
  cases s with
  | left =>
    have hlength : length - offset + offset = length := by grind
    simp [Span.rest, Span.piece, Span.absorb, Side.other, hlength]
  | right =>
    have hlength : offset + (length - offset) = length := by grind
    have hposition : position + offset - offset = position := by grind
    simp [Span.rest, Span.piece, Span.absorb, Side.other, hlength, hposition]

namespace Cursor

variable {c : Cursor} {s : Side} {offset : Size}

theorem splits_iff : c.splits offset = true ↔ 0 < offset.toNat ∧ offset.toNat < c.length.toNat := by
  simp [splits, UInt64.lt_iff_toNat_lt]

/-- The new piece over the subtree it adopts, before it is balanced. -/
def adoption (s : Side) (c : Cursor) (offset : Size) (piece : NodeId) : Tree :=
  Tree.join s
    (((Node.fresh piece (s.pick offset (c.length - offset) + (c.child s).total)).withPosition
      (s.pick c.position (c.position + offset))).withLink (.node c.node.id))
    ((c.child s).setLink (.node piece)) .nil

/-- The node after the split, over a subtree with the piece. -/
def divided (s : Side) (c : Cursor) (offset : Size) (t : Tree) : Cursor :=
  (c.withPosition (s.pick (c.position + offset) c.position)).withChild s t

/-- The weight of the piece with what it adopts, as a number. -/
theorem toNat_total_adoption (hn : c.subtree.Weighed) (ho : c.splits offset = true)
    (piece : NodeId) :
    (c.adoption s offset piece).total.toNat =
      s.pick offset.toNat (c.length.toNat - offset.toNat) + (c.child s).total.toNat := by
  rw [splits_iff] at ho
  have hown : c.length.toNat = _ := Node.toNat_length hn.1
  have hrest : (c.length - offset).toNat = c.length.toNat - offset.toNat :=
    Size.toNat_sub_of_le (by omega)
  have hbound := c.node.data.total.toNat_lt
  have hn1 := hn.1
  rw [adoption, Tree.total_join]
  cases s with
  | left => exact Size.toNat_add_of_lt (by dsimp only [child, Side.pick_left]; omega)
  | right =>
    refine (Size.toNat_add_of_lt ?_).trans (congrArg (· + c.right.total.toNat) hrest)
    dsimp only [child, Side.pick_right]
    omega

theorem weighed_adoption (hn : c.subtree.Weighed) (ho : c.splits offset = true)
    (piece : NodeId) : (c.adoption s offset piece).Weighed := by
  have htotal := toNat_total_adoption (s := s) hn ho piece
  rw [splits_iff] at ho
  have hchild : (c.child s).Weighed := by
    cases s
    · exact hn.2.1
    · exact hn.2.2
  rw [adoption, Tree.total_join] at htotal
  rw [adoption, Tree.weighed_join, htotal]
  refine ⟨?_, by simpa using hchild, trivial⟩
  cases s <;> simp <;> omega

theorem linked_adoption (hl : c.subtree.Linked) (piece : NodeId) :
    (c.adoption s offset piece).Linked := by
  have hchild : (c.child s).Linked := by
    cases s
    · exact hl.2.2.1
    · exact hl.2.2.2
  rw [adoption, Tree.linked_join]
  exact ⟨by simp [Node.fresh], rfl, by simpa using hchild, trivial⟩

/-- No subtree outweighs its tree. -/
theorem total_le (hw : c.toTree.Weighed) : c.node.data.total.toNat ≤ c.toTree.total.toNat := by
  have hsub : covered c.subtree.spans = c.node.data.total.toNat :=
    (weighed_subtree hw).covered_spans
  rw [← hw.covered_spans, toTree, Path.spans_plug, covered_append, covered_append, hsub]
  omega

/-- A split, with what balancing makes of the piece. -/
theorem splitOff_eq (hw : c.toTree.Weighed) (hb : c.toTree.total.toNat < 2 ^ 63)
    (ho : c.splits offset = true) (piece : NodeId) :
    ∃ t k, c.splitOff s offset piece = (c.divided s offset t, .ok k) ∧
      Tree.Reshaped (c.adoption s offset piece) t := by
  have hsub := weighed_subtree hw
  have htotal := toNat_total_adoption (s := s) hsub ho piece
  have hle := total_le hw
  have hown : c.length.toNat = _ := Node.toNat_length hsub.1
  rw [splits_iff] at ho
  have hn := hsub.1
  have hlight : (c.adoption s offset piece).total.toNat < 2 ^ 63 := by
    cases s <;> simp only [Side.pick_left, Side.pick_right, child] at htotal <;> omega
  obtain ⟨t, k, ht, hbal⟩ := Tree.balanceSelf_ok
    (weighed_adoption (s := s) hsub (splits_iff.mpr ho) piece) hlight (by simp [adoption])
  cases hnil : (c.child s).isNil with
  | true =>
    exact ⟨c.adoption s offset piece, 0, by simp [splitOff, hnil, divided, adoption], .refl _⟩
  | false =>
    refine ⟨t, k, ?_, hbal.reshaped⟩
    rw [adoption] at ht
    simp [splitOff, hnil, ht, divided]

/-- What hangs on the two sides of the node that was split covers what the node left. -/
theorem spans_divided {t : Tree} {piece : NodeId}
    (ht : Tree.Reshaped (c.adoption s offset piece) t) :
    (c.divided s offset t).subtree.spans =
      c.left.spans ++ c.span.cut s piece offset ++ c.right.spans := by
  have hspans := ht.spans
  have htotal := ht.total
  cases s with
  | left =>
    have hpiece : offset + c.left.total - c.left.total - 0 = offset := by grind
    have hrest : c.node.data.total - (offset + c.left.total) - c.right.total =
        c.node.data.total - c.left.total - c.right.total - offset := by grind
    simp_all [adoption, divided, withChild, subtree, Tree.join, Node.span, Node.length, child,
      Node.fresh, Node.withPosition, Node.withLink, Span.cut, span, withPosition, position]
  | right =>
    have hpiece : c.length - offset + c.right.total - 0 - c.right.total = c.length - offset := by
      grind
    have hrest :
        c.node.data.total - c.left.total - (c.length - offset + c.right.total) = offset := by
      rw [length_eq_sub]
      grind
    simp_all [adoption, divided, withChild, subtree, Tree.join, Node.span, Node.length, child,
      Node.fresh, Node.withPosition, Node.withLink, Span.cut, span, withPosition, position, length]

theorem weighed_divided {t : Tree} {piece : NodeId} (hn : c.subtree.Weighed)
    (ho : c.splits offset = true) (ht : Tree.Reshaped (c.adoption s offset piece) t) :
    (c.divided s offset t).subtree.Weighed := by
  have hwt := ht.weighed (weighed_adoption hn ho piece)
  have htotal := toNat_total_adoption (s := s) hn ho piece
  rw [← ht.total] at htotal
  have hown : c.length.toNat = _ := Node.toNat_length hn.1
  have hlen := hn.1
  rw [splits_iff] at ho
  cases s with
  | left =>
    refine ⟨?_, hwt, hn.2.2⟩
    simp only [Side.pick_left, child] at htotal
    simp only [divided, withChild, withPosition, Node.withPosition_total, htotal]
    omega
  | right =>
    refine ⟨?_, hn.2.1, hwt⟩
    simp only [Side.pick_right, child] at htotal
    simp only [divided, withChild, withPosition, Node.withPosition_total, htotal]
    omega

theorem linked_divided {t : Tree} {piece : NodeId} (hl : c.subtree.Linked)
    (ht : Tree.Reshaped (c.adoption s offset piece) t) :
    (c.divided s offset t).subtree.Linked := by
  have hlt := ht.linked (linked_adoption hl piece)
  have hto : t.linkedTo c.node.id = true := by
    rw [Tree.linkedTo_iff, ht.link]
    simp [adoption]
  cases s with
  | left => exact ⟨hto, hl.2.1, hlt, hl.2.2.2⟩
  | right => exact ⟨hl.1, hto, hl.2.2.1, hlt⟩

/-- **A split** inside the own span of a node: two spans take the place
of one. -/
theorem splitOff_ok (hw : c.toTree.Weighed) (hl : c.toTree.Linked)
    (hb : c.toTree.total.toNat < 2 ^ 63) (s : Side) (ho : c.splits offset = true)
    (piece : NodeId) :
    ∃ d k, c.splitOff s offset piece = (d, .ok k) ∧
      c.toTree.Respanned (c.before ++ c.span.cut s piece offset ++ c.after) d.toTree := by
  obtain ⟨t, k, ht, hr⟩ := splitOff_eq hw hb (s := s) ho piece
  have hsub := weighed_subtree hw
  have hpath : (c.divided s offset t).path = c.path := by cases s <;> rfl
  have htotal : (c.divided s offset t).subtree.total = c.subtree.total := by cases s <;> rfl
  have hlink : (c.divided s offset t).subtree.link? = c.subtree.link? := by cases s <;> rfl
  refine ⟨c.divided s offset t, k, ht, ?_, ?_, ?_, ?_⟩
  · rw [toTree, hpath, Path.spans_plug, spans_divided hr, Path.before_congr _ htotal,
      Path.after_congr _ htotal]
    simp [before, after]
  · rw [toTree, hpath, Path.weighed_plug, htotal]
    exact ⟨weighed_divided hsub ho hr, (Path.weighed_plug.mp hw).2⟩
  · rw [toTree, hpath, Path.linked_plug]
    exact ⟨linked_divided (linked_subtree hl) hr, Path.linked_congr hlink (linked_path hl)⟩
  · intro link hmem
    rw [toTree, hpath, Path.link?_plug_congr _ hlink] at hmem
    exact hmem

end Cursor

end SpanTree
