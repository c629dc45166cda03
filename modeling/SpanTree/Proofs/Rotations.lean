/-
SpanTree.Proofs.Rotations — what the two kinds of rotation keep.

A rotation that raises the child on a side starts from a tree of the
form `join s a (join s b outer inner) far`, and on a weighed tree of this
form none of its checks can fail. An owned rotation gives another shape
of the tree (`reshaped_raised`). A rotation in place gives every span to
another node where it has to, so that it keeps less: `Repainted` is the
same list of faces, with the identities in another order.

The totals of the two nodes are computed by different formulas. Over
words both are `a - b + inner`, which is why the spans are the same on
arbitrary weights.
-/
import SpanTree.Tree.Rotate
import SpanTree.Proofs.Links

namespace SpanTree

/-! ## Faces -/

/-- What a span says, whichever node owns it. -/
structure Face where
  length : Size
  position : Size
  flags : Flags
  plist : PropertyList
deriving DecidableEq, Repr

/-- A span without the identity of its node. -/
def Span.face (s : Span) : Face := ⟨s.length, s.position, s.flags, s.plist⟩

/-- The faces of the spans from left to right. -/
def Tree.faces (t : Tree) : List Face := t.spans.map Span.face

/-- The second tree shows the faces of the first, although other nodes
may own them. -/
structure Tree.Repainted (t u : Tree) : Prop where
  faces : u.faces = t.faces
  ids : u.ids.Perm t.ids
  total : u.total = t.total
  link : u.link? = t.link?
  weighed : t.Weighed → u.Weighed
  linked : t.Linked → u.Linked

namespace Tree

theorem Repainted.refl (t : Tree) : Repainted t t := ⟨rfl, .refl _, rfl, rfl, id, id⟩

theorem Repainted.wellFormed {t u : Tree} (h : Repainted t u) (ht : t.WellFormed) :
    u.WellFormed :=
  ⟨h.weighed ht.weighed, h.linked ht.linked, h.ids.nodup_iff.mpr ht.distinct⟩

/-! ## The checks of a rotation -/

/-- A tree with a child on a side has the form of a rotation. -/
theorem exists_join {s : Side} {t : Tree} (h : (t.child s).isNil = false) :
    ∃ a b outer inner far, t = join s a (join s b outer inner) far := by
  cases t with
  | nil => simp [child, isNil] at h
  | node a l r =>
    cases s with
    | left =>
      cases l with
      | nil => simp [child, isNil] at h
      | node b bl br => exact ⟨a, b, bl, br, r, rfl⟩
    | right =>
      cases r with
      | nil => simp [child, isNil] at h
      | node b bl br => exact ⟨a, b, br, bl, l, rfl⟩

/-- A node of a weighed tree owns characters. -/
theorem Weighed.own_pos {t : Tree} (h : t.Weighed) (ht : t.isNil = false) : 0 < t.length := by
  cases t with
  | nil => simp [isNil] at ht
  | node n l r =>
    rw [UInt64.lt_iff_toNat_lt]
    change 0 < (n.length l r).toNat
    have := h.1
    rw [Node.toNat_length h.1]
    omega

theorem Weighed.child {t : Tree} (h : t.Weighed) (s : Side) : (t.child s).Weighed := by
  cases t with
  | nil => trivial
  | node n l r => cases s <;> simp [Tree.child, h.2.1, h.2.2]

section Pivot

variable {s : Side} {a b : Node} {outer inner far : Tree}

@[simp] theorem child_join (s : Side) (n : Node) (near far : Tree) :
    (join s n near far).child s = near := by
  cases s <;> rfl

@[simp] theorem child_other_join (s : Side) (n : Node) (near far : Tree) :
    (join s n near far).child s.other = far := by
  cases s <;> rfl

@[simp] theorem isNil_join (s : Side) (n : Node) (near far : Tree) :
    (join s n near far).isNil = false := by
  cases s <;> rfl

/-- The side that a tree is described from does not matter. -/
theorem join_other (s : Side) (n : Node) (near far : Tree) :
    join s.other n near far = join s n far near := by
  cases s <;> rfl

/-- On a weighed tree the checks of a rotation hold. -/
theorem pivot_join (h : (join s a (join s b outer inner) far).Weighed) :
    (join s a (join s b outer inner) far).pivot s = .ok ⟨a, b, outer, inner, far⟩ := by
  have ha := h.own_pos (by simp)
  have hb := (h.child s).own_pos (by simp)
  have hpos : 0 < a.data.total := by
    rw [weighed_join] at h
    rw [UInt64.lt_iff_toNat_lt]
    exact Nat.lt_of_le_of_lt (Nat.zero_le _) h.1
  rw [child_join] at hb
  cases s
  · simp only [join, length] at ha hb ⊢
    simp [pivot, ha, hb, hpos]
  · simp only [join, length] at ha hb ⊢
    simp [pivot, ha, hb, hpos]

/-! ## The weights of a rotation

Of the two children of a node the total of the left one is subtracted
first, so that every length occurs in two forms. -/

theorem own_raised (a b outer inner : Size) :
    a - outer - (a - (b - inner)) = b - outer - inner := by grind

theorem own_raised' (a b outer inner : Size) :
    a - (a - (b - inner)) - outer = b - inner - outer := by grind

theorem own_sunk (a b inner far : Size) :
    a - (b - inner) - inner - far = a - b - far := by grind

theorem own_sunk' (a b inner far : Size) :
    a - (b - inner) - far - inner = a - far - b := by grind

/-- The two formulas for the total of the node that sinks agree. -/
theorem total_sunk (a b inner far : Size) :
    a - b - far + inner + far = a - (b - inner) := by grind

/-- The total of the node that sinks, as a number. -/
theorem toNat_sunk (h : (join s a (join s b outer inner) far).Weighed) :
    (a.data.total - (b.data.total - inner.total)).toNat =
      a.data.total.toNat - b.data.total.toNat + inner.total.toNat := by
  rw [weighed_join, weighed_join, total_join] at h
  obtain ⟨ha, ⟨hb, -, -⟩, -⟩ := h
  have hi : (b.data.total - inner.total).toNat = b.data.total.toNat - inner.total.toNat :=
    Size.toNat_sub_of_le (by omega)
  rw [Size.toNat_sub_of_le (by omega), hi]
  omega

/-! ## Owned rotations -/

/-- Moving nodes keeps the spans, whatever the weights. -/
theorem spans_raised :
    (Pivot.raised s ⟨a, b, outer, inner, far⟩).spans =
      (join s a (join s b outer inner) far).spans := by
  cases s <;>
    simp only [Pivot.raised, join, Node.withLink, Node.withTotal, spans_node, spans_setLink,
      Node.span, Node.length, total_node, total_setLink, own_raised, own_raised', own_sunk,
      own_sunk', List.append_assoc, List.cons_append]

/-- Moving nodes keeps links true, whatever the weights. -/
theorem linked_raised (hl : (join s a (join s b outer inner) far).Linked) :
    (Pivot.raised s ⟨a, b, outer, inner, far⟩).Linked := by
  simp only [linked_join, linkedTo_iff (t := join s b outer inner)] at hl
  obtain ⟨-, hfar, ⟨hout, -, ho, hi⟩, hf⟩ := hl
  simp only [Pivot.raised, linked_join, linked_setLink]
  exact ⟨hout, by simp [linkedTo_iff], ho, by simp, hfar, hi, hf⟩

/-- An owned rotation gives another shape of its tree. -/
theorem reshaped_raised (h : (join s a (join s b outer inner) far).Weighed) :
    Reshaped (join s a (join s b outer inner) far) (Pivot.raised s ⟨a, b, outer, inner, far⟩) where
  spans := spans_raised
  total := by simp [Pivot.raised]
  link := by simp [Pivot.raised]
  weighed _ := by
    have hsunk := toNat_sunk h
    simp only [weighed_join, total_join] at h
    obtain ⟨ha, ⟨hb, ho, hi⟩, hf⟩ := h
    simp only [Pivot.raised, weighed_join, total_join, weighed_setLink, total_setLink,
      Node.withLink_total, Node.withTotal_total, hsunk]
    exact ⟨by omega, ho, by omega, hi, hf⟩
  linked := linked_raised

/-- On a weighed tree an owned rotation succeeds. -/
theorem rotateOwned_join (h : (join s a (join s b outer inner) far).Weighed) :
    (join s a (join s b outer inner) far).rotateOwned s =
      .ok (Pivot.raised s ⟨a, b, outer, inner, far⟩) := by
  have hu := (reshaped_raised h).weighed h
  have both : (Pivot.raised s ⟨a, b, outer, inner, far⟩).bothOwn s.other = true := by
    have top := hu.own_pos (by simp [Pivot.raised])
    have sunk := (hu.child s.other).own_pos (by simp [Pivot.raised])
    simp [bothOwn, top, sunk]
  simp [rotateOwned, pivot_join h, both]

/-! ## Rotations in place -/

/-- Moving payloads keeps the faces, whatever the weights. -/
theorem faces_exchanged :
    (Pivot.exchanged s ⟨a, b, outer, inner, far⟩).faces =
      (join s a (join s b outer inner) far).faces := by
  cases s <;>
    simp only [faces, Pivot.exchanged, Pivot.ownLength, join, Node.withTotal, spans_node,
      spans_setLink, Node.span, Node.length, total_node, total_setLink, total_sunk, own_raised,
      own_raised', own_sunk, own_sunk', List.append_assoc, List.cons_append, List.map_append,
      List.map_cons, Span.face]

/-- The two nodes of a rotation in place change their places in the order. -/
theorem ids_exchanged :
    (Pivot.exchanged s ⟨a, b, outer, inner, far⟩).ids.Perm
      (join s a (join s b outer inner) far).ids := by
  rw [List.perm_iff_count]
  intro id
  cases s <;>
    simp only [Pivot.exchanged, join, ids_node, ids_setLink, List.count_append, List.count_cons,
      Node.withTotal] <;> omega

/-- Moving payloads keeps links true, whatever the weights. -/
theorem linked_exchanged (hl : (join s a (join s b outer inner) far).Linked) :
    (Pivot.exchanged s ⟨a, b, outer, inner, far⟩).Linked := by
  simp only [linked_join, linkedTo_iff (t := join s b outer inner), link?_join] at hl
  obtain ⟨hb, -, ⟨-, hin, ho, hi⟩, hf⟩ := hl
  simp only [Pivot.exchanged, linked_join, linked_setLink]
  refine ⟨by simp, ?_, ho, hin, by simp, hi, hf⟩
  simpa [linkedTo_iff] using hb

/-- A rotation in place shows the faces of its tree. -/
theorem repainted_exchanged (h : (join s a (join s b outer inner) far).Weighed) :
    Repainted (join s a (join s b outer inner) far)
      (Pivot.exchanged s ⟨a, b, outer, inner, far⟩) where
  faces := faces_exchanged
  ids := ids_exchanged
  total := by simp [Pivot.exchanged]
  link := by simp [Pivot.exchanged]
  weighed _ := by
    have hsunk := toNat_sunk h
    simp only [weighed_join, total_join] at h
    obtain ⟨ha, ⟨hb, ho, hi⟩, hf⟩ := h
    simp only [Pivot.exchanged, Pivot.ownLength, weighed_join, total_join, weighed_setLink,
      total_setLink, Node.withTotal_total, total_sunk, hsunk]
    exact ⟨by omega, ho, by omega, hi, hf⟩
  linked := linked_exchanged

/-- On a weighed tree a rotation in place succeeds. -/
theorem rotateInPlace_join (h : (join s a (join s b outer inner) far).Weighed) :
    (join s a (join s b outer inner) far).rotateInPlace s =
      (Pivot.exchanged s ⟨a, b, outer, inner, far⟩, .ok ()) := by
  have hu := (repainted_exchanged h).weighed h
  have both : (Pivot.exchanged s ⟨a, b, outer, inner, far⟩).bothOwn s.other = true := by
    have top := hu.own_pos (by simp [Pivot.exchanged])
    have sunk := (hu.child s.other).own_pos (by simp [Pivot.exchanged])
    simp [bothOwn, top, sunk]
  simp [rotateInPlace, pivot_join h, both]

end Pivot

/-- Without a child on its side a rotation in place refuses and does nothing. -/
theorem rotateInPlace_of_isNil {s : Side} {t : Tree} (h : (t.child s).isNil = true) :
    t.rotateInPlace s = (t, .error (.noChild s)) := by
  cases t with
  | nil => rfl
  | node n l r =>
    cases s with
    | left => cases l <;> simp_all [child, isNil, rotateInPlace, pivot]
    | right => cases r <;> simp_all [child, isNil, rotateInPlace, pivot]

/-- A rotation in place on a weighed tree shows the faces of the tree,
and refuses only where there is no child to raise. -/
theorem repainted_rotateInPlace (s : Side) {t : Tree} (h : t.Weighed) :
    Repainted t (t.rotateInPlace s).1 ∧
      (t.rotateInPlace s).2 = if (t.child s).isNil then .error (.noChild s) else .ok () := by
  cases hc : (t.child s).isNil with
  | true => simp [rotateInPlace_of_isNil hc, Repainted.refl]
  | false =>
    obtain ⟨a, b, outer, inner, far, rfl⟩ := exists_join hc
    rw [rotateInPlace_join h]
    exact ⟨repainted_exchanged h, rfl⟩

end Tree

end SpanTree
