/-
SpanTree.Proofs.Timings — moves between nodes leave exact caches alone.

A tree is `Timed` if its caches are exact as far as a word can tell: its
spans start at a position and follow each other. The text may begin so
late that positions wrap, which the walks of `SpanTree.Proofs.Walks` do
not allow.

Every move sets the cache of the node that it comes to, to a sum of words
that it reads on its way. On a timed tree this is the cache that the node
has. For the moves along links the sums are compared at the `edge` of a
subtree, where it starts. So a timed tree stays what it is, and where a
walk arrives, the position has its place.
-/
import SpanTree.Proofs.Orders
import SpanTree.Proofs.Strolls

namespace SpanTree

/-! ## Exact caches -/

@[simp] theorem length_laid (base : Size) (spans : List Span) :
    (laid base spans).length = spans.length := by
  simpa using congrArg List.length (ids_laid base spans)

/-- Spans are laid out where they are if those in front are, and the others from there on. -/
theorem laid_append_iff {base : Size} {a b : List Span} :
    laid base (a ++ b) = a ++ b ↔ laid base a = a ∧ laid (base + extent a) b = b := by
  rw [laid_append]
  exact ⟨fun h => List.append_inj h (length_laid base a), fun h => by rw [h.1, h.2]⟩

theorem laid_cons_iff {base : Size} {x : Span} {rest : List Span} :
    laid base (x :: rest) = x :: rest ↔
      x.position = base ∧ laid (base + x.length) rest = rest := by
  have hmoved : x.movedTo base = x ↔ x.position = base :=
    ⟨fun h => (congrArg Span.position h).symm, fun h => h ▸ rfl⟩
  rw [laid, List.cons.injEq, hmoved]

/-- A span that is laid out where it is starts where those before it end. -/
theorem position_of_laid {base : Size} {pre post : List Span} {x : Span}
    (h : laid base (pre ++ x :: post) = pre ++ x :: post) : x.position = base + extent pre :=
  (laid_cons_iff.mp (laid_append_iff.mp h).2).1

/-- The caches of a tree are exact: its spans start at a position and follow each other. -/
def Tree.Timed (t : Tree) (base : Size) : Prop := laid base t.spans = t.spans

/-- Exact caches are where the spans start. -/
theorem Tree.timed_iff {t : Tree} {base : Size} :
    t.Timed base ↔ starts base t.spans = t.caches := by
  have hlaid (base : Size) (spans : List Span) : laid base spans = spans ↔
      starts base spans = spans.map fun x => (x.id, x.position) := by
    induction spans generalizing base with
    | nil => exact ⟨fun _ => rfl, fun _ => rfl⟩
    | cons x rest ih =>
      rw [laid_cons_iff, ih, starts, List.map_cons, List.cons.injEq, Prod.mk.injEq]
      simp [eq_comm]
  exact hlaid base t.spans

/-- Edits of flags and properties leave the caches alone. -/
theorem Tree.Stamped.timed {t u : Tree} {base : Size} (h : t.Stamped [] u) (ht : t.Timed base) :
    u.Timed base := by
  have hcaches : u.caches = t.caches := h.caches.trans (List.map_id _)
  rw [timed_iff] at ht ⊢
  rw [hcaches, ← ht, ← starts_frame, frame_congr h.skeleton, starts_frame]

namespace Cursor

variable {c d : Cursor} {base p : Size} {s : Side}

theorem position_timed (h : c.toTree.Timed base) : c.position = base + extent c.before := by
  rw [Tree.Timed, c.spans_toTree] at h
  exact position_of_laid h

/-- A cache that is set to what it is. -/
theorem toTree_withPosition (h : c.toTree.Timed base) {q : Size} (hq : q = base + extent c.before) :
    (c.withPosition q).toTree = c.toTree := by
  rw [hq, ← position_timed h, withPosition_self]

/-- Where the subtree of a node starts, as a word. -/
def edge (c : Cursor) (base : Size) : Size := base + extent (Path.before c.path c.subtree)

/-- Where the own span of a node starts. -/
theorem start_edge (c : Cursor) (base : Size) :
    base + extent c.before = c.edge base + c.left.total := by
  rw [before, extent_append, Tree.extent_spans, edge]
  grind

/-- Where the subtree of a child starts. -/
theorem edge_down (hsub : d.subtree = c.child s) (hpath : d.path = c.crumb s :: c.path)
    (base : Size) : d.edge base = c.edge base + s.pick 0 (c.left.total + c.length) := by
  rw [edge, hsub, hpath, Path.before, attach_crumb, extent_append, edge]
  cases s with
  | left => simp [Crumb.before, crumb]
  | right =>
    simp [Crumb.before, crumb, child, extent_append, Tree.extent_spans, length, Node.span_length]
    grind

/-- The parts of a subtree weigh as much as it, as words. -/
theorem total_parts (c : Cursor) :
    c.left.total + c.length + c.right.total = c.node.data.total := by
  rw [length, Node.length]
  grind

/-- A child gets the cache that it has. -/
theorem timed_descend (h : c.toTree.Timed base) (hd : c.descend? s = some d) :
    d.toTree = c.toTree := by
  obtain ⟨e, he, rfl⟩ := Option.map_eq_some_iff.mp hd
  obtain ⟨hsub, hpath⟩ := down?_eq_some he
  have htree := toTree_of_down he
  have hposition := (position_timed h).trans (c.start_edge base)
  have hedge := edge_down hsub hpath base
  have htotal : e.node.data.total = (c.child s).total := congrArg Tree.total hsub
  rw [← htree]
  cases s with
  | left =>
    rw [Side.pick_left] at hedge
    refine toTree_withPosition (htree ▸ h) ?_
    rw [start_edge, hposition, hedge, htotal, child, Side.pick_left]
    grind
  | right =>
    rw [Side.pick_right] at hedge
    refine toTree_withPosition (htree ▸ h) ?_
    rw [start_edge, ending, hposition, hedge]
    grind

/-- The holder gets the cache that it has. -/
theorem timed_ascend (h : c.toTree.Timed base) (hl : c.toTree.Linked) (hd : c.ascend? = some d) :
    d.toTree = c.toTree := by
  cases hpath : c.path with
  | nil => simp [ascend?, linkedSide?, hpath] at hd
  | cons b rest =>
    obtain ⟨e, hside, hparent, htree, hchild, hcrumb⟩ := parent?_of_path hl hpath
    have hposition := (position_timed h).trans (c.start_edge base)
    have hedge := edge_down hchild hcrumb base
    have htotal : c.node.data.total = (e.child b.side).total := congrArg Tree.total hchild
    have hparts := c.total_parts
    rw [← htree] at h ⊢
    generalize b.side = side at *
    cases side with
    | left =>
      obtain rfl : e.withPosition (c.ending + c.right.total) = d := by
        simpa [ascend?, hside, hparent] using hd
      rw [Side.pick_left] at hedge
      rw [child, Side.pick_left] at htotal
      refine toTree_withPosition h ?_
      rw [start_edge, ending, hposition, ← htotal, ← hparts, hedge]
      grind
    | right =>
      obtain rfl : e.withPosition (c.position - c.left.total - e.length) = d := by
        simpa [ascend?, hside, hparent] using hd
      rw [Side.pick_right] at hedge
      refine toTree_withPosition h ?_
      rw [start_edge, hposition, hedge]
      grind

/-- The next node gets the cache that it has. -/
theorem timed_next (h : c.toTree.Timed base) (hl : c.toTree.Linked) (hd : c.next? = some d) :
    d.toTree = c.toTree := by
  obtain ⟨e, he, rfl⟩ := Option.map_eq_some_iff.mp hd
  rcases c.adjacent?_right hl with ⟨-, hnone⟩ | ⟨e', he', hnext⟩
  · cases he.symm.trans hnone
  obtain rfl := Option.some.inj (he.symm.trans he')
  rw [← hnext.toTree]
  refine toTree_withPosition (hnext.toTree ▸ h) ?_
  rw [ending, position_timed h, hnext.before, extent_append, extent_cons, extent_nil, span_length]
  grind

/-- The node before gets the cache that it has. -/
theorem timed_prev (h : c.toTree.Timed base) (hl : c.toTree.Linked) (hd : c.prev? = some d) :
    d.toTree = c.toTree := by
  obtain ⟨e, he, rfl⟩ := Option.map_eq_some_iff.mp hd
  rcases c.adjacent?_left hl with ⟨-, hnone⟩ | ⟨e', he', hnext⟩
  · cases he.symm.trans hnone
  obtain rfl := Option.some.inj (he.symm.trans he')
  rw [hnext.toTree]
  refine toTree_withPosition (hnext.toTree ▸ h) ?_
  rw [position_timed h, hnext.before, extent_append, extent_cons, extent_nil, span_length]
  grind

theorem timed_move (h : c.toTree.Timed base) (hl : c.toTree.Linked)
    (hd : c.moveTowards p = .on d) : d.toTree = c.toTree := by
  unfold moveTowards at hd
  dsimp only at hd
  split at hd
  · cases hd
  · split at hd
    · next e he =>
      cases hd
      exact timed_descend h he
    · cases hd
  · split at hd
    · next e he =>
      cases hd
      exact timed_ascend h hl he
    · cases hd

/-- A walk to a position leaves exact caches alone. -/
theorem timed_updateLoop (h : c.toTree.Timed base) (hl : c.toTree.Linked) (fuel : Nat) :
    (updateLoop p fuel c).1.toTree = c.toTree := by
  induction fuel generalizing c with
  | zero =>
    unfold updateLoop
    split <;> rfl
  | succ fuel ih =>
    unfold updateLoop
    split
    · rfl
    · rfl
    · next d hd =>
      have htree := timed_move h hl hd
      rw [ih (htree ▸ h) (htree ▸ hl), htree]

/-- A walk that succeeds has arrived. -/
theorem arrived_of_updateLoop (fuel : Nat) (h : (updateLoop p fuel c).2 = .ok ⟨⟩) :
    (updateLoop p fuel c).1.moveTowards p = .arrived := by
  induction fuel generalizing c with
  | zero =>
    unfold updateLoop at h ⊢
    split at h <;> simp_all
  | succ fuel ih =>
    unfold updateLoop at h ⊢
    split at h
    · next hmove => simp [hmove]
    · cases h
    · next d hmove => simpa [hmove] using ih h

/-- Where a walk arrives on exact caches, the position has its place, as far as a word can tell. -/
theorem locates_of_arrived (h : c.toTree.Timed base) (hw : c.toTree.Weighed)
    (hb : c.toTree.total.toNat < 2 ^ 63) (hmove : c.moveTowards p = .arrived) :
    Locates 0 (p - base) c.before c.span c.after := by
  have hin : ¬ p < c.position ∧ ¬ c.ending ≤ p := by
    unfold moveTowards at hmove
    dsimp only at hmove
    split at hmove
    · next hside =>
      split at hside
      · cases hside
      · next hlo =>
        split at hside
        · cases hside
        · next hhi => exact ⟨hlo, hhi⟩
    · split at hmove <;> cases hmove
    · split at hmove <;> cases hmove
  have hposition : c.position.toNat = (base.toNat + covered c.before) % 2 ^ 64 :=
    position_laid (h.trans c.spans_toTree)
  have hcover := hw.covered_spans
  rw [c.spans_toTree, covered_append, covered_cons, span_length] at hcover
  rw [UInt64.lt_iff_toNat_lt, UInt64.le_iff_toNat_le, ending, UInt64.toNat_add] at hin
  have hbase := base.toNat_lt
  have hp := p.toNat_lt
  rw [Locates, UInt64.toNat_sub, span_length]
  omega

end Cursor

end SpanTree
