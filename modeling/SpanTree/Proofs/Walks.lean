/-
SpanTree.Proofs.Walks — the walk from a node to a position.

A walk starts at a node whose cache is exact and derives every cache on
its way from the one before. The other caches do not matter: the node it
comes to gets an exact one (`Trusted.move`), whether the way goes down or
up. So the caches of the nodes it passes are exact afterwards and no
others have changed (`recached_updateLoop`); on a placed tree that is no
change at all.

It goes down into a subtree only if the position is in there, and up only
if it is not, so that it does not come back to a node
(`updateLoop_inside`, `updateLoop_outside`).
-/
import SpanTree.Proofs.Merges
import SpanTree.Proofs.Positions

namespace SpanTree

/-! ## Exact caches on the way -/

/-- The span with another cached position. -/
def Span.movedTo (x : Span) (position : Size) : Span := { x with position }

@[simp] theorem Span.movedTo_id (x : Span) (position : Size) : (x.movedTo position).id = x.id := rfl

@[simp] theorem Span.movedTo_length (x : Span) (position : Size) :
    (x.movedTo position).length = x.length := rfl

@[simp] theorem Span.movedTo_position (x : Span) (position : Size) :
    (x.movedTo position).position = position := rfl

/-- The spans once the caches of some nodes are exact, the first of them starting at a
position. -/
def refresh (ids : List NodeId) : Nat → List Span → List Span
  | _, [] => []
  | start, x :: rest =>
    (if x.id ∈ ids then x.movedTo (UInt64.ofNat start) else x) ::
      refresh ids (start + x.length.toNat) rest

theorem refresh_nil (start : Nat) (spans : List Span) : refresh [] start spans = spans := by
  induction spans generalizing start with
  | nil => rfl
  | cons x rest ih => simp [refresh, ih]

/-- Caches are made exact one after the other. -/
theorem refresh_cons (id : NodeId) (ids : List NodeId) (start : Nat) (spans : List Span) :
    refresh (id :: ids) start spans = refresh ids start (refresh [id] start spans) := by
  induction spans generalizing start with
  | nil => rfl
  | cons x rest ih =>
    simp only [refresh, ih, List.mem_cons, List.not_mem_nil, or_false, List.cons.injEq]
    by_cases hid : x.id = id
    · simp [hid, Span.movedTo]
    · simp [hid]

/-- Without its nodes nothing is made exact. -/
theorem refresh_of_not_mem {id : NodeId} {spans : List Span} (h : id ∉ spans.map (·.id))
    (start : Nat) : refresh [id] start spans = spans := by
  induction spans generalizing start with
  | nil => rfl
  | cons x rest ih =>
    simp only [List.map_cons, List.mem_cons, not_or] at h
    simp [refresh, Ne.symm h.1, ih h.2]

/-- The cache of one node is made exact. -/
theorem refresh_one {pre post : List Span} {x : Span} (start : Nat)
    (hd : ((pre ++ x :: post).map (·.id)).Nodup) :
    refresh [x.id] start (pre ++ x :: post) =
      pre ++ x.movedTo (UInt64.ofNat (start + covered pre)) :: post := by
  induction pre generalizing start with
  | nil =>
    simp only [List.nil_append, List.map_cons, List.nodup_cons] at hd
    simp [refresh, refresh_of_not_mem hd.1]
  | cons y ys ih =>
    simp only [List.cons_append, List.map_cons, List.nodup_cons, List.map_append, List.mem_append,
      List.mem_cons, not_or] at hd
    have hrest := ih (start + y.length.toNat) (by simpa using hd.2)
    simp [refresh, hd.1.2.1, hrest, Nat.add_assoc]

namespace Cursor

/-! ## Setting a cache -/

variable {c d : Cursor} {base : Nat} {p q : Size}

@[simp] theorem withPosition_self (c : Cursor) : c.withPosition c.position = c := rfl

@[simp] theorem position_withPosition (c : Cursor) (q : Size) : (c.withPosition q).position = q :=
  rfl

@[simp] theorem before_withPosition (c : Cursor) (q : Size) :
    (c.withPosition q).before = c.before :=
  congrArg (· ++ c.left.spans) (Path.before_congr c.path rfl)

@[simp] theorem after_withPosition (c : Cursor) (q : Size) :
    (c.withPosition q).after = c.after :=
  congrArg (c.right.spans ++ ·) (Path.after_congr c.path rfl)

@[simp] theorem span_withPosition (c : Cursor) (q : Size) :
    (c.withPosition q).span = c.span.movedTo q := rfl

/-- The tree with another cached position at a node. -/
theorem respanned_withPosition (hw : c.toTree.Weighed) (hl : c.toTree.Linked) (q : Size) :
    c.toTree.Respanned (c.before ++ c.span.movedTo q :: c.after) (c.withPosition q).toTree :=
  respanned_mapData (e := fun data => { data with position := q }) hw hl rfl

theorem total_withPosition (c : Cursor) (q : Size) :
    (c.withPosition q).toTree.total = c.toTree.total := Path.total_plug_congr c.path rfl

theorem size_withPosition (c : Cursor) (q : Size) :
    (c.withPosition q).toTree.size = c.toTree.size := by
  rw [← Tree.length_spans, ← Tree.length_spans, spans_toTree, spans_toTree]
  simp

/-! ## Trusted nodes -/

/-- The cursor looks at a node whose cache is exact. Its tree ends before positions wrap. -/
structure Trusted (c : Cursor) (base : Nat) : Prop where
  weighed : c.toTree.Weighed
  linked : c.toTree.Linked
  position : c.position.toNat = base + covered c.before
  fits : base + c.toTree.total.toNat < 2 ^ 64

/-- A node gets an exact cache. -/
theorem Trusted.withPosition (h : c.Trusted base) (htree : d.toTree = c.toTree)
    (hq : q.toNat = base + covered d.before) : (d.withPosition q).Trusted base := by
  obtain ⟨hw, hl, -, hfits⟩ := h
  rw [← htree] at hw hl hfits
  have hr := d.respanned_withPosition hw hl q
  refine ⟨hr.weighed, hr.linked, ?_, ?_⟩
  · rwa [before_withPosition, position_withPosition]
  · rwa [total_withPosition]

/-- Where the subtree of the node starts. -/
def low (c : Cursor) (base : Nat) : Nat := base + covered (Path.before c.path c.subtree)

/-- The position is in the subtree of the node. -/
def Reaches (c : Cursor) (base : Nat) (position : Size) : Prop :=
  c.low base ≤ position.toNat ∧ position.toNat < c.low base + c.node.data.total.toNat

/-- The position is in the own span of the node. -/
def Owns (c : Cursor) (position : Size) : Prop :=
  c.position.toNat ≤ position.toNat ∧ position.toNat < c.position.toNat + c.length.toNat

@[simp] theorem low_withPosition (c : Cursor) (q : Size) (base : Nat) :
    (c.withPosition q).low base = c.low base :=
  congrArg (base + covered ·) (Path.before_congr c.path rfl)

@[simp] theorem reaches_withPosition (c : Cursor) (q : Size) (base : Nat) (p : Size) :
    (c.withPosition q).Reaches base p ↔ c.Reaches base p := by
  rw [Reaches, Reaches, low_withPosition]
  rfl

section Weighed

variable (hw : c.toTree.Weighed)
include hw

theorem length_eq :
    c.left.total.toNat + c.right.total.toNat < c.node.data.total.toNat ∧
      c.length.toNat =
        c.node.data.total.toNat - c.left.total.toNat - c.right.total.toNat := by
  have hn := (weighed_subtree hw).1
  exact ⟨hn, Node.toNat_length hn⟩

/-- The node's subtree ends no later than the tree. -/
theorem low_add_le (base : Nat) :
    c.low base + c.node.data.total.toNat +
      covered (Path.after c.path c.subtree) = base + c.toTree.total.toNat := by
  have hsub := (weighed_subtree hw).covered_spans
  have hsum := hw.covered_spans
  rw [toTree, Path.spans_plug, covered_append, covered_append, hsub] at hsum
  rw [low, toTree, ← hsum]
  simp only [subtree, Tree.total_node]
  omega

/-- Where the own span of the node starts. -/
theorem start_eq (base : Nat) : base + covered c.before = c.low base + c.left.total.toNat := by
  have hleft := (weighed_subtree hw).2.1.covered_spans
  rw [before, covered_append, hleft, low]
  omega

/-- Where the subtree of a child starts. -/
theorem low_down {s : Side} (hsub : d.subtree = c.child s) (hpath : d.path = c.crumb s :: c.path)
    (base : Nat) :
    d.low base = c.low base + s.pick 0 (c.left.total.toNat + c.length.toNat) := by
  rw [low, hsub, hpath, Path.before, attach_crumb, covered_append, low]
  cases s with
  | left => simp [Crumb.before, crumb]
  | right =>
    have hleft := (weighed_subtree hw).2.1.covered_spans
    simp [Crumb.before, crumb, child, hleft, Node.span, length]
    omega

end Weighed

/-- On a linked tree the holder of a node is its linked parent. -/
theorem parent?_of_path (hl : c.toTree.Linked) {b : Crumb} {rest : Path}
    (hpath : c.path = b :: rest) :
    ∃ d, c.linkedSide? = some b.side ∧ c.parent? = some d ∧ d.toTree = c.toTree ∧
      c.subtree = d.child b.side ∧ c.path = d.crumb b.side :: d.path := by
  have hlink := link_of_path hl hpath
  obtain ⟨side, holder, sibling⟩ := b
  have hside : c.linkedSide? = some side := by simp [linkedSide?, hpath, hlink]
  obtain ⟨d, hd⟩ : ∃ d, c.up? = some d := by simp [up?, hpath]
  have hup : d.node = holder ∧ d.left = side.pick c.subtree sibling ∧
      d.right = side.pick sibling c.subtree ∧ d.path = rest := by
    simp only [up?, hpath, Option.some.injEq] at hd
    subst hd
    exact ⟨rfl, rfl, rfl, rfl⟩
  obtain ⟨rfl, hleft, hright, rfl⟩ := hup
  have hsub : d.subtree = Crumb.attach ⟨side, d.node, sibling⟩ c.subtree := by
    cases side <;> simp [subtree, hleft, hright, Crumb.attach, Tree.join]
  refine ⟨d, hside, by simp [parent?, hside, hd], ?_, ?_, ?_⟩
  · rw [toTree, hsub, toTree, hpath, Path.plug_cons]
  · cases side <;> simp [child, hleft, hright]
  · rw [hpath]
    cases side <;> simp [crumb, hleft, hright]

/-- A search from the top for the position that an offset stands for comes to the place of the
position, and sets an exact cache there. -/
theorem seek_top (hw : c.toTree.Weighed) (hpath : c.path = []) {offset : Size}
    (hp : p.toNat = base + offset.toNat) (ho : offset.toNat ≤ c.toTree.total.toNat) :
    ∃ (d : Cursor) (q : Size), c.seek offset p = d.withPosition q ∧ d.toTree = c.toTree ∧
      q.toNat = base + covered d.before ∧ Locates base p d.before d.span d.after := by
  have htop := toTree_of_top hpath
  obtain ⟨d, rest, pre, hd, htree, hbefore, hrest, hsum, hpre, hin⟩ :=
    Tree.seekBelow_ok (htop ▸ hw) rfl (htop ▸ ho) c.path
  have hcover := hw.covered_spans
  rw [hpath, Path.before, List.nil_append] at hbefore
  rw [show c.toTree = d.toTree from htree.symm, d.spans_toTree, hbefore, covered_append,
    covered_cons, span_length, show d.toTree = c.toTree from htree] at hcover
  rw [← htop, hpath, Path.after] at hin
  have hback : (p - rest).toNat = p.toNat - rest.toNat := Size.toNat_sub_of_le (by omega)
  have hbound := p.toNat_lt
  refine ⟨d, p - rest + d.left.total, by simp only [seek, hd], htree, ?_, ?_⟩
  · rw [hbefore, Size.toNat_add_of_lt] <;> omega
  · rw [Locates, hbefore, span_length]
    refine ⟨by omega, ?_⟩
    rcases hin with hin | ⟨hend, hafter⟩
    · exact .inl (by omega)
    · rw [hafter, covered_nil] at hcover
      exact .inr ⟨by omega, hafter⟩

namespace Trusted

theorem position_eq (h : c.Trusted base) :
    c.position.toNat = c.low base + c.left.total.toNat :=
  h.position.trans (start_eq h.weighed base)

theorem ending_eq (h : c.Trusted base) :
    c.ending.toNat = c.low base + c.left.total.toNat + c.length.toNat := by
  have := low_add_le h.weighed base
  have := h.fits
  have := length_eq h.weighed
  have := h.position_eq
  rw [ending, Size.toNat_add_of_lt] <;> omega

/-! ## Single moves -/

/-- Down to a child, with an exact cache. -/
theorem descend? (h : c.Trusted base) {s : Side} (hs : (c.child s).isNil = false) :
    ∃ (d : Cursor) (q : Size), c.descend? s = some (d.withPosition q) ∧ d.toTree = c.toTree ∧
      d.path = c.crumb s :: c.path ∧ d.subtree = c.child s ∧
      q.toNat = base + covered d.before := by
  cases hd : c.down? s with
  | none => simp [down?_eq_none.mp hd, Tree.isNil] at hs
  | some d =>
    obtain ⟨hsub, hpath⟩ := down?_eq_some hd
    have htree : d.toTree = c.toTree := by
      rw [toTree, hsub, hpath, Path.plug_cons, attach_crumb, toTree]
    have hdw : d.toTree.Weighed := htree ▸ h.weighed
    have htotal : d.node.data.total = (c.child s).total := by rw [← hsub]; rfl
    have hlow := low_down h.weighed hsub hpath base
    have hpos := h.position_eq
    have hstart := start_eq hdw base
    have hend := h.ending_eq
    have hdlen := (length_eq hdw).1
    have hbound := h.fits
    have hsum := low_add_le hdw base
    rw [htree] at hsum
    cases s with
    | left =>
      have hl : c.left.total.toNat = d.node.data.total.toNat := by rw [htotal]; rfl
      have hbelow : (c.position - d.node.data.total).toNat = c.low base := by
        rw [Size.toNat_sub_of_le] <;> omega
      refine ⟨d, c.position - d.node.data.total + d.left.total, ?_, htree, hpath, hsub, ?_⟩
      · simp [Cursor.descend?, hd]
      · simp only [Side.pick_left, Nat.add_zero] at hlow
        rw [Size.toNat_add_of_lt] <;> omega
    | right =>
      simp only [Side.pick_right] at hlow
      refine ⟨d, c.ending + d.left.total, ?_, htree, hpath, hsub, ?_⟩
      · simp [Cursor.descend?, hd]
      · rw [Size.toNat_add_of_lt] <;> omega

/-- Up to the holder, with an exact cache. -/
theorem ascend? (h : c.Trusted base) {b : Crumb} {rest : Path} (hpath : c.path = b :: rest) :
    ∃ (d : Cursor) (q : Size), c.ascend? = some (d.withPosition q) ∧ d.toTree = c.toTree ∧
      c.subtree = d.child b.side ∧ c.path = d.crumb b.side :: d.path ∧
      q.toNat = base + covered d.before := by
  obtain ⟨d, hside, hparent, htree, hchild, hcrumb⟩ := parent?_of_path h.linked hpath
  have hdw : d.toTree.Weighed := htree ▸ h.weighed
  have hlow := low_down hdw hchild hcrumb base
  have hpos := h.position_eq
  have hstart := start_eq hdw base
  have hend := h.ending_eq
  have hlen := length_eq h.weighed
  have hdlen := length_eq hdw
  have hbound := h.fits
  have hsum := low_add_le h.weighed base
  have htotal : c.node.data.total = (d.child b.side).total := congrArg Tree.total hchild
  generalize b.side = side at *
  cases side with
  | left =>
    have hl : d.left.total.toNat = c.node.data.total.toNat := by rw [htotal]; rfl
    simp only [Side.pick_left, Nat.add_zero] at hlow
    refine ⟨d, c.ending + c.right.total, ?_, htree, hchild, hcrumb, ?_⟩
    · simp [Cursor.ascend?, hside, hparent]
    · rw [Size.toNat_add_of_lt] <;> omega
  | right =>
    have hr : d.right.total.toNat = c.node.data.total.toNat := by rw [htotal]; rfl
    simp only [Side.pick_right] at hlow
    have hbelow : (c.position - c.left.total).toNat = c.low base := by
      rw [Size.toNat_sub_of_le] <;> omega
    refine ⟨d, c.position - c.left.total - d.length, ?_, htree, hchild, hcrumb, ?_⟩
    · simp [Cursor.ascend?, hside, hparent]
    · rw [Size.toNat_sub_of_le] <;> omega

/-- The child on whose side a position is reaches the position. -/
theorem descend?_reaches (h : c.Trusted base) {s : Side}
    (hge : c.low base + s.pick 0 (c.left.total.toNat + c.length.toNat) ≤ p.toNat)
    (hlt : p.toNat < c.low base + s.pick 0 (c.left.total.toNat + c.length.toNat) +
      (c.child s).total.toNat) :
    ∃ (d : Cursor) (q : Size), c.descend? s = some (d.withPosition q) ∧ d.toTree = c.toTree ∧
      d.subtree = c.child s ∧ q.toNat = base + covered d.before ∧ d.path = c.crumb s :: c.path ∧
      d.Reaches base p := by
  have hne : (c.child s).isNil = false := by
    cases hc : c.child s with
    | nil => simp [hc] at hlt; omega
    | node => rfl
  obtain ⟨d, q, hd, htree, hpath, hsub, hq⟩ := h.descend? hne
  have htotal : d.node.data.total = (c.child s).total := by rw [← hsub]; rfl
  refine ⟨d, q, hd, htree, hsub, hq, hpath, ?_⟩
  rw [Reaches, low_down h.weighed hsub hpath, htotal]
  exact ⟨hge, hlt⟩

/-- At the top the walk refuses a position with the bounds of the tree. -/
theorem outside_eq (h : c.Trusted base) (hpath : c.path = []) (p : Size) :
    ∃ first last : Size, first.toNat = base ∧ last.toNat = base + c.toTree.total.toNat - 1 ∧
      c.ascend? = none ∧ c.outside p = .range ⟨"interval::update", p, first, last⟩ := by
  have hpos := h.position_eq
  have hend := h.ending_eq
  have hlen := length_eq h.weighed
  have hbound := h.fits
  have hsum := low_add_le h.weighed base
  have hlow : c.low base = base := by simp [low, hpath, Path.before]
  have hafter : covered (Path.after c.path c.subtree) = 0 := by simp [hpath, Path.after]
  have hhigh : (c.ending + c.right.total).toNat = c.low base + c.node.data.total.toNat := by
    rw [Size.toNat_add_of_lt] <;> omega
  refine ⟨c.position - c.left.total, c.ending + c.right.total - 1, ?_, ?_, ?_, rfl⟩
  · rw [Size.toNat_sub_of_le] <;> omega
  · rw [Size.toNat_sub_of_le] <;> simp only [UInt64.reduceToNat] <;> omega
  · simp [Cursor.ascend?, linkedSide?, hpath]

end Trusted

/-- Where the next move of a walk goes. -/
inductive Heading (c : Cursor) (base : Nat) (p : Size) : Prop where
  /-- The walk stays at the node that owns the position. -/
  | arrived (owns : c.Owns p) (move : c.moveTowards p = .arrived)
  /-- It goes down on the side where the position is. -/
  | down (s : Side) (d : Cursor) (q : Size) (inside : c.Reaches base p)
      (move : c.moveTowards p = .on (d.withPosition q)) (toTree : d.toTree = c.toTree)
      (subtree : d.subtree = c.child s) (exact : q.toNat = base + covered d.before)
      (path : d.path = c.crumb s :: c.path) (reaches : d.Reaches base p)
  /-- It goes up where the position is not in the subtree. -/
  | up (s : Side) (d : Cursor) (q : Size) (outside : ¬ c.Reaches base p)
      (move : c.moveTowards p = .on (d.withPosition q)) (toTree : d.toTree = c.toTree)
      (child : c.subtree = d.child s) (exact : q.toNat = base + covered d.before)
      (path : c.path = d.crumb s :: d.path)
  /-- It refuses the position at the top. -/
  | refused (first last : Size) (outside : ¬ c.Reaches base p) (top : c.path = [])
      (move : c.moveTowards p = .refused (.range ⟨"interval::update", p, first, last⟩))
      (first_eq : first.toNat = base) (last_eq : last.toNat = base + c.toTree.total.toNat - 1)

namespace Trusted

/-- Each move has one of the headings. -/
theorem heading (h : c.Trusted base) (p : Size) : Heading c base p := by
  have hpos := h.position_eq
  have hend := h.ending_eq
  have hlen := length_eq h.weighed
  have hbound := h.fits
  have hsum := low_add_le h.weighed base
  have hlow : (c.position - c.left.total).toNat = c.low base := by
    rw [Size.toNat_sub_of_le] <;> omega
  have hhigh : (c.ending + c.right.total).toNat = c.low base + c.node.data.total.toNat := by
    rw [Size.toNat_add_of_lt] <;> omega
  have leave : ¬ c.Reaches base p →
      (∀ d, c.ascend? = some d → c.moveTowards p = .on d) →
      (c.ascend? = none → c.moveTowards p = .refused (c.outside p)) → Heading c base p := by
    intro hout hsome hnone
    cases hpath : c.path with
    | cons b rest =>
      obtain ⟨d, q, hd, htree, hchild, hcrumb, hq⟩ := h.ascend? hpath
      exact .up b.side d q hout (hsome _ hd) htree hchild hq hcrumb
    | nil =>
      obtain ⟨first, last, hfirst, hlast, hasc, hfault⟩ := h.outside_eq hpath p
      exact .refused first last hout hpath (by rw [hnone hasc, hfault]) hfirst hlast
  by_cases hlt : p < c.position
  · have hlt' := UInt64.lt_iff_toNat_lt.mp hlt
    by_cases hin : c.position - c.left.total ≤ p
    · have hin' := UInt64.le_iff_toNat_le.mp hin
      obtain ⟨d, q, hd, htree, hsub, hq, hpath, hreach⟩ := h.descend?_reaches (s := .left) (p := p)
        (by simp only [Side.pick_left]; omega)
        (by change p.toNat < c.low base + 0 + c.left.total.toNat; omega)
      exact .down .left d q ⟨by omega, by omega⟩ (by simp [moveTowards, hlt, hin, hd]) htree hsub
        hq hpath hreach
    · have hin' : ¬ c.low base ≤ p.toNat := fun hc =>
        hin (UInt64.le_iff_toNat_le.mpr (by omega))
      refine leave (fun hc => hin' hc.1) (fun d hd => ?_) (fun hd => ?_) <;>
        simp [moveTowards, hlt, hin, hd]
  · by_cases hge : c.ending ≤ p
    · have hge' := UInt64.le_iff_toNat_le.mp hge
      by_cases hin : p < c.ending + c.right.total
      · have hin' := UInt64.lt_iff_toNat_lt.mp hin
        obtain ⟨d, q, hd, htree, hsub, hq, hpath, hreach⟩ :=
          h.descend?_reaches (s := .right) (p := p)
            (by simp only [Side.pick_right]; omega)
            (by
              change p.toNat < c.low base + (c.left.total.toNat + c.length.toNat) +
                c.right.total.toNat
              omega)
        exact .down .right d q ⟨by omega, by omega⟩ (by simp [moveTowards, hlt, hge, hin, hd])
          htree hsub hq hpath hreach
      · have hin' : ¬ p.toNat < c.low base + c.node.data.total.toNat := fun hc =>
          hin (UInt64.lt_iff_toNat_lt.mpr (by omega))
        refine leave (fun hc => hin' hc.2) (fun d hd => ?_) (fun hd => ?_) <;>
          simp [moveTowards, hlt, hge, hin, hd]
    · refine .arrived ⟨?_, ?_⟩ (by simp [moveTowards, hlt, hge])
      · rw [UInt64.lt_iff_toNat_lt] at hlt
        omega
      · rw [UInt64.le_iff_toNat_le] at hge
        omega

/-- **A move** comes to a node of the tree, and makes its cache exact. -/
theorem move (h : c.Trusted base) (hmove : c.moveTowards p = .on d) :
    ∃ (e : Cursor) (q : Size), d = e.withPosition q ∧ e.toTree = c.toTree ∧
      (e.withPosition q).Trusted base := by
  cases h.heading p with
  | arrived _ hstay => simp [hstay] at hmove
  | refused _ _ _ _ hstay => simp [hstay] at hmove
  | down s e q _ hon htree _ hq =>
    obtain rfl : e.withPosition q = d := by simpa [hon] using hmove
    exact ⟨e, q, rfl, htree, h.withPosition htree hq⟩
  | up s e q _ hon htree _ hq =>
    obtain rfl : e.withPosition q = d := by simpa [hon] using hmove
    exact ⟨e, q, rfl, htree, h.withPosition htree hq⟩

end Trusted

/-! ## The nodes of a walk -/

/-- The nodes where a walk to a position stands, from the first to the one where it ends. The
fuel bounds the number of moves. -/
def stations (position : Size) : Nat → Cursor → List Cursor
  | 0, c => [c]
  | fuel + 1, c =>
    c :: match c.moveTowards position with
      | .on d => stations position fuel d
      | _ => []

section Loop

variable {fuel : Nat} {f : Fault}

theorem updateLoop_arrived (h : c.moveTowards p = .arrived) :
    updateLoop p fuel c = (c, .ok ()) := by
  rw [updateLoop, h]

theorem updateLoop_refused (h : c.moveTowards p = .refused f) :
    updateLoop p fuel c = (c, .error f) := by
  rw [updateLoop, h]

theorem updateLoop_on (h : c.moveTowards p = .on d) :
    updateLoop p (fuel + 1) c = updateLoop p fuel d := by
  rw [updateLoop, h]

/-- All nodes where a walk stands are trusted. -/
theorem Trusted.stations (h : c.Trusted base) : ∀ d ∈ stations p fuel c, d.Trusted base := by
  induction fuel generalizing c with
  | zero => simpa [Cursor.stations] using h
  | succ fuel ih =>
    intro d hd
    rcases List.mem_cons.mp hd with rfl | hd
    · exact h
    · split at hd
      · next e hmove =>
        obtain ⟨e', q, rfl, -, he⟩ := h.move hmove
        exact ih he d hd
      · simp at hd

/-- A walk ends at the last of its nodes. -/
theorem getLast?_stations (fuel : Nat) (c : Cursor) :
    (stations p fuel c).getLast? = some (updateLoop p fuel c).1 := by
  induction fuel generalizing c with
  | zero =>
    unfold updateLoop
    split <;> rfl
  | succ fuel ih =>
    cases hmove : c.moveTowards p with
    | arrived =>
      rw [updateLoop_arrived hmove]
      simp [Cursor.stations, hmove]
    | refused f =>
      rw [updateLoop_refused hmove]
      simp [Cursor.stations, hmove]
    | on d =>
      rw [updateLoop_on hmove]
      simp [Cursor.stations, hmove, List.getLast?_cons, ih]

end Loop

/-- The second tree is the first once the caches of some nodes were made exact, one after the
other. -/
inductive Recached (base : Nat) : List NodeId → Tree → Tree → Prop
  | refl (t : Tree) : Recached base [] t t
  | step {c : Cursor} {q : Size} {ids : List NodeId} {u : Tree}
    (exact : q.toNat = base + covered c.before)
    (rest : Recached base ids (c.withPosition q).toTree u) :
    Recached base (c.node.id :: ids) c.toTree u

/-- In the list of spans these caches are exact, and no others have changed. -/
theorem Recached.spans {ids : List NodeId} {t u : Tree} (h : Recached base ids t u)
    (hd : t.ids.Nodup) : u.spans = refresh ids base t.spans := by
  induction h with
  | refl t => rw [refresh_nil]
  | @step c q ids u hq _ ih =>
    have hset : (c.withPosition q).toTree.spans = c.before ++ c.span.movedTo q :: c.after := by
      rw [spans_toTree, before_withPosition, after_withPosition]
      rfl
    rw [Tree.ids, spans_toTree] at hd
    have hcut := refresh_one base hd
    rw [← hq, UInt64.ofNat_toNat, ← hset] at hcut
    rw [ih (by rw [Tree.ids, hset]; simpa using hd), refresh_cons, c.spans_toTree, ← span_id, hcut]

/-- Where all caches are exact already nothing changes. -/
theorem Recached.eq_of_placed {ids : List NodeId} {t u : Tree} (h : Recached base ids t u)
    (hp : Placed base t.spans) : u = t := by
  induction h with
  | refl t => rfl
  | @step c q ids u hq _ ih =>
    have hpos := hp
    rw [spans_toTree] at hpos
    obtain rfl : c.position = q := UInt64.toNat_inj.mp (hpos.position.trans hq.symm)
    exact ih hp

/-- What a walk passes it makes exact, beginning with a node that got an exact cache. -/
theorem recached_updateLoop {fuel : Nat} (h : (c.withPosition q).Trusted base) :
    Recached base ((stations p fuel (c.withPosition q)).map (·.node.id)) c.toTree
      (updateLoop p fuel (c.withPosition q)).1.toTree := by
  induction fuel generalizing c q with
  | zero =>
    have hq := h.position
    rw [before_withPosition] at hq
    have hend : (updateLoop p 0 (c.withPosition q)).1 = c.withPosition q := by
      unfold updateLoop
      split <;> rfl
    rw [hend]
    exact .step hq (.refl _)
  | succ fuel ih =>
    have hq := h.position
    rw [before_withPosition] at hq
    cases hmove : (c.withPosition q).moveTowards p with
    | arrived =>
      rw [updateLoop_arrived hmove]
      simp only [Cursor.stations, hmove]
      exact .step hq (.refl _)
    | refused f =>
      rw [updateLoop_refused hmove]
      simp only [Cursor.stations, hmove]
      exact .step hq (.refl _)
    | on d =>
      obtain ⟨e, r, rfl, htree, he⟩ := h.move hmove
      rw [updateLoop_on hmove]
      simp only [Cursor.stations, hmove]
      exact .step hq (htree ▸ ih he)

/-! ## Where a walk ends -/

theorem size_plug_ge (path : Path) (t : Tree) : t.size ≤ (Path.plug path t).size := by
  induction path generalizing t with
  | nil => exact Nat.le_refl _
  | cons b rest ih =>
    refine Nat.le_trans ?_ (ih (b.attach t))
    simp only [Crumb.attach, Tree.size_join]
    omega

theorem not_reaches_of_path_nil (hpath : c.path = []) (h : ¬ c.Reaches base p) :
    ¬ (base ≤ p.toNat ∧ p.toNat < base + c.toTree.total.toNat) := by
  have hlow : c.low base = base := by simp [low, hpath, Path.before]
  rw [Reaches, hlow] at h
  simpa [toTree, hpath, subtree] using h

theorem Trusted.reaches_of_owns (h : c.Trusted base) (hown : c.Owns p) : c.Reaches base p := by
  have hpos := h.position_eq
  have hlen := length_eq h.weighed
  obtain ⟨hge, hlt⟩ := hown
  exact ⟨by omega, by omega⟩

/-- A subtree's positions are positions of the tree. -/
theorem Trusted.reaches_tree (h : c.Trusted base) (hr : c.Reaches base p) :
    base ≤ p.toNat ∧ p.toNat < base + c.toTree.total.toNat := by
  have hsum := low_add_le h.weighed base
  have hlow : base ≤ c.low base := Nat.le_add_right _ _
  obtain ⟨hge, hlt⟩ := hr
  omega

/-- A walk whose position is in the subtree goes down to its owner. -/
theorem updateLoop_inside {fuel : Nat} (h : c.Trusted base) (hr : c.Reaches base p)
    (hf : c.subtree.size ≤ fuel + 1) : ∃ d, updateLoop p fuel c = (d, .ok ()) ∧ d.Owns p := by
  induction fuel generalizing c with
  | zero =>
    cases h.heading p with
    | arrived hown hmove => exact ⟨c, updateLoop_arrived hmove, hown⟩
    | down s d q _ _ _ hsub =>
      have hlt : d.subtree.size < c.subtree.size := hsub ▸ Tree.size_child_lt (t := c.subtree) s rfl
      simp only [subtree, Tree.size] at hlt hf
      omega
    | up s d q hout => exact absurd hr hout
    | refused first last hout => exact absurd hr hout
  | succ fuel ih =>
    cases h.heading p with
    | arrived hown hmove => exact ⟨c, updateLoop_arrived hmove, hown⟩
    | down s d q _ hmove htree hsub hq _ hreach =>
      have hlt : d.subtree.size < c.subtree.size := hsub ▸ Tree.size_child_lt (t := c.subtree) s rfl
      have hsize : (d.withPosition q).subtree.size = d.subtree.size := rfl
      obtain ⟨e, he, hown⟩ := ih (h.withPosition htree hq) (by simpa using hreach) (by omega)
      exact ⟨e, (updateLoop_on hmove).trans he, hown⟩
    | up s d q hout => exact absurd hr hout
    | refused first last hout => exact absurd hr hout

/-- What becomes of a walk to a position: it arrives at the owner if the
tree reaches the position, and otherwise refuses it with the bounds of
the tree. -/
structure Arrives (base : Nat) (p : Size) (c : Cursor) (r : Cursor × Except Fault Unit) : Prop where
  inside : base ≤ p.toNat ∧ p.toNat < base + c.toTree.total.toNat → r.2 = .ok () ∧ r.1.Owns p
  outside : ¬ (base ≤ p.toNat ∧ p.toNat < base + c.toTree.total.toNat) →
    ∃ first last, first.toNat = base ∧ last.toNat = base + c.toTree.total.toNat - 1 ∧
      r.2 = .error (.range ⟨"interval::update", p, first, last⟩)

/-- A walk whose position is not in the subtree goes up until it is, and
then down on the other side, or refuses the position at the top. -/
theorem updateLoop_outside {fuel : Nat} {c : Cursor} (h : c.Trusted base)
    (hr : ¬ c.Reaches base p) (hf : c.toTree.size ≤ fuel + c.subtree.size) :
    Arrives base p c (updateLoop p fuel c) := by
  cases h.heading p with
  | arrived hown => exact absurd (h.reaches_of_owns hown) hr
  | down s d q hin => exact absurd hin hr
  | refused first last _ htop hmove hfirst hlast =>
    rw [updateLoop_refused hmove]
    exact ⟨fun hin => absurd hin (not_reaches_of_path_nil htop hr),
      fun _ => ⟨first, last, hfirst, hlast, rfl⟩⟩
  | up s d q _ hmove htree hchild hq hpath =>
    have hgrow : c.subtree.size + (d.child s.other).size + 1 = d.subtree.size := by
      rw [hchild]
      cases s with
      | left => simp [child, subtree, Tree.size, Side.other]
      | right =>
        simp only [child, subtree, Tree.size, Side.other, Side.pick_left, Side.pick_right]
        omega
    have hfit := size_plug_ge d.path d.subtree
    rw [← toTree, htree] at hfit
    have hd := h.withPosition htree hq
    have hsize := size_withPosition d q
    have htotal := total_withPosition d q
    rw [htree] at hsize htotal
    cases fuel with
    | zero => omega
    | succ fuel =>
      rw [updateLoop_on hmove]
      by_cases hdr : (d.withPosition q).Reaches base p
      · -- the way turns at the holder, or below it on the other side
        have hin := hd.reaches_tree hdr
        rw [htotal] at hin
        suffices ∃ e, updateLoop p fuel (d.withPosition q) = (e, .ok ()) ∧ e.Owns p by
          obtain ⟨e, he, hown⟩ := this
          rw [he]
          exact ⟨fun _ => ⟨rfl, hown⟩, fun hout => absurd hin hout⟩
        cases hd.heading p with
        | arrived hown hdmove =>
          exact ⟨_, updateLoop_arrived hdmove, hown⟩
        | up _ _ _ hout => exact absurd hdr hout
        | refused _ _ hout => exact absurd hdr hout
        | down s' e r _ hdmove hetree hesub hr' hepath hreach =>
          rcases s.eq_or_eq_other s' with rfl | rfl
          · refine absurd ?_ hr
            have hlow : e.low base = c.low base := by
              rw [low_down hd.weighed hesub hepath, low_withPosition,
                low_down (htree ▸ h.weighed) hchild hpath]
              rfl
            have htotal : e.node.data.total = c.node.data.total :=
              congrArg Tree.total (hesub.trans hchild.symm)
            rwa [Reaches, hlow, htotal] at hreach
          · have hesize : e.subtree.size = (d.child s.other).size := congrArg Tree.size hesub
            cases fuel with
            | zero =>
              have hpos : 0 < e.subtree.size := Nat.succ_pos _
              omega
            | succ fuel =>
              have hfuel : e.subtree.size ≤ fuel + 1 := by omega
              obtain ⟨x, hx, hown⟩ := updateLoop_inside (hd.withPosition hetree hr')
                (by simpa using hreach) hfuel
              exact ⟨x, (updateLoop_on hdmove).trans hx, hown⟩
      · have hrec := updateLoop_outside hd hdr
          (show (d.withPosition q).toTree.size ≤ fuel + d.subtree.size by omega)
        obtain ⟨hin, hout⟩ := hrec
        rw [htotal] at hin hout
        exact ⟨hin, hout⟩

/-- **The walk from a node** with an exact cache arrives at the owner of the position, or
refuses the position. -/
theorem Trusted.update_arrives (h : c.Trusted base) (p : Size) : Arrives base p c (c.update p) := by
  by_cases hr : c.Reaches base p
  · have hfuel : c.subtree.size ≤ c.toTree.size + 1 :=
      Nat.le_succ_of_le (size_plug_ge c.path c.subtree)
    obtain ⟨d, hd, hown⟩ := updateLoop_inside h hr hfuel
    rw [update, hd]
    exact ⟨fun _ => ⟨rfl, hown⟩, fun hout => absurd (h.reaches_tree hr) hout⟩
  · exact updateLoop_outside h hr (Nat.le_add_right _ _)

/-- The nodes that a walk passes, with the first and the last. -/
def passed (c : Cursor) (p : Size) : List NodeId :=
  (stations p c.toTree.size c).map (·.node.id)

/-- A walk makes the caches on its way exact and leaves the tree otherwise as it is. -/
theorem Trusted.recached_update (h : c.Trusted base) (p : Size) :
    Recached base (c.passed p) c.toTree (c.update p).1.toTree :=
  recached_updateLoop (q := c.position) h

/-- The node where a walk ends is trusted. -/
theorem Trusted.update (h : c.Trusted base) (p : Size) : (c.update p).1.Trusted base :=
  h.stations _ (List.mem_of_getLast? (getLast?_stations c.toTree.size c))

end Cursor

end SpanTree
