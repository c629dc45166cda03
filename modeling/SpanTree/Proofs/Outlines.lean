/-
SpanTree.Proofs.Outlines — what operations on a tree do to its links,
whatever its weights.

Weights decide which way an operation goes and where it fails, and a
failure can leave a part of its work or destroy a subtree. The links do
not depend on them. `Tree.Hangs` says of what an operation leaves that
it is linked, that its top has the link of the top before, and that it
has no node twice and none that was not there. It is proved of every
result, the failed ones included.

Most steps change payloads only. They keep the `Tree.outline`, the tree
without payloads, and `Hangs` is about outlines (`hangs_congr`). What is
left are the steps that move nodes: rotations, the unlinking of a node,
and the new piece of a split.
-/
import SpanTree.Proofs.WorkLists
import SpanTree.Proofs.Splits
import Mathlib.Data.List.Perm.Subperm

namespace SpanTree

/-! ## Outlines -/

/-- A node without its payload. -/
def Node.bare (n : Node) : Node := { n with data := {} }

namespace Tree

/-- A tree without the payloads of its nodes. -/
def outline : Tree → Tree
  | .nil => .nil
  | .node n l r => .node n.bare l.outline r.outline

variable {t u : Tree}

@[simp] theorem link?_outline (t : Tree) : t.outline.link? = t.link? := by
  cases t <;> rfl

@[simp] theorem id?_outline (t : Tree) : t.outline.id? = t.id? := by
  cases t <;> rfl

@[simp] theorem ids_outline (t : Tree) : t.outline.ids = t.ids := by
  induction t with
  | nil => rfl
  | node n l r ihl ihr => rw [outline, ids_node, ids_node, ihl, ihr, Node.bare]

@[simp] theorem linked_outline (t : Tree) : t.outline.Linked ↔ t.Linked := by
  induction t with
  | nil => exact Iff.rfl
  | node n l r ihl ihr =>
    simp only [outline, Linked, ihl, ihr, Node.bare, linkedTo_congr (link?_outline _)]

@[simp] theorem outline_join (s : Side) (n : Node) (near far : Tree) :
    (join s n near far).outline = join s n.bare near.outline far.outline := by
  cases s <;> rfl

/-- A length that moves into a subtree leaves the outline. -/
@[simp] theorem outline_absorbAtEnd (s : Side) (amount start : Size) (t : Tree) :
    (t.absorbAtEnd s amount start).outline = t.outline := by
  induction t with
  | nil => rfl
  | node n l r ihl ihr =>
    cases s with
    | left =>
      rw [absorbAtEnd_left]
      split
      · rfl
      · rw [outline, outline, ihl]; rfl
    | right =>
      rw [absorbAtEnd_right]
      split
      · rfl
      · rw [outline, outline, ihr]; rfl

end Tree

namespace Path

/-- A path without the payloads of its nodes. -/
def outline (p : Path) : Path := p.map fun b => ⟨b.side, b.holder.bare, b.sibling.outline⟩

@[simp] theorem outline_plug (p : Path) (t : Tree) :
    (plug p t).outline = plug p.outline t.outline := by
  induction p generalizing t with
  | nil => rfl
  | cons b rest ih => rw [plug_cons, ih, Crumb.attach, Tree.outline_join]; rfl

/-- A length that moves up a path leaves the outline. -/
@[simp] theorem outline_absorb (s : Side) (amount start below : Size) (p : Path) :
    outline (absorb s amount start below p) = p.outline := by
  induction p generalizing below with
  | nil => rfl
  | cons b rest ih =>
    simp only [absorb]
    split
    · rfl
    · exact congrArg (_ :: ·) (ih _)

end Path

namespace Cursor

theorem outline_toTree (c : Cursor) :
    c.toTree.outline =
      Path.plug c.path.outline (.node c.node.bare c.left.outline c.right.outline) :=
  Path.outline_plug _ _

@[simp] theorem outline_emptied (s : Side) (c : Cursor) :
    (c.emptied s).toTree.outline = c.toTree.outline := by
  unfold emptied
  split
  · simp only [outline_toTree, Path.outline_absorb]
    rfl
  · cases s <;> simp [toTree, subtree, Tree.outline, withChild, child]

/-- A search below a node stays in the tree. -/
theorem toTree_of_seekBelow {t : Tree} {offset rest : Size} {path : Path} {d : Cursor}
    (h : t.seekBelow offset path = some (d, rest)) : d.toTree = Path.plug path t := by
  induction t generalizing offset path with
  | nil => cases h
  | node n l r ihl ihr =>
    rw [Tree.seekBelow] at h
    split at h
    · exact ihl h
    · split at h
      · exact ihr h
      · cases h
        rfl

end Cursor

/-! ## Trees that hang where others did -/

/-- The tree is linked, its top, if there is one, has the link, and its nodes are among those with
the identities, none of them twice. -/
structure Tree.Hangs (t : Tree) (link : Option Link) (ids : List NodeId) : Prop where
  linked : t.Linked
  link : ∀ l ∈ t.link?, link = some l
  ids : t.ids.Subperm ids

namespace Tree

variable {t u c : Tree} {link : Option Link} {ids : List NodeId} {s : Side}

theorem Hangs.nil : Hangs .nil link ids := ⟨trivial, by simp, List.nil_subperm⟩

theorem Linked.hangs (h : t.Linked) : t.Hangs t.link? t.ids := ⟨h, fun _ hl => hl, .refl _⟩

theorem Hangs.trans (ht : t.Hangs link ids) (hu : u.Hangs t.link? t.ids) : u.Hangs link ids where
  linked := hu.linked
  link l hl := ht.link l (hu.link l hl)
  ids := hu.ids.trans ht.ids

/-- Payloads do not matter. -/
theorem hangs_congr (h : u.outline = t.outline) : u.Hangs link ids ↔ t.Hangs link ids := by
  have hlinked : u.Linked ↔ t.Linked := by rw [← linked_outline, h, linked_outline]
  have hlink : u.link? = t.link? := by rw [← link?_outline, h, link?_outline]
  have hids : u.ids = t.ids := by rw [← ids_outline, h, ids_outline]
  constructor
  · exact fun hu => ⟨hlinked.mp hu.linked, hlink ▸ hu.link, hids ▸ hu.ids⟩
  · exact fun ht => ⟨hlinked.mpr ht.linked, hlink ▸ ht.link, hids ▸ ht.ids⟩

/-- What hangs in the place of a subtree is linked to its holder. -/
theorem Hangs.held (h : u.Hangs t.link? ids) {holder : NodeId} (ht : t.linkedTo holder = true) :
    u.Hangs (some (.node holder)) ids where
  linked := h.linked
  link l hl := by
    rw [linkedTo_iff] at ht
    rw [ht l (h.link l hl)]
  ids := h.ids

theorem Hangs.linkedTo {holder : NodeId} (h : u.Hangs (some (.node holder)) ids) :
    u.linkedTo holder = true := by
  rw [linkedTo_iff]
  exact fun l hl => (Option.some.inj (h.link l hl)).symm

theorem Hangs.distinct (h : u.Hangs link ids) (hd : ids.Nodup) : u.ids.Nodup := by
  obtain ⟨l, hperm, hsub⟩ := h.ids
  exact hperm.nodup_iff.mp (hd.sublist hsub)

theorem ids_join (s : Side) (n : Node) (near far : Tree) :
    (join s n near far).ids.Perm (near.ids ++ n.id :: far.ids) := by
  cases s with
  | left => rw [join, ids_node]
  | right =>
    rw [join, ids_node]
    exact List.perm_middle.trans ((List.perm_append_comm.cons _).trans List.perm_middle.symm)

end Tree

namespace Path

/-- The nodes on a path and beside it. -/
def ids : Path → List NodeId
  | [] => []
  | b :: rest => b.holder.id :: b.sibling.ids ++ ids rest

theorem ids_plug (p : Path) (t : Tree) : (plug p t).ids.Perm (t.ids ++ p.ids) := by
  induction p generalizing t with
  | nil => rw [plug_nil, ids, List.append_nil]
  | cons b rest ih =>
    rw [plug_cons, ids, ← List.append_assoc]
    exact (ih _).trans ((Tree.ids_join b.side b.holder t b.sibling).append_right _)

/-- Of a subtree a path asks only that it be held. -/
theorem Linked.exchange {b : Crumb} {rest : Path} {t u : Tree} (h : Linked (b :: rest) t)
    (hu : u.linkedTo b.holder.id = true) : Linked (b :: rest) u :=
  ⟨hu, h.2.1, h.2.2.1, linked_congr (by simp) h.2.2.2⟩

/-- A tree hangs where it did when a subtree is exchanged for one that hangs there. -/
theorem hangs_plug {p : Path} {t u : Tree} (h : (plug p t).Linked) (hu : u.Hangs t.link? t.ids) :
    (plug p u).Hangs (plug p t).link? (plug p t).ids where
  linked := by
    obtain ⟨-, hp⟩ := linked_plug.mp h
    refine linked_plug.mpr ⟨hu.linked, ?_⟩
    cases p with
    | nil => trivial
    | cons b rest => exact hp.exchange (hu.held hp.1).linkedTo
  link := by
    cases p with
    | nil => exact hu.link
    | cons b rest =>
      rw [plug_cons, plug_cons, link?_plug_congr rest (t := b.attach t) (by simp)]
      exact fun l hl => hl
  ids := by
    refine (ids_plug p u).subperm.trans (.trans ?_ (ids_plug p t).symm.subperm)
    exact (List.subperm_append_right _).mpr hu.ids

end Path

namespace Cursor

/-- The nodes of the tree but for the subtree on a side. -/
def rest (s : Side) (c : Cursor) : List NodeId := Path.ids (c.crumb s :: c.path)

theorem toTree_withChild (s : Side) (c : Cursor) (t : Tree) :
    (c.withChild s t).toTree = Path.plug (c.crumb s :: c.path) t := by
  cases s <;> rfl

theorem toTree_crumb (s : Side) (c : Cursor) :
    c.toTree = Path.plug (c.crumb s :: c.path) (c.child s) := by
  cases s <;> rfl

/-- The nodes of a tree, but for those of the subtree on a side of a node, and these. -/
theorem ids_withChild (s : Side) (c : Cursor) (t : Tree) :
    (c.withChild s t).toTree.ids.Perm (t.ids ++ c.rest s) := by
  rw [toTree_withChild]
  exact Path.ids_plug _ _

theorem ids_toTree (s : Side) (c : Cursor) : c.toTree.ids.Perm ((c.child s).ids ++ c.rest s) := by
  rw [toTree_crumb s]
  exact Path.ids_plug _ _

/-- A node keeps hanging when what hangs on one of its sides is exchanged. -/
theorem hangs_withChild {c : Cursor} (hl : c.toTree.Linked) (s : Side) {t : Tree}
    {ids : List NodeId} (ht : t.Hangs (some (.node c.node.id)) ids) :
    (c.withChild s t).toTree.Hangs c.toTree.link? (ids ++ c.rest s) where
  linked := by
    rw [toTree_crumb s] at hl
    rw [toTree_withChild]
    exact Path.linked_plug.mpr ⟨ht.linked, (Path.linked_plug.mp hl).2.exchange ht.linkedTo⟩
  link := by
    have hlink : (c.withChild s t).toTree.link? = c.toTree.link? := by
      rw [toTree_withChild, toTree_crumb s]
      exact Path.link?_plug_congr c.path (by simp only [Crumb.link?_attach])
    rw [hlink]
    exact fun l hl => hl
  ids := (ids_withChild s c t).subperm.trans ((List.subperm_append_right _).mpr ht.ids)

end Cursor

/-! ## Rotations and balancing -/

namespace Tree

variable {t u : Tree} {s : Side}

/-- The pieces of a rotation are where the rotation found them. -/
theorem eq_join_of_pivot {p : Pivot} (h : t.pivot s = .ok p) :
    t = join s p.upper (join s p.lower p.outer p.inner) p.far := by
  cases t with
  | nil => cases h
  | node a l r =>
    cases s with
    | left =>
      cases l with
      | nil => cases h
      | node b bl br =>
        simp only [pivot, Side.pick_left] at h
        split at h
        · cases h
        · split at h <;> cases h
          rfl
    | right =>
      cases r with
      | nil => cases h
      | node b bl br =>
        simp only [pivot, Side.pick_right] at h
        split at h
        · cases h
        · split at h <;> cases h
          rfl

/-- A rotation that succeeds keeps the tree hanging. -/
theorem hangs_rotateOwned (hl : t.Linked) (h : t.rotateOwned s = .ok u) :
    u.Hangs t.link? t.ids := by
  unfold rotateOwned at h
  split at h
  · cases h
  · next p hp =>
    dsimp only at h
    split at h
    · cases h
      rw [eq_join_of_pivot hp] at hl ⊢
      refine ⟨linked_raised hl, ?_, ?_⟩
      · simp [Pivot.raised]
      · rw [ids, ids, spans_raised]
    · cases h

/-- A rotation in place keeps the tree hanging, also where it fails. -/
theorem hangs_rotateInPlace (hl : t.Linked) (s : Side) :
    (t.rotateInPlace s).1.Hangs t.link? t.ids := by
  unfold rotateInPlace
  split
  · exact hl.hangs
  · next p hp =>
    have hu : (p.exchanged s).Hangs t.link? t.ids := by
      rw [eq_join_of_pivot hp] at hl ⊢
      refine ⟨linked_exchanged hl, ?_, ids_exchanged.subperm⟩
      simp [Pivot.exchanged]
    dsimp only
    split <;> exact hu

/-- What is left after a rotation towards even weights failed: all or nothing. -/
theorem left_of_improve {left : Tree} {f : Fault} (h : t.improve = .failed left f) :
    left = t ∨ left = .nil := by
  unfold improve at h
  split at h
  · cases h
  · split at h
    · cases h
      exact .inl rfl
    · split at h
      · split at h <;> cases h
        exact .inr rfl
      · cases h

theorem hangs_setChild (hl : t.Linked) {c : Tree}
    (hc : c.Hangs (t.child s).link? (t.child s).ids) : (t.setChild s c).Hangs t.link? t.ids := by
  cases t with
  | nil => exact .nil
  | node n l r =>
    cases s with
    | left => exact Path.hangs_plug (p := [⟨.left, n, r⟩]) hl hc
    | right => exact Path.hangs_plug (p := [⟨.right, n, l⟩]) hl hc

theorem Linked.child (hl : t.Linked) (s : Side) : (t.child s).Linked := by
  cases t with
  | nil => trivial
  | node n l r =>
    cases s with
    | left => exact hl.2.2.1
    | right => exact hl.2.2.2

/-- The loop of balancing keeps the tree hanging, wherever it ends. -/
theorem hangs_settle (steps : Nat) (t : Tree) (hl : t.Linked) :
    (settle steps t).1.1.Hangs t.link? t.ids := by
  induction steps, t using settle_induction with
  | even steps t ht =>
    rw [settle_even steps ht]
    exact hl.hangs
  | spent t ht =>
    rw [settle_spent ht]
    exact hl.hangs
  | still rest t ht himp =>
    rw [settle_still ht himp]
    exact hl.hangs
  | failed rest t left f ht himp =>
    rw [settle_failed ht himp]
    rcases left_of_improve himp with rfl | rfl
    · exact hl.hangs
    · exact .nil
  | raised rest t s u x result ht himp hx below again =>
    have hu := hangs_rotateOwned hl (rotateOwned_of_improve himp)
    have hsunk : x.Hangs (u.child s.other).link? (u.child s.other).ids := by
      obtain rfl : (u.child s.other).balanceSelf.1 = x := by rw [hx]
      unfold balanceSelf
      split
      · exact (hu.linked.child s.other).hangs
      · exact below (hu.linked.child s.other)
    have hv := hu.trans (hangs_setChild hu.linked hsunk)
    rw [settle_round ht himp hx]
    cases result with
    | error e => exact hv
    | ok m => exact hv.trans (again hv.linked)

/-- **Balancing at a slot** keeps the tree hanging. -/
theorem hangs_balanceSelf (hl : t.Linked) : t.balanceSelf.1.Hangs t.link? t.ids := by
  unfold balanceSelf
  split
  · exact hl.hangs
  · exact hangs_settle _ t hl

end Tree

namespace Spot

/-- Climbing does not change the tree. -/
theorem toTree_of_climbFrom {id : NodeId} {t : Tree} {path : Path} {here : Spot}
    (h : climbFrom id t path = some here) : here.toTree = Path.plug path t := by
  induction path generalizing t with
  | nil =>
    rw [climbFrom] at h
    split at h <;> cases h
    rfl
  | cons b rest ih =>
    rw [climbFrom] at h
    split at h
    · cases h
      rfl
    · exact ih h

/-- Going to a slot does not change the tree. -/
theorem toTree_of_visit {p here : Spot} {slot : Slot} (h : p.visit? slot = some here) :
    here.toTree = p.toTree := by
  cases slot with
  | top =>
    cases h
    rfl
  | child holder side =>
    obtain ⟨q, hq, hdown⟩ := Option.bind_eq_some_iff.mp h
    refine Eq.trans ?_ (toTree_of_climbFrom hq)
    obtain ⟨tree, path⟩ := q
    cases tree with
    | nil => cases hdown
    | node n l r =>
      cases hdown
      cases side <;> rfl

end Spot

/-- The walk over pending slots keeps the tree hanging, wherever it ends. -/
theorem Walk.hangs_run (fuel : Nat) (w : Walk) (hl : w.spot.toTree.Linked) :
    (w.run fuel).1.Hangs w.spot.toTree.link? w.spot.toTree.ids := by
  induction fuel generalizing w with
  | zero =>
    unfold run
    split <;> exact hl.hangs
  | succ fuel ih =>
    unfold run
    split
    · exact hl.hangs
    · next entry rest _ =>
      unfold take
      cases hvisit : w.spot.visit? entry.slot with
      | none => exact hl.hangs
      | some here =>
        have htree := Spot.toTree_of_visit hvisit
        rw [← htree] at hl ⊢
        have hbal := Path.hangs_plug hl
          (Tree.hangs_balanceSelf (Path.linked_plug.mp hl).1)
        cases hdone : entry.childrenDone with
        | false => exact ih _ hl
        | true =>
          cases hb : here.tree.balanceSelf with
          | mk u result =>
            rw [hb] at hbal
            cases result with
            | error f => simpa [hb, Spot.toTree] using hbal
            | ok more =>
              have hrun := ih ⟨rest, ⟨u, here.path⟩, w.rotations + more⟩ hbal.linked
              simpa [hb, Spot.toTree] using hbal.trans hrun

/-- **Balancing every slot** keeps the tree hanging. -/
theorem Tree.hangs_balance {t : Tree} (hl : t.Linked) : t.balance.1.Hangs t.link? t.ids := by
  unfold balance
  split
  · exact hl.hangs
  · exact Walk.hangs_run _ (Walk.start t) hl

/-! ## Merges, removals and splits -/

namespace Cursor

variable {c : Cursor} {s : Side}

/-- The merge of the children hangs where the node did. -/
theorem hangs_merged (hl : c.subtree.Linked) :
    ((Tree.mergeChildren c.left c.right).setLink c.node.link).Hangs c.subtree.link?
      c.subtree.ids where
  linked := (Tree.linked_setLink _ _).mpr (Tree.linked_mergeChildren hl.2.2.1 hl.2.2.2)
  link := by
    cases Tree.mergeChildren c.left c.right <;> simp [Tree.setLink, subtree]
  ids := by
    rw [Tree.ids_setLink, Tree.ids, Tree.spans_mergeChildren, List.map_append, subtree,
      Tree.ids_node]
    exact ((List.Sublist.refl _).append (List.sublist_cons_self _ _)).subperm

/-- Unlinking a node keeps the tree hanging, also where it fails. -/
theorem hangs_unlink (hl : c.toTree.Linked) (home : Option TextId) :
    (c.unlink home).1.Hangs c.toTree.link? c.toTree.ids := by
  have hmerged := hangs_merged (linked_subtree hl)
  unfold unlink
  split
  · exact hl.hangs
  · cases hlink : c.node.link with
    | unset => exact hl.hangs
    | owner text =>
      dsimp only
      split
      · next hhome =>
        rw [hlink] at hmerged
        rwa [toTree_of_top (List.isEmpty_iff.mp hhome.2)]
      · exact hl.hangs
    | node holder =>
      rw [hlink] at hmerged
      have hplug := Path.hangs_plug hl hmerged
      dsimp only
      split
      · split
        · exact hplug
        · exact hl.hangs
      · exact hl.hangs

/-- A merge keeps the tree hanging, also where it fails. -/
theorem hangs_mergeInto (hl : c.toTree.Linked) (s : Side) (home : Option TextId) :
    (c.mergeInto s home).1.Hangs c.toTree.link? c.toTree.ids := by
  have hempty := (Tree.hangs_congr (outline_emptied s c)).mpr hl.hangs
  rw [mergeInto_eq]
  split
  · exact hl.hangs
  · exact hempty.trans (hangs_unlink hempty.linked home)

/-- A removal keeps the tree hanging, also where it fails. -/
theorem hangs_remove (hl : c.toTree.Linked) (home : Option TextId) :
    (c.remove home).1.Hangs c.toTree.link? c.toTree.ids := by
  unfold remove
  split
  · exact hl.hangs
  · split
    · exact hangs_mergeInto hl .right home
    · split
      · exact hangs_mergeInto hl .left home
      · exact hangs_unlink hl home

/-- The piece of a split hangs on the node, with the subtree that it adopts. -/
theorem hangs_adoption (hl : c.subtree.Linked) (s : Side) (offset : Size) (piece : NodeId) :
    (c.adoption s offset piece).Hangs (some (.node c.node.id)) (piece :: (c.child s).ids) where
  linked := linked_adoption hl piece
  link := by simp [adoption]
  ids := by
    have hperm := Tree.ids_join s
      (((Node.fresh piece (s.pick offset (c.length - offset) + (c.child s).total)).withPosition
        (s.pick c.position (c.position + offset))).withLink (.node c.node.id))
      ((c.child s).setLink (.node piece)) .nil
    rw [Tree.ids_setLink, Tree.ids_nil] at hperm
    exact (hperm.trans (List.perm_append_singleton _ _)).subperm

/-- A split keeps the tree hanging, with the new piece in it, also where it fails. -/
theorem hangs_splitOff (hl : c.toTree.Linked) (s : Side) (offset : Size) (piece : NodeId) :
    (c.splitOff s offset piece).1.toTree.Hangs c.toTree.link? (piece :: c.toTree.ids) := by
  have hsub := hangs_adoption (linked_subtree hl) s offset piece
  have hbal := hsub.trans (Tree.hangs_balanceSelf hsub.linked)
  have hcut {t : Tree} (ht : t.Hangs (some (.node c.node.id)) (piece :: (c.child s).ids)) :
      (c.divided s offset t).toTree.Hangs c.toTree.link? (piece :: c.toTree.ids) := by
    have houtline : (c.divided s offset t).toTree.outline = (c.withChild s t).toTree.outline := by
      rw [outline_toTree, outline_toTree]
      cases s <;> rfl
    have hw := hangs_withChild hl s ht
    have hids : (piece :: (c.child s).ids ++ c.rest s).Perm (piece :: c.toTree.ids) :=
      (c.ids_toTree s).symm.cons _
    exact (Tree.hangs_congr houtline).mpr ⟨hw.linked, hw.link, hw.ids.trans hids.subperm⟩
  unfold splitOff
  dsimp only
  split
  · exact hcut hsub
  · exact hcut hbal

end Cursor

end SpanTree
