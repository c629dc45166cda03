/-
SpanTree.Proofs.Rejections — what a rejected edit leaves behind.

An edit of a well-formed tree is rejected for what was asked of it, an
offset outside the span, a side without a neighbour, a rotation without a
child, or for the way the top of the tree is linked. What was asked is
checked before anything changes. The link is not: a merge moves the
weights and unlinks the node afterwards, and a split cuts the span before
the root is balanced. Below the top a node is linked to its holder and
nothing is left to be rejected, so that the tree of a text is safe, and a
loose tree is safe everywhere but at its top.

`Edit.Late` names what goes wrong there, and `rejected_edit_unchanged`
says that it is all that does.
-/
import SpanTree.Forest.Edits
import SpanTree.Proofs.Moves
import SpanTree.Proofs.Splits

namespace SpanTree

namespace Cursor

variable {c : Cursor} {home : Option TextId} {s : Side} {e : Fault}

/-! ## The top of a tree -/

/-- There is no way up from the top. -/
theorem turn?_of_top (h : c.path = []) : c.turn? s = none := by
  rw [turn?, h, turnFrom]

theorem homed_of_top (h : c.path = []) :
    c.toTree.Homed home ↔ ∃ text, c.node.link = .owner text ∧ home = some text := by
  simp [toTree_of_top h, subtree, Tree.Homed]

/-! ## Unlinking -/

/-- A node is unlinked, or its tree stays. -/
theorem unlink_rejected (h : (c.unlink home).2 = .error e) : (c.unlink home).1 = c.toTree := by
  unfold unlink at h ⊢
  split
  · rfl
  · next hown =>
    rw [if_neg hown] at h
    cases hlink : c.node.link with
    | unset => rfl
    | owner text =>
      simp only [hlink] at h ⊢
      split
      · next hhome => simp [hhome] at h
      · rfl
    | node holder =>
      simp only [hlink] at h ⊢
      cases hpath : c.path with
      | nil => rfl
      | cons b rest =>
        simp only [hpath] at h ⊢
        split
        · next hholder => simp [hholder] at h
        · rfl

/-- The top of a tree that is not the text's own is never unlinked. -/
theorem unlink_of_not_homed (hpath : c.path = []) (hhome : ¬ c.toTree.Homed home) :
    (c.unlink home).1 = c.toTree := by
  rw [homed_of_top hpath] at hhome
  unfold unlink
  split
  · rfl
  · cases hlink : c.node.link with
    | unset => rfl
    | owner text =>
      have hother : home ≠ some text := fun h => hhome ⟨text, hlink, h⟩
      simp [hpath, hother]
    | node holder => simp [hpath]

/-! ## Merges -/

/-- A rejected merge leaves the tree, unless it took place below the top of a tree that is not
the text's own. -/
theorem mergeInto_rejected (hw : c.toTree.Weighed) (hl : c.toTree.Linked)
    (htop : c.path = [] → c.toTree.Homed home ∨ (c.child s).isNil = true)
    (h : (c.mergeInto s home).2 = .error e) : (c.mergeInto s home).1 = c.toTree := by
  rw [mergeInto_eq] at h ⊢
  cases hadj : c.adjacent? s with
  | none => rfl
  | some d =>
    have hhome : (c.emptied s).path = [] → (c.emptied s).toTree.Homed home := by
      intro hpath
      have hsome := isSome_adjacent? s c
      rcases htop ((path_emptied s c).mp hpath) with hhome | hnil
      · simpa only [Tree.Homed, link?_emptied] using hhome
      · simp [hadj, hnil, turn?_of_top ((path_emptied s c).mp hpath)] at hsome
    obtain ⟨u, hu, -⟩ := (emptied_ok s hw hl).unlink hhome
    simp [hadj, hu, Except.map] at h

/-- At the top of a tree that is not the text's own, a merge into a child gives the characters
away, and then the node cannot be unlinked. -/
theorem mergeInto_late (hpath : c.path = []) (hhome : ¬ c.toTree.Homed home)
    (hchild : (c.child s).isNil = false) :
    (c.mergeInto s home).1 = (c.emptied s).toTree := by
  obtain ⟨d, hd⟩ : ∃ d, c.adjacent? s = some d :=
    Option.isSome_iff_exists.mp (by simp [isSome_adjacent?, hchild])
  simp only [mergeInto_eq, hd]
  exact unlink_of_not_homed ((path_emptied s c).mpr hpath)
    (by simpa only [Tree.Homed, link?_emptied])

/-- A node that gave its characters away is not what it was. -/
theorem emptied_ne (hw : c.toTree.Weighed) (hl : c.toTree.Linked) (hpath : c.path = []) :
    (c.emptied s).toTree ≠ c.toTree := by
  have hempty := emptied_ok s hw hl
  have hown := (weighed_subtree hw).1
  have htotal := hempty.total
  have hfits := hempty.fits
  intro hsame
  rw [toTree_of_top hpath, toTree_of_top ((path_emptied s c).mpr hpath)] at hsame
  obtain ⟨hnode, hleft, hright⟩ := Tree.node.inj hsame
  rw [hleft, hright] at hfits
  rw [hnode, hleft, hright, ← UInt64.toNat_inj, Size.toNat_add_of_lt hfits] at htotal
  omega

/-! ## Removal -/

/-- A rejected removal leaves the tree, unless the node is the top of a tree that is linked to
a text but not its own, and has children. -/
theorem remove_rejected (hw : c.toTree.Weighed) (hl : c.toTree.Linked)
    (htop : c.path = [] → c.toTree.Homed home ∨ c.node.link = .unset ∨ c.hasChildren = false)
    (h : (c.remove home).2 = .error e) : (c.remove home).1 = c.toTree := by
  have hmerge (s : Side) (hheld : c.isRoot ∨ c.hasParent)
      (h : ((c.mergeInto s home).2.map fun _ => ()) = .error e) :
      (c.mergeInto s home).1 = c.toTree := by
    refine mergeInto_rejected hw hl (fun hpath => ?_) (eq_error_of_map h)
    rcases htop hpath with hhome | hlink | hnone
    · exact .inl hhome
    · simp [isRoot, hasParent, hlink, Link.owner?, Link.holder?] at hheld
    · refine .inr ?_
      simp only [hasChildren, Bool.or_eq_false_iff, Bool.not_eq_false'] at hnone
      cases s
      · exact hnone.1
      · exact hnone.2
  unfold remove at h ⊢
  split
  · rfl
  · next hheld =>
    rw [if_neg hheld] at h
    split
    · next hright =>
      rw [if_pos hright] at h
      exact hmerge .right (not_not.mp hheld) h
    · next hright =>
      rw [if_neg hright] at h
      split
      · next hleft =>
        rw [if_pos hleft] at h
        exact hmerge .left (not_not.mp hheld) h
      · next hleft =>
        rw [if_neg hleft] at h
        exact unlink_rejected h

/-- The top of a tree that is linked to a text but not its own is not removed, but gives its
characters to a child. -/
theorem remove_late (hpath : c.path = []) (hhome : ¬ c.toTree.Homed home)
    (hroot : c.isRoot = true) (hchild : c.hasChildren = true) :
    ∃ s, (c.remove home).1 = (c.emptied s).toTree := by
  rw [remove, if_neg (not_not_intro (.inl hroot))]
  split
  · next hright =>
    rw [turn?_of_top hpath] at hright
    exact ⟨.right, mergeInto_late hpath hhome (by simpa [child] using hright)⟩
  · next hright =>
    have hleft : c.left.isNil = false := by
      simp only [hasChildren, Bool.or_eq_true, Bool.not_eq_true'] at hchild
      simp only [Bool.or_eq_true, Bool.not_eq_true', not_or] at hright
      exact hchild.resolve_right hright.1
    rw [if_pos (by simp [hleft])]
    exact ⟨.left, mergeInto_late hpath hhome hleft⟩

/-! ## Splits -/

/-- The node stays where it was when its span is cut. -/
theorem id?_divided (s : Side) (c : Cursor) (offset : Size) (t : Tree) :
    (c.divided s offset t).toTree.id? = c.toTree.id? := by
  cases s <;> exact Path.id?_plug_congr c.path rfl

/-- A cut keeps the weight of the tree. -/
theorem toNat_total_cut {piece : NodeId} {offset : Size} {u : Tree} (hw : c.toTree.Weighed)
    (ho : c.splits offset = true)
    (h : c.toTree.Respanned (c.before ++ c.span.cut s piece offset ++ c.after) u) :
    u.total.toNat = c.toTree.total.toNat := by
  have hin : offset.toNat ≤ c.span.length.toNat := Nat.le_of_lt (splits_iff.mp ho).2
  rw [← h.weighed.covered_spans, ← hw.covered_spans, h.spans, c.spans_toTree]
  simp only [covered_append, covered_cons, covered_cut s piece hin]
  omega

/-- A cut adds a span. -/
theorem respanned_cut_ne {piece : NodeId} {offset : Size} {u : Tree}
    (h : c.toTree.Respanned (c.before ++ c.span.cut s piece offset ++ c.after) u) :
    u ≠ c.toTree := by
  intro hsame
  have hlength := congrArg List.length (h.spans.symm.trans (congrArg Tree.spans hsame))
  rw [c.spans_toTree] at hlength
  cases s <;> simp [Span.cut] at hlength

end Cursor

/-! ## Trees at their places -/

/-- The links that the top of a tree has at a place. The tree of a text is linked to it; a
loose tree is linked to nothing, or still to the text that it was taken from. -/
def Place.Admits : Place → Link → Prop
  | .text t, link => link = .owner t
  | .loose _, link => link = .unset ∨ ∃ t, link = .owner t

theorem Place.Admits.unset_or_owner {p : Place} {link : Link} (h : p.Admits link) :
    link = .unset ∨ ∃ t, link = .owner t := by
  cases p with
  | text t => exact .inr ⟨t, h⟩
  | loose slot => exact h

/-- A well-formed tree at its place. No other tree of the forest has a node of it. -/
structure Forest.Stands (f : Forest) (p : Place) : Prop where
  wellFormed : (f.tree p).WellFormed
  light : (f.tree p).total.toNat < 2 ^ 63
  link : ∀ link ∈ (f.tree p).link?, p.Admits link
  apart : ∀ q, q ≠ p → ∀ id ∈ (f.tree p).ids, id ∉ (f.tree q).ids
  slots : f.loose.Ordered

namespace Forest

variable {f : Forest} {p : Place} {id : NodeId} {c : Cursor}

/-- The text of a tree that has a node. -/
theorem exists_text {t : TextId} (h : (f.tree (.text t)).isNil = false) :
    ∃ x, f.texts[t]? = some x ∧ x.root = f.tree (.text t) := by
  cases hx : f.texts[t]? with
  | some x => exact ⟨x, rfl, (tree_text hx).symm⟩
  | none => simp [tree, hx, Tree.isNil] at h

/-- The cursor of a node is at the top if the node is the top. -/
theorem path_eq_nil_iff (hid : id ∈ (f.tree p).ids)
    (halone : ∀ q, q ≠ p → id ∉ (f.tree q).ids) (hc : f.locate? id = some ⟨p, c⟩)
    (htree : c.toTree = f.tree p) (hnode : c.node.id = id) :
    c.path = [] ↔ (f.tree p).id? = some id := by
  constructor
  · intro hpath
    rw [← htree, Cursor.toTree_of_top hpath, ← hnode]
    rfl
  · intro htop
    rw [locate?_eq hid halone] at hc
    cases ht : f.tree p with
    | nil => simp [ht] at hid
    | node n l r =>
      have hn : n.id = id := by simpa [ht, Tree.id?, Tree.head?] using htop
      simp only [ht, Tree.locate?, Tree.wayTo?, hn, if_true, Option.bind_eq_bind, Option.bind_some,
        Tree.descend?, Cursor.ofTree?, Option.map_some, Option.some.injEq, Site.mk.injEq,
        true_and] at hc
      rw [← hc]

/-- A node of a tree that stands at a place is located there. -/
theorem Stands.locate (hf : f.Stands p) (hid : id ∈ (f.tree p).ids) :
    ∃ c, f.locate? id = some ⟨p, c⟩ ∧ c.toTree = f.tree p ∧ c.node.id = id ∧
      (c.path = [] ↔ (f.tree p).id? = some id) := by
  have halone := fun q hq => hf.apart q hq id hid
  obtain ⟨c, hc, htree, hnode⟩ := exists_cursor hid halone
  exact ⟨c, hc, htree, hnode, path_eq_nil_iff hid halone hc htree hnode⟩

/-- At the top, the link of a node is one that its place admits. -/
theorem Stands.admits (hf : f.Stands p) (htree : c.toTree = f.tree p) (hpath : c.path = []) :
    p.Admits c.node.link :=
  hf.link c.node.link (by rw [← htree, Cursor.toTree_of_top hpath]; rfl)

/-- The tree of a text is its own, and a loose tree is no text's own. -/
theorem Stands.homed_iff (hf : f.Stands p) (htree : c.toTree = f.tree p) (hpath : c.path = []) :
    c.toTree.Homed p.home? ↔ p.home?.isSome := by
  have hlink := hf.admits htree hpath
  rw [Cursor.homed_of_top hpath]
  cases p with
  | text t => simpa [Place.home?, Place.Admits] using hlink
  | loose slot => simp [Place.home?]

end Forest

/-! ## Balancing at a node -/

namespace Run

variable {f : Forest} {p : Place} {id : NodeId} {c : Cursor}

/-- At a node that is not linked to a text there is nothing to balance. -/
theorem exec_balancePossibleRoot_unlinked (hc : f.locate? id = some ⟨p, c⟩)
    (hlink : ∀ t, c.node.link ≠ .owner t) : exec (balancePossibleRoot id) f = (.ok id, f) := by
  rw [balancePossibleRoot, exec_bind_ok (exec_locate hc)]
  dsimp only
  split
  · next t ht => exact absurd ht (hlink t)
  · exact exec_pure _ _

/-- The root of a text is balanced, and what balancing makes of its tree is planted. -/
theorem exec_balancePossibleRoot_own {t : TextId} {x : Text} (hc : f.locate? id = some ⟨p, c⟩)
    (hlink : c.node.link = .owner t) (hx : f.texts[t]? = some x) (hid : x.root.id? = some id)
    (hw : x.root.Weighed) (hb : x.root.total.toNat < 2 ^ 63) :
    ∃ u k q, Tree.BalancedTo x.root u k ∧ exec (balancePossibleRoot id) f =
      (.ok (u.id?.getD id),
        { f.plant (u.setLink (.owner t)) (.text t) with profile := q }) := by
  have hnil : x.root.isNil = false := by
    cases hroot : x.root with
    | nil => simp [hroot, Tree.id?, Tree.head?] at hid
    | node n l r => rfl
  rw [balancePossibleRoot, exec_bind_ok (exec_locate hc)]
  simp only [hlink]
  rw [exec_bind_ok (exec_text hx), exec_bind_ok (exec_require (by simp [hid]) _ _)]
  refine exec_profiled_of (P := fun r => ∃ u k q, Tree.BalancedTo x.root u k ∧ r =
    (.ok (u.id?.getD id),
      { f.plant (u.setLink (.owner t)) (.text t) with profile := q })) fun q q' => ?_
  obtain ⟨u, k, hbal, hexec⟩ :=
    exec_balanceRoot_of (f := { f with profile := q }) hx hw hb hnil id
  exact ⟨u, k, q', hbal, by rw [hexec]; rfl⟩

/-- A node whose link names a text that it is not the root of is refused. -/
theorem exec_balancePossibleRoot_foreign {t : TextId} (hc : f.locate? id = some ⟨p, c⟩)
    (hlink : c.node.link = .owner t) (hid : (f.tree (.text t)).id? ≠ some id) :
    ∃ e, exec (balancePossibleRoot id) f = (.error e, f) := by
  rw [balancePossibleRoot, exec_bind_ok (exec_locate hc)]
  simp only [hlink]
  cases hx : f.texts[t]? with
  | none =>
    exact ⟨_, exec_bind_error (exec_text_none hx) _⟩
  | some x =>
    rw [Forest.tree_text hx] at hid
    rw [exec_bind_ok (exec_text hx)]
    exact ⟨_, exec_bind_error (exec_require_not (by simpa using hid) _ _) _⟩

/-! ## Splits -/

/-- After a split has cut the span, the root is balanced; what this gives decides the split. -/
theorem exec_split_cut (hwell : (f.tree p).WellFormed) (hlight : (f.tree p).total.toNat < 2 ^ 63)
    (hc : f.locate? id = some ⟨p, c⟩) (htree : c.toTree = f.tree p) {offset : Size} (s : Side)
    (ho : c.splits offset = true) :
    ∃ u g q q', c.toTree.Respanned (c.before ++ c.span.cut s f.nextId offset ++ c.after) u ∧
      u.id? = (f.tree p).id? ∧
      g = { f.plant u p with nextId := f.nextId + 1, profile := q } ∧
      exec (split s id offset) f =
        ((exec (balancePossibleRoot id) g).1.map fun _ => f.nextId,
          { (exec (balancePossibleRoot id) g).2 with profile := q' }) := by
  rw [← htree] at hwell hlight
  obtain ⟨u, j, hdivided, -⟩ := c.splitOff_eq (s := s) hwell.weighed hlight ho f.nextId
  obtain ⟨d, k, hd, hr⟩ := c.splitOff_ok hwell.weighed hwell.linked hlight s ho f.nextId
  obtain rfl : c.divided s offset u = d := congrArg Prod.fst (hdivided.symm.trans hd)
  rw [split, exec_bind_ok (exec_locate hc), exec_bind_ok (exec_require ho _ _)]
  obtain ⟨q, q', hq⟩ := exec_profiled ("interval::split_" ++ s.word) (do
    let piece ← freshId
    let edited := c.splitOff s offset piece
    putBack ⟨p, edited.1⟩
    addRotations (← ofExcept edited.2)
    let _ ← balancePossibleRoot id
    pure piece) f
  refine ⟨(c.divided s offset u).toTree, _, q.add k, q', hr, htree ▸ c.id?_divided s offset u, rfl,
    hq.trans ?_⟩
  rw [exec_bind_ok (exec_freshId _)]
  dsimp only
  rw [hd]
  dsimp only
  rw [exec_bind_ok (exec_putBack _ _), exec_bind_ok (exec_ofExcept _ _),
    exec_bind_ok (exec_addRotations _ _), exec_bind_pure]
  cases p <;> rfl

/-- A split inside the span of a node succeeds, unless the node is the top of a loose tree and
is linked to a text. Then the span is cut all the same. -/
theorem exec_split_inside (hf : f.Stands p) (hid : id ∈ (f.tree p).ids)
    (hc : f.locate? id = some ⟨p, c⟩) (htree : c.toTree = f.tree p) (hnode : c.node.id = id)
    {offset : Size} (s : Side) (ho : c.splits offset = true) :
    ∃ r g, exec (split s id offset) f = (r, g) ∧
      if c.path = [] ∧ p.home? = none ∧ c.isRoot then g.tree p ≠ f.tree p
      else r = .ok f.nextId := by
  have halone := fun q hq => hf.apart q hq id hid
  have htop := Forest.path_eq_nil_iff hid halone hc htree hnode
  obtain ⟨u, g, q, q', hr, hgid, hg, hexec⟩ :=
    exec_split_cut hf.wellFormed hf.light hc htree s ho
  have hplant : g.tree p = u := hg ▸ Forest.tree_plant_of_node (Tree.isNil_of_mem_ids hid) u
  have helse (q : Place) (hq : q ≠ p) : g.tree q = f.tree q := hg ▸ Forest.tree_plant_of_ne hq u
  rw [← hplant] at hr hgid
  clear hplant hg
  have hmem : id ∈ (g.tree p).ids := by
    rw [Tree.ids, hr.spans, List.map_append, List.map_append, List.mem_append, List.mem_append]
    exact .inl (.inr (ids_cut.mpr (.inr hnode.symm)))
  have halone' : ∀ q, q ≠ p → id ∉ (g.tree q).ids := fun q hq => helse q hq ▸ halone q hq
  obtain ⟨d, hd, hdtree, hdnode⟩ := Forest.exists_cursor hmem halone'
  have hdtop := Forest.path_eq_nil_iff hmem halone' hd hdtree hdnode
  rw [hgid, ← htop] at hdtop
  refine ⟨_, _, hexec, ?_⟩
  have hcut : g.tree p ≠ f.tree p := htree ▸ Cursor.respanned_cut_ne hr
  by_cases hpath : c.path = []
  · have hlink : d.node.link = c.node.link := by
      have hkept := hr.link d.node.link
        (by rw [← hdtree, Cursor.toTree_of_top (hdtop.mpr hpath)]; rfl)
      rw [Cursor.toTree_of_top hpath] at hkept
      exact (Option.some.inj hkept).symm
    have hadmits := hf.admits htree hpath
    cases p with
    | text t =>
      obtain ⟨x, hx, hroot⟩ := Forest.exists_text (Tree.isNil_of_mem_ids hmem)
      have hlight : (g.tree (.text t)).total.toNat < 2 ^ 63 := by
        rw [Cursor.toNat_total_cut (htree ▸ hf.wellFormed.weighed) ho hr, htree]
        exact hf.light
      obtain ⟨u', k, q'', -, hbal⟩ := exec_balancePossibleRoot_own hd (hlink.trans hadmits) hx
        (by rw [hroot, hgid]; exact htop.mp hpath) (hroot ▸ hr.weighed) (hroot ▸ hlight)
      rw [if_neg (by simp [Place.home?]), hbal]
      rfl
    | loose slot =>
      rcases hadmits with hunset | ⟨t, howner⟩
      · rw [if_neg (by simp [Cursor.isRoot, hunset, Link.owner?]),
          exec_balancePossibleRoot_unlinked hd (by simp [hlink, hunset])]
        rfl
      · rw [if_pos ⟨hpath, rfl, by simp [Cursor.isRoot, howner, Link.owner?]⟩]
        obtain ⟨e, hbal⟩ := exec_balancePossibleRoot_foreign hd (hlink.trans howner)
          fun htext => halone' (.text t) (by simp) (Tree.id_mem_ids_of_id? htext)
        rw [hbal]
        exact hcut
  · obtain ⟨b, rest, hdpath⟩ := List.exists_cons_of_ne_nil (mt hdtop.mp hpath)
    have hlink := Cursor.link_of_path (hdtree ▸ hr.linked) hdpath
    rw [if_neg (by simp [hpath]), exec_balancePossibleRoot_unlinked hd (by simp [hlink])]
    rfl

end Run

/-! ## Edits -/

/-- An edit of a node. -/
inductive Edit where
  /-- Cuts the span at an offset. A new node takes the part on the side. -/
  | split (s : Side) (offset : Size)
  /-- Hands the span to the neighbour on the side and removes the node. -/
  | merge (s : Side)
  /-- Removes the node. -/
  | remove
  /-- Raises the child on the side by exchanging payloads. -/
  | rotate (s : Side)

namespace Edit

/-- The edit of a node as an operation on the forest. -/
def run (id : NodeId) : Edit → Run Unit
  | .split s offset => do
    let _ ← Run.split s id offset
    pure ()
  | .merge s => do
    let _ ← Run.merge s id
    pure ()
  | .remove => Run.remove id
  | .rotate s => Run.rotateInPlace s id

/-- At a top that nothing holds, the edit passes what is checked at first. A merge needs no more
than a child to go to. A removal is refused at once where the link is not set, and a split
succeeds there, so that these two need a link that names a text. -/
def Hasty (c : Cursor) : Edit → Prop
  | .split _ offset => c.isRoot = true ∧ c.splits offset = true
  | .merge s => (c.child s).isNil = false
  | .remove => c.isRoot = true ∧ c.hasChildren = true
  | .rotate _ => False

/-- The edit is hasty, and the node is the top of a loose tree, which nothing holds. That is
noticed only when the tree has been changed. -/
def Late (f : Forest) (p : Place) (id : NodeId) (e : Edit) : Prop :=
  p.home? = none ∧ ∃ c, f.locate? id = some ⟨p, c⟩ ∧ c.path = [] ∧ e.Hasty c

variable {f g : Forest} {p : Place} {id : NodeId} {c : Cursor} {fault : Fault} {s : Side}

theorem late_iff (hf : f.Stands p) (hc : f.locate? id = some ⟨p, c⟩) (htree : c.toTree = f.tree p)
    (e : Edit) :
    e.Late f p id ↔ c.path = [] ∧ ¬ c.toTree.Homed p.home? ∧ e.Hasty c := by
  constructor
  · rintro ⟨hhome, d, hd, hpath, hhasty⟩
    obtain rfl : c = d := by simpa [hc] using hd
    exact ⟨hpath, (hf.homed_iff htree hpath).not.mpr (by simp [hhome]), hhasty⟩
  · rintro ⟨hpath, hhome, hhasty⟩
    refine ⟨?_, c, hc, hpath, hhasty⟩
    simpa [hf.homed_iff htree hpath] using hhome

/-! ## Rejected edits -/

/-- An edit that plants what it made of the tree of a cursor leaves the forest if it made the
same tree. -/
theorem planted_iff (hf : f.Stands p) (hid : id ∈ (f.tree p).ids) (htree : c.toTree = f.tree p)
    {e : Edit} {u : Tree} (hlate : e.Late f p id → u ≠ c.toTree)
    (hkept : ¬ e.Late f p id → u = c.toTree) : f.plant u p = f ↔ ¬ e.Late f p id := by
  rw [Forest.plant_eq_self_iff hf.slots (Tree.isNil_of_mem_ids hid), ← htree]
  exact ⟨fun hsame hl => hlate hl hsame, hkept⟩

theorem merge_rejected (hf : f.Stands p) (hid : id ∈ (f.tree p).ids)
    (h : exec (Run.merge s id) f = (.error fault, g)) : g = f ↔ ¬ (merge s).Late f p id := by
  obtain ⟨c, hc, htree, -⟩ := hf.locate hid
  have hw : c.toTree.Weighed := htree ▸ hf.wellFormed.weighed
  have hl : c.toTree.Linked := htree ▸ hf.wellFormed.linked
  rw [Run.merge, exec_bind_ok (Run.exec_locate hc), Run.exec_conclude, Prod.mk.injEq] at h
  obtain ⟨hresult, rfl⟩ := h
  refine planted_iff hf hid htree ?_ fun hn => ?_ <;> rw [late_iff hf hc htree] at *
  · rintro ⟨hpath, hhome, hchild⟩
    rw [Cursor.mergeInto_late hpath hhome hchild]
    exact Cursor.emptied_ne hw hl hpath
  · refine Cursor.mergeInto_rejected hw hl (fun hpath => ?_) hresult
    by_contra hcon
    rw [not_or] at hcon
    exact hn ⟨hpath, hcon.1, by simpa [Hasty] using hcon.2⟩

theorem remove_rejected (hf : f.Stands p) (hid : id ∈ (f.tree p).ids)
    (h : exec (Run.remove id) f = (.error fault, g)) : g = f ↔ ¬ remove.Late f p id := by
  obtain ⟨c, hc, htree, -⟩ := hf.locate hid
  have hw : c.toTree.Weighed := htree ▸ hf.wellFormed.weighed
  have hl : c.toTree.Linked := htree ▸ hf.wellFormed.linked
  rw [Run.remove, exec_bind_ok (Run.exec_locate hc), Run.exec_conclude, Prod.mk.injEq] at h
  obtain ⟨hresult, rfl⟩ := h
  refine planted_iff hf hid htree ?_ fun hn => ?_ <;> rw [late_iff hf hc htree] at *
  · rintro ⟨hpath, hhome, hroot, hchild⟩
    obtain ⟨s, hs⟩ := Cursor.remove_late hpath hhome hroot hchild
    rw [hs]
    exact Cursor.emptied_ne hw hl hpath
  · refine Cursor.remove_rejected hw hl (fun hpath => ?_) hresult
    by_contra hcon
    obtain ⟨hhome, hset, hchild⟩ : ¬ c.toTree.Homed p.home? ∧ c.node.link ≠ .unset ∧
        c.hasChildren = true := by simpa [not_or] using hcon
    obtain ⟨t, howner⟩ := (hf.admits htree hpath).unset_or_owner.resolve_left hset
    exact hn ⟨hpath, hhome, by simp [Cursor.isRoot, howner, Link.owner?], hchild⟩

/-- A rotation in place refuses only where there is no child to raise, and does nothing then. -/
theorem rotate_rejected (hf : f.Stands p) (hid : id ∈ (f.tree p).ids)
    (h : exec (Run.rotateInPlace s id) f = (.error fault, g)) :
    g = f ↔ ¬ (rotate s).Late f p id := by
  obtain ⟨c, hc, htree, -⟩ := hf.locate hid
  have hw : c.toTree.Weighed := htree ▸ hf.wellFormed.weighed
  rw [Run.rotateInPlace, exec_bind_ok (Run.exec_locate hc)] at h
  cases hnil : (c.subtree.child s).isNil with
  | true =>
    rw [Tree.rotateInPlace_of_isNil hnil, exec_bind_ok (Run.exec_plant _ _ _), Run.exec_violate,
      Prod.mk.injEq] at h
    rw [← h.2]
    have hnever : ¬ (rotate s).Late f p id := fun hlate => ((late_iff hf hc htree _).mp hlate).2.2
    exact planted_iff hf hid htree (fun hlate => absurd hlate hnever) fun _ => rfl
  | false =>
    have hresult := (Tree.repainted_rotateInPlace s (Cursor.weighed_subtree hw)).2
    rw [hnil, if_neg Bool.false_ne_true] at hresult
    dsimp only at h
    rw [exec_bind_ok (Run.exec_plant _ _ _), hresult, exec_pure] at h
    simp at h

theorem split_rejected {offset : Size} (hf : f.Stands p) (hid : id ∈ (f.tree p).ids)
    (h : exec (Run.split s id offset) f = (.error fault, g)) :
    g = f ↔ ¬ (split s offset).Late f p id := by
  obtain ⟨c, hc, htree, hnode, -⟩ := hf.locate hid
  rw [late_iff hf hc htree]
  cases ho : c.splits offset with
  | false =>
    rw [Run.split, exec_bind_ok (Run.exec_locate hc),
      exec_bind_error (Run.exec_require_not ho _ _), Prod.mk.injEq] at h
    simp [← h.2, Hasty, ho]
  | true =>
    obtain ⟨r, g', hexec, hverdict⟩ := Run.exec_split_inside hf hid hc htree hnode s ho
    obtain ⟨rfl, rfl⟩ := Prod.mk.inj (hexec.symm.trans h)
    have hhome : c.path = [] → (¬ c.toTree.Homed p.home? ↔ p.home? = none) := fun hpath => by
      simp [hf.homed_iff htree hpath]
    split at hverdict
    · next hlate =>
      obtain ⟨hpath, hnone, hroot⟩ := hlate
      refine iff_of_false (fun hsame => hverdict (by rw [hsame])) (not_not_intro ?_)
      exact ⟨hpath, (hhome hpath).mpr hnone, hroot, ho⟩
    · next hsafe => simp at hverdict

/-- **A rejected edit** of a node of a well-formed tree leaves everything as it was, in the tree
and around it, unless it is late. A late one is rejected with the tree changed. -/
theorem rejected_edit_unchanged (hf : f.Stands p) (hid : id ∈ (f.tree p).ids) (e : Edit)
    (h : exec (e.run id) f = (.error fault, g)) : g = f ↔ ¬ e.Late f p id := by
  have hdone {α : Type} {x : Run α} (h : exec (do
      let _ ← x
      pure ()) f = (.error fault, g)) : exec x f = (.error fault, g) := by
    rw [exec_bind_pure, Prod.mk.injEq] at h
    exact Prod.ext (eq_error_of_map h.1) h.2
  cases e with
  | split s offset => exact split_rejected hf hid (hdone h)
  | merge s => exact merge_rejected hf hid (hdone h)
  | remove => exact remove_rejected hf hid h
  | rotate s => exact rotate_rejected hf hid h

/-- Two nodes, the second of which is on the right of the first. -/
def pairTree : Tree :=
  .node { id := 0, data := { total := 5 } } .nil
    (.node { id := 1, link := .node 0, data := { total := 3, position := 2 } } .nil .nil)

/-- The two nodes as a loose tree in the only slot there is. -/
def pair : Forest := { loose := ⟨[("pair", pairTree)]⟩, nextId := 2 }

theorem stands_pair : pair.Stands (.loose "pair") where
  wellFormed := by
    refine ⟨?_, ?_, by decide⟩
    · change pairTree.Weighed
      simp only [pairTree, Tree.Weighed]
      decide
    · change pairTree.Linked
      simp only [pairTree, Tree.Linked]
      decide
  light := by decide
  link := by
    rintro link ⟨⟩
    exact .inl rfl
  apart q hq id _ := by
    have hnil : pair.tree q = .nil := by
      cases q with
      | text t => rfl
      | loose slot =>
        have hne : "pair" ≠ slot := fun h => hq (h ▸ rfl)
        simp [pair, Forest.tree, Table.get?, hne]
    simp [hnil]
  slots := List.pairwise_singleton _ _

/-- A merge of the last node is rejected and leaves the pair. -/
theorem rejected_edit_unchanged_last :
    exec (run 1 (merge .right)) pair = (.error (.violation (.noNeighbour .right)), pair) ∧
      ¬ (merge .right).Late pair (.loose "pair") 1 := by
  have hexec : exec (run 1 (merge .right)) pair =
      (.error (.violation (.noNeighbour .right)), pair) := by rfl
  exact ⟨hexec, (rejected_edit_unchanged stands_pair (by decide) (merge .right) hexec).mp rfl⟩

/-- A merge of the top into its child is rejected too, because nothing holds the top. By then the
child has its weight. -/
theorem rejected_merge_changes :
    pair.Stands (.loose "pair") ∧
      (exec (run 0 (merge .right)) pair).1 = .error (.violation .removeUnlinked) ∧
      ((pair.tree (.loose "pair")).child .right).total = 3 ∧
      (((exec (run 0 (merge .right)) pair).2.tree (.loose "pair")).child .right).total = 5 :=
  ⟨stands_pair, by rfl, by rfl, by rfl⟩

end Edit

end SpanTree
