/-
SpanTree.Proofs.Handovers — merges and removals on the list of spans.

On the list of its spans a merge of a tree is a step of two lines: the
entry of the node goes away, and its neighbour becomes longer. This holds
of every shape of the tree, of the trees of texts and of loose trees
alike, and at every node but the top of a loose tree, which nothing
holds. Neither the caches nor the weight of the tree have to be right or
small. A removal is the merge to the next span, or to the one before if
there is no next one, or it leaves no tree.

`Tree.owners` lists the owner of every character. It says in one equation
whose characters a merge moves: those of the node, all to the neighbour,
and no others.
-/
import SpanTree.Proofs.Rejections

namespace SpanTree

/-! ## Characters and their owners -/

/-- The owner of each character. -/
def owners (spans : List Span) : List NodeId :=
  spans.flatMap fun x => List.replicate x.length.toNat x.id

@[simp] theorem owners_append (a b : List Span) : owners (a ++ b) = owners a ++ owners b :=
  List.flatMap_append

@[simp] theorem owners_cons (x : Span) (rest : List Span) :
    owners (x :: rest) = List.replicate x.length.toNat x.id ++ owners rest := rfl

theorem id_of_mem_owners {spans : List Span} {id : NodeId} (h : id ∈ owners spans) :
    id ∈ spans.map (·.id) := by
  obtain ⟨x, hx, hid⟩ := List.mem_flatMap.mp h
  rw [List.eq_of_mem_replicate hid]
  exact List.mem_map_of_mem hx

/-- An owner that is replaced by another. -/
def heirOf (lost heir id : NodeId) : NodeId := if id = lost then heir else id

/-- Spans without a node keep their owners when the node is replaced. -/
theorem map_heirOf {spans : List Span} {lost heir : NodeId} (h : lost ∉ spans.map (·.id)) :
    (owners spans).map (heirOf lost heir) = owners spans := by
  refine (List.map_congr_left fun id hid => ?_).trans (List.map_id _)
  have hne : id ≠ lost := fun heq => h (heq ▸ id_of_mem_owners hid)
  exact if_neg hne

/-- Two spans next to each other, the first of which is on the given side of the second. -/
def Side.pair (s : Side) (y x : Span) : List Span := s.pick [y, x] [x, y]

theorem perm_pair (s : Side) (pre post : List Span) (y x : Span) :
    (pre ++ s.pair y x ++ post).Perm (x :: (pre ++ y :: post)) := by
  cases s with
  | left =>
    have h : ((pre ++ [y]) ++ x :: post).Perm (x :: ((pre ++ [y]) ++ post)) := List.perm_middle
    simpa [Side.pair] using h
  | right =>
    simp [Side.pair]

@[simp] theorem covered_pair (s : Side) (y x : Span) :
    covered (s.pair y x) = y.length.toNat + x.length.toNat := by
  cases s <;> simp [Side.pair, Nat.add_comm]

/-- A span that takes over its neighbour owns what the two owned. -/
theorem owners_absorb (s : Side) {y x : Span} (hne : y.id ≠ x.id)
    (h : y.length.toNat + x.length.toNat < 2 ^ 64) :
    owners [y.absorb s x.length x.position] =
      (owners (s.pair y x)).map (heirOf x.id y.id) := by
  have hlength : (y.absorb s x.length x.position).length.toNat =
      y.length.toNat + x.length.toNat := Size.toNat_add_of_lt h
  cases s with
  | left =>
    simp [Side.pair, owners, hlength, heirOf, hne]
  | right =>
    simp [Side.pair, owners, hlength, heirOf, hne, Nat.add_comm y.length.toNat]

/-! ## Trees that lost a node to a neighbour -/

/-- The second tree has the given spans in the place of the first. It is as heavy and held by the
same link, and the characters of the lost node are with the heir. -/
structure Tree.HandedOver (t : Tree) (lost heir : NodeId) (spans : List Span) (u : Tree) :
    Prop where
  wellFormed : u.WellFormed
  spans : u.spans = spans
  total : u.total = t.total
  link : u.link? = t.link?
  owners : owners u.spans = (owners t.spans).map (heirOf lost heir)

/-- A tree in which a span went to its neighbour on a side has kept its weight, and every
character its owner but those of the span. -/
theorem Tree.WellFormed.handedOver {t u : Tree} (ht : t.WellFormed) {s : Side}
    {pre post : List Span} {x y : Span} (hcut : t.spans = pre ++ s.pair y x ++ post)
    (hr : t.Respanned (pre ++ y.absorb s x.length x.position :: post) u) :
    t.HandedOver x.id y.id (pre ++ y.absorb s x.length x.position :: post) u := by
  have hsum := ht.weighed.covered_spans
  have hfits := t.total.toNat_lt
  rw [hcut, covered_append, covered_append, covered_pair] at hsum
  have hlength : (y.absorb s x.length x.position).length.toNat =
      y.length.toNat + x.length.toNat := Size.toNat_add_of_lt (by omega)
  have hd : (x.id :: (pre ++ y :: post).map (·.id)).Nodup := by
    have hperm := (perm_pair s pre post y x).map (·.id)
    rw [← hcut] at hperm
    exact hperm.nodup_iff.mp ht.distinct
  obtain ⟨hx, hrest⟩ := List.nodup_cons.mp hd
  simp only [List.map_append, List.map_cons, List.mem_append, List.mem_cons, not_or] at hx
  obtain ⟨hxpre, hxy, hxpost⟩ := hx
  constructor
  · refine ⟨hr.weighed, hr.linked, ?_⟩
    rw [ids, hr.spans]
    simpa using hrest
  · exact hr.spans
  · rw [← UInt64.toNat_inj, ← hr.weighed.covered_spans, ← ht.weighed.covered_spans, hr.spans, hcut]
    simp only [covered_append, covered_cons, covered_pair, hlength]
    omega
  · exact hr.link?_eq (by simp)
  · have hpair := owners_absorb s (Ne.symm hxy) (by omega)
    rw [hr.spans, hcut, owners_append, owners_append, owners_append, ← List.singleton_append,
      owners_append, hpair, List.map_append, List.map_append, map_heirOf hxpre, map_heirOf hxpost,
      List.append_assoc]

/-! ## Merges and removals -/

namespace Forest

/-- A well-formed tree at its place. The tree of a text is linked to it, and no other tree of the
forest has a node of it. -/
structure Holds (f : Forest) (p : Place) : Prop where
  wellFormed : (f.tree p).WellFormed
  link : ∀ t, p.home? = some t → ∀ link ∈ (f.tree p).link?, link = .owner t
  apart : ∀ q, q ≠ p → ∀ id ∈ (f.tree p).ids, id ∉ (f.tree q).ids

/-- The operation succeeds with a result and changes the tree of the place only. In the new tree
the lost node is gone and the heir has its characters. -/
def HandsOver {α : Type} (f : Forest) (p : Place) (op : Run α) (result : α)
    (lost heir : NodeId) (spans : List Span) : Prop :=
  ∃ u, exec op f = (.ok result, f.plant u p) ∧ (f.tree p).HandedOver lost heir spans u

variable {f : Forest} {p : Place} {id : NodeId} {pre post : List Span} {x y : Span}

/-- A well-formed tree takes the place of another, with the link and the nodes of that one. -/
theorem Holds.planted (hf : f.Holds p) {u : Tree} (hu : u.WellFormed)
    (hnil : (f.tree p).isNil = u.isNil) (hlink : u.link? = (f.tree p).link?)
    (hids : u.ids ⊆ (f.tree p).ids) : (f.plant u p).Holds p := by
  have htree : (f.plant u p).tree p = u := tree_plant p hnil
  refine ⟨?_, ?_, fun q hq id hid => ?_⟩
  · rw [htree]
    exact hu
  · rw [htree, hlink]
    exact hf.link
  · rw [htree] at hid
    rw [tree_plant_of_ne hq]
    exact hf.apart q hq id (hids hid)

/-- The identity of a node leads to its cursor. -/
theorem Holds.locate_of_toTree (hf : f.Holds p) {c : Cursor} (hc : c.toTree = f.tree p) :
    f.locate? c.node.id = some ⟨p, c⟩ := by
  have hmem : c.node.id ∈ (f.tree p).ids := by
    rw [← hc, Tree.ids, c.spans_toTree]
    simp
  have hfound := Tree.locate?_toTree (c := c) (hc ▸ hf.wellFormed.distinct)
  rw [locate?_eq hmem fun q hq => hf.apart q hq _ hmem, ← hc, hfound]
  rfl

/-- The cursor of a span of the tree at a place, with what surrounds it. -/
theorem Holds.cut (hf : f.Holds p) (hcut : (f.tree p).spans = pre ++ x :: post) :
    ∃ c, f.locate? x.id = some ⟨p, c⟩ ∧ c.toTree = f.tree p ∧ c.before = pre ∧ c.span = x ∧
      c.after = post := by
  have hid : x.id ∈ (f.tree p).ids := by simp [Tree.ids, hcut]
  obtain ⟨c, hc, htree, hnode⟩ := exists_cursor hid fun q hq => hf.apart q hq x.id hid
  exact ⟨c, hc, htree, c.cut_unique (htree ▸ hf.wellFormed.distinct) (htree ▸ hcut) hnode.symm⟩

/-- A node that something holds is below the top, or the tree is a text's own. -/
theorem Holds.cursor (hf : f.Holds p) (hcut : (f.tree p).spans = pre ++ x :: post)
    (hheld : p.home? = none → (f.tree p).id? ≠ some x.id) :
    ∃ c, f.locate? x.id = some ⟨p, c⟩ ∧ c.toTree = f.tree p ∧
      (c.path = [] → c.toTree.Homed p.home?) ∧ c.before = pre ∧ c.span = x ∧ c.after = post := by
  obtain ⟨c, hc, htree, hbefore, hspan, hafter⟩ := hf.cut hcut
  refine ⟨c, hc, htree, fun hpath => ?_, hbefore, hspan, hafter⟩
  cases hhome : p.home? with
  | none =>
    have hid : x.id ∈ (f.tree p).ids := by simp [Tree.ids, hcut]
    have htop := (path_eq_nil_iff hid (fun q hq => hf.apart q hq x.id hid) hc htree
      (congrArg Span.id hspan)).mp hpath
    exact absurd htop (hheld hhome)
  | some t =>
    intro link hlink
    exact ⟨t, hf.link t hhome link (htree ▸ hlink), rfl⟩

/-- A merge plants what it made of the tree of the cursor. -/
theorem handsOver_merge {s : Side} {c : Cursor} {u : Tree} {result lost heir : NodeId}
    {spans : List Span} (hc : f.locate? id = some ⟨p, c⟩)
    (hmerge : c.mergeInto s p.home? = (u, .ok result))
    (hu : (f.tree p).HandedOver lost heir spans u) :
    f.HandsOver p (Run.merge s id) result lost heir spans := by
  refine ⟨u, ?_, hu⟩
  rw [Run.merge, exec_bind_ok (Run.exec_locate hc), Run.exec_conclude, hmerge]

/-- A merge to the left of a span that is not the first. -/
theorem Holds.merge_left {init : List Span} (hf : f.Holds p)
    (hcut : (f.tree p).spans = init ++ y :: x :: post)
    (hheld : p.home? = none → (f.tree p).id? ≠ some x.id) :
    f.HandsOver p (Run.merge .left x.id) y.id x.id y.id
      (init ++ y.absorb .left x.length x.position :: post) := by
  have hcut' : (f.tree p).spans = (init ++ [y]) ++ x :: post := by rw [hcut]; simp
  obtain ⟨c, hc, htree, hhome, hbefore, rfl, rfl⟩ := hf.cursor hcut' hheld
  rcases c.mergeInto_left (htree ▸ hf.wellFormed.weighed) (htree ▸ hf.wellFormed.linked) hhome with
    ⟨hnone, -⟩ | ⟨init', y', u, hbefore', hmerge, hu⟩
  · simp [hbefore] at hnone
  · obtain ⟨rfl, hy⟩ := List.append_inj' (hbefore'.symm.trans hbefore) rfl
    obtain rfl := List.singleton_inj.mp hy
    rw [htree] at hu
    have hpair : (f.tree p).spans = init' ++ Side.pair .left y' c.span ++ c.after := by
      rw [hcut]
      simp [Side.pair]
    exact handsOver_merge hc hmerge (hf.wellFormed.handedOver hpair hu)

/-- A merge to the right of a span that is not the last. -/
theorem Holds.merge_right {rest : List Span} (hf : f.Holds p)
    (hcut : (f.tree p).spans = pre ++ x :: y :: rest)
    (hheld : p.home? = none → (f.tree p).id? ≠ some x.id) :
    f.HandsOver p (Run.merge .right x.id) y.id x.id y.id
      (pre ++ y.absorb .right x.length x.position :: rest) := by
  obtain ⟨c, hc, htree, hhome, rfl, rfl, hafter⟩ := hf.cursor hcut hheld
  rcases c.mergeInto_right (htree ▸ hf.wellFormed.weighed) (htree ▸ hf.wellFormed.linked) hhome with
    ⟨hnone, -⟩ | ⟨y', rest', u, hafter', hmerge, hu⟩
  · simp [hafter] at hnone
  · obtain ⟨rfl, rfl⟩ := List.cons.inj (hafter'.symm.trans hafter)
    rw [htree] at hu
    have hpair : (f.tree p).spans = c.before ++ Side.pair .right y' c.span ++ rest' := by
      rw [hcut]
      simp [Side.pair]
    exact handsOver_merge hc hmerge (hf.wellFormed.handedOver hpair hu)

/-- A removal that is a merge of the tree of the cursor is that merge in the forest. -/
theorem exec_remove_of_merge {s : Side} {c : Cursor} (hc : f.locate? id = some ⟨p, c⟩)
    (hremove : c.remove p.home? =
      ((c.mergeInto s p.home?).1, (c.mergeInto s p.home?).2.map fun _ => ())) :
    exec (Run.remove id) f = ((exec (Run.merge s id) f).1.map fun _ => (),
      (exec (Run.merge s id) f).2) := by
  rw [Run.remove, Run.merge, exec_bind_ok (Run.exec_locate hc), exec_bind_ok (Run.exec_locate hc),
    Run.exec_conclude, Run.exec_conclude, hremove]

/-- A removal of a span that is not the last is the merge to the right. -/
theorem Holds.remove_right (hf : f.Holds p) (hcut : (f.tree p).spans = pre ++ x :: post)
    (hheld : p.home? = none → (f.tree p).id? ≠ some x.id) (hpost : post ≠ []) :
    exec (Run.remove x.id) f =
      ((exec (Run.merge .right x.id) f).1.map fun _ => (),
        (exec (Run.merge .right x.id) f).2) := by
  obtain ⟨c, hc, htree, hhome, -, -, hafter⟩ := hf.cursor hcut hheld
  exact exec_remove_of_merge hc
    (c.remove_of_after (htree ▸ hf.wellFormed.linked) hhome (hafter ▸ hpost))

/-- **Merges and removals on the list of spans.** In a well-formed tree, wherever it is, take a
node that something holds. A merge hands its characters to its neighbour on the side, if it has
one, and nothing else of the list changes. A removal does the same as the merge to the right, at
the last node as the merge to the left, and at the only one it leaves no tree. -/
theorem Holds.merges_and_removals (hf : f.Holds p) (hcut : (f.tree p).spans = pre ++ x :: post)
    (hheld : p.home? = none → (f.tree p).id? ≠ some x.id) :
    (∀ init y, pre = init ++ [y] →
      f.HandsOver p (Run.merge .left x.id) y.id x.id y.id
        (init ++ y.absorb .left x.length x.position :: post)) ∧
    (∀ y rest, post = y :: rest →
      f.HandsOver p (Run.merge .right x.id) y.id x.id y.id
        (pre ++ y.absorb .right x.length x.position :: rest)) ∧
    (post ≠ [] → exec (Run.remove x.id) f =
      ((exec (Run.merge .right x.id) f).1.map fun _ => (), (exec (Run.merge .right x.id) f).2)) ∧
    (post = [] → pre ≠ [] → exec (Run.remove x.id) f =
      ((exec (Run.merge .left x.id) f).1.map fun _ => (), (exec (Run.merge .left x.id) f).2)) ∧
    (post = [] → pre = [] → exec (Run.remove x.id) f = (.ok (), f.plant .nil p)) := by
  obtain ⟨c, hc, htree, hhome, hbefore, hspan, hafter⟩ := hf.cursor hcut hheld
  have hl : c.toTree.Linked := htree ▸ hf.wellFormed.linked
  refine ⟨?_, ?_, ?_, ?_, ?_⟩
  · intro init y hpre
    exact hf.merge_left (by simp [hcut, hpre]) hheld
  · intro y rest hpost
    exact hf.merge_right (by rw [hcut, hpost]) hheld
  · exact hf.remove_right hcut hheld
  · intro hpost hpre
    exact exec_remove_of_merge hc
      (c.remove_of_before hl hhome (hafter.trans hpost) (hbefore ▸ hpre))
  · intro hpost hpre
    rw [Run.remove, exec_bind_ok (Run.exec_locate hc), Run.exec_conclude,
      c.remove_only hl hhome (hafter.trans hpost) (hbefore.trans hpre)]

theorem holds_pair : Edit.pair.Holds (.loose "pair") :=
  ⟨Edit.stands_pair.wellFormed, fun _ h => (by cases h), Edit.stands_pair.apart⟩

theorem unset_pair : ∀ link ∈ (Edit.pair.tree (.loose "pair")).link?, link = .unset := by
  rintro link ⟨⟩
  rfl

/-- In a loose tree of two nodes the lower one hands its three characters to the upper one. -/
theorem merges_and_removals_of_pair :
    Edit.pair.HandsOver (.loose "pair") (Run.merge .left 1) 0 1 0
      [⟨0, 5, 0, {}, {}⟩] ∧
    exec (Run.remove 1) Edit.pair = ((exec (Run.merge .left 1) Edit.pair).1.map fun _ => (),
      (exec (Run.merge .left 1) Edit.pair).2) := by
  have hcut : (Edit.pair.tree (.loose "pair")).spans =
      [⟨0, 2, 0, {}, {}⟩] ++ ⟨1, 3, 2, {}, {}⟩ :: [] := by rfl
  obtain ⟨hleft, -, -, hlast, -⟩ := holds_pair.merges_and_removals hcut (by decide)
  exact ⟨hleft [] _ rfl, hlast rfl (by simp)⟩

end Forest

end SpanTree
