/-
SpanTree.Proofs.Cuts — a split on the list of spans, through balancing.

A split cuts a span, hangs the new piece over the subtree on its side,
balances the piece at its slot, and at the root of a text balances the
root as well. Nodes move twice, and the node that is returned may end up
above the one that was split. On the list of spans none of this is seen:
one entry has become two.

`Forest.Grows` is what a place has to offer for this: a light well-formed
tree, a loose one linked to nothing, and identities of new nodes that no
tree has. A split leaves such a place again.
-/
import SpanTree.Proofs.Handovers

namespace SpanTree

/-- A link that the top has already. -/
theorem Tree.setLink_of_link? {t : Tree} {link : Link} (h : t.link? = some link) :
    t.setLink link = t := by
  cases t with
  | nil => rfl
  | node n l r =>
    obtain rfl : n.link = link := Option.some.inj h
    rfl

/-! ## Trees that differ in shape and caches -/

/-- The second tree has the nodes of the first in the same order and is as heavy, and its top is
linked alike. -/
structure Tree.Twins (t u : Tree) : Prop where
  wellFormed : t.WellFormed → u.WellFormed
  total : u.total = t.total
  link : u.link? = t.link?
  ids : u.ids = t.ids

namespace Tree

variable {t u v : Tree}

theorem Twins.refl (t : Tree) : t.Twins t := ⟨id, rfl, rfl, rfl⟩

theorem Twins.trans (h : t.Twins u) (h' : u.Twins v) : t.Twins v :=
  ⟨h'.wellFormed ∘ h.wellFormed, h'.total.trans h.total, h'.link.trans h.link, h'.ids.trans h.ids⟩

theorem Reshaped.twins (h : Reshaped t u) : t.Twins u :=
  ⟨h.wellFormed, h.total, h.link, h.ids⟩

theorem Twins.isNil (h : t.Twins u) : u.isNil = t.isNil := by
  have hids := congrArg List.length h.ids
  simp only [Tree.ids, List.length_map, length_spans] at hids
  exact isNil_of_size_eq hids

end Tree

/-- A cache is set. -/
theorem Cursor.twins_withPosition {c : Cursor} (hw : c.toTree.Weighed) (hl : c.toTree.Linked)
    (q : Size) : c.toTree.Twins (c.withPosition q).toTree := by
  have hr := c.respanned_withPosition hw hl q
  have hids : (c.withPosition q).toTree.ids = c.toTree.ids := by
    rw [Tree.ids, Tree.ids, hr.spans, c.spans_toTree]
    simp
  refine ⟨fun h => ⟨hr.weighed, hr.linked, hids ▸ h.distinct⟩, c.total_withPosition q, ?_, hids⟩
  exact hr.link?_eq (by simp)

namespace Forest

/-- A well-formed tree at its place to which nodes can be added. It is light, a loose tree is
linked to nothing, and no tree has a node that is still to come. -/
structure Grows (f : Forest) (p : Place) : Prop extends f.Holds p where
  light : (f.tree p).total.toNat < 2 ^ 63
  unset : p.home? = none → ∀ link ∈ (f.tree p).link?, link = .unset
  fresh : ∀ q, ∀ id ∈ (f.tree q).ids, id < f.nextId

variable {f : Forest} {p : Place} {u : Tree} {id : NodeId} {pre post : List Span} {x : Span}

/-- The only tree of a forest takes nodes if it is well-formed, light and linked to its text, and
no identity of it is still to come. -/
theorem grows_of_only {t : TextId} (helse : ∀ q, q ≠ .text t → f.tree q = .nil)
    (hwell : (f.tree (.text t)).WellFormed)
    (hlink : ∀ link ∈ (f.tree (.text t)).link?, link = .owner t)
    (hlight : (f.tree (.text t)).total.toNat < 2 ^ 63)
    (hids : ∀ id ∈ (f.tree (.text t)).ids, id < f.nextId) : f.Grows (.text t) := by
  refine ⟨⟨hwell, ?_, ?_⟩, hlight, fun h => (by cases h), ?_⟩
  · rintro u ⟨⟩
    exact hlink
  · intro q hq id _
    simp [helse q hq]
  · intro q id hid
    by_cases hq : q = .text t
    · rw [hq] at hid
      exact hids id hid
    · simp [helse q hq] at hid

/-- The only text of a forest without loose trees. -/
theorem grows_of_single {y : Text} (htexts : f.texts = [y]) (hloose : f.loose = {})
    (hwell : y.root.WellFormed) (hlink : ∀ link ∈ y.root.link?, link = .owner 0)
    (hlight : y.root.total.toNat < 2 ^ 63) (hids : ∀ id ∈ y.root.ids, id < f.nextId) :
    f.Grows (.text 0) := by
  have htree : f.tree (.text 0) = y.root := tree_text (by rw [htexts]; rfl)
  exact grows_of_only (fun q hq => tree_of_single htexts hloose hq) (htree ▸ hwell)
    (htree ▸ hlink) (htree ▸ hlight) (htree ▸ hids)

/-- A place without a tree takes nodes where another place does. -/
theorem Grows.of_nil {q : Place} (hf : f.Grows q) (hp : f.tree p = .nil) : f.Grows p := by
  refine ⟨⟨?_, ?_, ?_⟩, ?_, ?_, hf.fresh⟩ <;> rw [hp]
  · exact ⟨trivial, trivial, List.nodup_nil⟩
  · simp
  · simp
  · decide
  · simp

/-- A tree is planted whatever the next identity and the profile are. -/
theorem plant_with (f : Forest) (u : Tree) (p : Place) (n : NodeId) (q : Profile) :
    { f with nextId := n, profile := q }.plant u p =
      { f.plant u p with nextId := n, profile := q } := by
  cases p <;> rfl

/-- The profile is no part of what is planted. -/
theorem plant_profile (f : Forest) (u : Tree) (p : Place) (q : Profile) :
    { f with profile := q }.plant u p = { f.plant u p with profile := q } := by
  cases p <;> rfl

/-- A light tree is planted that is linked as its place asks for. Of the new nodes it may have
those that were still to come. -/
theorem Grows.planted (hf : f.Grows p) {n : NodeId} {q : Profile} (hu : u.WellFormed)
    (hlight : u.total.toNat < 2 ^ 63)
    (hlink : ∀ t, p.home? = some t → ∀ link ∈ u.link?, link = .owner t)
    (hunset : p.home? = none → ∀ link ∈ u.link?, link = .unset) (hn : f.nextId ≤ n)
    (hids : ∀ id ∈ u.ids, id ∈ (f.tree p).ids ∨ f.nextId ≤ id ∧ id < n)
    (hplant : (f.plant u p).tree p = u) :
    { f.plant u p with nextId := n, profile := q }.Grows p := by
  have htree : { f.plant u p with nextId := n, profile := q }.tree p = u := hplant
  have helse (r : Place) (hr : r ≠ p) :
      { f.plant u p with nextId := n, profile := q }.tree r = f.tree r := tree_plant_of_ne hr u
  refine ⟨⟨?_, ?_, ?_⟩, ?_, ?_, ?_⟩
  · rwa [htree]
  · rwa [htree]
  · intro r hr id hid hmem
    rw [htree] at hid
    rw [helse r hr] at hmem
    rcases hids id hid with hold | ⟨hnew, -⟩
    · exact hf.apart r hr id hold hmem
    · exact absurd (hf.fresh r id hmem) (Nat.not_lt.mpr hnew)
  · rwa [htree]
  · rwa [htree]
  · intro r id hid
    by_cases hr : r = p
    · subst hr
      rw [htree] at hid
      rcases hids id hid with hold | ⟨-, hlt⟩
      · exact Nat.lt_of_lt_of_le (hf.fresh r id hold) hn
      · exact hlt
    · rw [helse r hr] at hid
      exact Nat.lt_of_lt_of_le (hf.fresh r id hid) hn

/-- A tree is exchanged for its twin. -/
theorem Grows.twin (hf : f.Grows p) {q : Profile} (hu : (f.tree p).Twins u) :
    { f.plant u p with profile := q }.Grows p := by
  have hsame : ({ f.plant u p with nextId := f.nextId, profile := q } : Forest) =
      { f.plant u p with profile := q } := by cases p <;> rfl
  exact hsame ▸ hf.planted (hu.wellFormed hf.wellFormed) (hu.total ▸ hf.light)
    (hu.link ▸ hf.link) (hu.link ▸ hf.unset) (Nat.le_refl _)
    (fun id hid => .inl (hu.ids ▸ hid)) (tree_plant p hu.isNil.symm)

end Forest

namespace Run

variable {f : Forest} {p : Place} {id : NodeId} {pre post : List Span} {x : Span}

/-- Balancing at the root of a text plants what balancing makes of the tree, and gives the node
that is then there. -/
theorem exec_balancePossibleRoot_text {t : TextId} (hf : f.Grows (.text t))
    (htop : (f.tree (.text t)).id? = some id) :
    ∃ u top k q, exec (balancePossibleRoot id) f =
        (.ok top, { f.plant u (.text t) with profile := q }) ∧
      Tree.BalancedTo (f.tree (.text t)) u k ∧ u.id? = some top := by
  have hid := Tree.id_mem_ids_of_id? htop
  have hnil := Tree.isNil_of_mem_ids hid
  have halone := fun q hq => hf.apart q hq id hid
  obtain ⟨c, hc, htree, hnode⟩ := Forest.exists_cursor hid halone
  have hpath := (Forest.path_eq_nil_iff hid halone hc htree hnode).mpr htop
  have hmem : (f.tree (.text t)).link? = some c.node.link := by
    rw [← htree, Cursor.toTree_of_top hpath]
    rfl
  have hlink : c.node.link = .owner t := hf.link t rfl _ hmem
  obtain ⟨x, hx, hroot⟩ := Forest.exists_text hnil
  have hw : x.root.Weighed := hroot ▸ hf.wellFormed.weighed
  have hb : x.root.total.toNat < 2 ^ 63 := hroot ▸ hf.light
  obtain ⟨u, k, q, hbal, hexec⟩ :=
    exec_balancePossibleRoot_own hc hlink hx (hroot ▸ htop) hw hb
  rw [hroot] at hbal
  have hown : u.setLink (.owner t) = u :=
    Tree.setLink_of_link? (hbal.reshaped.link.trans (hlink ▸ hmem))
  obtain ⟨top, hu⟩ :=
    Tree.exists_id ((Tree.isNil_of_size_eq hbal.reshaped.size).trans hnil)
  rw [hown, hu] at hexec
  exact ⟨u, top, k, q, hexec, hbal, hu⟩

/-- Balancing at any node of a tree at its place plants another shape of the tree. -/
theorem exec_balancePossibleRoot_grows (hf : f.Grows p) (hsame : f.plant (f.tree p) p = f)
    (hid : id ∈ (f.tree p).ids) :
    ∃ u top q, exec (balancePossibleRoot id) f = (.ok top, { f.plant u p with profile := q }) ∧
      Tree.Reshaped (f.tree p) u := by
  have halone := fun q hq => hf.apart q hq id hid
  obtain ⟨c, hc, htree, hnode⟩ := Forest.exists_cursor hid halone
  have htop := Forest.path_eq_nil_iff hid halone hc htree hnode
  -- where the node is not linked to a text, the tree stays
  have stays (hlink : ∀ t, c.node.link ≠ .owner t) :
      ∃ u top q, exec (balancePossibleRoot id) f = (.ok top, { f.plant u p with profile := q }) ∧
        Tree.Reshaped (f.tree p) u := by
    refine ⟨f.tree p, id, f.profile, ?_, .refl _⟩
    rw [exec_balancePossibleRoot_unlinked hc hlink, hsame]
  by_cases hpath : c.path = []
  · cases p with
    | loose slot =>
      have hmem : c.node.link ∈ (f.tree (.loose slot)).link? := by
        rw [← htree, Cursor.toTree_of_top hpath]
        rfl
      have hlink := hf.unset rfl _ hmem
      exact stays (by simp [hlink])
    | text t =>
      obtain ⟨u, top, k, q, hexec, hbal, -⟩ := exec_balancePossibleRoot_text hf (htop.mp hpath)
      exact ⟨u, top, q, hexec, hbal.reshaped⟩
  · obtain ⟨b, rest, hrest⟩ := List.exists_cons_of_ne_nil hpath
    have hlink := Cursor.link_of_path (htree ▸ hf.wellFormed.linked) hrest
    exact stays (by simp [hlink])

end Run

namespace Forest

variable {f : Forest} {p : Place} {pre post : List Span} {x : Span}

/-- No tree has a node with the next identity. -/
theorem Grows.nextId_notMem (hf : f.Grows p) (r : Place) : f.nextId ∉ (f.tree r).ids :=
  fun hmem => Nat.lt_irrefl _ (hf.fresh r _ hmem)

/-- A split and the balancing after it plant a tree with the parts in the place of the span. -/
theorem Grows.exec_split (hf : f.Grows p) (hcut : (f.tree p).spans = pre ++ x :: post) (s : Side)
    {offset : Size} (hpos : 0 < offset.toNat) (hin : offset.toNat < x.length.toNat) :
    ∃ u q, exec (Run.split s x.id offset) f =
        (.ok f.nextId, { f.plant u p with nextId := f.nextId + 1, profile := q }) ∧
      u.WellFormed ∧ u.spans = pre ++ x.cut s f.nextId offset ++ post ∧
      u.total = (f.tree p).total ∧ u.link? = (f.tree p).link? ∧
      { f.plant u p with nextId := f.nextId + 1, profile := q }.Grows p := by
  have hid : x.id ∈ (f.tree p).ids := by simp [Tree.ids, hcut]
  have halone := fun q hq => hf.apart q hq x.id hid
  obtain ⟨c, hc, htree, hnode⟩ := exists_cursor hid halone
  obtain ⟨rfl, rfl, rfl⟩ :=
    c.cut_unique (htree ▸ hf.wellFormed.distinct) (htree ▸ hcut) hnode.symm
  have hsplits : c.splits offset = true := Cursor.splits_iff.mpr ⟨hpos, hin⟩
  obtain ⟨w, g, q, q', hr, -, hg, hexec⟩ :=
    Run.exec_split_cut hf.wellFormed hf.light hc htree s hsplits
  -- the cut
  have hperm := perm_ids_cut s f.nextId offset c.before c.after c.span
  rw [← hr.spans, ← hcut] at hperm
  have hwell : w.WellFormed :=
    ⟨hr.weighed, hr.linked,
      hperm.nodup_iff.mpr (List.nodup_cons.mpr ⟨hf.nextId_notMem p, hf.wellFormed.distinct⟩)⟩
  have htotal : w.total = (f.tree p).total := by
    rw [← UInt64.toNat_inj, ← htree]
    exact Cursor.toNat_total_cut (htree ▸ hf.wellFormed.weighed) hsplits hr
  have hlink : w.link? = (f.tree p).link? := by
    rw [← htree]
    exact hr.link?_eq (by cases s <;> simp [Span.cut])
  have hplant : (f.plant w p).tree p = w := tree_plant_of_node (Tree.isNil_of_mem_ids hid) w
  have hgrows : g.Grows p := by
    rw [hg]
    refine hf.planted hwell (htotal ▸ hf.light) (hlink ▸ hf.link) (hlink ▸ hf.unset)
      (Nat.le_succ _) ?_ hplant
    intro id hmem
    rcases List.mem_cons.mp (hperm.mem_iff.mp hmem) with rfl | hold
    · exact .inr ⟨Nat.le_refl _, Nat.lt_succ_self _⟩
    · exact .inl hold
  -- the balancing after it
  have htreeg : g.tree p = w := hg ▸ hplant
  have hreplace (v : Tree) (r : Profile) : ({ g.plant v p with profile := r } : Forest) =
      { f.plant v p with nextId := f.nextId + 1, profile := r } := by
    rw [hg, plant_with, plant_replace]
  have hsame : g.plant (g.tree p) p = g := by
    rw [htreeg, hg, plant_with, plant_replace]
  have hmem : c.span.id ∈ (g.tree p).ids := by
    rw [htreeg]
    exact hperm.mem_iff.mpr (List.mem_cons_of_mem _ hid)
  obtain ⟨u, top, q'', hbal, hkept⟩ := Run.exec_balancePossibleRoot_grows hgrows hsame hmem
  have hafter := hgrows.twin (q := q') hkept.twins
  rw [htreeg] at hkept
  rw [hreplace] at hafter
  refine ⟨u, q', ?_, hkept.wellFormed hwell, hkept.spans.trans hr.spans,
    hkept.total.trans htotal, hkept.link.trans hlink, hafter⟩
  rw [hexec, hbal]
  exact congrArg (Prod.mk _) (hreplace u q')

/-- **A split on the list of spans.** In a light well-formed tree, wherever it is and whatever
its shape, take a node and an offset inside its span. A split gives a new node, and the entry of
the node in the list has become two; every other entry, the weight of the tree and the link at
its top are as they were, and nothing else of the forest has changed but the profile. -/
theorem Grows.split_cuts (hf : f.Grows p) (hcut : (f.tree p).spans = pre ++ x :: post) (s : Side)
    {offset : Size} (hpos : 0 < offset.toNat) (hin : offset.toNat < x.length.toNat) :
    ∃ u q, exec (Run.split s x.id offset) f =
        (.ok f.nextId, { f.plant u p with nextId := f.nextId + 1, profile := q }) ∧
      u.WellFormed ∧ u.spans = pre ++ x.cut s f.nextId offset ++ post ∧
      u.total = (f.tree p).total ∧ u.link? = (f.tree p).link? ∧
      (∀ r, f.nextId ∉ (f.tree r).ids) ∧
      { f.plant u p with nextId := f.nextId + 1, profile := q }.Grows p := by
  obtain ⟨u, q, hexec, hwell, hspans, htotal, hlink, hgrows⟩ := hf.exec_split hcut s hpos hin
  exact ⟨u, q, hexec, hwell, hspans, htotal, hlink, hf.nextId_notMem, hgrows⟩

/-- A text of eight characters with two nodes, the second below the first. Their caches do not
know where the text begins. -/
def lopsided : Forest where
  texts := [{
    name := "t"
    beginOffset := 10
    content := "abcdefgh"
    root := .node { id := 0, link := .owner 0, data := { total := 8 } } .nil
      (.node { id := 1, link := .node 0, data := { total := 5, position := 3 } } .nil .nil) }]
  nextId := 2

theorem grows_lopsided : lopsided.Grows (.text 0) := by
  refine grows_of_single rfl rfl ⟨?_, ?_, by decide⟩ (by rintro link ⟨⟩; rfl) (by decide)
    (by decide)
  · simp only [Tree.Weighed]
    decide
  · simp only [Tree.Linked]
    decide

/-- The root of the text is split on its right. The piece sinks below the node that it adopted,
and that node becomes the root. -/
theorem split_cuts_lopsided : lopsided.Grows (.text 0) ∧
    ∃ u q, exec (Run.split .right 0 1) lopsided =
        (.ok 2, { lopsided.plant u (.text 0) with nextId := 3, profile := q }) ∧
      u.WellFormed ∧
      u.spans = [⟨0, 1, 0, {}, {}⟩, ⟨2, 2, 1, {}, {}⟩, ⟨1, 5, 3, {}, {}⟩] := by
  have hcut : (lopsided.tree (.text 0)).spans =
      [] ++ ⟨0, 3, 0, {}, {}⟩ :: [⟨1, 5, 3, {}, {}⟩] := rfl
  have hpos : 0 < (1 : Size).toNat := by decide
  obtain ⟨u, q, hexec, hwell, hspans, -⟩ := grows_lopsided.split_cuts hcut .right hpos (by decide)
  exact ⟨grows_lopsided, u, q, hexec, hwell, hspans⟩

end Forest

end SpanTree
