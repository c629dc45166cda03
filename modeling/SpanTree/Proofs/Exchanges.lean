/-
SpanTree.Proofs.Exchanges — a rotation in place is an owned rotation after
which two nodes exchange their identities.

An owned rotation moves nodes and leaves the payloads with them. A
rotation in place leaves the nodes and moves the payloads. Up to the names
of the two nodes this is the same: on a well-formed tree the one gives
what the other gives, once the two names are exchanged in the nodes and in
the links (`exchanged_eq_rename`). What does not mention names, such as
the shape with its payloads, is therefore the same after both.

The rotation to the other side, made at the node that is then at the top,
undoes each of them, links and weights included (`raised_raised`,
`exchanged_exchanged`). A weighed tree is one after the rotation, so that
the checks of the second rotation hold as well.
-/
import Mathlib.Logic.Equiv.Basic
import SpanTree.Proofs.Fixpoint
import SpanTree.Proofs.Handling
import SpanTree.Proofs.Handovers

namespace SpanTree

/-! ## Names -/

/-- The link with the names of nodes replaced. -/
def Link.rename (σ : NodeId → NodeId) : Link → Link
  | .node holder => .node (σ holder)
  | link => link

/-- The span with the name of its node replaced. -/
def Span.rename (σ : NodeId → NodeId) (x : Span) : Span := { x with id := σ x.id }

namespace Tree

/-- The tree with the names of nodes replaced, in the nodes and in the links. -/
def rename (σ : NodeId → NodeId) : Tree → Tree
  | .nil => .nil
  | .node n l r =>
    .node { n with id := σ n.id, link := n.link.rename σ } (l.rename σ) (r.rename σ)

/-- The tree with nothing but its payloads, each where it is. -/
def payloads : Tree → Tree
  | .nil => .nil
  | .node n l r => .node { id := 0, data := n.data } l.payloads r.payloads

variable {σ : NodeId → NodeId} {s : Side} {t : Tree}

@[simp] theorem rename_nil (σ : NodeId → NodeId) : rename σ .nil = .nil := rfl

@[simp] theorem rename_join (σ : NodeId → NodeId) (s : Side) (n : Node) (near far : Tree) :
    (join s n near far).rename σ =
      join s { n with id := σ n.id, link := n.link.rename σ } (near.rename σ) (far.rename σ) := by
  cases s <;> rfl

@[simp] theorem total_rename (σ : NodeId → NodeId) (t : Tree) : (t.rename σ).total = t.total := by
  cases t <;> rfl

/-- A name is no part of what a span says. -/
theorem spans_rename (σ : NodeId → NodeId) (t : Tree) :
    (t.rename σ).spans = t.spans.map (Span.rename σ) := by
  induction t with
  | nil => rfl
  | node n l r ihl ihr =>
    simp [rename, ihl, ihr, Node.span, Node.length, Span.rename]

@[simp] theorem payloads_setLink (link : Link) (t : Tree) :
    (t.setLink link).payloads = t.payloads := by
  cases t <;> rfl

@[simp] theorem payloads_rename (σ : NodeId → NodeId) (t : Tree) :
    (t.rename σ).payloads = t.payloads := by
  induction t with
  | nil => rfl
  | node n l r ihl ihr => rw [rename, payloads, payloads, ihl, ihr]

theorem payloads_join (s : Side) (n : Node) (near far : Tree) :
    (join s n near far).payloads =
      join s { id := 0, data := n.data } near.payloads far.payloads := by
  cases s <;> rfl

/-- The payloads around a subtree do not depend on it. -/
theorem payloads_plug_congr (path : Path) {u : Tree} (h : u.payloads = t.payloads) :
    (Path.plug path u).payloads = (Path.plug path t).payloads := by
  induction path generalizing t u with
  | nil => exact h
  | cons b rest ih => exact ih (by rw [Crumb.attach, Crumb.attach, payloads_join, payloads_join, h])

@[simp] theorem setLink_setLink (link link' : Link) (t : Tree) :
    (t.setLink link).setLink link' = t.setLink link' := by
  cases t <;> rfl

/-- A link that names the holder already. -/
theorem setLink_of_linkedTo {holder : NodeId} (h : t.linkedTo holder = true) :
    t.setLink (.node holder) = t := by
  cases t with
  | nil => rfl
  | node n l r =>
    rw [linkedTo_node] at h
    simp [setLink, Node.withLink, ← h]

/-- Where the names of a linked subtree are kept, only the name of its holder
is replaced. -/
theorem rename_eq_setLink {holder : NodeId} (hl : t.Linked) (hto : t.linkedTo holder = true)
    (hkept : ∀ id ∈ t.ids, σ id = id) : t.rename σ = t.setLink (.node (σ holder)) := by
  induction t generalizing holder with
  | nil => rfl
  | node n l r ihl ihr =>
    obtain ⟨hlto, hrto, hll, hlr⟩ := hl
    rw [linkedTo_node] at hto
    simp only [ids_node, List.mem_append, List.mem_cons] at hkept
    have hn : σ n.id = n.id := hkept n.id (.inr (.inl rfl))
    rw [rename, ihl hll hlto fun id hid => hkept id (.inl hid),
      ihr hlr hrto fun id hid => hkept id (.inr (.inr hid)), hn, setLink_of_linkedTo hlto,
      setLink_of_linkedTo hrto, hto]
    rfl

/-! ## The two kinds of rotation -/

section Pivot

variable {a b : Node} {outer inner far : Tree}

/-- What is true of the links of a tree that is to be rotated. -/
theorem links_of_join (hl : (join s a (join s b outer inner) far).Linked) :
    b.link = .node a.id ∧ outer.linkedTo b.id = true ∧ inner.linkedTo b.id = true ∧
      far.linkedTo a.id = true ∧ outer.Linked ∧ inner.Linked ∧ far.Linked := by
  simp only [linked_join, linkedTo_iff (t := join s b outer inner), link?_join] at hl
  obtain ⟨hb, hfar, ⟨hout, hin, ho, hi⟩, hf⟩ := hl
  exact ⟨hb _ rfl, hout, hin, hfar, ho, hi, hf⟩

/-- The names of the two nodes are those of no other node. -/
theorem distinct_of_join (hd : (join s a (join s b outer inner) far).ids.Nodup) :
    a.id ≠ b.id ∧ ∀ id, id ∈ outer.ids ∨ id ∈ inner.ids ∨ id ∈ far.ids → id ≠ a.id ∧ id ≠ b.id := by
  have hperm := (ids_join s a (join s b outer inner) far).trans
    ((ids_join s b outer inner).append_right _)
  have hd' := hperm.nodup_iff.mp hd
  simp only [List.nodup_append, List.nodup_cons, List.mem_append, List.mem_cons] at hd'
  grind

/-- **One rotation, two names.** A rotation in place gives what the owned
rotation gives once the two nodes have exchanged their names. The link at the
top stays as it is. -/
theorem exchanged_eq_rename (h : (join s a (join s b outer inner) far).WellFormed) :
    Pivot.exchanged s ⟨a, b, outer, inner, far⟩ =
      ((Pivot.raised s ⟨a, b, outer, inner, far⟩).rename (Equiv.swap a.id b.id)).setLink
        a.link := by
  obtain ⟨hb, hout, hin, hfar, ho, hi, hf⟩ := links_of_join h.linked
  obtain ⟨-, hne⟩ := distinct_of_join h.distinct
  have hkept (id : NodeId) (hid : id ∈ outer.ids ∨ id ∈ inner.ids ∨ id ∈ far.ids) :
      Equiv.swap a.id b.id id = id :=
    Equiv.swap_apply_of_ne_of_ne (hne id hid).1 (hne id hid).2
  have hra : Equiv.swap a.id b.id a.id = b.id := Equiv.swap_apply_left _ _
  have hrb : Equiv.swap a.id b.id b.id = a.id := Equiv.swap_apply_right _ _
  -- the three subtrees
  have houter : outer.rename (Equiv.swap a.id b.id) = outer.setLink (.node a.id) := by
    rw [rename_eq_setLink ho hout fun id hid => hkept id (.inl hid), hrb]
  have hinner : (inner.setLink (.node a.id)).rename (Equiv.swap a.id b.id) = inner := by
    have hto := linkedTo_setLink inner a.id
    rw [rename_eq_setLink (by simpa using hi) hto
      fun id hid => hkept id (.inr (.inl (by simpa using hid))), hra, setLink_setLink,
      setLink_of_linkedTo hin]
  have hfar' : far.rename (Equiv.swap a.id b.id) = far.setLink (.node b.id) := by
    rw [rename_eq_setLink hf hfar fun id hid => hkept id (.inr (.inr hid)), hra]
  -- the two nodes
  simp only [Pivot.raised, Pivot.exchanged, Pivot.ownLength, rename_join, houter, hinner, hfar',
    total_sunk]
  cases s <;> simp [join, setLink, Node.withLink, Node.withTotal, Link.rename, hra, hrb, hb]

/-! ## The way back -/

/-- An owned rotation is undone by the one to the other side. -/
theorem raised_raised (hl : (join s a (join s b outer inner) far).Linked) :
    ∃ b' a' inner', Pivot.raised s ⟨a, b, outer, inner, far⟩ =
        join s.other b' (join s.other a' far inner') outer ∧
      Pivot.raised s.other ⟨b', a', far, inner', outer⟩ =
        join s a (join s b outer inner) far := by
  obtain ⟨hb, -, hin, -⟩ := links_of_join hl
  refine ⟨_, _, _, by rw [Pivot.raised, join_other, join_other], ?_⟩
  have hback (x y z : Size) : x - (x - (y - z) - z) = y := by grind
  simp only [Pivot.raised, Node.withLink, Node.withTotal, join_other, total_setLink, hback,
    setLink_setLink, setLink_of_linkedTo hin, ← hb]

/-- So is a rotation in place. -/
theorem exchanged_exchanged (hl : (join s a (join s b outer inner) far).Linked) :
    ∃ a' b' outer' far', Pivot.exchanged s ⟨a, b, outer, inner, far⟩ =
        join s.other a' (join s.other b' far' inner) outer' ∧
      Pivot.exchanged s.other ⟨a', b', far', inner, outer'⟩ =
        join s a (join s b outer inner) far := by
  obtain ⟨-, hout, -, hfar, -⟩ := links_of_join hl
  refine ⟨_, _, _, _, by rw [Pivot.exchanged, join_other, join_other], ?_⟩
  have hback (x y z w v : Size) : x - (x - y - z + w + z) - v + w + v = y := by grind
  simp only [Pivot.exchanged, Pivot.ownLength, Node.withTotal, join_other, total_setLink, hback,
    setLink_setLink, setLink_of_linkedTo hout, setLink_of_linkedTo hfar]

end Pivot

/-- What the two kinds of rotation make of a tree. -/
structure RotatesTo (s : Side) (t u w : Tree) : Prop where
  owned : t.rotateOwned s = .ok u
  inPlace : t.rotateInPlace s = (w, .ok ())

/-- With a child on the side both rotations of a weighed tree succeed. -/
theorem rotatesTo_join {a b : Node} {outer inner far : Tree}
    (h : (join s a (join s b outer inner) far).Weighed) :
    (join s a (join s b outer inner) far).RotatesTo s
      (Pivot.raised s ⟨a, b, outer, inner, far⟩) (Pivot.exchanged s ⟨a, b, outer, inner, far⟩) :=
  ⟨rotateOwned_join h, rotateInPlace_join h⟩

/-- Both are undone by the rotation of their kind to the other side. -/
theorem RotatesTo.undone {u w : Tree} (h : t.RotatesTo s u w) (hw : t.Weighed) (hl : t.Linked) :
    u.rotateOwned s.other = .ok t ∧ w.rotateInPlace s.other = (t, .ok ()) := by
  obtain ⟨a, b, outer, inner, far, rfl⟩ := exists_join (isNil_child_of_rotateOwned h.owned)
  have hu := (rotatesTo_join hw).owned.symm.trans h.owned
  have hw' := (rotatesTo_join hw).inPlace.symm.trans h.inPlace
  obtain rfl := Except.ok.inj hu
  obtain rfl := (Prod.mk.inj hw').1
  constructor
  · obtain ⟨b', a', inner', heq, hback⟩ := raised_raised hl
    have hweighed := (reshaped_raised hw).weighed hw
    rw [heq] at hweighed ⊢
    rw [rotateOwned_join hweighed, hback]
  · obtain ⟨a', b', outer', far', heq, hback⟩ := exchanged_exchanged hl
    have hweighed := (repainted_exchanged hw).weighed hw
    rw [heq] at hweighed ⊢
    rw [rotateInPlace_join hweighed, hback]

end Tree

/-! ## At a node of a tree -/

/-- The spans of other nodes keep their names. -/
theorem map_rename_swap {a b : NodeId} {spans : List Span}
    (h : ∀ x ∈ spans, x.id ≠ a ∧ x.id ≠ b) :
    spans.map (Span.rename (Equiv.swap a b)) = spans := by
  refine (List.map_congr_left fun x hx => ?_).trans (List.map_id _)
  rw [Span.rename, Equiv.swap_apply_of_ne_of_ne (h x hx).1 (h x hx).2]
  rfl

namespace Cursor

/-- An owned rotation at a node, its result put back where the subtree was.
The child is at the top now and has the link of the node. All nodes say what
they said before. -/
structure RaisedTo (c : Cursor) (s : Side) (child : NodeId) (u : Tree) : Prop where
  rotates : c.subtree.rotateOwned s = .ok u
  top : u.id? = some child
  link : u.link? = some c.node.link
  wellFormed : (Path.plug c.path u).WellFormed
  spans : (Path.plug c.path u).spans = c.toTree.spans
  undone : u.rotateOwned s.other = .ok c.subtree

/-- A rotation in place at a node. The node is still at the top and has its
link. It says what its child said before, and the child what it said; read
from left to right, nothing has changed but the two names. -/
structure ExchangedTo (c : Cursor) (s : Side) (child : NodeId) (w : Tree) : Prop where
  rotates : c.subtree.rotateInPlace s = (w, .ok ())
  top : w.id? = some c.node.id
  link : w.link? = some c.node.link
  wellFormed : (Path.plug c.path w).WellFormed
  spans : (Path.plug c.path w).spans =
    c.toTree.spans.map (Span.rename (Equiv.swap c.node.id child))
  faces : (Path.plug c.path w).faces = c.toTree.faces
  ids : (Path.plug c.path w).ids.Perm c.toTree.ids
  undone : w.rotateInPlace s.other = (c.subtree, .ok ())

variable {c d : Cursor} {s : Side}

theorem subtree_eq_join (c : Cursor) (s : Side) :
    c.subtree = Tree.join s c.node (c.child s) (c.child s.other) := by
  cases s <;> rfl

/-- A subtree of a well-formed tree is well formed, and its nodes are not those around it. -/
theorem wellFormed_subtree (h : c.toTree.WellFormed) : c.subtree.WellFormed ∧
    ∀ x ∈ Path.before c.path c.subtree ++ Path.after c.path c.subtree,
      x.id ∉ c.subtree.ids := by
  have hd := h.distinct
  rw [Tree.ids, toTree, Path.spans_plug, List.map_append, List.map_append, List.nodup_append,
    List.nodup_append] at hd
  obtain ⟨⟨-, hsub, hbefore⟩, -, hafter⟩ := hd
  refine ⟨⟨weighed_subtree h.weighed, linked_subtree h.linked, hsub⟩, fun x hx hid => ?_⟩
  rcases List.mem_append.mp hx with hx | hx
  · exact hbefore _ (List.mem_map_of_mem hx) _ hid rfl
  · exact hafter _ (List.mem_append_right _ hid) _ (List.mem_map_of_mem hx) rfl

/-- Below a node with a child on the side there is a rotation of each kind,
and the one in place gives what the owned one gives with the two names
exchanged. -/
theorem exists_rotations (h : c.toTree.WellFormed) (hd : c.down? s = some d) :
    ∃ u w, c.RaisedTo s d.node.id u ∧ c.ExchangedTo s d.node.id w ∧
      w = (u.rename (Equiv.swap c.node.id d.node.id)).setLink c.node.link := by
  obtain ⟨hsub, hapart⟩ := wellFormed_subtree h
  have hjoin := c.subtree_eq_join s
  rw [← (down?_eq_some hd).1, d.subtree_eq_join s] at hjoin
  generalize c.child s.other = far at hjoin
  generalize d.child s = outer, d.child s.other = inner at hjoin
  rw [hjoin] at hsub
  have hrot := Tree.rotatesTo_join hsub.weighed
  obtain ⟨hback, hback'⟩ := hrot.undone hsub.weighed hsub.linked
  have hraised := Tree.reshaped_raised hsub.weighed
  have hexchanged := Tree.repainted_exchanged hsub.weighed
  have hname := Tree.exchanged_eq_rename hsub
  rw [← hjoin] at hrot hback hback' hraised hexchanged
  refine ⟨_, _, ⟨hrot.owned, ?_, ?_, ?_, ?_, hback⟩,
    ⟨hrot.inPlace, ?_, ?_, ?_, ?_, ?_, ?_, hback'⟩, hname⟩
  -- the owned rotation
  · cases s <;> rfl
  · exact hraised.link
  · exact (Path.reshaped_plug c.path hraised).wellFormed h
  · exact (Path.reshaped_plug c.path hraised).spans
  -- the rotation in place
  · cases s <;> rfl
  · exact hexchanged.link
  · exact (Path.repainted_plug c.path hexchanged).wellFormed h
  · have hspans (x : Span) (hx : x ∈ Path.before c.path c.subtree ++ Path.after c.path c.subtree) :
        x.id ≠ c.node.id ∧ x.id ≠ d.node.id := by
      have hne := hapart x hx
      rw [hjoin, ((Tree.ids_join _ _ _ _).trans ((Tree.ids_join _ _ _ _).append_right _)).mem_iff]
        at hne
      simp only [List.mem_append, List.mem_cons, not_or] at hne
      exact ⟨hne.2.1, hne.1.2.1⟩
    rw [toTree, Path.spans_plug, Path.spans_plug, Path.before_congr _ hexchanged.total,
      Path.after_congr _ hexchanged.total, hname, Tree.spans_setLink, Tree.spans_rename,
      ← hraised.spans, List.map_append, List.map_append,
      map_rename_swap fun x hx => hspans x (List.mem_append_left _ hx),
      map_rename_swap fun x hx => hspans x (List.mem_append_right _ hx)]
  · exact (Path.repainted_plug c.path hexchanged).faces
  · exact (Path.repainted_plug c.path hexchanged).ids

end Cursor

/-! ## In a forest -/

namespace Forest

/-- The operation changes the tree at a place, and the other one then brings the forest back to
what it was. -/
def TurnsBack {α : Type} (f : Forest) (p : Place) (op back : Run α) (r r' : α) (u : Tree) : Prop :=
  exec op f = (.ok r, f.plant u p) ∧ exec back (f.plant u p) = (.ok r', f)

variable {f : Forest} {p : Place} {c d : Cursor} {s : Side} {id : NodeId}

/-- A rotation in place plants what it made of the subtree. -/
theorem exec_rotateInPlace_at (hc : f.locate? id = some ⟨p, c⟩) {u : Tree}
    {r : Except Violation Unit} (hu : c.subtree.rotateInPlace s = (u, r)) :
    exec (Run.rotateInPlace s id) f =
      (r.mapError .violation, f.plant (Path.plug c.path u) p) := by
  rw [Run.rotateInPlace, exec_bind_ok (Run.exec_locate hc)]
  dsimp only
  rw [hu, exec_bind_ok (Run.exec_plant _ _ _)]
  cases r <;> rfl

/-- An owned rotation of a loose tree. A failure leaves nothing in the slot. -/
theorem exec_rotateLoose (s : Side) (slot : String) (f : Forest) :
    exec (Run.rotateLoose s slot) f =
      match (f.tree (.loose slot)).rotateOwned s with
      | .ok u => (.ok u.id?, f.plant u (.loose slot))
      | .error v => (.error (.violation v), f.plant .nil (.loose slot)) := by
  rw [Run.rotateLoose, exec_bind_ok (Run.exec_takeLoose slot f)]
  cases (f.tree (.loose slot)).rotateOwned s with
  | error v => rfl
  | ok u =>
    dsimp only
    rw [Run.storeLoose, exec_bind_ok (Run.exec_plant _ _ _), plant_replace, exec_pure]

/-- A rotation in place and the way back. -/
theorem turnsBack_rotateInPlace (hf : f.Holds p) (hloose : f.loose.Ordered)
    (htree : c.toTree = f.tree p) {child : NodeId} {w : Tree} (hw : c.ExchangedTo s child w) :
    f.TurnsBack p (Run.rotateInPlace s c.node.id) (Run.rotateInPlace s.other c.node.id) () ()
      (Path.plug c.path w) := by
  obtain ⟨n, l, r, rfl⟩ : ∃ n l r, w = .node n l r := by
    cases w with
    | nil => cases hw.top
    | node n l r => exact ⟨n, l, r, rfl⟩
  have hid : n.id = c.node.id := Option.some.inj hw.top
  have hmem : c.node.id ∈ (f.tree p).ids := by simp [← htree, Tree.ids, c.spans_toTree]
  have hnil := Tree.isNil_of_mem_ids hmem
  have hnil' := Tree.isNil_of_mem_ids (hw.ids.mem_iff.mpr (htree ▸ hmem))
  have hplanted := tree_plant_of_node hnil (Path.plug c.path (.node n l r))
  -- the node is found where it was
  have hholds : (f.plant (Path.plug c.path (.node n l r)) p).Holds p := by
    refine hf.planted hw.wellFormed (hnil.trans hnil'.symm) ?_ (htree ▸ hw.ids.subset)
    rw [← htree]
    exact Path.link?_plug_congr c.path hw.link
  have hfound := hholds.locate_of_toTree (c := ⟨n, l, r, c.path⟩) hplanted.symm
  refine ⟨exec_rotateInPlace_at (hf.locate_of_toTree htree) hw.rotates, ?_⟩
  rw [← hid, exec_rotateInPlace_at hfound hw.undone, plant_replace]
  change (_, f.plant c.toTree p) = _
  rw [htree, plant_same hloose hnil]
  rfl

/-- An owned rotation of a loose tree and the way back. -/
theorem turnsBack_rotateLoose {slot : String} (hloose : f.loose.Ordered)
    (htree : c.toTree = f.tree (.loose slot)) (htop : c.path = []) {child : NodeId} {u : Tree}
    (hu : c.RaisedTo s child u) :
    f.TurnsBack (.loose slot) (Run.rotateLoose s slot) (Run.rotateLoose s.other slot)
      (some child) (some c.node.id) u := by
  rw [Cursor.toTree_of_top htop] at htree
  have hnil : (f.tree (.loose slot)).isNil = false := by rw [← htree]; rfl
  have hplanted : (f.plant u (.loose slot)).tree (.loose slot) = u := tree_plant_of_node hnil u
  constructor
  · rw [exec_rotateLoose, ← htree, hu.rotates]
    dsimp only
    rw [hu.top]
  · rw [exec_rotateLoose, hplanted, hu.undone]
    dsimp only
    rw [plant_replace, htree, plant_same hloose hnil, ← htree]
    rfl

end Forest

/-! ## The two rotations agree -/

namespace Cursor

/-- **The two rotations agree.** At every node of a well-formed tree that has a
child on the side, both rotations succeed, as `RaisedTo` and `ExchangedTo` say.
They give the same tree of payloads, and the same tree altogether once the two
names are exchanged. A rotation to the other side brings back the tree, the
one in place wherever the tree stands in a forest, the owned one in a slot. -/
theorem rotations_agree {c d : Cursor} {s : Side} (h : c.toTree.WellFormed)
    (hd : c.down? s = some d) :
    ∃ u w, c.RaisedTo s d.node.id u ∧ c.ExchangedTo s d.node.id w ∧
      w = (u.rename (Equiv.swap c.node.id d.node.id)).setLink c.node.link ∧
      (Path.plug c.path w).payloads = (Path.plug c.path u).payloads ∧
      ∀ (f : Forest) (p : Place), f.Holds p → f.loose.Ordered → c.toTree = f.tree p →
        f.TurnsBack p (Run.rotateInPlace s c.node.id) (Run.rotateInPlace s.other c.node.id) () ()
          (Path.plug c.path w) ∧
        ∀ slot, p = .loose slot → c.path = [] →
          f.TurnsBack p (Run.rotateLoose s slot) (Run.rotateLoose s.other slot)
            (some d.node.id) (some c.node.id) u := by
  obtain ⟨u, w, hu, hw, hname⟩ := exists_rotations h hd
  have hpayloads : w.payloads = u.payloads := by
    rw [hname, Tree.payloads_setLink, Tree.payloads_rename]
  refine ⟨u, w, hu, hw, hname, Tree.payloads_plug_congr c.path hpayloads,
    fun f p hf hloose htree => ⟨Forest.turnsBack_rotateInPlace hf hloose htree hw, ?_⟩⟩
  rintro slot rfl htop
  exact Forest.turnsBack_rotateLoose hloose htree htop hu

/-- The two nodes of a loose tree exchange their places in the one way and the other. -/
theorem rotations_agree_pair : ∃ c d : Cursor, c.toTree = Edit.pair.tree (.loose "pair") ∧
    c.down? .right = some d ∧ ∃ u w, c.RaisedTo .right 1 u ∧ c.ExchangedTo .right 1 w ∧
      Edit.pair.TurnsBack (.loose "pair") (Run.rotateInPlace .right 0) (Run.rotateInPlace .left 0)
        () () w ∧
      Edit.pair.TurnsBack (.loose "pair") (Run.rotateLoose .right "pair")
        (Run.rotateLoose .left "pair") (some 1) (some 0) u := by
  have hc : (⟨{ id := 0, data := { total := 5 } }, .nil,
      .node { id := 1, link := .node 0, data := { total := 3, position := 2 } } .nil .nil, []⟩ :
      Cursor).toTree = Edit.pair.tree (.loose "pair") := rfl
  obtain ⟨u, w, hu, hw, -, -, hback⟩ :=
    rotations_agree (s := .right) (hc ▸ Edit.stands_pair.wellFormed) rfl
  obtain ⟨hplace, hslot⟩ := hback _ _ Forest.holds_pair Edit.stands_pair.slots hc
  exact ⟨_, _, hc, rfl, u, w, hu, hw, hplace, hslot "pair" rfl rfl⟩

end Cursor

end SpanTree
