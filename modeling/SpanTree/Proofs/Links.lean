/-
SpanTree.Proofs.Links — trees whose links and identities are true.

`Tree.Linked` says that every child is linked to the node that holds it.
What the top is linked to is not its business: that belongs to the place
of the tree. `Tree.ids` lists the identities from left to right, and
`Tree.WellFormed` puts together what the operations rely on: every node
owns characters, every child is linked to its holder, and no identity
occurs twice.

`Reshaped t u` is what a change of shape keeps: the spans, the weight
and the link at the top. It is the relation in which every rotation that
moves nodes, and so all balancing, stands to the tree it starts from.
-/
import SpanTree.Tree.Check
import SpanTree.Proofs.Weights

namespace SpanTree

namespace Tree

/-! ## Links -/

/-- Every child is linked to the node that holds it. -/
def Linked : Tree → Prop
  | .nil => True
  | .node n l r => l.linkedTo n.id = true ∧ r.linkedTo n.id = true ∧ l.Linked ∧ r.Linked

/-- The link of the node at the top. -/
def link? (t : Tree) : Option Link := t.head?.map (·.link)

@[simp] theorem link?_nil : Tree.nil.link? = none := rfl

@[simp] theorem link?_node (n : Node) (l r : Tree) : (Tree.node n l r).link? = some n.link := rfl

@[simp] theorem linked_nil : Linked .nil := trivial

@[simp] theorem linkedTo_nil (holder : NodeId) : Tree.nil.linkedTo holder = true := rfl

@[simp] theorem linkedTo_node (n : Node) (l r : Tree) (holder : NodeId) :
    (Tree.node n l r).linkedTo holder = true ↔ n.link = .node holder := by
  simp [linkedTo]

/-- Whether a tree is linked to a holder is read off the link of its top. -/
theorem linkedTo_iff {t : Tree} {holder : NodeId} :
    t.linkedTo holder = true ↔ ∀ link ∈ t.link?, link = .node holder := by
  cases t <;> simp

theorem linkedTo_congr {t u : Tree} (h : u.link? = t.link?) (holder : NodeId) :
    u.linkedTo holder = t.linkedTo holder := by
  rw [Bool.eq_iff_iff, linkedTo_iff, linkedTo_iff, h]

@[simp] theorem linkedTo_setLink (t : Tree) (holder : NodeId) :
    (t.setLink (.node holder)).linkedTo holder = true := by
  cases t <;> simp [setLink, Node.withLink]

@[simp] theorem linked_setLink (link : Link) (t : Tree) : (t.setLink link).Linked ↔ t.Linked := by
  cases t <;> rfl

theorem linked_join {s : Side} {n : Node} {near far : Tree} :
    (join s n near far).Linked ↔
      near.linkedTo n.id = true ∧ far.linkedTo n.id = true ∧ near.Linked ∧ far.Linked := by
  cases s
  · rfl
  · constructor <;> exact fun ⟨hf, hn, hlf, hln⟩ => ⟨hn, hf, hln, hlf⟩

@[simp] theorem link?_join (s : Side) (n : Node) (near far : Tree) :
    (join s n near far).link? = some n.link := by
  cases s <;> rfl

/-! ## Identities -/

/-- The identities from left to right. -/
def ids (t : Tree) : List NodeId := t.spans.map (·.id)

@[simp] theorem ids_nil : Tree.nil.ids = [] := rfl

@[simp] theorem ids_node (n : Node) (l r : Tree) :
    (Tree.node n l r).ids = l.ids ++ n.id :: r.ids := by
  simp [ids]

@[simp] theorem ids_setLink (link : Link) (t : Tree) : (t.setLink link).ids = t.ids := by
  simp [ids]

theorem isNil_of_mem_ids {t : Tree} {id : NodeId} (h : id ∈ t.ids) : t.isNil = false := by
  cases t with
  | nil => simp at h
  | node n l r => rfl

theorem isNil_iff {t : Tree} : t.isNil = true ↔ t = .nil := by
  cases t <;> simp [isNil]

theorem exists_id {t : Tree} (h : t.isNil = false) : ∃ id, t.id? = some id := by
  cases t with
  | nil => cases h
  | node n l r => exact ⟨n.id, rfl⟩

theorem id_mem_ids_of_id? {t : Tree} {id : NodeId} (h : t.id? = some id) : id ∈ t.ids := by
  cases t with
  | nil => simp [id?, head?] at h
  | node n l r =>
    simp only [id?, head?, Option.map_some, Option.some.injEq] at h
    simp [h]

end Tree

/-! ## Well-formed trees -/

/-- A tree in which every node owns characters, every child is linked to
its holder, and no identity occurs twice. -/
structure Tree.WellFormed (t : Tree) : Prop where
  weighed : t.Weighed
  linked : t.Linked
  distinct : t.ids.Nodup

/-! ## Changes of shape -/

/-- The second tree is another shape of the first: it has the same spans,
weight and link, and is as well linked and weighed. -/
structure Tree.Reshaped (t u : Tree) : Prop where
  spans : u.spans = t.spans
  total : u.total = t.total
  link : u.link? = t.link?
  weighed : t.Weighed → u.Weighed
  linked : t.Linked → u.Linked

namespace Tree.Reshaped

variable {t u v : Tree}

theorem refl (t : Tree) : Reshaped t t := ⟨rfl, rfl, rfl, id, id⟩

theorem trans (h : Reshaped t u) (h' : Reshaped u v) : Reshaped t v where
  spans := h'.spans.trans h.spans
  total := h'.total.trans h.total
  link := h'.link.trans h.link
  weighed := h'.weighed ∘ h.weighed
  linked := h'.linked ∘ h.linked

theorem ids (h : Reshaped t u) : u.ids = t.ids := by
  rw [Tree.ids, h.spans, Tree.ids]

theorem size (h : Reshaped t u) : u.size = t.size := by
  rw [← length_spans, h.spans, length_spans]

theorem linkedTo (h : Reshaped t u) (holder : NodeId) :
    u.linkedTo holder = t.linkedTo holder := linkedTo_congr h.link holder

theorem wellFormed (h : Reshaped t u) (ht : t.WellFormed) : u.WellFormed :=
  ⟨h.weighed ht.weighed, h.linked ht.linked, h.ids ▸ ht.distinct⟩

/-- Another shape of a subtree makes another shape of the tree. -/
theorem join (s : Side) (n : Node) {near near' far far' : Tree} (hn : Reshaped near near')
    (hf : Reshaped far far') : Reshaped (Tree.join s n near far) (Tree.join s n near' far') where
  spans := by
    cases s <;>
      simp only [Tree.join, spans_node, hn.spans, hf.spans] <;>
      rw [n.span_congr] <;> simp [hn.total, hf.total]
  total := by simp
  link := by simp
  weighed h := by
    rw [weighed_join] at h ⊢
    rw [hn.total, hf.total]
    exact ⟨h.1, hn.weighed h.2.1, hf.weighed h.2.2⟩
  linked h := by
    rw [linked_join] at h ⊢
    rw [hn.linkedTo, hf.linkedTo]
    exact ⟨h.1, h.2.1, hn.linked h.2.2.1, hf.linked h.2.2.2⟩

end Tree.Reshaped

end SpanTree
