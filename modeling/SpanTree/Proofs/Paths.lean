/-
SpanTree.Proofs.Paths — a tree as seen from one of its nodes.

A path closes a tree over a subtree. `Path.before` and `Path.after` are
the spans it adds on the two sides; the lowest holder's own span depends
on the weight of the subtree, so that both take the subtree as an
argument, and exchanging it for one of the same weight changes neither
(`Path.before_congr`). `weighed_plug` and `linked_plug` split what is
asked of a tree in the same way.

A cursor cuts the spans of its tree into three: `Cursor.before`,
`Cursor.span`, `Cursor.after`. Where identities are distinct, the
identity of its node alone decides the cut (`Cursor.cut_unique`), which
is why a node is found again by its identity after the tree has changed
its shape.
-/
import SpanTree.Tree.Cursor
import SpanTree.Proofs.Rotations

namespace SpanTree

/-! ## Crumbs -/

namespace Crumb

/-- The spans that a crumb adds on the left of a subtree. -/
def before (b : Crumb) (t : Tree) : List Span :=
  match b.side with
  | .left => []
  | .right => b.sibling.spans ++ [b.holder.span b.sibling t]

/-- The spans that a crumb adds on the right of a subtree. -/
def after (b : Crumb) (t : Tree) : List Span :=
  match b.side with
  | .left => b.holder.span t b.sibling :: b.sibling.spans
  | .right => []

@[simp] theorem total_attach (b : Crumb) (t : Tree) : (b.attach t).total = b.holder.data.total := by
  simp [attach]

@[simp] theorem link?_attach (b : Crumb) (t : Tree) : (b.attach t).link? = some b.holder.link := by
  simp [attach]

@[simp] theorem id?_attach (b : Crumb) (t : Tree) : (b.attach t).id? = some b.holder.id := by
  obtain ⟨side, holder, sibling⟩ := b
  cases side <;> rfl

theorem spans_attach (b : Crumb) (t : Tree) :
    (b.attach t).spans = b.before t ++ t.spans ++ b.after t := by
  obtain ⟨side, holder, sibling⟩ := b
  cases side <;> simp [attach, Tree.join, before, after]

theorem before_congr (b : Crumb) {t u : Tree} (h : u.total = t.total) :
    b.before u = b.before t := by
  simp only [before, b.holder.span_congr rfl h]

theorem after_congr (b : Crumb) {t u : Tree} (h : u.total = t.total) : b.after u = b.after t := by
  simp only [after, b.holder.span_congr h rfl]

end Crumb

/-! ## Paths -/

namespace Path

/-- The spans that a path adds on the left of a subtree. -/
def before : Path → Tree → List Span
  | [], _ => []
  | b :: rest, t => before rest (b.attach t) ++ b.before t

/-- The spans that a path adds on the right of a subtree. -/
def after : Path → Tree → List Span
  | [], _ => []
  | b :: rest, t => b.after t ++ after rest (b.attach t)

/-- What a path over a subtree of some weight adds to a weighed tree. -/
def Weighed : Path → Size → Prop
  | [], _ => True
  | b :: rest, w =>
    w.toNat + b.sibling.total.toNat < b.holder.data.total.toNat ∧ b.sibling.Weighed ∧
      Weighed rest b.holder.data.total

/-- What a path over a subtree adds to a linked tree. -/
def Linked : Path → Tree → Prop
  | [], _ => True
  | b :: rest, t =>
    t.linkedTo b.holder.id = true ∧ b.sibling.linkedTo b.holder.id = true ∧ b.sibling.Linked ∧
      Linked rest (b.attach t)

@[simp] theorem plug_nil (t : Tree) : plug [] t = t := rfl

@[simp] theorem plug_cons (b : Crumb) (rest : Path) (t : Tree) :
    plug (b :: rest) t = plug rest (b.attach t) := rfl

/-- The spans of a tree around those of a subtree. -/
theorem spans_plug (p : Path) (t : Tree) :
    (plug p t).spans = before p t ++ t.spans ++ after p t := by
  induction p generalizing t with
  | nil => simp [before, after]
  | cons b rest ih => simp [ih, Crumb.spans_attach, before, after]

theorem before_congr (p : Path) {t u : Tree} (h : u.total = t.total) :
    before p u = before p t := by
  induction p generalizing t u with
  | nil => rfl
  | cons b rest ih =>
    rw [before, before, b.before_congr h, ih (t := b.attach t) (by simp)]

theorem after_congr (p : Path) {t u : Tree} (h : u.total = t.total) : after p u = after p t := by
  induction p generalizing t u with
  | nil => rfl
  | cons b rest ih =>
    rw [after, after, b.after_congr h, ih (t := b.attach t) (by simp)]

theorem weighed_plug {p : Path} {t : Tree} :
    (plug p t).Weighed ↔ t.Weighed ∧ Weighed p t.total := by
  induction p generalizing t with
  | nil => simp [Weighed]
  | cons b rest ih =>
    rw [plug_cons, ih, Crumb.attach, Tree.weighed_join, Tree.total_join, Weighed]
    constructor
    · exact fun ⟨⟨hn, ht, hs⟩, hr⟩ => ⟨ht, hn, hs, hr⟩
    · exact fun ⟨ht, hn, hs, hr⟩ => ⟨⟨hn, ht, hs⟩, hr⟩

theorem linked_plug {p : Path} {t : Tree} : (plug p t).Linked ↔ t.Linked ∧ Linked p t := by
  induction p generalizing t with
  | nil => simp [Linked]
  | cons b rest ih =>
    rw [plug_cons, ih, Crumb.attach, Tree.linked_join, Linked, Crumb.attach]
    constructor
    · exact fun ⟨⟨ht, hs, hlt, hls⟩, hr⟩ => ⟨hlt, ht, hs, hls, hr⟩
    · exact fun ⟨hlt, ht, hs, hls, hr⟩ => ⟨⟨ht, hs, hlt, hls⟩, hr⟩

/-- Of a subtree a path asks only that it be linked to the lowest holder. -/
theorem linked_congr {p : Path} {t u : Tree} (h : u.link? = t.link?) (hp : Linked p t) :
    Linked p u := by
  induction p generalizing t u with
  | nil => trivial
  | cons b rest ih =>
    obtain ⟨ht, hs, hls, hr⟩ := hp
    exact ⟨(Tree.linkedTo_congr h _).trans ht, hs, hls, ih (by simp) hr⟩

/-- The tree over a subtree has the weight that its top says. -/
theorem total_plug_congr (p : Path) {t u : Tree} (h : u.total = t.total) :
    (plug p u).total = (plug p t).total := by
  induction p generalizing t u with
  | nil => exact h
  | cons b rest ih => exact ih (by simp)

/-- The tree over a subtree has the link that its top says. -/
theorem link?_plug_congr (p : Path) {t u : Tree} (h : u.link? = t.link?) :
    (plug p u).link? = (plug p t).link? := by
  induction p generalizing t u with
  | nil => exact h
  | cons b rest ih => exact ih (by simp)

theorem id?_plug_congr (p : Path) {t u : Tree} (h : u.id? = t.id?) :
    (plug p u).id? = (plug p t).id? := by
  induction p generalizing t u with
  | nil => exact h
  | cons b rest ih => exact ih (by simp)

/-- Another shape of a subtree makes another shape of the tree. -/
theorem reshaped_plug (p : Path) {t u : Tree} (h : Tree.Reshaped t u) :
    Tree.Reshaped (plug p t) (plug p u) := by
  induction p generalizing t u with
  | nil => exact h
  | cons b rest ih => exact ih (h.join b.side b.holder (.refl _))

/-- A repainted subtree makes a repainted tree. -/
theorem repainted_plug (p : Path) {t u : Tree} (h : Tree.Repainted t u) :
    Tree.Repainted (plug p t) (plug p u) where
  faces := by
    have hf := h.faces
    simp only [Tree.faces] at hf
    simp only [Tree.faces, spans_plug, before_congr p h.total, after_congr p h.total,
      List.map_append, hf]
  ids := by
    simp only [Tree.ids, spans_plug, before_congr p h.total, after_congr p h.total,
      List.map_append]
    exact ((List.Perm.refl _).append h.ids).append (.refl _)
  total := total_plug_congr p h.total
  link := link?_plug_congr p h.link
  weighed hw := by
    rw [weighed_plug] at hw ⊢
    exact ⟨h.weighed hw.1, h.total ▸ hw.2⟩
  linked hl := by
    rw [linked_plug] at hl ⊢
    exact ⟨h.linked hl.1, linked_congr h.link hl.2⟩

end Path

/-! ## Cursors -/

namespace Cursor

/-- The own span of the node. -/
def span (c : Cursor) : Span := c.node.span c.left c.right

/-- The spans on the left of the node. -/
def before (c : Cursor) : List Span := Path.before c.path c.subtree ++ c.left.spans

/-- The spans on the right of the node. -/
def after (c : Cursor) : List Span := c.right.spans ++ Path.after c.path c.subtree

@[simp] theorem span_id (c : Cursor) : c.span.id = c.node.id := rfl

@[simp] theorem span_length (c : Cursor) : c.span.length = c.length := rfl

@[simp] theorem span_position (c : Cursor) : c.span.position = c.position := rfl

/-- The spans of a tree, cut at one of its nodes. -/
theorem spans_toTree (c : Cursor) : c.toTree.spans = c.before ++ c.span :: c.after := by
  simp [toTree, Path.spans_plug, subtree, before, after, span]

/-- At the top the tree is what is below the node. -/
theorem toTree_of_top {c : Cursor} (h : c.path = []) : c.toTree = c.subtree := by
  rw [toTree, h, Path.plug_nil]

theorem weighed_subtree {c : Cursor} (h : c.toTree.Weighed) : c.subtree.Weighed :=
  (Path.weighed_plug.mp h).1

theorem linked_subtree {c : Cursor} (h : c.toTree.Linked) : c.subtree.Linked :=
  (Path.linked_plug.mp h).1

theorem linked_path {c : Cursor} (h : c.toTree.Linked) : Path.Linked c.path c.subtree :=
  (Path.linked_plug.mp h).2

/-- On a linked tree a node below the top is linked to the node above it. -/
theorem link_of_path {c : Cursor} (h : c.toTree.Linked) {b : Crumb} {rest : Path}
    (hpath : c.path = b :: rest) : c.node.link = .node b.holder.id := by
  have hl := linked_path h
  rw [hpath] at hl
  simpa [subtree] using hl.1

end Cursor

/-- A list with distinct identities is cut at one place only. -/
theorem cut_unique {pre pre' post post' : List Span} {x x' : Span} (hid : x.id = x'.id)
    (hd : ((pre ++ x :: post).map (·.id)).Nodup) (h : pre ++ x :: post = pre' ++ x' :: post') :
    pre = pre' ∧ x = x' ∧ post = post' := by
  induction pre generalizing pre' with
  | nil =>
    cases pre' with
    | nil => simpa using h
    | cons y ys =>
      simp only [List.nil_append, List.cons_append, List.cons.injEq] at h
      obtain ⟨rfl, rfl⟩ := h
      simp [hid] at hd
  | cons y ys ih =>
    cases pre' with
    | nil =>
      simp only [List.nil_append, List.cons_append, List.cons.injEq] at h
      obtain ⟨rfl, rfl⟩ := h
      simp [hid] at hd
    | cons z zs =>
      simp only [List.cons_append, List.cons.injEq] at h
      obtain ⟨rfl, h⟩ := h
      simp only [List.cons_append, List.map_cons, List.nodup_cons] at hd
      obtain ⟨rfl, rfl, rfl⟩ := ih hd.2 h
      exact ⟨rfl, rfl, rfl⟩

/-- Where identities are distinct, the identity of a node decides where
its cursor cuts the spans. -/
theorem Cursor.cut_unique {c : Cursor} (hd : c.toTree.ids.Nodup) {pre post : List Span} {x : Span}
    (h : c.toTree.spans = pre ++ x :: post) (hid : x.id = c.node.id) :
    c.before = pre ∧ c.span = x ∧ c.after = post := by
  rw [spans_toTree] at h
  rw [Tree.ids, spans_toTree] at hd
  exact SpanTree.cut_unique hid.symm hd h

/-! ## Finding a node by its identity -/

namespace Tree

/-- There is no way to a node that the tree does not have. -/
theorem wayTo?_eq_none {t : Tree} {id : NodeId} (h : id ∉ t.ids) : t.wayTo? id = none := by
  induction t with
  | nil => rfl
  | node n l r ihl ihr =>
    simp only [ids_node, List.mem_append, List.mem_cons, not_or] at h
    simp [wayTo?, Ne.symm h.2.1, ihl h.1, ihr h.2.2]

/-- The way to a node leads to a cursor at the node. -/
theorem descend?_of_mem {t : Tree} {id : NodeId} (h : id ∈ t.ids) (path : Path) :
    ∃ way c, t.wayTo? id = some way ∧ t.descend? path way = some c ∧
      c.toTree = Path.plug path t ∧ c.node.id = id := by
  induction t generalizing path with
  | nil => simp at h
  | node n l r ihl ihr =>
    by_cases hn : n.id = id
    · exact ⟨[], ⟨n, l, r, path⟩, by simp [wayTo?, hn], rfl, rfl, hn⟩
    · rw [ids_node, List.mem_append, List.mem_cons] at h
      by_cases hl : id ∈ l.ids
      · obtain ⟨way, c, hway, hc, htree, hid⟩ := ihl hl (⟨.left, n, r⟩ :: path)
        exact ⟨.left :: way, c, by simp [wayTo?, hn, hway], hc, htree, hid⟩
      · have hr : id ∈ r.ids := by
          rcases h with h | h | h
          · exact absurd h hl
          · exact absurd h.symm hn
          · exact h
        obtain ⟨way, c, hway, hc, htree, hid⟩ := ihr hr (⟨.right, n, l⟩ :: path)
        exact ⟨.right :: way, c, by simp [wayTo?, hn, hway, wayTo?_eq_none hl], hc, htree, hid⟩

/-- A node of a tree is found by its identity. -/
theorem locate?_of_mem {t : Tree} {id : NodeId} (h : id ∈ t.ids) :
    ∃ c, t.locate? id = some c ∧ c.toTree = t ∧ c.node.id = id := by
  obtain ⟨way, c, hway, hc, htree, hid⟩ := descend?_of_mem h []
  exact ⟨c, by simp [locate?, hway, hc], htree, hid⟩

theorem locate?_eq_none {t : Tree} {id : NodeId} (h : id ∉ t.ids) : t.locate? id = none := by
  simp [locate?, wayTo?_eq_none h]

/-- The way to a node of a subtree goes down the path of the subtree first. -/
theorem wayTo?_plug {path : Path} {t : Tree} (hd : (Path.plug path t).ids.Nodup) {id : NodeId}
    {way : List Side} (h : t.wayTo? id = some way) :
    (Path.plug path t).wayTo? id = some ((path.map (·.side)).reverse ++ way) := by
  induction path generalizing t way with
  | nil => simpa using h
  | cons b rest ih =>
    have hmem : id ∈ t.ids := by
      by_contra hnot
      simp [wayTo?_eq_none hnot] at h
    have hb : (b.attach t).ids.Nodup := by
      rw [Path.plug_cons, ids, Path.spans_plug, List.map_append, List.map_append] at hd
      exact (List.nodup_append.mp (List.nodup_append.mp hd).1).2.1
    have hattach : (b.attach t).wayTo? id = some (b.side :: way) := by
      obtain ⟨side, holder, sibling⟩ := b
      cases side with
      | left =>
        simp only [Crumb.attach, join, ids_node, List.nodup_append, List.mem_cons] at hb
        have hne : holder.id ≠ id := fun heq => hb.2.2 id hmem holder.id (.inl rfl) heq.symm
        simp [Crumb.attach, join, wayTo?, hne, h]
      | right =>
        simp only [Crumb.attach, join, ids_node, List.nodup_append, List.nodup_cons,
          List.mem_cons] at hb
        have hne : holder.id ≠ id := fun heq => hb.2.1.1 (heq ▸ hmem)
        have hnot : id ∉ sibling.ids := fun hs => hb.2.2 id hs id (.inr hmem) rfl
        simp [Crumb.attach, join, wayTo?, hne, h, wayTo?_eq_none hnot]
    rw [Path.plug_cons, ih hd hattach]
    simp

/-- Going down the path of a subtree one arrives at the subtree. -/
theorem descend?_plug (path base : Path) (t : Tree) (way : List Side) :
    (Path.plug path t).descend? base ((path.map (·.side)).reverse ++ way) =
      t.descend? (path ++ base) way := by
  induction path generalizing t way with
  | nil => rfl
  | cons b rest ih =>
    rw [Path.plug_cons, List.map_cons, List.reverse_cons, List.append_assoc, ih]
    obtain ⟨side, holder, sibling⟩ := b
    cases side <;> rfl

/-- Where identities are distinct, the identity of a node decides its cursor. -/
theorem locate?_toTree {c : Cursor} (hd : c.toTree.ids.Nodup) :
    c.toTree.locate? c.node.id = some c := by
  have hway : c.subtree.wayTo? c.node.id = some [] := if_pos rfl
  have hdescend := descend?_plug c.path [] c.subtree []
  rw [List.append_nil, List.append_nil] at hdescend
  rw [locate?, Cursor.toTree, wayTo?_plug hd hway, List.append_nil]
  exact hdescend

/-- The subtree that a node tops is the one its cursor looks at. -/
theorem subtree?_eq (t : Tree) (id : NodeId) (path : Path) :
    t.subtree? id = ((t.wayTo? id).bind fun way => t.descend? path way).map Cursor.subtree := by
  induction t generalizing path with
  | nil => rfl
  | node n l r ihl ihr =>
    by_cases hn : n.id = id
    · simp [subtree?, wayTo?, hn, descend?, Cursor.ofTree?, Cursor.subtree]
    · simp only [subtree?, wayTo?, if_neg hn, ihl (⟨.left, n, r⟩ :: path),
        ihr (⟨.right, n, l⟩ :: path)]
      by_cases hl : id ∈ l.ids
      · obtain ⟨way, c, hway, hc, -⟩ := descend?_of_mem hl (⟨.left, n, r⟩ :: path)
        simp [hway, hc, descend?]
      · rw [wayTo?_eq_none hl]
        cases r.wayTo? id <;> simp [descend?]

theorem subtree?_eq_locate? (t : Tree) (id : NodeId) :
    t.subtree? id = (t.locate? id).map Cursor.subtree := t.subtree?_eq id []

end Tree

end SpanTree
