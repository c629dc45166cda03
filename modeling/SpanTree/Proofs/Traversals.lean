/-
SpanTree.Proofs.Traversals — a traversal is a loop over the nodes in order.

A traversal keeps identities on a stack and looks up what is on the right
of a node after the call for it. As long as the calls leave the frame of
the tree alone, its nodes with their weights, the stack stands for a list
of nodes (`Tree.pending`), and each step takes the first one off the
list. So the loop with the stack is the loop over all nodes from left to
right, each at the position where it starts (`exec_traverse_starts`), and
its fuel never runs out. This holds wherever the tree is, whatever its
links, weights and caches.

Clients of a text whose calls keep the frame are `Considerate`. The caches
of a text are exact, so that there the loop makes nothing but the calls
(`exec_traverse`).
-/
import SpanTree.Proofs.Texts

namespace SpanTree

/-! ## Frames -/

namespace Tree

/-- The nodes of a tree with their weights, and nothing else of them. -/
def frame : Tree → Tree
  | .nil => .nil
  | .node n l r => .node (.fresh n.id n.data.total) l.frame r.frame

theorem frame_node (n : Node) (l r : Tree) :
    (Tree.node n l r).frame = .node (.fresh n.id n.data.total) l.frame r.frame := rfl

@[simp] theorem total_frame (t : Tree) : t.frame.total = t.total := by
  cases t <;> rfl

@[simp] theorem ids_frame (t : Tree) : t.frame.ids = t.ids := by
  induction t with
  | nil => rfl
  | node n l r ihl ihr => rw [frame_node, ids_node, ids_node, ihl, ihr]; rfl

/-- The spans of a frame have the lengths of the tree's. -/
theorem spans_frame (t : Tree) :
    t.frame.spans = t.spans.map fun x => ⟨x.id, x.length, 0, {}, {}⟩ := by
  induction t with
  | nil => rfl
  | node n l r ihl ihr =>
    simp [frame_node, ihl, ihr, Node.span, Node.length, Node.fresh]

@[simp] theorem child_frame (s : Side) (t : Tree) : t.frame.child s = (t.child s).frame := by
  cases t with
  | nil => rfl
  | node n l r => cases s <;> rfl

@[simp] theorem spine_frame (s : Side) (t : Tree) : t.frame.spine s = t.spine s := by
  induction t with
  | nil => rfl
  | node n l r ihl ihr => cases s <;> simp [frame_node, spine, Node.fresh] <;> assumption

@[simp] theorem size_frame (t : Tree) : t.frame.size = t.size := by
  induction t with
  | nil => rfl
  | node n l r ihl ihr => rw [frame_node, size, ihl, ihr, size]

/-- A node is in the same place of the frame. -/
theorem subtree?_frame (t : Tree) (id : NodeId) :
    t.frame.subtree? id = (t.subtree? id).map frame := by
  induction t with
  | nil => rfl
  | node n l r ihl ihr =>
    by_cases hn : n.id = id
    · simp [frame_node, subtree?, Node.fresh, hn]
    · simp only [frame_node, subtree?, Node.fresh, if_neg hn, ihl, ihr]
      cases l.subtree? id <;> rfl

/-- The node at the top has the whole tree below it. -/
theorem subtree?_top {t : Tree} {id : NodeId} (h : t.id? = some id) : t.subtree? id = some t := by
  cases t with
  | nil => cases h
  | node n l r => exact if_pos (Option.some.inj h)

theorem wayTo?_top {t : Tree} {id : NodeId} (h : t.id? = some id) : t.wayTo? id = some [] := by
  cases t with
  | nil => cases h
  | node n l r => exact if_pos (Option.some.inj h)

@[simp] theorem id?_frame (t : Tree) : t.frame.id? = t.id? := by
  cases t <;> rfl

/-- A tree has a subtree for each of its nodes. -/
theorem subtree?_isSome {t : Tree} {id : NodeId} (h : id ∈ t.ids) :
    ∃ u, t.subtree? id = some u := by
  obtain ⟨c, hc, -⟩ := locate?_of_mem h
  exact ⟨c.subtree, by rw [subtree?_eq_locate?, hc]; rfl⟩

theorem subtree?_eq_none {t : Tree} {id : NodeId} (h : id ∉ t.ids) : t.subtree? id = none := by
  rw [subtree?_eq_locate?, locate?_eq_none h]
  rfl

/-- Subtrees with one frame leave the frame of the tree as it is. -/
theorem frame_plug_congr (path : Path) {t u : Tree} (h : u.frame = t.frame) :
    (Path.plug path u).frame = (Path.plug path t).frame := by
  induction path generalizing t u with
  | nil => exact h
  | cons b rest ih =>
    obtain ⟨side, holder, sibling⟩ := b
    refine ih ?_
    cases side <;> simp only [Crumb.attach, join, frame_node, h]

/-- In a tree with distinct identities the subtree of a span's node has the
span at its top. -/
theorem span?_of_mem {t u : Tree} (hd : t.ids.Nodup) {y : Span} (hy : y ∈ t.spans)
    (h : t.subtree? y.id = some u) : u.span? = some y := by
  obtain ⟨pre, post, hcut⟩ := List.append_of_mem hy
  obtain ⟨c, hc, htree, hid⟩ := locate?_of_mem (List.mem_map_of_mem hy)
  obtain ⟨-, hspan, -⟩ := c.cut_unique (htree ▸ hd) (htree ▸ hcut) hid.symm
  rw [subtree?_eq_locate?, hc, Option.map_some, Option.some.injEq] at h
  rw [← h, ← hspan]
  rfl

/-! ## What a stack stands for -/

/-- The nodes that a stack stands for: each one, and what is on its right. -/
def pending (t : Tree) (stack : List NodeId) : List NodeId :=
  stack.flatMap fun id =>
    match t.subtree? id with
    | some u => id :: (u.child .right).ids
    | none => []

theorem pending_append (t : Tree) (a b : List NodeId) :
    t.pending (a ++ b) = t.pending a ++ t.pending b := List.flatMap_append

theorem pending_cons {t u : Tree} {id : NodeId} (h : t.subtree? id = some u)
    (rest : List NodeId) :
    t.pending (id :: rest) = id :: (u.child .right).ids ++ t.pending rest := by
  rw [pending, List.flatMap_cons, h]
  rfl

/-- In a tree with distinct identities the nodes of a subtree are found
where the subtree is. -/
theorem subtree?_plug {path : Path} {t : Tree} (hd : (Path.plug path t).ids.Nodup) {id : NodeId}
    (hid : id ∈ t.ids) : (Path.plug path t).subtree? id = t.subtree? id := by
  induction path generalizing t with
  | nil => rfl
  | cons b rest ih =>
    obtain ⟨hb, -⟩ := Path.disjoint_of_nodup (p := rest) (t := b.attach t) hd
    obtain ⟨u, hu⟩ := subtree?_isSome hid
    obtain ⟨side, holder, sibling⟩ := b
    cases side with
    | left =>
      have hmem : id ∈ (Crumb.attach ⟨.left, holder, sibling⟩ t).ids := by
        simp [Crumb.attach, join, hid]
      simp only [Crumb.attach, join, ids_node, List.nodup_append, List.mem_cons] at hb
      have hne : holder.id ≠ id := fun h => hb.2.2 id hid holder.id (.inl rfl) h.symm
      rw [Path.plug_cons, ih hd hmem]
      simp [Crumb.attach, join, subtree?, hne, hu]
    | right =>
      have hmem : id ∈ (Crumb.attach ⟨.right, holder, sibling⟩ t).ids := by
        simp [Crumb.attach, join, hid]
      simp only [Crumb.attach, join, ids_node, List.nodup_append, List.nodup_cons,
        List.mem_cons] at hb
      have hne : holder.id ≠ id := fun h => hb.2.1.1 (h ▸ hid)
      have hnot : id ∉ sibling.ids := fun h => hb.2.2 id h id (.inr hid) rfl
      rw [Path.plug_cons, ih hd hmem]
      simp [Crumb.attach, join, subtree?, hne, subtree?_eq_none hnot]

/-- The spine of a subtree, lowest node first, stands for the subtree. -/
theorem pending_spine {path : Path} {t : Tree} (hd : (Path.plug path t).ids.Nodup) :
    (Path.plug path t).pending (t.spine .left).reverse = t.ids := by
  induction t generalizing path with
  | nil => rfl
  | node n l r ihl _ =>
    have hself := subtree?_plug hd (show n.id ∈ (Tree.node n l r).ids by simp)
    rw [subtree?, if_pos rfl] at hself
    have hlow : (Path.plug path (.node n l r)).pending (l.spine .left).reverse = l.ids :=
      ihl (show (Path.plug (⟨.left, n, r⟩ :: path) l).ids.Nodup from hd)
    rw [spine, List.reverse_cons, pending_append, hlow, pending_cons hself, ids_node]
    simp [child, pending]

/-- The subtree of a node, as a part of the tree. -/
theorem subtree_part {t u : Tree} {id : NodeId} (h : t.subtree? id = some u) :
    ∃ path, Path.plug path u = t := by
  rw [subtree?_eq_locate?, Option.map_eq_some_iff] at h
  obtain ⟨c, hc, rfl⟩ := h
  have hmem : id ∈ t.ids := by
    by_cases hid : id ∈ t.ids
    · exact hid
    · simp [locate?_eq_none hid] at hc
  obtain ⟨d, hd, htree, -⟩ := locate?_of_mem hmem
  obtain rfl : d = c := by simpa [hd] using hc
  exact ⟨d.path, htree⟩

/-- What is on the right of a node, as a part of the tree. -/
theorem right_part {t u : Tree} {id : NodeId} (h : t.subtree? id = some u) :
    ∃ path, Path.plug path (u.child .right) = t := by
  obtain ⟨path, hpath⟩ := subtree_part h
  cases u with
  | nil => exact ⟨path, hpath⟩
  | node n l r => exact ⟨⟨.right, n, l⟩ :: path, hpath⟩

theorem mem_ids_plug {path : Path} {t : Tree} {id : NodeId} (h : id ∈ t.ids) :
    id ∈ (Path.plug path t).ids := by
  rw [ids, Path.spans_plug, List.map_append, List.map_append]
  simp only [List.mem_append]
  exact .inl (.inr h)

theorem mem_ids_of_mem_spine {s : Side} {t : Tree} {id : NodeId} (h : id ∈ t.spine s) :
    id ∈ t.ids := by
  induction t with
  | nil => simp [spine] at h
  | node n l r ihl ihr =>
    rw [ids_node, List.mem_append, List.mem_cons]
    cases s with
    | left =>
      rcases List.mem_cons.mp h with rfl | h
      · exact .inr (.inl rfl)
      · exact .inl (ihl h)
    | right =>
      rcases List.mem_cons.mp h with rfl | h
      · exact .inr (.inl rfl)
      · exact .inr (.inr (ihr h))

end Tree

/-! ## Where the visits are made -/

/-- The nodes of spans with the positions at which these start, if they
follow each other from a position on. -/
def starts (position : Size) : List Span → List (NodeId × Size)
  | [] => []
  | x :: rest => (x.id, position) :: starts (position + x.length) rest

theorem ids_starts (position : Size) (spans : List Span) :
    (starts position spans).map (·.1) = spans.map (·.id) := by
  induction spans generalizing position with
  | nil => rfl
  | cons x rest ih => rw [starts, List.map_cons, List.map_cons, ih]

/-- The spans of a frame start where those of the tree do. -/
theorem starts_frame (position : Size) (t : Tree) :
    starts position t.frame.spans = starts position t.spans := by
  rw [Tree.spans_frame]
  induction t.spans generalizing position with
  | nil => rfl
  | cons x rest ih => rw [List.map_cons, starts, starts, ih]

/-- A start is the position after what the spans before cover, if no
position wraps. -/
theorem mem_starts {position : Size} {spans : List Span} {x : NodeId × Size}
    (h : x ∈ starts position spans) (hfits : position.toNat + covered spans < 2 ^ 64) :
    ∃ done y todo, spans = done ++ y :: todo ∧ x.1 = y.id ∧
      x.2.toNat = position.toNat + covered done := by
  induction spans generalizing position with
  | nil => simp [starts] at h
  | cons y rest ih =>
    rw [covered_cons] at hfits
    rw [starts, List.mem_cons] at h
    rcases h with rfl | h
    · exact ⟨[], y, rest, rfl, rfl, rfl⟩
    · have hnext : (position + y.length).toNat = position.toNat + y.length.toNat :=
        Size.toNat_add_of_lt (by omega)
      obtain ⟨done, z, todo, rfl, hid, hposition⟩ := ih h (by omega)
      exact ⟨y :: done, z, todo, rfl, hid, by rw [hposition, hnext, covered_cons]; omega⟩

/-- A tree with a frame stands at a place, and no other tree has a node of
it. -/
structure Forest.Bears (f : Forest) (p : Place) (frame : Tree) : Prop where
  apart : ∀ q, q ≠ p → ∀ id ∈ frame.ids, id ∉ (f.tree q).ids
  frame : (f.tree p).frame = frame

namespace Forest.Bears

variable {f : Forest} {p : Place} {frame : Tree} {id : NodeId}

theorem mem_ids (hf : f.Bears p frame) : id ∈ (f.tree p).ids ↔ id ∈ frame.ids := by
  rw [← hf.frame, Tree.ids_frame]

/-- The cursor of a node of the frame, and what the frame shows of its
subtree. -/
theorem locate (hf : f.Bears p frame) (hid : id ∈ frame.ids) :
    ∃ c, f.locate? id = some ⟨p, c⟩ ∧ c.toTree = f.tree p ∧ c.node.id = id ∧
      frame.subtree? id = some c.subtree.frame := by
  obtain ⟨c, hc, htree, hnode⟩ := Tree.locate?_of_mem (hf.mem_ids.mpr hid)
  refine ⟨c, ?_, htree, hnode, ?_⟩
  · rw [locate?_eq (hf.mem_ids.mpr hid) fun q hq => hf.apart q hq id hid, hc]
    rfl
  · rw [← hf.frame, Tree.subtree?_frame, Tree.subtree?_eq_locate?, hc]
    rfl

/-- The subtree of a node, as far as the frame shows it. -/
theorem exec_subtree (hf : f.Bears p frame) (hid : id ∈ frame.ids) :
    ∃ u, exec (Run.subtree id) f = (.ok u, f) ∧ frame.subtree? id = some u.frame := by
  have hmem := hf.mem_ids.mpr hid
  obtain ⟨u, hu⟩ := Tree.subtree?_isSome hmem
  refine ⟨u, Run.exec_subtree ?_, ?_⟩
  · rw [subtree?_eq hmem fun q hq => hf.apart q hq id hid, hu]
  · rw [← hf.frame, Tree.subtree?_frame, hu]
    rfl

/-- The length of a span of the frame is looked up. -/
theorem exec_length (hf : f.Bears p frame) (hd : frame.ids.Nodup) {y : Span}
    (hy : y ∈ frame.spans) :
    exec (do pure (← Run.span y.id).length : Run Size) f = (.ok y.length, f) := by
  obtain ⟨u, hu, hframe⟩ := hf.exec_subtree (List.mem_map_of_mem hy)
  have hspan := Tree.span?_of_mem hd hy hframe
  cases u with
  | nil => simp [Tree.frame, Tree.span?] at hspan
  | node n l r =>
    simp only [Tree.frame, Tree.span?, Option.some.injEq] at hspan
    have hlength : n.length l r = y.length := by
      rw [← hspan]
      simp [Node.length, Node.fresh]
    rw [Run.span, bind_assoc, exec_bind_ok hu, ← hlength]
    rfl

/-- A cache is set, and the frame stays. -/
theorem setPosition (hf : f.Bears p frame) (hid : id ∈ frame.ids) (position : Size) :
    ∃ g, exec (Run.modifyNode id (·.withPosition position)) f = (.ok ⟨⟩, g) ∧ g.Bears p frame := by
  obtain ⟨c, hc, htree, -⟩ := hf.locate hid
  refine ⟨_, Run.exec_modifyNode hc _, fun q hq id' hid' => ?_, ?_⟩
  · rw [tree_plant_of_ne hq]
    exact hf.apart q hq id' hid'
  · rw [tree_plant_of_node (Tree.isNil_of_mem_ids (hf.mem_ids.mpr hid)), ← hf.frame, ← htree]
    exact Tree.frame_plug_congr c.path rfl

end Forest.Bears

/-! ## The loop -/

/-- The fuel of a traversal is enough for a visit to each node. -/
theorem Cursor.size_le_fuel (c : Cursor) :
    c.subtree.size ≤ (c.toTree.size + 1) * (c.toTree.size + 1) * (c.toTree.size + 1) := by
  have hle : c.subtree.size ≤ c.toTree.size := Cursor.size_plug_ge c.path c.subtree
  have hcube := Nat.le_mul_of_pos_right (c.toTree.size + 1)
    (Nat.mul_pos (Nat.succ_pos c.toTree.size) (Nat.succ_pos c.toTree.size))
  rw [← Nat.mul_assoc] at hcube
  exact Nat.le_trans hle (Nat.le_trans (Nat.le_succ _) hcube)

namespace Run

variable {σ : Type} {p : Place} {frame : Tree} {f : Forest} {visit : NodeId → Client σ Unit}

/-- One visit of a traversal: the cache of the node is set, and then the
call is made. -/
def visitAt (visit : NodeId → Client σ Unit) (x : NodeId × Size) : Client σ Unit := do
  liftM (modifyNode x.1 (·.withPosition x.2))
  visit x.1

/-- The loop with a stack is the loop over the nodes that the stack
stands for, each at the position where it starts. The induction is on
these nodes; an invariant of the visits carries the frame along. -/
theorem exec_traverseLoop {I : Forest → Prop} (hI : ∀ g, I g → g.Bears p frame)
    (hd : frame.ids.Nodup) (todo : List Span) {fuel : Nat} {stack : List NodeId} {position : Size}
    (hvisit : ∀ x ∈ starts position todo, ∀ s g, I g → I (exec (visitAt visit x) (s, g)).2.2)
    (hf : I f) (htodo : ∀ y ∈ todo, y ∈ frame.spans) (hstack : ∀ id ∈ stack, id ∈ frame.ids)
    (hpending : frame.pending stack = todo.map (·.id)) (hfuel : todo.length ≤ fuel) (s : σ) :
    exec (traverseLoop visit fuel stack position) (s, f) =
      exec (forM (starts position todo) (visitAt visit)) (s, f) := by
  induction todo generalizing f fuel stack position s with
  | nil =>
    cases stack with
    | nil => cases fuel <;> rfl
    | cons id rest =>
      obtain ⟨u, hu⟩ := Tree.subtree?_isSome (hstack id List.mem_cons_self)
      simp [Tree.pending_cons hu] at hpending
  | cons y todo ih =>
    cases stack with
    | nil => simp [Tree.pending] at hpending
    | cons id rest =>
      obtain ⟨fuel, rfl⟩ : ∃ k, fuel = k + 1 := ⟨fuel - 1, by simp at hfuel; omega⟩
      have hid := hstack id List.mem_cons_self
      obtain ⟨u, hu⟩ := Tree.subtree?_isSome hid
      rw [Tree.pending_cons hu, List.map_cons, List.cons_append, List.cons.injEq] at hpending
      obtain ⟨rfl, hrest⟩ := hpending
      have hlength := (hI f hf).exec_length hd (htodo y List.mem_cons_self)
      have hnext := hvisit (y.id, position) List.mem_cons_self s f hf
      rw [starts, List.forM_cons, traverseLoop, exec_liftM_bind_ok hlength, ← bind_assoc]
      change exec (visitAt visit (y.id, position) >>= _) (s, f) = _
      rw [exec_bind, exec_bind]
      generalize exec (visitAt visit (y.id, position)) (s, f) = result at hnext ⊢
      obtain ⟨r, s', f'⟩ := result
      cases r with
      | error e => rfl
      | ok _ =>
        obtain ⟨after, hafter, hframe⟩ := (hI f' hnext).exec_subtree hid
        obtain rfl : u = after.frame := by simpa [hu] using hframe
        obtain ⟨path, hpath⟩ := Tree.right_part hu
        have hspine := Tree.pending_spine
          (show (Path.plug path (after.frame.child .right)).ids.Nodup by rw [hpath]; exact hd)
        rw [hpath, Tree.child_frame, Tree.spine_frame] at hspine
        dsimp only
        rw [exec_liftM_bind_ok hafter]
        refine ih (fun x hx => hvisit x (List.mem_cons_of_mem _ hx)) hnext
          (fun x hx => htodo x (List.mem_cons_of_mem _ hx)) (fun id hmem => ?_) ?_
          (by simpa using hfuel) s'
        · rw [List.mem_append, List.mem_reverse] at hmem
          rcases hmem with hmem | hmem
          · rw [← hpath, Tree.child_frame]
            exact Tree.mem_ids_plug (by simpa using Tree.mem_ids_of_mem_spine hmem)
          · exact hstack id (List.mem_cons_of_mem _ hmem)
        · rw [Tree.pending_append, hspine, ← hrest, Tree.child_frame]

/-- **A traversal** of the subtree of a node is the loop over its nodes
from left to right, each at the position where it starts. -/
theorem exec_traverse_starts {I : Forest → Prop} (hI : ∀ g, I g → g.Bears p frame)
    (hd : frame.ids.Nodup) {id : NodeId} {u : Tree} (hu : frame.subtree? id = some u)
    (position : Size)
    (hvisit : ∀ x ∈ starts position u.spans, ∀ s g, I g → I (exec (visitAt visit x) (s, g)).2.2)
    (hf : I f) (s : σ) :
    exec (traverse id position visit) (s, f) =
      exec (forM (starts position u.spans) (visitAt visit)) (s, f) := by
  have hb := hI f hf
  obtain ⟨path, hpath⟩ := Tree.subtree_part hu
  have hid : id ∈ frame.ids := by
    by_contra hnot
    simp [Tree.subtree?_eq_none hnot] at hu
  obtain ⟨c, hc, htree, -, hsub⟩ := hb.locate hid
  obtain rfl : u = c.subtree.frame := by simpa [hu] using hsub
  have hspine := Tree.pending_spine (show (Path.plug path c.subtree.frame).ids.Nodup by
    rw [hpath]; exact hd)
  rw [hpath, Tree.spine_frame] at hspine
  rw [traverse, exec_liftM_bind_ok (exec_locate hc)]
  refine exec_traverseLoop hI hd c.subtree.frame.spans hvisit hf (fun y hy => ?_)
    (fun id hmem => ?_) hspine ?_ s
  · rw [← hpath, Path.spans_plug]
    simp [hy]
  · rw [List.mem_reverse, ← Tree.spine_frame] at hmem
    rw [← hpath]
    exact Tree.mem_ids_plug (Tree.mem_ids_of_mem_spine hmem)
  · rw [Tree.length_spans, Tree.size_frame]
    exact c.size_le_fuel

end Run

/-! ## Considerate clients -/

/-- A text whose tree has a frame, and whose reading is given but for the
spans. -/
structure Forest.Framed (f : Forest) (t : TextId) (v : Reading) (frame : Tree) : Prop where
  hosts : f.Hosts t v
  frame : (f.tree (.text t)).frame = frame

theorem Forest.Framed.bears {f : Forest} {t : TextId} {v : Reading} {frame : Tree}
    (h : f.Framed t v frame) : f.Bears (.text t) frame where
  apart q hq id hid hmem := by
    obtain ⟨nextId, spans, hv⟩ := h.hosts
    rw [← h.frame, Tree.ids_frame, hv.ids] at hid
    exact (hv.apart q hq id hmem).2 hid
  frame := h.frame

/-- A client whose calls, for nodes of the text, keep the frame of its tree. -/
def Considerate {σ : Type} (t : TextId) (v : Reading) (frame : Tree)
    (visit : NodeId → Client σ Unit) : Prop :=
  ∀ id ∈ frame.ids, ∀ s f, Forest.Framed f t v frame →
    (exec (visit id) (s, f)).2.2.Framed t v frame

namespace Run

variable {σ : Type} {t : TextId} {v : Reading} {frame : Tree} {f : Forest}
  {visit : NodeId → Client σ Unit}

/-- What a forest with a frame has at a node of the frame. -/
theorem framed_at (hf : f.Framed t v frame) {done todo : List Span} {y : Span}
    (hcut : frame.spans = done ++ y :: todo) :
    ∃ v' pre x post, f.Reads t v' ∧ v'.spans = pre ++ x :: post ∧ x.id = y.id ∧
      x.length = y.length ∧ x.position.toNat = v.start.toNat + covered done := by
  obtain ⟨nextId, spans, hv⟩ := hf.hosts
  have hmap := hcut
  rw [← hf.frame, Tree.spans_frame, List.map_eq_append_iff] at hmap
  obtain ⟨pre, rest, hspans, rfl, hrest⟩ := hmap
  obtain ⟨x, post, rfl, rfl, rfl⟩ := List.map_eq_cons_iff.mp hrest
  rw [hv.shape.spans] at hspans
  refine ⟨_, pre, x, post, hv, hspans, rfl, rfl, ?_⟩
  rw [(hv.valid.position hspans).1]
  simp [covered, Function.comp_def]

/-- Setting an exact cache changes nothing. -/
theorem exec_setPosition (hf : f.Reads t v) {pre post : List Span} {x : Span}
    (hcut : v.spans = pre ++ x :: post) :
    exec (modifyNode x.id (·.withPosition x.position)) f = (.ok ⟨⟩, f) := by
  obtain ⟨c, hc, htree, -, -, rfl, -⟩ := exec_locate_of_reads hf hcut
  rw [modifyNode, exec_bind_ok hc]
  exact exec_putBack_same htree

/-- In a text the positions at which the spans start are in the caches already. -/
theorem exec_setStart (hf : f.Framed t v frame) {x : NodeId × Size}
    (hx : x ∈ starts v.start frame.spans) :
    exec (modifyNode x.1 (·.withPosition x.2)) f = (.ok ⟨⟩, f) := by
  have hfits : v.start.toNat + covered frame.spans < 2 ^ 64 := by
    obtain ⟨nextId, spans, hv⟩ := hf.hosts
    have hle := hv.valid.covered_le
    have hsize := hv.valid.fits
    have hcovered : covered frame.spans = covered spans := by
      rw [← hf.frame, Tree.spans_frame, hv.shape.spans]
      simp [covered, Function.comp_def]
    dsimp only [Reading.size] at hle hsize
    omega
  obtain ⟨done, y, todo, hcut, hid, hstart⟩ := mem_starts hx hfits
  obtain ⟨v', pre, z, post, hv, hspans, hzid, -, hposition⟩ := framed_at hf hcut
  have hcache : z.position = x.2 := by rw [← UInt64.toNat_inj, hposition, hstart]
  have hset := exec_setPosition hv hspans
  rwa [hzid, ← hid, hcache] at hset

/-- Where the caches are exact, a traversal makes nothing but the calls. -/
theorem exec_forM_starts (hvisit : Considerate t v frame visit) (todo : List Span)
    {position : Size} (htodo : ∀ x ∈ starts position todo, x ∈ starts v.start frame.spans)
    (hids : ∀ y ∈ todo, y.id ∈ frame.ids) (hf : f.Framed t v frame) (s : σ) :
    exec (forM (starts position todo) (visitAt visit)) (s, f) =
      exec (forM (todo.map (·.id)) visit) (s, f) := by
  induction todo generalizing f position s with
  | nil => rfl
  | cons y todo ih =>
    have hset := exec_setStart hf (htodo (y.id, position) List.mem_cons_self)
    rw [starts, List.forM_cons, List.map_cons, List.forM_cons, visitAt, bind_assoc,
      exec_liftM_bind_ok hset, exec_bind, exec_bind]
    have hnext := hvisit y.id (hids y List.mem_cons_self) s f hf
    generalize exec (visit y.id) (s, f) = result at hnext ⊢
    obtain ⟨r, s', f'⟩ := result
    cases r with
    | error e => rfl
    | ok _ =>
      exact ih (fun x hx => htodo x (List.mem_cons_of_mem _ hx))
        (fun z hz => hids z (List.mem_cons_of_mem _ hz)) hnext s'

/-- **A traversal of a text** with a considerate client is the loop over
its nodes from left to right. -/
theorem exec_traverse (hvisit : Considerate t v frame visit) (hf : f.Framed t v frame)
    {root : NodeId} (hroot : (f.tree (.text t)).id? = some root) (s : σ) :
    exec (traverse root v.start visit) (s, f) = exec (forM frame.ids visit) (s, f) := by
  obtain ⟨nextId, spans, hv⟩ := hf.hosts
  have hd : frame.ids.Nodup := by
    rw [← hf.frame, Tree.ids_frame]
    exact (hv.shape.wellFormed hv.valid).distinct
  have htop : frame.subtree? root = some frame := by
    rw [← hf.frame]
    exact Tree.subtree?_top (by simpa using hroot)
  rw [exec_traverse_starts (I := fun g => g.Framed t v frame) (fun _ h => h.bears) hd htop v.start
    (fun x hx s g hg => ?_) hf s]
  · exact exec_forM_starts hvisit frame.spans (fun _ hx => hx) (fun _ hy => List.mem_map_of_mem hy)
      hf s
  · have hid : x.1 ∈ frame.ids := by
      rw [Tree.ids, ← ids_starts v.start]
      exact List.mem_map_of_mem hx
    rw [visitAt, exec_liftM_bind_ok (exec_setStart hg hx)]
    exact hvisit x.1 hid s g hg

end Run

end SpanTree
