/-
SpanTree.Proofs.Orders — the two traversals and the orders they stand for.

Both traversals keep nodes on a stack. What they come to is a loop over a
list that is read off the tree by recursion: the nodes from left to right
with the positions where they start (`starts`), or each node before its
two subtrees (`Tree.preorder`). For the first order the work is done in
`SpanTree.Proofs.Traversals`; for the second one the same is done here,
where the stack stands for the nodes of the subtrees on it.

The calls may do what they like elsewhere, and to the flags and properties
of the tree (`Gentle`). A loop over a list stops at the first call that
fails, and what has been visited until then is an initial part of the
list. So the state of the caches is known at every moment: those of an
initial part are set, and the others are as they were. `Forest.Visited`
says this, and that nothing else has happened to the tree. It is kept by
the steps of a traversal (`exec_visitAt`) and composed along the list
(`Visited.trans`).

Nothing is asked of the links and the weights of the tree.
-/
import SpanTree.Proofs.Reentrance

namespace SpanTree

/-! ## Trees with some caches set -/

namespace Tree

/-- The nodes of a tree, each before its left and its right subtree. -/
def preorder : Tree → List NodeId
  | .nil => []
  | .node n l r => n.id :: (l.preorder ++ r.preorder)

/-- Both orders have the same nodes. -/
theorem perm_preorder (t : Tree) : t.preorder.Perm t.ids := by
  induction t with
  | nil => exact .nil
  | node n l r ihl ihr =>
    rw [preorder, ids_node]
    exact ((ihl.append ihr).cons n.id).trans List.perm_middle.symm

theorem length_preorder (t : Tree) : t.preorder.length = t.size := by
  rw [t.perm_preorder.length_eq, ids, List.length_map, length_spans]

@[simp] theorem preorder_frame (t : Tree) : t.frame.preorder = t.preorder := by
  induction t with
  | nil => rfl
  | node n l r ihl ihr => rw [frame, preorder, ihl, ihr, preorder]; rfl

/-- The nodes of a tree with their caches, from left to right. -/
def caches (t : Tree) : List (NodeId × Size) := t.spans.map fun x => (x.id, x.position)

/-- The second tree is the first one with these caches set. Only flags and properties may be
others. -/
structure Stamped (t : Tree) (visits : List (NodeId × Size)) (u : Tree) : Prop where
  skeleton : u.skeleton = t.skeleton
  caches : u.caches = t.caches.map fun x => (x.1, (visits.lookup x.1).getD x.2)

variable {t u v : Tree} {xs ys : List (NodeId × Size)}

theorem Stamped.refl (t : Tree) : t.Stamped [] t where
  skeleton := rfl
  caches := (List.map_id _).symm

theorem Stamped.ids (h : t.Stamped xs u) : u.ids = t.ids := by
  rw [← ids_frame, frame_congr h.skeleton, ids_frame]

/-- A key of the first part of a list without repetitions is not one of the second part. -/
theorem lookup_eq_none_of_nodup (hd : ((xs ++ ys).map (·.1)).Nodup) {id : NodeId} {position : Size}
    (h : xs.lookup id = some position) : ys.lookup id = none := by
  obtain ⟨pre, post, rfl, -⟩ := List.lookup_eq_some_iff.mp h
  rw [List.map_append, List.nodup_append] at hd
  refine List.lookup_eq_none_iff.mpr fun y hy => bne_iff_ne.mpr ?_
  exact hd.2.2 id (by simp) y.1 (List.mem_map_of_mem hy)

/-- Caches that are set later are those of other nodes. -/
theorem Stamped.trans (h : t.Stamped xs u) (h' : u.Stamped ys v)
    (hd : ((xs ++ ys).map (·.1)).Nodup) : t.Stamped (xs ++ ys) v where
  skeleton := h'.skeleton.trans h.skeleton
  caches := by
    rw [h'.caches, h.caches, List.map_map]
    refine List.map_congr_left fun x _ => ?_
    simp only [Function.comp_apply, Prod.mk.injEq, true_and]
    rw [List.lookup_append]
    cases hx : xs.lookup x.1 with
    | none => simp
    | some position => simp [lookup_eq_none_of_nodup hd hx]

/-- A cache that was set last is there. -/
theorem Stamped.mem_caches {x : NodeId × Size} (h : t.Stamped (xs ++ [x]) u) (hx : x.1 ∈ t.ids)
    (hd : ((xs ++ [x]).map (·.1)).Nodup) : x ∈ u.caches := by
  obtain ⟨y, hy, hid⟩ := List.mem_map.mp hx
  obtain ⟨id, position⟩ := x
  have hlookup : (xs ++ [(id, position)]).lookup id = some position := by
    rw [List.lookup_append]
    cases hfirst : xs.lookup id with
    | none => simp
    | some other =>
      have hlast := lookup_eq_none_of_nodup hd hfirst
      simp at hlast
  rw [h.caches, Tree.caches, List.map_map]
  refine List.mem_map.mpr ⟨y, hy, ?_⟩
  rw [Function.comp_apply, hid, hlookup]
  rfl

theorem getD_lookup_singleton (id : NodeId) (position : Size) (x : NodeId × Size) :
    ([(id, position)].lookup x.1).getD x.2 = if x.1 = id then position else x.2 := by
  by_cases hid : x.1 = id
  · simp [hid]
  · simp [List.lookup_cons, hid, beq_eq_false_iff_ne.mpr hid]

/-- A cache is set. -/
theorem stamped_withPosition {c : Cursor} (hd : c.toTree.ids.Nodup) (position : Size) :
    c.toTree.Stamped [(c.node.id, position)] (c.withPosition position).toTree where
  skeleton := c.skeleton_withPosition position
  caches := by
    rw [Tree.ids, Cursor.spans_toTree, List.map_append, List.map_cons, List.nodup_append,
      List.nodup_cons] at hd
    obtain ⟨-, ⟨hafter, -⟩, hbefore⟩ := hd
    -- the nodes before and after are others
    have hkeep {spans : List Span} (h : ∀ x ∈ spans, x.id ≠ c.node.id) :
        (spans.map fun x => (x.id, x.position)).map (fun x =>
            (x.1, ([(c.node.id, position)].lookup x.1).getD x.2)) =
          spans.map fun x => (x.id, x.position) := by
      rw [List.map_map]
      refine List.map_congr_left fun x hx => ?_
      rw [Function.comp_apply, getD_lookup_singleton, if_neg (h x hx)]
    have hpre : ∀ x ∈ c.before, x.id ≠ c.node.id := fun x hx =>
      hbefore x.id (List.mem_map_of_mem hx) c.node.id List.mem_cons_self
    have hpost : ∀ x ∈ c.after, x.id ≠ c.node.id := fun x hx heq =>
      hafter (List.mem_map.mpr ⟨x, hx, heq⟩)
    rw [caches, caches, Cursor.spans_toTree, Cursor.spans_toTree, Cursor.before_withPosition,
      Cursor.after_withPosition, List.map_append, List.map_append, List.map_append, List.map_cons,
      List.map_cons, List.map_cons, hkeep hpre, hkeep hpost, getD_lookup_singleton,
      if_pos (show (c.span.id, c.span.position).1 = c.node.id from rfl)]
    rfl

/-- Flags and properties are changed. -/
theorem stamped_mapData {c : Cursor} {e : Payload → Payload}
    (htotal : (e c.node.data).total = c.node.data.total)
    (hposition : (e c.node.data).position = c.node.data.position) :
    c.toTree.Stamped [] (c.mapData e).toTree where
  skeleton := Cursor.skeleton_mapData htotal
  caches := by
    have hspan : ((c.mapData e).span.id, (c.mapData e).span.position) =
        (c.span.id, c.span.position) := congrArg (c.node.id, ·) hposition
    rw [caches, caches, Cursor.spans_mapData htotal, Cursor.spans_toTree, List.map_append,
      List.map_append, List.map_cons, List.map_cons, hspan]
    exact (List.map_id _).symm

end Tree

/-! ## Calls that may be made during a traversal -/

namespace Forest

/-- The nodes of the tree at a place are nowhere else, and nodes that are made later are
others. -/
structure Lone (f : Forest) (p : Place) : Prop where
  distinct : (f.tree p).ids.Nodup
  apart : ∀ q, q ≠ p → ∀ id ∈ (f.tree p).ids, id ∉ (f.tree q).ids
  fresh : ∀ id ∈ (f.tree p).ids, id < f.nextId

/-- The second forest has the tree of the place with these caches set, and what it may elsewhere. -/
structure Visited (f : Forest) (p : Place) (visits : List (NodeId × Size)) (g : Forest) : Prop where
  lone : g.Lone p
  stamped : (f.tree p).Stamped visits (g.tree p)

variable {f g h : Forest} {p : Place} {xs ys : List (NodeId × Size)}

theorem Lone.visited (hf : f.Lone p) : f.Visited p [] f := ⟨hf, .refl _⟩

theorem Visited.trans (hg : f.Visited p xs g) (hh : g.Visited p ys h)
    (hd : ((xs ++ ys).map (·.1)).Nodup) : f.Visited p (xs ++ ys) h :=
  ⟨hh.lone, hg.stamped.trans hh.stamped hd⟩

/-- A lone tree is borne by its forest, as far as its frame goes. -/
theorem Lone.bears (hf : f.Lone p) : f.Bears p (f.tree p).frame where
  apart q hq id hid := hf.apart q hq id (by rwa [Tree.ids_frame] at hid)
  frame := rfl

theorem Visited.frame (hg : f.Visited p xs g) : (g.tree p).frame = (f.tree p).frame :=
  Tree.frame_congr hg.stamped.skeleton

/-- Another tree with the same nodes is as lone. -/
theorem Lone.plant (hf : f.Lone p) {u : Tree} {xs : List (NodeId × Size)}
    (hu : (f.tree p).Stamped xs u) (hnil : (f.tree p).isNil = false) :
    f.Visited p xs (f.plant u p) := by
  have htree := tree_plant_of_node hnil u
  have hids : ((f.plant u p).tree p).ids = (f.tree p).ids := by rw [htree, hu.ids]
  refine ⟨⟨?_, fun q hq id hid => ?_, fun id hid => ?_⟩, ?_⟩
  · rw [hids]
    exact hf.distinct
  · rw [hids] at hid
    rw [tree_plant_of_ne hq]
    exact hf.apart q hq id hid
  · rw [hids] at hid
    rw [nextId_plant]
    exact hf.fresh id hid
  · rw [htree]
    exact hu

end Forest

namespace Run

variable {σ : Type} {p : Place} {f g : Forest} {visit visit' : NodeId → Client σ Unit}

/-- A call that, for a node of the tree at a place, changes nothing of the tree but flags and
properties, whether or not it fails. -/
def Gentle (p : Place) (visit : NodeId → Client σ Unit) : Prop :=
  ∀ f : Forest, f.Lone p → ∀ id ∈ (f.tree p).ids, ∀ s,
    f.Visited p [] (exec (visit id) (s, f)).2.2

/-- A call that leaves the forest alone may change the state of the caller, and fail. -/
theorem gentle_of_same (h : ∀ id s f, (exec (visit id) (s, f)).2.2 = f) : Gentle p visit := by
  intro f hf id _ s
  rw [h]
  exact hf.visited

/-- One call after another. -/
theorem Gentle.seq (h : Gentle p visit) (h' : Gentle p visit') :
    Gentle p (fun id => do visit id; visit' id) := by
  intro f hf id hid s
  have hfirst := h f hf id hid s
  rw [exec_bind]
  generalize exec (visit id) (s, f) = result at hfirst ⊢
  obtain ⟨r, s', g⟩ := result
  cases r with
  | error e => exact hfirst
  | ok _ =>
    have hid' : id ∈ (g.tree p).ids := hfirst.stamped.ids ▸ hid
    exact hfirst.trans (h' g hfirst.lone id hid' s') List.nodup_nil

/-- One call after another, as long as they come back. -/
theorem Gentle.forM (hvisit : Gentle p visit) (todo : List NodeId) (hf : f.Lone p)
    (hids : ∀ id ∈ todo, id ∈ (f.tree p).ids) (s : σ) :
    f.Visited p [] (exec (forM todo visit) (s, f)).2.2 := by
  induction todo generalizing f s with
  | nil => exact hf.visited
  | cons id todo ih =>
    have hfirst := hvisit f hf id (hids id List.mem_cons_self) s
    rw [List.forM_cons, exec_bind]
    generalize exec (visit id) (s, f) = result at hfirst ⊢
    obtain ⟨r, s', g⟩ := result
    cases r with
    | error e => exact hfirst
    | ok _ =>
      have hrest := ih hfirst.lone (fun i hi => by
        rw [hfirst.stamped.ids]
        exact hids i (List.mem_cons_of_mem _ hi)) s'
      exact hfirst.trans hrest List.nodup_nil

/-- A node of a lone tree is changed where it stands. -/
theorem exec_modifyNode_lone (hf : f.Lone p) {id : NodeId} (hid : id ∈ (f.tree p).ids)
    {k : Cursor → Cursor} {xs : List (NodeId × Size)}
    (hk : ∀ c : Cursor, c.toTree = f.tree p → c.node.id = id →
      c.toTree.Stamped xs (k c).toTree) :
    ∃ g, exec (modifyNode id k) f = (.ok ⟨⟩, g) ∧ f.Visited p xs g := by
  obtain ⟨c, hc, htree, hnode⟩ := Forest.exists_cursor hid fun q hq => hf.apart q hq id hid
  exact ⟨_, exec_modifyNode hc k,
    hf.plant (htree ▸ hk c htree hnode) (Tree.isNil_of_mem_ids hid)⟩

/-- An edit of flags and properties. -/
theorem gentle_modifyData {e : NodeId → Payload → Payload}
    (he : ∀ id data, (e id data).total = data.total ∧ (e id data).position = data.position) :
    Gentle p fun id => (liftM (modifyData id (e id)) : Client σ Unit) := by
  intro f hf id hid s
  have hedit (c : Cursor) (_ : c.toTree = f.tree p) (_ : c.node.id = id) :
      c.toTree.Stamped [] (c.mapData (e id)).toTree :=
    Tree.stamped_mapData (he id _).1 (he id _).2
  obtain ⟨g, hg, hvisited⟩ := exec_modifyNode_lone hf hid hedit
  rw [exec_liftM, modifyData, hg]
  exact hvisited

/-! ## One visit after another -/

/-- A visit sets the cache, and then makes the call. -/
theorem exec_visitAt (hf : f.Lone p) {x : NodeId × Size} (hx : x.1 ∈ (f.tree p).ids) (s : σ) :
    ∃ g, exec (visitAt visit x) (s, f) = exec (visit x.1) (s, g) ∧ f.Visited p [x] g := by
  have hset (c : Cursor) (htree : c.toTree = f.tree p) (hnode : c.node.id = x.1) :
      c.toTree.Stamped [x] (c.withPosition x.2).toTree := by
    have hstamped := Tree.stamped_withPosition (htree ▸ hf.distinct) x.2
    rwa [hnode] at hstamped
  obtain ⟨g, hg, hvisited⟩ := exec_modifyNode_lone hf hx hset
  exact ⟨g, by rw [visitAt, exec_liftM_bind_ok hg], hvisited⟩

/-- A loop over a list ends after all its elements, or with the first that fails. -/
theorem exec_forM_cases {α : Type} (body : α → Client σ Unit) (xs : List α) (a : σ × Forest) :
    (exec (forM xs body) a).1 = .ok ⟨⟩ ∨ ∃ done x todo b, xs = done ++ x :: todo ∧
      exec (forM done body) a = (.ok ⟨⟩, b) ∧ exec (forM xs body) a = exec (body x) b := by
  induction xs generalizing a with
  | nil => exact .inl rfl
  | cons x xs ih =>
    rw [List.forM_cons, exec_bind]
    obtain ⟨r, b, hx⟩ : ∃ r b, exec (body x) a = (r, b) := ⟨_, _, rfl⟩
    cases r with
    | error e =>
      rw [hx]
      exact .inr ⟨[], x, xs, a, rfl, rfl, hx.symm⟩
    | ok _ =>
      rw [hx]
      rcases ih b with hok | ⟨done, y, todo, c, rfl, hdone, hy⟩
      · exact .inl hok
      · refine .inr ⟨x :: done, y, todo, c, rfl, ?_, hy⟩
        rw [List.forM_cons, exec_bind_ok hx, hdone]

/-- After a visit the cache is set, whether or not the call came back. -/
theorem visited_visitAt (hvisit : Gentle p visit) (hf : f.Lone p) {x : NodeId × Size}
    (hx : x.1 ∈ (f.tree p).ids) (s : σ) :
    f.Visited p [x] (exec (visitAt visit x) (s, f)).2.2 := by
  obtain ⟨g, hcall, hvisited⟩ := exec_visitAt hf hx s
  rw [hcall]
  have hid : x.1 ∈ (g.tree p).ids := hvisited.stamped.ids ▸ hx
  exact hvisited.trans (hvisit g hvisited.lone x.1 hid s) (List.nodup_singleton x.1)

/-- **What has been visited** after some visits that all came back: their caches are set, and
nothing else of the tree has changed. The induction is on the visits, with those before them. -/
theorem visited_forM (hvisit : Gentle p visit) {done visits : List (NodeId × Size)}
    (hg : f.Visited p done g) (hd : ((done ++ visits).map (·.1)).Nodup)
    (hids : ∀ x ∈ visits, x.1 ∈ (f.tree p).ids) {s : σ} {b : σ × Forest}
    (h : exec (forM visits (visitAt visit)) (s, g) = (.ok ⟨⟩, b)) :
    f.Visited p (done ++ visits) b.2 := by
  induction visits generalizing done g s with
  | nil =>
    cases h
    rwa [List.append_nil]
  | cons x visits ih =>
    have hx : x.1 ∈ (g.tree p).ids := hg.stamped.ids ▸ hids x List.mem_cons_self
    have hnext := visited_visitAt hvisit hg.lone hx s
    rw [List.forM_cons, exec_bind] at h
    rw [List.append_cons] at hd ⊢
    generalize exec (visitAt visit x) (s, g) = result at h hnext
    obtain ⟨r, s', g'⟩ := result
    cases r with
    | error e => cases h
    | ok _ =>
      refine ih (hg.trans hnext ?_) hd (fun y hy => hids y (List.mem_cons_of_mem _ hy)) h
      rw [List.map_append] at hd
      exact (List.nodup_append.mp hd).1

/-! ## The loop over what is before its subtrees -/

end Run

namespace Tree

/-- The nodes that a stack stands for: each one with what is below it. -/
def owed (t : Tree) (stack : List NodeId) : List NodeId :=
  stack.flatMap fun id => ((t.subtree? id).map preorder).getD []

theorem owed_append (t : Tree) (a b : List NodeId) :
    t.owed (a ++ b) = t.owed a ++ t.owed b := List.flatMap_append

theorem owed_cons (t : Tree) (id : NodeId) (rest : List NodeId) :
    t.owed (id :: rest) = ((t.subtree? id).map preorder).getD [] ++ t.owed rest :=
  List.flatMap_cons ..

/-- The top of a part of a tree, where there is one, stands for the part. -/
theorem owed_id? {path : Path} {t : Tree} (hd : (Path.plug path t).ids.Nodup) :
    (Path.plug path t).owed t.id?.toList = t.preorder := by
  cases t with
  | nil => rfl
  | node n l r =>
    have hid : n.id ∈ (Tree.node n l r).ids := by simp
    have htop := subtree?_plug hd hid
    rw [subtree?_top (t := .node n l r) rfl] at htop
    simp [id?, head?, owed, htop]

/-- A tree has for each of its nodes a subtree with the node at the top. -/
theorem exists_node {t : Tree} {id : NodeId} (h : id ∈ t.ids) :
    ∃ n l r, t.subtree? id = some (.node n l r) ∧ n.id = id := by
  obtain ⟨c, hc, -, hid⟩ := locate?_of_mem h
  refine ⟨c.node, c.left, c.right, ?_, hid⟩
  rw [subtree?_eq_locate?, hc]
  rfl

/-- The tops of two subtrees are nodes of the tree. -/
theorem mem_ids_of_tops {t : Tree} {id i : NodeId} {n : Node} {l r : Tree}
    (h : t.subtree? id = some (.node n l r)) (hi : i ∈ l.id?.toList ++ r.id?.toList) :
    i ∈ t.ids := by
  obtain ⟨path, rfl⟩ := subtree_part h
  refine mem_ids_plug ?_
  rw [List.mem_append, Option.mem_toList, Option.mem_toList] at hi
  rw [ids_node, List.mem_append, List.mem_cons]
  rcases hi with hi | hi
  · exact .inl (id_mem_ids_of_id? hi)
  · exact .inr (.inr (id_mem_ids_of_id? hi))

/-- A node that is taken off a stack leaves the tops of its two subtrees. -/
theorem owed_node {t : Tree} (hd : t.ids.Nodup) {id : NodeId} {n : Node} {l r : Tree}
    (h : t.subtree? id = some (.node n l r)) (rest : List NodeId) :
    t.owed (id :: rest) = n.id :: t.owed (l.id?.toList ++ r.id?.toList ++ rest) := by
  obtain ⟨path, rfl⟩ := subtree_part h
  have hl : (Path.plug path (.node n l r)).owed l.id?.toList = l.preorder :=
    owed_id? (show (Path.plug (⟨.left, n, r⟩ :: path) l).ids.Nodup from hd)
  have hr : (Path.plug path (.node n l r)).owed r.id?.toList = r.preorder :=
    owed_id? (show (Path.plug (⟨.right, n, l⟩ :: path) r).ids.Nodup from hd)
  rw [owed_cons, h, owed_append, owed_append, hl, hr]
  rfl

end Tree

namespace Run

variable {σ : Type} {p : Place} {frame : Tree} {f : Forest} {visit : NodeId → Client σ Unit}

/-- The loop with a stack is the loop over the nodes that the stack stands for. The induction is
on these nodes; an invariant of the calls carries the frame along. -/
theorem exec_traverseUnorderedLoop {I : Forest → Prop} (hI : ∀ g, I g → g.Bears p frame)
    (hd : frame.ids.Nodup) (todo : List NodeId) {fuel : Nat} {stack : List NodeId}
    (hvisit : ∀ id ∈ todo, ∀ s g, I g → I (exec (visit id) (s, g)).2.2)
    (hf : I f) (hstack : ∀ id ∈ stack, id ∈ frame.ids) (htodo : frame.owed stack = todo)
    (hfuel : todo.length ≤ fuel) (s : σ) :
    exec (traverseUnorderedLoop visit fuel stack) (s, f) = exec (forM todo visit) (s, f) := by
  induction todo generalizing f fuel stack s with
  | nil =>
    cases stack with
    | nil => cases fuel <;> rfl
    | cons top rest =>
      obtain ⟨n, l, r, hsub, -⟩ := Tree.exists_node (hstack top List.mem_cons_self)
      rw [Tree.owed_node hd hsub] at htodo
      cases htodo
  | cons id todo ih =>
    cases stack with
    | nil => cases htodo
    | cons top rest =>
      obtain ⟨fuel, rfl⟩ : ∃ k, fuel = k + 1 := ⟨fuel - 1, by simp at hfuel; omega⟩
      have hmem := hstack top List.mem_cons_self
      obtain ⟨n, l, r, hsub, rfl⟩ := Tree.exists_node hmem
      rw [Tree.owed_node hd hsub, List.cons.injEq] at htodo
      obtain ⟨rfl, htodo⟩ := htodo
      -- what is below the node is looked up before the call
      obtain ⟨here, hhere, hframe⟩ := (hI f hf).exec_subtree hmem
      have hnode : .node n l r = here.frame := Option.some.inj (hsub.symm.trans hframe)
      have hleft : (here.child .left).id? = l.id? := by
        rw [← Tree.id?_frame, ← Tree.child_frame, ← hnode]
        rfl
      have hright : (here.child .right).id? = r.id? := by
        rw [← Tree.id?_frame, ← Tree.child_frame, ← hnode]
        rfl
      have hnext := hvisit n.id List.mem_cons_self s f hf
      rw [traverseUnorderedLoop, exec_liftM_bind_ok hhere, hleft, hright, List.forM_cons, exec_bind,
        exec_bind]
      generalize exec (visit n.id) (s, f) = result at hnext ⊢
      obtain ⟨r', s', f'⟩ := result
      cases r' with
      | error e => rfl
      | ok _ =>
        refine ih (fun i hi => hvisit i (List.mem_cons_of_mem _ hi)) hnext (fun i hi => ?_) htodo
          (by simpa using hfuel) s'
        rcases List.mem_append.mp hi with hi | hi
        · exact Tree.mem_ids_of_tops hsub hi
        · exact hstack i (List.mem_cons_of_mem _ hi)

/-- **A traversal in no order of positions** is the loop over the nodes of a subtree, each before
its left and its right subtree. -/
theorem exec_traverseUnordered {I : Forest → Prop} (hI : ∀ g, I g → g.Bears p frame)
    (hd : frame.ids.Nodup) {id : NodeId} {u : Tree} (hu : frame.subtree? id = some u)
    (hvisit : ∀ i ∈ u.preorder, ∀ s g, I g → I (exec (visit i) (s, g)).2.2) (hf : I f) (s : σ) :
    exec (traverseUnordered id visit) (s, f) = exec (forM u.preorder visit) (s, f) := by
  have hid : id ∈ frame.ids := by
    by_contra hnot
    simp [Tree.subtree?_eq_none hnot] at hu
  obtain ⟨c, hc, htree, -, hsub⟩ := (hI f hf).locate hid
  obtain rfl : u = c.subtree.frame := Option.some.inj (hu.symm.trans hsub)
  have howed : frame.owed [id] = c.subtree.frame.preorder := by
    rw [Tree.owed_cons, hu]
    exact List.append_nil _
  rw [traverseUnordered, exec_liftM_bind_ok (exec_locate hc)]
  refine exec_traverseUnorderedLoop hI hd _ hvisit hf (fun i hi => ?_) howed ?_ s
  · rwa [List.mem_singleton.mp hi]
  · rw [Tree.length_preorder, Tree.size_frame]
    exact c.size_le_fuel

end Run

/-! ## Both traversals -/

/-- The positions where spans start are sums of the lengths before them. -/
theorem getElem_starts (position : Size) (spans : List Span) (k : Nat)
    (hk : k < (starts position spans).length) :
    (starts position spans)[k].2 = position + ((spans.take k).map (·.length)).sum := by
  induction spans generalizing position k with
  | nil => simp [starts] at hk
  | cons x rest ih =>
    cases k with
    | zero => simp [starts]
    | succ k =>
      rw [List.take_succ_cons, List.map_cons, List.sum_cons, ← UInt64.add_assoc]
      exact ih (position + x.length) k (by simpa [starts] using hk)

/-- The nodes of a subtree are nodes of the tree, each once. -/
theorem Tree.ids_part {t u : Tree} {id : NodeId} (hd : t.ids.Nodup) (h : t.subtree? id = some u) :
    u.ids.Nodup ∧ ∀ i ∈ u.ids, i ∈ t.ids := by
  obtain ⟨path, rfl⟩ := subtree_part h
  refine ⟨?_, fun i hi => mem_ids_plug hi⟩
  rw [ids, Path.spans_plug, List.map_append, List.map_append] at hd
  exact (List.nodup_append.mp (List.nodup_append.mp hd).1).2.1

namespace Run

variable {σ : Type} {p : Place} {f : Forest} {visit : NodeId → Client σ Unit}

/-- A traversal from left to right, with its result and the state after it. The visits are the
nodes of the subtree in order, at the sums of the lengths before them. The traversal is the loop
over them. When a call is made, its node has this cache, those up to it have theirs, and nothing
else of the tree has changed. It is the same at the end, whether all calls came back or one failed,
which was then the last. -/
structure InOrder (f : Forest) (p : Place) (visit : NodeId → Client σ Unit) (u : Tree)
    (start : Size) (s : σ) (outcome : Except Fault PUnit × σ × Forest) : Prop where
  nodes : (starts start u.spans).map (·.1) = u.ids
  once : u.ids.Nodup
  position : ∀ k (hk : k < (starts start u.spans).length),
    (starts start u.spans)[k].2 = start + ((u.spans.take k).map (·.length)).sum
  loop : outcome = exec (forM (starts start u.spans) (visitAt visit)) (s, f)
  call : ∀ done x todo s' g, starts start u.spans = done ++ x :: todo →
    exec (forM done (visitAt visit)) (s, f) = (.ok ⟨⟩, s', g) →
    ∃ g', exec (visitAt visit x) (s', g) = exec (visit x.1) (s', g') ∧
      x ∈ (g'.tree p).caches ∧ f.Visited p (done ++ [x]) g'
  finished : outcome.1 = .ok ⟨⟩ → f.Visited p (starts start u.spans) outcome.2.2
  stopped : ∀ e, outcome.1 = .error e →
    ∃ done x todo s' g, starts start u.spans = done ++ x :: todo ∧
      exec (forM done (visitAt visit)) (s, f) = (.ok ⟨⟩, s', g) ∧
      outcome = exec (visitAt visit x) (s', g) ∧ f.Visited p (done ++ [x]) outcome.2.2

/-- A loop over the nodes of a subtree from left to right. -/
theorem inOrder_forM (hf : f.Lone p) (hvisit : Gentle p visit) {id : NodeId} {u : Tree}
    (hu : (f.tree p).subtree? id = some u) (start : Size) (s : σ) :
    InOrder f p visit u start s (exec (forM (starts start u.spans) (visitAt visit)) (s, f)) := by
  obtain ⟨hd, hsub⟩ := Tree.ids_part hf.distinct hu
  have hnodes : (starts start u.spans).map (·.1) = u.ids := ids_starts start u.spans
  have hids : ∀ x ∈ starts start u.spans, x.1 ∈ (f.tree p).ids := fun x hx =>
    hsub x.1 (hnodes ▸ List.mem_map_of_mem hx)
  -- the state after an initial part of the visits
  have hpart {done todo : List (NodeId × Size)} {x : NodeId × Size} {s' : σ} {g : Forest}
      (hcut : starts start u.spans = done ++ x :: todo)
      (hdone : exec (forM done (visitAt visit)) (s, f) = (.ok ⟨⟩, s', g)) :
      f.Visited p done g ∧ x.1 ∈ (g.tree p).ids ∧ ((done ++ [x]).map (·.1)).Nodup := by
    rw [← hnodes, hcut, List.append_cons, List.map_append] at hd
    have hprefix := (List.nodup_append.mp hd).1
    have hg : f.Visited p ([] ++ done) g := by
      refine visited_forM hvisit hf.visited ?_ (fun y hy => hids y ?_) hdone
      · rw [List.map_append] at hprefix
        exact (List.nodup_append.mp hprefix).1
      · rw [hcut]
        exact List.mem_append_left _ hy
    refine ⟨hg, ?_, hprefix⟩
    rw [hg.stamped.ids]
    exact hids x (by rw [hcut]; exact List.mem_append_right _ List.mem_cons_self)
  refine ⟨hnodes, hd, fun k hk => getElem_starts start u.spans k hk, rfl, ?_, fun hok => ?_,
    fun e he => ?_⟩
  · intro done x todo s' g hcut hdone
    obtain ⟨hg, hx, hprefix⟩ := hpart hcut hdone
    obtain ⟨g', hcall, hset⟩ := exec_visitAt hg.lone hx s'
    have hvisited := hg.trans hset hprefix
    exact ⟨g', hcall, hvisited.stamped.mem_caches (hg.stamped.ids ▸ hx) hprefix, hvisited⟩
  · have hall : f.Visited p ([] ++ starts start u.spans) _ :=
      visited_forM hvisit hf.visited (hnodes ▸ hd) hids (Prod.ext hok rfl)
    exact hall
  · rcases exec_forM_cases (visitAt visit) (starts start u.spans) (s, f) with
      hok | ⟨done, x, todo, ⟨s', g⟩, hcut, hdone, hx⟩
    · rw [hok] at he
      cases he
    · obtain ⟨hg, hmem, hprefix⟩ := hpart hcut hdone
      refine ⟨done, x, todo, s', g, hcut, hdone, hx, ?_⟩
      rw [hx]
      exact hg.trans (visited_visitAt hvisit hg.lone hmem s') hprefix

/-- A call leaves the tree of the place alone, and its frame. -/
theorem kept_of_visited {frame : Tree} {g h : Forest} {xs : List (NodeId × Size)}
    (hg : g.Lone p ∧ (g.tree p).frame = frame) (hh : g.Visited p xs h) :
    h.Lone p ∧ (h.tree p).frame = frame :=
  ⟨hh.lone, hh.frame.trans hg.2⟩

/-- **Both traversals visit in their orders.** The one from left to right sets caches on its way,
the other one leaves the caches alone, too. -/
theorem traversals_visit_in_order (hf : f.Lone p) (hvisit : Gentle p visit) {id : NodeId} {u : Tree}
    (hu : (f.tree p).subtree? id = some u) (start : Size) (s : σ) :
    InOrder f p visit u start s (exec (traverse id start visit) (s, f)) ∧
      u.preorder.Perm u.ids ∧
      exec (traverseUnordered id visit) (s, f) = exec (forM u.preorder visit) (s, f) ∧
      f.Visited p [] (exec (traverseUnordered id visit) (s, f)).2.2 := by
  have hd : (f.tree p).frame.ids.Nodup := by
    rw [Tree.ids_frame]
    exact hf.distinct
  have hframe : (f.tree p).frame.subtree? id = some u.frame := by
    rw [Tree.subtree?_frame, hu]
    rfl
  obtain ⟨-, hsub⟩ := Tree.ids_part hf.distinct hu
  have hI (g : Forest) (hg : g.Lone p ∧ (g.tree p).frame = (f.tree p).frame) :
      g.Bears p (f.tree p).frame := hg.2 ▸ hg.1.bears
  have hmem {g : Forest} (hg : g.Lone p ∧ (g.tree p).frame = (f.tree p).frame) {i : NodeId}
      (hi : i ∈ u.ids) : i ∈ (g.tree p).ids := by
    rw [← Tree.ids_frame, hg.2, Tree.ids_frame]
    exact hsub i hi
  -- the invariant of the calls, by which the nodes stay what they are
  have hvisitAt : ∀ x ∈ starts start u.frame.spans, ∀ s g,
      g.Lone p ∧ (g.tree p).frame = (f.tree p).frame →
        (exec (visitAt visit x) (s, g)).2.2.Lone p ∧
          ((exec (visitAt visit x) (s, g)).2.2.tree p).frame = (f.tree p).frame := by
    intro x hx s g hg
    rw [starts_frame] at hx
    have hid : x.1 ∈ u.ids := by
      rw [Tree.ids, ← ids_starts start u.spans]
      exact List.mem_map_of_mem hx
    exact kept_of_visited hg (visited_visitAt hvisit hg.1 (hmem hg hid) s)
  have hcall : ∀ i ∈ u.frame.preorder, ∀ s g,
      g.Lone p ∧ (g.tree p).frame = (f.tree p).frame →
        (exec (visit i) (s, g)).2.2.Lone p ∧
          ((exec (visit i) (s, g)).2.2.tree p).frame = (f.tree p).frame := by
    intro i hi s g hg
    rw [Tree.preorder_frame] at hi
    have hid := u.perm_preorder.mem_iff.mp hi
    exact kept_of_visited hg (hvisit g hg.1 i (hmem hg hid) s)
  have hordered := exec_traverse_starts hI hd hframe start hvisitAt ⟨hf, rfl⟩ s
  have hunordered := exec_traverseUnordered hI hd hframe hcall ⟨hf, rfl⟩ s
  rw [starts_frame] at hordered
  rw [Tree.preorder_frame] at hunordered
  refine ⟨?_, u.perm_preorder, hunordered, ?_⟩
  · rw [hordered]
    exact inOrder_forM hf hvisit hu start s
  · rw [hunordered]
    exact hvisit.forM u.preorder hf (fun i hi => hsub i (u.perm_preorder.mem_iff.mp hi)) s

end Run

namespace Forest

/-- A text with a tree of three nodes. The weight of the root is too small for its subtrees, and no
node is linked to what holds it. -/
def hollow : Forest where
  texts := [{
    name := "t"
    beginOffset := 1
    root := .node { id := 1, data := { total := 2 } }
      (.node { id := 0, data := { total := 5, position := 40 } } .nil .nil)
      (.node { id := 2, data := { total := 4, position := 41 } } .nil .nil) }]
  nextId := 3

theorem lone_hollow : hollow.Lone (.text 0) where
  distinct := by decide
  apart q hq id _ := by simp [tree_of_single (f := hollow) rfl rfl hq]
  fresh := by decide

end Forest

namespace Run

/-- A call that makes a node visible, counts the calls, and fails at one node. -/
def unveil (last id : NodeId) : Client Nat Unit := do
  liftM (modifyData id fun data => { data with flags := { data.flags with visible := true } })
  fun (calls, f) => (if id = last then .error (.breach .lostNode) else .ok ⟨⟩, calls + 1, f)

theorem gentle_unveil (p : Place) (last : NodeId) : Gentle p (unveil last) :=
  (gentle_modifyData (e := fun _ data =>
    { data with flags := { data.flags with visible := true } }) fun _ _ => ⟨rfl, rfl⟩).seq
    (gentle_of_same fun _ _ _ => rfl)

/-- The call for the second of the three nodes fails. Two caches have been set: the first at the
start, and the second after it. From the top down, the first call fails. -/
theorem traversals_visit_in_order_hollow :
    let ordered := exec (traverse 1 7 (unveil 1)) (0, Forest.hollow)
    let unordered := exec (traverseUnordered 1 (unveil 1)) (0, Forest.hollow)
    Forest.hollow.Lone (.text 0) ∧ Gentle (.text 0) (unveil 1) ∧
      Forest.hollow.Visited (.text 0) [(0, 7), (1, 12)] ordered.2.2 ∧ ordered.2.1 = 2 ∧
      Forest.hollow.Visited (.text 0) [] unordered.2.2 ∧ unordered.2.1 = 1 := by
  intro ordered unordered
  have hgentle : Gentle (.text 0) (unveil 1) := gentle_unveil (.text 0) 1
  have hsub : (Forest.hollow.tree (.text 0)).subtree? 1 = some (Forest.hollow.tree (.text 0)) := rfl
  obtain ⟨hordered, -, -, hcaches⟩ := traversals_visit_in_order Forest.lone_hollow hgentle hsub 7 0
  refine ⟨Forest.lone_hollow, hgentle, ?_, rfl, hcaches, rfl⟩
  obtain ⟨done, x, todo, s', g, hcut, hdone, hx, hvisited⟩ := hordered.stopped _ rfl
  change [(0, 7), (1, 12), (2, 5)] = done ++ x :: todo at hcut
  -- it is the call for the second node that fails
  cases done with
  | nil =>
    cases hcut
    cases hdone
    have hcalls : 2 = 1 := congrArg (·.2.1) hx
    omega
  | cons y rest =>
    cases rest with
    | nil =>
      cases hcut
      exact hvisited
    | cons z rest =>
      obtain ⟨rfl, hrest⟩ := List.cons.inj hcut
      obtain ⟨rfl, -⟩ := List.cons.inj hrest
      have hfailed : (.error (.breach .lostNode) : Except Fault PUnit) = .ok ⟨⟩ :=
        congrArg Prod.fst hdone
      cases hfailed

end Run

end SpanTree
