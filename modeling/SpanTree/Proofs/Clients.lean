/-
SpanTree.Proofs.Clients — what a client may do while a text is traversed.

`Quiet` is one step of a client that neither restructures the tree of a
text nor uses the operations of the text: it moves between nodes or is
busy elsewhere (`Moving`), or it sets marks. A quiet step keeps the frame
of the tree and everything of the text but its marks (`framed_of_quiet`).

A client is asked for its steps where a traversal of the text may come
to, and nowhere else (`Underway`, `VisitsBy`). So it may count on what it
found, and on what its own visits keep.

What holds in the session of a traversal before the first visit, and is
kept by every visit, holds after the last one (`kept_by_traversal`).
`exec_traverseIntervals` is about clients that are considerate: where the
session is admitted, a traversal of the text is the loop over its nodes,
and the tracker is afterwards as it was.
-/
import Mathlib.Logic.Relation
import SpanTree.Proofs.Traversals

namespace SpanTree

open Relation (ReflTransGen)

/-! ## Quiet steps -/

/-- Something happened to other texts and to loose trees. The nodes there
are other nodes. -/
structure Forest.Elsewhere (f : Forest) (t : TextId) (g : Forest) : Prop where
  text : g.texts[t]? = f.texts[t]?
  settings : g.settings = f.settings
  nextId : f.nextId ≤ g.nextId
  apart : ∀ p, p ≠ .text t → ∀ id ∈ (g.tree p).ids,
    id < g.nextId ∧ id ∉ (f.tree (.text t)).ids

/-- A move from a live node of a text, or something elsewhere, and the
forest it leaves. It may fail. -/
inductive Moving (t : TextId) (f : Forest) : Forest → Prop
  | next {id : NodeId} (live : id ∈ (f.tree (.text t)).ids) : Moving t f (exec (Run.next id) f).2
  | prev {id : NodeId} (live : id ∈ (f.tree (.text t)).ids) : Moving t f (exec (Run.prev id) f).2
  | update {id : NodeId} (live : id ∈ (f.tree (.text t)).ids) (position : Size) :
    Moving t f (exec (Run.update id position) f).2
  | elsewhere {g : Forest} (h : f.Elsewhere t g) : Moving t f g

/-- One step that neither restructures the tree of a text nor uses the
operations of the text, and the forest it leaves. It may fail. -/
inductive Quiet (t : TextId) (f : Forest) : Forest → Prop
  | moving {g : Forest} (h : Moving t f g) : Quiet t f g
  | setFlags {id : NodeId} (live : id ∈ (f.tree (.text t)).ids) (flags : Flags) :
    Quiet t f (exec (Run.setFlags id flags) f).2
  | setPlist {id : NodeId} (live : id ∈ (f.tree (.text t)).ids) (plist : PropertyList) :
    Quiet t f (exec (Run.setPlist id plist) f).2
  | put {id : NodeId} (live : id ∈ (f.tree (.text t)).ids) (key value : String) :
    Quiet t f (exec (Run.put id key value) f).2
  | removeProperty {id : NodeId} (live : id ∈ (f.tree (.text t)).ids) (key : String) :
    Quiet t f (exec (Run.removeProperty id key) f).2
  | copyProperties {id : NodeId} (live : id ∈ (f.tree (.text t)).ids) (source : NodeId) :
    Quiet t f (exec (Run.copyProperties id source) f).2

/-- The forests that a traversal of a text may come to between visits. It begins with its session.
The caches that it sets itself are exact before, so that setting them changes nothing. -/
inductive Underway {σ : Type} (t : TextId) (visit : NodeId → Client σ Unit) (f : Forest) :
    Forest → Prop
  | opened {g : Forest} (h : exec (Run.openSession t .write) f = (.ok ⟨⟩, g)) :
    Underway t visit f g
  | visited {g : Forest} (h : Underway t visit f g) {id : NodeId}
    (live : id ∈ (f.tree (.text t)).ids) (s : σ) :
    Underway t visit f (exec (visit id) (s, g)).2.2

/-- Every visit of a client to a node of a text, in the course of a traversal of the text, is a
finite sequence of steps of a kind. -/
def VisitsBy {σ : Type} (Kind : Forest → Forest → Prop) (t : TextId) (f : Forest)
    (visit : NodeId → Client σ Unit) : Prop :=
  ∀ g, Underway t visit f g → ∀ id ∈ (f.tree (.text t)).ids, ∀ s,
    ReflTransGen Kind g (exec (visit id) (s, g)).2.2

/-- What happens elsewhere may take new identities, and leaves the reading
of a text as it is otherwise. -/
theorem Forest.Reads.elsewhere {f g : Forest} {t : TextId} {v : Reading} (hf : f.Reads t v)
    (h : f.Elsewhere t g) : g.Reads t { v with nextId := g.nextId } := by
  have hn : v.nextId ≤ g.nextId := hf.nextId ▸ h.nextId
  obtain ⟨x, hx, hstart, hcontent, hword, hshape⟩ := hf.text
  refine ⟨⟨hf.valid.small, hf.valid.fits, hf.valid.placed, hf.valid.covers, hf.valid.distinct,
    fun id hid => Nat.lt_of_lt_of_le (hf.valid.fresh id hid) hn⟩,
    ⟨x, h.text.trans hx, hstart, hcontent, hword, ⟨hshape.spans, hshape.weighed, hshape.linked,
    hshape.homed⟩⟩, h.settings.trans hf.settings, rfl, fun p hp id hid => ?_⟩
  have := h.apart p hp id hid
  rwa [hf.ids] at this

/-- The frame of the tree has the nodes of the reading. -/
theorem Forest.Reads.ids_frame {f : Forest} {t : TextId} {v : Reading} (hf : f.Reads t v) :
    (f.tree (.text t)).frame.ids = v.ids := by
  rw [Tree.ids_frame, hf.ids]

namespace Run

variable {t : TextId} {v : Reading} {f g : Forest} {frame : Tree} {id : NodeId}

/-- A live node has a span in the reading. -/
theorem cut_of_live (hf : f.Reads t v) (live : id ∈ (f.tree (.text t)).ids) :
    ∃ pre x post, v.spans = pre ++ x :: post ∧ x.id = id := by
  rw [hf.ids, Reading.ids, List.mem_map] at live
  obtain ⟨x, hx, rfl⟩ := live
  obtain ⟨pre, post, hcut⟩ := List.append_of_mem hx
  exact ⟨pre, x, post, hcut, rfl⟩

/-- Setting marks keeps the frame of the tree. -/
theorem framed_modifyData (hf : f.Framed t v frame) (live : id ∈ (f.tree (.text t)).ids)
    (e : Marking) : (exec (modifyData id (·.marked e)) f).2.Framed t v frame := by
  obtain ⟨nextId, spans, hr⟩ := hf.hosts
  obtain ⟨pre, x, post, hcut, rfl⟩ := cut_of_live hr live
  obtain ⟨c, hc, htree, -⟩ := exec_locate_of_reads hr hcut
  obtain ⟨f', hexec, hf'⟩ := does_modifyData hr.valid hcut e f hr
  obtain ⟨y, hy, -⟩ := hr.text
  rw [hexec]
  refine ⟨⟨_, _, hf'⟩, ?_⟩
  rw [modifyData, modifyNode, exec_bind_ok hc, exec_plant, Prod.mk.injEq] at hexec
  rw [← hexec.2, Forest.tree_text (Forest.texts_plant _ y hy), ← hf.frame, ← htree]
  exact Tree.frame_plug_congr c.path rfl

/-- Copying sets marks, or does nothing. -/
theorem copyProperties_cases (id source : NodeId) (f : Forest) :
    (exec (copyProperties id source) f).2 = f ∨
      ∃ e : Marking, (exec (copyProperties id source) f).2 =
        (exec (modifyData id (·.marked e)) f).2 := by
  rw [copyProperties]
  rcases exec_locate_cases id f with ⟨site, h⟩ | ⟨e, h⟩
  · rcases exec_locate_cases source f with ⟨from', h'⟩ | ⟨e, h'⟩
    · rw [exec_bind_ok h, exec_bind_ok h']
      dsimp only
      split
      · exact .inl rfl
      · exact .inr ⟨fun _ _ => (from'.cursor.node.data.flags, from'.cursor.node.data.plist), rfl⟩
    · rw [exec_bind_ok h, exec_bind_error h']
      exact .inl rfl
  · rw [exec_bind_error h]
    exact .inl rfl

/-- A walk to a position changes nothing, wherever it ends. -/
theorem exec_update_same (hf : f.Reads t v) (live : id ∈ (f.tree (.text t)).ids) (p : Size) :
    (exec (update id p) f).2 = f := by
  obtain ⟨pre, x, post, hcut, rfl⟩ := cut_of_live hf live
  by_cases hin : v.start.toNat ≤ p.toNat ∧ p.toNat < v.start.toNat + v.size
  · obtain ⟨pre', y, post', hy, hown⟩ := exists_owner hf.valid.placed hin.1
      (by rw [hf.valid.covers (by simp [hcut])]; exact hin.2)
    rw [exec_update hf hcut hy hown]
  · rw [exec_update_outside hf hcut hin]

/-- **A move** keeps the reading of the text, but for identities that are
taken elsewhere, and the tree. -/
theorem reads_of_moving (hf : f.Reads t v) (h : Moving t f g) :
    ∃ nextId, g.Reads t { v with nextId } ∧ g.tree (.text t) = f.tree (.text t) := by
  cases h with
  | next live =>
    obtain ⟨pre, x, post, hcut, rfl⟩ := cut_of_live hf live
    rw [exec_next hf hcut]
    exact ⟨_, hf, rfl⟩
  | prev live =>
    obtain ⟨pre, x, post, hcut, rfl⟩ := cut_of_live hf live
    rw [exec_prev hf hcut]
    exact ⟨_, hf, rfl⟩
  | update live p =>
    rw [exec_update_same hf live]
    exact ⟨_, hf, rfl⟩
  | elsewhere h => exact ⟨_, hf.elsewhere h, by simp only [Forest.tree, h.text]⟩

/-- A quiet step is a move, or it sets marks of a live node, or it does nothing. -/
theorem quiet_cases (h : Quiet t f g) :
    Moving t f g ∨ g = f ∨ ∃ id ∈ (f.tree (.text t)).ids, ∃ e : Marking,
      g = (exec (modifyData id (·.marked e)) f).2 := by
  cases h with
  | moving h => exact .inl h
  | @setFlags id live flags => exact .inr (.inr ⟨id, live, fun _ plist => (flags, plist), rfl⟩)
  | @setPlist id live plist => exact .inr (.inr ⟨id, live, fun flags _ => (flags, plist), rfl⟩)
  | @put id live key value =>
    exact .inr (.inr ⟨id, live, fun flags plist => (flags, plist.put key value), rfl⟩)
  | @removeProperty id live key =>
    obtain ⟨site, h⟩ | ⟨e, h⟩ := exec_locate_cases id f
    · rw [removeProperty, exec_bind_ok h, exec_bind_same fun _ _ => rfl]
      exact .inr (.inr ⟨id, live, fun flags _ =>
        (flags, (site.cursor.node.data.plist.remove key).1), rfl⟩)
    · rw [removeProperty, exec_bind_error h]
      exact .inr (.inl rfl)
  | @copyProperties id live source =>
    obtain h | ⟨e, h⟩ := copyProperties_cases id source f
    · exact .inr (.inl h)
    · exact .inr (.inr ⟨id, live, e, h⟩)

/-- **A quiet step** keeps the frame of the tree, and all of the text but
the marks. -/
theorem framed_of_quiet (hf : f.Framed t v frame) (h : Quiet t f g) : g.Framed t v frame := by
  obtain h | rfl | ⟨id, live, e, rfl⟩ := quiet_cases h
  · obtain ⟨nextId, spans, hr⟩ := hf.hosts
    obtain ⟨nextId, hg, htree⟩ := reads_of_moving hr h
    exact ⟨⟨_, _, hg⟩, htree ▸ hf.frame⟩
  · exact hf
  · exact framed_modifyData hf live e

variable {σ : Type} {visit : NodeId → Client σ Unit}

/-- What every step of a kind keeps, a sequence of them keeps. -/
theorem kept_by_steps {Kind : Forest → Forest → Prop} {P : Forest → Prop}
    (hkind : ∀ f g, P f → Kind f g → P g) (hf : P f) (h : ReflTransGen Kind f g) : P g := by
  induction h with
  | refl => exact hf
  | tail _ hstep ih => exact hkind _ _ ih hstep

/-- What every visit keeps, the loop over them keeps. -/
theorem kept_by_forM {α : Type} {P : Forest → Prop} {todo : List α} {visit : α → Client σ Unit}
    (hvisit : ∀ x ∈ todo, ∀ s f, P f → P (exec (visit x) (s, f)).2.2) (hf : P f) (s : σ) :
    P (exec (forM todo visit) (s, f)).2.2 := by
  induction todo generalizing s f with
  | nil => exact hf
  | cons x rest ih =>
    have hnext := hvisit x List.mem_cons_self s f hf
    rw [List.forM_cons, exec_bind]
    generalize exec (visit x) (s, f) = result at hnext ⊢
    obtain ⟨r, s', f'⟩ := result
    cases r with
    | error e => exact hnext
    | ok _ => exact ih (fun y hy => hvisit y (List.mem_cons_of_mem _ hy)) hnext s'

/-- What every step of a kind keeps, the visits made of such steps keep. -/
theorem kept_by_visits {Kind : Forest → Forest → Prop} {P : Forest → Prop}
    (visits : VisitsBy Kind t f visit) (hkind : ∀ g h, P g → Kind g h → P h)
    (hid : id ∈ (f.tree (.text t)).ids) (s : σ) (hg : Underway t visit f g ∧ P g) :
    Underway t visit f (exec (visit id) (s, g)).2.2 ∧ P (exec (visit id) (s, g)).2.2 :=
  ⟨hg.1.visited hid s, kept_by_steps hkind hg.2 (visits g hg.1 id hid s)⟩

/-! ## Traversals of a text -/

/-- **What a traversal keeps.** What holds when the session of a traversal is open, and is kept by
each visit with the cache that is set before it, holds when the session is closed. -/
theorem kept_by_traversal {P : Forest → Prop} {x : Text}
    (hopen : exec (openSession t .write) f = (.ok ⟨⟩, g)) (hx : g.texts[t]? = some x)
    (hframe : x.root.frame = frame) (hP : ∀ h, P h → h.Bears (.text t) frame)
    (hd : frame.ids.Nodup)
    (hvisit : ∀ z ∈ starts x.beginOffset frame.spans, ∀ s h, P h →
      P (exec (visitAt visit z) (s, h)).2.2)
    (hg : P g) (s : σ) :
    ∃ h, P h ∧
      (exec (traverseIntervals t visit) (s, f)).2.2 = (exec (closeSession t .write) h).2 := by
  rw [traverseIntervals, exec_withSession_client hopen]
  refine ⟨_, ?_, rfl⟩
  rw [exec_liftM_bind_ok (exec_text hx)]
  cases hroot : x.root.id? with
  | none => exact hg
  | some root =>
    have htop : frame.subtree? root = some frame :=
      Tree.subtree?_top (by rw [← hframe, Tree.id?_frame, hroot])
    dsimp only
    rw [exec_traverse_starts hP hd htop x.beginOffset hvisit hg]
    exact kept_by_forM hvisit hg s

/-- **A traversal of a text** with a considerate client, in a session that
is admitted, is the loop over its nodes from left to right. The tracker is
afterwards as it was. -/
theorem exec_traverseIntervals (hf : f.Reads t v) (hadm : v.Admits .write)
    (hvisit : ∀ w, Considerate t { v with word := w } (f.tree (.text t)).frame visit) (s : σ) :
    ∃ w g, Forest.Reads g t { v with word := w } ∧ g.tree (.text t) = f.tree (.text t) ∧
      ∀ r s' g' v', exec (forM v.ids visit) (s, g) = (r, (s', g')) →
        g'.Reads t { v' with word := w } → v'.settings = v.settings → v'.word = v.word →
        ∃ f', exec (traverseIntervals t visit) (s, f) = (r, (s', f')) ∧ f'.Reads t v' ∧
          f'.tree (.text t) = g'.tree (.text t) := by
  obtain ⟨w, g, hopen, hg, htree, hclose⟩ := exec_session hf hadm
  refine ⟨w, g, hg, htree, fun r s' g' v' hloop hg' hsettings hword => ?_⟩
  obtain ⟨f', hclosed, hf', htree'⟩ := hclose g' v' hg' hsettings hword
  refine ⟨f', ?_, hf', htree'⟩
  have hfinal : exec (liftM (closeSession t .write) : Client σ PUnit) (s', g') =
      (.ok ⟨⟩, (s', f')) := by
    rw [exec_liftM, hclosed]
  rw [traverseIntervals, withSession, exec_liftM_bind_ok hopen]
  refine exec_tryFinally ?_ hfinal
  obtain ⟨x, hx, hstart, -, -, hshape⟩ := hg.text
  rw [exec_liftM_bind_ok (exec_text hx)]
  have hids : g.Framed t { v with word := w } (f.tree (.text t)).frame :=
    ⟨hg.hosts, by rw [htree]⟩
  cases hr : x.root.id? with
  | none =>
    have hnil : x.root = .nil := by
      cases hx : x.root with
      | nil => rfl
      | node n l r => simp [hx, Tree.id?, Tree.head?] at hr
    have hnone : v.ids = [] := by
      rw [hnil] at hshape
      rw [Reading.ids, ← hshape.spans]
      rfl
    rw [hnone] at hloop
    exact hloop
  | some root =>
    dsimp only
    rw [hstart, exec_traverse (hvisit w) hids (by rw [Forest.tree_text hx, hr]), hf.ids_frame]
    exact hloop

/-- A traversal in a session that is refused does nothing. -/
theorem exec_traverseIntervals_refused (hf : f.Reads t v) (hadm : ¬ v.Admits .write) (s : σ) :
    ∃ o, exec (traverseIntervals t visit) (s, f) = (.error (.overlap o), (s, f)) := by
  rcases exec_openSession hf .write with ⟨hyes, -⟩ | ⟨-, o, hopen⟩
  · exact absurd hyes hadm
  · refine ⟨o, ?_⟩
    rw [traverseIntervals, withSession, exec_liftM_bind_error hopen]

end Run

end SpanTree
