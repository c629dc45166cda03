/-
SpanTree.Proofs.Reentrance — traversals are protected from what their
callbacks do.

Where sessions are tracked, a text that is being traversed has a writer
open, and every operation of the text is refused for as long as it is.
What a callback can still do, with this text or with others, is `Calm`:
it leaves the words of all trackers and, of the trees of texts with open
sessions, the frames. So the traversal visits the nodes that the tree had
when it began, at the positions where they start.

The two facts need each other. A callback may traverse other texts, and
that these traversals are calm is what the induction over errands gives.
`Entry.Protected` is what holds of every operation and of every traversal
in the log of an errand, and `traversals_protected` is the theorem about
all of them.
-/
import SpanTree.Proofs.Clients
import SpanTree.Proofs.Errands
import SpanTree.Proofs.Handling

namespace SpanTree

/-! ## Frames and skeletons -/

namespace Tree

@[simp] theorem frame_skeleton (t : Tree) : t.skeleton.frame = t.frame := by
  induction t with
  | nil => rfl
  | node n l r ihl ihr => rw [skeleton, frame, ihl, ihr]; rfl

theorem frame_congr {t u : Tree} (h : u.skeleton = t.skeleton) : u.frame = t.frame := by
  rw [← frame_skeleton, h, frame_skeleton]

end Tree

/-! ## Words of trackers -/

/-- The word of a tracker with a writer. -/
def Tracker.held : UInt32 := sessionUnit ||| writerBit

namespace Forest

variable {f g k : Forest} {p : Place} {t : TextId} {id : NodeId}

/-- The word of the tracker of a text. -/
def word? (f : Forest) (t : TextId) : Option UInt32 := f.texts[t]?.map (·.access.word)

/-- A session is open on the text. -/
def Busy (f : Forest) (t : TextId) : Prop := ∃ w, f.word? t = some w ∧ w ≠ 0

theorem word?_of_covers (h : g.covers = f.covers) (t : TextId) : g.word? t = f.word? t := by
  have hword (f : Forest) : f.word? t = f.covers[t]?.map (·.2.2.2) := by
    rw [covers, List.getElem?_map, Option.map_map]
    rfl
  rw [hword, hword, h]

theorem busy_of_held (h : f.word? t = some Tracker.held) : f.Busy t := ⟨_, h, by decide⟩

/-! ## Calm operations -/

/-- The second forest is the first after operations that respect open sessions. -/
structure Calm (f g : Forest) : Prop where
  upright : g.Upright
  frames : ∀ t, f.Busy t → (g.tree (.text t)).frame = (f.tree (.text t)).frame
  settings : g.settings = f.settings
  covers : g.covers = f.covers

theorem Calm.refl (hf : f.Upright) : f.Calm f := ⟨hf, fun _ _ => rfl, rfl, rfl⟩

theorem Calm.trans (h : f.Calm g) (h' : g.Calm k) : f.Calm k where
  upright := h'.upright
  frames t ht := by
    have hg : g.Busy t := by rwa [Busy, word?_of_covers h.covers]
    rw [h'.frames t hg, h.frames t ht]
  settings := h'.settings.trans h.settings
  covers := h'.covers.trans h.covers

/-- Work on one tree is calm if it is the tree of a text without sessions, or keeps the frame. -/
theorem Reworked.calm (h : f.Reworked p g) (hf : f.Upright)
    (hp : ∀ t, p = .text t → f.Busy t → (g.tree p).frame = (f.tree p).frame) : f.Calm g where
  upright := hf.reworked h
  frames t ht := by
    by_cases htp : p = .text t
    · subst htp
      exact hp t rfl ht
    · rw [h.elsewhere _ (Ne.symm htp)]
  settings := h.settings
  covers := h.covers

/-- A traversal that began on a busy text finds the frame it began with. -/
theorem Calm.bears (h : f.Calm g) (ht : f.Busy t) :
    g.Bears (.text t) (f.tree (.text t)).frame where
  apart q hq id hid := by
    rw [← h.frames t ht, Tree.ids_frame] at hid
    exact h.upright.apart (.text t) q (Ne.symm hq) id hid
  frame := h.frames t ht

end Forest

namespace Run

variable {α : Type} {f g : Forest} {p : Place} {t : TextId} {id : NodeId} {kind : SessionKind}

/-- A change to a payload that keeps the weight is calm. -/
theorem calm_modifyNode (hf : f.Upright) {k : Cursor → Cursor}
    (hk : ∀ c : Cursor, (k c).toTree.skeleton = c.toTree.skeleton) :
    f.Calm (exec (modifyNode id k) f).2 := by
  cases hc : f.locate? id with
  | none =>
    rw [modifyNode, exec_bind_error (exec_locate_none hc)]
    exact .refl hf
  | some site =>
    obtain ⟨p, c⟩ := site
    obtain ⟨htree, -, hid⟩ := Forest.locate?_some hc
    refine (reworked_modifyNode hf hc (hk c)).calm hf fun t _ _ => ?_
    rw [exec_modifyNode hc, Forest.tree_plant_of_node (Tree.isNil_of_mem_ids hid), ← htree]
    exact Tree.frame_congr (hk c)

theorem calm_modifyData (hf : f.Upright) {e : Payload → Payload}
    (he : ∀ d, (e d).total = d.total) : f.Calm (exec (modifyData id e) f).2 :=
  calm_modifyNode hf fun _ => Cursor.skeleton_mapData (he _)

/-- An edit of flags or properties sets marks, or does nothing. -/
theorem exec_mark_cases (m : Mark) (f : Forest) :
    (exec m.run f).2 = f ∨ ∃ id, ∃ e : Marking,
      (exec m.run f).2 = (exec (modifyData id (·.marked e)) f).2 := by
  cases m with
  | setFlags id flags =>
    rw [Mark.run, exec_bind_pure]
    exact .inr ⟨id, fun _ plist => (flags, plist), rfl⟩
  | setPlist id plist =>
    rw [Mark.run, exec_bind_pure]
    exact .inr ⟨id, fun flags _ => (flags, plist), rfl⟩
  | put id key value =>
    rw [Mark.run, exec_bind_pure]
    exact .inr ⟨id, fun flags plist => (flags, plist.put key value), rfl⟩
  | removeProperty id key =>
    rw [Mark.run, exec_bind_pure, removeProperty]
    rcases exec_locate_cases id f with ⟨site, h⟩ | ⟨e, h⟩
    · rw [exec_bind_ok h, exec_bind_pure]
      exact .inr ⟨id, fun flags _ => (flags, (site.cursor.node.data.plist.remove key).1), rfl⟩
    · rw [exec_bind_error h]
      exact .inl rfl
  | copyProperties id source =>
    rw [Mark.run, exec_bind_pure]
    exact (copyProperties_cases id source f).imp_right fun h => ⟨id, h⟩

/-- An edit of flags or properties is calm. -/
theorem calm_mark (hf : f.Upright) (m : Mark) : f.Calm (exec m.run f).2 := by
  rcases exec_mark_cases m f with h | ⟨id, e, h⟩
  · rw [h]
    exact .refl hf
  · rw [h]
    exact calm_modifyData hf fun _ => rfl

/-! ## Refused sessions -/

/-- No session is admitted beside a writer. -/
theorem exec_openSession_held (ht : f.settings.tracking = true)
    (hw : f.word? t = some Tracker.held) (hkind : kind ≠ .none) :
    ∃ recent, exec (openSession t kind) f =
      (.error (.overlap ⟨kind, 1, true, recent⟩), f) := by
  obtain ⟨x, hx, hword⟩ := Option.map_eq_some_iff.mp hw
  have hopen := exec_openSession_tracked ht hx kind
  refine ⟨x.access.recent, ?_⟩
  cases kind with
  | none => exact absurd rfl hkind
  | read =>
    rw [hopen]
    simp only [Tracker.openSession, Tracker.openRead, Tracker.writerOpen, Tracker.refusal, hword]
    rfl
  | write =>
    rw [hopen]
    simp only [Tracker.openSession, Tracker.openWrite, Tracker.refusal, Tracker.writerOpen, hword]
    rfl

/-- No writer is admitted beside another session. -/
theorem exec_openSession_busy (ht : f.settings.tracking = true) (hb : f.Busy t) :
    ∃ o, exec (openSession t .write) f = (.error (.overlap o), f) := by
  obtain ⟨w, hw, hne⟩ := hb
  obtain ⟨x, hx, rfl⟩ := Option.map_eq_some_iff.mp hw
  have hopen := exec_openSession_tracked ht hx .write
  refine ⟨x.access.refusal .write, ?_⟩
  rw [hopen, Tracker.openSession, Tracker.openWrite, if_neg hne]

/-- An operation in a session of a writer is calm if it works on the tree of the text. -/
theorem calm_write {body : Run α} (hf : f.Upright) (ht : f.settings.tracking = true)
    (hwork : f.Reworked (.text t) (exec (withSession t .write body) f).2) :
    f.Calm (exec (withSession t .write body) f).2 := by
  refine hwork.calm hf fun t' ht' hb => ?_
  cases ht'
  obtain ⟨o, hopen⟩ := exec_openSession_busy ht hb
  rw [exec_withSession_error hopen]

/-- An operation in a session of a reader is calm if it only looks. -/
theorem calm_read {body : Run α} (hf : f.Upright)
    (hwork : f.Reworked (.text t) (exec (withSession t .read body) f).2)
    (hbody : ∀ g, (exec body g).2 = g) : f.Calm (exec (withSession t .read body) f).2 := by
  refine hwork.calm hf fun t' ht' _ => ?_
  cases ht'
  rcases session_cases t .read f with ⟨e, hopen, -⟩ | ⟨f', hopen, hsame, hclose⟩
  · rw [exec_withSession_error hopen]
  · obtain ⟨g, hclosed, hsame', -⟩ := hclose f' rfl rfl
    rw [exec_withSession_ok hopen, hbody, hclosed, hsame'.tree, hsame.tree]

/-- The operations of a text are calm. -/
theorem calm_textCall (hf : f.Upright) (ht : f.settings.tracking = true) (c : TextCall) :
    f.Calm (exec c.run f).2 := by
  cases c with
  | content t =>
    rw [TextCall.run, exec_bind_pure]
    exact calm_read hf (reworked_content hf t) fun g => by
      rw [exec_bind_pure]
      exact exec_text_same t g
  | intervals t =>
    rw [TextCall.run, exec_bind_pure]
    exact calm_write hf ht (reworked_intervals hf t)
  | findInterval t position =>
    rw [TextCall.run, exec_bind_pure]
    exact calm_write hf ht (reworked_findInterval hf t position)
  | balanceIntervals t =>
    rw [TextCall.run, exec_bind_pure]
    exact calm_write hf ht (reworked_balanceIntervals hf t)
  | checkIntervals t =>
    rw [TextCall.run, exec_bind_pure]
    exact calm_read hf (reworked_checkIntervals hf t) (exec_checkText_same t)

/-- On a text with a writer they are refused. -/
theorem exec_textCall_held (ht : f.settings.tracking = true) (c : TextCall)
    (hw : f.word? c.text = some Tracker.held) :
    ∃ recent, exec c.run f = (.error (.overlap ⟨c.kind, 1, true, recent⟩), f) := by
  have hkind : c.kind ≠ .none := by cases c <;> simp [TextCall.kind]
  obtain ⟨recent, hopen⟩ := exec_openSession_held ht hw hkind
  refine ⟨recent, ?_⟩
  have hsession {α β : Type} {body : Run α} {k : α → Run β} :
      exec (withSession c.text c.kind body >>= k) f =
        (.error (.overlap ⟨c.kind, 1, true, recent⟩), f) :=
    exec_bind_error (exec_withSession_error hopen) k
  cases c <;> exact hsession

/-- A writer was admitted where no session was open. -/
theorem word?_of_openSession (ht : f.settings.tracking = true)
    (h : exec (openSession t .write) f = (.ok ⟨⟩, g)) :
    f.word? t = some 0 ∧ g.word? t = some Tracker.held ∧ ∀ i, i ≠ t → g.word? i = f.word? i := by
  cases hx : f.texts[t]? with
  | none =>
    rw [openSession, exec_bind_error (exec_text_none hx)] at h
    cases h
  | some x =>
    rw [exec_openSession_tracked ht hx, Tracker.openSession, Tracker.openWrite] at h
    by_cases hw : x.access.word = 0
    · rw [if_pos hw] at h
      cases h
      refine ⟨by simp [Forest.word?, hx, hw], ?_, fun i hi => ?_⟩
      · simp [Forest.word?, Forest.modifyText, hx, Tracker.held]
      · simp [Forest.word?, Forest.modifyText, Ne.symm hi]
    · rw [if_neg hw] at h
      cases h

/-- A session is a change of the tracker. -/
theorem text_of_openSession (h : exec (openSession t kind) f = (.ok ⟨⟩, g)) :
    ∃ x access, f.texts[t]? = some x ∧ g.texts[t]? = some { x with access } := by
  cases hx : f.texts[t]? with
  | none =>
    rw [openSession, exec_bind_error (exec_text_none hx)] at h
    cases h
  | some x =>
    cases ht : f.settings.tracking with
    | false =>
      rw [exec_openSession_untracked ht hx] at h
      cases h
      exact ⟨x, x.access, rfl, hx⟩
    | true =>
      rw [exec_openSession_tracked ht hx] at h
      cases ha : x.access.openSession kind with
      | error o =>
        rw [ha] at h
        cases h
      | ok access =>
        rw [ha] at h
        cases h
        exact ⟨x, access, rfl, by simp [Forest.modifyText, hx]⟩

/-- The cache of a node is set. -/
theorem exec_setCache (hf : f.Upright) (hid : id ∈ (f.tree p).ids) (position : Size) :
    ∃ g, exec (modifyNode id (·.withPosition position)) f = (.ok ⟨⟩, g) ∧ f.Calm g ∧
      g.cache id = position := by
  have halone : ∀ q, q ≠ p → id ∉ (f.tree q).ids :=
    fun q hq hmem => hf.apart p q (Ne.symm hq) id hid hmem
  obtain ⟨c, hc, htree, hnode⟩ := Forest.exists_cursor hid halone
  have hexec := exec_modifyNode hc (·.withPosition position)
  have hcalm : f.Calm (exec (modifyNode id (·.withPosition position)) f).2 :=
    calm_modifyNode hf (·.skeleton_withPosition position)
  rw [hexec] at hcalm
  refine ⟨_, hexec, hcalm, ?_⟩
  have hplant := Forest.tree_plant_of_node (Tree.isNil_of_mem_ids hid)
    (c.withPosition position).toTree
  have hd : (c.withPosition position).toTree.ids.Nodup := hplant ▸ hcalm.upright.distinct p
  have hmem : id ∈ ((f.plant (c.withPosition position).toTree p).tree p).ids := by
    rw [hplant, ← Tree.ids_frame, Tree.frame_congr (c.skeleton_withPosition position),
      Tree.ids_frame, htree]
    exact hid
  have hsub : (f.plant (c.withPosition position).toTree p).subtree? id =
      some (c.withPosition position).subtree := by
    rw [Forest.subtree?_eq hmem fun q hq hq' => hcalm.upright.apart p q (Ne.symm hq) id hmem hq',
      hplant]
    have hown : id ∈ (c.withPosition position).subtree.ids := by
      simp [Cursor.subtree, Cursor.withPosition, hnode]
    rw [Cursor.toTree, Tree.subtree?_plug hd hown]
    simp [Cursor.subtree, Cursor.withPosition, Tree.subtree?, hnode]
  rw [Forest.cache, hsub]
  rfl

end Run

/-! ## Callbacks -/

/-- What a callback may do, beside further traversals. -/
inductive Callback where
  | call (c : TextCall)
  | mark (m : Mark)
  | look (id : NodeId)

def Callback.run : Callback → Run Response
  | call c => c.run
  | mark m => m.run
  | look id => do pure (.span (← Run.span id))

theorem Run.calm_callback {f : Forest} (hf : f.Upright) (ht : f.settings.tracking = true)
    (c : Callback) : f.Calm (exec c.run f).2 := by
  cases c with
  | call c => exact calm_textCall hf ht c
  | mark m => exact calm_mark hf m
  | look id =>
    rw [Callback.run, exec_bind_pure, exec_span_same]
    exact .refl hf

/-- What holds of an entry of the log of an errand. An operation of a text that is being traversed
is refused, with one session and a writer reported, and changes nothing. So is a traversal of it,
which visits nothing. A traversal of a text without sessions visits the nodes of the tree as it was,
each once, in the order from left to right and with its cache at the position where it starts, up
to the first visit that fails. Afterwards the words of all trackers are what they were. -/
def Entry.Protected : Entry Callback Response → Prop
  | .task busy made before result after =>
    after.covers = before.covers ∧
      ∀ c, made = .call c → c.text ∈ busy →
        after = before ∧ ∃ recent, result = .error (.overlap ⟨c.kind, 1, true, recent⟩)
  | .traversal busy t before result after visits =>
    after.covers = before.covers ∧
      (t ∈ busy →
        after = before ∧ visits = [] ∧
          ∃ recent, result = .error (.overlap ⟨.write, 1, true, recent⟩)) ∧
      ∀ x, before.texts[t]? = some x → x.access.word = 0 →
        (visits.map (·.id)).Nodup ∧ Course (starts x.beginOffset x.root.spans) visits result

/-- The texts are being traversed, in sessions that are tracked. -/
structure Forest.Guarded (f : Forest) (busy : List TextId) : Prop where
  upright : f.Upright
  tracking : f.settings.tracking = true
  held : ∀ t ∈ busy, f.word? t = some Tracker.held

theorem Forest.Guarded.calm {f g : Forest} {busy : List TextId} (hf : f.Guarded busy)
    (h : f.Calm g) : g.Guarded busy where
  upright := h.upright
  tracking := by rw [h.settings, hf.tracking]
  held t ht := by rw [Forest.word?_of_covers h.covers, hf.held t ht]

variable {σ : Type}

/-- From one state of a caller to another: what happened was calm, and is logged, and protected. -/
structure Minds (x y : Log Callback Response σ × Forest) : Prop where
  calm : x.2.Calm y.2
  entries : ∃ new, y.1.entries = x.1.entries ++ new ∧ ∀ e ∈ new, e.Protected

namespace Minds

variable {x y z : Log Callback Response σ × Forest}

theorem of_same (h : x.2.Calm y.2) (hentries : y.1.entries = x.1.entries) : Minds x y :=
  ⟨h, [], by rw [hentries, List.append_nil], by simp⟩

theorem trans (h : Minds x y) (h' : Minds y z) : Minds x z := by
  obtain ⟨new, hnew, hp⟩ := h.entries
  obtain ⟨new', hnew', hp'⟩ := h'.entries
  refine ⟨h.calm.trans h'.calm, new ++ new', by rw [hnew', hnew, List.append_assoc], ?_⟩
  intro e he
  rcases List.mem_append.mp he with he | he
  · exact hp e he
  · exact hp' e he

/-- One more entry. -/
theorem add (h : Minds x y) {e : Entry Callback Response} (he : e.Protected)
    (hz : z.1.entries = y.1.entries ++ [e]) (hforest : z.2 = y.2) : Minds x z := by
  refine h.trans ⟨?_, [e], hz, by simpa using he⟩
  rw [hforest]
  exact .refl h.calm.upright

end Minds

namespace Run

variable {f : Forest} {t : TextId} {busy : List TextId}
  {visit : NodeId → Client (Log Callback Response σ) Unit}

/-- A visitor who notes the node with its cache, and is otherwise calm as long as the texts are
being traversed. -/
def Notes (visit : NodeId → Client (Log Callback Response σ) Unit) (busy : List TextId) : Prop :=
  ∀ id log f, Forest.Guarded f busy →
    let x := exec (visit id) (log, f)
    Minds (log, f) x.2 ∧ x.2.1.visits = log.visits ++ [⟨id, f.cache id, x.1⟩]

/-- One visit notes the position at which it is made. -/
theorem minds_visitAt (hvisit : Notes visit busy) (hf : f.Guarded busy) {x : NodeId × Size}
    (hid : x.1 ∈ (f.tree (.text t)).ids) (log : Log Callback Response σ) :
    let y := exec (visitAt visit x) (log, f)
    Minds (log, f) y.2 ∧ y.2.1.visits = log.visits ++ [⟨x.1, x.2, y.1⟩] := by
  intro y
  obtain ⟨g, hset, hcalm, hcache⟩ := exec_setCache hf.upright hid x.2
  have hy : y = exec (visit x.1) (log, g) := exec_liftM_bind_ok hset
  obtain ⟨hminds, hvisits⟩ := hvisit x.1 log g (hf.calm hcalm)
  have hfirst : Minds (log, f) (log, g) := .of_same hcalm rfl
  rw [hy]
  exact ⟨hfirst.trans hminds, by rw [hvisits, hcache]⟩

/-- The visits to nodes of a text that is being traversed. As many are made as go well, and
one more if one fails. -/
theorem minds_forM (hvisit : Notes visit busy) (ht : t ∈ busy) (todo : List (NodeId × Size))
    (hf : f.Guarded busy) (hids : ∀ x ∈ todo, x.1 ∈ (f.tree (.text t)).ids)
    (log : Log Callback Response σ) :
    let y := exec (forM todo (visitAt visit)) (log, f)
    Minds (log, f) y.2 ∧
      ∃ made, y.2.1.visits = log.visits ++ made ∧ Course todo made y.1 := by
  induction todo generalizing f log with
  | nil => exact ⟨.of_same (.refl hf.upright) rfl, [], (List.append_nil _).symm, .done⟩
  | cons x rest ih =>
    obtain ⟨hstep, hnoted⟩ := minds_visitAt hvisit hf (hids x List.mem_cons_self) log
    rw [List.forM_cons, exec_bind]
    generalize exec (visitAt visit x) (log, f) = result at hstep hnoted
    obtain ⟨r, log', g⟩ := result
    cases r with
    | error e => exact ⟨hstep, _, hnoted, .failed x rest e⟩
    | ok _ =>
      have hg := hf.calm hstep.calm
      have hids' : ∀ y ∈ rest, y.1 ∈ (g.tree (.text t)).ids := by
        intro y hy
        have hframe := hstep.calm.frames t (Forest.busy_of_held (hf.held t ht))
        rw [← Tree.ids_frame, hframe, Tree.ids_frame]
        exact hids y (List.mem_cons_of_mem _ hy)
      obtain ⟨hrest, made, hmade, hcourse⟩ := ih hg hids' log'
      refine ⟨hstep.trans hrest, _, ?_, hcourse.next x⟩
      rw [hmade, hnoted, List.append_assoc]
      rfl

/-- A traversal of the tree of a text that is guarded. -/
theorem minds_traverse (hvisit : Notes visit busy) (ht : t ∈ busy) (hf : f.Guarded busy)
    {root : NodeId} (hroot : (f.tree (.text t)).id? = some root) (position : Size)
    (log : Log Callback Response σ) :
    let y := exec (traverse root position visit) (log, f)
    let todo := starts position (f.tree (.text t)).spans
    Minds (log, f) y.2 ∧
      ∃ made, y.2.1.visits = log.visits ++ made ∧ Course todo made y.1 := by
  intro y todo
  have hbusy := Forest.busy_of_held (hf.held t ht)
  have hd : (f.tree (.text t)).frame.ids.Nodup := by
    rw [Tree.ids_frame]
    exact hf.upright.distinct _
  have htop : (f.tree (.text t)).frame.subtree? root = some (f.tree (.text t)).frame := by
    cases htree : f.tree (.text t) with
    | nil => simp [htree, Tree.id?, Tree.head?] at hroot
    | node n l r =>
      have hn : n.id = root := by simpa [htree, Tree.id?, Tree.head?] using hroot
      simp [Tree.frame, Tree.subtree?, Node.fresh, hn]
  have hmem : ∀ x ∈ todo, x.1 ∈ (f.tree (.text t)).ids := by
    intro x hx
    rw [Tree.ids, ← ids_starts position]
    exact List.mem_map_of_mem hx
  -- what a visit finds is the forest there was at the start, after calm operations
  have hstep : ∀ x ∈ starts position (f.tree (.text t)).frame.spans,
      ∀ s g, f.Calm g → f.Calm (exec (visitAt visit x) (s, g)).2.2 := by
    intro x hx s g hg
    rw [starts_frame] at hx
    have hid : x.1 ∈ (g.tree (.text t)).ids := by
      rw [← Tree.ids_frame, hg.frames t hbusy, Tree.ids_frame]
      exact hmem x hx
    exact hg.trans (minds_visitAt hvisit (hf.calm hg) hid s).1.calm
  have hloop : y = exec (forM todo (visitAt visit)) (log, f) := by
    have hstarts := exec_traverse_starts (fun g hg => hg.bears hbusy) hd htop position hstep
      (Forest.Calm.refl hf.upright) log
    rwa [starts_frame] at hstarts
  rw [hloop]
  exact minds_forM hvisit ht todo hf hmem log

/-- What is done in the session of a traversal. -/
theorem minds_visits (hvisit : Notes visit busy) (ht : t ∈ busy) (hf : f.Guarded busy) {x : Text}
    (hx : f.texts[t]? = some x) {log : Log Callback Response σ} (hlog : log.visits = []) :
    let y := exec (do
      let x ← liftM (text t)
      match x.root.id? with
      | some root => traverse root x.beginOffset visit
      | none => pure () : Client (Log Callback Response σ) Unit) (log, f)
    Minds (log, f) y.2 ∧ Course (starts x.beginOffset x.root.spans) y.2.1.visits y.1 := by
  have htree : f.tree (.text t) = x.root := Forest.tree_text hx
  rw [exec_liftM_bind_ok (exec_text hx)]
  cases hid : x.root.id? with
  | none =>
    have hnil : x.root = .nil := by
      cases hr : x.root with
      | nil => rfl
      | node n l r => simp [hr, Tree.id?, Tree.head?] at hid
    rw [hnil]
    refine ⟨.of_same (.refl hf.upright) rfl, ?_⟩
    dsimp only [exec_pure]
    rw [hlog]
    exact .done
  | some root =>
    obtain ⟨hminds, made, hmade, hcourse⟩ :=
      minds_traverse hvisit ht hf (by rw [htree, hid]) x.beginOffset log
    rw [htree] at hcourse
    rw [hlog, List.nil_append] at hmade
    dsimp only
    rw [hmade]
    exact ⟨hminds, hcourse⟩

/-- **A traversal of a text** whose callbacks respect sessions. -/
theorem minds_traverseIntervals (hvisit : Notes visit (t :: busy)) (hf : f.Guarded busy)
    {log : Log Callback Response σ} (hlog : log.visits = []) :
    let y := exec (traverseIntervals t visit) (log, f)
    Minds (log, f) y.2 ∧ (Entry.traversal busy t f y.1 y.2.2 y.2.1.visits).Protected := by
  intro y
  rcases session_cases t .write f with ⟨e, hopen, -⟩ | ⟨f', hopen, hsame, hclose⟩
  · -- the session is refused
    have hy : y = (.error e, (log, f)) := exec_liftM_bind_error hopen
    rw [hy]
    refine ⟨.of_same (.refl hf.upright) rfl, rfl, fun ht => ⟨rfl, hlog, ?_⟩, fun x hx hword => ?_⟩
    · obtain ⟨recent, hheld⟩ := exec_openSession_held hf.tracking (hf.held t ht)
        (show SessionKind.write ≠ .none by decide)
      rw [hopen] at hheld
      cases hheld
      exact ⟨recent, rfl⟩
    · have hadmitted := exec_openSession_tracked hf.tracking hx .write
      rw [hopen, Tracker.openSession, Tracker.openWrite, if_pos hword] at hadmitted
      cases hadmitted
  · -- the session is admitted, so that no traversal of the text is in progress
    obtain ⟨hfree, hheld, helse⟩ := word?_of_openSession hf.tracking hopen
    have hidle : t ∉ busy := fun ht => by
      rw [hf.held t ht] at hfree
      cases hfree
    have hf' : f'.Guarded (t :: busy) := by
      refine ⟨hsame.upright hf.upright, by rw [hsame.settings, hf.tracking], fun i hi => ?_⟩
      by_cases hit : i = t
      · rw [hit, hheld]
      · rw [helse i hit]
        exact hf.held i ((List.mem_cons.mp hi).resolve_left hit)
    obtain ⟨x, access, hx, hx'⟩ := text_of_openSession hopen
    obtain ⟨hminds, hcourse⟩ := minds_visits hvisit List.mem_cons_self hf' hx' hlog
    have hy : y = _ := exec_withSession_client hopen log
    generalize exec _ (log, f') = visited at hminds hcourse hy
    obtain ⟨r, log', g'⟩ := visited
    obtain ⟨g, hclosed, hsame', hcovers⟩ := hclose g' hminds.calm.settings hminds.calm.covers
    rw [hclosed] at hy
    have hcalm : f.Calm g := by
      refine ⟨hsame'.upright hminds.calm.upright, fun i hi => ?_, ?_, hcovers⟩
      · have hit : i ≠ t := by
          rintro rfl
          obtain ⟨w, hw, hne⟩ := hi
          rw [hfree] at hw
          cases hw
          exact hne rfl
        have hi' : f'.Busy i := by rwa [Forest.Busy, helse i hit]
        rw [hsame'.tree, hminds.calm.frames i hi', hsame.tree]
      · rw [hsame'.settings, hminds.calm.settings, hsame.settings]
    rw [hy]
    refine ⟨⟨hcalm, hminds.entries⟩, hcovers, fun ht => absurd ht hidle, fun z hz _ => ?_⟩
    obtain rfl : x = z := Option.some.inj (hx.symm.trans hz)
    have hd := hf'.upright.distinct (.text t)
    rw [Forest.tree_text hx', Tree.ids, ← ids_starts x.beginOffset] at hd
    have hids := hcourse.isPrefix.sublist.map (·.1)
    rw [List.map_map] at hids
    exact ⟨hd.sublist hids, hcourse⟩

end Run

namespace Errand

variable {f : Forest} {t : TextId} {busy : List TextId}

/-- A task of a caller that respects sessions is logged as protected. -/
theorem protected_task (hf : f.Guarded busy) (c : Callback) :
    (Entry.task busy c f (exec c.run f).1 (exec c.run f).2).Protected := by
  refine ⟨(Run.calm_callback hf.upright hf.tracking c).covers, ?_⟩
  rintro call rfl hbusy
  obtain ⟨recent, hheld⟩ := Run.exec_textCall_held hf.tracking call (hf.held _ hbusy)
  rw [Callback.run, hheld]
  exact ⟨rfl, recent, rfl⟩

/-- What an errand does while texts are being traversed is calm, and all of it is protected. -/
theorem minds_follow (errand : Errand Callback Response σ) (hf : f.Guarded busy)
    (log : Log Callback Response σ) :
    let y := exec (errand.follow Callback.run busy) (log, f)
    Minds (log, f) y.2 ∧ y.2.1.visits = log.visits := by
  induction errand generalizing busy log f with
  | done s => exact ⟨.of_same (.refl hf.upright) rfl, rfl⟩
  | fail s e => exact ⟨.of_same (.refl hf.upright) rfl, rfl⟩
  | ask c next ih =>
    have hcalm := Run.calm_callback hf.upright hf.tracking c
    have htask := protected_task hf c
    generalize hmade : exec c.run f = made at hcalm htask
    obtain ⟨r, g⟩ := made
    let log' : Log Callback Response σ :=
      { log with entries := log.entries ++ [.task busy c f r g] }
    have hfirst : Minds (log, f) (log', g) := ⟨hcalm, _, rfl, by simpa using htask⟩
    obtain ⟨hminds, hvisits⟩ := ih r (hf.calm hcalm) log'
    rw [exec_ask hmade]
    exact ⟨hfirst.trans hminds, hvisits⟩
  | traverse t s visit next ihvisit ihnext =>
    -- the visits are errands too, made while one more text is being traversed
    have hnotes : Run.Notes (visiting Callback.run visit (t :: busy)) (t :: busy) :=
      fun id log f hf => by
        obtain ⟨hminds, hvisits⟩ := ihvisit id log.state hf log
        generalize hmade : exec ((visit id log.state).follow Callback.run (t :: busy)) (log, f) =
          made at hminds hvisits
        obtain ⟨r, log', g⟩ := made
        dsimp only
        rw [exec_visiting hmade, ← hvisits]
        exact ⟨⟨hminds.calm, hminds.entries⟩, rfl⟩
    let start : Log Callback Response σ := { log with state := s, visits := [] }
    have htraversal := Run.minds_traverseIntervals hnotes hf (show start.visits = [] from rfl)
    generalize hmade : exec (Run.traverseIntervals t (visiting Callback.run visit (t :: busy)))
      (start, f) = made at htraversal
    obtain ⟨r, inner, g⟩ := made
    obtain ⟨hinner, hentry⟩ := htraversal
    let log' : Log Callback Response σ :=
      { inner with
          visits := log.visits
          entries := inner.entries ++ [.traversal busy t f r g inner.visits] }
    have hfirst : Minds (log, f) (log', g) :=
      Minds.add ⟨hinner.calm, hinner.entries⟩ hentry rfl rfl
    obtain ⟨hminds, hvisits⟩ := ihnext r inner.state (hf.calm hinner.calm) log'
    rw [exec_traverse hmade]
    exact ⟨hfirst.trans hminds, hvisits⟩

/-- **Traversals are protected**, with sessions tracked, from all that is done in their course:
so are the operations of texts that an errand makes, and its traversals, to any depth. -/
theorem traversals_protected (errand : Errand Callback Response σ) (s : σ) (hf : f.Upright)
    (ht : f.settings.tracking = true) :
    ∀ e ∈ errand.log Callback.run s f, e.Protected := by
  have hguarded : f.Guarded [] := ⟨hf, ht, by simp⟩
  obtain ⟨new, hnew, hprotected⟩ := (minds_follow errand hguarded { state := s }).1.entries
  rw [List.nil_append] at hnew
  rw [log, hnew]
  exact hprotected

/-- Two texts without trees. Sessions are tracked. -/
def shelf : Forest :=
  { settings := .tracked
    texts := [{ name := "a", beginOffset := 1, content := "ab" },
      { name := "b", beginOffset := 0, content := "c" }]
    nextId := 2 }

/-- The first text has a node for each of its characters. -/
def shelved : Forest :=
  shelf.plant (.node { id := 0, link := .owner 0, data := { total := 2 } } .nil
    (.node { id := 1, link := .node 0, data := { total := 1 } } .nil .nil)) (.text 0)

theorem upright_shelved : shelved.Upright := by
  have hnil : ∀ p, shelf.tree p = .nil := by
    rintro ((_ | _ | t) | slot) <;> rfl
  refine (Forest.Upright.of_nil hnil).planted ⟨rfl, rfl, trivial, rfl, rfl, trivial, trivial⟩ ?_
    (by decide) (by simp [hnil]) (by decide)
  rintro link ⟨⟩
  rfl

/-- A traversal of the first text, at every visit of which the text is to be balanced, the node
marked, and the second text traversed, and this once more with a search in the first text. -/
def meddle : Errand Callback Response Unit :=
  .ask (.call (.intervals 1)) fun _ =>
  .traverse 0 ()
    (fun id _ =>
      .ask (.call (.balanceIntervals 0)) fun _ =>
      .ask (.mark (.put id "seen" "")) fun _ =>
      .traverse 1 ()
        (fun _ _ =>
          .ask (.call (.findInterval 0 1)) fun
            | .ok _ => .done ()
            | .error e => .fail () e)
        fun _ _ => .done ())
    fun _ _ => .done ()

/-- All of it is protected: for each of two visits four entries, and two for the rest. -/
theorem traversals_protected_meddle :
    (meddle.log Callback.run () shelved).length = 10 ∧
      ∀ e ∈ meddle.log Callback.run () shelved, e.Protected :=
  ⟨by decide +kernel, traversals_protected meddle () upright_shelved rfl⟩

end Errand

end SpanTree
