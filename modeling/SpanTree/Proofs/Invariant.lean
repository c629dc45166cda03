/-
SpanTree.Proofs.Invariant — what holds of the tree of a text, whatever is
done with it.

`Step` is one operation on a text or on a node of its tree, with any
arguments, whether it succeeds or fails. The invariant is that the forest
hosts the text, `Forest.Hosts`: the text has a reading with the start,
the characters, the settings and the tracker word that it began with, and
some spans. `hosts_of_step` says that each step keeps it. Most cases are
the specification of an operation; where it is one in a session, a
refused session does nothing (`hosts_withSession`).

`tree_of_run` reads off the invariant what it says about the tree.
-/
import SpanTree.Proofs.Clients

namespace SpanTree

open Relation (ReflTransGen)

/-! ## Steps -/

/-- One operation on a text or on a live node of its tree, and the forest
it leaves. It may fail. The visits of a traversal are made of quiet
steps. -/
inductive Step (t : TextId) (f : Forest) : Forest → Prop
  | quiet {g : Forest} (h : Quiet t f g) : Step t f g
  | intervals : Step t f (exec (Run.intervals t) f).2
  | createRoot : Step t f (exec (Run.createRoot t) f).2
  | findInterval (position : Size) : Step t f (exec (Run.findInterval t position) f).2
  | find {id : NodeId} (root : (f.tree (.text t)).id? = some id) (position : Size) :
    Step t f (exec (Run.find id position) f).2
  | balanceIntervals : Step t f (exec (Run.balanceIntervals t) f).2
  | traverseIntervals {σ : Type} {visit : NodeId → Client σ Unit}
    (visits : VisitsBy (Quiet t) t f visit) (s : σ) :
    Step t f (exec (Run.traverseIntervals t visit) (s, f)).2.2
  | checkIntervals : Step t f (exec (Run.checkIntervals t) f).2
  | balancePossibleRoot {id : NodeId} (live : id ∈ (f.tree (.text t)).ids) :
    Step t f (exec (Run.balancePossibleRoot id) f).2
  | split (s : Side) {id : NodeId} (live : id ∈ (f.tree (.text t)).ids) (offset : Size) :
    Step t f (exec (Run.split s id offset) f).2
  | merge (s : Side) {id : NodeId} (live : id ∈ (f.tree (.text t)).ids) :
    Step t f (exec (Run.merge s id) f).2
  | remove {id : NodeId} (live : id ∈ (f.tree (.text t)).ids) :
    Step t f (exec (Run.remove id) f).2
  | rotateInPlace (s : Side) {id : NodeId} (live : id ∈ (f.tree (.text t)).ids) :
    Step t f (exec (Run.rotateInPlace s id) f).2

namespace Run

variable {α σ : Type} {t : TextId} {v v' : Reading} {f g : Forest} {id : NodeId}

/-! ## The invariant -/

/-- An operation with a specification keeps the invariant. -/
theorem Does.hosts {op : Run α} {r : Except Fault α} {nextId : NodeId} {spans : List Span}
    (h : Does op t v r { v with nextId, spans }) (hf : f.Reads t v) : (exec op f).2.Hosts t v := by
  obtain ⟨f', hexec, hf'⟩ := h f hf
  rw [hexec]
  exact ⟨_, _, hf'⟩

/-- An operation that leaves the reading alone keeps the invariant. -/
theorem Does.hosts_same {op : Run α} {r : Except Fault α} (h : Does op t v r v)
    (hf : f.Reads t v) : (exec op f).2.Hosts t v :=
  h.hosts hf

theorem hosts_rooted (h : f.Reads t (rooted v)) : f.Hosts t v := by
  unfold rooted at h
  split at h
  · exact ⟨_, _, h⟩
  · exact h.hosts

/-- An operation in a session keeps the invariant if it keeps it in the
session. A refused session does nothing. -/
theorem hosts_withSession {kind : SessionKind} {body : Run α} (hf : f.Reads t v)
    (h : ∀ w g, Forest.Reads g t { v with word := w } →
      (exec body g).2.Hosts t { v with word := w }) :
    (exec (withSession t kind body) f).2.Hosts t v := by
  by_cases hadm : v.Admits kind
  · obtain ⟨w, g, hopen, hg, -, hclose⟩ := exec_session hf hadm
    obtain ⟨nextId, spans, hg'⟩ := h w g hg
    obtain ⟨f', hclosed, hf', -⟩ := hclose _ { v with nextId, spans } hg' rfl rfl
    rw [exec_withSession_ok hopen, hclosed]
    exact ⟨_, _, hf'⟩
  · obtain ⟨o, hrefused⟩ := exec_withSession_refused hf hadm body
    rw [hrefused]
    exact hf.hosts

/-- The root of a text, made or not, keeps the invariant. -/
theorem hosts_intervals (hf : f.Reads t v) : (exec (intervals t) f).2.Hosts t v := by
  refine hosts_withSession hf fun w g hg => ?_
  by_cases hsize : 0 < v.size
  · obtain ⟨root, g', hexec, hg', -⟩ := exec_ensureRoot hg hsize
    rw [hexec]
    exact hosts_rooted hg'
  · exact (does_ensureRoot_empty (v := { v with word := w })
      (Nat.eq_zero_of_not_pos hsize)).hosts_same hg

theorem hosts_createRoot (hf : f.Reads t v) : (exec (createRoot t) f).2.Hosts t v := by
  by_cases hspans : v.spans = []
  · by_cases hsize : 0 < v.size
    · exact (does_createRoot hspans hsize).hosts hf
    · exact (does_createRoot_empty hspans (Nat.eq_zero_of_not_pos hsize)).hosts_same hf
  · exact (does_createRoot_present hspans).hosts_same hf

/-- A search from the root keeps the invariant, wherever it ends. -/
theorem hosts_find (hf : f.Reads t v) (hid : (f.tree (.text t)).id? = some id) (p : Size) :
    (exec (find id p) f).2.Hosts t v := by
  by_cases hin : v.start.toNat ≤ p.toNat ∧ p.toNat ≤ v.finish.toNat
  · obtain ⟨pre, y, post, hy, hfinds⟩ :=
      exists_finds hf.valid (spans_ne_nil_of_root hf hid) hin.1 hin.2
    obtain ⟨f', hexec, hf'⟩ := exec_find_root hf hid hy hfinds
    rw [hexec]
    exact hf'.hosts
  · obtain ⟨f', hexec, hf'⟩ := exec_find_root_outside hf hid hin
    rw [hexec]
    exact hf'.hosts

/-- A search in a text keeps the invariant, wherever it ends. -/
theorem hosts_findInterval (hf : f.Reads t v) (p : Size) :
    (exec (findInterval t p) f).2.Hosts t v := by
  refine hosts_withSession hf fun w g hg => ?_
  by_cases hsize : 0 < v.size
  · obtain ⟨root, g', hroot, hg', hid⟩ := exec_ensureRoot hg hsize
    obtain ⟨nextId, spans, hg'⟩ := hosts_rooted hg'
    have hfind := hosts_find hg' hid p
    rw [exec_bind_ok hroot]
    dsimp only
    rw [exec_bind]
    generalize exec (find root p) g' = result at hfind ⊢
    obtain ⟨r, g''⟩ := result
    cases r with
    | error e => exact hfind
    | ok found =>
      obtain ⟨nextId, spans, hg''⟩ := hfind
      dsimp only
      rw [exec_bind_ok (exec_verify hg''), exec_pure]
      exact ⟨_, _, hg''⟩
  · obtain ⟨g', hroot, hg'⟩ := does_ensureRoot_empty (v := { v with word := w })
      (Nat.eq_zero_of_not_pos hsize) g hg
    obtain ⟨x, hx, -⟩ := hg'.text
    rw [exec_bind_ok hroot]
    dsimp only
    rw [exec_bind_ok (exec_text hx), exec_throw]
    exact hg'.hosts

theorem hosts_balanceIntervals (hf : f.Reads t v) :
    (exec (balanceIntervals t) f).2.Hosts t v := by
  by_cases hadm : v.Admits .write
  · obtain ⟨u, k, f', -, -, hexec, hf', -⟩ := exec_balanceIntervals hf hadm
    rw [hexec]
    exact hf'.hosts
  · obtain ⟨o, hrefused⟩ := exec_withSession_refused hf hadm _
    rw [balanceIntervals, hrefused]
    exact hf.hosts

/-- A traversal whose visits are made of quiet steps keeps the invariant, whether or not the client
ends it. -/
theorem hosts_traverseIntervals (hf : f.Reads t v) {visit : NodeId → Client σ Unit}
    (visits : VisitsBy (Quiet t) t f visit) (s : σ) :
    (exec (traverseIntervals t visit) (s, f)).2.2.Hosts t v := by
  by_cases hadm : v.Admits .write
  · obtain ⟨w, g, hopen, hg, htree, hclose⟩ := exec_session hf hadm
    obtain ⟨x, hx, hstart, -⟩ := hg.text
    have hframed : g.Framed t { v with word := w } (f.tree (.text t)).frame :=
      ⟨hg.hosts, by rw [htree]⟩
    have hvisit (z : NodeId × Size) (hz : z ∈ starts x.beginOffset (f.tree (.text t)).frame.spans)
        (s : σ) (h : Forest) (hh : Underway t visit f h ∧
          h.Framed t { v with word := w } (f.tree (.text t)).frame) :
        Underway t visit f (exec (visitAt visit z) (s, h)).2.2 ∧
          (exec (visitAt visit z) (s, h)).2.2.Framed t { v with word := w }
            (f.tree (.text t)).frame := by
      rw [hstart] at hz
      have hid : z.1 ∈ (f.tree (.text t)).ids := by
        rw [← Tree.ids_frame, Tree.ids, ← ids_starts v.start]
        exact List.mem_map_of_mem hz
      rw [visitAt, exec_liftM_bind_ok (exec_setStart hh.2 hz)]
      exact kept_by_visits visits (fun _ _ => framed_of_quiet) hid s hh
    obtain ⟨h, ⟨-, hh⟩, hexec⟩ := kept_by_traversal hopen hx
      (by rw [← Forest.tree_text hx, htree]) (fun _ hh => hh.2.bears)
      (hf.ids_frame ▸ hf.valid.distinct) hvisit ⟨.opened hopen, hframed⟩ s
    obtain ⟨nextId, spans, hr⟩ := hh.hosts
    obtain ⟨f', hclosed, hf', -⟩ := hclose h { v with nextId, spans } hr rfl rfl
    rw [hexec, hclosed]
    exact ⟨_, _, hf'⟩
  · obtain ⟨o, hrefused⟩ := exec_traverseIntervals_refused hf hadm s
    rw [hrefused]
    exact hf.hosts

theorem hosts_split (hf : f.Reads t v) (live : id ∈ (f.tree (.text t)).ids) (s : Side)
    (offset : Size) : (exec (split s id offset) f).2.Hosts t v := by
  obtain ⟨pre, x, post, hcut, rfl⟩ := cut_of_live hf live
  by_cases hin : 0 < offset.toNat ∧ offset.toNat < x.length.toNat
  · exact (does_split hf.valid hcut s hin.1 hin.2).hosts hf
  · exact (does_split_outside hcut s hin).hosts_same hf

theorem hosts_merge (hf : f.Reads t v) (live : id ∈ (f.tree (.text t)).ids) (s : Side) :
    (exec (merge s id) f).2.Hosts t v := by
  obtain ⟨pre, x, post, hcut, rfl⟩ := cut_of_live hf live
  cases s with
  | left =>
    rcases List.eq_nil_or_concat pre with rfl | ⟨pre, y, rfl⟩
    · exact (does_merge_left_first hcut).hosts_same hf
    · exact (does_merge_left hf.valid (y := y) (by simpa using hcut)).hosts hf
  | right =>
    cases post with
    | nil => exact (does_merge_right_last hcut).hosts_same hf
    | cons y post => exact (does_merge_right hf.valid hcut).hosts hf

theorem hosts_remove (hf : f.Reads t v) (live : id ∈ (f.tree (.text t)).ids) :
    (exec (remove id) f).2.Hosts t v := by
  obtain ⟨pre, x, post, hcut, rfl⟩ := cut_of_live hf live
  cases post with
  | cons y post => exact (does_remove_right hf.valid hcut).hosts hf
  | nil =>
    rcases List.eq_nil_or_concat pre with rfl | ⟨pre, y, rfl⟩
    · exact (does_remove_only hf.valid hcut).hosts hf
    · exact (does_remove_left hf.valid (y := y) (by simpa using hcut)).hosts hf

/-- **Every step** keeps the invariant. -/
theorem hosts_of_step (hf : f.Hosts t v) (h : Step t f g) : g.Hosts t v := by
  obtain ⟨nextId, spans, hr⟩ := hf
  change g.Hosts t { v with nextId, spans }
  cases h with
  | quiet h => exact (framed_of_quiet ⟨⟨nextId, spans, hr⟩, rfl⟩ h).hosts
  | intervals => exact hosts_intervals hr
  | createRoot => exact hosts_createRoot hr
  | findInterval position => exact hosts_findInterval hr position
  | find root position => exact hosts_find hr root position
  | balanceIntervals => exact hosts_balanceIntervals hr
  | traverseIntervals visits s => exact hosts_traverseIntervals hr visits s
  | checkIntervals =>
    exact hosts_withSession hr fun w g hg => by
      rw [exec_checkText hg]
      exact hg.hosts
  | balancePossibleRoot live =>
    obtain ⟨pre, x, post, hcut, rfl⟩ := cut_of_live hr live
    obtain ⟨top, f', hexec, hf'⟩ := exec_balancePossibleRoot_live hr hcut
    rw [hexec]
    exact ⟨_, _, hf'⟩
  | split s live offset => exact hosts_split hr live s offset
  | merge s live => exact hosts_merge hr live s
  | remove live => exact hosts_remove hr live
  | rotateInPlace s live =>
    obtain ⟨pre, x, post, hcut, rfl⟩ := cut_of_live hr live
    obtain ⟨r, f', spans', hexec, hf', -⟩ := exec_rotateInPlace hr hcut s
    rw [hexec]
    exact ⟨_, _, hf'⟩

/-- A run of steps keeps the invariant. -/
theorem hosts_of_run (hf : f.Hosts t v) (h : ReflTransGen (Step t) f g) : g.Hosts t v :=
  kept_by_steps (P := fun f => f.Hosts t v) (fun _ _ => hosts_of_step) hf h

end Run

/-! ## The tree of a text -/

/-- A text without a tree has a reading. -/
theorem Forest.reads_of_nil {f : Forest} {t : TextId} {x : Text} (hx : f.texts[t]? = some x)
    (hroot : x.root = .nil) (hsmall : x.content.utf8ByteSize < 2 ^ 63)
    (hfits : x.beginOffset.toNat + x.content.utf8ByteSize < 2 ^ 64)
    (hothers : ∀ p, ∀ id ∈ (f.tree p).ids, id < f.nextId) :
    f.Reads t ⟨f.settings, x.beginOffset, x.content, x.access.word, f.nextId, []⟩ where
  valid := ⟨hsmall, hfits, trivial, fun h => absurd rfl h, List.Pairwise.nil, fun _ hid => by
    simp [Reading.ids] at hid⟩
  text := ⟨x, hx, rfl, rfl, rfl, by rw [hroot]; exact ⟨rfl, trivial, trivial, fun _ h => by
    simp at h⟩⟩
  settings := rfl
  nextId := rfl
  apart p _ id hid := ⟨hothers p id hid, by simp [Reading.ids]⟩

/-- **The tree of a text** at every point of every run that starts from a
text without one. If there is a tree, every node weighs more than what is
below it, the root weighs as much as the text, every child is linked to
the node that holds it and the root to the text, no identity occurs
twice, and every cache is the absolute start of the node's own span. The
check of the text passes. -/
theorem tree_of_run {f g : Forest} {t : TextId} {x : Text} (hx : f.texts[t]? = some x)
    (hroot : x.root = .nil) (hsmall : x.content.utf8ByteSize < 2 ^ 63)
    (hfits : x.beginOffset.toNat + x.content.utf8ByteSize < 2 ^ 64)
    (hothers : ∀ p, ∀ id ∈ (f.tree p).ids, id < f.nextId)
    (hrun : ReflTransGen (Step t) f g) :
    exec (Run.checkText t) g = (.ok ⟨⟩, g) ∧
      ∃ y, g.texts[t]? = some y ∧ y.beginOffset = x.beginOffset ∧ y.content = x.content ∧
        (y.root = .nil ∨
          y.root.Weighed ∧ y.root.total.toNat = y.content.utf8ByteSize ∧ y.root.Linked ∧
            y.root.link? = some (.owner t) ∧ y.root.ids.Nodup ∧
            Placed y.beginOffset.toNat y.root.spans) := by
  obtain ⟨nextId, spans, hg⟩ :=
    Run.hosts_of_run (Forest.reads_of_nil hx hroot hsmall hfits hothers).hosts hrun
  obtain ⟨y, hy, hstart, hcontent, -, hshape⟩ := hg.text
  refine ⟨Run.exec_checkText hg, y, hy, hstart, hcontent, ?_⟩
  cases hr : y.root with
  | nil => exact .inl rfl
  | node n l r =>
    rw [hr] at hshape
    obtain ⟨text, hlink, htext⟩ := hshape.homed n.link rfl
    obtain rfl : t = text := by simpa using htext
    have hne : spans ≠ [] := by
      have hspans := hshape.spans
      rintro rfl
      simp at hspans
    refine .inr ⟨hshape.weighed, ?_, hshape.linked, congrArg some hlink,
      (hshape.wellFormed hg.valid).distinct, ?_⟩
    · rw [hshape.total, hg.valid.covers hne, hcontent]
      rfl
    · rw [hstart, hshape.spans]
      exact hg.valid.placed

/-- A run that makes a tree and splits its root. -/
theorem tree_of_split_run :
    let f : Forest := { texts := [{ name := "a", beginOffset := 5, content := "abcdefgh" }] }
    let made := (exec (Run.intervals 0) f).2
    let split := (exec (Run.split .left 0 3) made).2
    0 ∈ (made.tree (.text 0)).ids ∧ exec (Run.checkText 0) split = (.ok ⟨⟩, split) ∧
      ∃ y, split.texts[0]? = some y ∧
        y.beginOffset = 5 ∧ y.content = "abcdefgh" ∧
        (y.root = .nil ∨
          y.root.Weighed ∧ y.root.total.toNat = y.content.utf8ByteSize ∧ y.root.Linked ∧
            y.root.link? = some (.owner 0) ∧ y.root.ids.Nodup ∧
            Placed y.beginOffset.toNat y.root.spans) := by
  intro f made split
  have hlive : 0 ∈ (made.tree (.text 0)).ids := by decide
  have hnone (p : Place) : (f.tree p).ids = [] := by
    cases p with
    | text i => cases i <;> rfl
    | loose slot => rfl
  refine ⟨hlive, tree_of_run (f := f) (t := 0) rfl rfl (by decide) (by decide)
    (fun p id hid => by simp [hnone] at hid) ?_⟩
  exact (ReflTransGen.single .intervals).tail (.split .left hlive 3)

end SpanTree
