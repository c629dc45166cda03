/-
SpanTree.Proofs.Acceptance — what a text that passes its check is good for.

A text that passes its check has a tree that is linked, covers the text,
and whose words compare at every node. What a caller wants of such a tree
is that a traversal visits ranges that are not empty and follow each other
from the start of the text to its end. The ranges that a traversal visits
are those of the spans laid out from the start (`ranges`), whatever the
weights; they partition the text exactly where no sum of two totals wraps
(`partitions_ranges_iff`, `Outweighs.covered_spans`). Where one does, the
check passes all the same.
-/
import SpanTree.Proofs.Fixpoint
import SpanTree.Proofs.Traversals

namespace SpanTree

/-! ## Ranges -/

/-- The ranges of spans that follow each other from a position on. -/
def ranges (position : Size) : List Span → List (Size × Size)
  | [] => []
  | x :: rest => (position, position + x.length) :: ranges (position + x.length) rest

/-- Ranges that are not empty and lead from one number to another without a gap. -/
def Partitions (lo hi : Nat) : List (Size × Size) → Prop
  | [] => lo = hi
  | (a, b) :: rest => a.toNat = lo ∧ a.toNat < b.toNat ∧ Partitions b.toNat hi rest

/-- The ranges of a tree are those of its frame. -/
theorem ranges_frame (position : Size) (t : Tree) :
    ranges position t.frame.spans = ranges position t.spans := by
  rw [Tree.spans_frame]
  induction t.spans generalizing position with
  | nil => rfl
  | cons x rest ih => rw [List.map_cons, ranges, ranges, ih]

/-- The ranges of spans that own characters lead to where their lengths add up to. If none of
the positions between wraps, that is. -/
theorem partitions_ranges_iff {spans : List Span} {position : Size} {hi : Nat}
    (hpos : ∀ x ∈ spans, 0 < x.length.toNat) (hhi : hi < 2 ^ 64) :
    Partitions position.toNat hi (ranges position spans) ↔
      position.toNat + covered spans = hi := by
  induction spans generalizing position with
  | nil => simp [ranges, Partitions]
  | cons x rest ih =>
    have hx := hpos x List.mem_cons_self
    have hnext : (position + x.length).toNat = (position.toNat + x.length.toNat) % 2 ^ 64 :=
      UInt64.toNat_add _ _
    have hposition := position.toNat_lt
    have hlength := x.length.toNat_lt
    rw [ranges, Partitions, ih fun y hy => hpos y (List.mem_cons_of_mem _ hy), covered_cons]
    omega

/-! ## What the lengths add up to -/

namespace Tree

/-- The own length of a node whose words compare. -/
theorem toNat_length_of_lt {n : Node} {l r : Tree} (h : l.total + r.total < n.data.total) :
    (n.length l r).toNat = n.data.total.toNat - (l.total + r.total).toNat := by
  have hsub : n.length l r = n.data.total - (l.total + r.total) := by
    rw [Node.length]
    grind
  rw [hsub, Size.toNat_sub_of_le (Nat.le_of_lt (UInt64.lt_iff_toNat_lt.mp h))]

/-- Where the words compare no span is empty. -/
theorem Outweighs.length_pos {t : Tree} (h : t.Outweighs) {x : Span} (hx : x ∈ t.spans) :
    0 < x.length.toNat := by
  induction t with
  | nil => simp at hx
  | node n l r ihl ihr =>
    obtain ⟨hn, hl, hr⟩ := h
    simp only [spans_node, List.mem_append, List.mem_cons] at hx
    rcases hx with hx | rfl | hx
    · exact ihl hl hx
    · rw [Node.span_length, toNat_length_of_lt hn]
      rw [UInt64.lt_iff_toNat_lt] at hn
      omega
    · exact ihr hr hx

/-- Where the words compare the spans cover no less than the total says, and just that if no
sum wraps. -/
theorem Outweighs.covered_spans {t : Tree} (h : t.Outweighs) :
    t.total.toNat ≤ covered t.spans ∧ (covered t.spans = t.total.toNat ↔ t.Unwrapped) := by
  induction t with
  | nil => simp [Unwrapped]
  | node n l r ihl ihr =>
    obtain ⟨hn, hl, hr⟩ := h
    obtain ⟨hlge, hliff⟩ := ihl hl
    obtain ⟨hrge, hriff⟩ := ihr hr
    have hown := toNat_length_of_lt hn
    have hsum : (l.total + r.total).toNat = (l.total.toNat + r.total.toNat) % 2 ^ 64 :=
      UInt64.toNat_add _ _
    rw [UInt64.lt_iff_toNat_lt] at hn
    have hlt := l.total.toNat_lt
    have hrt := r.total.toNat_lt
    rw [spans_node, covered_append, covered_cons, Node.span_length, total_node, Unwrapped, ← hliff,
      ← hriff]
    omega

end Tree

/-! ## The ranges that a traversal visits -/

/-- A client that notes the range of every node it is called for. -/
def noteRange (id : NodeId) : Client (List (Size × Size)) Unit := do
  let x ← liftM (Run.span id)
  fun (noted, f) => (.ok ⟨⟩, (noted ++ [(x.position, x.position + x.length)], f))

namespace Run

variable {f : Forest} {p : Place} {frame : Tree} {t : TextId} {x : Text}

/-- The range that is noted at a visit starts where the visit is made. -/
theorem exec_noteRange (hf : f.Bears p frame) (hd : frame.ids.Nodup) {y : Span}
    (hy : y ∈ frame.spans) (position : Size) (noted : List (Size × Size)) :
    ∃ g, exec (visitAt noteRange (y.id, position)) (noted, f) =
      (.ok ⟨⟩, (noted ++ [(position, position + y.length)], g)) ∧ g.Bears p frame := by
  have hid : y.id ∈ frame.ids := List.mem_map_of_mem hy
  obtain ⟨c, hc, htree, hnode, hsub⟩ := hf.locate hid
  obtain ⟨g, hset, hg⟩ := hf.setPosition hid position
  have hplant : g = f.plant (c.withPosition position).toTree p := by
    rw [exec_modifyNode hc, Prod.mk.injEq] at hset
    exact hset.2.symm
  have hlength : c.length = y.length := by
    have hspan := Tree.span?_of_mem hd hy hsub
    simp only [Cursor.subtree, Tree.frame, Tree.span?, Option.some.injEq] at hspan
    rw [← hspan]
    simp [Cursor.length, Node.length, Node.fresh]
  have hspan : exec (span y.id) g = (.ok ⟨y.id, c.length, position, c.node.data.flags,
      c.node.data.plist⟩, g) := by
    have htop : g.tree p = Path.plug c.path (c.withPosition position).subtree :=
      hplant ▸ Forest.tree_plant_of_node (Tree.isNil_of_mem_ids (hf.mem_ids.mpr hid)) _
    have hmem : y.id ∈ (c.withPosition position).subtree.ids := by
      rw [← hnode]
      exact Tree.id_mem_ids_of_id? rfl
    have hsubtree : g.subtree? y.id = some (c.withPosition position).subtree := by
      rw [Forest.subtree?_eq (hg.mem_ids.mpr hid) fun q hq => hg.apart q hq _ hid, htop,
        Tree.subtree?_plug (by rwa [← htop, ← Tree.ids_frame, hg.frame]) hmem]
      exact if_pos hnode
    rw [span, exec_bind_ok (exec_subtree hsubtree), ← hnode]
    rfl
  refine ⟨g, ?_, hg⟩
  rw [visitAt, exec_liftM_bind_ok hset, noteRange, exec_liftM_bind_ok hspan, hlength]
  rfl

/-- A visit leaves all that the next one is made in. -/
theorem bears_visit_noteRange (hd : frame.ids.Nodup) (position : Size) :
    ∀ y ∈ starts position frame.spans, ∀ noted g, g.Bears p frame →
      (exec (visitAt noteRange y) (noted, g)).2.2.Bears p frame := by
  intro y hy noted g hg
  obtain ⟨z, hz, hid⟩ : ∃ z ∈ frame.spans, z.id = y.1 := by
    rw [← List.mem_map, ← ids_starts position]
    exact List.mem_map_of_mem hy
  obtain ⟨g', hnote, hg'⟩ := exec_noteRange hg hd hz y.2 noted
  rw [hid] at hnote
  rwa [hnote]

/-- A traversal with such a client notes the ranges of the spans. -/
theorem exec_forM_noteRange (hd : frame.ids.Nodup) (todo : List Span) (position : Size)
    (htodo : ∀ y ∈ todo, y ∈ frame.spans) (hf : f.Bears p frame) (noted : List (Size × Size)) :
    ∃ g, exec (forM (starts position todo) (visitAt noteRange)) (noted, f) =
      (.ok ⟨⟩, (noted ++ ranges position todo, g)) := by
  induction todo generalizing f position noted with
  | nil => exact ⟨f, by simp [starts, ranges]⟩
  | cons y todo ih =>
    obtain ⟨g, hvisit, hg⟩ := exec_noteRange hf hd (htodo y List.mem_cons_self) position noted
    obtain ⟨h, hrest⟩ := ih (position + y.length)
      (fun z hz => htodo z (List.mem_cons_of_mem _ hz)) hg
      (noted ++ [(position, position + y.length)])
    refine ⟨h, ?_⟩
    rw [starts, List.forM_cons, exec_bind_ok hvisit, hrest, ranges, List.append_assoc]
    rfl

/-! ## Sessions -/

/-- A session that the tracker admits opens, and only the tracker notes it. -/
theorem exec_openSession_of (kind : SessionKind) (hx : f.texts[t]? = some x)
    (hadm : f.settings.tracking = true → ∃ a, x.access.openSession kind = .ok a) :
    ∃ a, exec (openSession t kind) f = (.ok ⟨⟩, f.noted t a f.profile) := by
  cases ht : f.settings.tracking with
  | false =>
    have hopen := exec_openSession_untracked ht hx kind
    exact ⟨x.access, by rw [hopen, Forest.noted_self hx]⟩
  | true =>
    obtain ⟨a, ha⟩ := hadm ht
    have hopen := exec_openSession_tracked ht hx kind
    exact ⟨a, by rw [hopen, ha]; rfl⟩

/-! ## The checks -/

/-- The structural check of the subtree of a node. -/
theorem exec_checkInvariants {id : NodeId} {site : Site} (hc : f.locate? id = some site) :
    exec (checkInvariants id) f = (.ok ⟨⟩, f) ↔
      site.cursor.subtree.Linked ∧ site.cursor.subtree.Outweighs := by
  rw [checkInvariants, exec_bind_ok (exec_locate hc), ← Tree.check_eq_ok_iff]
  cases site.cursor.subtree.check <;> simp

/-- The check of a text, in a session that is admitted. -/
theorem exec_checkIntervals (hx : f.texts[t]? = some x)
    (hadm : f.settings.tracking = true → x.access.writerOpen = false) :
    (exec (checkIntervals t) f).1 = .ok ⟨⟩ ↔ x.Passes t := by
  obtain ⟨a, hopen⟩ := exec_openSession_of .read hx fun ht =>
    ⟨_, by simp only [Tracker.openSession, Tracker.openRead, hadm ht]; rfl⟩
  obtain ⟨r, hcheck, hiff⟩ := exec_checkText_eq (Forest.texts_noted hx a f.profile)
  rw [checkIntervals, exec_withSession_ok hopen, hcheck]
  exact hiff

/-- A traversal of a text visits the ranges of its spans, laid out from the start of the text. -/
theorem exec_traverseIntervals_noteRange (hx : f.texts[t]? = some x)
    (hidle : f.settings.tracking = true → x.access.word = 0) (hd : x.root.ids.Nodup)
    (hapart : ∀ q, q ≠ .text t → ∀ id ∈ x.root.ids, id ∉ (f.tree q).ids) :
    ∃ g, exec (traverseIntervals t noteRange) ([], f) =
      (.ok ⟨⟩, (ranges x.beginOffset x.root.spans, g)) := by
  obtain ⟨a, hopen⟩ := exec_openSession_of .write hx fun ht =>
    ⟨_, by rw [Tracker.openSession, Tracker.openWrite, if_pos (hidle ht)]⟩
  have hx' := Forest.texts_noted hx a f.profile
  have hbears : (f.noted t a f.profile).Bears (.text t) x.root.frame := by
    refine ⟨fun q hq id hid => ?_, ?_⟩
    · rw [Forest.tree_noted]
      exact hapart q hq id (by simpa using hid)
    · rw [Forest.tree_text hx']
  have hd' : x.root.frame.ids.Nodup := by simpa using hd
  -- the visits, in the session
  obtain ⟨g, hloop⟩ := exec_forM_noteRange hd' _ x.beginOffset (fun _ hy => hy) hbears []
  rw [List.nil_append, ranges_frame] at hloop
  refine ⟨(exec (closeSession t .write) g).2, ?_⟩
  rw [traverseIntervals, withSession, exec_liftM_bind_ok hopen]
  refine exec_tryFinally ?_ (by rw [exec_liftM, exec_closeSession_eq])
  rw [exec_liftM_bind_ok (exec_text hx')]
  cases hroot : x.root with
  | nil =>
    rw [hroot] at hloop
    exact hloop
  | node n l r =>
    rw [hroot] at hbears hd' hloop
    have htop : (Tree.node n l r).frame.subtree? n.id = some (Tree.node n l r).frame := if_pos rfl
    dsimp only [Tree.id?, Tree.head?, Option.map_some]
    rw [exec_traverse_starts (I := fun g => g.Bears (.text t) (Tree.node n l r).frame)
      (fun _ h => h) hd' htop x.beginOffset (bears_visit_noteRange hd' x.beginOffset) hbears [],
      hloop]

end Run

/-! ## What a passed check says -/

/-- **The checks accept** exactly the linked trees whose words compare, and of a text only a tree
that is linked to it and covers it. That every node owns characters, counted without wrapping,
follows if no sum of two totals wraps; and this is also what decides whether a traversal of a
text that passes visits ranges that partition it. -/
theorem checks_accept {f : Forest} {t : TextId} {x : Text} (hx : f.texts[t]? = some x) :
    (∀ id site, f.locate? id = some site →
      (exec (Run.checkInvariants id) f = (.ok ⟨⟩, f) ↔
        site.cursor.subtree.Linked ∧ site.cursor.subtree.Outweighs)) ∧
    (∀ u : Tree, u.Weighed ↔ u.Outweighs ∧ u.Unwrapped) ∧
    ((f.settings.tracking = true → x.access.writerOpen = false) →
      ((exec (Run.checkIntervals t) f).1 = .ok ⟨⟩ ↔ x.Passes t)) ∧
    (x.Passes t → x.root.isNil = false → x.root.ids.Nodup →
      (∀ q, q ≠ .text t → ∀ id ∈ x.root.ids, id ∉ (f.tree q).ids) →
      (f.settings.tracking = true → x.access.word = 0) →
      x.beginOffset.toNat + x.length.toNat < 2 ^ 64 →
      ∃ visited g, exec (Run.traverseIntervals t noteRange) ([], f) = (.ok ⟨⟩, (visited, g)) ∧
        (Partitions x.beginOffset.toNat (x.beginOffset.toNat + x.length.toNat) visited ↔
          x.root.Unwrapped)) := by
  refine ⟨fun id site hc => Run.exec_checkInvariants hc, fun u => Tree.weighed_iff,
    Run.exec_checkIntervals hx, fun hpass hsome hd hapart hidle hfits => ?_⟩
  obtain ⟨g, htraverse⟩ := Run.exec_traverseIntervals_noteRange hx hidle hd hapart
  obtain ⟨link, hlink⟩ : ∃ link, link ∈ x.root.link? := by
    cases hroot : x.root with
    | nil => simp [hroot, Tree.isNil] at hsome
    | node n l r => exact ⟨n.link, rfl⟩
  obtain ⟨-, htotal, -, hout⟩ := hpass link hlink
  refine ⟨_, g, htraverse, ?_⟩
  rw [partitions_ranges_iff (fun y hy => hout.length_pos hy) hfits, Nat.add_left_cancel_iff,
    ← htotal]
  exact hout.covered_spans.2

/-- A text and nothing else. -/
def Text.only (x : Text) : Forest := { texts := [x], nextId := 3 }

/-- Two characters, each with a node of its own. The caches are not set. -/
def halves : Text :=
  { name := "halves"
    beginOffset := 1
    content := "ab"
    root := .node { id := 0, link := .owner 0, data := { total := 2 } } .nil
      (.node { id := 1, link := .node 0, data := { total := 1 } } .nil .nil) }

/-- The text passes its check, and its characters are visited one after the other. -/
theorem checks_accept_halves :
    (exec (Run.checkIntervals 0) halves.only).1 = .ok ⟨⟩ ∧
      ∃ visited g, exec (Run.traverseIntervals 0 noteRange) ([], halves.only) =
        (.ok ⟨⟩, (visited, g)) ∧ Partitions 1 3 visited := by
  obtain ⟨-, -, hcheck, htraverse⟩ :=
    checks_accept (f := halves.only) (t := 0) (x := halves) rfl
  have hpass : halves.Passes 0 := by
    rintro link ⟨⟩
    refine ⟨rfl, by decide, ?_, ?_⟩
    · simp only [halves, Tree.Linked]
      decide
    · simp only [halves, Tree.Outweighs]
      decide
  have hunwrapped : halves.root.Unwrapped := by
    simp only [halves, Tree.Unwrapped]
    decide
  refine ⟨(hcheck (by decide)).mpr hpass, ?_⟩
  have hapart : ∀ q, q ≠ .text 0 → ∀ id ∈ halves.root.ids,
      id ∉ (halves.only.tree q).ids := fun q hq id _ => by
    rw [Forest.tree_of_single (f := halves.only) rfl rfl hq]
    simp
  obtain ⟨visited, g, hexec, hiff⟩ :=
    htraverse hpass rfl (by decide) hapart (by decide) (by decide)
  exact ⟨visited, g, hexec, hiff.mpr hunwrapped⟩

/-- One character below a root whose two children have half of all words each. -/
def wrapped : Text :=
  { name := "wrapped"
    beginOffset := 0
    content := "x"
    root := .node { id := 0, link := .owner 0, data := { total := 1 } }
      (.node { id := 1, link := .node 0, data := { total := 9223372036854775808 } } .nil .nil)
      (.node { id := 2, link := .node 0, data := { total := 9223372036854775808 } } .nil .nil) }

/-- The checks pass, although the children have more characters than the root and the text. -/
theorem checks_pass_wrapped :
    exec (Run.checkInvariants 0) wrapped.only = (.ok ⟨⟩, wrapped.only) ∧
      (exec (Run.checkIntervals 0) wrapped.only).1 = .ok ⟨⟩ ∧
      ¬ wrapped.root.Weighed ∧
      ∃ g, exec (Run.traverseIntervals 0 noteRange) ([], wrapped.only) =
        (.ok ⟨⟩, ([(0, 9223372036854775808), (9223372036854775808, 9223372036854775809),
          (9223372036854775809, 1)], g)) := by
  have hlinked : wrapped.root.Linked := by
    simp only [wrapped, Tree.Linked]
    decide
  have hout : wrapped.root.Outweighs := by
    simp only [wrapped, Tree.Outweighs]
    decide
  have hwrap : ¬ wrapped.root.Weighed := by
    simp only [wrapped, Tree.Weighed]
    decide
  obtain ⟨site, hsite, hsub⟩ : ∃ site,
      wrapped.only.locate? 0 = some site ∧ site.cursor.subtree = wrapped.root := ⟨_, rfl, rfl⟩
  refine ⟨?_, ?_, hwrap, ?_⟩
  · rw [Run.exec_checkInvariants hsite, hsub]
    exact ⟨hlinked, hout⟩
  · rw [@Run.exec_checkIntervals wrapped.only 0 wrapped rfl (by decide)]
    rintro link ⟨⟩
    exact ⟨rfl, by decide, hlinked, hout⟩
  · obtain ⟨g, hexec⟩ := Run.exec_traverseIntervals_noteRange (t := 0) (x := wrapped)
      (f := wrapped.only) rfl (by decide) (by decide)
      fun q hq id _ => by
        rw [Forest.tree_of_single (f := wrapped.only) rfl rfl hq]
        simp
    exact ⟨g, hexec⟩

end SpanTree
