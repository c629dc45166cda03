/-
SpanTree.Proofs.Strolls — steps from node to node, and where they lead.

A step to the right gives the next node a cache that continues the one of
the node it starts at, and a step to the left a cache that leads up to it.
Nothing else changes (`Forest.StepsRight`, `Forest.StepsLeft`). Caches
need not be right for this: a step computes with the cache it finds.

A stroll repeats such steps until there is no neighbour. `Strolls` is an
inductive relation, so that a stroll is one that ends. What it visits are
the spans laid out one after the other (`laid`), each node once. From the
first node to the last, from the last to the first, and by a traversal the
same spans are visited, and the same caches are left behind.

Two trees that differ in caches only are equal if they have one list of
spans (`Tree.Retimed.eq`). So everything is said and compared on lists.
-/
import SpanTree.Proofs.Relocations

namespace SpanTree

/-! ## Spans laid out one after the other -/

/-- What spans cover, as a word. -/
def extent : List Span → Size
  | [] => 0
  | x :: rest => x.length + extent rest

/-- The spans moved to where they start, if they follow each other from a position on. -/
def laid (position : Size) : List Span → List Span
  | [] => []
  | x :: rest => x.movedTo position :: laid (position + x.length) rest

section Laid

variable {base : Size} {x : Span} {a b spans : List Span}

@[simp] theorem Span.movedTo_self (x : Span) : x.movedTo x.position = x := rfl

@[simp] theorem extent_nil : extent [] = 0 := rfl

@[simp] theorem extent_cons (x : Span) (rest : List Span) :
    extent (x :: rest) = x.length + extent rest := rfl

theorem extent_append (a b : List Span) : extent (a ++ b) = extent a + extent b := by
  induction a with
  | nil => simp
  | cons x rest ih => rw [List.cons_append, extent_cons, extent_cons, ih]; grind

theorem laid_append (base : Size) (a b : List Span) :
    laid base (a ++ b) = laid base a ++ laid (base + extent a) b := by
  induction a generalizing base with
  | nil => simp [laid]
  | cons x rest ih =>
    have hnext : base + x.length + extent rest = base + (x.length + extent rest) := by grind
    rw [List.cons_append, laid, ih, laid, extent_cons, hnext, List.cons_append]

/-- Where a span was before does not matter. -/
theorem laid_movedTo (base q : Size) (x : Span) (rest : List Span) :
    laid base (x.movedTo q :: rest) = laid base (x :: rest) := rfl

/-- A span that is where it belongs stays there. -/
theorem laid_of_position (h : x.position = base) (rest : List Span) :
    laid base (x :: rest) = x :: laid (base + x.length) rest := by
  rw [laid, ← h, Span.movedTo_self]

@[simp] theorem extent_laid (base : Size) (spans : List Span) :
    extent (laid base spans) = extent spans := by
  induction spans generalizing base with
  | nil => rfl
  | cons x rest ih => rw [laid, extent_cons, ih, extent_cons, Span.movedTo_length]

@[simp] theorem laid_laid (base q : Size) (spans : List Span) :
    laid base (laid q spans) = laid base spans := by
  induction spans generalizing base q with
  | nil => rfl
  | cons x rest ih => rw [laid, laid_movedTo, laid, ih, laid]

theorem ids_laid (base : Size) (spans : List Span) :
    (laid base spans).map (·.id) = spans.map (·.id) := by
  induction spans generalizing base with
  | nil => rfl
  | cons x rest ih => rw [laid, List.map_cons, ih, List.map_cons, Span.movedTo_id]

/-- **Exact positions.** Each span starts where those before it end, as far as a word can tell. -/
theorem position_laid (h : laid base spans = a ++ x :: b) :
    x.position.toNat = (base.toNat + covered a) % 2 ^ 64 := by
  induction spans generalizing base a with
  | nil => simp [laid] at h
  | cons y rest ih =>
    cases a with
    | nil =>
      obtain ⟨rfl, -⟩ := List.cons.inj h
      have := base.toNat_lt
      simp only [covered_nil, Nat.add_zero]
      exact (Nat.mod_eq_of_lt this).symm
    | cons z zs =>
      obtain ⟨rfl, hrest⟩ := List.cons.inj h
      rw [ih hrest, UInt64.toNat_add, covered_cons, Span.movedTo_length]
      omega

end Laid

/-! ## Trees that differ in caches -/

/-- The second tree is the first with other caches: those of the given spans. -/
structure Tree.Retimed (t : Tree) (spans : List Span) (u : Tree) : Prop where
  skeleton : u.skeleton = t.skeleton
  spans : u.spans = spans

namespace Tree

variable {t u v : Tree} {spans spans' : List Span}

/-- The skeleton of a tree and its spans are all there is. -/
theorem eq_of_skeleton (hskel : u.skeleton = t.skeleton) (hspans : u.spans = t.spans) : u = t := by
  induction t generalizing u with
  | nil =>
    cases u with
    | nil => rfl
    | node n l r => cases hskel
  | node n l r ihl ihr =>
    cases u with
    | nil => cases hskel
    | node m l' r' =>
      simp only [skeleton, Tree.node.injEq] at hskel
      obtain ⟨hbone, hl, hr⟩ := hskel
      have hlength := congrArg List.length (twins_of_skeleton hl).ids
      rw [spans_node, spans_node] at hspans
      obtain ⟨hls, hrest⟩ := List.append_inj hspans (by simpa [ids] using hlength)
      obtain ⟨hspan, hrs⟩ := List.cons.inj hrest
      obtain rfl := ihl hl hls
      obtain rfl := ihr hr hrs
      -- the bone has the identity, the link and the weight, and the span the rest
      obtain ⟨id, link, data⟩ := n
      obtain ⟨id', link', data'⟩ := m
      simp only [Node.bone, Node.mk.injEq, Payload.mk.injEq, and_true] at hbone
      simp only [Node.span, Span.mk.injEq] at hspan
      obtain ⟨rfl, rfl, htotal⟩ := hbone
      obtain ⟨-, -, hposition, hflags, hplist⟩ := hspan
      have hdata : data' = data := by
        cases data
        cases data'
        simp_all
      rw [hdata]

theorem Retimed.refl (t : Tree) : t.Retimed t.spans t := ⟨rfl, rfl⟩

theorem Retimed.trans (h : t.Retimed spans u) (h' : u.Retimed spans' v) : t.Retimed spans' v :=
  ⟨h'.skeleton.trans h.skeleton, h'.spans⟩

/-- What the spans of a tree cover, as a word, is its weight. -/
theorem extent_spans (t : Tree) : extent t.spans = t.total := by
  induction t with
  | nil => rfl
  | node n l r ihl ihr =>
    rw [spans_node, extent_append, extent_cons, ihl, ihr, Node.span_length, Node.length, total_node]
    grind

/-- Only one tree has these caches. -/
theorem Retimed.eq (h : t.Retimed spans u) (h' : t.Retimed spans v) : u = v :=
  eq_of_skeleton (h.skeleton.trans h'.skeleton.symm) (h.spans.trans h'.spans.symm)

theorem Retimed.linked (h : t.Retimed spans u) (ht : t.Linked) : u.Linked := by
  rw [← linked_outline, outline_congr h.skeleton, linked_outline]
  exact ht

end Tree

/-- A cache is set. -/
theorem Cursor.retimed_withPosition (c : Cursor) (q : Size) :
    c.toTree.Retimed (c.before ++ c.span.movedTo q :: c.after) (c.withPosition q).toTree where
  skeleton := c.skeleton_withPosition q
  spans := by
    rw [Cursor.spans_toTree, Cursor.before_withPosition, Cursor.after_withPosition]
    rfl

/-! ## Single steps -/

namespace Forest

/-- The operation succeeds with a result and changes only caches of the tree of the place, so that
its spans are the given ones. -/
def Retimes {α : Type} (f : Forest) (p : Place) (op : Run α) (result : α) (spans : List Span) :
    Prop :=
  ∃ u, (f.tree p).Retimed spans u ∧ exec op f = (.ok result, f.plant u p)

variable {f g : Forest} {p : Place} {pre post spans : List Span} {x y : Span}

theorem Holds.retimed (hf : f.Holds p) {u : Tree} (hu : (f.tree p).Retimed spans u) :
    (f.plant u p).Holds p ∧ (f.plant u p).tree p = u := by
  have htwins := Tree.twins_of_skeleton hu.skeleton
  exact ⟨hf.twin htwins, tree_plant p htwins.isNil.symm⟩

/-- A move goes where it goes from the cursor of the node. -/
theorem exec_moveTo_at {move : Cursor → Option Cursor} {id : NodeId} {c : Cursor}
    (hc : f.locate? id = some ⟨p, c⟩) :
    exec (Run.moveTo move id) f =
      match move c with
      | some d => (.ok (some d.node.id), f.plant d.toTree p)
      | none => (.ok none, f) := by
  rw [Run.moveTo, exec_bind_ok (Run.exec_locate hc)]
  dsimp only
  cases move c with
  | none => rfl
  | some d => rfl

/-- The last node has no next one. -/
theorem Holds.next_last (hf : f.Holds p) (hcut : (f.tree p).spans = pre ++ [x]) :
    exec (Run.next x.id) f = (.ok none, f) := by
  obtain ⟨c, hc, htree, -, -, hafter⟩ := hf.cut hcut
  rcases c.adjacent?_right (htree ▸ hf.wellFormed.linked) with ⟨-, hnone⟩ | ⟨d, -, hnext⟩
  · rw [Run.next, exec_moveTo_at hc, Cursor.next?, hnone]
    rfl
  · rw [hnext.after] at hafter
    cases hafter

/-- The first node has none before it. -/
theorem Holds.prev_first (hf : f.Holds p) (hcut : (f.tree p).spans = x :: post) :
    exec (Run.prev x.id) f = (.ok none, f) := by
  rw [← List.nil_append (x :: post)] at hcut
  obtain ⟨c, hc, htree, hbefore, -⟩ := hf.cut hcut
  rcases c.adjacent?_left (htree ▸ hf.wellFormed.linked) with ⟨-, hnone⟩ | ⟨d, -, hnext⟩
  · rw [Run.prev, exec_moveTo_at hc, Cursor.prev?, hnone]
    rfl
  · simp [hnext.before] at hbefore

/-- The next node gets the cache that continues the one of the node. -/
theorem Holds.next_on (hf : f.Holds p) (hcut : (f.tree p).spans = pre ++ x :: y :: post) :
    f.Retimes p (Run.next x.id) (some y.id)
      (pre ++ x :: y.movedTo (x.position + x.length) :: post) := by
  obtain ⟨c, hc, htree, rfl, rfl, hafter⟩ := hf.cut hcut
  rcases c.adjacent?_right (htree ▸ hf.wellFormed.linked) with ⟨hnone, -⟩ | ⟨d, hd, hnext⟩
  · simp [hnone] at hafter
  obtain ⟨rfl, rfl⟩ := List.cons.inj (hnext.after.symm.trans hafter)
  refine ⟨(d.withPosition c.ending).toTree, ?_, ?_⟩
  · have hset := d.retimed_withPosition c.ending
    rw [hnext.toTree, htree, hnext.before, List.append_assoc] at hset
    exact hset
  · rw [Run.next, exec_moveTo_at hc, Cursor.next?, hd]
    rfl

/-- The node before gets the cache that leads up to the one of the node. -/
theorem Holds.prev_on (hf : f.Holds p) (hcut : (f.tree p).spans = pre ++ y :: x :: post) :
    f.Retimes p (Run.prev x.id) (some y.id)
      (pre ++ y.movedTo (x.position - y.length) :: x :: post) := by
  have hcut' : (f.tree p).spans = (pre ++ [y]) ++ x :: post := by simp [hcut]
  obtain ⟨c, hc, htree, hbefore, rfl, rfl⟩ := hf.cut hcut'
  rcases c.adjacent?_left (htree ▸ hf.wellFormed.linked) with ⟨hnone, -⟩ | ⟨d, hd, hnext⟩
  · simp [hnone] at hbefore
  obtain ⟨rfl, hy⟩ := List.append_inj' (hnext.before.symm.trans hbefore) rfl
  obtain rfl := List.singleton_inj.mp hy
  refine ⟨(d.withPosition (c.position - d.length)).toTree, ?_, ?_⟩
  · have hset := d.retimed_withPosition (c.position - d.length)
    rw [← hnext.toTree, htree, hnext.after] at hset
    exact hset
  · rw [Run.prev, exec_moveTo_at hc, Cursor.prev?, hd]
    rfl

/-- Where the tree of a place is planted in the forest that it comes from nothing changes. -/
theorem Holds.same_retimed (hf : f.Holds p) {u : Tree} (hu : (f.tree p).Retimed spans u) :
    (f.plant u p).plant ((f.plant u p).tree p) p = f.plant u p := by
  rw [(hf.retimed hu).2, plant_plant]

/-- An operation that leaves the caches as they are leaves the tree as it is. -/
theorem Retimes.same {α : Type} {op : Run α} {r : α} (h : f.Retimes p op r (f.tree p).spans)
    (hsame : f.plant (f.tree p) p = f) : exec op f = (.ok r, f) := by
  obtain ⟨u, hu, hexec⟩ := h
  rw [hexec, hu.eq (.refl _), hsame]

/-- A step to the right from a span of a tree. Without a next span it finds nothing and does
nothing. Otherwise it sets one cache, and a step to the left leads back to the span as it was. -/
structure StepsRight (f : Forest) (p : Place) (pre : List Span) (x : Span) (post : List Span) :
    Prop where
  last : post = [] → exec (Run.next x.id) f = (.ok none, f)
  on : ∀ y rest, post = y :: rest →
    f.Retimes p (Run.next x.id) (some y.id)
      (pre ++ x :: y.movedTo (x.position + x.length) :: rest)
  back : ∀ y rest g, post = y :: rest → exec (Run.next x.id) f = (.ok (some y.id), g) →
    exec (Run.prev y.id) g = (.ok (some x.id), g) ∧ exec (Run.span x.id) g = (.ok x, g)

/-- A step to the left from a span of a tree. Without a span before it finds nothing and does
nothing. Otherwise it sets one cache, and a step to the right leads back to the span as it was. -/
structure StepsLeft (f : Forest) (p : Place) (pre : List Span) (x : Span) (post : List Span) :
    Prop where
  first : pre = [] → exec (Run.prev x.id) f = (.ok none, f)
  on : ∀ init y, pre = init ++ [y] →
    f.Retimes p (Run.prev x.id) (some y.id)
      (init ++ y.movedTo (x.position - y.length) :: x :: post)
  back : ∀ init y g, pre = init ++ [y] → exec (Run.prev x.id) f = (.ok (some y.id), g) →
    exec (Run.next y.id) g = (.ok (some x.id), g) ∧ exec (Run.span x.id) g = (.ok x, g)

theorem Holds.stepsRight (hf : f.Holds p) (hcut : (f.tree p).spans = pre ++ x :: post) :
    f.StepsRight p pre x post := by
  refine ⟨?_, ?_, ?_⟩
  · rintro rfl
    exact hf.next_last hcut
  · rintro y rest rfl
    exact hf.next_on hcut
  · rintro y rest g rfl hg
    obtain ⟨u, hu, hexec⟩ := hf.next_on hcut
    obtain rfl : f.plant u p = g := (Prod.mk.inj (hexec.symm.trans hg)).2
    obtain ⟨hheld, htree⟩ := hf.retimed hu
    have hspans : ((f.plant u p).tree p).spans =
        pre ++ x :: y.movedTo (x.position + x.length) :: rest := by rw [htree, hu.spans]
    have hback := hheld.prev_on hspans
    have hx : x.position + x.length - x.length = x.position := by grind
    rw [Span.movedTo_id, Span.movedTo_position, hx, Span.movedTo_self, ← hspans] at hback
    exact ⟨hback.same (hf.same_retimed hu), hheld.exec_span (by simp [hspans])⟩

theorem Holds.stepsLeft (hf : f.Holds p) (hcut : (f.tree p).spans = pre ++ x :: post) :
    f.StepsLeft p pre x post := by
  refine ⟨?_, ?_, ?_⟩
  · rintro rfl
    exact hf.prev_first hcut
  · rintro init y rfl
    exact hf.prev_on (by simpa using hcut)
  · rintro init y g rfl hg
    rw [List.append_assoc, List.singleton_append] at hcut
    obtain ⟨u, hu, hexec⟩ := hf.prev_on hcut
    obtain rfl : f.plant u p = g := (Prod.mk.inj (hexec.symm.trans hg)).2
    obtain ⟨hheld, htree⟩ := hf.retimed hu
    have hspans : ((f.plant u p).tree p).spans =
        init ++ y.movedTo (x.position - y.length) :: x :: post := by rw [htree, hu.spans]
    have hback := hheld.next_on hspans
    have hx : x.position - y.length + y.length = x.position := by grind
    rw [Span.movedTo_id, Span.movedTo_position, Span.movedTo_length, hx, Span.movedTo_self,
      ← hspans] at hback
    exact ⟨hback.same (hf.same_retimed hu), hheld.exec_span (by simp [hspans])⟩

end Forest

/-! ## Strolls -/

namespace Cursor

/-- Steps from a node until there is none, with the spans that the stroll finds and the node where
it ends. -/
inductive Strolls (step : Cursor → Option Cursor) : Cursor → List Span → Cursor → Prop
  | last {c : Cursor} (stop : step c = none) : Strolls step c [c.span] c
  | on {c d e : Cursor} {spans : List Span} (next : step c = some d)
    (rest : Strolls step d spans e) : Strolls step c (c.span :: spans) e

/-- With enough fuel a trail is a stroll. -/
theorem Strolls.trail {step : Cursor → Option Cursor} {c e : Cursor} {spans : List Span}
    (h : Strolls step c spans e) {fuel : Nat} (hfuel : spans.length ≤ fuel + 1) :
    trail step fuel c = (spans, e) := by
  induction h generalizing fuel with
  | last stop => cases fuel <;> simp [Cursor.trail, stop, span]
  | @on c d e spans next rest ih =>
    cases fuel with
    | zero => cases rest <;> simp at hfuel
    | succ fuel =>
      rw [Cursor.trail, next]
      simp [ih (by simpa using hfuel), span]

/-- A stroll to the right visits the spans from a node on, each where the one before ends. -/
theorem strolls_right {c : Cursor} (hl : c.toTree.Linked) :
    ∃ e, Strolls next? c (laid c.position (c.span :: c.after)) e ∧ e.after = [] ∧
      c.toTree.Retimed (c.before ++ laid c.position (c.span :: c.after)) e.toTree := by
  obtain ⟨n, hn⟩ : ∃ n, c.after.length = n := ⟨_, rfl⟩
  induction n generalizing c with
  | zero =>
    have hnil : c.after = [] := List.length_eq_zero_iff.mp hn
    rcases c.adjacent?_right hl with ⟨-, hnone⟩ | ⟨d, -, hnext⟩
    · refine ⟨c, ?_, hnil, ?_⟩
      · rw [hnil]
        exact .last (by rw [next?, hnone]; rfl)
      · rw [hnil]
        exact ⟨rfl, by rw [spans_toTree, hnil]; rfl⟩
    · simp [hnext.after] at hnil
  | succ n ih =>
    rcases c.adjacent?_right hl with ⟨hnone, -⟩ | ⟨d, hd, hnext⟩
    · simp [hnone] at hn
    have hset := d.retimed_withPosition c.ending
    have hlinked : (d.withPosition c.ending).toTree.Linked := hset.linked (hnext.toTree ▸ hl)
    have hafter : (d.withPosition c.ending).after.length = n := by
      rw [hnext.after] at hn
      simpa using hn
    obtain ⟨e, hstroll, hend, hretimed⟩ := ih hlinked hafter
    rw [position_withPosition, span_withPosition, after_withPosition] at hstroll hretimed
    have hlaid : laid c.position (c.span :: c.after) =
        c.span :: laid c.ending (d.span.movedTo c.ending :: d.after) := by
      rw [hnext.after]
      rfl
    refine ⟨e, ?_, hend, ?_⟩
    · rw [hlaid]
      exact .on (by rw [next?, hd]; rfl) hstroll
    · rw [hlaid]
      rw [hnext.toTree] at hset
      rw [before_withPosition, hnext.before, List.append_assoc] at hretimed
      exact hset.trans hretimed

/-- A stroll to the left visits the spans up to a node in the other order, if the cache of the
node is what the spans before it make it. -/
theorem strolls_left {c : Cursor} {base : Size} (hl : c.toTree.Linked)
    (hbase : c.position = base + extent c.before) :
    ∃ e, Strolls prev? c (laid base (c.before ++ [c.span])).reverse e ∧ e.before = [] ∧
      c.toTree.Retimed (laid base (c.before ++ [c.span]) ++ c.after) e.toTree := by
  obtain ⟨n, hn⟩ : ∃ n, c.before.length = n := ⟨_, rfl⟩
  induction n generalizing c with
  | zero =>
    have hnil : c.before = [] := List.length_eq_zero_iff.mp hn
    rcases c.adjacent?_left hl with ⟨-, hnone⟩ | ⟨d, -, hnext⟩
    · have hlaid : laid base (c.before ++ [c.span]) = [c.span] := by
        rw [laid_append, laid_of_position hbase, hnil]
        rfl
      refine ⟨c, ?_, hnil, ?_⟩
      · rw [hlaid]
        exact .last (by rw [prev?, hnone]; rfl)
      · rw [hlaid]
        exact ⟨rfl, by rw [spans_toTree, hnil]; rfl⟩
    · simp [hnext.before] at hnil
  | succ n ih =>
    rcases c.adjacent?_left hl with ⟨hnone, -⟩ | ⟨d, hd, hnext⟩
    · simp [hnone] at hn
    have hset := d.retimed_withPosition (c.position - d.length)
    have hlinked := hset.linked (hnext.toTree ▸ hl)
    have hcount : (d.withPosition (c.position - d.length)).before.length = n := by
      rw [hnext.before] at hn
      simpa using hn
    have hcache : c.position - d.length = base + extent d.before := by
      rw [hbase, hnext.before, extent_append, extent_cons, extent_nil, span_length]
      grind
    obtain ⟨e, hstroll, hend, hretimed⟩ := ih hlinked (by simpa using hcache) hcount
    have hlaid : laid base (c.before ++ [c.span]) =
        laid base (d.before ++ [d.span.movedTo (c.position - d.length)]) ++ [c.span] := by
      rw [laid_append, laid_of_position hbase, hnext.before, laid_append, laid_append, laid_movedTo]
      rfl
    rw [before_withPosition] at hstroll hretimed
    refine ⟨e, ?_, hend, ?_⟩
    · rw [hlaid, List.reverse_append]
      exact .on (by rw [prev?, hd]; rfl) hstroll
    · rw [hlaid]
      rw [after_withPosition, hnext.after] at hretimed
      rw [← hnext.toTree] at hset
      simpa using hset.trans hretimed

end Cursor

namespace Run

/-- Moves from a node until there is none, with the spans that are looked up on the way, the node
where it ends and the forest that is left. -/
inductive Strolls (move : NodeId → Run (Option NodeId)) :
    NodeId → Forest → List Span → NodeId → Forest → Prop
  | last {id : NodeId} {f : Forest} {x : Span} (here : exec (span id) f = (.ok x, f))
    (stop : exec (move id) f = (.ok none, f)) : Strolls move id f [x] id f
  | on {id next last : NodeId} {f g h : Forest} {x : Span} {spans : List Span}
    (here : exec (span id) f = (.ok x, f)) (step : exec (move id) f = (.ok (some next), g))
    (rest : Strolls move next g spans last h) : Strolls move id f (x :: spans) last h

/-- There is only one stroll from a node. -/
theorem Strolls.unique {move : NodeId → Run (Option NodeId)} {id last last' : NodeId}
    {f g g' : Forest} {spans spans' : List Span} (h : Strolls move id f spans last g)
    (h' : Strolls move id f spans' last' g') : spans = spans' ∧ last = last' ∧ g = g' := by
  induction h generalizing spans' last' g' with
  | last here stop =>
    cases h' with
    | last here' stop' => simp_all
    | on here' step' rest' => simp_all
  | on here step rest ih =>
    cases h' with
    | last here' stop' => simp_all
    | on here' step' rest' =>
      rw [step] at step'
      simp only [Prod.mk.injEq, Except.ok.injEq, Option.some.injEq] at step'
      obtain ⟨rfl, rfl⟩ := step'
      obtain ⟨rfl, rfl, rfl⟩ := ih rest'
      simp_all

end Run

namespace Forest

variable {f : Forest} {p : Place} {move : Cursor → Option Cursor} {c e : Cursor}
  {spans : List Span}

/-- A stroll of cursors is a stroll in the forest, where each step looks its node up again. -/
theorem Holds.strolls (hf : f.Holds p) (hsame : f.plant (f.tree p) p = f)
    (hmove : ∀ c d, move c = some d → d.toTree.skeleton = c.toTree.skeleton)
    (htree : c.toTree = f.tree p) (h : Cursor.Strolls move c spans e) :
    Run.Strolls (Run.moveTo move) c.node.id f spans e.node.id (f.plant e.toTree p) := by
  induction h generalizing f with
  | @last c stop =>
    have hc := hf.locate_of_toTree htree
    have hhere := hf.exec_span (y := c.span) (by simp [← htree, c.spans_toTree])
    rw [htree, hsame]
    refine .last hhere ?_
    rw [exec_moveTo_at hc, stop]
  | @on c d e spans next rest ih =>
    have hc := hf.locate_of_toTree htree
    have hset : (f.tree p).Retimed d.toTree.spans d.toTree := by
      rw [← htree]
      exact ⟨hmove c d next, rfl⟩
    obtain ⟨hheld, htree'⟩ := hf.retimed hset
    have hrest := ih hheld (hf.same_retimed hset) htree'.symm
    rw [plant_replace] at hrest
    have hhere := hf.exec_span (y := c.span) (by simp [← htree, c.spans_toTree])
    refine .on hhere ?_ hrest
    rw [exec_moveTo_at hc, next]

/-- A walk that a stroll describes. -/
theorem Holds.exec_walk (hf : f.Holds p) (s : Side) (htree : c.toTree = f.tree p)
    (h : Cursor.Strolls (s.pick Cursor.prev? Cursor.next?) c spans e)
    (hsize : spans.length ≤ (f.tree p).size) :
    exec (Run.walk s c.node.id) f = (.ok spans, f.plant e.toTree p) := by
  rw [Run.walk, exec_bind_ok (Run.exec_locate (hf.locate_of_toTree htree))]
  dsimp only
  rw [Cursor.walk, h.trail (Nat.le_succ_of_le (htree ▸ hsize))]
  rfl

/-- From the top one gets to the first and to the last span. -/
theorem Holds.exec_outermost (hf : f.Holds p) {top : NodeId} (htop : (f.tree p).id? = some top)
    (s : Side) : ∃ d : Cursor, exec (Run.outermost s top) f = (.ok d.node.id, f) ∧
      d.toTree = f.tree p ∧ s.pick d.before d.after = [] := by
  obtain ⟨c, hc, htree, hpath, -⟩ := hf.top htop
  obtain ⟨hout, hend⟩ := Cursor.outermost_of_top hpath s
  refine ⟨c.outermost s, ?_, hout.trans htree, hend⟩
  rw [Run.outermost, exec_bind_ok (Run.exec_locate hc), exec_pure]

end Forest

/-! ## Traversals -/

/-- A client that notes the span of every node it is called for. -/
def noteSpan (id : NodeId) : Client (List Span) Unit := do
  let x ← liftM (Run.span id)
  fun (noted, f) => (.ok ⟨⟩, (noted ++ [x], f))

namespace Forest

variable {f : Forest} {p : Place} {pre post todo : List Span} {y : Span}

/-- A visit sets a cache and notes the span that has it. -/
theorem Holds.exec_noteSpan (hf : f.Holds p) (hcut : (f.tree p).spans = pre ++ y :: post)
    (q : Size) (noted : List Span) :
    ∃ u, (f.tree p).Retimed (pre ++ y.movedTo q :: post) u ∧
      exec (Run.visitAt noteSpan (y.id, q)) (noted, f) =
        (.ok ⟨⟩, (noted ++ [y.movedTo q], f.plant u p)) := by
  obtain ⟨c, hc, htree, rfl, rfl, rfl⟩ := hf.cut hcut
  have hset := c.retimed_withPosition q
  rw [htree] at hset
  have hexec := Run.exec_modifyNode hc (·.withPosition q)
  obtain ⟨hheld, htree'⟩ := hf.retimed hset
  have hspan := hheld.exec_span (y := c.span.movedTo q) (by rw [htree', hset.spans]; simp)
  refine ⟨_, hset, ?_⟩
  rw [Run.visitAt, exec_liftM_bind_ok hexec, noteSpan]
  exact exec_liftM_bind_ok hspan

/-- One visit after the other, each where the one before ends. -/
theorem Holds.exec_forM_noteSpan (hf : f.Holds p) (hsame : f.plant (f.tree p) p = f)
    (hcut : (f.tree p).spans = pre ++ todo) (q : Size) (noted : List Span) :
    ∃ u, (f.tree p).Retimed (pre ++ laid q todo) u ∧
      exec (forM (starts q todo) (Run.visitAt noteSpan)) (noted, f) =
        (.ok ⟨⟩, (noted ++ laid q todo, f.plant u p)) := by
  induction todo generalizing f pre q noted with
  | nil =>
    refine ⟨f.tree p, ⟨rfl, hcut⟩, ?_⟩
    rw [hsame]
    simp [starts, laid]
  | cons y todo ih =>
    obtain ⟨u, hu, hvisit⟩ := hf.exec_noteSpan hcut q noted
    obtain ⟨hheld, htree⟩ := hf.retimed hu
    have hcut' : ((f.plant u p).tree p).spans = (pre ++ [y.movedTo q]) ++ todo := by
      rw [htree, hu.spans]
      simp
    obtain ⟨v, hv, hloop⟩ := ih hheld (hf.same_retimed hu) hcut' (q + y.length)
      (noted ++ [y.movedTo q])
    rw [htree] at hv
    refine ⟨v, by simpa [laid] using hu.trans hv, ?_⟩
    rw [starts, List.forM_cons, exec_bind_ok hvisit, hloop, plant_replace]
    simp [laid]

/-- A traversal visits the spans laid out from its position on. -/
theorem Holds.exec_traverse_noteSpan (hf : f.Holds p) (hsame : f.plant (f.tree p) p = f)
    {top : NodeId} (htop : (f.tree p).id? = some top) (base : Size) :
    ∃ u, (f.tree p).Retimed (laid base (f.tree p).spans) u ∧
      exec (Run.traverse top base noteSpan) ([], f) =
        (.ok ⟨⟩, (laid base (f.tree p).spans, f.plant u p)) := by
  obtain ⟨u, hu, hloop⟩ := hf.exec_forM_noteSpan hsame (List.nil_append _).symm base []
  refine ⟨u, hu, ?_⟩
  have hbears : f.Bears p (f.tree p).frame :=
    ⟨fun q hq id hid => hf.apart q hq id (by simpa using hid), rfl⟩
  have hd : (f.tree p).frame.ids.Nodup := by simpa using hf.wellFormed.distinct
  have hsub := Tree.subtree?_top (t := (f.tree p).frame) (by simpa using htop)
  rw [Run.exec_traverse_starts (I := fun g => g.Bears p (f.tree p).frame) (fun _ h => h) hd hsub
    base (fun x hx s g hg => ?_) hbears]
  · rw [starts_frame]
    exact hloop
  · have hid : x.1 ∈ (f.tree p).frame.ids := by
      rw [Tree.ids, ← ids_starts base]
      exact List.mem_map_of_mem hx
    obtain ⟨g', hset, hg'⟩ := hg.setPosition hid x.2
    rw [Run.visitAt, exec_liftM_bind_ok hset, noteSpan, exec_bind, exec_liftM, Run.exec_span_same]
    cases (exec (Run.span x.1) g').1 <;> exact hg'

/-! ## From one end to the other -/

/-- A stroll to the right from the first span. -/
theorem Holds.strolls_next (hf : f.Holds p) (hsame : f.plant (f.tree p) p = f)
    (hcut : (f.tree p).spans = y :: post) :
    ∃ last u, (f.tree p).ids.getLast? = some last ∧
      (f.tree p).Retimed (laid y.position (f.tree p).spans) u ∧
      Run.Strolls Run.next y.id f (laid y.position (f.tree p).spans) last (f.plant u p) ∧
      exec (Run.walk .right y.id) f = (.ok (laid y.position (f.tree p).spans), f.plant u p) := by
  obtain ⟨c, -, htree, hbefore, rfl, rfl⟩ := hf.cut (hcut.trans (List.nil_append _).symm)
  obtain ⟨e, hstroll, hend, hset⟩ := Cursor.strolls_right (htree ▸ hf.wellFormed.linked)
  rw [hbefore, List.nil_append, htree] at hset
  rw [hcut]
  refine ⟨e.node.id, e.toTree, ?_, hset, ?_, ?_⟩
  · have hids := (Tree.twins_of_skeleton hset.skeleton).ids
    rw [← hids, Tree.ids, e.spans_toTree, hend]
    simp
  · exact hf.strolls hsame (fun _ _ => Cursor.skeleton_of_next) htree hstroll
  · refine hf.exec_walk .right htree hstroll ?_
    rw [← Tree.length_spans, ← List.length_map (f := (·.id)), ids_laid, List.length_map, hcut]

/-- A stroll to the left from the last span, if its cache is what the others make it. -/
theorem Holds.strolls_prev (hf : f.Holds p) (hsame : f.plant (f.tree p) p = f) {base : Size}
    (hcut : (f.tree p).spans = pre ++ [y]) (hbase : y.position = base + extent pre) :
    ∃ first u, (f.tree p).ids.head? = some first ∧
      (f.tree p).Retimed (laid base (f.tree p).spans) u ∧
      Run.Strolls Run.prev y.id f (laid base (f.tree p).spans).reverse first (f.plant u p) ∧
      exec (Run.walk .left y.id) f = (.ok (laid base (f.tree p).spans).reverse, f.plant u p) := by
  obtain ⟨c, -, htree, rfl, rfl, hafter⟩ := hf.cut hcut
  obtain ⟨e, hstroll, hend, hset⟩ := Cursor.strolls_left (htree ▸ hf.wellFormed.linked) hbase
  rw [hafter, List.append_nil, htree] at hset
  rw [hcut]
  refine ⟨e.node.id, e.toTree, ?_, hset, ?_, ?_⟩
  · have hids := (Tree.twins_of_skeleton hset.skeleton).ids
    rw [← hids, Tree.ids, e.spans_toTree, hend]
    simp
  · exact hf.strolls hsame (fun _ _ => Cursor.skeleton_of_prev) htree hstroll
  · refine hf.exec_walk .left htree hstroll ?_
    rw [List.length_reverse, ← Tree.length_spans, ← List.length_map (f := (·.id)), ids_laid,
      List.length_map, hcut]

/-- **Steps and strolls.** Steps in a well-formed tree, wherever it is and whatever its caches, go
from each span to its neighbours and set one cache, as `StepsRight` and `StepsLeft` say. From the
first node, with its cache at a base, repeated steps to the right visit all spans, laid out from
the base, and end at the last node. From the last node, with an exact cache, those to the left
visit the same spans in the other order, so that they lead back. A traversal from the base visits
what the stroll to the right visits. All of them leave the same caches. -/
theorem Holds.steps_and_strolls (hf : f.Holds p) (hloose : f.loose.Ordered) :
    (∀ pre x post, (f.tree p).spans = pre ++ x :: post →
      f.StepsRight p pre x post ∧ f.StepsLeft p pre x post) ∧
    ∀ top base, (f.tree p).id? = some top → ∃ first last u,
      exec (Run.outermost .left top) f = (.ok first, f) ∧
      exec (Run.outermost .right top) f = (.ok last, f) ∧
      (f.tree p).Retimed (laid base (f.tree p).spans) u ∧
      (∀ x, exec (Run.span first) f = (.ok x, f) → x.position = base →
        Run.Strolls Run.next first f (laid base (f.tree p).spans) last (f.plant u p) ∧
        exec (Run.walk .right first) f = (.ok (laid base (f.tree p).spans), f.plant u p)) ∧
      (∀ x, exec (Run.span last) f = (.ok x, f) →
        x.position + x.length = base + (f.tree p).total →
        Run.Strolls Run.prev last f (laid base (f.tree p).spans).reverse first (f.plant u p) ∧
        exec (Run.walk .left last) f =
          (.ok (laid base (f.tree p).spans).reverse, f.plant u p)) ∧
      Run.Strolls Run.prev last (f.plant u p) (laid base (f.tree p).spans).reverse first
        (f.plant u p) ∧
      exec (Run.traverse top base noteSpan) ([], f) =
        (.ok ⟨⟩, (laid base (f.tree p).spans, f.plant u p)) ∧
      (laid base (f.tree p).spans).map (·.id) = (f.tree p).ids ∧ (f.tree p).ids.Nodup ∧
      ∀ done x todo, laid base (f.tree p).spans = done ++ x :: todo →
        x.position.toNat = (base.toNat + covered done) % 2 ^ 64 := by
  refine ⟨fun pre x post hcut => ⟨hf.stepsRight hcut, hf.stepsLeft hcut⟩, fun top base htop => ?_⟩
  have hsame := plant_same hloose (Tree.isNil_of_mem_ids (Tree.id_mem_ids_of_id? htop))
  obtain ⟨c, hleft, hctree, hcbefore⟩ := hf.exec_outermost htop .left
  obtain ⟨d, hright, hdtree, hdafter⟩ := hf.exec_outermost htop .right
  rw [Side.pick_left] at hcbefore
  rw [Side.pick_right] at hdafter
  have hfirst : (f.tree p).spans = c.span :: c.after := by
    rw [← hctree, c.spans_toTree, hcbefore]
    rfl
  have hlast : (f.tree p).spans = d.before ++ [d.span] := by
    rw [← hdtree, d.spans_toTree, hdafter]
  obtain ⟨u, hu, htraverse⟩ := hf.exec_traverse_noteSpan hsame htop base
  refine ⟨c.node.id, d.node.id, u, hleft, hright, hu, ?_, ?_, ?_, htraverse, ids_laid _ _,
    hf.wellFormed.distinct, fun done x todo => position_laid⟩
  · intro x hx hbase
    have hspan := hf.exec_span (y := c.span) (by simp [hfirst])
    obtain rfl : c.span = x := Except.ok.inj (Prod.mk.inj (hspan.symm.trans hx)).1
    subst hbase
    obtain ⟨last, v, hid, hv, hstroll, hwalk⟩ := hf.strolls_next hsame hfirst
    obtain rfl := hu.eq hv
    obtain rfl : d.node.id = last := by simpa [Tree.ids, hlast] using hid
    exact ⟨hstroll, hwalk⟩
  · intro x hx hend
    have hspan := hf.exec_span (y := d.span) (by simp [hlast])
    obtain rfl : d.span = x := Except.ok.inj (Prod.mk.inj (hspan.symm.trans hx)).1
    have hbase : d.span.position = base + extent d.before := by
      rw [← Tree.extent_spans, hlast, extent_append, extent_cons, extent_nil] at hend
      grind
    obtain ⟨first, v, hid, hv, hstroll, hwalk⟩ := hf.strolls_prev hsame hlast hbase
    obtain rfl := hu.eq hv
    obtain rfl : c.node.id = first := by simpa [Tree.ids, hfirst] using hid
    exact ⟨hstroll, hwalk⟩
  · -- in the forest that is left the last cache is exact
    obtain ⟨hheld, htree⟩ := hf.retimed hu
    have hlast' : ((f.plant u p).tree p).spans =
        laid base d.before ++ [d.span.movedTo (base + extent d.before)] := by
      rw [htree, hu.spans, hlast, laid_append]
      rfl
    obtain ⟨first, v, hid, hv, hstroll, -⟩ := hheld.strolls_prev (hf.same_retimed hu) hlast'
      (by rw [extent_laid, Span.movedTo_position])
    have hids := (Tree.twins_of_skeleton hu.skeleton).ids
    rw [htree, hids] at hid
    rw [htree, hu.spans, laid_laid] at hv hstroll
    obtain rfl := hu.eq (hu.trans hv)
    obtain rfl : c.node.id = first := by simpa [Tree.ids, hfirst] using hid
    rwa [plant_plant] at hstroll

/-- From the first of two nodes to the second and back. -/
theorem steps_and_strolls_pair :
    Edit.pair.Holds (.loose "pair") ∧ Edit.pair.loose.Ordered ∧
    (Edit.pair.tree (.loose "pair")).id? = some 0 ∧
    ∃ u, Run.Strolls Run.next 0 Edit.pair [⟨0, 2, 0, {}, {}⟩, ⟨1, 3, 2, {}, {}⟩] 1
        (Edit.pair.plant u (.loose "pair")) ∧
      Run.Strolls Run.prev 1 (Edit.pair.plant u (.loose "pair"))
        [⟨1, 3, 2, {}, {}⟩, ⟨0, 2, 0, {}, {}⟩] 0 (Edit.pair.plant u (.loose "pair")) := by
  obtain ⟨-, hends⟩ := holds_pair.steps_and_strolls Edit.stands_pair.slots
  obtain ⟨first, last, u, hleft, hright, -, hnext, -, hback, -⟩ := hends 0 0 rfl
  obtain rfl : 0 = first := Except.ok.inj (congrArg Prod.fst hleft)
  obtain rfl : 1 = last := Except.ok.inj (congrArg Prod.fst hright)
  exact ⟨holds_pair, Edit.stands_pair.slots, rfl, u, (hnext ⟨0, 2, 0, {}, {}⟩ rfl rfl).1, hback⟩

end Forest

end SpanTree
