/-
SpanTree.Proofs.Relocations — walks from node to node agree with the
search from the top.

Where a walk ends depends on the lengths of the spans only: `relocation`
reads it off the list. A walk needs one exact cache, that of the node it
starts at (`Forest.Anchored`), and leaves exact caches at all nodes it
passes, the last one included. So a sequence of walks, each from the node
last reached, gives what as many searches from the top would give
(`updateMany_answers`). The induction is on the positions; the invariant
is that the node to start from is anchored and that the list of spans has
changed in caches only, which `relocation` does not read.
-/
import SpanTree.Proofs.Fills
import SpanTree.Proofs.Searches
import SpanTree.Proofs.Sessions
import SpanTree.Proofs.Traversals

namespace SpanTree

/-- Trees with one skeleton differ in payloads only. -/
theorem Tree.twins_of_skeleton {t u : Tree} (h : u.skeleton = t.skeleton) : t.Twins u := by
  have houtline := outline_congr h
  have hids : u.ids = t.ids := by rw [← ids_outline, houtline, ids_outline]
  refine ⟨fun hwell => ⟨?_, ?_, ?_⟩, ?_, ?_, hids⟩
  · rw [← weighed_skeleton, h, weighed_skeleton]
    exact hwell.weighed
  · rw [← linked_outline, houtline, linked_outline]
    exact hwell.linked
  · rw [hids]
    exact hwell.distinct
  · rw [← total_skeleton, h, total_skeleton]
  · rw [← link?_outline, houtline, link?_outline]

/-! ## The owner of a position, whatever the caches -/

/-- The span that owns a position, with its cache made exact, among spans that begin at a start. -/
def ownerAt (p : Size) : Nat → List Span → Option Span
  | _, [] => none
  | start, x :: rest =>
    if start ≤ p.toNat ∧ p.toNat < start + x.length.toNat then
      some (x.movedTo (UInt64.ofNat start))
    else ownerAt p (start + x.length.toNat) rest

/-- What a walk to a position gives among spans that begin at a base: the owner of the position,
or a refusal with the bounds of the spans. -/
def relocation (base : Size) (spans : List Span) (p : Size) : Except Fault Span :=
  match ownerAt p base.toNat spans with
  | some y => .ok y
  | none => .error (.range
    ⟨"interval::update", p, base, UInt64.ofNat (base.toNat + covered spans - 1)⟩)

section Lists

variable {ids : List NodeId} {base p : Size} {start : Nat} {spans pre post : List Span} {y : Span}

theorem ownerAt_cut (h : start + covered pre ≤ p.toNat)
    (h' : p.toNat < start + covered pre + y.length.toNat) :
    ownerAt p start (pre ++ y :: post) = some (y.movedTo (UInt64.ofNat (start + covered pre))) := by
  induction pre generalizing start with
  | nil =>
    rw [covered_nil, Nat.add_zero] at h h'
    simp [ownerAt, h, h']
  | cons x rest ih =>
    rw [covered_cons, ← Nat.add_assoc] at h h'
    have hout : ¬ (start ≤ p.toNat ∧ p.toNat < start + x.length.toNat) := by omega
    rw [List.cons_append, ownerAt, if_neg hout, ih h h', covered_cons, Nat.add_assoc]

theorem ownerAt_eq_none (h : ¬ (start ≤ p.toNat ∧ p.toNat < start + covered spans)) :
    ownerAt p start spans = none := by
  induction spans generalizing start with
  | nil => rfl
  | cons x rest ih =>
    rw [covered_cons] at h
    rw [ownerAt, if_neg (by omega), ih (by omega)]

theorem relocation_cut (h : base.toNat + covered pre ≤ p.toNat)
    (h' : p.toNat < base.toNat + covered pre + y.length.toNat) :
    relocation base (pre ++ y :: post) p =
      .ok (y.movedTo (UInt64.ofNat (base.toNat + covered pre))) := by
  rw [relocation, ownerAt_cut h h']

/-- Positions outside the spans are refused, and no others: the end is outside. -/
theorem relocation_eq_ok_iff : (∃ y, relocation base spans p = .ok y) ↔
    base.toNat ≤ p.toNat ∧ p.toNat < base.toNat + covered spans := by
  constructor
  · rintro ⟨y, hy⟩
    by_contra hout
    simp [relocation, ownerAt_eq_none hout] at hy
  · rintro ⟨hlo, hhi⟩
    obtain ⟨pre, y, post, rfl, h, h'⟩ := exists_inside hlo hhi
    exact ⟨_, relocation_cut h h'⟩

theorem relocation_outside (h : ¬ (base.toNat ≤ p.toNat ∧ p.toNat < base.toNat + covered spans)) :
    relocation base spans p = .error (.range
      ⟨"interval::update", p, base, UInt64.ofNat (base.toNat + covered spans - 1)⟩) := by
  rw [relocation, ownerAt_eq_none h]

/-- What a walk gives is where the position has its place. -/
theorem Locates.of_relocation (h : relocation base spans p = .ok y) :
    ∃ pre z post, spans = pre ++ z :: post ∧ Locates base.toNat p pre z post ∧
      y = z.movedTo (UInt64.ofNat (base.toNat + covered pre)) := by
  obtain ⟨hlo, hhi⟩ := relocation_eq_ok_iff.mp ⟨y, h⟩
  obtain ⟨pre, z, post, rfl, hz, hz'⟩ := exists_inside hlo hhi
  rw [relocation_cut hz hz'] at h
  exact ⟨pre, z, post, rfl, ⟨hz, .inl hz'⟩, (Except.ok.inj h).symm⟩

/-! ## Caches that were made exact -/

@[simp] theorem covered_refresh (ids : List NodeId) (start : Nat) (spans : List Span) :
    covered (refresh ids start spans) = covered spans := by
  induction spans generalizing start with
  | nil => rfl
  | cons x rest ih =>
    simp only [refresh, covered_cons, ih]
    split <;> rfl

/-- The owner of a position is found by the lengths. -/
theorem ownerAt_refresh (ids : List NodeId) (p : Size) (start n : Nat) (spans : List Span) :
    ownerAt p start (refresh ids n spans) = ownerAt p start spans := by
  induction spans generalizing start n with
  | nil => rfl
  | cons x rest ih =>
    simp only [refresh, ownerAt]
    split <;> simp [Span.movedTo, ih]

theorem relocation_refresh (ids : List NodeId) (base p : Size) (n : Nat) (spans : List Span) :
    relocation base (refresh ids n spans) p = relocation base spans p := by
  rw [relocation, relocation, ownerAt_refresh, covered_refresh ids n]

/-- The caches that were made exact are exact. -/
theorem position_of_refresh (h : refresh ids start spans = pre ++ y :: post) (hy : y.id ∈ ids) :
    y.position = UInt64.ofNat (start + covered pre) := by
  induction spans generalizing start pre with
  | nil => simp [refresh] at h
  | cons x rest ih =>
    cases pre with
    | nil =>
      simp only [refresh, List.nil_append, List.cons.injEq] at h
      obtain ⟨rfl, -⟩ := h
      split at hy
      · next hx => simp [hx, Span.movedTo]
      · next hx => exact absurd hy hx
    | cons z zs =>
      simp only [refresh, List.cons_append, List.cons.injEq] at h
      obtain ⟨rfl, hrest⟩ := h
      have hlength :
          (if x.id ∈ ids then x.movedTo (UInt64.ofNat start) else x).length = x.length := by
        split <;> rfl
      rw [ih hrest, covered_cons, hlength, Nat.add_assoc]

end Lists

namespace Cursor

variable {c d : Cursor} {base p : Size}

/-! ## A walk and the search from the top -/

/-- **A walk ends** at the owner of the position, or refuses the position. -/
theorem Trusted.update_relocation (h : c.Trusted base.toNat) (hd : c.toTree.ids.Nodup) (p : Size) :
    (c.update p).2.map (fun _ => (c.update p).1.span) = relocation base c.toTree.spans p := by
  have hend := h.update p
  have hset := (h.recached_update p).spans hd
  have hcover := h.weighed.covered_spans
  obtain ⟨hin, hout⟩ := h.update_arrives p
  by_cases hp : base.toNat ≤ p.toNat ∧ p.toNat < base.toNat + c.toTree.total.toNat
  · obtain ⟨hok, hlo, hhi⟩ := hin hp
    have hpos := hend.position
    generalize (c.update p).1 = e at *
    have hown : relocation base (e.before ++ e.span :: e.after) p =
        .ok (e.span.movedTo (UInt64.ofNat (base.toNat + covered e.before))) :=
      relocation_cut (by omega) (by rw [span_length]; omega)
    rw [← e.spans_toTree, hset, relocation_refresh, ← hpos, UInt64.ofNat_toNat] at hown
    rw [hok, hown]
    rfl
  · obtain ⟨first, last, hfirst, hlast, herr⟩ := hout hp
    rw [← hcover] at hp hlast
    obtain rfl : first = base := UInt64.toNat_inj.mp hfirst
    rw [herr, relocation_outside hp, ← hlast, UInt64.ofNat_toNat]
    rfl

/-- The search from the top comes to the owner too, and sets its cache. -/
theorem span_seek (hw : c.toTree.Weighed) (hpath : c.path = [])
    (hlo : base.toNat ≤ p.toNat) (hhi : p.toNat < base.toNat + c.toTree.total.toNat) :
    relocation base c.toTree.spans p = .ok (c.seek (p - base) p).span := by
  have hback : (p - base).toNat = p.toNat - base.toNat := Size.toNat_sub_of_le hlo
  have hp : p.toNat = base.toNat + (p - base).toNat := by omega
  obtain ⟨d, q, hseek, htree, hq, hplace⟩ := seek_top hw hpath hp (by omega)
  rw [← hw.covered_spans, ← htree, d.spans_toTree] at hhi
  obtain ⟨h, h'⟩ := hplace.inside hhi
  rw [hseek, ← htree, d.spans_toTree, relocation_cut h h', ← hq, UInt64.ofNat_toNat]
  rfl

end Cursor

namespace Cursor

variable {c d : Cursor} {base : Nat} {p : Size}

/-! ## The words that are computed -/

/-- A sum or a difference of two words. -/
inductive Computation where
  | sum (a b : Size)
  | difference (a b : Size)

/-- The word that is computed. -/
def Computation.value : Computation → Size
  | .sum a b => a + b
  | .difference a b => a - b

/-- It does not wrap. -/
def Computation.Fits : Computation → Prop
  | .sum a b => a.toNat + b.toNat < 2 ^ 64
  | .difference a b => b.toNat ≤ a.toNat

/-- What the length of an own span is computed by. -/
def lengthComputations (c : Cursor) : List Computation :=
  [.difference c.node.data.total c.left.total,
    .difference (c.node.data.total - c.left.total) c.right.total]

/-- What a walk computes at a node: the length of the own span, the bounds of the subtree, the
caches of the children, and the cache of the linked parent that has the node on its right. The
cache of one that has it on its left is the end of the subtree. -/
def computations (c : Cursor) : List Computation :=
  c.lengthComputations ++
    [.difference c.position c.left.total, .sum c.position c.length,
      .sum c.ending c.right.total, .difference (c.ending + c.right.total) 1] ++
    (c.down? .left).elim [] (fun d =>
      [.difference c.position d.node.data.total,
        .sum (c.position - d.node.data.total) d.left.total]) ++
    (c.down? .right).elim [] (fun d => [.sum c.ending d.left.total]) ++
    match c.linkedSide?, c.parent? with
    | some .right, some d =>
      d.lengthComputations ++ [.difference (c.position - c.left.total) d.length]
    | _, _ => []

/-- The cache that a node gets when a walk comes to it is among them. -/
theorem position_mem_computations (h : c.moveTowards p = .on d) :
    d.position ∈ c.computations.map Computation.value := by
  have hdown {s : Side} (hd : c.descend? s = some d) :
      d.position ∈ c.computations.map Computation.value := by
    obtain ⟨e, he, rfl⟩ := Option.map_eq_some_iff.mp hd
    cases s <;> simp [computations, he, Computation.value]
  have hup (hd : c.ascend? = some d) : d.position ∈ c.computations.map Computation.value := by
    unfold ascend? at hd
    split at hd
    · cases hd
      simp [computations, Computation.value]
    · next e hside hparent =>
      cases hd
      simp [computations, hside, hparent, Computation.value]
    · cases hd
  unfold moveTowards at h
  dsimp only at h
  split at h
  · cases h
  · split at h
    · next e he =>
      cases h
      exact hdown he
    · cases h
  · split at h
    · next e he =>
      cases h
      exact hup he
    · cases h

theorem fits_lengthComputations (hw : c.toTree.Weighed) :
    ∀ o ∈ c.lengthComputations, o.Fits := by
  have hlen := (length_eq hw).1
  have hrest : (c.node.data.total - c.left.total).toNat =
      c.node.data.total.toNat - c.left.total.toNat := Size.toNat_sub_of_le (by omega)
  intro o ho
  simp only [lengthComputations, List.mem_cons, List.not_mem_nil, or_false] at ho
  rcases ho with rfl | rfl <;> simp only [Computation.Fits] <;> omega

/-- **No word wraps** that is computed at a trusted node. -/
theorem Trusted.fits_computations (h : c.Trusted base) : ∀ o ∈ c.computations, o.Fits := by
  have hpos := h.position_eq
  have hend := h.ending_eq
  have hlen := length_eq h.weighed
  have hbound := h.fits
  have hsum := low_add_le h.weighed base
  have hbelow : (c.position - c.left.total).toNat = c.low base := by
    rw [Size.toNat_sub_of_le] <;> omega
  have habove : (c.ending + c.right.total).toNat = c.low base + c.node.data.total.toNat := by
    rw [Size.toNat_add_of_lt] <;> omega
  have hdown {s : Side} {d : Cursor} (hd : c.down? s = some d) :
      d.left.total.toNat < (c.child s).total.toNat ∧ d.node.data.total = (c.child s).total := by
    obtain ⟨hsub, hpath⟩ := down?_eq_some hd
    have htree : d.toTree = c.toTree := by
      rw [toTree, hsub, hpath, Path.plug_cons, attach_crumb, toTree]
    have hlt := (length_eq (htree ▸ h.weighed : d.toTree.Weighed)).1
    rw [← hsub]
    exact ⟨Nat.lt_of_le_of_lt (Nat.le_add_right _ _) hlt, rfl⟩
  intro o ho
  simp only [computations, List.mem_append] at ho
  rcases ho with (((ho | ho) | ho) | ho) | ho
  · exact fits_lengthComputations h.weighed o ho
  · simp only [List.mem_cons, List.not_mem_nil, or_false] at ho
    rcases ho with rfl | rfl | rfl | rfl <;>
      simp only [Computation.Fits, UInt64.reduceToNat] <;> omega
  · cases hd : c.down? .left with
    | none => simp [hd] at ho
    | some d =>
      obtain ⟨hleft, htotal⟩ := hdown hd
      have hsub : (c.position - d.node.data.total).toNat = c.low base := by
        rw [htotal]
        exact hbelow
      have hle : c.left.total.toNat ≤ c.position.toNat := by omega
      simp only [hd, Option.elim_some, List.mem_cons, List.not_mem_nil, or_false] at ho
      change d.left.total.toNat < c.left.total.toNat at hleft
      change d.node.data.total = c.left.total at htotal
      rcases ho with rfl | rfl <;> simp only [Computation.Fits]
      · rwa [htotal]
      · omega
  · cases hd : c.down? .right with
    | none => simp [hd] at ho
    | some d =>
      obtain ⟨hleft, -⟩ := hdown hd
      simp only [hd, Option.elim_some, List.mem_cons, List.not_mem_nil, or_false] at ho
      change d.left.total.toNat < c.right.total.toNat at hleft
      subst ho
      simp only [Computation.Fits]
      omega
  · split at ho
    · next d hside hd =>
      cases hpath : c.path with
      | nil => simp [linkedSide?, hpath] at hside
      | cons b rest =>
        obtain ⟨e, heside, he, htree, hchild, hcrumb⟩ := parent?_of_path h.linked hpath
        obtain rfl : e = d := Option.some.inj (he.symm.trans hd)
        obtain hright : b.side = .right := Option.some.inj (heside.symm.trans hside)
        rw [hright] at hchild hcrumb
        have hew : e.toTree.Weighed := htree ▸ h.weighed
        have hlow := low_down hew hchild hcrumb base
        rw [Side.pick_right] at hlow
        rcases List.mem_append.mp ho with ho | ho
        · exact fits_lengthComputations hew o ho
        · obtain rfl := List.mem_singleton.mp ho
          simp only [Computation.Fits]
          omega
    · simp at ho

/-! ## The nodes that a walk passes -/

theorem mem_stations (fuel : Nat) (c : Cursor) (p : Size) : c ∈ stations p fuel c := by
  cases fuel <;> simp [stations]

theorem skeleton_of_stations {fuel : Nat} (h : d ∈ stations p fuel c) :
    d.toTree.skeleton = c.toTree.skeleton := by
  induction fuel generalizing c with
  | zero =>
    obtain rfl : d = c := by simpa [stations] using h
    rfl
  | succ fuel ih =>
    rcases List.mem_cons.mp h with rfl | h
    · rfl
    · split at h
      · next e hmove => rw [ih h, skeleton_of_move hmove]
      · cases h

/-- A walk passes the node where it starts. -/
theorem id_mem_passed (c : Cursor) (p : Size) : c.node.id ∈ c.passed p :=
  List.mem_map_of_mem (mem_stations _ c p)

/-- It passes the node where it ends. -/
theorem update_mem_passed (c : Cursor) (p : Size) : (c.update p).1.node.id ∈ c.passed p :=
  List.mem_map_of_mem (List.mem_of_getLast? (getLast?_stations c.toTree.size c))

/-- It passes nodes of the tree. -/
theorem mem_ids_of_passed {id : NodeId} (h : id ∈ c.passed p) : id ∈ c.toTree.ids := by
  obtain ⟨d, hd, rfl⟩ := List.mem_map.mp h
  rw [← (Tree.twins_of_skeleton (skeleton_of_stations hd)).ids]
  simp [Tree.ids, d.spans_toTree]

end Cursor

/-! ## Walks in a forest -/

namespace Forest

/-- A node of a tree at its place has an exact cache. The positions of the tree begin at a base
and do not wrap. -/
structure Anchored (f : Forest) (p : Place) (base : Size) (id : NodeId) : Prop
    extends f.Holds p where
  mem : id ∈ (f.tree p).ids
  exact : ∀ pre y post, (f.tree p).spans = pre ++ y :: post → y.id = id →
    y.position.toNat = base.toNat + covered pre
  fits : base.toNat + (f.tree p).total.toNat < 2 ^ 64

/-- What has become of a walk to a position from a node. -/
structure Relocated (f : Forest) (p : Place) (base : Size) (c : Cursor) (q : Size)
    (r : Except Fault NodeId) (u : Tree) : Prop where
  /-- It has come to the owner of the position, or has refused the position. -/
  result : r = (relocation base (f.tree p).spans q).map (·.id)
  /-- A position of the tree has an owner. It is passed, so that its cache is exact, and the search
  from the top finds it and sets the same cache. -/
  inside : base.toNat ≤ q.toNat ∧ q.toNat < base.toNat + (f.tree p).total.toNat →
    ∃ y, relocation base (f.tree p).spans q = .ok y ∧ y ∈ u.spans ∧ y.id ∈ c.passed q ∧
      ∀ top : Cursor, top.toTree = f.tree p → top.path = [] → (top.seek (q - base) q).span = y
  /-- Every other position is refused with the bounds of the tree. -/
  outside : ¬ (base.toNat ≤ q.toNat ∧ q.toNat < base.toNat + (f.tree p).total.toNat) →
    r = .error (.range ⟨"interval::update", q, base, base + (f.tree p).total - 1⟩)
  /-- Links and weights have stayed. -/
  skeleton : u.skeleton = (f.tree p).skeleton
  /-- So have flags and properties, and the caches of the nodes that were not passed. -/
  spans : u.spans = refresh (c.passed q) base.toNat (f.tree p).spans
  /-- The caches of the nodes that were passed are exact. -/
  anchored : ∀ id ∈ c.passed q, (f.plant u p).Anchored p base id
  /-- No word that was computed on the way has wrapped. -/
  fits : ∀ d ∈ c.stations q c.toTree.size, ∀ o ∈ d.computations, o.Fits

variable {f : Forest} {p : Place} {base q : Size} {id : NodeId} {u : Tree} {pre post : List Span}
  {y : Span}

/-- A tree is exchanged for its twin. -/
theorem Holds.twin (hf : f.Holds p) (hu : (f.tree p).Twins u) : (f.plant u p).Holds p :=
  hf.planted (hu.wellFormed hf.wellFormed) hu.isNil.symm hu.link (by simp [hu.ids])

/-- The span of a node is looked up. -/
theorem Holds.exec_span (hf : f.Holds p) (hy : y ∈ (f.tree p).spans) :
    exec (Run.span y.id) f = (.ok y, f) := by
  have hid : y.id ∈ (f.tree p).ids := List.mem_map_of_mem hy
  obtain ⟨t, ht⟩ := Tree.subtree?_isSome hid
  have hspan := Tree.span?_of_mem hf.wellFormed.distinct hy ht
  rw [Run.span, exec_bind_ok (Run.exec_subtree (t := t) ?_), hspan]
  · rfl
  · rw [subtree?_eq hid fun r hr => hf.apart r hr y.id hid, ht]

theorem Anchored.trusted (hf : f.Anchored p base id) :
    ∃ c, f.locate? id = some ⟨p, c⟩ ∧ c.toTree = f.tree p ∧ c.node.id = id ∧
      c.Trusted base.toNat := by
  obtain ⟨c, hc, htree, hnode⟩ := exists_cursor hf.mem fun r hr => hf.apart r hr id hf.mem
  refine ⟨c, hc, htree, hnode, ?_, ?_, ?_, ?_⟩
  · rw [htree]
    exact hf.wellFormed.weighed
  · rw [htree]
    exact hf.wellFormed.linked
  · exact hf.exact c.before c.span c.after (by rw [← htree, c.spans_toTree]) hnode
  · rw [htree]
    exact hf.fits

/-- Another tree with the same skeleton, where the cache of a node is exact. -/
theorem Anchored.refresh (hf : f.Anchored p base id) {ids : List NodeId}
    (hskeleton : u.skeleton = (f.tree p).skeleton)
    (hspans : u.spans = SpanTree.refresh ids base.toNat (f.tree p).spans) {id' : NodeId}
    (hid : id' ∈ ids) (hmem : id' ∈ (f.tree p).ids) : (f.plant u p).Anchored p base id' := by
  have hu := Tree.twins_of_skeleton hskeleton
  have htree : (f.plant u p).tree p = u := tree_plant p hu.isNil.symm
  refine ⟨hf.toHolds.twin hu, ?_, ?_, ?_⟩
  · rwa [htree, hu.ids]
  · intro pre y post hcut hy
    rw [htree] at hcut
    have hcover := (hu.wellFormed hf.wellFormed).weighed.covered_spans
    rw [hcut, hu.total, covered_append] at hcover
    have hfits := hf.fits
    rw [position_of_refresh (hspans ▸ hcut) (hy ▸ hid), UInt64.toNat_ofNat', Nat.mod_eq_of_lt]
    omega
  · rw [htree, hu.total]
    exact hf.fits

/-- The last position of the tree, as a word. -/
theorem Anchored.last (hf : f.Anchored p base id) :
    UInt64.ofNat (base.toNat + (f.tree p).total.toNat - 1) = base + (f.tree p).total - 1 := by
  have hpos := hf.wellFormed.weighed.total_pos (Tree.isNil_of_mem_ids hf.mem)
  rw [UInt64.lt_iff_toNat_lt, UInt64.toNat_zero] at hpos
  have hfits := hf.fits
  rw [← UInt64.toNat_inj, UInt64.toNat_ofNat', Nat.mod_eq_of_lt (by omega), Size.toNat_sub_of_le,
    Size.toNat_add_of_lt hfits]
  · rfl
  · rw [Size.toNat_add_of_lt hfits, UInt64.toNat_one]
    omega

/-- **A walk from a node** with an exact cache. -/
theorem Anchored.update (hf : f.Anchored p base id) (q : Size) :
    ∃ c r u, f.locate? id = some ⟨p, c⟩ ∧ exec (Run.update id q) f = (r, f.plant u p) ∧
      id ∈ c.passed q ∧ f.Relocated p base c q r u := by
  obtain ⟨c, hc, htree, rfl, htrusted⟩ := hf.trusted
  have hd : c.toTree.ids.Nodup := htree ▸ hf.wellFormed.distinct
  have hrelocation := htrusted.update_relocation hd q
  have hspans := (htrusted.recached_update q).spans hd
  have hskeleton : (c.update q).1.toTree.skeleton = c.toTree.skeleton :=
    Cursor.skeleton_updateLoop q c.toTree.size c
  have hpassed {id' : NodeId} (hid : id' ∈ c.passed q) := Cursor.mem_ids_of_passed hid
  rw [htree] at hrelocation hspans hskeleton hpassed
  have hcover := hf.wellFormed.weighed.covered_spans
  refine ⟨c, _, (c.update q).1.toTree, hc, ?_, c.id_mem_passed q, rfl, ?_, ?_, hskeleton, hspans,
    fun id' hid => hf.refresh hskeleton hspans hid (hpassed hid),
    fun d hmem => (htrusted.stations d hmem).fits_computations⟩
  · rw [Run.update, exec_bind_ok (Run.exec_locate hc), ← hrelocation]
    generalize c.update q = e
    obtain ⟨e, _ | _⟩ := e <;> rfl
  · intro hin
    obtain ⟨y, hy⟩ := relocation_eq_ok_iff.mpr (hcover.symm ▸ hin)
    have hend : (c.update q).1.span = y := by
      rw [hy] at hrelocation
      cases hresult : (c.update q).2 with
      | error e => simp [hresult, Except.map] at hrelocation
      | ok _ => simpa [hresult, Except.map] using hrelocation
    refine ⟨y, hy, ?_, ?_, fun top htop hpath => ?_⟩
    · rw [← hend, Cursor.spans_toTree]
      simp
    · rw [← hend]
      exact c.update_mem_passed q
    · have hseek := Cursor.span_seek (htop ▸ hf.wellFormed.weighed) hpath hin.1 (htop ▸ hin.2)
      rw [htop, hy] at hseek
      exact (Except.ok.inj hseek).symm
  · intro hout
    rw [relocation_outside (hcover.symm ▸ hout), hcover, hf.last]
    rfl

end Forest

/-! ## Searches find what walks give -/

namespace Run

variable {f : Forest} {t : TextId} {x : Text} {p : Place} {base q : Size} {id : NodeId}

/-- The search in a text. -/
theorem exec_findInterval_relocation (hf : f.Carries t x)
    (hidle : f.settings.tracking = true → x.access.word = 0) (hroot : x.root.isNil = false)
    (hin : x.beginOffset.toNat ≤ q.toNat ∧ q.toNat < x.beginOffset.toNat + x.length.toNat) :
    ∃ y g, relocation x.beginOffset x.root.spans q = .ok y ∧
      exec (findInterval t q) f = (.ok y.id, g) ∧ exec (span y.id) g = (.ok y, g) := by
  rw [← hf.covers hroot, ← hf.wellFormed.weighed.covered_spans] at hin
  obtain ⟨y, hy⟩ := relocation_eq_ok_iff.mpr hin
  obtain ⟨pre, z, post, hcut, hplace, hz⟩ := Locates.of_relocation hy
  obtain ⟨r, u, a, k, hexec, -, hcarries, -, hsearched⟩ := exec_findInterval_carries hf hidle q
  rw [x.spansFrom_of_root hroot] at hsearched
  obtain ⟨rfl, q', hq', hspans⟩ := hsearched.found pre z post hcut hplace
  have hmoved : y = z.movedTo q' := by rw [hz, ← hq', UInt64.ofNat_toNat]
  have hnoted := hcarries.noted (a := a) (q := k)
  subst hmoved
  refine ⟨_, _, hy, hexec, hnoted.grows.toHolds.exec_span ?_⟩
  rw [Forest.tree_text hnoted.text]
  simp [hspans]

/-- The search from a top that is linked to nothing. -/
theorem exec_find_relocation (hf : f.Holds p) (htop : (f.tree p).id? = some id)
    (hunset : ∀ link ∈ (f.tree p).link?, link = .unset)
    (hin : base.toNat ≤ q.toNat ∧ q.toNat < base.toNat + (f.tree p).total.toNat) :
    ∃ y g, relocation base (f.tree p).spans q = .ok y ∧
      exec (find id (q - base)) f = (.ok y.id, g) := by
  rw [← hf.wellFormed.weighed.covered_spans] at hin
  obtain ⟨y, hy⟩ := relocation_eq_ok_iff.mpr hin
  obtain ⟨pre, z, post, hcut, ⟨hlo, hhi⟩, hz⟩ := Locates.of_relocation hy
  obtain ⟨r, g, k, hexec, u, -, -, hsearched⟩ := exec_find_unlinked hf htop hunset (q - base)
  have hback : (q - base).toNat = q.toNat - base.toNat := Size.toNat_sub_of_le hin.1
  have hplace : Locates (0 : Size).toNat (q - base) pre z post := by
    rw [Locates, hback, UInt64.toNat_zero]
    exact ⟨by omega, hhi.imp (by omega) fun h => ⟨by omega, h.2⟩⟩
  obtain ⟨rfl, -⟩ := hsearched.found pre z post hcut hplace
  subst hz
  exact ⟨_, _, hy, hexec⟩

end Run

/-! ## Walks one after the other -/

/-- What looks at identities, links and weights only goes by the skeleton. -/
theorem Tree.foldPre_skeleton {α : Type} {k : α → Node → α} (hk : ∀ a n, k a n.bone = k a n)
    (a : α) (t : Tree) : t.skeleton.foldPre k a = t.foldPre k a := by
  induction t generalizing a with
  | nil => rfl
  | node n l r ihl ihr => simp only [skeleton, foldPre, hk, ihl, ihr]

namespace Workbench

/-- The numbers of nodes do not depend on the caches. -/
theorem Registry.enrolAll_plant (r : Registry) {f : Forest} {t : TextId} {u : Tree}
    (hu : u.skeleton = (f.tree (.text t)).skeleton) :
    r.enrolAll (f.plant u (.text t)) = r.enrolAll f := by
  have hplaces : (f.plant u (.text t)).places = f.places := by
    simp [Forest.places, Forest.plant, Forest.modifyText]
  have htree (q : Place) : ((f.plant u (.text t)).tree q).skeleton = (f.tree q).skeleton := by
    by_cases hq : q = .text t
    · rw [hq, Forest.tree_plant _ (Tree.twins_of_skeleton hu).isNil.symm, hu]
    · rw [Forest.tree_plant_of_ne hq]
  have hfold (r : Registry) (q : Place) :
      ((f.plant u (.text t)).tree q).foldPre (fun r n => r.enrol n.id) r =
        (f.tree q).foldPre (fun r n => r.enrol n.id) r := by
    rw [← Tree.foldPre_skeleton (fun _ _ => rfl), htree, Tree.foldPre_skeleton fun _ _ => rfl]
  unfold Registry.enrolAll
  simp only [hplaces, hfold]
  rfl

/-- Nodes that have their numbers keep them. -/
theorem Registry.enrolAll_enrolAll (r : Registry) (f : Forest) :
    (r.enrolAll f).enrolAll f = r.enrolAll f := by
  have hseen : (r.enrolAll f).seenBelow = f.nextId := by
    unfold Registry.enrolAll
    split
    · next h => exact h
    · rfl
  rw [Registry.enrolAll, if_pos hseen]

/-- The bench once all nodes have their numbers. -/
def Bench.enrolled (b : Bench) : Bench := { b with registry := b.registry.enrolAll b.forest }

namespace Script

theorem outcome_tryCatch {α : Type} (x : Script α) (k : Failure → Script α) (b : Bench) :
    outcome (tryCatch x k) b = match outcome x b with
      | (.ok a, b') => (.ok a, b')
      | (.error e, b') => outcome (k e) b' := by
  simp only [outcome, StateT.run, ExceptT.run, tryCatch, tryCatchThe, MonadExceptOf.tryCatch,
    ExceptT.tryCatch, ExceptT.mk, bind, StateT.bind]
  obtain ⟨r, b'⟩ := x b
  cases r <;> rfl

theorem outcome_liftM_ok {α : Type} {x : Run α} {b : Bench} {a : α} {g : Forest}
    (h : exec x b.forest = (.ok a, g)) :
    outcome (liftM x : Script α) b = (.ok a, { b with forest := g }) := by
  change Script.ofRun x b = _
  rw [Script.ofRun, show x b.forest = _ from h]

theorem outcome_liftM_error {α : Type} {x : Run α} {b : Bench} {e : Fault} {g : Forest}
    (h : exec x b.forest = (.error e, g)) :
    outcome (liftM x : Script α) b = (.error (.fault e), { b with forest := g }) := by
  change Script.ofRun x b = _
  rw [Script.ofRun, show x b.forest = _ from h]

/-- The failure of an operation on the forest becomes a value. What it changed stays changed. -/
theorem outcome_attempt {α : Type} (x : Run α) (b : Bench) :
    outcome (attempt (liftM x)) b =
      (.ok (exec x b.forest).1, { b with forest := (exec x b.forest).2 }) := by
  rw [attempt, outcome_tryCatch]
  obtain ⟨r, g, h⟩ : ∃ r g, exec x b.forest = (r, g) := ⟨_, _, rfl⟩
  rw [h]
  cases r with
  | ok a => rw [outcome_bind_ok (outcome_liftM_ok h), outcome_pure]
  | error e =>
    rw [outcome_bind_error (outcome_liftM_error h)]
    rfl

theorem outcome_spanOf {b : Bench} {id : NodeId} {y : Span}
    (h : exec (Run.span id) b.forest = (.ok y, b.forest)) :
    outcome (spanOf id) b = (.ok (b.enrolled.spanReport y), b.enrolled) := by
  rw [spanOf, outcome_bind_ok (outcome_liftM_ok h)]
  rfl

variable {t : TextId} {base : Size}

/-- One walk of several. The others start at an anchored node of a tree that differs in caches. -/
theorem updateMany_cons {b : Bench} {id : NodeId} (hb : b.forest.Anchored (.text t) base id)
    (q : Size) (ps : List Size) :
    ∃ (d : Bench) (next : NodeId) (u : Tree), d.forest = b.forest.plant u (.text t) ∧
      u.skeleton = (b.forest.tree (.text t)).skeleton ∧
      (∀ p, relocation base u.spans p = relocation base (b.forest.tree (.text t)).spans p) ∧
      d.enrolled.registry = b.enrolled.registry ∧ d.forest.Anchored (.text t) base next ∧
      outcome (updateMany id (q :: ps)) b = outcome (do
        let answers ← updateMany next ps
        pure ((relocation base (b.forest.tree (.text t)).spans q).map b.enrolled.spanReport ::
          answers)) d := by
  obtain ⟨c, r, u, -, hexec, hstart, hr⟩ := hb.update q
  obtain ⟨d, hd⟩ : ∃ d : Bench, d = { b with forest := b.forest.plant u (.text t) } := ⟨_, rfl⟩
  have hforest : d.forest = b.forest.plant u (.text t) := by rw [hd]
  have hregistry : d.enrolled.registry = b.enrolled.registry := by
    rw [hd]
    exact b.registry.enrolAll_plant hr.skeleton
  have hrun : outcome (attempt (liftM (Run.update id q))) b = (.ok r, d) := by
    rw [outcome_attempt, hexec, hd]
  have hspans (p : Size) : relocation base u.spans p =
      relocation base (b.forest.tree (.text t)).spans p := by
    rw [hr.spans, relocation_refresh]
  have hanchored {next : NodeId} (h : next ∈ c.passed q) :
      d.forest.Anchored (.text t) base next := by
    rw [hforest]
    exact hr.anchored next h
  rw [updateMany, outcome_bind_ok hrun]
  cases hrel : relocation base (b.forest.tree (.text t)).spans q with
  | error e =>
    obtain rfl : r = .error e := by
      rw [hr.result, hrel]
      rfl
    exact ⟨d, id, u, hforest, hr.skeleton, hspans, hregistry, hanchored hstart, rfl⟩
  | ok y =>
    obtain rfl : r = .ok y.id := by
      rw [hr.result, hrel]
      rfl
    have hin := relocation_eq_ok_iff.mp ⟨y, hrel⟩
    rw [hb.wellFormed.weighed.covered_spans] at hin
    obtain ⟨z, hz, hmem, hpassed, -⟩ := hr.inside hin
    obtain rfl : y = z := Except.ok.inj (hrel.symm.trans hz)
    have hspan : exec (Run.span y.id) d.forest = (.ok y, d.forest) := by
      refine (hanchored hpassed).toHolds.exec_span ?_
      rw [hforest, Forest.tree_plant _ (Tree.twins_of_skeleton hr.skeleton).isNil.symm]
      exact hmem
    have hreport : d.enrolled.spanReport y = b.enrolled.spanReport y := by
      simp only [Bench.spanReport, hregistry]
    refine ⟨d.enrolled, y.id, u, hforest, hr.skeleton, hspans, ?_, hanchored hpassed, ?_⟩
    · rw [← hregistry]
      exact d.registry.enrolAll_enrolAll d.forest
    · dsimp only
      rw [outcome_bind_ok (outcome_spanOf hspan), hreport]
      rfl

/-- **Walks one after the other** give what `relocation` reads off the list of spans, each for its
position. -/
theorem updateMany_answers {b : Bench} {id : NodeId} (hb : b.forest.Anchored (.text t) base id)
    (ps : List Size) :
    ∃ d u, outcome (updateMany id ps) b =
        (.ok (ps.map fun q =>
          (relocation base (b.forest.tree (.text t)).spans q).map b.enrolled.spanReport), d) ∧
      d.forest = b.forest.plant u (.text t) ∧ u.skeleton = (b.forest.tree (.text t)).skeleton := by
  induction ps generalizing b id with
  | nil => exact ⟨b, b.forest.tree (.text t), rfl, (b.forest.plant_self t).symm, rfl⟩
  | cons q ps ih =>
    obtain ⟨c, next, u, hforest, hskeleton, hspans, hregistry, hnext, hrun⟩ :=
      updateMany_cons hb q ps
    obtain ⟨d, w, hrest, hd, hw⟩ := ih hnext
    have htree : c.forest.tree (.text t) = u := by
      rw [hforest, Forest.tree_plant _ (Tree.twins_of_skeleton hskeleton).isNil.symm]
    have hreport : c.enrolled.spanReport = b.enrolled.spanReport := by
      funext y
      simp only [Bench.spanReport, hregistry]
    rw [htree] at hw
    simp only [htree, hspans, hreport] at hrest
    refine ⟨d, w, ?_, ?_, hw.trans hskeleton⟩
    · rw [hrun, outcome_bind_ok hrest]
      rfl
    · rw [hd, hforest, Forest.plant_replace]

end Script

/-- **Walks agree with searches.** From a node with an exact cache, in a tree at any place, a walk
to a position ends, as `Relocated` says: it gives the owner of the position that a search from the
top gives, or a refusal with the bounds of the tree. So do walks one after the other, each from the
node last reached: they give the node and the position that a search in the text gives. The search
from a top that is linked to nothing takes offsets. Positions outside the tree are refused, its end
included. -/
theorem walks_agree_with_searches :
    (∀ (f : Forest) (p : Place) (base : Size) (id : NodeId) (q : Size), f.Anchored p base id →
      ∃ c r u, f.locate? id = some ⟨p, c⟩ ∧ exec (Run.update id q) f = (r, f.plant u p) ∧
        id ∈ c.passed q ∧ f.Relocated p base c q r u) ∧
    (∀ (b : Bench) (t : TextId) (base : Size) (id : NodeId) (ps : List Size),
      b.forest.Anchored (.text t) base id →
      ∃ d u, outcome (Script.updateMany id ps) b =
          (.ok (ps.map fun q =>
            (relocation base (b.forest.tree (.text t)).spans q).map b.enrolled.spanReport), d) ∧
        d.forest = b.forest.plant u (.text t) ∧
        u.skeleton = (b.forest.tree (.text t)).skeleton) ∧
    (∀ (f : Forest) (t : TextId) (x : Text) (q : Size), f.Carries t x →
      (f.settings.tracking = true → x.access.word = 0) → x.root.isNil = false →
      x.beginOffset.toNat ≤ q.toNat ∧ q.toNat < x.beginOffset.toNat + x.length.toNat →
      ∃ y g, relocation x.beginOffset x.root.spans q = .ok y ∧
        exec (Run.findInterval t q) f = (.ok y.id, g) ∧ exec (Run.span y.id) g = (.ok y, g)) ∧
    (∀ (f : Forest) (p : Place) (base : Size) (id : NodeId) (q : Size), f.Holds p →
      (f.tree p).id? = some id → (∀ link ∈ (f.tree p).link?, link = .unset) →
      base.toNat ≤ q.toNat ∧ q.toNat < base.toNat + (f.tree p).total.toNat →
      ∃ y g, relocation base (f.tree p).spans q = .ok y ∧
        exec (Run.find id (q - base)) f = (.ok y.id, g)) ∧
    ∀ (base : Size) (spans : List Span) (q : Size),
      (∃ y, relocation base spans q = .ok y) ↔
        base.toNat ≤ q.toNat ∧ q.toNat < base.toNat + covered spans := by
  refine ⟨?_, ?_, ?_, ?_, fun base spans q => relocation_eq_ok_iff⟩
  · intro f p base id q hf
    exact hf.update q
  · intro b t base id ps hb
    exact Script.updateMany_answers hb ps
  · intro f t x q hf hidle hroot hin
    exact Run.exec_findInterval_relocation hf hidle hroot hin
  · intro f p base id q hf htop hunset hin
    exact Run.exec_find_relocation hf htop hunset hin

/-- A text from position 10 on, with two nodes. The cache of the second is exact. -/
def pinned : Forest :=
  let root : Tree := .node { id := 0, link := .owner 0, data := { total := 8 } } .nil
    (.node { id := 1, link := .node 0, data := { total := 5, position := 13 } } .nil .nil)
  Forest.lopsided.plant root (.text 0)

/-- From the second node to the first, beyond the end of the text, and back. Where a loose tree of
two nodes begins at 10, its last node is found at the offset 4. -/
theorem walks_agree_with_searches_pinned : pinned.Anchored (.text 0) 10 1 ∧
    (∃ d, outcome (Script.updateMany 1 [12, 18, 17]) { forest := pinned } =
      (.ok [.ok (({ forest := pinned } : Bench).enrolled.spanReport ⟨0, 3, 10, {}, {}⟩),
        .error (.range ⟨"interval::update", 18, 10, 17⟩),
        .ok (({ forest := pinned } : Bench).enrolled.spanReport ⟨1, 5, 13, {}, {}⟩)], d)) ∧
    (∃ g, exec (Run.findInterval 0 12) pinned = (.ok 0, g) ∧
      exec (Run.span 0) g = (.ok ⟨0, 3, 10, {}, {}⟩, g)) ∧
    ∃ g, exec (Run.find 0 4) Edit.pair = (.ok 1, g) := by
  have hgrows : pinned.Grows (.text 0) :=
    Forest.grows_lopsided.twin (q := {})
      (Tree.twins_of_skeleton (u := pinned.tree (.text 0)) rfl)
  have hanchored : pinned.Anchored (.text 0) 10 1 := by
    refine ⟨hgrows.toHolds, by decide, fun pre y post hcut hy => ?_, by decide⟩
    have hspans : [⟨0, 3, 0, {}, {}⟩] ++ (⟨1, 5, 13, {}, {}⟩ : Span) :: [] =
        pre ++ y :: post := hcut
    obtain ⟨rfl, rfl, rfl⟩ := cut_unique hy.symm (by decide) hspans
    rfl
  obtain ⟨-, hchain, hfind, hloose, -⟩ := walks_agree_with_searches
  refine ⟨hanchored, ?_, ?_, ?_⟩
  · obtain ⟨d, -, hrun, -⟩ := hchain { forest := pinned } 0 10 1 [12, 18, 17] hanchored
    exact ⟨d, hrun⟩
  · have hcarries : pinned.Carries 0 _ := ⟨rfl, by decide, fun _ => rfl, hgrows⟩
    obtain ⟨y, g, hy, hexec, hspan⟩ := hfind pinned 0 _ 12 hcarries (fun _ => rfl) rfl (by decide)
    obtain rfl : (⟨0, 3, 10, {}, {}⟩ : Span) = y := Except.ok.inj hy
    exact ⟨g, hexec, hspan⟩
  · obtain ⟨y, g, hy, hexec⟩ :=
      hloose Edit.pair (.loose "pair") 10 0 14 Forest.holds_pair rfl Forest.unset_pair (by decide)
    obtain rfl : (⟨1, 3, 12, {}, {}⟩ : Span) = y := Except.ok.inj hy
    exact ⟨g, hexec⟩

end Workbench

end SpanTree
