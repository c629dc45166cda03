/-
SpanTree.Proofs.Edits — marks, splits, merges and rotations, on readings.

Each edit changes the list of spans in one place. Which place, what is
put there and what is given back follow from the reading; the lemmas on
trees say that the tree follows. What has to be shown here is that the
new list is valid again: without gaps, with exact caches, and with
distinct identities.
-/
import SpanTree.Forest.Edits
import SpanTree.Proofs.Moves
import SpanTree.Proofs.Splits

namespace SpanTree

/-! ## Marks -/

/-- A change of the marks and the properties of a span. -/
abbrev Marking := Flags → PropertyList → Flags × PropertyList

/-- A payload with its marks changed. -/
def Payload.marked (e : Marking) (d : Payload) : Payload :=
  { d with flags := (e d.flags d.plist).1, plist := (e d.flags d.plist).2 }

/-- A span with its marks changed. -/
def Span.marked (e : Marking) (x : Span) : Span :=
  { x with flags := (e x.flags x.plist).1, plist := (e x.flags x.plist).2 }

@[simp] theorem Span.marked_id (e : Marking) (x : Span) : (x.marked e).id = x.id := rfl

@[simp] theorem Span.marked_length (e : Marking) (x : Span) : (x.marked e).length = x.length := rfl

@[simp] theorem Span.marked_position (e : Marking) (x : Span) :
    (x.marked e).position = x.position := rfl

/-! ## Valid readings after an edit -/

namespace Reading

variable {v : Reading} {pre old mid post : List Span}

/-- Other spans that take up the same room leave a reading valid. -/
theorem Valid.replace (h : v.Valid) (hcut : v.spans = pre ++ old ++ post) (hne : old ≠ [])
    (hplaced : Placed (v.start.toNat + covered pre) mid) (hcover : covered mid = covered old)
    (hdistinct : ((pre ++ mid ++ post).map (·.id)).Nodup) {n : NodeId} (hn : v.nextId ≤ n)
    (hfresh : ∀ id ∈ mid.map (·.id), id < n) :
    { v with nextId := n, spans := pre ++ mid ++ post }.Valid := by
  have hall := h.placed
  have hsize := h.covers (by simp [hcut, hne])
  rw [hcut, placed_append, placed_append, covered_append, ← hcover] at hall
  rw [hcut, covered_append, covered_append, ← hcover] at hsize
  refine ⟨h.small, h.fits, ?_, fun _ => ?_, hdistinct, fun id hid => ?_⟩
  · change Placed v.start.toNat (pre ++ mid ++ post)
    rw [placed_append, placed_append, covered_append]
    exact ⟨⟨hall.1.1, hplaced⟩, hall.2⟩
  · change covered (pre ++ mid ++ post) = v.size
    rw [covered_append, covered_append, hsize]
  · change id ∈ (pre ++ mid ++ post).map (·.id) at hid
    rw [List.map_append, List.map_append, List.mem_append, List.mem_append] at hid
    rcases hid with (hid | hid) | hid
    · exact Nat.lt_of_lt_of_le (h.fresh id (by simp [ids, hcut, List.mem_map.mp hid])) hn
    · exact hfresh id hid
    · exact Nat.lt_of_lt_of_le (h.fresh id (by simp [ids, hcut, List.mem_map.mp hid])) hn

variable {x y : Span}

/-- Where one span of a valid reading is. -/
theorem Valid.position (h : v.Valid) (hcut : v.spans = pre ++ x :: post) :
    x.position.toNat = v.start.toNat + covered pre ∧
      x.position.toNat + x.length.toNat ≤ v.finish.toNat := by
  have hplaced := h.placed
  have hcover := h.covers (by simp [hcut])
  rw [hcut] at hplaced
  rw [hcut, covered_append, covered_cons] at hcover
  have hfinish := h.toNat_finish
  exact ⟨hplaced.position, by rw [hplaced.position]; omega⟩

/-- Changing the marks of a span leaves a reading valid. -/
theorem Valid.marked (h : v.Valid) (hcut : v.spans = pre ++ x :: post) (e : Marking) :
    { v with spans := pre ++ x.marked e :: post }.Valid := by
  have hdistinct := h.distinct
  have hpos := h.position hcut
  rw [ids, hcut] at hdistinct
  have hfresh : x.id < v.nextId := h.fresh x.id (by simp [ids, hcut])
  have := h.replace (show v.spans = pre ++ [x] ++ post by simp [hcut]) (by simp)
    (show Placed _ [x.marked e] from ⟨hpos.1, trivial⟩) rfl (by simpa using hdistinct)
    (Nat.le_refl _) (by simpa using hfresh)
  simpa using this

/-- Cutting a span in two leaves a reading valid. -/
theorem Valid.cut (h : v.Valid) (hcut : v.spans = pre ++ x :: post) (s : Side) {offset : Size}
    (ho : offset.toNat < x.length.toNat) :
    { v with
      nextId := v.nextId + 1
      spans := pre ++ x.cut s v.nextId offset ++ post }.Valid := by
  have hdistinct := h.distinct
  have hpos := h.position hcut
  have hbound := v.finish.toNat_lt
  have hmiddle : (x.position + offset).toNat = x.position.toNat + offset.toNat :=
    Size.toNat_add_of_lt (by omega)
  have hnew : v.nextId ∉ v.ids := fun hmem => Nat.lt_irrefl _ (h.fresh _ hmem)
  have hx : x.id < v.nextId := h.fresh x.id (by simp [ids, hcut])
  rw [ids, hcut] at hdistinct hnew
  refine h.replace (show v.spans = pre ++ [x] ++ post by simp [hcut]) (by simp) ?_ (by
    rw [covered_cut s v.nextId (Nat.le_of_lt ho)]; simp) ?_ (Nat.le_succ _) ?_
  · cases s <;> exact ⟨hpos.1, by rw [hmiddle, hpos.1], trivial⟩
  · have hperm := perm_ids_cut s v.nextId offset pre post x
    exact hperm.nodup_iff.mpr (List.nodup_cons.mpr ⟨hnew, hdistinct⟩)
  · intro id hid
    rcases ids_cut.mp hid with rfl | rfl
    · exact Nat.lt_succ_self _
    · exact Nat.lt_succ_of_lt hx

/-- Handing a span over to the next one leaves a reading valid. -/
theorem Valid.absorb_right (h : v.Valid) (hcut : v.spans = pre ++ x :: y :: post) :
    { v with spans := pre ++ y.absorb .right x.length x.position :: post }.Valid := by
  have hdistinct := h.distinct
  have hy : y.id < v.nextId := h.fresh y.id (by simp [ids, hcut])
  have hxpos := h.position hcut
  have hypos := h.position (show v.spans = (pre ++ [x]) ++ y :: post by simp [hcut])
  have hbound := v.finish.toNat_lt
  rw [covered_append, covered_cons, covered_nil] at hypos
  have hsum : (y.length + x.length).toNat = y.length.toNat + x.length.toNat :=
    Size.toNat_add_of_lt (by omega)
  rw [ids, hcut] at hdistinct
  have := h.replace (show v.spans = pre ++ [x, y] ++ post by simp [hcut]) (by simp)
    (show Placed _ [y.absorb .right x.length x.position] from ⟨hxpos.1, trivial⟩)
    (by simp [Span.absorb, hsum, Nat.add_comm]) ?_ (Nat.le_refl _) (by simpa using hy)
  · simpa using this
  · simp only [List.map_append, List.map_cons, List.nodup_append, List.nodup_cons,
      List.mem_cons] at hdistinct ⊢
    simp only [Span.absorb_id]
    grind

/-- Handing a span over to the one before leaves a reading valid. -/
theorem Valid.absorb_left (h : v.Valid) (hcut : v.spans = pre ++ y :: x :: post) :
    { v with spans := pre ++ y.absorb .left x.length x.position :: post }.Valid := by
  have hdistinct := h.distinct
  have hy : y.id < v.nextId := h.fresh y.id (by simp [ids, hcut])
  have hypos := h.position hcut
  have hxpos := h.position (show v.spans = (pre ++ [y]) ++ x :: post by simp [hcut])
  have hbound := v.finish.toNat_lt
  rw [covered_append, covered_cons, covered_nil] at hxpos
  have hsum : (y.length + x.length).toNat = y.length.toNat + x.length.toNat :=
    Size.toNat_add_of_lt (by omega)
  have hback : (x.position - y.length).toNat = x.position.toNat - y.length.toNat :=
    Size.toNat_sub_of_le (by omega)
  rw [ids, hcut] at hdistinct
  have := h.replace (show v.spans = pre ++ [y, x] ++ post by simp [hcut]) (by simp)
    (show Placed _ [y.absorb .left x.length x.position] from ⟨hback.trans (by omega), trivial⟩)
    (by simp [Span.absorb, hsum]) ?_ (Nat.le_refl _) (by simpa using hy)
  · simpa using this
  · simp only [List.map_append, List.map_cons, List.nodup_append, List.nodup_cons,
      List.mem_cons] at hdistinct ⊢
    simp only [Span.absorb_id]
    grind

end Reading

namespace Cursor

/-- The tree with the marks of a node changed. -/
theorem respanned_marked {c : Cursor} (hw : c.toTree.Weighed) (hl : c.toTree.Linked)
    (e : Marking) :
    c.toTree.Respanned (c.before ++ c.span.marked e :: c.after)
      (c.mapData (·.marked e)).toTree :=
  respanned_mapData (e := fun data => data.marked e) hw hl rfl

end Cursor

namespace Run

variable {t : TextId} {v : Reading} {f : Forest} {pre post : List Span} {x y : Span}

/-! ## Setters -/

/-- Setting marks changes one span. -/
theorem does_modifyData (hv : v.Valid) (hcut : v.spans = pre ++ x :: post) (e : Marking) :
    Does (modifyData x.id (·.marked e)) t v (.ok ⟨⟩)
      { v with spans := pre ++ x.marked e :: post } := by
  intro f hf
  obtain ⟨c, hc, -, hshape, rfl, rfl, rfl⟩ := exec_locate_of_reads hf hcut
  have hr := c.respanned_marked hshape.weighed hshape.linked e
  refine ⟨_, ?_, hf.plant_of_subset (hv.marked hcut e) (hshape.respanned hr) ?_⟩
  · rw [modifyData, modifyNode, exec_bind_ok hc, exec_plant]
  · simp [Reading.ids, hcut]

/-- Dropping a property says whether it was there. -/
theorem does_removeProperty (hv : v.Valid) (hcut : v.spans = pre ++ x :: post) (key : String) :
    Does (removeProperty x.id key) t v (.ok (x.plist.contains key))
      { v with
        spans := pre ++ x.marked (fun flags plist => (flags, plist.erase key)) :: post } := by
  intro f hf
  obtain ⟨c, hc, -, -, -, rfl, -⟩ := exec_locate_of_reads hf hcut
  obtain ⟨f', hexec, hf'⟩ :=
    does_modifyData hv hcut (fun flags _ => (flags, c.span.plist.erase key)) f hf
  refine ⟨f', ?_, hf'⟩
  rw [removeProperty, exec_bind_ok hc]
  exact exec_bind_ok hexec _

/-- Copying takes marks and properties from a node of the text, unless
neither of the two has properties. -/
theorem does_copyProperties (hv : v.Valid) (hcut : v.spans = pre ++ x :: post)
    (hy : y ∈ v.spans) :
    Does (copyProperties x.id y.id) t v (.ok ⟨⟩)
      { v with
        spans :=
          if x.plist.isEmpty && y.plist.isEmpty then v.spans
          else pre ++ x.marked (fun _ _ => (y.flags, y.plist)) :: post } := by
  intro f hf
  obtain ⟨c, hc, -, -, -, hx, -⟩ := exec_locate_of_reads hf hcut
  obtain ⟨pre', post', hcut'⟩ := List.append_of_mem hy
  obtain ⟨d, hd, -, -, -, hy', -⟩ := exec_locate_of_reads hf hcut'
  obtain ⟨f', hexec, hf'⟩ := does_modifyData hv hcut (fun _ _ => (y.flags, y.plist)) f hf
  have hdefault : (c.isDefault && d.isDefault) = (x.plist.isEmpty && y.plist.isEmpty) := by
    rw [← hx, ← hy']
    rfl
  rw [copyProperties, exec_bind_ok hc, exec_bind_ok hd]
  dsimp only
  rw [hdefault]
  split
  · exact ⟨f, rfl, hf⟩
  · refine ⟨f', ?_, hf'⟩
    rw [← hexec, ← hy']
    rfl

/-! ## Splits -/

/-- **A split** strictly inside a span puts two spans in its place. The
piece has a new identity. -/
theorem does_split (hv : v.Valid) (hcut : v.spans = pre ++ x :: post) (s : Side) {offset : Size}
    (hpos : 0 < offset.toNat) (ho : offset.toNat < x.length.toNat) :
    Does (split s x.id offset) t v (.ok v.nextId)
      { v with
        nextId := v.nextId + 1
        spans := pre ++ x.cut s v.nextId offset ++ post } := by
  intro f hf
  obtain ⟨c, hc, -, hshape, rfl, rfl, rfl⟩ := exec_locate_of_reads hf hcut
  have hsplits : c.splits offset = true := Cursor.splits_iff.mpr ⟨hpos, ho⟩
  rw [split, exec_bind_ok hc, exec_bind_ok (exec_require hsplits _ _)]
  refine exec_profiled_reads fun p => ?_
  have hf := hf.profile p
  obtain ⟨d, k, hd, hr⟩ := c.splitOff_ok hshape.weighed hshape.linked (hshape.light hv) s hsplits
    v.nextId
  have hids : ∀ id ∈ (c.before ++ c.span.cut s v.nextId offset ++ c.after).map (·.id),
      id ∈ v.ids ∨ id = v.nextId := by
    intro id hmem
    rw [List.map_append, List.map_append, List.mem_append, List.mem_append, ids_cut] at hmem
    simp only [Reading.ids, hcut, List.map_append, List.map_cons, List.mem_append, List.mem_cons]
    grind
  have hg := hf.plant_new (hv.cut hcut s ho) ⟨hr.spans, hr.weighed, hr.linked,
    fun link hlink => hshape.homed link (hr.link link hlink)⟩ hids
  obtain ⟨z, hz, hzid⟩ : ∃ z ∈ c.before ++ c.span.cut s v.nextId offset ++ c.after,
      z.id = c.span.id := by
    obtain ⟨z, hz, hzid⟩ := List.mem_map.mp (ids_cut.mpr (.inr rfl) :
      c.span.id ∈ (c.span.cut s v.nextId offset).map (·.id))
    exact ⟨z, by simp [hz], hzid⟩
  obtain ⟨pre', post', hcut'⟩ := List.append_of_mem hz
  obtain ⟨top, g', hbal, hg'⟩ := exec_balancePossibleRoot_live (hg.profile (p.add k)) hcut'
  refine ⟨g', ?_, hg'⟩
  rw [exec_bind_ok (exec_freshId _), hf.nextId, hd]
  dsimp only
  rw [exec_bind_ok (exec_putBack _ _), exec_bind_ok (exec_ofExcept _ _),
    exec_bind_ok (exec_addRotations _ _), ← hzid]
  exact exec_bind_ok hbal _

/-- A split at any other offset is refused. -/
theorem does_split_outside (hcut : v.spans = pre ++ x :: post) (s : Side) {offset : Size}
    (hout : ¬ (0 < offset.toNat ∧ offset.toNat < x.length.toNat)) :
    Does (split s x.id offset) t v (.error (.violation (.offsetOutside s))) v := by
  intro f hf
  obtain ⟨c, hc, -, -, -, rfl, -⟩ := exec_locate_of_reads hf hcut
  have hsplits : c.splits offset = false := by
    rw [Bool.eq_false_iff]
    exact mt Cursor.splits_iff.mp hout
  refine ⟨f, ?_, hf⟩
  rw [split, exec_bind_ok hc, exec_bind_error (exec_require_not hsplits _ _)]

/-! ## Merges -/

/-- **A merge to the right** gives the next node, which takes over the span. -/
theorem does_merge_right (hv : v.Valid) (hcut : v.spans = pre ++ x :: y :: post) :
    Does (merge .right x.id) t v (.ok y.id)
      { v with spans := pre ++ y.absorb .right x.length x.position :: post } := by
  intro f hf
  obtain ⟨c, hc, -, hshape, rfl, rfl, hafter⟩ := exec_locate_of_reads hf hcut
  rcases c.mergeInto_right hshape.weighed hshape.linked (fun _ => hshape.homed) with
    ⟨hempty, -⟩ | ⟨z, rest, u, hcons, hmerge, hr⟩
  · simp [hafter] at hempty
  · obtain ⟨rfl, rfl⟩ : y = z ∧ post = rest := by simpa [hafter] using hcons
    refine ⟨f.plant u (.text t), ?_, hf.plant_of_subset (hv.absorb_right hcut)
      (hshape.respanned hr) ?_⟩
    · rw [merge, exec_bind_ok hc, exec_conclude]
      simp [Place.home?, hmerge]
    · simp only [Reading.ids, hcut, List.map_append, List.map_cons, Span.absorb_id, List.mem_append,
        List.mem_cons]
      grind

/-- The last node has no next one to take over its span. -/
theorem does_merge_right_last (hcut : v.spans = pre ++ [x]) :
    Does (merge .right x.id) t v (.error (.violation (.noNeighbour .right))) v := by
  intro f hf
  obtain ⟨c, hc, -, hshape, -, -, hafter⟩ := exec_locate_of_reads hf hcut
  rcases c.mergeInto_right hshape.weighed hshape.linked (fun _ => hshape.homed) with
    ⟨-, hmerge⟩ | ⟨z, rest, u, hcons, -⟩
  · refine ⟨f.plant c.toTree (.text t), ?_, hf.plant_shape hshape⟩
    rw [merge, exec_bind_ok hc, exec_conclude]
    simp [Place.home?, hmerge]
  · simp [hafter] at hcons

/-- **A merge to the left** gives the node before, which takes over the span. -/
theorem does_merge_left (hv : v.Valid) (hcut : v.spans = pre ++ y :: x :: post) :
    Does (merge .left x.id) t v (.ok y.id)
      { v with spans := pre ++ y.absorb .left x.length x.position :: post } := by
  intro f hf
  obtain ⟨c, hc, -, hshape, hbefore, rfl, rfl⟩ :=
    exec_locate_of_reads hf (show v.spans = (pre ++ [y]) ++ x :: post by simp [hcut])
  rcases c.mergeInto_left hshape.weighed hshape.linked (fun _ => hshape.homed) with
    ⟨hempty, -⟩ | ⟨init, z, u, hcons, hmerge, hr⟩
  · simp [hbefore] at hempty
  · obtain ⟨rfl, hyz⟩ := List.append_inj' (hbefore.symm.trans hcons) rfl
    obtain rfl := List.singleton_inj.mp hyz
    refine ⟨f.plant u (.text t), ?_, hf.plant_of_subset (hv.absorb_left hcut)
      (hshape.respanned hr) ?_⟩
    · rw [merge, exec_bind_ok hc, exec_conclude]
      simp [Place.home?, hmerge]
    · simp only [Reading.ids, hcut, List.map_append, List.map_cons, Span.absorb_id, List.mem_append,
        List.mem_cons]
      grind

/-- The first node has no one before it to take over its span. -/
theorem does_merge_left_first (hcut : v.spans = x :: post) :
    Does (merge .left x.id) t v (.error (.violation (.noNeighbour .left))) v := by
  intro f hf
  obtain ⟨c, hc, -, hshape, hbefore, -, -⟩ :=
    exec_locate_of_reads hf (hcut.trans (List.nil_append _).symm)
  rcases c.mergeInto_left hshape.weighed hshape.linked (fun _ => hshape.homed) with
    ⟨-, hmerge⟩ | ⟨init, z, u, hcons, -⟩
  · refine ⟨f.plant c.toTree (.text t), ?_, hf.plant_shape hshape⟩
    rw [merge, exec_bind_ok hc, exec_conclude]
    simp [Place.home?, hmerge]
  · simp [hbefore] at hcons

/-! ## Removal -/

/-- A removal is a merge to the right that gives nothing back. -/
theorem does_remove_right (hv : v.Valid) (hcut : v.spans = pre ++ x :: y :: post) :
    Does (remove x.id) t v (.ok ⟨⟩)
      { v with spans := pre ++ y.absorb .right x.length x.position :: post } := by
  intro f hf
  obtain ⟨f', hexec, hf'⟩ := does_merge_right hv hcut f hf
  obtain ⟨c, hc, -, hshape, -, -, hafter⟩ := exec_locate_of_reads hf hcut
  refine ⟨f', ?_, hf'⟩
  rw [merge, exec_bind_ok hc, exec_conclude, Prod.mk.injEq] at hexec
  rw [remove, exec_bind_ok hc, exec_conclude, Prod.mk.injEq]
  dsimp only [Place.home?] at hexec ⊢
  rw [Cursor.remove_of_after hshape.linked (fun _ => hshape.homed) (by simp [hafter]), hexec.1]
  exact ⟨rfl, hexec.2⟩

/-- A removal of the last node is a merge to the left. -/
theorem does_remove_left (hv : v.Valid) (hcut : v.spans = pre ++ [y, x]) :
    Does (remove x.id) t v (.ok ⟨⟩)
      { v with spans := pre ++ [y.absorb .left x.length x.position] } := by
  intro f hf
  obtain ⟨f', hexec, hf'⟩ := does_merge_left hv hcut f hf
  obtain ⟨c, hc, -, hshape, hbefore, -, hafter⟩ :=
    exec_locate_of_reads hf (show v.spans = (pre ++ [y]) ++ [x] by simp [hcut])
  refine ⟨f', ?_, hf'⟩
  rw [merge, exec_bind_ok hc, exec_conclude, Prod.mk.injEq] at hexec
  rw [remove, exec_bind_ok hc, exec_conclude, Prod.mk.injEq]
  dsimp only [Place.home?] at hexec ⊢
  rw [Cursor.remove_of_before hshape.linked (fun _ => hshape.homed) hafter (by simp [hbefore]),
    hexec.1]
  exact ⟨rfl, hexec.2⟩

/-- A reading without spans is valid. -/
theorem valid_nil (hv : v.Valid) : { v with spans := [] }.Valid :=
  ⟨hv.small, hv.fits, trivial, fun h => absurd rfl h, List.Pairwise.nil, fun _ hid => by
    simp [Reading.ids] at hid⟩

/-- A removal of the only node leaves the text without a tree. -/
theorem does_remove_only (hv : v.Valid) (hcut : v.spans = [x]) :
    Does (remove x.id) t v (.ok ⟨⟩) { v with spans := [] } := by
  intro f hf
  obtain ⟨c, hc, -, hshape, hbefore, -, hafter⟩ :=
    exec_locate_of_reads hf (hcut.trans (List.nil_append _).symm)
  refine ⟨f.plant .nil (.text t), ?_, hf.plant_of_subset (valid_nil hv)
    ⟨rfl, trivial, trivial, fun link hlink => by simp at hlink⟩ (by simp)⟩
  rw [remove, exec_bind_ok hc, exec_conclude]
  dsimp only [Place.home?]
  rw [Cursor.remove_only hshape.linked (fun _ => hshape.homed) hafter hbefore]

/-! ## Rotations in place -/

/-- Where spans start and end depends on their faces alone. -/
theorem placed_congr {start : Nat} {a b : List Span} (h : a.map Span.face = b.map Span.face)
    (ha : Placed start a) : Placed start b := by
  induction a generalizing start b with
  | nil =>
    obtain rfl : b = [] := by simpa using h.symm
    trivial
  | cons x rest ih =>
    cases b with
    | nil => simp at h
    | cons y ys =>
      rw [List.map_cons, List.map_cons, List.cons.injEq] at h
      have hlength : x.length = y.length := congrArg Face.length h.1
      have hposition : x.position = y.position := congrArg Face.position h.1
      exact ⟨hposition ▸ ha.1, ih h.2 (hlength ▸ ha.2)⟩

theorem covered_congr {a b : List Span} (h : a.map Span.face = b.map Span.face) :
    covered a = covered b := by
  have hl := congrArg (List.map fun x : Face => x.length.toNat) h
  rw [List.map_map, List.map_map] at hl
  exact congrArg List.sum hl

/-- Spans with the same faces, and the same identities in another order,
leave a reading valid. -/
theorem valid_repainted {spans : List Span} (hv : v.Valid)
    (hfaces : spans.map Span.face = v.spans.map Span.face)
    (hids : (spans.map (·.id)).Perm v.ids) : { v with spans }.Valid where
  small := hv.small
  fits := hv.fits
  placed := placed_congr hfaces.symm hv.placed
  covers hne := by
    have hv' : v.spans ≠ [] := by
      intro hnil
      rw [hnil] at hfaces
      exact hne (by simpa using hfaces)
    exact (covered_congr hfaces).trans (hv.covers hv')
  distinct := hids.nodup_iff.mpr hv.distinct
  fresh id hid := hv.fresh id (hids.mem_iff.mp hid)

/-- **A rotation in place** keeps the faces of the spans. It refuses only
where there is no child to raise. -/
theorem exec_rotateInPlace (hf : f.Reads t v) (hcut : v.spans = pre ++ x :: post)
    (s : Side) :
    ∃ r f' spans, exec (rotateInPlace s x.id) f = (r, f') ∧ f'.Reads t { v with spans } ∧
      spans.map Span.face = v.spans.map Span.face ∧ (spans.map (·.id)).Perm v.ids ∧
      (r = .ok ⟨⟩ ∨ r = .error (.violation (.noChild s))) := by
  obtain ⟨c, hc, htree, hshape, -⟩ := exec_locate_of_reads hf hcut
  obtain ⟨hr, hresult⟩ := Tree.repainted_rotateInPlace s (Cursor.weighed_subtree hshape.weighed)
  have hwhole : Tree.Repainted c.toTree _ := Path.repainted_plug c.path hr
  have hfaces := hwhole.faces
  have hids := hwhole.ids
  rw [Tree.faces, Tree.faces, hshape.spans] at hfaces
  rw [Tree.ids, Tree.ids, hshape.spans] at hids
  have hplant := hf.plant_of_subset (valid_repainted hf.valid hfaces hids)
    ⟨rfl, hwhole.weighed hshape.weighed, hwhole.linked hshape.linked,
      fun link hlink => hshape.homed link (hwhole.link ▸ hlink)⟩
    fun id hid => hids.mem_iff.mp hid
  rw [rotateInPlace, exec_bind_ok hc]
  dsimp only
  generalize hrot : c.subtree.rotateInPlace s = rotated at *
  obtain ⟨u, result⟩ := rotated
  dsimp only at hresult hplant hfaces hids ⊢
  rw [exec_bind_ok (exec_plant _ _ _), hresult]
  cases (c.subtree.child s).isNil with
  | true => exact ⟨_, _, _, rfl, hplant, hfaces, hids, .inr rfl⟩
  | false => exact ⟨_, _, _, rfl, hplant, hfaces, hids, .inl rfl⟩

end Run

end SpanTree
