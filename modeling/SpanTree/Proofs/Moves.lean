/-
SpanTree.Proofs.Moves — finding nodes and moving between them, on readings.

Where caches are exact, the moves leave a reading as it is. `next` and
`prev` go to the neighbours in the list of spans; `update` and `find` go
to the span that owns a position, or refuse the position with the bounds
of the text. Only `find` changes the tree, because it balances the root
first, and that is another shape of the same spans.
-/
import SpanTree.Forest.Moves
import SpanTree.Proofs.Balancing
import SpanTree.Proofs.Readings

namespace SpanTree

/-! ## The owner of a position -/

/-- The position is in the span. -/
def Span.Owns (x : Span) (p : Size) : Prop :=
  x.position.toNat ≤ p.toNat ∧ p.toNat < x.position.toNat + x.length.toNat

/-- The span that owns a position is where the position has its place. -/
theorem Span.Owns.locates {start : Nat} {p : Size} {pre post : List Span} {x : Span}
    (h : Placed start (pre ++ x :: post)) (hx : x.Owns p) : Locates start p pre x post := by
  have hpos := h.position
  obtain ⟨hlo, hhi⟩ := hx
  exact ⟨by omega, .inl (by omega)⟩

/-- Of spans without gaps only one owns a position. -/
theorem owner_unique {start : Nat} {p : Size} {pre pre' post post' : List Span} {x y : Span}
    (h : Placed start (pre ++ x :: post)) (heq : pre ++ x :: post = pre' ++ y :: post')
    (hx : x.Owns p) (hy : y.Owns p) : pre = pre' ∧ x = y ∧ post = post' :=
  locates_unique heq (hx.locates h) (hy.locates (heq ▸ h))

/-- Spans without gaps leave no position without an owner. -/
theorem exists_owner {start : Nat} {p : Size} {spans : List Span} (h : Placed start spans)
    (hlo : start ≤ p.toNat) (hhi : p.toNat < start + covered spans) :
    ∃ pre y post, spans = pre ++ y :: post ∧ y.Owns p := by
  obtain ⟨pre, y, post, rfl, hge, hlt⟩ := exists_inside hlo hhi
  have hpos := h.position
  exact ⟨pre, y, post, rfl, by omega, by omega⟩

/-- The cache of the next node continues from that of a node. -/
theorem Cursor.Trusted.ending_precedes {c d : Cursor} {base : Nat} (h : c.Trusted base)
    (hd : d.Trusted base) (hnext : Cursor.Precedes c d) : d.position = c.ending := by
  have hcpos := h.position
  have hdpos := hd.position
  have hend := h.ending_eq
  have hstart := h.position_eq
  rw [hnext.before, covered_append, covered_cons, covered_nil, Cursor.span_length] at hdpos
  rw [← UInt64.toNat_inj]
  omega

namespace Run

variable {t : TextId} {v : Reading} {f : Forest} {pre post : List Span} {x : Span}

/-! ## Steps to the neighbours -/

/-- A move that keeps the tree goes to the node it finds. -/
theorem exec_moveTo {move : Cursor → Option Cursor} {target : Option NodeId} (hf : f.Reads t v)
    (hcut : v.spans = pre ++ x :: post)
    (hmove : ∀ c : Cursor, v.Shape t c.toTree → c.before = pre → c.after = post →
      (target = none ∧ move c = none) ∨
        ∃ d, move c = some d ∧ d.toTree = c.toTree ∧ target = some d.node.id) :
    exec (moveTo move x.id) f = (.ok target, f) := by
  obtain ⟨c, hc, htree, hshape, hpre, -, hpost⟩ := exec_locate_of_reads hf hcut
  rw [moveTo, exec_bind_ok hc]
  rcases hmove c hshape hpre hpost with ⟨rfl, hnone⟩ | ⟨d, hd, hdtree, rfl⟩
  · simp [hnone]
  · rw [hd]
    exact exec_bind_ok (exec_putBack_same (hdtree.trans htree)) _

/-- **The next node** is the next span, and its cache is exact already. -/
theorem exec_next (hf : f.Reads t v) (hcut : v.spans = pre ++ x :: post) :
    exec (next x.id) f = (.ok (post.head?.map (·.id)), f) := by
  refine exec_moveTo hf hcut fun c hshape _ hpost => ?_
  rcases c.adjacent?_right hshape.linked with ⟨hempty, hnone⟩ | ⟨d, hd, hnext⟩
  · exact .inl ⟨by simp [← hpost, hempty], by simp [Cursor.next?, hnone]⟩
  · have hcache := (hshape.trusted hf.valid).ending_precedes
      (Reading.Shape.trusted hf.valid (hnext.toTree ▸ hshape)) hnext
    exact .inr ⟨d, by simp [Cursor.next?, hd, ← hcache], hnext.toTree,
      by simp [← hpost, hnext.after]⟩

/-- **The node before** is the span before. -/
theorem exec_prev (hf : f.Reads t v) (hcut : v.spans = pre ++ x :: post) :
    exec (prev x.id) f = (.ok (pre.getLast?.map (·.id)), f) := by
  refine exec_moveTo hf hcut fun c hshape hpre _ => ?_
  rcases c.adjacent?_left hshape.linked with ⟨hempty, hnone⟩ | ⟨d, hd, hnext⟩
  · exact .inl ⟨by simp [← hpre, hempty], by simp [Cursor.prev?, hnone]⟩
  · have hcache : c.position - d.length = d.position := by
      rw [(Reading.Shape.trusted hf.valid (hnext.toTree ▸ hshape)).ending_precedes
        (hshape.trusted hf.valid) hnext, Cursor.ending]
      grind
    exact .inr ⟨d, by simp [Cursor.prev?, hd, hcache], hnext.toTree.symm,
      by simp [← hpre, hnext.before]⟩

/-! ## The walk to a position -/

/-- **A walk to a position** of the text ends at the span that owns it. -/
theorem exec_update (hf : f.Reads t v) (hcut : v.spans = pre ++ x :: post) {p : Size}
    {pre' post' : List Span} {y : Span} (hy : v.spans = pre' ++ y :: post') (hown : y.Owns p) :
    exec (update x.id p) f = (.ok y.id, f) := by
  have hv := hf.valid
  obtain ⟨c, hc, htree, hshape, -⟩ := exec_locate_of_reads hf hcut
  have hplaced : Placed v.start.toNat (pre' ++ y :: post') := hy ▸ hv.placed
  have hpos := hplaced.position
  have hcover := hshape.total
  rw [hy, covered_append, covered_cons] at hcover
  have htrusted := hshape.trusted hv
  obtain ⟨hin, -⟩ := htrusted.update_arrives p
  obtain ⟨hok, howner⟩ := hin (by obtain ⟨hlo, hhi⟩ := hown; omega)
  have hetree := (htrusted.recached_update p).eq_of_placed (hshape.spans ▸ hv.placed)
  obtain ⟨e, he⟩ : ∃ e, c.update p = (e, .ok ()) := ⟨_, Prod.ext rfl hok⟩
  rw [he] at hetree howner
  have hspans : e.before ++ e.span :: e.after = pre' ++ y :: post' := by
    rw [← e.spans_toTree, hetree, hshape.spans, hy]
  obtain ⟨-, heq, -⟩ := owner_unique (hspans ▸ hplaced) hspans howner hown
  rw [update, exec_bind_ok hc, he, ← heq]
  exact exec_bind_ok (exec_putBack_same (hetree.trans htree)) _

/-- A walk to a position outside the text is refused. -/
theorem exec_update_outside (hf : f.Reads t v) (hcut : v.spans = pre ++ x :: post) {p : Size}
    (hout : ¬ (v.start.toNat ≤ p.toNat ∧ p.toNat < v.start.toNat + v.size)) :
    exec (update x.id p) f =
      (.error (.range ⟨"interval::update", p, v.start, v.finish - 1⟩), f) := by
  have hv := hf.valid
  obtain ⟨c, hc, htree, hshape, -⟩ := exec_locate_of_reads hf hcut
  have hcover := hshape.total
  rw [hv.covers (by simp [hcut])] at hcover
  have htrusted := hshape.trusted hv
  obtain ⟨-, houtside⟩ := htrusted.update_arrives p
  obtain ⟨first, last, hfirst, hlast, herr⟩ := houtside (by omega)
  have hpos : 0 < v.size := by
    have := hshape.weighed.length_pos (s := x) (by rw [hshape.spans, hcut]; simp)
    rw [← hv.covers (by simp [hcut]), hcut, covered_append, covered_cons]
    omega
  obtain rfl : first = v.start := UInt64.toNat_inj.mp hfirst
  obtain rfl : last = v.finish - 1 := by
    rw [← UInt64.toNat_inj, hlast, Size.toNat_sub_of_le] <;> rw [hv.toNat_finish] <;>
      simp only [UInt64.reduceToNat] <;> omega
  obtain ⟨e, he⟩ : ∃ e, c.update p = (e, .error (.range
      ⟨"interval::update", p, v.start, v.finish - 1⟩)) := ⟨_, Prod.ext rfl herr⟩
  have hetree := (htrusted.recached_update p).eq_of_placed (hshape.spans ▸ hv.placed)
  rw [he] at hetree
  rw [update, exec_bind_ok hc, he]
  exact exec_bind_ok (exec_putBack_same (hetree.trans htree)) _

/-! ## Balancing the root -/

/-- Taking the tree of a text and giving it another is planting that one. -/
theorem modifyText_detach (f : Forest) (t : TextId) (u : Tree) :
    (f.modifyText t fun x => { x with root := .nil }).modifyText t (fun x => { x with root := u }) =
      f.plant u (.text t) := by
  simp only [Forest.modifyText, Forest.plant, List.modify_modify_eq]
  rfl

/-- A root whose nodes own characters is balanced and handed back to its text. -/
theorem exec_balanceRoot_of {x : Text} (hx : f.texts[t]? = some x) (hw : x.root.Weighed)
    (hb : x.root.total.toNat < 2 ^ 63) (hnil : x.root.isNil = false) (id : NodeId) :
    ∃ u k, Tree.BalancedTo x.root u k ∧ exec (do
        let root ← detachRoot t
        let (balanced, result) := root.balanceSelf
        attachRoot t balanced
        addRotations (← ofExcept result)
        pure (balanced.id?.getD id)) f =
      (.ok (u.id?.getD id),
        { f.plant (u.setLink (.owner t)) (.text t) with profile := f.profile.add k }) := by
  obtain ⟨u, k, hu, hbal⟩ := Tree.balanceSelf_ok hw hb hnil
  have hdetach : exec (detachRoot t) f =
      (.ok x.root, f.modifyText t fun x => { x with root := .nil }) := by
    rw [detachRoot, exec_bind_ok (exec_text hx)]
    rfl
  refine ⟨u, k, hbal, ?_⟩
  rw [exec_bind_ok hdetach, hu]
  simp only [← modifyText_detach]
  rfl

/-- The root is balanced and handed back to its text. -/
theorem exec_balanceRoot (hf : f.Reads t v) (hne : v.spans ≠ []) (id : NodeId) :
    ∃ top f', exec (do
        let root ← detachRoot t
        let (balanced, result) := root.balanceSelf
        attachRoot t balanced
        addRotations (← ofExcept result)
        pure (balanced.id?.getD id)) f = (.ok top, f') ∧ f'.Reads t v ∧
      (f'.tree (.text t)).id? = some top := by
  obtain ⟨x, hx, -, -, -, hshape⟩ := hf.text
  have hnil : x.root.isNil = false := by
    simpa [hne] using hshape.isNil
  obtain ⟨u, k, hbal, hexec⟩ :=
    exec_balanceRoot_of hx hshape.weighed (hshape.light hf.valid) hnil id
  have hplant := hf.plant_shape (hshape.reshaped hbal.reshaped).setLink
  have htree : (f.plant (u.setLink (.owner t)) (.text t)).tree (.text t) = u.setLink (.owner t) :=
    Forest.tree_text (Forest.texts_plant _ x hx)
  cases u with
  | nil => exact absurd (hplant.shape.spans.symm.trans (by rw [htree]; rfl)) hne
  | node n l r => exact ⟨n.id, _, hexec, hplant.profile (f.profile.add k), congrArg Tree.id? htree⟩

/-- Balancing at the root makes another shape of the tree, and gives the
node that is then at its top. -/
theorem exec_balancePossibleRoot (hf : f.Reads t v) {id : NodeId}
    (hid : (f.tree (.text t)).id? = some id) :
    ∃ top f', exec (balancePossibleRoot id) f = (.ok top, f') ∧ f'.Reads t v ∧
      (f'.tree (.text t)).id? = some top := by
  obtain ⟨c, hc, -, -, hlink⟩ := exec_locate_root hf hid
  obtain ⟨x, hx, -⟩ := hf.text
  have hne : v.spans ≠ [] := by
    intro hnil
    rw [← hf.shape.spans, Tree.spans_eq_nil] at hnil
    simp [hnil, Tree.id?, Tree.head?] at hid
  rw [Forest.tree_text hx] at hid
  rw [balancePossibleRoot, exec_bind_ok hc]
  simp only [hlink]
  rw [exec_bind_ok (exec_text hx), exec_bind_ok (exec_require (by simp [hid]) _ _)]
  obtain ⟨p, p', hp⟩ := exec_profiled "interval::balance_possible_root" (do
    let root ← detachRoot t
    let (balanced, result) := root.balanceSelf
    attachRoot t balanced
    addRotations (← ofExcept result)
    pure (balanced.id?.getD id)) f
  obtain ⟨top, f', hexec, hf', htop⟩ := exec_balanceRoot (hf.profile p) hne id
  exact ⟨top, _, by rw [hp, hexec], hf'.profile p', htop⟩

/-- Balancing at a live node: below the root no node is linked to a text,
and nothing happens. -/
theorem exec_balancePossibleRoot_live (hf : f.Reads t v)
    (hcut : v.spans = pre ++ x :: post) :
    ∃ top f', exec (balancePossibleRoot x.id) f = (.ok top, f') ∧ f'.Reads t v := by
  by_cases hid : (f.tree (.text t)).id? = some x.id
  · obtain ⟨top, f', hexec, hf', -⟩ := exec_balancePossibleRoot hf hid
    exact ⟨top, f', hexec, hf'⟩
  · obtain ⟨c, hc, htree, hcid, -⟩ := hf.locate? hcut
    obtain ⟨node, left, right, path⟩ := c
    cases path with
    | nil => exact absurd (by rw [← htree]; exact congrArg some hcid) hid
    | cons b rest =>
      have hlink : node.link = .node b.holder.id :=
        Cursor.link_of_path (htree ▸ hf.shape.linked) rfl
      refine ⟨x.id, f, ?_, hf⟩
      rw [balancePossibleRoot, exec_bind_ok (exec_locate hc)]
      simp only [hlink]
      exact exec_pure _ _

/-! ## The search from the root -/

/-- A search for a position ends at a span: the span owns the position,
or the position is the end of the text and the span is the last. -/
def Finds (v : Reading) (p : Size) (y : Span) (post : List Span) : Prop :=
  y.Owns p ∨ p = v.finish ∧ post = []

/-- A search ends where the position has its place. -/
theorem finds_iff (hv : v.Valid) {p : Size} {y : Span} (hy : v.spans = pre ++ y :: post) :
    Finds v p y post ↔ Locates v.start.toNat p pre y post := by
  have hcover := hv.covers (by simp [hy])
  have hfinish := hv.toNat_finish
  have hplaced := hv.placed
  rw [hy] at hcover hplaced
  simp only [covered_append, covered_cons] at hcover
  constructor
  · rintro (hown | ⟨rfl, rfl⟩)
    · exact hown.locates hplaced
    · simp only [covered_nil] at hcover
      exact ⟨by omega, .inr ⟨by omega, rfl⟩⟩
  · have hpos := hplaced.position
    rintro ⟨hlo, hhi | ⟨hend, rfl⟩⟩
    · exact .inl ⟨by omega, by omega⟩
    · simp only [covered_nil] at hcover
      exact .inr ⟨UInt64.toNat_inj.mp (by omega), rfl⟩

/-- A search for a position of the text, or for its end, ends at a span. -/
theorem exists_finds (hv : v.Valid) (hne : v.spans ≠ []) {p : Size}
    (hlo : v.start.toNat ≤ p.toNat) (hhi : p.toNat ≤ v.finish.toNat) :
    ∃ pre y post, v.spans = pre ++ y :: post ∧ Finds v p y post := by
  rw [hv.toNat_finish, ← hv.covers hne] at hhi
  obtain ⟨pre, y, post, hy, hplace⟩ := exists_locates hne hlo hhi
  exact ⟨pre, y, post, hy, (finds_iff hv hy).mpr hplace⟩

/-- A search ends at one span only. -/
theorem finds_unique (hv : v.Valid) {p : Size} {pre' post' : List Span} {y : Span}
    (hx : v.spans = pre ++ x :: post) (hy : v.spans = pre' ++ y :: post')
    (hfx : Finds v p x post) (hfy : Finds v p y post') : pre = pre' ∧ x = y ∧ post = post' :=
  locates_unique (hx.symm.trans hy) ((finds_iff hv hx).mp hfx) ((finds_iff hv hy).mp hfy)

/-- A search below the top of a tree with exact caches: it ends where it
should, at a node whose cache is what the search would set. -/
theorem seek_ok (hv : v.Valid) {c : Cursor} (hshape : v.Shape t c.toTree) (hpath : c.path = [])
    {p : Size} (hlo : v.start.toNat ≤ p.toNat) (hhi : p.toNat ≤ v.finish.toNat) :
    (c.seek (p - v.start) p).toTree = c.toTree ∧
      Finds v p (c.seek (p - v.start) p).span (c.seek (p - v.start) p).after := by
  have hne : v.spans ≠ [] := by
    rw [← hshape.spans, c.spans_toTree]
    simp
  have htotal : c.toTree.total.toNat = v.size := by rw [hshape.total, hv.covers hne]
  have hoff : (p - v.start).toNat = p.toNat - v.start.toNat := Size.toNat_sub_of_le hlo
  have hfinish := hv.toNat_finish
  have hp : p.toNat = v.start.toNat + (p - v.start).toNat := by omega
  obtain ⟨d, q, hseek, hdtree, hq, hplace⟩ :=
    Cursor.seek_top hshape.weighed hpath hp (by omega)
  have hcut := d.spans_toTree
  rw [hdtree, hshape.spans] at hcut
  obtain rfl : d.position = q :=
    UInt64.toNat_inj.mp ((Placed.position (hcut ▸ hv.placed)).trans hq.symm)
  rw [hseek, Cursor.withPosition_self]
  exact ⟨hdtree, (finds_iff hv hcut).mpr hplace⟩

/-- The weight of the root, added to the start of the text, is its end. -/
theorem start_add_total (hv : v.Valid) {u : Tree} (hshape : v.Shape t u) (hne : v.spans ≠ []) :
    v.start + u.total = v.finish := by
  have htotal : u.total = v.content.utf8ByteSize.toUInt64 := by
    rw [← UInt64.toNat_inj, hshape.total, hv.covers hne, hv.toNat_size]
  rw [htotal, Reading.finish]

theorem spans_ne_nil_of_root (hf : f.Reads t v) {id : NodeId}
    (hid : (f.tree (.text t)).id? = some id) : v.spans ≠ [] := by
  intro hnil
  rw [← hf.shape.spans, Tree.spans_eq_nil] at hnil
  simp [hnil, Tree.id?, Tree.head?] at hid

/-- **A search from the root** of a text ends at the span it should. The
root may be another node afterwards; the spans are the same. -/
theorem exec_find_root (hf : f.Reads t v) {id : NodeId}
    (hid : (f.tree (.text t)).id? = some id) {p : Size} {pre' post' : List Span} {y : Span}
    (hy : v.spans = pre' ++ y :: post') (hfinds : Finds v p y post') :
    ∃ f', exec (find id p) f = (.ok y.id, f') ∧ f'.Reads t v := by
  have hv := hf.valid
  have hrange : v.start.toNat ≤ p.toNat ∧ p.toNat ≤ v.finish.toNat := by
    have hcover := hv.covers (by simp [hy])
    have hfinish := hv.toNat_finish
    have hplaced := hv.placed
    rw [hy] at hplaced hcover
    have hpos := hplaced.position
    simp only [covered_append, covered_cons] at hcover
    rcases hfinds with ⟨hlo, hhi⟩ | ⟨rfl, -⟩ <;> omega
  rw [find]
  refine exec_profiled_reads fun q => ?_
  obtain ⟨c, hc, -, -, hlink⟩ := exec_locate_root (hf.profile q) hid
  obtain ⟨x, hx, hstart, -⟩ := (hf.profile q).text
  obtain ⟨top, g, hbal, hg, htop⟩ := exec_balancePossibleRoot (hf.profile q) hid
  obtain ⟨d, hd, hdtree, hdpath, -⟩ := exec_locate_root hg htop
  have hdshape : v.Shape t d.toTree := hdtree ▸ hg.shape
  obtain ⟨hseek, hfound⟩ := seek_ok hv hdshape hdpath hrange.1 hrange.2
  have hspans := (d.seek (p - v.start) p).spans_toTree
  rw [hseek, hdshape.spans] at hspans
  obtain ⟨-, hspan, -⟩ := finds_unique hv hspans hy hfound hfinds
  have htotal : d.node.data.total.toNat = v.size := by
    have := hdshape.total
    rwa [Cursor.toTree, hdpath, Path.plug_nil, hv.covers (by simp [hy])] at this
  have hnlt : ¬ p < x.beginOffset := by
    rw [hstart, UInt64.lt_iff_toNat_lt]
    omega
  have hnout : ¬ d.node.data.total < p - x.beginOffset := by
    have := hv.toNat_finish
    rw [hstart, UInt64.lt_iff_toNat_lt, Size.toNat_sub_of_le hrange.1]
    omega
  refine ⟨g.plant d.toTree (.text t), ?_, hg.plant_shape hdshape⟩
  rw [exec_bind_ok hc]
  simp only [hlink]
  rw [exec_bind_ok (exec_text hx), if_neg hnlt, exec_bind_ok hbal, exec_bind_ok (exec_pure _ _)]
  dsimp only
  rw [exec_bind_ok hd, if_neg hnout, exec_bind_ok (exec_putBack _ _), exec_pure, hstart]
  dsimp only
  rw [hseek, ← hspan]
  rfl

/-- A search from the root for a position outside the text is refused. -/
theorem exec_find_root_outside (hf : f.Reads t v) {id : NodeId}
    (hid : (f.tree (.text t)).id? = some id) {p : Size}
    (hout : ¬ (v.start.toNat ≤ p.toNat ∧ p.toNat ≤ v.finish.toNat)) :
    ∃ f', exec (find id p) f = (.error (findOutside p v.start v.finish), f') ∧ f'.Reads t v := by
  have hv := hf.valid
  have hne := spans_ne_nil_of_root hf hid
  rw [find]
  refine exec_profiled_reads fun q => ?_
  obtain ⟨c, hc, hctree, hcpath, hlink⟩ := exec_locate_root (hf.profile q) hid
  obtain ⟨x, hx, hstart, -⟩ := (hf.profile q).text
  have htop {d : Cursor} (hdshape : v.Shape t d.toTree) (hdpath : d.path = []) :
      v.start + d.node.data.total = v.finish := by
    rw [← start_add_total hv hdshape hne, Cursor.toTree, hdpath]
    rfl
  have hctop := htop (hctree ▸ (hf.profile q).shape) hcpath
  by_cases hlt : p < x.beginOffset
  · refine ⟨_, ?_, hf.profile q⟩
    rw [exec_bind_ok hc]
    simp only [hlink]
    rw [exec_bind_ok (exec_text hx), if_pos hlt, hstart, hctop]
    rfl
  · obtain ⟨top, g, hbal, hg, htopid⟩ := exec_balancePossibleRoot (hf.profile q) hid
    obtain ⟨d, hd, hdtree, hdpath, -⟩ := exec_locate_root hg htopid
    have hdtop := htop (hdtree ▸ hg.shape) hdpath
    have hback : p - (p - v.start) = v.start := by grind
    have hfinish := hv.toNat_finish
    have htotal : d.node.data.total.toNat = v.size := by
      have := (hdtree ▸ hg.shape : v.Shape t d.toTree).total
      rwa [Cursor.toTree, hdpath, Path.plug_nil, hv.covers hne] at this
    have hge : v.start.toNat ≤ p.toNat := by
      rw [hstart, UInt64.lt_iff_toNat_lt] at hlt
      omega
    have hbeyond : d.node.data.total < p - x.beginOffset := by
      rw [hstart, UInt64.lt_iff_toNat_lt, Size.toNat_sub_of_le hge]
      omega
    refine ⟨g, ?_, hg⟩
    rw [exec_bind_ok hc]
    simp only [hlink]
    rw [exec_bind_ok (exec_text hx), if_neg hlt, exec_bind_ok hbal, exec_bind_ok (exec_pure _ _)]
    dsimp only
    rw [exec_bind_ok hd, if_pos hbeyond, hstart, hback, hdtop]
    rfl

/-! ## The root -/

/-- The reading once the text has one node, which covers it. -/
def covering (v : Reading) : Reading :=
  { v with
    nextId := v.nextId + 1
    spans := [⟨v.nextId, v.content.utf8ByteSize.toUInt64, v.start, {}, {}⟩] }

theorem valid_covering (hv : v.Valid) : (covering v).Valid where
  small := hv.small
  fits := hv.fits
  placed := ⟨rfl, trivial⟩
  covers _ := by
    rw [covering, covered_cons, covered_nil, hv.toNat_size]
    rfl
  distinct := by simp [Reading.ids, covering]
  fresh id hid := by
    obtain rfl := List.mem_singleton.mp hid
    exact Nat.lt_succ_self _

/-- The first node of a text that has characters covers the text. -/
theorem does_createRoot (hnone : v.spans = []) (hpos : 0 < v.size) :
    Does (createRoot t) t v (.ok v.nextId) (covering v) := by
  intro f hf
  have hv := hf.valid
  obtain ⟨x, hx, hstart, hcontent, hword, hshape⟩ := hf.text
  have hlength : x.length = v.content.utf8ByteSize.toUInt64 := by rw [Text.length, hcontent]
  have hown : 0 < x.length := by
    rw [UInt64.lt_iff_toNat_lt, hlength, hv.toNat_size]
    exact hpos
  have hroot : (covering v).Shape t
      (.node (((Node.fresh v.nextId x.length).withPosition x.beginOffset).withLink (.owner t))
        .nil .nil) := by
    refine ⟨?_, ⟨?_, trivial, trivial⟩, ⟨rfl, rfl, trivial, trivial⟩, fun link hlink => ?_⟩
    · simp [covering, Node.span, Node.length, Node.fresh, Node.withPosition, Node.withLink, hstart,
        hlength]
    · simpa [Node.fresh, UInt64.lt_iff_toNat_lt] using hown
    · exact ⟨t, by simpa [eq_comm] using hlink, rfl⟩
  rw [createRoot, exec_bind_ok (exec_text hx),
    exec_bind_ok (exec_require (hshape.isNil.mpr hnone) _ _),
    exec_bind_ok (exec_require (decide_eq_true hown) _ _), exec_bind_ok (exec_freshId f), hf.nextId]
  exact ⟨_, rfl, hf.plant_new (valid_covering hv) hroot fun id hid =>
    .inr (List.mem_singleton.mp hid)⟩

/-- A text with a tree gets no first node. -/
theorem does_createRoot_present (hsome : v.spans ≠ []) :
    Does (createRoot t) t v (.error (.violation .treePresent)) v := by
  intro f hf
  obtain ⟨x, hx, -, -, -, hshape⟩ := hf.text
  refine ⟨f, ?_, hf⟩
  rw [createRoot, exec_bind_ok (exec_text hx),
    exec_bind_error (exec_require_not (by simpa [hsome] using hshape.isNil) _ _)]

/-- A text without characters gets no node. -/
theorem does_createRoot_empty (hnone : v.spans = []) (hzero : v.size = 0) :
    Does (createRoot t) t v (.error (.violation .textEmpty)) v := by
  intro f hf
  obtain ⟨x, hx, -, hcontent, -, hshape⟩ := hf.text
  have hown : ¬ 0 < x.length := by
    rw [UInt64.lt_iff_toNat_lt, Text.length, hcontent, hf.valid.toNat_size, hzero]
    exact Nat.lt_irrefl 0
  refine ⟨f, ?_, hf⟩
  rw [createRoot, exec_bind_ok (exec_text hx),
    exec_bind_ok (exec_require (hshape.isNil.mpr hnone) _ _),
    exec_bind_error (exec_require_not (decide_eq_false hown) _ _)]

/-- From the root, the outermost nodes are the first and the last span. -/
theorem exec_outermost_root (hf : f.Reads t v) {id : NodeId}
    (hid : (f.tree (.text t)).id? = some id) (s : Side) :
    ∃ y, s.pick v.spans.head? v.spans.getLast? = some y ∧
      exec (outermost s id) f = (.ok y.id, f) := by
  obtain ⟨c, hc, htree, hpath, -⟩ := exec_locate_root hf hid
  obtain ⟨hout, hend⟩ := Cursor.outermost_of_top hpath s
  have hcut := (c.outermost s).spans_toTree
  rw [hout, htree, hf.shape.spans] at hcut
  refine ⟨(c.outermost s).span, ?_, by rw [outermost, exec_bind_ok hc, exec_pure]; rfl⟩
  cases s <;> simp_all

end Run

end SpanTree
