/-
SpanTree.Proofs.Readings — a text as the list of its spans.

A `Reading` is what the operations on a text depend on: where it starts,
its characters, the word of its tracker, the next new identity, and the
spans from left to right. The shape of the tree is not part of it.
`Forest.Reads` ties a forest to the reading of one of its texts. It holds
the invariants of the tree, and keeps the identities of the text apart
from those of all other trees, so that a node is looked up in the right
one.

`Run.Does` is the form of the specifications: on every forest with one
reading, an operation has one result and leaves a forest with another
reading. Since the result is a function of the reading, no operation with
a specification of this form depends on the shape of the tree.
-/
import SpanTree.Proofs.Places
import SpanTree.Proofs.Runs
import SpanTree.Proofs.Walks

namespace SpanTree

/-! ## Readings -/

/-- What the operations on a text depend on. -/
structure Reading where
  settings : Settings
  /-- The position of the first character. -/
  start : Size
  content : String
  /-- The word of the tracker. -/
  word : UInt32
  /-- The identity of the next new node. -/
  nextId : NodeId
  /-- The spans from left to right. -/
  spans : List Span

namespace Reading

/-- The number of characters. -/
def size (v : Reading) : Nat := v.content.utf8ByteSize

/-- The position after the last character. -/
def finish (v : Reading) : Size := v.start + v.content.utf8ByteSize.toUInt64

/-- The identities from left to right. -/
def ids (v : Reading) : List NodeId := v.spans.map (·.id)

/-- The text fits into the words, and its spans, if there are any, cover
it without gaps, each with an exact cache and an identity of its own. -/
structure Valid (v : Reading) : Prop where
  small : v.size < 2 ^ 63
  fits : v.start.toNat + v.size < 2 ^ 64
  placed : Placed v.start.toNat v.spans
  covers : v.spans ≠ [] → covered v.spans = v.size
  distinct : v.ids.Nodup
  fresh : ∀ id ∈ v.ids, id < v.nextId

/-- A tree with the spans of a reading, as the tree of a text. -/
structure Shape (v : Reading) (t : TextId) (u : Tree) : Prop where
  spans : u.spans = v.spans
  weighed : u.Weighed
  linked : u.Linked
  homed : u.Homed (some t)

variable {v : Reading} {t : TextId} {u : Tree}

theorem Valid.toNat_size (h : v.Valid) : v.content.utf8ByteSize.toUInt64.toNat = v.size := by
  have hsmall : v.content.utf8ByteSize < 2 ^ 63 := h.small
  rw [Nat.toUInt64, UInt64.toNat_ofNat', Nat.mod_eq_of_lt (by omega)]
  rfl

theorem Valid.toNat_finish (h : v.Valid) : v.finish.toNat = v.start.toNat + v.size := by
  have := h.fits
  rw [finish, Size.toNat_add_of_lt] <;> rw [h.toNat_size]
  omega

theorem Valid.covered_le (h : v.Valid) : covered v.spans ≤ v.size := by
  by_cases hs : v.spans = []
  · simp [hs]
  · exact Nat.le_of_eq (h.covers hs)

theorem Shape.total (hu : v.Shape t u) : u.total.toNat = covered v.spans := by
  rw [← hu.weighed.covered_spans, hu.spans]

theorem Shape.light (hv : v.Valid) (hu : v.Shape t u) : u.total.toNat < 2 ^ 63 := by
  have := hv.covered_le
  have := hv.small
  rw [hu.total]
  omega

theorem Shape.wellFormed (hv : v.Valid) (hu : v.Shape t u) : u.WellFormed :=
  ⟨hu.weighed, hu.linked, by rw [Tree.ids, hu.spans]; exact hv.distinct⟩

theorem Shape.isNil (hu : v.Shape t u) : u.isNil = true ↔ v.spans = [] := by
  rw [← hu.spans, Tree.spans_eq_nil]
  cases u <;> simp [Tree.isNil]

/-- In a tree with the spans of a reading the cache of a node is exact. -/
theorem Shape.trusted (hv : v.Valid) {c : Cursor} (hu : v.Shape t c.toTree) :
    c.Trusted v.start.toNat := by
  have hplaced : Placed v.start.toNat (c.before ++ c.span :: c.after) := by
    rw [← c.spans_toTree, hu.spans]
    exact hv.placed
  have hcover := hv.covered_le
  have hfits := hv.fits
  refine ⟨hu.weighed, hu.linked, hplaced.position, ?_⟩
  rw [hu.total]
  omega

/-- A tree with other spans in the place of one that a reading has. -/
theorem Shape.respanned {spans : List Span} {w : Tree} (hu : v.Shape t u)
    (h : u.Respanned spans w) : Shape { v with spans } t w :=
  ⟨h.spans, h.weighed, h.linked, fun link hlink => hu.homed link (h.link link hlink)⟩

/-- The root is linked to the text again. -/
theorem Shape.setLink (hu : v.Shape t u) : v.Shape t (u.setLink (.owner t)) := by
  refine ⟨by simpa using hu.spans, by simpa using hu.weighed, by simpa using hu.linked, ?_⟩
  intro link hlink
  cases u with
  | nil => simp [Tree.setLink] at hlink
  | node n l r => exact ⟨t, by simpa [Tree.setLink, eq_comm] using hlink, rfl⟩

/-- Another shape of the same spans. -/
theorem Shape.reshaped {w : Tree} (hu : v.Shape t u) (h : Tree.Reshaped u w) : v.Shape t w :=
  ⟨h.spans.trans hu.spans, h.weighed hu.weighed, h.linked hu.linked,
    fun link hlink => hu.homed link (h.link ▸ hlink)⟩

end Reading

/-- A forest in which a text has a reading. -/
structure Forest.Reads (f : Forest) (t : TextId) (v : Reading) : Prop where
  valid : v.Valid
  text : ∃ x, f.texts[t]? = some x ∧ x.beginOffset = v.start ∧ x.content = v.content ∧
    x.access.word = v.word ∧ v.Shape t x.root
  settings : f.settings = v.settings
  nextId : f.nextId = v.nextId
  apart : ∀ p, p ≠ .text t → ∀ id ∈ (f.tree p).ids, id < v.nextId ∧ id ∉ v.ids

/-- A forest in which a text has a reading with some spans or other; the
rest of the reading is given. -/
def Forest.Hosts (f : Forest) (t : TextId) (v : Reading) : Prop :=
  ∃ nextId spans, f.Reads t { v with nextId, spans }

namespace Forest

variable {f : Forest} {t : TextId} {v v' : Reading} {u : Tree}

theorem Reads.hosts (h : f.Reads t v) : f.Hosts t v := ⟨v.nextId, v.spans, h⟩

theorem Reads.shape (h : f.Reads t v) : v.Shape t (f.tree (.text t)) := by
  obtain ⟨x, hx, -, -, -, hshape⟩ := h.text
  rwa [tree_text hx]

theorem Reads.ids (h : f.Reads t v) : (f.tree (.text t)).ids = v.ids := by
  rw [Tree.ids, h.shape.spans, Reading.ids]

/-- The reading of the only text of a forest without loose trees. -/
theorem reads_of_single {x : Text} (htexts : f.texts = [x]) (hloose : f.loose = {}) (hv : v.Valid)
    (hstart : x.beginOffset = v.start) (hcontent : x.content = v.content)
    (hword : x.access.word = v.word) (hsettings : f.settings = v.settings)
    (hnext : f.nextId = v.nextId) (hshape : v.Shape 0 x.root) : f.Reads 0 v where
  valid := hv
  text := ⟨x, by simp [htexts], hstart, hcontent, hword, hshape⟩
  settings := hsettings
  nextId := hnext
  apart p hp id hid := by
    simp [tree_of_single htexts hloose hp] at hid

/-- The profile is no part of a reading. -/
theorem Reads.profile (h : f.Reads t v) (p : Profile) : { f with profile := p }.Reads t v :=
  ⟨h.valid, h.text, h.settings, h.nextId, h.apart⟩

/-! ## Planting a tree -/

/-- Another tree of the text is planted. Its identities are not used elsewhere. -/
theorem Reads.plant (h : f.Reads t v) {spans : List Span} (hv : { v with spans }.Valid)
    (hu : { v with spans }.Shape t u)
    (hids : ∀ p, p ≠ .text t → ∀ id ∈ (f.tree p).ids, id ∉ spans.map (·.id)) :
    (f.plant u (.text t)).Reads t { v with spans } where
  valid := hv
  text := by
    obtain ⟨x, hx, hstart, hcontent, hword, -⟩ := h.text
    exact ⟨{ x with root := u }, texts_plant u x hx, hstart, hcontent, hword, hu⟩
  settings := h.settings
  nextId := h.nextId
  apart p hp id hid := by
    rw [tree_plant_of_ne hp] at hid
    exact ⟨(h.apart p hp id hid).1, hids p hp id hid⟩

/-- A tree without new identities is planted. -/
theorem Reads.plant_of_subset (h : f.Reads t v) {spans : List Span}
    (hv : { v with spans }.Valid) (hu : { v with spans }.Shape t u)
    (hids : ∀ id ∈ spans.map (·.id), id ∈ v.ids) :
    (f.plant u (.text t)).Reads t { v with spans } :=
  h.plant hv hu fun p hp id hid hmem => (h.apart p hp id hid).2 (hids id hmem)

/-- A tree with a new node is planted. -/
theorem Reads.plant_new (h : f.Reads t v) {spans : List Span}
    (hv : { v with nextId := v.nextId + 1, spans }.Valid)
    (hu : { v with nextId := v.nextId + 1, spans }.Shape t u)
    (hids : ∀ id ∈ spans.map (·.id), id ∈ v.ids ∨ id = v.nextId) :
    ({ f with nextId := v.nextId + 1 }.plant u (.text t)).Reads t
      { v with nextId := v.nextId + 1, spans } where
  valid := hv
  text := by
    obtain ⟨x, hx, hstart, hcontent, hword, -⟩ := h.text
    exact ⟨{ x with root := u }, texts_plant (f := { f with nextId := v.nextId + 1 }) u x hx,
      hstart, hcontent, hword, hu⟩
  settings := h.settings
  nextId := rfl
  apart p hp id hid := by
    have hid' : id ∈ (f.tree p).ids :=
      tree_plant_of_ne (f := { f with nextId := v.nextId + 1 }) hp u ▸ hid
    obtain ⟨hlt, hnot⟩ := h.apart p hp id hid'
    refine ⟨Nat.lt_succ_of_lt hlt, fun hmem => ?_⟩
    rcases hids id hmem with hold | rfl
    · exact hnot hold
    · exact Nat.lt_irrefl _ hlt

/-- Another shape of the tree is planted. -/
theorem Reads.plant_shape (h : f.Reads t v) (hu : v.Shape t u) :
    (f.plant u (.text t)).Reads t v :=
  h.plant_of_subset (show { v with spans := v.spans }.Valid from h.valid) hu fun _ hid => hid

/-! ## Looking up a node -/

/-- A node of the text is looked up in the text's tree. -/
theorem Reads.locate?_eq (h : f.Reads t v) {id : NodeId} (hid : id ∈ v.ids) :
    f.locate? id = ((f.tree (.text t)).locate? id).map fun c => ⟨.text t, c⟩ :=
  Forest.locate?_eq (by rwa [h.ids]) fun p hp hid' => (h.apart p hp id hid').2 hid

/-- The tree is cut at a node as the reading is. -/
theorem Reads.locate? (h : f.Reads t v) {pre post : List Span} {x : Span}
    (hcut : v.spans = pre ++ x :: post) :
    ∃ c, f.locate? x.id = some ⟨.text t, c⟩ ∧ c.toTree = f.tree (.text t) ∧ c.node.id = x.id ∧
      c.before = pre ∧ c.span = x ∧ c.after = post := by
  have hmem : x.id ∈ (f.tree (.text t)).ids := by
    simp [h.ids, Reading.ids, hcut]
  obtain ⟨c, hc, htree, hid⟩ := Tree.locate?_of_mem hmem
  have hd : c.toTree.ids.Nodup := htree ▸ (h.shape.wellFormed h.valid).distinct
  obtain ⟨hpre, hx, hpost⟩ := c.cut_unique hd (htree ▸ h.shape.spans.trans hcut) hid.symm
  refine ⟨c, ?_, htree, hid, hpre, hx, hpost⟩
  rw [h.locate?_eq (by simp [Reading.ids, hcut]), hc]
  rfl

end Forest

/-! ## Specifications -/

namespace Run

/-- On every forest with a reading, the operation has a result and leaves
a forest with a reading. -/
def Does {α : Type} (op : Run α) (t : TextId) (v : Reading) (r : Except Fault α)
    (v' : Reading) : Prop :=
  ∀ f : Forest, f.Reads t v → ∃ f' : Forest, exec op f = (r, f') ∧ f'.Reads t v'

variable {α β : Type} {t : TextId} {v v' v'' : Reading}

theorem does_pure (a : α) : Does (pure a) t v (.ok a) v :=
  fun f hf => ⟨f, exec_pure a f, hf⟩

/-- One operation after another. -/
theorem Does.bind {x : Run α} {k : α → Run β} {a : α} {r : Except Fault β}
    (hx : Does x t v (.ok a) v') (hk : Does (k a) t v' r v'') : Does (x >>= k) t v r v'' := by
  intro f hf
  obtain ⟨f', hexec, hf'⟩ := hx f hf
  rw [exec_bind_ok hexec]
  exact hk f' hf'

/-- A profiled scope has the result of what it contains, and its tree. -/
theorem exec_profiled_tree {label : String} {body : Run α} {f : Forest} {r : Except Fault α}
    {P : Tree → Prop} (h : ∀ p, ∃ f', exec body { f with profile := p } = (r, f') ∧
      f'.Reads t v ∧ P (f'.tree (.text t))) :
    ∃ f', exec (profiled label body) f = (r, f') ∧ f'.Reads t v ∧ P (f'.tree (.text t)) := by
  obtain ⟨p, p', hp⟩ := exec_profiled label body f
  obtain ⟨f', hexec, hf', htree⟩ := h p
  exact ⟨_, by rw [hp, hexec], hf'.profile p', htree⟩

theorem exec_profiled_reads {label : String} {body : Run α} {f : Forest} {r : Except Fault α}
    (h : ∀ p, ∃ f', exec body { f with profile := p } = (r, f') ∧ f'.Reads t v) :
    ∃ f', exec (profiled label body) f = (r, f') ∧ f'.Reads t v := by
  have htree : ∃ f', exec (profiled label body) f = (r, f') ∧ f'.Reads t v ∧ True :=
    exec_profiled_tree (P := fun _ => True) fun p => by
      obtain ⟨f', hexec, hf'⟩ := h p
      exact ⟨f', hexec, hf', trivial⟩
  obtain ⟨f', hexec, hf', -⟩ := htree
  exact ⟨f', hexec, hf'⟩

/-- Putting back a cursor that kept the tree changes nothing. -/
theorem exec_putBack_same {f : Forest} {c : Cursor} (h : c.toTree = f.tree (.text t)) :
    exec (putBack ⟨.text t, c⟩) f = (.ok ⟨⟩, f) := by
  rw [exec_putBack, h, Forest.plant_self]

/-- A node of the text is located in the text's tree, which is cut there
as the reading is. -/
theorem exec_locate_of_reads {f : Forest} (h : f.Reads t v) {pre post : List Span} {x : Span}
    (hcut : v.spans = pre ++ x :: post) :
    ∃ c, exec (locate x.id) f = (.ok ⟨.text t, c⟩, f) ∧ c.toTree = f.tree (.text t) ∧
      v.Shape t c.toTree ∧ c.before = pre ∧ c.span = x ∧ c.after = post := by
  obtain ⟨c, hc, htree, -, hpre, hx, hpost⟩ := h.locate? hcut
  exact ⟨c, exec_locate hc, htree, htree ▸ h.shape, hpre, hx, hpost⟩

/-- The root of the text is located at the top of its tree. -/
theorem exec_locate_root {f : Forest} (h : f.Reads t v) {id : NodeId}
    (hid : (f.tree (.text t)).id? = some id) :
    ∃ c, exec (locate id) f = (.ok ⟨.text t, c⟩, f) ∧ c.toTree = f.tree (.text t) ∧
      c.path = [] ∧ c.node.link = .owner t := by
  have hshape := h.shape
  have hmem : id ∈ v.ids := by
    have := Tree.id_mem_ids_of_id? hid
    rwa [h.ids] at this
  have heq := h.locate?_eq hmem
  cases ht : f.tree (.text t) with
  | nil => simp [ht, Tree.id?, Tree.head?] at hid
  | node n l r =>
    rw [ht] at hid hshape heq
    have hn : n.id = id := by simpa [Tree.id?, Tree.head?] using hid
    obtain ⟨text, hlink, htext⟩ := hshape.homed n.link rfl
    obtain rfl : t = text := by simpa using htext
    refine ⟨⟨n, l, r, []⟩, exec_locate (heq.trans ?_), rfl, rfl, hlink⟩
    simp [Tree.locate?, Tree.wayTo?, hn, Tree.descend?, Cursor.ofTree?]

end Run

end SpanTree
