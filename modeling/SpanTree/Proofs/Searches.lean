/-
SpanTree.Proofs.Searches — the search for a position, whatever the caches.

A search in a text makes the first node if there is none, balances the
root, and goes down from what is then the root by an offset. The offset
is taken from weights alone, so that no cache matters, and balancing is
not seen on the list of spans. What a search does there is `Searched`: it
gives the span where the position has its place and makes its cache
exact, or it refuses the position and leaves the list as it is.

`Forest.Carries` is what is asked of a text. A text may end beyond the
largest word; then every position from its start on is a position of it.
-/
import SpanTree.Proofs.Cuts
import SpanTree.Proofs.Fills
import SpanTree.Proofs.Fixpoint

namespace SpanTree

namespace Tree

variable {t : Tree}

theorem Weighed.total_pos (hw : t.Weighed) (h : t.isNil = false) : 0 < t.total := by
  cases t with
  | nil => cases h
  | node n l r =>
    have hown := hw.1
    rw [UInt64.lt_iff_toNat_lt, total_node]
    simp only [UInt64.toNat_zero]
    omega

/-- The way down of a search never comes to a child that is not there, whatever the weights. -/
theorem isSome_seekBelow (h : t.isNil = false) (offset : Size) (path : Path) :
    (t.seekBelow offset path).isSome := by
  induction t generalizing offset path with
  | nil => cases h
  | node n l r ihl ihr =>
    rw [seekBelow]
    split
    · next hlt =>
      refine ihl ?_ offset _
      cases l with
      | nil => simp at hlt
      | node => rfl
    · split
      · next hge =>
        simp only [Bool.and_eq_true, Bool.not_eq_true'] at hge
        exact ihr hge.1 _ _
      · rfl

end Tree

/-! ## Searches on the list of spans -/

/-- What a search for a position gives among spans that begin at a start, and the spans it
leaves. -/
structure Searched (start p : Size) (refusal : Fault) (spans : List Span)
    (r : Except Fault NodeId) (left : List Span) : Prop where
  /-- It succeeds at positions of the spans and at their end. -/
  succeeds : (∃ id, r = .ok id) ↔
    spans ≠ [] ∧ start.toNat ≤ p.toNat ∧ p.toNat ≤ start.toNat + covered spans
  /-- Where it succeeds, the position has its place in a span. -/
  located : ∀ id, r = .ok id →
    ∃ pre y post, spans = pre ++ y :: post ∧ Locates start.toNat p pre y post
  /-- It gives the span where the position has its place, whose cache is exact then. -/
  found : ∀ pre y post, spans = pre ++ y :: post → Locates start.toNat p pre y post →
    r = .ok y.id ∧
      ∃ q : Size, q.toNat = start.toNat + covered pre ∧ left = pre ++ y.movedTo q :: post
  /-- A position that it refuses leaves the spans as they are. -/
  refused : ∀ e, r = .error e → e = refusal ∧ left = spans

section Searched

variable {start p q : Size} {refusal : Fault} {spans pre post : List Span} {y : Span}

theorem Locates.bounds {n : Nat} (h : Locates n p pre y post) :
    n ≤ p.toNat ∧ p.toNat ≤ n + covered (pre ++ y :: post) := by
  simp only [covered_append, covered_cons]
  obtain ⟨hlo, hhi | ⟨hend, -⟩⟩ := h <;> omega

/-- A search that comes to the place of the position. -/
theorem searched_found (hplace : Locates start.toNat p pre y post)
    (hq : q.toNat = start.toNat + covered pre) :
    Searched start p refusal (pre ++ y :: post) (.ok y.id) (pre ++ y.movedTo q :: post) where
  succeeds := by
    exact ⟨fun _ => ⟨by simp, hplace.bounds⟩, fun _ => ⟨y.id, rfl⟩⟩
  located _ _ := ⟨pre, y, post, rfl, hplace⟩
  found pre' y' post' hcut hplace' := by
    obtain ⟨rfl, rfl, rfl⟩ := locates_unique hcut hplace hplace'
    exact ⟨rfl, q, hq, rfl⟩
  refused e he := by cases he

/-- A search for a position that has no place. -/
theorem searched_refused
    (h : ¬ (spans ≠ [] ∧ start.toNat ≤ p.toNat ∧ p.toNat ≤ start.toNat + covered spans)) :
    Searched start p refusal spans (.error refusal) spans where
  succeeds := by simpa using h
  located _ hid := by cases hid
  found pre' y' post' hcut hplace' := by
    subst hcut
    exact absurd ⟨by simp, hplace'.bounds⟩ h
  refused e he := by
    cases he
    exact ⟨rfl, rfl⟩

end Searched

namespace Forest

variable {f g : Forest} {p : Place} {u : Tree} {id : NodeId}

/-- What is asked of a place with a tree depends on the trees only. -/
theorem Holds.congr (hf : f.Holds p) (htree : ∀ q, g.tree q = f.tree q) : g.Holds p where
  wellFormed := by
    rw [htree]
    exact hf.wellFormed
  link := by
    rw [htree]
    exact hf.link
  apart q hq := by
    rw [htree, htree]
    exact hf.apart q hq

/-- If nodes can be added, it depends on the next identity too. -/
theorem Grows.congr (hf : f.Grows p) (htree : ∀ q, g.tree q = f.tree q)
    (hnext : f.nextId ≤ g.nextId) : g.Grows p where
  toHolds := hf.toHolds.congr htree
  light := by
    rw [htree]
    exact hf.light
  unset := by
    rw [htree]
    exact hf.unset
  fresh q id hid := by
    rw [htree] at hid
    exact Nat.lt_of_lt_of_le (hf.fresh q id hid) hnext

/-- The cursor of the top of a tree. -/
theorem Holds.top (hf : f.Holds p) (htop : (f.tree p).id? = some id) :
    ∃ c, f.locate? id = some ⟨p, c⟩ ∧ c.toTree = f.tree p ∧ c.path = [] ∧
      c.node.link ∈ (f.tree p).link? ∧ c.node.data.total = (f.tree p).total := by
  have hid := Tree.id_mem_ids_of_id? htop
  have halone := fun q hq => hf.apart q hq id hid
  obtain ⟨c, hc, htree, hnode⟩ := exists_cursor hid halone
  have hpath := (path_eq_nil_iff hid halone hc htree hnode).mpr htop
  have hsub := htree.symm.trans (Cursor.toTree_of_top hpath)
  refine ⟨c, hc, htree, hpath, ?_, ?_⟩ <;> rw [hsub] <;> rfl

end Forest

/-- The second tree is what a search for a position leaves of the tree of a text, but for caches:
the tree as it was if the position is before the text, and otherwise what balancing at the root
makes of it. -/
def Text.Sought (x : Text) (q : Size) (u : Tree) : Prop :=
  ∃ w, u.skeleton = w.skeleton ∧
    (q < x.beginOffset ∧ w = x.root ∨ x.beginOffset ≤ q ∧ ∃ k, x.root.BalancedTo w k)

namespace Run

open Forest (plant_profile plant_replace tree_plant)

variable {f g : Forest} {p : Place} {t : TextId} {x : Text} {id : NodeId}

/-! ## From the top down -/

/-- The search from the top of a tree for the position that an offset stands for. -/
theorem exec_seek_top (hf : f.Holds p) (htop : (f.tree p).id? = some id) {start offset q : Size}
    (hq : q.toNat = start.toNat + offset.toNat) :
    ∃ r g u, exec (do
        let site ← locate id
        let total := site.cursor.node.data.total
        if total < offset then
          throw (findOutside q (q - offset) (q - offset + total))
        let found := site.cursor.seek offset q
        putBack { site with cursor := found }
        pure found.node.id) f = (r, g) ∧
      (g = f.plant u p ∨ g = f ∧ u = f.tree p) ∧ (f.tree p).Twins u ∧
      u.skeleton = (f.tree p).skeleton ∧
      Searched start q (findOutside q start (start + (f.tree p).total)) (f.tree p).spans r
        u.spans := by
  obtain ⟨c, hc, htree, hpath, -, htotal⟩ := hf.top htop
  have hw := hf.wellFormed.weighed
  have hl := hf.wellFormed.linked
  have hcover := hw.covered_spans
  have hback : q - offset = start := by
    rw [← UInt64.toNat_inj, Size.toNat_sub_of_le] <;> omega
  rw [exec_bind_ok (exec_locate hc)]
  dsimp only
  by_cases hout : c.node.data.total < offset
  · have hout' := UInt64.lt_iff_toNat_lt.mp hout
    rw [htotal] at hout'
    refine ⟨_, f, f.tree p, ?_, .inr ⟨rfl, rfl⟩, .refl _, rfl, searched_refused ?_⟩
    · rw [if_pos hout, hback, htotal]
      rfl
    · rw [hcover]
      omega
  · have hin : offset.toNat ≤ c.toTree.total.toNat := by
      rw [UInt64.lt_iff_toNat_lt, htotal, ← htree] at hout
      omega
    obtain ⟨d, w, hseek, hdtree, hw', hplace⟩ :=
      Cursor.seek_top (htree ▸ hw) hpath hq hin
    have hdt := hdtree.trans htree
    have hset := d.respanned_withPosition (hdt ▸ hw) (hdt ▸ hl) w
    refine ⟨.ok d.node.id, f.plant (d.withPosition w).toTree p, (d.withPosition w).toTree, ?_,
      .inl rfl, ?_, ?_, ?_⟩
    · rw [if_neg hout, hseek]
      rfl
    · rw [← hdt]
      exact d.twins_withPosition (hdt ▸ hw) (hdt ▸ hl) w
    · rw [← hdt]
      exact d.skeleton_withPosition w
    · rw [hset.spans, ← hdt, d.spans_toTree]
      exact searched_found hplace hw'

/-- A profiled scope has the result of what it contains. -/
theorem exec_profiled_exists {α : Type} {label : String} {body : Run α} {f : Forest}
    {P : Except Fault α → Forest → Prop}
    (h : ∀ k, ∃ r g l, exec body { f with profile := k } = (r, { g with profile := l }) ∧ P r g) :
    ∃ r g l, exec (profiled label body) f = (r, { g with profile := l }) ∧ P r g := by
  obtain ⟨k, k', hk⟩ := exec_profiled label body f
  obtain ⟨r, g, l, hexec, hP⟩ := h k
  exact ⟨r, g, k', by rw [hk, hexec], hP⟩

/-- A search from a top that is linked to nothing. -/
theorem exec_find_unlinked (hf : f.Holds p) (htop : (f.tree p).id? = some id)
    (hunset : ∀ link ∈ (f.tree p).link?, link = .unset) (q : Size) :
    ∃ r g k, exec (find id q) f = (r, { g with profile := k }) ∧
      ∃ u, (g = f.plant u p ∨ g = f ∧ u = f.tree p) ∧ (f.tree p).Twins u ∧
        Searched 0 q (findOutside q 0 (f.tree p).total) (f.tree p).spans r u.spans := by
  rw [find]
  refine exec_profiled_exists fun k => ?_
  have hf' : { f with profile := k }.Holds p := hf.congr fun _ => rfl
  obtain ⟨c, hc, -, -, hmem, -⟩ := hf'.top htop
  have hlink : c.node.link = .unset := hunset _ hmem
  have hoffset : q.toNat = (0 : Size).toNat + q.toNat := by simp
  obtain ⟨r, g, u, hexec, hg, htwins, -, hsearched⟩ := exec_seek_top hf' htop hoffset
  rw [UInt64.zero_add] at hsearched
  obtain ⟨h, hh, hu⟩ : ∃ h : Forest, g = { h with profile := k } ∧
      (h = f.plant u p ∨ h = f ∧ u = f.tree p) := by
    rcases hg with rfl | ⟨rfl, rfl⟩
    · exact ⟨_, plant_profile f u p k, .inl rfl⟩
    · exact ⟨f, rfl, .inr ⟨rfl, rfl⟩⟩
  refine ⟨r, h, k, ?_, u, hu, htwins, hsearched⟩
  rw [exec_bind_ok (exec_locate hc)]
  simp only [hlink]
  rw [exec_bind_ok (exec_pure _ _), ← hh]
  exact hexec

/-- A search from the root of a text. -/
theorem exec_find_text (hf : f.Grows (.text t)) (hx : f.texts[t]? = some x)
    (htop : x.root.id? = some id) (q : Size) :
    ∃ r g k, exec (find id q) f = (r, { g with profile := k }) ∧
      ∃ u, g = f.plant u (.text t) ∧ x.root.Twins u ∧ x.Sought q u ∧
        Searched x.beginOffset q (findOutside q x.beginOffset (x.beginOffset + x.root.total))
          x.root.spans r u.spans := by
  have hroot := Forest.tree_text hx
  rw [find]
  refine exec_profiled_exists fun k => ?_
  have hf' : { f with profile := k }.Grows (.text t) := hf.congr (fun _ => rfl) (Nat.le_refl _)
  have htop' : (f.tree (.text t)).id? = some id := hroot ▸ htop
  obtain ⟨c, hc, -, -, hmem, htotal⟩ := hf'.toHolds.top htop'
  have hlink : c.node.link = .owner t := hf'.link t rfl _ hmem
  rw [show ({ f with profile := k } : Forest).tree (.text t) = x.root from hroot] at htotal
  rw [exec_bind_ok (exec_locate hc)]
  simp only [hlink]
  rw [exec_bind_ok (exec_text (f := { f with profile := k }) hx)]
  by_cases hlow : q < x.beginOffset
  · have hlow' := UInt64.lt_iff_toNat_lt.mp hlow
    refine ⟨.error (findOutside q x.beginOffset (x.beginOffset + x.root.total)), f, k, ?_, x.root,
      ?_, .refl _, ⟨x.root, rfl, .inl ⟨hlow, rfl⟩⟩, searched_refused (by omega)⟩
    · rw [if_pos hlow, htotal]
      rfl
    · rw [← hroot, Forest.plant_self]
  · have hge : x.beginOffset.toNat ≤ q.toNat := by
      rw [UInt64.lt_iff_toNat_lt] at hlow
      omega
    have hoffset : q.toNat = x.beginOffset.toNat + (q - x.beginOffset).toNat := by
      rw [Size.toNat_sub_of_le hge]
      omega
    -- the root is balanced
    obtain ⟨w, top, rotations, l, hbal, hto, hwtop⟩ := exec_balancePossibleRoot_text hf' htop'
    have hkept := hto.reshaped
    obtain ⟨g, hg⟩ : ∃ g : Forest, g = { ({ f with profile := k } : Forest).plant w (.text t) with
      profile := l } := ⟨_, rfl⟩
    have hgrows : g.Grows (.text t) := hg ▸ hf'.twin hkept.twins
    have hgtree : g.tree (.text t) = w := by
      rw [hg]
      exact tree_plant (.text t) (Tree.isNil_of_size_eq hkept.size).symm
    -- the search goes down from what is the root then
    obtain ⟨r, h, u, hexec, hh, htwins, hskeleton, hsearched⟩ :=
      exec_seek_top hgrows.toHolds (hgtree ▸ hwtop) hoffset
    rw [hgtree] at hh htwins hskeleton hsearched
    have hto' : x.root.BalancedTo w rotations := hroot ▸ hto
    rw [← hroot, ← show w.spans = (f.tree (.text t)).spans from hkept.spans,
      ← show w.total = (f.tree (.text t)).total from hkept.total]
    refine ⟨r, f.plant u (.text t), l, ?_, u, rfl, hkept.twins.trans htwins,
      ⟨w, hskeleton, .inr ⟨UInt64.le_iff_toNat_le.mpr hge, rotations, hroot ▸ hto'⟩⟩, hsearched⟩
    rw [if_neg (by rwa [UInt64.lt_iff_toNat_lt]), exec_bind_ok hbal, ← hg,
      exec_bind_ok (exec_pure _ _)]
    refine hexec.trans (congrArg (Prod.mk r) ?_)
    rw [plant_profile] at hg
    rcases hh with rfl | ⟨rfl, rfl⟩
    · rw [hg, plant_profile, plant_profile, plant_replace]
    · exact hg

end Run

/-! ## Texts -/

namespace Text

/-- The spans of a text once it has a tree. The first node would have the given identity. -/
def spansFrom (x : Text) (n : NodeId) : List Span :=
  if x.root.isNil && 0 < x.length then [⟨n, x.length, x.beginOffset, {}, {}⟩] else x.root.spans

/-- The next identity once a text has a tree. -/
def nextFrom (x : Text) (n : NodeId) : NodeId :=
  if x.root.isNil && 0 < x.length then n + 1 else n

/-- The refusal of a position by a search in a text. Without characters the text refuses it, and
otherwise the search from its root, both with the bounds of the text. -/
def refusal (x : Text) (p : Size) : Fault :=
  if x.length = 0 then .range ⟨"basic_text::find_interval", p, x.beginOffset, x.beginOffset⟩
  else Run.findOutside p x.beginOffset (x.beginOffset + x.length)

theorem spansFrom_of_root {x : Text} (h : x.root.isNil = false) (n : NodeId) :
    x.spansFrom n = x.root.spans := by
  simp [spansFrom, h]

theorem nextFrom_of_root {x : Text} (h : x.root.isNil = false) (n : NodeId) :
    x.nextFrom n = n := by
  simp [nextFrom, h]

end Text

namespace Forest

/-- A text in which searches can be made. Its tree, if it has one, is light and well-formed, is
linked to the text and covers it, and its nodes are in no other tree. -/
structure Carries (f : Forest) (t : TextId) (x : Text) : Prop where
  text : f.texts[t]? = some x
  /-- Differences of weights are signed words. -/
  small : x.content.utf8ByteSize < 2 ^ 63
  covers : x.root.isNil = false → x.root.total = x.length
  grows : f.Grows (.text t)

variable {f g : Forest} {t : TextId} {x : Text} {u : Tree}

/-- The length of a text, as a number. -/
theorem Carries.toNat_length (hf : f.Carries t x) :
    x.length.toNat = x.content.utf8ByteSize := by
  have hsmall := hf.small
  rw [Text.length, Nat.toUInt64, UInt64.toNat_ofNat', Nat.mod_eq_of_lt (by omega)]

theorem Carries.wellFormed (hf : f.Carries t x) : x.root.WellFormed := by
  rw [← tree_text hf.text]
  exact hf.grows.wellFormed

/-- A text with a tree has characters. -/
theorem Carries.length_pos (hf : f.Carries t x) (h : x.root.isNil = false) : 0 < x.length := by
  rw [← hf.covers h]
  exact hf.wellFormed.weighed.total_pos h

/-- The text is given a tree that covers it. -/
theorem Carries.plant (hf : f.Carries t x) {n : NodeId} {q : Profile} (hu : u.WellFormed)
    (htotal : u.total = x.length) (hlink : ∀ link ∈ u.link?, link = .owner t)
    (hn : f.nextId ≤ n)
    (hids : ∀ id ∈ u.ids, id ∈ x.root.ids ∨ f.nextId ≤ id ∧ id < n) :
    { f.plant u (.text t) with nextId := n, profile := q }.Carries t { x with root := u } where
  text := texts_plant u x hf.text
  small := hf.small
  covers _ := htotal
  grows := by
    have hsmall := hf.small
    refine hf.grows.planted hu ?_ ?_ ?_ hn ?_ ?_
    · rw [htotal, hf.toNat_length]
      exact hsmall
    · rintro t' ht' link hmem
      obtain rfl : t = t' := by simpa [Place.home?] using ht'
      exact hlink link hmem
    · intro h
      cases h
    · rwa [tree_text hf.text]
    · exact tree_text (texts_plant u x hf.text)

/-- The tree of the text is exchanged for its twin. -/
theorem Carries.twin (hf : f.Carries t x) (hu : x.root.Twins u) (q : Profile) :
    { f.plant u (.text t) with profile := q }.Carries t { x with root := u } where
  text := texts_plant u x hf.text
  small := hf.small
  covers hnil := hu.total.trans (hf.covers (hu.isNil.symm.trans hnil))
  grows := hf.grows.twin (tree_text hf.text ▸ hu)

/-- A tree is planted beside the notes. -/
theorem plant_noted (f : Forest) (t : TextId) (a : Tracker) (q : Profile) (u : Tree) :
    (f.noted t a q).plant u (.text t) = (f.plant u (.text t)).noted t a q := by
  simp only [noted, plant, modifyText, List.modify_modify_eq]
  rfl

/-- The spans of a text, once it has a tree, cover it. -/
theorem Carries.covered_spansFrom (hf : f.Carries t x) (n : NodeId) :
    covered (x.spansFrom n) = x.content.utf8ByteSize := by
  rw [← hf.toNat_length]
  cases hnil : x.root.isNil with
  | false =>
    rw [x.spansFrom_of_root hnil, hf.wellFormed.weighed.covered_spans, hf.covers hnil]
  | true =>
    have hroot := Tree.isNil_iff.mp hnil
    by_cases hpos : 0 < x.length
    · simp [Text.spansFrom, hnil, hpos]
    · have hzero := UInt64.lt_iff_toNat_lt.not.mp hpos
      simp only [UInt64.toNat_zero] at hzero
      simp only [Text.spansFrom, hroot, hpos]
      simp
      omega

/-- A text gets a tree where it has characters. -/
theorem Carries.spansFrom_ne_nil (hf : f.Carries t x) (n : NodeId) :
    x.spansFrom n ≠ [] ↔ 0 < x.content.utf8ByteSize := by
  constructor
  · intro hne
    by_contra hzero
    have hpos : ¬ 0 < x.length := by
      rw [UInt64.lt_iff_toNat_lt, hf.toNat_length]
      simpa using hzero
    cases hnil : x.root.isNil with
    | true => exact hne (by simp [Text.spansFrom, hpos, Tree.isNil_iff.mp hnil])
    | false => exact hpos (hf.length_pos hnil)
  · intro hpos hnil
    have hcovered := hf.covered_spansFrom n
    rw [hnil, covered_nil] at hcovered
    omega

/-- Notes do not matter. -/
theorem Carries.noted {a : Tracker} {q : Profile} (hf : f.Carries t x) :
    (f.noted t a q).Carries t { x with access := a } where
  text := texts_noted hf.text a q
  small := hf.small
  covers := hf.covers
  grows := hf.grows.congr (f.tree_noted t a q) (Nat.le_refl _)

end Forest

namespace Run

open Forest (plant_profile plant_with plant_replace)

variable {f : Forest} {t : TextId} {x : Text}

/-- The check of a text in which searches can be made passes. -/
theorem exec_verify_carries (hf : f.Carries t x) : exec (verify t) f = (.ok ⟨⟩, f) := by
  rw [verify, exec_bind_ok (exec_get f)]
  split
  · refine exec_checkText_of hf.text hf.wellFormed.weighed hf.wellFormed.linked fun link hmem => ?_
    have hnil : x.root.isNil = false := by
      cases hroot : x.root with
      | nil => simp [hroot] at hmem
      | node n l r => rfl
    rw [← Forest.tree_text hf.text] at hmem
    exact ⟨hf.grows.link t rfl link hmem, hf.covers hnil⟩
  · exact exec_pure _ _

/-- The first node of a text covers it. -/
theorem exec_createRoot_carries (hf : f.Carries t x) (hnil : x.root.isNil = true)
    (hpos : 0 < x.length) :
    ∃ w, exec (createRoot t) f =
        (.ok f.nextId, { f.plant w (.text t) with nextId := f.nextId + 1 }) ∧
      { f.plant w (.text t) with nextId := f.nextId + 1 }.Carries t { x with root := w } ∧
      w.spans = [⟨f.nextId, x.length, x.beginOffset, {}, {}⟩] ∧ w.id? = some f.nextId := by
  refine ⟨.node (((Node.fresh f.nextId x.length).withPosition x.beginOffset).withLink (.owner t))
    .nil .nil, ?_, ?_, ?_, rfl⟩
  · rw [createRoot, exec_bind_ok (exec_text hf.text), exec_bind_ok (exec_require hnil _ _),
      exec_bind_ok (exec_require (decide_eq_true hpos) _ _), exec_bind_ok (exec_freshId f)]
    rfl
  · refine hf.plant (q := f.profile) ⟨⟨?_, trivial, trivial⟩, ⟨rfl, rfl, trivial, trivial⟩, ?_⟩ rfl
      ?_ (Nat.le_succ _) ?_
    · simpa [Node.fresh, UInt64.lt_iff_toNat_lt] using hpos
    · simp [Tree.ids]
    · simp
    · simp [Tree.ids, Node.fresh, Node.withPosition, Node.withLink]
  · simp [Node.span, Node.length, Node.fresh, Node.withPosition, Node.withLink]

/-- A text that has characters has a root afterwards. -/
theorem exec_ensureRoot_carries (hf : f.Carries t x) (hpos : 0 < x.length) :
    ∃ w id, exec (ensureRoot t) f =
        (.ok (some id), { f.plant w (.text t) with nextId := x.nextFrom f.nextId }) ∧
      { f.plant w (.text t) with nextId := x.nextFrom f.nextId }.Carries t { x with root := w } ∧
      w.spans = x.spansFrom f.nextId ∧ w.id? = some id ∧
      (x.root.isNil = false → w = x.root) := by
  rw [ensureRoot, exec_bind_ok (exec_text hf.text)]
  cases hnil : x.root.isNil with
  | false =>
    obtain ⟨id, hid⟩ := Tree.exists_id hnil
    rw [x.nextFrom_of_root hnil, x.spansFrom_of_root hnil]
    refine ⟨x.root, id, ?_, ?_, rfl, hid, fun _ => rfl⟩
    · rw [if_neg (by simp), exec_pure, hid, ← Forest.tree_text hf.text, f.plant_self]
    · rw [← Forest.tree_text hf.text, f.plant_self, Forest.tree_text hf.text]
      exact hf
  | true =>
    obtain ⟨w, hexec, hcarries, hspans, hid⟩ := exec_createRoot_carries hf hnil hpos
    have hnext : x.nextFrom f.nextId = f.nextId + 1 := by simp [Text.nextFrom, hnil, hpos]
    rw [hnext]
    refine ⟨w, f.nextId, ?_, hcarries, ?_, hid, by simp⟩
    · rw [if_pos (by simp [hpos]), exec_bind_ok hexec, exec_pure]
    · rw [hspans]
      simp [Text.spansFrom, hnil, hpos]

/-- What a search in a text does in its session. -/
theorem exec_search_carries (hf : f.Carries t x) (p : Size) :
    ∃ r u k, exec (do
        match ← ensureRoot t with
        | none =>
          let start := (← text t).beginOffset
          throw (.range
            { operation := "basic_text::find_interval", position := p, first := start,
              last := start })
        | some root =>
          let found ← find root p
          verify t
          pure found) f =
        (r, { f.plant u (.text t) with nextId := x.nextFrom f.nextId, profile := k }) ∧
      { f.plant u (.text t) with nextId := x.nextFrom f.nextId, profile := k }.Carries t
        { x with root := u } ∧
      (x.root.isNil = false → x.Sought p u) ∧
      Searched x.beginOffset p (x.refusal p) (x.spansFrom f.nextId) r u.spans := by
  by_cases hpos : 0 < x.length
  · obtain ⟨w, id, hroot, hg, hspans, hid, hsame⟩ := exec_ensureRoot_carries hf hpos
    generalize hgdef : ({ f.plant w (.text t) with nextId := x.nextFrom f.nextId } : Forest) = g
      at hroot hg
    obtain ⟨r, h, k, hfind, u, hh, htwins, hsought, hsearched⟩ :=
      exec_find_text hg.grows hg.text hid p
    have hcarries := hg.twin htwins k
    have hplant : ({ g.plant u (.text t) with profile := k } : Forest) =
        { f.plant u (.text t) with nextId := x.nextFrom f.nextId, profile := k } := by
      rw [← hgdef, ← plant_replace f w u]
      rfl
    have hrefusal : findOutside p x.beginOffset (x.beginOffset + w.total) = x.refusal p := by
      have hne : x.length ≠ 0 := by
        rintro h0
        simp [h0] at hpos
      have hnil : w.isNil = false := Tree.isNil_of_mem_ids (Tree.id_mem_ids_of_id? hid)
      rw [Text.refusal, if_neg hne, hg.covers hnil]
      rfl
    rw [exec_bind_ok hroot]
    refine ⟨r, u, k, ?_, hplant ▸ hcarries, fun hnil => ?_, hspans ▸ hrefusal ▸ hsearched⟩
    cases r with
    | ok found =>
      rw [exec_bind_ok hfind, hh, hplant, exec_bind_ok (exec_verify_carries (hplant ▸ hcarries)),
        exec_pure]
    | error e => rw [exec_bind_error hfind, hh, hplant]
    rw [hsame hnil] at hsought
    exact hsought
  · have hzero : x.length = 0 := by
      rw [UInt64.lt_iff_toNat_lt] at hpos
      rw [← UInt64.toNat_inj]
      simpa using hpos
    have hroot : x.root = .nil := by
      rw [← Tree.isNil_iff, ← Bool.not_eq_false]
      exact fun h => hpos (hf.length_pos h)
    have hnone : exec (ensureRoot t) f = (.ok none, f) := by
      rw [ensureRoot, exec_bind_ok (exec_text hf.text), if_neg (by simp [hpos]), exec_pure, hroot]
      rfl
    have hspans : x.spansFrom f.nextId = x.root.spans := by simp [Text.spansFrom, hpos]
    have hnext : x.nextFrom f.nextId = f.nextId := by simp [Text.nextFrom, hpos]
    refine ⟨.error (x.refusal p), x.root, f.profile, ?_, ?_, by simp [hroot, Tree.isNil], ?_⟩
    · rw [exec_bind_ok hnone, exec_bind_ok (exec_text hf.text), hnext, Text.refusal, if_pos hzero,
        ← Forest.tree_text hf.text, f.plant_self]
      rfl
    · rw [hnext, ← Forest.tree_text hf.text, f.plant_self, Forest.tree_text hf.text]
      exact hf
    · rw [hspans]
      exact searched_refused fun h => h.1 (by rw [hroot]; rfl)

/-- A search in a text. Of its session it leaves what the tracker notes. -/
theorem exec_findInterval_carries (hf : f.Carries t x)
    (hidle : f.settings.tracking = true → x.access.word = 0) (p : Size) :
    ∃ r u a k, exec (findInterval t p) f =
        (r, { f.plant u (.text t) with nextId := x.nextFrom f.nextId }.noted t a k) ∧
      a.word = x.access.word ∧
      { f.plant u (.text t) with nextId := x.nextFrom f.nextId }.Carries t { x with root := u } ∧
      (x.root.isNil = false → x.Sought p u) ∧
      Searched x.beginOffset p (x.refusal p) (x.spansFrom f.nextId) r u.spans := by
  suffices h : ∃ r g a k, exec (findInterval t p) f = (r, g.noted t a k) ∧
      a.word = x.access.word ∧
      ∃ u, g = { f.plant u (.text t) with nextId := x.nextFrom f.nextId } ∧
        g.Carries t { x with root := u } ∧ (x.root.isNil = false → x.Sought p u) ∧
        Searched x.beginOffset p (x.refusal p) (x.spansFrom f.nextId) r u.spans by
    obtain ⟨r, _, a, k, hexec, hword, u, rfl, hcarries, hsearched⟩ := h
    exact ⟨r, u, a, k, hexec, hword, hcarries, hsearched⟩
  refine exec_withSession_idle hf.text hidle fun a => ?_
  obtain ⟨r, u, k, hexec, hcarries, hsearched⟩ :=
    exec_search_carries (hf.noted (a := a) (q := f.profile)) p
  rw [Forest.plant_noted] at hexec hcarries
  refine ⟨r, { f.plant u (.text t) with nextId := x.nextFrom f.nextId }, k, hexec, rfl, u, rfl, ?_,
    hsearched⟩
  -- the text as it is without the notes of the session
  exact ⟨Forest.texts_plant u x hf.text, hf.small, hcarries.covers, hcarries.grows.congr
    (fun q => ((f.plant u (.text t)).tree_noted t a f.profile q).symm) (Nat.le_refl _)⟩

/-- **A search locates the position.** In a text without open sessions it succeeds where the text
has characters and the position is in them or at their end, counted without wrapping. Then it
gives the span where the position has its place and makes its cache exact. It refuses every other
position, with the bounds of the text. In both cases the list of spans is otherwise as it was,
that of the first node if the text had no tree, and searches can be made in the text as before,
whatever shape the tree has then. From a top that is linked to nothing a search does the same for
offsets. On the way down there is always a node. -/
theorem searches_locate :
    (∀ (f : Forest) (t : TextId) (x : Text) (p : Size), f.Carries t x →
      (f.settings.tracking = true → x.access.word = 0) →
      ∃ r u a k, exec (findInterval t p) f =
          (r, { f.plant u (.text t) with nextId := x.nextFrom f.nextId }.noted t a k) ∧
        a.word = x.access.word ∧
        { f.plant u (.text t) with nextId := x.nextFrom f.nextId }.Carries t { x with root := u } ∧
        Searched x.beginOffset p (x.refusal p) (x.spansFrom f.nextId) r u.spans ∧
        ((∃ id, r = .ok id) ↔ 0 < x.content.utf8ByteSize ∧ x.beginOffset.toNat ≤ p.toNat ∧
          p.toNat ≤ x.beginOffset.toNat + x.content.utf8ByteSize)) ∧
    (∀ (f : Forest) (place : Place) (id : NodeId) (p : Size), f.Holds place →
      (f.tree place).id? = some id → (∀ link ∈ (f.tree place).link?, link = .unset) →
      ∃ r g k u, exec (find id p) f = (r, { g with profile := k }) ∧
        (g = f.plant u place ∨ g = f ∧ u = f.tree place) ∧ u.WellFormed ∧
        Searched 0 p (findOutside p 0 (f.tree place).total) (f.tree place).spans r u.spans ∧
        ((∃ found, r = .ok found) ↔ p ≤ (f.tree place).total)) ∧
    ∀ (c : Cursor) (offset : Size), (c.subtree.seekBelow offset c.path).isSome := by
  refine ⟨?_, ?_, fun c offset => Tree.isSome_seekBelow rfl offset c.path⟩
  · intro f t x p hf hidle
    obtain ⟨r, u, a, k, hexec, hword, hcarries, -, hsearched⟩ :=
      exec_findInterval_carries hf hidle p
    refine ⟨r, u, a, k, hexec, hword, hcarries, hsearched, ?_⟩
    rw [hsearched.succeeds, hf.covered_spansFrom, hf.spansFrom_ne_nil]
  · intro f place id p hf htop hunset
    obtain ⟨r, g, k, hexec, u, hg, htwins, hsearched⟩ := exec_find_unlinked hf htop hunset p
    refine ⟨r, g, k, u, hexec, hg, htwins.wellFormed hf.wellFormed, hsearched, ?_⟩
    have hne : (f.tree place).spans ≠ [] := by
      intro hnil
      have hfilled := Tree.isNil_of_mem_ids (Tree.id_mem_ids_of_id? htop)
      rw [Tree.spans_eq_nil.mp hnil] at hfilled
      cases hfilled
    rw [hsearched.succeeds, hf.wellFormed.weighed.covered_spans, UInt64.le_iff_toNat_le]
    simp [hne]

/-- The end of a text is a position of its last span, and what is beyond it is refused. In a loose
tree of five characters the end is at 5. -/
theorem searches_locate_lopsided : ∃ x, Forest.lopsided.Carries 0 x ∧
    (∃ u a k, exec (findInterval 0 18) Forest.lopsided =
        (.ok 1, (Forest.lopsided.plant u (.text 0)).noted 0 a k) ∧
      u.spans = [⟨0, 3, 0, {}, {}⟩, ⟨1, 5, 13, {}, {}⟩]) ∧
    (∃ g, exec (findInterval 0 19) Forest.lopsided =
      (.error (.range ⟨"interval::find", 19, 10, 18⟩), g)) ∧
    ∃ g, exec (find 0 5) Edit.pair = (.ok 1, g) := by
  have hcarries : Forest.lopsided.Carries 0 _ :=
    ⟨rfl, by decide, fun _ => rfl, Forest.grows_lopsided⟩
  obtain ⟨htext, hloose, -⟩ := searches_locate
  have hlocate (p : Size) := htext _ _ _ p hcarries fun _ => rfl
  refine ⟨_, hcarries, ?_, ?_, ?_⟩
  · obtain ⟨r, u, a, k, hexec, -, -, hsearched, -⟩ := hlocate 18
    obtain ⟨rfl, q, hq, hu⟩ := hsearched.found [⟨0, 3, 0, {}, {}⟩] ⟨1, 5, 3, {}, {}⟩ [] rfl
      ⟨by decide, .inr ⟨by decide, rfl⟩⟩
    obtain rfl : q = 13 := UInt64.toNat_inj.mp hq
    exact ⟨u, a, k, hexec, hu⟩
  · obtain ⟨r, u, a, k, hexec, -, -, hsearched, hiff⟩ := hlocate 19
    cases r with
    | ok id => exact absurd (hiff.mp ⟨id, rfl⟩) (by decide)
    | error e =>
      obtain ⟨rfl, -⟩ := hsearched.refused e rfl
      exact ⟨_, hexec⟩
  · obtain ⟨r, g, k, u, hexec, -, -, hsearched, -⟩ :=
      hloose _ _ 0 5 Forest.holds_pair rfl Forest.unset_pair
    obtain ⟨rfl, -⟩ := hsearched.found [⟨0, 2, 0, {}, {}⟩] ⟨1, 3, 2, {}, {}⟩ [] rfl
      ⟨by decide, .inr ⟨by decide, rfl⟩⟩
    exact ⟨_, hexec⟩

end Run

end SpanTree
