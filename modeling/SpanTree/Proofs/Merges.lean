/-
SpanTree.Proofs.Merges — what a merge does to the spans.

`Cursor.mergeInto` changes weights on the way from a node to its
neighbour and then unlinks the node. On the spans this is one step: the
span of the node goes away and the neighbour's takes over its length
(`Span.absorb`). The lemmas follow the two ways a neighbour can lie: at
the end of a subtree (`Tree.absorbAtEnd`), or above, where the way up
turns (`Path.absorb`). In between is a node without characters, so that
the tree on which `Cursor.unlink` works is not weighed as a whole;
`Cursor.Emptied` says what it is instead.

`mergeInto_right` and `mergeInto_left` put the parts together, and
`remove_ok` says which of them a removal is.
-/
import SpanTree.Tree.Edit
import SpanTree.Proofs.Neighbours

namespace SpanTree

/-- The span after it took over a length that moved to a side from where
a position says. -/
def Span.absorb (s : Side) (amount start : Size) (x : Span) : Span :=
  { x with length := x.length + amount, position := s.pick (start - x.length) start }

@[simp] theorem Span.absorb_id (s : Side) (amount start : Size) (x : Span) :
    (x.absorb s amount start).id = x.id := rfl

/-! ## Spans under a change of weights -/

namespace Node

variable (n : Node) {l l' r r' : Tree} (amount : Size)

/-- What is added to a node and to its left subtree leaves its span. -/
theorem span_grown_left (h : l'.total = l.total + amount) :
    (n.withTotal (n.data.total + amount)).span l' r = n.span l r := by
  have own : n.data.total + amount - (l.total + amount) - r.total =
      n.data.total - l.total - r.total := by grind
  simp only [span, length, withTotal, h, own]

theorem span_grown_right (h : r'.total = r.total + amount) :
    (n.withTotal (n.data.total + amount)).span l r' = n.span l r := by
  have own : n.data.total + amount - l.total - (r.total + amount) =
      n.data.total - l.total - r.total := by grind
  simp only [span, length, withTotal, h, own]

/-- What is taken from a node and from its left subtree leaves its span. -/
theorem span_shrunk_left (h : l'.total = l.total - amount) :
    (n.withTotal (n.data.total - amount)).span l' r = n.span l r := by
  have own : n.data.total - amount - (l.total - amount) - r.total =
      n.data.total - l.total - r.total := by grind
  simp only [span, length, withTotal, h, own]

theorem span_shrunk_right (h : r'.total = r.total - amount) :
    (n.withTotal (n.data.total - amount)).span l r' = n.span l r := by
  have own : n.data.total - amount - l.total - (r.total - amount) =
      n.data.total - l.total - r.total := by grind
  simp only [span, length, withTotal, h, own]

/-- What is added to a node alone is added to its own length. -/
theorem length_grown :
    (n.withTotal (n.data.total + amount)).length l r = n.length l r + amount := by
  have own : n.data.total + amount - l.total - r.total =
      n.data.total - l.total - r.total + amount := by grind
  simp only [length, withTotal, own]

end Node

namespace Tree

/-! ## The end of a subtree -/

section Absorb

variable {s : Side} {amount start : Size} {t : Tree}

theorem absorbAtEnd_left (n : Node) (l r : Tree) :
    (Tree.node n l r).absorbAtEnd .left amount start =
      if l.isNil then .node ((n.withTotal (n.data.total + amount)).withPosition start) l r
      else .node (n.withTotal (n.data.total + amount)) (l.absorbAtEnd .left amount start) r := rfl

theorem absorbAtEnd_right (n : Node) (l r : Tree) :
    (Tree.node n l r).absorbAtEnd .right amount start =
      if r.isNil then
        .node ((n.withTotal (n.data.total + amount)).withPosition
          (start - ((n.withTotal (n.data.total + amount)).length l r - amount))) l r
      else .node (n.withTotal (n.data.total + amount)) l (r.absorbAtEnd .right amount start) := rfl

@[simp] theorem link?_absorbAtEnd : (t.absorbAtEnd s amount start).link? = t.link? := by
  cases t with
  | nil => rfl
  | node n l r =>
    cases s
    · rw [absorbAtEnd_left]
      split <;> rfl
    · rw [absorbAtEnd_right]
      split <;> rfl

theorem total_absorbAtEnd (ht : t.isNil = false) :
    (t.absorbAtEnd s amount start).total = t.total + amount := by
  cases t with
  | nil => simp [isNil] at ht
  | node n l r =>
    cases s
    · rw [absorbAtEnd_left]
      split <;> rfl
    · rw [absorbAtEnd_right]
      split <;> rfl

theorem linked_absorbAtEnd (h : t.Linked) : (t.absorbAtEnd s amount start).Linked := by
  induction t with
  | nil => trivial
  | node n l r ihl ihr =>
    obtain ⟨hl, hr, hll, hlr⟩ := h
    cases s
    · rw [absorbAtEnd_left]
      split
      · exact ⟨hl, hr, hll, hlr⟩
      · exact ⟨(linkedTo_congr link?_absorbAtEnd _).trans hl, hr, ihl hll, hlr⟩
    · rw [absorbAtEnd_right]
      split
      · exact ⟨hl, hr, hll, hlr⟩
      · exact ⟨hl, (linkedTo_congr link?_absorbAtEnd _).trans hr, hll, ihr hlr⟩

/-- A weight that fits is taken over without wrapping. -/
theorem weighed_absorbAtEnd (h : t.Weighed) (hb : t.total.toNat + amount.toNat < 2 ^ 64) :
    (t.absorbAtEnd s amount start).Weighed := by
  induction t with
  | nil => trivial
  | node n l r ihl ihr =>
    obtain ⟨hn, hl, hr⟩ := h
    rw [total_node] at hb
    have hsum : (n.data.total + amount).toNat = n.data.total.toNat + amount.toNat :=
      Size.toNat_add_of_lt hb
    cases s
    · rw [absorbAtEnd_left]
      split
      · exact ⟨by simp only [Node.withPosition_total, Node.withTotal_total, hsum]; omega, hl, hr⟩
      · next hne =>
        refine ⟨?_, ihl hl (by omega), hr⟩
        rw [total_absorbAtEnd (by simpa using hne), Size.toNat_add_of_lt (by omega),
          Node.withTotal_total, hsum]
        omega
    · rw [absorbAtEnd_right]
      split
      · exact ⟨by simp only [Node.withPosition_total, Node.withTotal_total, hsum]; omega, hl, hr⟩
      · next hne =>
        refine ⟨?_, hl, ihr hr (by omega)⟩
        rw [total_absorbAtEnd (by simpa using hne), Size.toNat_add_of_lt (by omega),
          Node.withTotal_total, hsum]
        omega

/-- The leftmost span takes over a length that was on its left. -/
theorem spans_absorbAtEnd_left {x : Span} {rest : List Span} (h : t.spans = x :: rest) :
    (t.absorbAtEnd .left amount start).spans = x.absorb .right amount start :: rest := by
  induction t generalizing rest with
  | nil => simp at h
  | node n l r ihl _ =>
    rw [absorbAtEnd_left]
    cases l with
    | nil =>
      simp only [spans_node, spans_nil, List.nil_append, List.cons.injEq] at h
      obtain ⟨rfl, rfl⟩ := h
      have hown := n.length_grown amount (l := .nil) (r := r)
      simp only [isNil, if_true, spans_node, spans_nil, List.nil_append, List.cons.injEq, and_true]
      exact congrArg (Span.mk n.id · start n.data.flags n.data.plist) hown
    | node m ll lr =>
      obtain ⟨y, ys, hy⟩ : ∃ y ys, (Tree.node m ll lr).spans = y :: ys :=
        List.exists_cons_of_ne_nil (by simp)
      rw [spans_node, hy, List.cons_append, List.cons.injEq] at h
      obtain ⟨rfl, rfl⟩ := h
      have htotal : ((Tree.node m ll lr).absorbAtEnd .left amount start).total =
          (Tree.node m ll lr).total + amount := total_absorbAtEnd rfl
      rw [if_neg (by simp [isNil]), spans_node, ihl hy, n.span_grown_left amount htotal,
        List.cons_append]

/-- The rightmost span takes over a length that was on its right. -/
theorem spans_absorbAtEnd_right {x : Span} {init : List Span} (h : t.spans = init ++ [x]) :
    (t.absorbAtEnd .right amount start).spans = init ++ [x.absorb .left amount start] := by
  induction t generalizing init with
  | nil => simp at h
  | node n l r _ ihr =>
    rw [absorbAtEnd_right]
    cases r with
    | nil =>
      obtain ⟨rfl, hx⟩ := List.append_inj' h rfl
      obtain rfl := List.singleton_inj.mp hx
      have hown := n.length_grown amount (l := l) (r := .nil)
      have hback : (n.withTotal (n.data.total + amount)).length l .nil - amount =
          n.length l .nil := by rw [hown]; grind
      simp only [isNil, if_true, spans_node, spans_nil, hback]
      exact congrArg (fun length => l.spans ++
        [⟨n.id, length, start - n.length l .nil, n.data.flags, n.data.plist⟩]) hown
    | node m rl rr =>
      obtain ⟨ys, y, hy⟩ : ∃ ys y, (Tree.node m rl rr).spans = ys ++ [y] :=
        ⟨_, _, (List.dropLast_concat_getLast (by simp)).symm⟩
      rw [spans_node, hy, ← List.cons_append, ← List.append_assoc] at h
      obtain ⟨rfl, hx⟩ := List.append_inj' h rfl
      obtain rfl := List.singleton_inj.mp hx
      have htotal : ((Tree.node m rl rr).absorbAtEnd .right amount start).total =
          (Tree.node m rl rr).total + amount := total_absorbAtEnd rfl
      rw [if_neg (by simp [isNil]), spans_node, ihr hy, n.span_grown_right amount htotal]
      simp

end Absorb

/-! ## The merge of two children -/

section Graft

variable {t u : Tree}

theorem graft_nil (amount : Size) (t : Tree) : graft amount t .nil = t := rfl

theorem graft_node (amount : Size) (t : Tree) (n : Node) (l r : Tree) :
    graft amount t (.node n l r) =
      if l.isNil then .node (n.withTotal (n.data.total + amount)) (t.setLink (.node n.id)) r
      else .node (n.withTotal (n.data.total + amount)) (graft amount t l) r := rfl

theorem link?_graft (hu : u.isNil = false) (amount : Size) :
    (graft amount t u).link? = u.link? := by
  cases u with
  | nil => simp [isNil] at hu
  | node n l r =>
    rw [graft_node]
    split <;> rfl

theorem total_graft : (graft t.total t u).total = u.total + t.total := by
  cases u with
  | nil => simp [graft_nil]
  | node n l r =>
    rw [graft_node]
    split <;> rfl

theorem linked_graft (ht : t.Linked) (hu : u.Linked) (amount : Size) :
    (graft amount t u).Linked := by
  induction u with
  | nil => exact ht
  | node n l r ihl _ =>
    obtain ⟨hl, hr, hll, hlr⟩ := hu
    rw [graft_node]
    split
    · exact ⟨by simp, hr, by simpa using ht, hlr⟩
    · next hne =>
      have hlink := link?_graft (t := t) (by simpa using hne) amount
      exact ⟨(linkedTo_congr hlink _).trans hl, hr, ihl hll, hlr⟩

theorem weighed_graft (ht : t.Weighed) (hu : u.Weighed)
    (hb : u.total.toNat + t.total.toNat < 2 ^ 64) : (graft t.total t u).Weighed := by
  induction u with
  | nil => exact ht
  | node n l r ihl _ =>
    obtain ⟨hn, hl, hr⟩ := hu
    rw [total_node] at hb
    have hsum : (n.data.total + t.total).toNat = n.data.total.toNat + t.total.toNat :=
      Size.toNat_add_of_lt hb
    rw [graft_node]
    split
    · refine ⟨?_, by simpa using ht, hr⟩
      rw [total_setLink, Node.withTotal_total, hsum]
      omega
    · refine ⟨?_, ihl hl (by omega), hr⟩
      rw [total_graft, Size.toNat_add_of_lt (by omega), Node.withTotal_total, hsum]
      omega

theorem spans_graft : (graft t.total t u).spans = t.spans ++ u.spans := by
  induction u with
  | nil => simp [graft_nil]
  | node n l r ihl _ =>
    rw [graft_node]
    cases l with
    | nil =>
      rw [isNil, if_pos rfl, spans_node,
        n.span_grown_left t.total (l := .nil) (by simp)]
      simp
    | node m ll lr =>
      rw [if_neg (by simp [isNil]), spans_node, ihl, n.span_grown_left t.total total_graft,
        spans_node n, List.append_assoc]

end Graft

/-- The merge of two children has the spans of both. -/
theorem spans_mergeChildren (l r : Tree) :
    (mergeChildren l r).spans = l.spans ++ r.spans := by
  unfold mergeChildren
  split
  · next hl => cases l <;> simp_all [isNil]
  · split
    · next hr => cases r <;> simp_all [isNil]
    · have h := spans_graft (t := l.setLink .unset) (u := r)
      simpa using h

theorem total_mergeChildren (l r : Tree) : (mergeChildren l r).total = l.total + r.total := by
  unfold mergeChildren
  split
  · next hl => cases l <;> simp_all [isNil]
  · split
    · next hr => cases r <;> simp_all [isNil]
    · have h := total_graft (t := l.setLink .unset) (u := r)
      rw [total_setLink] at h
      rw [total_setLink, h, UInt64.add_comm]

theorem weighed_mergeChildren {l r : Tree} (hl : l.Weighed) (hr : r.Weighed)
    (hb : l.total.toNat + r.total.toNat < 2 ^ 64) : (mergeChildren l r).Weighed := by
  unfold mergeChildren
  split
  · simpa using hr
  · split
    · simpa using hl
    · have h := weighed_graft (t := l.setLink .unset) (by simpa using hl) hr
        (by rw [total_setLink]; omega)
      simpa using h

theorem linked_mergeChildren {l r : Tree} (hl : l.Linked) (hr : r.Linked) :
    (mergeChildren l r).Linked := by
  unfold mergeChildren
  split
  · simpa using hr
  · split
    · simpa using hl
    · simpa using linked_graft (t := l.setLink .unset) (by simpa using hl) hr l.total

end Tree

/-! ## The way up -/

namespace Path

variable {amount : Size} {p : Path} {t t' : Tree}

/-- The first span after the subtree takes over a length that was in the subtree. -/
theorem absorb_right (start : Size) {y : Span} {post : List Span} (h : after p t = y :: post)
    (ht : t'.total = t.total - amount) :
    after (absorb .right amount start t'.total p) t' = y.absorb .right amount start :: post ∧
      before (absorb .right amount start t'.total p) t' = before p t := by
  induction p generalizing t t' with
  | nil => simp [after] at h
  | cons b rest ih =>
    obtain ⟨side, holder, sibling⟩ := b
    cases side with
    | left =>
      simp only [after, Crumb.after, List.cons_append, List.cons.injEq] at h
      obtain ⟨rfl, rfl⟩ := h
      have hown : holder.data.total - t'.total - sibling.total =
          holder.data.total - t.total - sibling.total + amount := by rw [ht]; grind
      have htop : (Crumb.attach ⟨.left, holder.withPosition start, sibling⟩ t').total =
          (Crumb.attach ⟨.left, holder, sibling⟩ t).total := by simp
      simp only [absorb, Side.other, if_true, after, before, after_congr rest htop,
        before_congr rest htop, Crumb.after, Crumb.before, List.cons_append, and_true,
        List.cons.injEq]
      exact congrArg (Span.mk holder.id · start holder.data.flags holder.data.plist) hown
    | right =>
      simp only [after, Crumb.after, List.nil_append] at h
      have htop : (Crumb.attach ⟨.right, holder.withTotal (holder.data.total - amount), sibling⟩
          t').total = (Crumb.attach ⟨.right, holder, sibling⟩ t).total - amount := by simp
      obtain ⟨hafter, hbefore⟩ := ih h htop
      simp only [Crumb.total_attach, Node.withTotal_total] at hafter hbefore
      simp only [absorb, Side.other, reduceCtorEq, if_false, after, before, hafter, hbefore,
        Crumb.after, Crumb.before, List.nil_append, holder.span_shrunk_right amount ht, and_self]

/-- The last span before the subtree takes over a length that was in the subtree. -/
theorem absorb_left (start : Size) {y : Span} {pre : List Span} (h : before p t = pre ++ [y])
    (ht : t'.total = t.total - amount) :
    before (absorb .left amount start t'.total p) t' = pre ++ [y.absorb .left amount start] ∧
      after (absorb .left amount start t'.total p) t' = after p t := by
  induction p generalizing t t' with
  | nil => simp [before] at h
  | cons b rest ih =>
    obtain ⟨side, holder, sibling⟩ := b
    cases side with
    | right =>
      simp only [before, Crumb.before, ← List.append_assoc] at h
      obtain ⟨rfl, hy⟩ := List.append_inj' h rfl
      obtain rfl := List.singleton_inj.mp hy
      have hown : holder.data.total - sibling.total - t'.total =
          holder.data.total - sibling.total - t.total + amount := by rw [ht]; grind
      have hheld : start - (holder.data.total - t'.total - sibling.total - amount) =
          start - (holder.data.total - sibling.total - t.total) := by rw [ht]; grind
      have htop (position : Size) :
          (Crumb.attach ⟨.right, holder.withPosition position, sibling⟩ t').total =
            (Crumb.attach ⟨.right, holder, sibling⟩ t).total := by simp
      simp only [absorb, Side.other, if_true, after, before, after_congr rest (htop _),
        before_congr rest (htop _), Crumb.after, Crumb.before, ← List.append_assoc, and_true,
        hheld]
      exact congrArg (fun length => before rest (Crumb.attach ⟨.right, holder, sibling⟩ t) ++
        sibling.spans ++ [⟨holder.id, length, start - (holder.data.total - sibling.total - t.total),
          holder.data.flags, holder.data.plist⟩]) hown
    | left =>
      simp only [before, Crumb.before, List.append_nil] at h
      have htop : (Crumb.attach ⟨.left, holder.withTotal (holder.data.total - amount), sibling⟩
          t').total = (Crumb.attach ⟨.left, holder, sibling⟩ t).total - amount := by simp
      obtain ⟨hbefore, hafter⟩ := ih h htop
      simp only [Crumb.total_attach, Node.withTotal_total] at hafter hbefore
      simp only [absorb, Side.other, reduceCtorEq, if_false, after, before, hafter, hbefore,
        Crumb.after, Crumb.before, List.append_nil, holder.span_shrunk_left amount ht, and_self]

/-- A subtree that lost a length leaves no node above it without characters. -/
theorem weighed_absorb {s : Side} {w w' : Size} (h : Weighed p w)
    (hw : w'.toNat + amount.toNat = w.toNat) : Weighed (absorb s amount start w' p) w' := by
  induction p generalizing w w' with
  | nil => trivial
  | cons b rest ih =>
    obtain ⟨hb, hs, hr⟩ := h
    simp only [absorb]
    split
    · exact ⟨by dsimp only [Node.withPosition_total]; omega, hs, hr⟩
    · have hless :
          (b.holder.data.total - amount).toNat = b.holder.data.total.toNat - amount.toNat :=
        Size.toNat_sub_of_le (by omega)
      exact ⟨by dsimp only [Node.withTotal_total]; omega, hs, ih hr (by omega)⟩

/-- The links do not change on the way up. -/
theorem linked_absorb {s : Side} {w : Size} (h : Linked p t) (hl : t'.link? = t.link?) :
    Linked (absorb s amount start w p) t' := by
  induction p generalizing t t' w with
  | nil => trivial
  | cons b rest ih =>
    obtain ⟨ht, hs, hls, hr⟩ := h
    have ht' := (Tree.linkedTo_congr hl b.holder.id).trans ht
    simp only [absorb]
    split
    · exact ⟨ht', hs, hls, linked_congr (by simp) hr⟩
    · exact ⟨ht', hs, hls, ih hr (by simp)⟩

theorem link?_absorb {s : Side} {w : Size} (hl : t'.link? = t.link?) :
    (plug (absorb s amount start w p) t').link? = (plug p t).link? := by
  induction p generalizing t t' w with
  | nil => exact hl
  | cons b rest ih =>
    simp only [absorb]
    split
    · exact link?_plug_congr rest (by simp)
    · exact ih (by simp)

end Path

/-! ## Unlinking -/

/-- The second tree takes the place of the first with other spans: it is
linked and weighed, and its top, if there is one, keeps the link. -/
structure Tree.Respanned (t : Tree) (spans : List Span) (u : Tree) : Prop where
  spans : u.spans = spans
  weighed : u.Weighed
  linked : u.Linked
  link : ∀ link ∈ u.link?, t.link? = some link

theorem Tree.Respanned.link?_eq {t u : Tree} {spans : List Span} (h : t.Respanned spans u)
    (hne : spans ≠ []) : u.link? = t.link? := by
  cases u with
  | nil => exact absurd h.spans.symm hne
  | node n l r => exact (h.link n.link rfl).symm

/-- What keeps the weight of a node changes its span and no other. -/
theorem Cursor.spans_mapData {c : Cursor} {e : Payload → Payload}
    (he : (e c.node.data).total = c.node.data.total) :
    (c.mapData e).toTree.spans = c.before ++ (c.mapData e).span :: c.after := by
  have htotal : (c.mapData e).subtree.total = c.subtree.total := he
  have hbefore : (c.mapData e).before = c.before :=
    congrArg (· ++ c.left.spans) (Path.before_congr c.path htotal)
  have hafter : (c.mapData e).after = c.after :=
    congrArg (c.right.spans ++ ·) (Path.after_congr c.path htotal)
  rw [spans_toTree, hbefore, hafter]

/-- Its tree keeps its weight and its links. -/
theorem Cursor.respanned_mapData {c : Cursor} (hw : c.toTree.Weighed) (hl : c.toTree.Linked)
    {e : Payload → Payload} (he : (e c.node.data).total = c.node.data.total) :
    c.toTree.Respanned (c.before ++ (c.mapData e).span :: c.after) (c.mapData e).toTree := by
  have htotal : (c.mapData e).subtree.total = c.subtree.total := he
  have hlink : (c.mapData e).subtree.link? = c.subtree.link? := rfl
  have hsub := Path.weighed_plug.mp hw
  have hsubl : c.subtree.Linked := linked_subtree hl
  refine ⟨Cursor.spans_mapData he, ?_, ?_, fun link hmem => ?_⟩
  · refine Path.weighed_plug.mpr ⟨⟨?_, hsub.1.2⟩, htotal ▸ hsub.2⟩
    exact he ▸ hsub.1.1
  · exact Path.linked_plug.mpr ⟨hsubl, Path.linked_congr hlink (linked_path hl)⟩
  · have := Path.link?_plug_congr c.path hlink
    exact this ▸ hmem

/-- The top of the tree is linked to the text that has the tree as its own. -/
def Tree.Homed (home : Option TextId) (t : Tree) : Prop :=
  ∀ link ∈ t.link?, ∃ text, link = .owner text ∧ home = some text

namespace Cursor

/-- The cursor looks at a node that has given its characters away, in a
tree that is otherwise linked and weighed. -/
structure Emptied (c : Cursor) : Prop where
  left : c.left.Weighed
  right : c.right.Weighed
  total : c.node.data.total = c.left.total + c.right.total
  fits : c.left.total.toNat + c.right.total.toNat < 2 ^ 64
  path : Path.Weighed c.path c.node.data.total
  linked : c.toTree.Linked

/-- A node without characters leaves the spans before it and after it. Only
at the top the tree has to be the text's own. -/
theorem Emptied.unlink {c : Cursor} (h : c.Emptied) {home : Option TextId}
    (hhome : c.path = [] → c.toTree.Homed home) :
    ∃ u, c.unlink home = (u, .ok ()) ∧ c.toTree.Respanned (c.before ++ c.after) u := by
  obtain ⟨hl, hr, htotal, hfits, hpath, hlinked⟩ := h
  have hzero : c.length = 0 := by
    rw [length, Node.length, htotal]
    grind
  have hsub := linked_subtree hlinked
  have hm := Tree.weighed_mergeChildren hl hr hfits
  have hmt : (Tree.mergeChildren c.left c.right).total = c.node.data.total := by
    rw [Tree.total_mergeChildren, htotal]
  have hml := Tree.linked_mergeChildren hsub.2.2.1 hsub.2.2.2
  have hms := Tree.spans_mergeChildren c.left c.right
  obtain ⟨node, left, right, path⟩ := c
  dsimp only at hm hmt hml hms hpath
  cases path with
  | nil =>
    obtain ⟨text, hlink, rfl⟩ := hhome rfl node.link rfl
    refine ⟨(Tree.mergeChildren left right).setLink (.owner text), ?_, ?_, ?_, ?_, ?_⟩
    · simp [Cursor.unlink, hzero, hlink]
    · simp [hms, before, after, Path.before, Path.after]
    · simpa using hm
    · simpa using hml
    · intro link hmem
      rw [toTree_mk, Path.plug_nil, Tree.link?_node, hlink]
      cases hmc : Tree.mergeChildren left right with
      | nil => simp [hmc, Tree.setLink] at hmem
      | node => simpa [hmc, Tree.setLink, eq_comm] using hmem
  | cons b rest =>
    have hlp := linked_path hlinked
    have hlink : node.link = .node b.holder.id := link_of_path hlinked rfl
    refine ⟨Path.plug (b :: rest)
      ((Tree.mergeChildren left right).setLink (.node b.holder.id)), ?_, ?_, ?_, ?_, ?_⟩
    · simp [Cursor.unlink, hzero, hlink]
    · have hsame : ((Tree.mergeChildren left right).setLink (.node b.holder.id)).total =
          (Tree.node node left right).total := by simpa using hmt
      rw [Path.spans_plug, Path.before_congr _ hsame, Path.after_congr _ hsame]
      simp [hms, before, after, subtree]
    · rw [Path.weighed_plug, Tree.total_setLink, hmt]
      exact ⟨by simpa using hm, hpath⟩
    · rw [Path.linked_plug]
      exact ⟨by simpa using hml, by simp, hlp.2.1, hlp.2.2.1,
        Path.linked_congr (by simp) hlp.2.2.2⟩
    · intro link hmem
      rw [← Option.mem_def]
      rwa [toTree_mk, Path.plug_cons, Path.link?_plug_congr rest
        (u := b.attach (.node node left right))
        (t := b.attach ((Tree.mergeChildren left right).setLink (.node b.holder.id))) (by simp)]

/-! ## Merges -/

section Merge

variable {c : Cursor} {s : Side}

theorem length_eq_sub (c : Cursor) :
    c.length = c.node.data.total - c.left.total - c.right.total := rfl

/-- The node after its characters went to the end of a subtree. -/
theorem emptied_below (hw : c.toTree.Weighed) (hl : c.toTree.Linked)
    (hs : (c.child s).isNil = false) :
    Emptied (c.withChild s ((c.child s).absorbAtEnd s.other c.length c.position)) := by
  obtain ⟨hsub, hpath⟩ := Path.weighed_plug.mp hw
  obtain ⟨hn, hwl, hwr⟩ := hsub
  have hown : c.length.toNat = _ := Node.toNat_length hn
  have hleft : c.node.data.total = c.left.total + c.length + c.right.total := by
    rw [length_eq_sub]
    grind
  have hright : c.node.data.total = c.left.total + (c.right.total + c.length) := by
    rw [length_eq_sub]
    grind
  obtain ⟨htl, htr, hll, hlr⟩ := linked_subtree hl
  have hbound := c.node.data.total.toNat_lt
  have hlpath := linked_path hl
  cases s with
  | left =>
    have htotal : ((c.child .left).absorbAtEnd .right c.length c.position).total =
        (c.child .left).total + c.length := Tree.total_absorbAtEnd hs
    have hsum : ((c.child .left).absorbAtEnd .right c.length c.position).total.toNat =
        c.left.total.toNat + c.length.toNat := by
      rw [htotal]
      exact Size.toNat_add_of_lt (by dsimp only [child, Side.pick_left]; omega)
    refine ⟨Tree.weighed_absorbAtEnd hwl (by dsimp only [child, Side.pick_left]; omega), hwr,
      hleft.trans (congrArg (· + c.right.total) htotal.symm), ?_, hpath, ?_⟩
    · change ((c.child .left).absorbAtEnd .right c.length c.position).total.toNat +
        c.right.total.toNat < _
      omega
    · exact Path.linked_plug.mpr ⟨⟨(Tree.linkedTo_congr Tree.link?_absorbAtEnd _).trans htl, htr,
        Tree.linked_absorbAtEnd hll, hlr⟩, Path.linked_congr (t := c.subtree) rfl hlpath⟩
  | right =>
    have htotal : ((c.child .right).absorbAtEnd .left c.length c.position).total =
        (c.child .right).total + c.length := Tree.total_absorbAtEnd hs
    have hsum : ((c.child .right).absorbAtEnd .left c.length c.position).total.toNat =
        c.right.total.toNat + c.length.toNat := by
      rw [htotal]
      exact Size.toNat_add_of_lt (by dsimp only [child, Side.pick_right]; omega)
    refine ⟨hwl, Tree.weighed_absorbAtEnd hwr (by dsimp only [child, Side.pick_right]; omega),
      hright.trans (congrArg (c.left.total + ·) htotal.symm), ?_, hpath, ?_⟩
    · change c.left.total.toNat +
        ((c.child .right).absorbAtEnd .left c.length c.position).total.toNat < _
      omega
    · exact Path.linked_plug.mpr ⟨⟨htl, (Tree.linkedTo_congr Tree.link?_absorbAtEnd _).trans htr,
        hll, Tree.linked_absorbAtEnd hlr⟩, Path.linked_congr (t := c.subtree) rfl hlpath⟩

/-- The node after its characters went to the node where the way up turns. -/
theorem emptied_above (hw : c.toTree.Weighed) (hl : c.toTree.Linked) (start : Size) :
    Emptied
      { c with
        node := c.node.withTotal (c.node.data.total - c.length)
        path := Path.absorb s c.length start (c.node.data.total - c.length) c.path } := by
  obtain ⟨hsub, hpath⟩ := Path.weighed_plug.mp hw
  obtain ⟨hn, hwl, hwr⟩ := hsub
  have hown : c.length.toNat = _ := Node.toNat_length hn
  have hlen := c.length_eq_sub
  have hless : (c.node.data.total - c.length).toNat = c.node.data.total.toNat - c.length.toNat :=
    Size.toNat_sub_of_le (by omega)
  have hpath' : Path.Weighed c.path c.node.data.total := hpath
  have hsl : c.subtree.Linked := linked_subtree hl
  refine ⟨hwl, hwr, ?_, ?_, Path.weighed_absorb hpath' (by omega), Path.linked_plug.mpr
    ⟨hsl, Path.linked_absorb (t := c.subtree) (linked_path hl) rfl⟩⟩
  · dsimp only [Node.withTotal_total]
    rw [hlen]
    grind
  · have := c.node.data.total.toNat_lt
    dsimp only
    omega

/-- The node, in its tree, after it gave its characters to the neighbour
on a side. -/
def emptied (s : Side) (c : Cursor) : Cursor :=
  if (c.child s).isNil then
    { c with
      node := c.node.withTotal (c.node.data.total - c.length)
      path := Path.absorb s c.length c.position (c.node.data.total - c.length) c.path }
  else c.withChild s ((c.child s).absorbAtEnd s.other c.length c.position)

theorem emptied_ok (s : Side) (hw : c.toTree.Weighed) (hl : c.toTree.Linked) :
    (c.emptied s).Emptied := by
  unfold emptied
  split
  · exact emptied_above hw hl c.position
  · next hne => exact emptied_below hw hl (by simpa using hne)

@[simp] theorem link?_emptied (s : Side) (c : Cursor) :
    (c.emptied s).toTree.link? = c.toTree.link? := by
  unfold emptied
  split
  · exact Path.link?_absorb rfl
  · cases s <;> exact Path.link?_plug_congr c.path rfl

theorem path_emptied (s : Side) (c : Cursor) : (c.emptied s).path = [] ↔ c.path = [] := by
  unfold emptied
  split
  · cases hpath : c.path with
    | nil => simp [Path.absorb]
    | cons b rest =>
      simp only [Path.absorb]
      split <;> simp
  · cases s <;> exact Iff.rfl

/-- The top keeps its link while its characters are given away. -/
theorem homed_emptied (s : Side) {home : Option TextId}
    (hhome : c.path = [] → c.toTree.Homed home) (hpath : (c.emptied s).path = []) :
    (c.emptied s).toTree.Homed home := by
  simpa only [Tree.Homed, link?_emptied] using hhome ((path_emptied s c).mp hpath)

/-- The neighbour on a side is the one to which a merge hands the span. -/
theorem mergeInto_eq (s : Side) (c : Cursor) (home : Option TextId) :
    c.mergeInto s home =
      match c.adjacent? s with
      | none => (c.toTree, .error (.violation (.noNeighbour s)))
      | some e =>
        (((c.emptied s).unlink home).1, ((c.emptied s).unlink home).2.map fun _ => e.node.id) := by
  cases hd : c.down? s with
  | none =>
    have hnil := down?_eq_none.mp hd
    cases ht : c.turn? s.other <;> simp [mergeInto, adjacent?, emptied, hd, ht, hnil, Tree.isNil]
  | some d =>
    have hne : (c.child s).isNil = false := by
      rw [← (down?_eq_some hd).1]
      rfl
    simp [mergeInto, adjacent?, emptied, hd, hne]

theorem spans_emptied_right {y : Span} {post : List Span} (h : c.after = y :: post) :
    (c.emptied .right).before = c.before ∧
      (c.emptied .right).after = y.absorb .right c.length c.position :: post := by
  have htotal : (Tree.node (c.node.withTotal (c.node.data.total - c.length)) c.left c.right).total =
      c.subtree.total - c.length := rfl
  unfold emptied
  split
  · next hnil =>
    have hr : c.right = .nil := by
      cases hc : c.right <;> simp_all [child, Tree.isNil]
    rw [after, hr, Tree.spans_nil, List.nil_append] at h
    obtain ⟨hafter, hbefore⟩ := Path.absorb_right c.position h htotal
    exact ⟨congrArg (· ++ c.left.spans) hbefore, (congrArg (·.spans ++ _) hr).trans hafter⟩
  · next hne =>
    obtain ⟨x, rest, hx⟩ : ∃ x rest, c.right.spans = x :: rest :=
      List.exists_cons_of_ne_nil fun hc =>
        hne (by simp [child, Tree.spans_eq_nil.mp hc, Tree.isNil])
    rw [after, hx, List.cons_append, List.cons.injEq] at h
    obtain ⟨rfl, rfl⟩ := h
    have hspans : (c.right.absorbAtEnd .left c.length c.position).spans =
        x.absorb .right c.length c.position :: rest := Tree.spans_absorbAtEnd_left hx
    have hpath : Path.after c.path (.node c.node c.left (c.right.absorbAtEnd .left c.length
        c.position)) = Path.after c.path c.subtree := Path.after_congr c.path rfl
    refine ⟨congrArg (· ++ c.left.spans) (Path.before_congr c.path rfl), ?_⟩
    exact congr (congrArg (· ++ ·) hspans) hpath

theorem spans_emptied_left {y : Span} {pre : List Span} (h : c.before = pre ++ [y]) :
    (c.emptied .left).before = pre ++ [y.absorb .left c.length c.position] ∧
      (c.emptied .left).after = c.after := by
  have htotal : (Tree.node (c.node.withTotal (c.node.data.total - c.length)) c.left c.right).total =
      c.subtree.total - c.length := rfl
  unfold emptied
  split
  · next hnil =>
    have hl : c.left = .nil := by
      cases hc : c.left <;> simp_all [child, Tree.isNil]
    rw [before, hl, Tree.spans_nil, List.append_nil] at h
    obtain ⟨hbefore, hafter⟩ := Path.absorb_left c.position h htotal
    refine ⟨?_, congrArg (c.right.spans ++ ·) hafter⟩
    rw [before, hl, Tree.spans_nil, List.append_nil]
    exact hl ▸ hbefore
  · next hne =>
    obtain ⟨init, x, hx⟩ : ∃ init x, c.left.spans = init ++ [x] :=
      ⟨_, _, (List.dropLast_concat_getLast fun hc =>
        hne (by simp [child, Tree.spans_eq_nil.mp hc, Tree.isNil])).symm⟩
    rw [before, hx, ← List.append_assoc] at h
    obtain ⟨rfl, hy⟩ := List.append_inj' h rfl
    obtain rfl := List.singleton_inj.mp hy
    have hspans : (c.left.absorbAtEnd .right c.length c.position).spans =
        init ++ [x.absorb .left c.length c.position] := Tree.spans_absorbAtEnd_right hx
    refine ⟨?_, congrArg (c.right.spans ++ ·) (Path.after_congr c.path rfl)⟩
    rw [List.append_assoc, ← hspans]
    exact congrArg (· ++ _) (Path.before_congr c.path rfl)

variable {home : Option TextId}

/-- **A merge to the right**: the next span takes over the length, and
starts where the merged one started. The last node has no next one. -/
theorem mergeInto_right (hw : c.toTree.Weighed) (hl : c.toTree.Linked)
    (hhome : c.path = [] → c.toTree.Homed home) :
    (c.after = [] ∧
        c.mergeInto .right home = (c.toTree, .error (.violation (.noNeighbour .right)))) ∨
      ∃ y post u, c.after = y :: post ∧ c.mergeInto .right home = (u, .ok y.id) ∧
        c.toTree.Respanned (c.before ++ y.absorb .right c.length c.position :: post) u := by
  rw [mergeInto_eq]
  rcases adjacent?_right hl with ⟨hempty, hnone⟩ | ⟨e, he, hnext⟩
  · exact .inl ⟨hempty, by rw [hnone]⟩
  · have hafter := hnext.after
    obtain ⟨hb, ha⟩ := spans_emptied_right hafter
    obtain ⟨u, hu, hr⟩ := (emptied_ok .right hw hl).unlink (homed_emptied .right hhome)
    rw [hb, ha] at hr
    refine .inr ⟨e.span, e.after, u, hafter, by rw [he, hu]; rfl, hr.spans, hr.weighed,
      hr.linked, ?_⟩
    simpa only [link?_emptied] using hr.link

/-- **A merge to the left**: the span before takes over the length. The
first node has no one before it. -/
theorem mergeInto_left (hw : c.toTree.Weighed) (hl : c.toTree.Linked)
    (hhome : c.path = [] → c.toTree.Homed home) :
    (c.before = [] ∧
        c.mergeInto .left home = (c.toTree, .error (.violation (.noNeighbour .left)))) ∨
      ∃ pre y u, c.before = pre ++ [y] ∧ c.mergeInto .left home = (u, .ok y.id) ∧
        c.toTree.Respanned (pre ++ y.absorb .left c.length c.position :: c.after) u := by
  rw [mergeInto_eq]
  rcases adjacent?_left hl with ⟨hempty, hnone⟩ | ⟨e, he, hnext⟩
  · exact .inl ⟨hempty, by rw [hnone]⟩
  · obtain ⟨hb, ha⟩ := spans_emptied_left hnext.before
    obtain ⟨u, hu, hr⟩ := (emptied_ok .left hw hl).unlink (homed_emptied .left hhome)
    rw [hb, ha, List.append_assoc] at hr
    refine .inr ⟨e.before, e.span, u, hnext.before, by rw [he, hu]; rfl, hr.spans, hr.weighed,
      hr.linked, ?_⟩
    simpa only [link?_emptied] using hr.link

/-! ## Removal -/

theorem isSome_adjacent? (s : Side) (c : Cursor) :
    (c.adjacent? s).isSome = (!(c.child s).isNil || (c.turn? s.other).isSome) := by
  cases hd : c.down? s with
  | none => simp [adjacent?, hd, down?_eq_none.mp hd, Tree.isNil]
  | some d =>
    have hne : (c.child s).isNil = false := by
      rw [← (down?_eq_some hd).1]
      rfl
    simp [adjacent?, hd, hne]

/-- A node is linked to something, unless it is the top of a tree that is not the text's own. -/
theorem linked_somewhere (hl : c.toTree.Linked) (hhome : c.path = [] → c.toTree.Homed home) :
    c.isRoot ∨ c.hasParent := by
  obtain ⟨node, left, right, path⟩ := c
  cases path with
  | nil =>
    obtain ⟨text, hlink, -⟩ := hhome rfl node.link rfl
    exact .inl (by simp [isRoot, hlink, Link.owner?])
  | cons b rest =>
    have hlink : node.link = .node b.holder.id := link_of_path hl rfl
    exact .inr (by simp [hasParent, hlink, Link.holder?])

/-- Where nothing precedes a node and nothing follows it, it is the tree. -/
theorem alone_of_spans (hb : c.before = []) (ha : c.after = []) :
    c.left = .nil ∧ c.right = .nil ∧ c.path = [] := by
  obtain ⟨node, left, right, path⟩ := c
  simp only [before, after, List.append_eq_nil_iff, Tree.spans_eq_nil] at hb ha
  refine ⟨hb.2, ha.1, ?_⟩
  cases path with
  | nil => rfl
  | cons b rest =>
    obtain ⟨side, holder, sibling⟩ := b
    cases side with
    | left => simp [Path.after, Crumb.after] at ha
    | right => simp [Path.before, Crumb.before] at hb

theorem isSome_adjacent?_right (hl : c.toTree.Linked) :
    (c.adjacent? .right).isSome = true ↔ c.after ≠ [] := by
  rcases adjacent?_right hl with ⟨hempty, hnone⟩ | ⟨e, he, hnext⟩
  · simp [hempty, hnone]
  · simp [he, hnext.after]

theorem isSome_adjacent?_left (hl : c.toTree.Linked) :
    (c.adjacent? .left).isSome = true ↔ c.before ≠ [] := by
  rcases adjacent?_left hl with ⟨hempty, hnone⟩ | ⟨e, he, hnext⟩
  · simp [hempty, hnone]
  · simp [he, hnext.before]

/-- A removal asks for the next node, and then for the one before. -/
theorem remove_eq (hl : c.toTree.Linked) (hhome : c.path = [] → c.toTree.Homed home) :
    c.remove home =
      if (c.adjacent? .right).isSome then
        ((c.mergeInto .right home).1, (c.mergeInto .right home).2.map fun _ => ())
      else if (c.adjacent? .left).isSome then
        ((c.mergeInto .left home).1, (c.mergeInto .left home).2.map fun _ => ())
      else c.unlink home := by
  rw [remove, if_neg (not_not_intro (linked_somewhere hl hhome)), isSome_adjacent?,
    isSome_adjacent?]
  rfl

/-- A removal merges the node to the right. -/
theorem remove_of_after (hl : c.toTree.Linked) (hhome : c.path = [] → c.toTree.Homed home)
    (ha : c.after ≠ []) :
    c.remove home = ((c.mergeInto .right home).1, (c.mergeInto .right home).2.map fun _ => ()) := by
  rw [remove_eq hl hhome, if_pos ((isSome_adjacent?_right hl).mpr ha)]

/-- A removal merges the last node to the left. -/
theorem remove_of_before (hl : c.toTree.Linked) (hhome : c.path = [] → c.toTree.Homed home)
    (ha : c.after = []) (hb : c.before ≠ []) :
    c.remove home = ((c.mergeInto .left home).1, (c.mergeInto .left home).2.map fun _ => ()) := by
  rw [remove_eq hl hhome, if_neg (mt (isSome_adjacent?_right hl).mp (not_not_intro ha)),
    if_pos ((isSome_adjacent?_left hl).mpr hb)]

/-- A removal of the only node leaves no tree. -/
theorem remove_only (hl : c.toTree.Linked) (hhome : c.path = [] → c.toTree.Homed home)
    (ha : c.after = []) (hb : c.before = []) : c.remove home = (.nil, .ok ()) := by
  rw [remove_eq hl hhome, if_neg (mt (isSome_adjacent?_right hl).mp (not_not_intro ha)),
    if_neg (mt (isSome_adjacent?_left hl).mp (not_not_intro hb))]
  obtain ⟨hleft, hright, hpath⟩ := alone_of_spans hb ha
  obtain ⟨node, left, right, path⟩ := c
  dsimp only at hleft hright hpath
  subst hleft hright hpath
  obtain ⟨text, hlink, rfl⟩ := hhome rfl node.link rfl
  simp [unlink, isOnly, hasParent, hasChildren, hlink, Link.holder?, Tree.isNil,
    Tree.mergeChildren, Tree.setLink]

end Merge

end Cursor

end SpanTree
