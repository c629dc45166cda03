/-
SpanTree.Proofs.Positions — where a span is, and how it is found.

`Placed start spans` says that the caches are exact: each span starts
where the one before it ends, the first at `start`. It speaks about the
list of spans only. A search from the top goes down by an offset into the
subtree (`seekBelow_ok`); it needs no caches.
-/
import SpanTree.Proofs.Neighbours

namespace SpanTree

/-! ## Exact caches -/

/-- Each span starts where the one before it ends, the first at a given position. -/
def Placed : Nat → List Span → Prop
  | _, [] => True
  | start, s :: rest => s.position.toNat = start ∧ Placed (start + s.length.toNat) rest

@[simp] theorem placed_nil (start : Nat) : Placed start [] := trivial

theorem placed_cons {start : Nat} {s : Span} {rest : List Span} :
    Placed start (s :: rest) ↔
      s.position.toNat = start ∧ Placed (start + s.length.toNat) rest := Iff.rfl

theorem placed_append {start : Nat} {a b : List Span} :
    Placed start (a ++ b) ↔ Placed start a ∧ Placed (start + covered a) b := by
  induction a generalizing start with
  | nil => simp
  | cons s rest ih =>
    simp only [List.cons_append, placed_cons, ih, covered_cons, and_assoc, Nat.add_assoc]

/-- A span starts where those before it end. -/
theorem Placed.position {start : Nat} {pre post : List Span} {x : Span}
    (h : Placed start (pre ++ x :: post)) : x.position.toNat = start + covered pre :=
  (placed_append.mp h).2.1

/-- Exact caches are settled by the lengths: what spans say is the same if
something that tells their lengths is. -/
theorem map_eq_of_placed {α β : Type} {key : Span → α} {out : Span → β} {start : Nat}
    {a b : List Span} (ha : Placed start a) (hb : Placed start b)
    (hlength : ∀ x y, key x = key y → x.length = y.length)
    (hout : ∀ x y, key x = key y → x.position = y.position → out x = out y)
    (h : a.map key = b.map key) : a.map out = b.map out := by
  induction a generalizing start b with
  | nil =>
    obtain rfl : b = [] := by simpa using h.symm
    rfl
  | cons x rest ih =>
    obtain ⟨y, ys, rfl, hy, hys⟩ := List.map_eq_cons_iff.mp h.symm
    have hposition : x.position = y.position := UInt64.toNat_inj.mp (ha.1.trans hb.1.symm)
    rw [List.map_cons, List.map_cons, hout x y hy.symm hposition,
      ih ha.2 (hlength x y hy.symm ▸ hb.2) hys.symm]

/-! ## The span of a position -/

/-- The place of a position among spans, the first of which starts at a given position: it is in
the span between the two lists, or it is the end of all and this is the last span. -/
def Locates (start : Nat) (p : Size) (pre : List Span) (x : Span) (post : List Span) : Prop :=
  start + covered pre ≤ p.toNat ∧
    (p.toNat < start + covered pre + x.length.toNat ∨
      p.toNat = start + covered pre + x.length.toNat ∧ post = [])

/-- A position has one place only. -/
theorem locates_unique {start : Nat} {p : Size} {pre pre' post post' : List Span} {x y : Span}
    (heq : pre ++ x :: post = pre' ++ y :: post') (hx : Locates start p pre x post)
    (hy : Locates start p pre' y post') : pre = pre' ∧ x = y ∧ post = post' := by
  have hsum := congrArg covered heq
  simp only [covered_append, covered_cons] at hsum
  obtain ⟨hxlo, hxhi⟩ := hx
  obtain ⟨hylo, hyhi⟩ := hy
  rcases hxhi with hxhi | ⟨hxend, rfl⟩ <;> rcases hyhi with hyhi | ⟨hyend, rfl⟩
  · rcases List.append_eq_append_iff.mp heq with ⟨mid, rfl, hmid⟩ | ⟨mid, rfl, hmid⟩
    · cases mid with
      | nil => simpa using hmid
      | cons z zs =>
        obtain ⟨rfl, -⟩ := List.cons.inj hmid
        simp only [covered_append, covered_cons] at hylo
        omega
    · cases mid with
      | nil => simpa [eq_comm] using hmid
      | cons z zs =>
        obtain ⟨rfl, -⟩ := List.cons.inj hmid
        simp only [covered_append, covered_cons] at hxlo
        omega
  · simp only [covered_nil] at hsum
    omega
  · simp only [covered_nil] at hsum
    omega
  · obtain ⟨hpre, hxy⟩ := List.append_inj' heq rfl
    exact ⟨hpre, List.singleton_inj.mp hxy, rfl⟩

/-- A position among spans, or at their end, has a place. -/
theorem exists_locates {start : Nat} {p : Size} {spans : List Span} (hne : spans ≠ [])
    (hlo : start ≤ p.toNat) (hhi : p.toNat ≤ start + covered spans) :
    ∃ pre y post, spans = pre ++ y :: post ∧ Locates start p pre y post := by
  induction spans generalizing start with
  | nil => exact absurd rfl hne
  | cons x rest ih =>
    rw [covered_cons] at hhi
    by_cases hlt : p.toNat < start + x.length.toNat
    · exact ⟨[], x, rest, rfl, hlo, .inl hlt⟩
    · by_cases hrest : rest = []
      · subst hrest
        simp only [covered_nil] at hhi
        exact ⟨[], x, [], rfl, hlo, .inr ⟨by simp only [covered_nil]; omega, rfl⟩⟩
      · have hlo' : start + x.length.toNat ≤ p.toNat := by omega
        obtain ⟨pre, y, post, rfl, hge, hin⟩ := ih hrest hlo' (by omega)
        refine ⟨x :: pre, y, post, rfl, ?_⟩
        rw [Locates, covered_cons, ← Nat.add_assoc]
        exact ⟨hge, hin⟩

/-- Before the end the place is inside the span. -/
theorem Locates.inside {start : Nat} {p : Size} {pre post : List Span} {x : Span}
    (h : Locates start p pre x post) (hp : p.toNat < start + covered (pre ++ x :: post)) :
    start + covered pre ≤ p.toNat ∧ p.toNat < start + covered pre + x.length.toNat := by
  obtain ⟨hlo, hhi | ⟨hend, rfl⟩⟩ := h
  · exact ⟨hlo, hhi⟩
  · simp only [covered_append, covered_cons, covered_nil] at hp
    omega

/-- A position among spans is inside one of them. -/
theorem exists_inside {start : Nat} {p : Size} {spans : List Span} (hlo : start ≤ p.toNat)
    (hhi : p.toNat < start + covered spans) :
    ∃ pre y post, spans = pre ++ y :: post ∧ start + covered pre ≤ p.toNat ∧
      p.toNat < start + covered pre + y.length.toNat := by
  have hne : spans ≠ [] := by
    rintro rfl
    rw [covered_nil] at hhi
    omega
  obtain ⟨pre, y, post, rfl, hplace⟩ := exists_locates hne hlo (Nat.le_of_lt hhi)
  exact ⟨pre, y, post, rfl, hplace.inside hhi⟩

/-! ## The search from the top -/

namespace Tree

/-- A search for an offset into a weighed subtree arrives at the node
whose own span contains it, or at the last node if it is the end. -/
theorem seekBelow_ok {t : Tree} (hw : t.Weighed) (ht : t.isNil = false) {offset : Size}
    (ho : offset.toNat ≤ t.total.toNat) (path : Path) :
    ∃ d rest pre, t.seekBelow offset path = some (d, rest) ∧ d.toTree = Path.plug path t ∧
      d.before = Path.before path t ++ pre ∧ rest.toNat ≤ offset.toNat ∧
      covered pre + rest.toNat = offset.toNat + d.left.total.toNat ∧
      covered pre ≤ offset.toNat ∧
      (offset.toNat < covered pre + d.length.toNat ∨
        offset.toNat = t.total.toNat ∧ d.after = Path.after path t) := by
  induction t generalizing offset path with
  | nil => simp [isNil] at ht
  | node n l r ihl ihr =>
    obtain ⟨hn, hwl, hwr⟩ := hw
    have hown := Node.toNat_length hn
    rw [total_node] at ho
    have hright : (n.data.total - r.total).toNat = n.data.total.toNat - r.total.toNat :=
      Size.toNat_sub_of_le (by omega)
    rw [seekBelow]
    by_cases hlt : offset < l.total
    · have hlt' := UInt64.lt_iff_toNat_lt.mp hlt
      have hne : l.isNil = false := by
        cases l with
        | nil => simp at hlt'
        | node => rfl
      obtain ⟨d, rest, pre, hd, htree, hbefore, hle, hsum, hpre, hin⟩ :=
        ihl hwl hne (Nat.le_of_lt hlt') (⟨.left, n, r⟩ :: path)
      refine ⟨d, rest, pre, by rw [if_pos hlt, hd], htree, ?_, hle, hsum, hpre, ?_⟩
      · simpa [Path.before, Crumb.before, Crumb.attach, join] using hbefore
      · rcases hin with hin | ⟨heq, -⟩
        · exact .inl hin
        · omega
    · rw [if_neg hlt]
      rw [UInt64.lt_iff_toNat_lt] at hlt
      by_cases hge : (!r.isNil && decide (n.data.total - r.total ≤ offset)) = true
      · rw [if_pos hge]
        simp only [Bool.and_eq_true, Bool.not_eq_true', decide_eq_true_eq,
          UInt64.le_iff_toNat_le, hright] at hge
        have hoff : (offset - (n.data.total - r.total)).toNat =
            offset.toNat - (n.data.total.toNat - r.total.toNat) := by
          rw [Size.toNat_sub_of_le (by omega), hright]
        obtain ⟨d, rest, pre, hd, htree, hbefore, hle, hsum, hpre, hin⟩ :=
          ihr hwr hge.1 (show (offset - (n.data.total - r.total)).toNat ≤ _ by omega)
            (⟨.right, n, l⟩ :: path)
        have hcover : covered (l.spans ++ n.span l r :: pre) =
            n.data.total.toNat - r.total.toNat + covered pre := by
          simp only [covered_append, covered_cons, Node.span_length, hwl.covered_spans, hown]
          omega
        refine ⟨d, rest, l.spans ++ n.span l r :: pre, hd, htree, ?_, by omega, ?_, ?_, ?_⟩
        · simpa [Path.before, Crumb.before, Crumb.attach, join] using hbefore
        · omega
        · omega
        · rcases hin with hin | ⟨heq, hafter⟩
          · exact .inl (by omega)
          · refine .inr ⟨by rw [total_node]; omega, ?_⟩
            simpa [Path.after, Crumb.after, Crumb.attach, join] using hafter
      · rw [if_neg hge]
        refine ⟨⟨n, l, r, path⟩, offset, l.spans, rfl, rfl, rfl, Nat.le_refl _, ?_, ?_, ?_⟩
        · rw [hwl.covered_spans, Nat.add_comm]
        · rw [hwl.covered_spans]
          omega
        · change offset.toNat < covered l.spans + (n.length l r).toNat ∨ _
          rw [hwl.covered_spans, hown]
          cases r with
          | nil =>
            by_cases heq : offset.toNat = n.data.total.toNat
            · exact .inr ⟨heq, by simp [Cursor.after, Cursor.subtree]⟩
            · exact .inl (by simp only [total_nil, UInt64.toNat_zero]; omega)
          | node m rl rr =>
            simp only [isNil, Bool.not_false, Bool.true_and, decide_eq_true_eq,
              UInt64.le_iff_toNat_le, hright] at hge
            exact .inl (by omega)

end Tree

end SpanTree
