/-
SpanTree.Proofs.Weights — trees in which every node owns characters.

`Tree.Weighed` says it over the natural numbers: the total of a node
exceeds the totals of its two subtrees together. On such a tree no
difference of totals wraps, and the words can be read as numbers:
`toNat_length` does this for one node, and `covered_spans` for the whole
tree, whose spans then cover exactly as many characters as its total
says.

The length of a span depends on the two totals below a node and on
nothing else. So a subtree may be exchanged for another of the same
total without a change to any span above it, which is what
`span_congr` states.
-/
import Mathlib.Algebra.Ring.Int.Defs
import Mathlib.Algebra.Ring.Nat
import SpanTree.Tree.Basic

namespace SpanTree

/-- There are two sides. -/
theorem Side.eq_or_eq_other (s s' : Side) : s' = s ∨ s' = s.other := by
  cases s <;> cases s' <;> simp [Side.other]

/-! ## Words as numbers -/

theorem Size.toNat_sub_of_le {a b : Size} (h : b.toNat ≤ a.toNat) :
    (a - b).toNat = a.toNat - b.toNat := by
  have := a.toNat_lt
  rw [UInt64.toNat_sub]
  omega

theorem Size.toNat_add_of_lt {a b : Size} (h : a.toNat + b.toNat < 2 ^ 64) :
    (a + b).toNat = a.toNat + b.toNat := by
  rw [UInt64.toNat_add]
  omega

/-- Below `2 ^ 63` the two readings of a word agree. -/
theorem signed_of_lt {n : Size} (h : n.toNat < 2 ^ 63) : signed n = n.toNat := by
  change n.toBitVec.toInt = _
  rw [BitVec.toInt_eq_toNat_of_lt (by simpa using by omega)]
  rfl

/-! ## Nodes that own characters -/

namespace Tree

/-- Every node owns characters: its total exceeds what its two subtrees
have together, counted without wrapping. -/
def Weighed : Tree → Prop
  | .nil => True
  | .node n l r =>
    l.total.toNat + r.total.toNat < n.data.total.toNat ∧ l.Weighed ∧ r.Weighed

@[simp] theorem weighed_nil : Weighed .nil := trivial

@[simp] theorem total_nil : Tree.nil.total = 0 := rfl

@[simp] theorem total_node (n : Node) (l r : Tree) : (Tree.node n l r).total = n.data.total := rfl

@[simp] theorem total_join (s : Side) (n : Node) (near far : Tree) :
    (join s n near far).total = n.data.total := by
  cases s <;> rfl

theorem weighed_join {s : Side} {n : Node} {near far : Tree} :
    (join s n near far).Weighed ↔
      near.total.toNat + far.total.toNat < n.data.total.toNat ∧ near.Weighed ∧ far.Weighed := by
  cases s
  · rfl
  · simp only [join, Weighed, Nat.add_comm, and_comm (a := far.Weighed)]

@[simp] theorem weighed_setLink (link : Link) (t : Tree) :
    (t.setLink link).Weighed ↔ t.Weighed := by
  cases t <;> rfl

end Tree

/-- The own length of a node that owns characters, as a number. -/
theorem Node.toNat_length {n : Node} {l r : Tree}
    (h : l.total.toNat + r.total.toNat < n.data.total.toNat) :
    (n.length l r).toNat = n.data.total.toNat - l.total.toNat - r.total.toNat := by
  have hl : (n.data.total - l.total).toNat = n.data.total.toNat - l.total.toNat :=
    Size.toNat_sub_of_le (by omega)
  unfold Node.length
  rw [Size.toNat_sub_of_le (by omega), hl]

/-- The span of a node depends only on the weights below it. -/
theorem Node.span_congr (n : Node) {l l' r r' : Tree} (hl : l.total = l'.total)
    (hr : r.total = r'.total) : n.span l r = n.span l' r' := by
  simp only [Node.span, Node.length, hl, hr]

@[simp] theorem Node.span_id (n : Node) (l r : Tree) : (n.span l r).id = n.id := rfl

@[simp] theorem Node.span_length (n : Node) (l r : Tree) : (n.span l r).length = n.length l r := rfl

@[simp] theorem Node.span_position (n : Node) (l r : Tree) :
    (n.span l r).position = n.data.position := rfl

@[simp] theorem Node.span_withLink (n : Node) (link : Link) (l r : Tree) :
    (n.withLink link).span l r = n.span l r := rfl

@[simp] theorem Node.withLink_total (n : Node) (link : Link) :
    (n.withLink link).data.total = n.data.total := rfl

@[simp] theorem Node.withTotal_total (n : Node) (total : Size) :
    (n.withTotal total).data.total = total := rfl

@[simp] theorem Node.withPosition_total (n : Node) (position : Size) :
    (n.withPosition position).data.total = n.data.total := rfl

@[simp] theorem Node.withLink_id (n : Node) (link : Link) : (n.withLink link).id = n.id := rfl

@[simp] theorem Node.withTotal_id (n : Node) (total : Size) : (n.withTotal total).id = n.id := rfl

@[simp] theorem Node.withPosition_id (n : Node) (position : Size) :
    (n.withPosition position).id = n.id := rfl

@[simp] theorem Node.withLink_link (n : Node) (link : Link) : (n.withLink link).link = link := rfl

@[simp] theorem Node.withTotal_link (n : Node) (total : Size) :
    (n.withTotal total).link = n.link := rfl

@[simp] theorem Node.withPosition_link (n : Node) (position : Size) :
    (n.withPosition position).link = n.link := rfl

/-! ## The characters that spans cover -/

/-- The number of characters that a list of spans covers. -/
def covered (spans : List Span) : Nat := (spans.map (·.length.toNat)).sum

@[simp] theorem covered_nil : covered [] = 0 := rfl

@[simp] theorem covered_cons (s : Span) (rest : List Span) :
    covered (s :: rest) = s.length.toNat + covered rest := rfl

@[simp] theorem covered_append (a b : List Span) : covered (a ++ b) = covered a + covered b := by
  simp [covered]

namespace Tree

@[simp] theorem spans_nil : Tree.nil.spans = [] := rfl

@[simp] theorem spans_node (n : Node) (l r : Tree) :
    (Tree.node n l r).spans = l.spans ++ n.span l r :: r.spans := rfl

/-- The spans of a tree cover as many characters as its total says. -/
theorem Weighed.covered_spans {t : Tree} (h : t.Weighed) : covered t.spans = t.total.toNat := by
  induction t with
  | nil => rfl
  | node n l r ihl ihr =>
    obtain ⟨hn, hl, hr⟩ := h
    simp only [spans_node, covered_append, covered_cons, Node.span_length, ihl hl, ihr hr,
      Node.toNat_length hn, total_node]
    omega

/-- No span is empty. -/
theorem Weighed.length_pos {t : Tree} (h : t.Weighed) {s : Span} (hs : s ∈ t.spans) :
    0 < s.length.toNat := by
  induction t with
  | nil => simp at hs
  | node n l r ihl ihr =>
    obtain ⟨hn, hl, hr⟩ := h
    simp only [spans_node, List.mem_append, List.mem_cons] at hs
    rcases hs with hs | rfl | hs
    · exact ihl hl hs
    · rw [Node.span_length, Node.toNat_length hn]
      omega
    · exact ihr hr hs

/-- Only the tree without nodes has no spans. -/
@[simp] theorem spans_eq_nil {t : Tree} : t.spans = [] ↔ t = .nil := by
  cases t <;> simp

end Tree

end SpanTree
