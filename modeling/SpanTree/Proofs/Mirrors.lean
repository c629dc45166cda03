/-
SpanTree.Proofs.Mirrors — rotations and balancing do not know left from
right.

`Tree.mirror` exchanges the two subtrees at every node and leaves the
nodes as they are. Whatever the weights and the links, what a rotation or
the balancing at a slot makes of a mirror image is the mirror image of
what the other side makes of the tree (`rotateOwned_mirror`,
`rotateInPlace_mirror`, `balanceSelf_mirror`). A failure is the same one,
but for the side it names. The reason is that no formula of a rotation or
of the balancing loop depends on which of two subtrees is the left one:
the own length of a node subtracts both weights, in one order or the
other, and the weight difference only changes its sign.

Balancing every slot takes the left slots before the right ones. So the
first of several failures depends on the side, and the mirror image of a
whole balancing is that of one that does not fail (`balanceAll_mirror`).
-/
import SpanTree.Proofs.Convergence
import SpanTree.Proofs.Exchanges

namespace SpanTree

/-! ## Mirror images -/

/-- The check with its side, if it has one, exchanged. -/
def Violation.mirror : Violation → Violation
  | .noChild s => .noChild s.other
  | .emptyInterval s => .emptyInterval s.other
  | .emptyChild s => .emptyChild s.other
  | .lengthsDiverged s => .lengthsDiverged s.other
  | .offsetOutside s => .offsetOutside s.other
  | .noNeighbour s => .noNeighbour s.other
  | .staleLink s => .staleLink s.other
  | v => v

/-- The failure with the side that it names exchanged. -/
def Fault.mirror : Fault → Fault
  | .violation v => .violation v.mirror
  | e => e

namespace Tree

/-- The tree with left and right exchanged at every node. -/
def mirror : Tree → Tree
  | .nil => .nil
  | .node n l r => .node n r.mirror l.mirror

variable {s : Side} {t u : Tree}

@[simp] theorem mirror_nil : mirror .nil = .nil := rfl

@[simp] theorem mirror_mirror (t : Tree) : t.mirror.mirror = t := by
  induction t with
  | nil => rfl
  | node n l r ihl ihr => rw [mirror, mirror, ihl, ihr]

@[simp] theorem mirror_join (s : Side) (n : Node) (near far : Tree) :
    (join s n near far).mirror = join s.other n near.mirror far.mirror := by
  cases s <;> rfl

@[simp] theorem isNil_mirror (t : Tree) : t.mirror.isNil = t.isNil := by
  cases t <;> rfl

@[simp] theorem head?_mirror (t : Tree) : t.mirror.head? = t.head? := by
  cases t <;> rfl

@[simp] theorem id?_mirror (t : Tree) : t.mirror.id? = t.id? := by rw [id?, head?_mirror, id?]

@[simp] theorem link?_mirror (t : Tree) : t.mirror.link? = t.link? := by
  rw [link?, head?_mirror, link?]

@[simp] theorem total_mirror (t : Tree) : t.mirror.total = t.total := by
  cases t <;> rfl

@[simp] theorem setLink_mirror (link : Link) (t : Tree) :
    t.mirror.setLink link = (t.setLink link).mirror := by
  cases t <;> rfl

@[simp] theorem child_mirror (s : Side) (t : Tree) :
    t.mirror.child s = (t.child s.other).mirror := by
  cases t with
  | nil => rfl
  | node n l r => cases s <;> rfl

theorem setChild_mirror (s : Side) (t c : Tree) :
    t.mirror.setChild s c.mirror = (t.setChild s.other c).mirror := by
  cases t with
  | nil => rfl
  | node n l r => cases s <;> rfl

/-- Of two weights it does not matter which is taken away first. -/
theorem length_comm (n : Node) (l r : Tree) : n.length r l = n.length l r := by
  simp only [Node.length]
  grind

/-- The spans are read from the other end. -/
@[simp] theorem spans_mirror (t : Tree) : t.mirror.spans = t.spans.reverse := by
  induction t with
  | nil => rfl
  | node n l r ihl ihr =>
    have hspan : n.span r.mirror l.mirror = n.span l r := by
      rw [n.span_congr (total_mirror r) (total_mirror l), Node.span, length_comm, Node.span]
    simp [mirror, ihl, ihr, hspan]

@[simp] theorem length_mirror (t : Tree) : t.mirror.length = t.length := by
  cases t with
  | nil => rfl
  | node n l r => simp only [mirror, length, Node.length, total_mirror]; grind

@[simp] theorem weighed_mirror : t.mirror.Weighed ↔ t.Weighed := by
  induction t with
  | nil => rfl
  | node n l r ihl ihr =>
    simp only [mirror, Weighed, total_mirror, ihl, ihr, Nat.add_comm, and_comm (a := r.Weighed)]

@[simp] theorem linked_mirror : t.mirror.Linked ↔ t.Linked := by
  induction t with
  | nil => rfl
  | node n l r ihl ihr =>
    simp only [mirror, Linked, linkedTo_congr (link?_mirror _), ihl, ihr]
    constructor <;> rintro ⟨hr, hl, hlr, hll⟩ <;> exact ⟨hl, hr, hll, hlr⟩

/-- A mirror image is as well formed as its tree. -/
theorem WellFormed.mirror (h : t.WellFormed) : t.mirror.WellFormed where
  weighed := weighed_mirror.mpr h.weighed
  linked := linked_mirror.mpr h.linked
  distinct := by
    rw [ids, spans_mirror, List.map_reverse]
    exact (List.reverse_perm _).nodup_iff.mpr h.distinct

/-! ## Rotations -/

/-- The pieces of the rotation of the mirror image. -/
def Pivot.mirror (p : Pivot) : Pivot :=
  { p with outer := p.outer.mirror, inner := p.inner.mirror, far := p.far.mirror }

/-- The checks of a rotation of the mirror image. -/
theorem pivot_mirror (s : Side) (t : Tree) :
    t.mirror.pivot s = ((t.pivot s.other).map Pivot.mirror).mapError Violation.mirror := by
  cases t with
  | nil => cases s <;> rfl
  | node a l r =>
    have hown : a.length r.mirror l.mirror = a.length l r := length_mirror (.node a l r)
    have hchild (b : Node) (bl br : Tree) : b.length br.mirror bl.mirror = b.length bl br :=
      length_mirror (.node b bl br)
    cases s with
    | left =>
      cases r with
      | nil => rfl
      | node b bl br =>
        simp only [mirror] at hown
        simp only [mirror, pivot, Side.other, Side.pick, hown, hchild]
        split <;> [rfl; (split <;> rfl)]
    | right =>
      cases l with
      | nil => rfl
      | node b bl br =>
        simp only [mirror] at hown
        simp only [mirror, pivot, Side.other, Side.pick, hown, hchild]
        split <;> [rfl; (split <;> rfl)]

theorem raised_mirror (s : Side) (p : Pivot) : p.mirror.raised s = (p.raised s.other).mirror := by
  simp [Pivot.raised, Pivot.mirror]

theorem exchanged_mirror (s : Side) (p : Pivot) :
    p.mirror.exchanged s = (p.exchanged s.other).mirror := by
  simp [Pivot.exchanged, Pivot.mirror, Pivot.ownLength]

theorem bothOwn_mirror (s : Side) (t : Tree) : t.mirror.bothOwn s = t.bothOwn s.other := by
  simp [bothOwn]

/-- **An owned rotation** of the mirror image gives the mirror image of the
rotation to the other side. -/
theorem rotateOwned_mirror (s : Side) (t : Tree) :
    t.mirror.rotateOwned s =
      ((t.rotateOwned s.other).map mirror).mapError Violation.mirror := by
  rw [rotateOwned, rotateOwned, pivot_mirror]
  cases t.pivot s.other with
  | error v => rfl
  | ok p =>
    simp only [Except.map, Except.mapError, raised_mirror, bothOwn_mirror]
    split
    · rfl
    · simp [Violation.mirror]

/-- **A rotation in place** of the mirror image gives the mirror image of the
rotation to the other side. -/
theorem rotateInPlace_mirror (s : Side) (t : Tree) :
    t.mirror.rotateInPlace s =
      ((t.rotateInPlace s.other).1.mirror,
        (t.rotateInPlace s.other).2.mapError Violation.mirror) := by
  rw [rotateInPlace, rotateInPlace, pivot_mirror]
  cases t.pivot s.other with
  | error v => rfl
  | ok p =>
    simp only [Except.map, Except.mapError, exchanged_mirror, bothOwn_mirror]
    split
    · rfl
    · simp [Violation.mirror]

/-! ## Balancing at a slot -/

@[simp] theorem tilt_mirror (t : Tree) : t.mirror.tilt = -t.tilt := by
  cases t with
  | nil => rfl
  | node n l r => simp only [mirror, tilt, total_mirror]; omega

theorem heavySide_mirror (t : Tree) : t.mirror.heavySide = t.heavySide.map Side.other := by
  rw [heavySide, heavySide, tilt_mirror]
  rcases Int.lt_trichotomy t.tilt 0 with hlt | heq | hgt
  · rw [if_neg (by omega), if_pos (by omega), if_neg (by omega), if_neg (by omega)]
    rfl
  · rw [if_pos (by omega), if_pos heq]
    rfl
  · rw [if_neg (by omega), if_neg (by omega), if_neg (by omega), if_pos hgt]
    rfl

/-- The weight difference that balancing foresees for the mirror image. -/
theorem raisedTilt?_mirror (s : Side) (t : Tree) :
    t.mirror.raisedTilt? s = t.raisedTilt? s.other := by
  cases t with
  | nil => rfl
  | node n l r =>
    cases s with
    | left => cases r <;> simp [mirror, raisedTilt?, Side.other]
    | right => cases l <;> simp [mirror, raisedTilt?, Side.other]

/-- What a look at the mirror image of a slot leads to. -/
def Improvement.mirror : Improvement → Improvement
  | .none => .none
  | .failed left f => .failed left.mirror f.mirror
  | .raised s t => .raised s.other t.mirror

theorem improve_mirror (t : Tree) : t.mirror.improve = t.improve.mirror := by
  rw [improve, improve, heavySide_mirror]
  cases t.heavySide with
  | none => rfl
  | some s =>
    simp only [Option.map_some, raisedTilt?_mirror, Side.other_other, tilt_mirror, Int.natAbs_neg,
      rotateOwned_mirror]
    cases t.raisedTilt? s with
    | none => rfl
    | some tilt =>
      dsimp only
      split
      · cases t.rotateOwned s <;> rfl
      · rfl

theorem balanceCheck_mirror (t : Tree) : t.mirror.balanceCheck = t.balanceCheck := by
  rw [balanceCheck, balanceCheck, isNil_mirror, length_mirror]

/-- What balancing leaves of the mirror image. -/
def Balanced.mirror (b : Balanced) : Balanced := (b.1.mirror, b.2.mapError Fault.mirror)

/-- The check before a balancing names no side. -/
theorem mirror_of_balanceCheck {e : Fault} (h : t.balanceCheck = .error e) : e.mirror = e := by
  unfold balanceCheck at h
  split at h
  · cases h
    rfl
  · split at h
    · cases h
      rfl
    · cases h

/-- What the loop makes of the mirror image decides what balancing makes of it. -/
theorem balanceSelf_mirror_of (h : (settle t.total.toNat t.mirror).1 =
    Balanced.mirror (settle t.total.toNat t).1) :
    t.mirror.balanceSelf = Balanced.mirror t.balanceSelf := by
  rw [balanceSelf, balanceSelf, balanceCheck_mirror]
  cases hcheck : t.balanceCheck with
  | error e => simp only [Balanced.mirror, Except.mapError, mirror_of_balanceCheck hcheck]
  | ok _ => rw [total_mirror, h]

/-- The loop of balancing at a slot. -/
theorem settle_mirror (steps : Nat) (t : Tree) :
    (settle steps t.mirror).1 = Balanced.mirror (settle steps t).1 := by
  induction steps, t using settle_induction with
  | even steps t ht =>
    rw [settle_even steps ht, settle_even steps (by simp [ht])]
    rfl
  | spent t ht =>
    rw [settle_spent ht, settle_spent (by simpa using ht)]
    rfl
  | still rest t ht himp =>
    have himp' : t.mirror.improve = .none := by
      rw [improve_mirror, himp]
      rfl
    rw [settle_still ht himp, settle_still (by simpa using ht) himp']
    rfl
  | failed rest t left f ht himp =>
    have himp' : t.mirror.improve = .failed left.mirror f.mirror := by
      rw [improve_mirror, himp]
      rfl
    rw [settle_failed ht himp, settle_failed (by simpa using ht) himp']
    rfl
  | raised rest t s u x result ht himp hx below again =>
    have himp' : t.mirror.improve = .raised s.other u.mirror := by
      rw [improve_mirror, himp]
      rfl
    -- the node that sank
    have hx' : (u.mirror.child s.other.other).balanceSelf =
        (x.mirror, result.mapError Fault.mirror) := by
      rw [child_mirror, Side.other_other, balanceSelf_mirror_of below, hx]
      rfl
    -- the slot after it
    have hv : u.mirror.setChild s.other.other x.mirror = (u.setChild s.other x).mirror := by
      rw [setChild_mirror, Side.other_other]
    rw [settle_round ht himp hx, settle_round (by simpa using ht) himp' hx', hv]
    cases result with
    | error e => rfl
    | ok m =>
      simp only [Except.mapError, again, Balanced.mirror]
      cases (settle rest (u.setChild s.other x)).1.2 <;> rfl

/-- **Balancing at a slot** makes of the mirror image of a tree the mirror
image of what it makes of the tree, with the same number of rotations. -/
theorem balanceSelf_mirror (t : Tree) : t.mirror.balanceSelf = Balanced.mirror t.balanceSelf :=
  balanceSelf_mirror_of (settle_mirror _ t)

/-! ## Balancing everywhere -/

/-- Balancing every slot makes of the mirror image of a tree the mirror image
of what it makes of the tree, if it does not fail. -/
theorem balanceAll_mirror {n : Nat} (h : t.balanceAll = (u, .ok n)) :
    t.mirror.balanceAll = (u.mirror, .ok n) := by
  induction t generalizing u n with
  | nil =>
    obtain ⟨rfl, rfl⟩ : .nil = u ∧ 0 = n := by simpa [balanceAll] using h
    rfl
  | node a l r ihl ihr =>
    rw [balanceAll] at h
    split at h
    · simp at h
    · next l' i hl =>
      split at h
      · simp at h
      · next r' j hr =>
        split at h
        · simp at h
        · next v k hself =>
          simp only [Prod.mk.injEq, Except.ok.injEq] at h
          obtain ⟨rfl, rfl⟩ := h
          have hmirror := balanceSelf_mirror (.node a l' r')
          rw [hself, mirror] at hmirror
          simp only [mirror, balanceAll, ihl hl, ihr hr, hmirror, Balanced.mirror, Except.mapError,
            Nat.add_comm i j]

/-- So does the balancing with a list of pending slots. -/
theorem balance_mirror (h : t.WellFormed) (hb : t.total.toNat < 2 ^ 63) {n : Nat}
    (hu : t.balance = (u, .ok n)) : t.mirror.balance = (u.mirror, .ok n) := by
  rw [balance_eq_balanceAll h hb] at hu
  rw [balance_eq_balanceAll h.mirror (by rwa [total_mirror])]
  exact balanceAll_mirror hu

end Tree

/-! ## Nodes and places -/

/-- The step of the way up in the mirror image. -/
def Crumb.mirror (b : Crumb) : Crumb := ⟨b.side.other, b.holder, b.sibling.mirror⟩

/-- The way from a subtree to the top in the mirror image. -/
def Path.mirror (p : Path) : Path := p.map Crumb.mirror

theorem Path.plug_mirror (p : Path) (t : Tree) : plug p.mirror t.mirror = (plug p t).mirror := by
  induction p generalizing t with
  | nil => rfl
  | cons b rest ih =>
    have hattach : b.mirror.attach t.mirror = (b.attach t).mirror := by
      simp [Crumb.attach, Crumb.mirror]
    change plug (Path.mirror rest) (b.mirror.attach t.mirror) = _
    rw [hattach, ih, plug_cons]

/-- The same node in the mirror image of the tree. -/
def Cursor.mirror (c : Cursor) : Cursor := ⟨c.node, c.right.mirror, c.left.mirror, c.path.mirror⟩

@[simp] theorem Cursor.subtree_mirror (c : Cursor) : c.mirror.subtree = c.subtree.mirror := rfl

@[simp] theorem Cursor.toTree_mirror (c : Cursor) : c.mirror.toTree = c.toTree.mirror :=
  Path.plug_mirror c.path c.subtree

namespace Forest

/-- The one operation changes the tree at one place, and the other makes the
mirror image of what it made at another place. They have one result, and
their failures are the same but for the side. -/
def Reflects {α : Type} (f g : Forest) (p q : Place) (op op' : Run α) : Prop :=
  ∃ r u, exec op f = (r, f.plant u p) ∧
    exec op' g = (r.mapError Fault.mirror, g.plant u.mirror q)

variable {f g : Forest} {p q : Place}

theorem reflects_balanceSelf (hg : g.tree q = (f.tree p).mirror) :
    f.Reflects g p q (Run.balanceSelf p) (Run.balanceSelf q) :=
  ⟨_, _, Run.exec_balanceSelf rfl rfl, Run.exec_balanceSelf hg (Tree.balanceSelf_mirror _)⟩

theorem reflects_balance (hf : (f.tree p).WellFormed) (hb : (f.tree p).total.toNat < 2 ^ 63)
    (hg : g.tree q = (f.tree p).mirror) :
    f.Reflects g p q (Run.balance p) (Run.balance q) := by
  obtain ⟨u, n, hu, -⟩ := Tree.balanceAll_ok hf.weighed hb
  rw [← Tree.balance_eq_balanceAll hf hb] at hu
  exact ⟨.ok n, u, Run.exec_balance rfl hu, Run.exec_balance hg (Tree.balance_mirror hf hb hu)⟩

theorem reflects_rotateInPlace (hf : f.Holds p) (hg : g.Holds q)
    (hmirror : g.tree q = (f.tree p).mirror) (s : Side) {id : NodeId}
    (hid : id ∈ (f.tree p).ids) :
    f.Reflects g p q (Run.rotateInPlace s id) (Run.rotateInPlace s.other id) := by
  obtain ⟨c, hc, htree, rfl⟩ := exists_cursor hid fun q hq => hf.apart q hq id hid
  have hc' := hg.locate_of_toTree (c := c.mirror) (by rw [Cursor.toTree_mirror, htree, hmirror])
  obtain ⟨u, r, hu⟩ : ∃ u r, c.subtree.rotateInPlace s = (u, r) := ⟨_, _, rfl⟩
  have hu' := Tree.rotateInPlace_mirror s.other c.subtree
  rw [Side.other_other, hu] at hu'
  refine ⟨_, _, exec_rotateInPlace_at hc hu, (exec_rotateInPlace_at hc' hu').trans ?_⟩
  rw [← Path.plug_mirror]
  cases r <;> rfl

theorem reflects_rotateLoose {slot slot' : String}
    (hmirror : g.tree (.loose slot') = (f.tree (.loose slot)).mirror) (s : Side) :
    f.Reflects g (.loose slot) (.loose slot') (Run.rotateLoose s slot)
      (Run.rotateLoose s.other slot') := by
  have hrotate := Tree.rotateOwned_mirror s.other (f.tree (.loose slot))
  rw [Side.other_other] at hrotate
  rw [Reflects, exec_rotateLoose, exec_rotateLoose, hmirror, hrotate]
  cases (f.tree (.loose slot)).rotateOwned s with
  | error v => exact ⟨_, _, rfl, rfl⟩
  | ok u => exact ⟨_, _, rfl, by simp [Except.map, Except.mapError]⟩

end Forest

/-! ## The symmetry -/

namespace Tree

/-- With a child on the side both rotations of a weighed tree succeed, and so
do those of the mirror image, with the mirror images. -/
theorem Weighed.rotatesTo_mirror {t : Tree} (h : t.Weighed) {s : Side}
    (hs : (t.child s).isNil = false) :
    ∃ u w, t.RotatesTo s u w ∧ t.mirror.RotatesTo s.other u.mirror w.mirror := by
  obtain ⟨a, b, outer, inner, far, rfl⟩ := exists_join hs
  have howned := rotateOwned_mirror s.other (join s a (join s b outer inner) far)
  have hinPlace := rotateInPlace_mirror s.other (join s a (join s b outer inner) far)
  rw [Side.other_other, rotateOwned_join h] at howned
  rw [Side.other_other, rotateInPlace_join h] at hinPlace
  exact ⟨_, _, ⟨rotateOwned_join h, rotateInPlace_join h⟩, howned, hinPlace⟩

/-- **Mirror symmetry.** Balancing at the slot of a tree, or at all of its
slots, makes of the mirror image of the tree the mirror image of what it makes
of the tree, with as many rotations. So does a rotation at a node, of either
kind, to the other side. In a forest these operations change the tree at one
place as they change its mirror image at another, and where one is refused the
other is refused for the same reason, on the other side. -/
theorem mirror_symmetry {t : Tree} (h : t.WellFormed) (hb : t.total.toNat < 2 ^ 63) :
    t.mirror.WellFormed ∧ t.mirror.total = t.total ∧ t.mirror.spans = t.spans.reverse ∧
    (t.isNil = false →
      ∃ u n, t.balanceSelf = (u, .ok n) ∧ t.mirror.balanceSelf = (u.mirror, .ok n)) ∧
    (∃ u n, t.balance = (u, .ok n) ∧ t.mirror.balance = (u.mirror, .ok n)) ∧
    (∀ (c : Cursor) (s : Side), c.toTree = t → c.mirror.toTree = t.mirror ∧
      ((c.subtree.child s).isNil = false →
        ∃ u w, c.subtree.RotatesTo s u w ∧
          c.mirror.subtree.RotatesTo s.other u.mirror w.mirror)) ∧
    ∀ (f g : Forest) (p q : Place), f.tree p = t → g.tree q = t.mirror →
      f.Reflects g p q (Run.balanceSelf p) (Run.balanceSelf q) ∧
      f.Reflects g p q (Run.balance p) (Run.balance q) ∧
      (∀ s slot slot', p = .loose slot → q = .loose slot' →
        f.Reflects g p q (Run.rotateLoose s slot) (Run.rotateLoose s.other slot')) ∧
      (f.Holds p → g.Holds q → ∀ s, ∀ id ∈ t.ids,
        f.Reflects g p q (Run.rotateInPlace s id) (Run.rotateInPlace s.other id)) := by
  refine ⟨h.mirror, total_mirror t, spans_mirror t, fun ht => ?_, ?_, fun c s hc => ⟨?_, ?_⟩, ?_⟩
  · obtain ⟨u, n, hu, -⟩ := balanceSelf_ok h.weighed hb ht
    refine ⟨u, n, hu, ?_⟩
    rw [balanceSelf_mirror, hu]
    rfl
  · obtain ⟨u, n, hu, -⟩ := balanceAll_ok h.weighed hb
    rw [← balance_eq_balanceAll h hb] at hu
    exact ⟨u, n, hu, balance_mirror h hb hu⟩
  · rw [Cursor.toTree_mirror, hc]
  · intro hs
    exact (Cursor.weighed_subtree (hc ▸ h.weighed)).rotatesTo_mirror hs
  · rintro f g p q rfl hg
    refine ⟨Forest.reflects_balanceSelf hg, Forest.reflects_balance h hb hg, ?_, ?_⟩
    · rintro s slot slot' rfl rfl
      exact Forest.reflects_rotateLoose hg s
    · intro hf hq s id hid
      exact Forest.reflects_rotateInPlace hf hq hg s hid

/-- The elbow and its mirror image are straightened alike, and the child of
the top is raised alike. -/
theorem mirror_symmetry_elbow : elbow.WellFormed ∧ elbow.total.toNat < 2 ^ 63 ∧
    elbow.mirror ≠ elbow ∧
    (∃ u n, elbow.balanceSelf = (u, .ok n) ∧ elbow.mirror.balanceSelf = (u.mirror, .ok n)) ∧
    ∃ u w, elbow.RotatesTo .left u w ∧ elbow.mirror.RotatesTo .right u.mirror w.mirror := by
  have hlight : elbow.total.toNat < 2 ^ 63 := by decide
  have hdiffer : elbow.mirror ≠ elbow := fun heq => by
    have hleft := congrArg (fun t => (t.child .left).isNil) heq
    simp [elbow, mirror, child, isNil] at hleft
  obtain ⟨-, -, -, hself, -, hrotate, -⟩ := mirror_symmetry elbow_wellFormed hlight
  obtain ⟨-, hraise⟩ := hrotate ⟨_, _, _, []⟩ .left rfl
  exact ⟨elbow_wellFormed, hlight, hdiffer, hself rfl, hraise rfl⟩

end Tree

end SpanTree
