/-
SpanTree.Proofs.Chains — what balancing makes of a straight chain.

Balancing a chain of unit nodes comes to its nodes from the end upwards,
and each of them is put on top of what the nodes below it have become.
That is a tree of the form `Tree.Stepped`: on the side towards which the
chain leans there is a perfect tree, and on the other side a tree of this
form again, with at least half and at most twice as many places. The new
node sinks through the whole tree and ends as the outermost node on the
other side (`Tree.Stepped.extend`). Every so often that side has grown to
more than twice the perfect one. Then its own perfect part is as large as
the perfect tree beside it, and one rotation brings the two together.

The main statement is `Tree.height_balance`: what balancing makes of unit
nodes is of logarithmic height, but for the bent nodes on one way down,
and of a straight chain without exception.
-/
import SpanTree.Proofs.Heights

namespace SpanTree

namespace Tree

/-! ## What balancing at a slot ends with -/

/-- Balancing at a slot turns the first tree into the second, if it is allowed as many steps
as the weights differ by. -/
def SettlesTo (t u : Tree) : Prop :=
  ∀ steps, t.tilt.natAbs ≤ steps → ∃ n, (settle steps t).1 = (u, .ok n)

/-- Nothing is done at a slot that is poised. -/
theorem settlesTo_self {t : Tree} (hw : t.Weighed) (hb : t.total.toNat < 2 ^ 63)
    (hp : t.Poised) : SettlesTo t t := by
  intro steps hsteps
  obtain ⟨u, n, hu, hto⟩ := settle_ok steps t hw hb hsteps
  exact ⟨n, by rw [hu, hto.unchanged (hto.still hp)]⟩

theorem SettlesTo.reshaped {t u : Tree} (h : SettlesTo t u) (hw : t.Weighed)
    (hb : t.total.toNat < 2 ^ 63) : Reshaped t u := by
  obtain ⟨v, n, hv, hto⟩ := settle_ok _ t hw hb (Nat.le_refl _)
  obtain ⟨m, hm⟩ := h _ (Nat.le_refl _)
  obtain rfl : v = u := by
    rw [hv] at hm
    exact congrArg Prod.fst hm
  exact hto.reshaped

theorem SettlesTo.balanceSelf {t u : Tree} (h : SettlesTo t u) (hw : t.Weighed)
    (hb : t.total.toNat < 2 ^ 63) (ht : t.isNil = false) :
    ∃ n, t.balanceSelf = (u, .ok n) := by
  rw [hw.balanceSelf_eq ht]
  exact h _ (hw.natAbs_tilt_le hb)

/-- The node that sinks when a child is raised is lighter than the slot. -/
theorem light_sunk {s : Side} {a b : Node} {outer inner far : Tree}
    (h : (join s a (join s b outer inner) far).Weighed) (hb : a.data.total.toNat < 2 ^ 63) :
    ((Pivot.raised s ⟨a, b, outer, inner, far⟩).child s.other).total.toNat < 2 ^ 63 := by
  have hraised := (reshaped_raised h).weighed h
  simp only [Pivot.raised, weighed_join, child_other_join, Node.withLink_total,
    Node.withTotal_total] at hraised ⊢
  omega

/-- One round at a slot that is not poised: the child on the heavier side is raised, the node
that sank is balanced, and so is the slot after it. -/
theorem settlesTo_round {s : Side} {a b : Node} {outer inner far x w : Tree} {m : Nat}
    (h : (join s a (join s b outer inner) far).Weighed) (hb : a.data.total.toNat < 2 ^ 63)
    (hlt : far.total.toNat < b.data.total.toNat)
    (hnp : ¬ (join s a (join s b outer inner) far).PoisedOn s)
    (hm : ((Pivot.raised s ⟨a, b, outer, inner, far⟩).child s.other).balanceSelf = (x, .ok m))
    (hx : Reshaped ((Pivot.raised s ⟨a, b, outer, inner, far⟩).child s.other) x)
    (hw : SettlesTo ((Pivot.raised s ⟨a, b, outer, inner, far⟩).setChild s.other x) w) :
    SettlesTo (join s a (join s b outer inner) far) w := by
  intro steps hsteps
  have hcloser := (natAbs_tilt_raised_lt_iff h hb hlt).mpr hnp
  have himp := improve_join h hb hlt
  rw [if_pos hcloser] at himp
  obtain ⟨-, htilt⟩ := raised_settle h hb hx
  obtain ⟨rest, rfl⟩ : ∃ rest, steps = rest + 1 := ⟨steps - 1, by omega⟩
  obtain ⟨j, hj⟩ := hw rest (by omega)
  exact ⟨1 + m + j, settle_raised (by omega) himp hm hj⟩

/-- A round, where it is known what the node that sank settles to. -/
theorem settlesTo_raised {s : Side} {a b : Node} {outer inner far x w : Tree}
    (h : (join s a (join s b outer inner) far).Weighed) (hb : a.data.total.toNat < 2 ^ 63)
    (hlt : far.total.toNat < b.data.total.toNat)
    (hnp : ¬ (join s a (join s b outer inner) far).PoisedOn s)
    (hx : SettlesTo ((Pivot.raised s ⟨a, b, outer, inner, far⟩).child s.other) x)
    (hw : SettlesTo ((Pivot.raised s ⟨a, b, outer, inner, far⟩).setChild s.other x) w) :
    SettlesTo (join s a (join s b outer inner) far) w := by
  have hsunk := ((reshaped_raised h).weighed h).child s.other
  have hlight := light_sunk h hb
  obtain ⟨m, hm⟩ := hx.balanceSelf hsunk hlight (by simp [Pivot.raised])
  exact settlesTo_round h hb hlt hnp hm (hx.reshaped hsunk hlight) hw

/-- A slot over equal weights is poised. -/
theorem poised_of_eq {s : Side} {n : Node} {near far : Tree}
    (h : near.total.toNat = far.total.toNat) : (join s n near far).Poised := by
  intro s' hlt
  rcases s.eq_or_eq_other s' with rfl | rfl
  · rw [child_join, child_other_join] at hlt
    omega
  · rw [Side.other_other, child_join, child_other_join] at hlt
    omega

/-! ## Perfect trees -/

/-- Every way down a perfect tree has the same number of levels. -/
def Perfect : Nat → Tree → Prop
  | 0, t => t = .nil
  | _ + 1, .nil => False
  | k + 1, .node _ l r => l.Perfect k ∧ r.Perfect k

theorem perfect_join {s : Side} {n : Node} {near far : Tree} {k : Nat} :
    (join s n near far).Perfect (k + 1) ↔ near.Perfect k ∧ far.Perfect k := by
  cases s
  · rfl
  · exact and_comm

theorem perfect_setLink {t : Tree} {k : Nat} (h : t.Perfect k) (link : Link) :
    (t.setLink link).Perfect k := by
  cases t with
  | nil => exact h
  | node n l r =>
    cases k with
    | zero => cases h
    | succ k => exact h

theorem Perfect.child {t : Tree} {k : Nat} (h : t.Perfect (k + 1)) (s : Side) :
    (t.child s).Perfect k := by
  cases t with
  | nil => exact h.elim
  | node n l r =>
    cases s
    · exact h.1
    · exact h.2

/-- A perfect tree has a power of two places. -/
theorem Perfect.size {t : Tree} {k : Nat} (h : t.Perfect k) : t.size + 1 = 2 ^ k := by
  induction k generalizing t with
  | zero =>
    rw [show t = .nil from h]
    rfl
  | succ k ih =>
    cases t with
    | nil => exact h.elim
    | node n l r =>
      have hl := ih h.1
      have hr := ih h.2
      simp only [Tree.size, Nat.pow_succ]
      omega

/-- A perfect tree of unit nodes is poised. -/
theorem Perfect.poised {t : Tree} {k : Nat} (h : t.Perfect k) (hw : t.Weighed)
    (hu : t.OfUnits) : t.Poised := by
  cases t with
  | nil => exact Settled.poised trivial
  | node n l r =>
    cases k with
    | zero => cases h
    | succ k =>
      obtain ⟨-, hlw, hrw⟩ := hw
      obtain ⟨-, hlu, hru⟩ := ofUnits_node.mp hu
      have hl := Perfect.size h.1
      have hr := Perfect.size h.2
      refine poised_of_eq (s := .left) ?_
      rw [hlu.toNat_total hlw, hru.toNat_total hrw]
      omega

theorem Perfect.thirds {t : Tree} {k : Nat} (h : t.Perfect k) (kind : Tree → Bool) :
    t.Thirds kind := by
  induction k generalizing t with
  | zero =>
    rw [show t = .nil from h]
    trivial
  | succ k ih =>
    cases t with
    | nil => trivial
    | node n l r =>
      have hl := Perfect.size h.1
      have hr := Perfect.size h.2
      exact ⟨fun _ => by omega, ih h.1, ih h.2⟩

/-! ## Stepped trees -/

/-- What balancing makes of a chain that leans to a side. -/
inductive Stepped (s : Side) : Tree → Prop where
  | nil : Stepped s .nil
  | one (n : Node) : Stepped s (join s n .nil .nil)
  /-- A perfect tree towards the side, and the rest on the other one. -/
  | step {n : Node} {near far : Tree} {k : Nat} (hnear : near.Perfect (k + 1))
      (hfar : Stepped s far) (hlow : 2 ^ k ≤ far.size + 1) (hhigh : far.size + 1 ≤ 2 ^ (k + 2)) :
      Stepped s (join s n near far)

namespace Stepped

variable {s : Side} {n : Node} {t near far : Tree} {k : Nat}

theorem setLink (h : Stepped s t) (link : Link) : Stepped s (t.setLink link) := by
  have hjoin (n : Node) (near far : Tree) :
      (join s n near far).setLink link = join s (n.withLink link) near far := by
    cases s <;> rfl
  cases h with
  | nil => exact .nil
  | one n => exact hjoin _ _ _ ▸ .one _
  | step hnear hfar hlow hhigh => exact hjoin _ _ _ ▸ .step hnear hfar hlow hhigh

theorem thirds (h : Stepped s t) (kind : Tree → Bool) : t.Thirds kind := by
  induction h with
  | nil => trivial
  | one n => cases s <;> simp [join, Thirds, size]
  | @step n near far k hnear hfar hlow hhigh ih =>
    have hsize := hnear.size
    have hnear := hnear.thirds kind
    simp only [Nat.pow_succ] at hsize hhigh
    cases s with
    | left => exact ⟨fun _ => by omega, hnear, ih⟩
    | right => exact ⟨fun _ => by omega, ih, hnear⟩

/-- The tree on the other side of a stepped tree, up to a given size. -/
theorem far_le (h : Stepped s t) (hsize : t.size + 1 ≤ 2 ^ (k + 2)) :
    (t.child s.other).size + 1 ≤ 2 ^ (k + 1) := by
  have hpos : 0 < 2 ^ (k + 1) := Nat.pow_pos (by decide)
  cases h with
  | nil => exact hpos
  | one n =>
    rw [child_other_join]
    exact hpos
  | @step n near far j hnear hfar hlow hhigh =>
    have hperfect := hnear.size
    rw [child_other_join]
    rw [size_join] at hsize
    rcases Nat.lt_or_ge j k with hlt | hge
    · exact Nat.le_trans hhigh (Nat.pow_le_pow_right (by decide) (by omega))
    · have hpow : 2 ^ (k + 1) ≤ 2 ^ (j + 1) := Nat.pow_le_pow_right (by decide) (by omega)
      rw [Nat.pow_succ] at hsize
      omega

/-- A stepped tree of unit nodes is poised. -/
theorem poised (hnear : near.Perfect (k + 1)) (hfar : Stepped s far)
    (hlow : 2 ^ k ≤ far.size + 1) (hhigh : far.size + 1 ≤ 2 ^ (k + 2))
    (hw : (join s n near far).Weighed) (hu : (join s n near far).OfUnits) :
    (join s n near far).Poised := by
  have hperfect := hnear.size
  have houter := (hnear.child s).size
  have hrest := hfar.far_le hhigh
  intro s'
  rw [hu.poisedOn_iff hw]
  rcases s.eq_or_eq_other s' with rfl | rfl
  · rw [child_join, child_other_join]
    omega
  · rw [Side.other_other, child_join, child_other_join]
    omega

/-- A stepped tree with too many places on the other side is a perfect tree of the next size
beside the rest: it begins with two perfect trees of the same size. -/
theorem exists_parts (h : Stepped s t) (hsize : t.size = 2 ^ (k + 2)) :
    ∃ n near far, t = join s n near far ∧ near.Perfect (k + 1) ∧ Stepped s far ∧
      far.size = 2 ^ (k + 1) := by
  have hpow : 2 ^ (k + 2) = 4 * 2 ^ k := by rw [Nat.pow_add, Nat.mul_comm]
  have hpos : 0 < 2 ^ k := Nat.pow_pos (by decide)
  cases h with
  | nil => simp only [size] at hsize; omega
  | one n => simp only [size_join, size] at hsize; omega
  | @step n near far j hnear hfar hlow hhigh =>
    have hperfect := hnear.size
    rw [size_join] at hsize
    have hj : 2 ^ (j + 1) = 2 * 2 ^ j := by rw [Nat.pow_succ, Nat.mul_comm]
    have hj' : 2 ^ (j + 2) = 4 * 2 ^ j := by rw [Nat.pow_add, Nat.mul_comm]
    have hk : 2 ^ (k + 1) = 2 * 2 ^ k := by rw [Nat.pow_succ, Nat.mul_comm]
    obtain rfl : j = k := by
      rcases Nat.lt_trichotomy j k with hlt | heq | hgt
      · have := Nat.pow_le_pow_right (show 0 < 2 by decide) (show j + 1 ≤ k from hlt)
        omega
      · exact heq
      · have := Nat.pow_le_pow_right (show 0 < 2 by decide) (show k + 1 ≤ j from hgt)
        omega
    exact ⟨n, near, far, rfl, hnear, hfar, by omega⟩

/-- The rest has outgrown its bound by one: its perfect part and the perfect tree beside it
are brought together by one rotation. -/
theorem settlesTo_merged (hnear : near.Perfect (k + 1)) (hfar : Stepped s far)
    (hsize : far.size = 2 ^ (k + 2)) (hw : (join s n near far).Weighed)
    (hu : (join s n near far).OfUnits) (hb : n.data.total.toNat < 2 ^ 63) :
    ∃ u, SettlesTo (join s n near far) u ∧ Stepped s u := by
  obtain ⟨b, inner, outer, rfl, hinner, houter, hrest⟩ := hfar.exists_parts hsize
  rw [← join_other s n, ← join_other s b] at hw hu ⊢
  have hperfect := hnear.size
  have hinnerSize := hinner.size
  -- the rest is heavier, and its own rest has more nodes than the perfect tree
  have hnp : ¬ (join s.other n (join s.other b outer inner) near).PoisedOn s.other := by
    rw [hu.poisedOn_iff hw, child_other_join, child_join, child_join, size_join]
    omega
  have hlt : near.total.toNat < b.data.total.toNat := by
    have hnearTotal := (hu.child s.other.other).toNat_total (hw.child s.other.other)
    have hlowTotal := (hu.child s.other).toNat_total (hw.child s.other)
    rw [child_other_join] at hnearTotal
    rw [child_join, total_join, size_join] at hlowTotal
    omega
  -- the node that sinks holds the two perfect trees
  obtain ⟨top, sunk, hform, hsunk⟩ : ∃ top sunk,
      Pivot.raised s.other ⟨n, b, outer, inner, near⟩ = join s top sunk outer ∧
        sunk.Perfect (k + 2) :=
    ⟨_, _, join_other .., perfect_join.mpr ⟨perfect_setLink hinner _, hnear⟩⟩
  have hraised := reshaped_raised hw
  have hraisedWeighed := hraised.weighed hw
  have hraisedUnits := hraised.ofUnits hu
  have hraisedTotal := hraised.total
  have hsunkLight := light_sunk hw hb
  rw [hform] at hraisedWeighed hraisedUnits hraisedTotal hsunkLight
  rw [Side.other_other, child_join] at hsunkLight
  have hsunkWeighed : sunk.Weighed := by simpa using hraisedWeighed.child s
  have hsunkUnits : sunk.OfUnits := by simpa using hraisedUnits.child s
  have hpow : 2 ^ (k + 1 + 2) = 2 * 2 ^ (k + 2) := by rw [Nat.pow_succ, Nat.mul_comm]
  have hsmaller : 2 ^ (k + 1) < 2 ^ (k + 2) := Nat.pow_lt_pow_right (by decide) (by omega)
  refine ⟨join s top sunk outer, settlesTo_raised (x := sunk) hw hb hlt hnp ?_ ?_,
    .step hsunk houter (by omega) (by omega)⟩
  · rw [hform, Side.other_other, child_join]
    exact settlesTo_self hsunkWeighed hsunkLight (hsunk.poised hsunkWeighed hsunkUnits)
  · have hback := setChild_child s (join s top sunk outer)
    rw [child_join] at hback
    rw [hform, Side.other_other, hback]
    exact settlesTo_self hraisedWeighed (by rwa [hraisedTotal, total_join])
      (poised hsunk houter (by omega) (by omega) hraisedWeighed hraisedUnits)

/-- The slot of a perfect tree beside a rest that has just grown by one. -/
theorem settlesTo_grown (hnear : near.Perfect (k + 1)) (hfar : Stepped s far)
    (hlow : 2 ^ k ≤ far.size + 1) (hhigh : far.size ≤ 2 ^ (k + 2))
    (hw : (join s n near far).Weighed) (hu : (join s n near far).OfUnits)
    (hb : n.data.total.toNat < 2 ^ 63) :
    ∃ u, SettlesTo (join s n near far) u ∧ Stepped s u := by
  rcases Nat.lt_or_eq_of_le hhigh with hlt | heq
  · have hpoised := poised hnear hfar hlow hlt hw hu
    exact ⟨_, settlesTo_self hw (by rwa [total_join]) hpoised, .step hnear hfar hlow hlt⟩
  · exact settlesTo_merged hnear hfar heq hw hu hb

/-- **One more node** on top of a stepped tree leaves a stepped tree. The node sinks on the
other side, which is where the induction goes. -/
theorem settlesTo_extended (h : Stepped s t) (link : Link) {a : Node}
    (hw : (join s a (t.setLink link) .nil).Weighed)
    (hu : (join s a (t.setLink link) .nil).OfUnits) (hb : a.data.total.toNat < 2 ^ 63) :
    ∃ u, SettlesTo (join s a (t.setLink link) .nil) u ∧ Stepped s u := by
  induction h generalizing link a with
  | nil => exact ⟨_, settlesTo_self hw (by rwa [total_join]) (poised_of_eq rfl), .one a⟩
  | one n =>
    have hone : ((join s n .nil .nil).setLink link).Perfect 1 :=
      perfect_setLink (perfect_join (k := 0) |>.mpr ⟨rfl, rfl⟩) link
    exact settlesTo_grown (k := 0) hone .nil (by decide) (by decide) hw hu hb
  | @step n near far k hnear hfar hlow hhigh ih =>
    obtain ⟨b, hform⟩ : ∃ b, (join s n near far).setLink link = join s b near far :=
      ⟨n.withLink link, by cases s <;> rfl⟩
    rw [hform] at hw hu ⊢
    have hperfect := hnear.size
    have hpos : 0 < 2 ^ k := Nat.pow_pos (by decide)
    rw [Nat.pow_succ] at hperfect
    have hnp : ¬ (join s a (join s b near far) .nil).PoisedOn s := by
      rw [hu.poisedOn_iff hw, child_other_join, child_join, child_join, size_join, size]
      omega
    have hlt : (Tree.nil : Tree).total.toNat < b.data.total.toNat := by
      have htotal := (hu.child s).toNat_total (hw.child s)
      rw [child_join, total_join, size_join] at htotal
      rw [htotal]
      exact Nat.succ_pos _
    -- the new node sinks on the other side, beside what was there
    have hraised := reshaped_raised hw
    have hsunkWeighed := (hraised.weighed hw).child s.other
    have hsunkUnits := (hraised.ofUnits hu).child s.other
    have hsunkLight := light_sunk hw hb
    simp only [Pivot.raised, child_other_join] at hsunkWeighed hsunkUnits hsunkLight
    rw [total_join] at hsunkLight
    obtain ⟨x, hx, hxStepped⟩ := ih _ hsunkWeighed hsunkUnits hsunkLight
    have hxShape := hx.reshaped hsunkWeighed (by rwa [total_join])
    have hxSize : x.size = far.size + 1 := by
      rw [hxShape.size, size_join, size_setLink]
      rfl
    -- the slot after it
    obtain ⟨hafter, -⟩ := raised_settle hw hb (x := x) (by
      rw [Pivot.raised, child_other_join]
      exact hxShape)
    have hafterWeighed := hafter.weighed hw
    have hafterUnits := hafter.ofUnits hu
    simp only [Pivot.raised, setChild_other_join] at hafterWeighed hafterUnits
    obtain ⟨w, hw', hwStepped⟩ := settlesTo_grown hnear hxStepped (by omega) (by omega)
      hafterWeighed hafterUnits hb
    refine ⟨w, settlesTo_raised hw hb hlt hnp (x := x) ?_ ?_, hwStepped⟩
    · rw [Pivot.raised, child_other_join]
      exact hx
    · rw [Pivot.raised, setChild_other_join]
      exact hw'

end Stepped

/-! ## Straight chains -/

/-- No node has a child on the other side. -/
def Leans (s : Side) : Tree → Prop
  | .nil => True
  | .node _ l r =>
    match s with
    | .left => r = .nil ∧ l.Leans s
    | .right => l = .nil ∧ r.Leans s

/-- A chain that leans to a side is a node over such a chain. -/
theorem Leans.exists_join {s : Side} {n : Node} {l r : Tree} (h : (Tree.node n l r).Leans s) :
    ∃ t : Tree, Tree.node n l r = join s n t .nil ∧ t.Leans s ∧ (t = l ∨ t = r) := by
  cases s with
  | left =>
    obtain ⟨rfl, hl⟩ := h
    exact ⟨l, rfl, hl, .inl rfl⟩
  | right =>
    obtain ⟨rfl, hr⟩ := h
    exact ⟨r, rfl, hr, .inr rfl⟩

theorem leans_chain {s : Side} {link : Link} {id : NodeId} {n : Nat} :
    (chain (fun s => s) s link id n).Leans s := by
  induction n generalizing link id with
  | zero => trivial
  | succ n ih => cases s <;> exact ⟨rfl, ih⟩

/-- Balancing a node over one child balances the child and then the node. -/
theorem balanceAll_join_nil {s : Side} {a : Node} {t u v : Tree} {i j : Nat}
    (ht : t.balanceAll = (u, .ok i)) (hu : (join s a u .nil).balanceSelf = (v, .ok j)) :
    (join s a t .nil).balanceAll = (v, .ok (i + j)) := by
  cases s with
  | left =>
    change (Tree.node a u .nil).balanceSelf = _ at hu
    simp [join, balanceAll, ht, hu]
  | right =>
    change (Tree.node a .nil u).balanceSelf = _ at hu
    simp [join, balanceAll, ht, hu]

/-- Balancing makes a stepped tree of a straight chain. -/
theorem stepped_balanceAll {s : Side} {t : Tree} (h : t.Leans s) (hw : t.Weighed)
    (hu : t.OfUnits) (hb : t.total.toNat < 2 ^ 63) :
    ∃ u n, t.balanceAll = (u, .ok n) ∧ Stepped s u := by
  induction t with
  | nil => exact ⟨.nil, 0, rfl, .nil⟩
  | node a l r ihl ihr =>
    obtain ⟨t, hform, hleans, hchild⟩ := h.exists_join
    have ih : t.Leans s → t.Weighed → t.OfUnits → t.total.toNat < 2 ^ 63 →
        ∃ u n, t.balanceAll = (u, .ok n) ∧ Stepped s u := by
      rcases hchild with rfl | rfl
      · exact ihl
      · exact ihr
    clear ihl ihr hchild
    rw [total_node] at hb
    rw [hform] at hw hu ⊢
    have htw : t.Weighed := by simpa using hw.child s
    have htl : t.total.toNat < 2 ^ 63 := by
      rw [weighed_join] at hw
      omega
    obtain ⟨u, i, hi, hstepped⟩ := ih hleans htw (by simpa using hu.child s) htl
    obtain ⟨u', i', hi', hto⟩ := balanceAll_ok htw htl
    obtain rfl : u' = u := by
      rw [hi] at hi'
      exact congrArg Prod.fst hi'.symm
    -- the node on top of what its child has become
    have hshape : Reshaped (join s a t .nil) (join s a u' .nil) :=
      hto.reshaped.join s a (.refl .nil)
    obtain ⟨link, hlink⟩ : ∃ link, u'.setLink link = u' := by
      cases u' with
      | nil => exact ⟨.unset, rfl⟩
      | node n l r => exact ⟨n.link, rfl⟩
    have hextended := hstepped.settlesTo_extended link (a := a)
    rw [hlink] at hextended
    obtain ⟨v, hv, hvStepped⟩ := hextended (hshape.weighed hw) (hshape.ofUnits hu) hb
    obtain ⟨j, hj⟩ := hv.balanceSelf (hshape.weighed hw) (by rwa [total_join]) (by simp)
    exact ⟨v, i + j, balanceAll_join_nil hi hj, hvStepped⟩

/-! ## The height after balancing -/

/-- No subtree is excepted. -/
theorem most_false (t : Tree) : t.most (fun _ => false) = 0 := by
  induction t with
  | nil => rfl
  | node n l r ihl ihr => simp [most, ihl, ihr]

/-- **The height after balancing** a tree of unit nodes is at most twice the logarithm of their
number, but for the bent nodes on one way down. A straight chain has that height without
exception. -/
theorem height_balance {t : Tree} (h : t.WellFormed) (hu : t.OfUnits) (hb : t.size < 2 ^ 63) :
    ∃ u n, t.balance = (u, .ok n) ∧
      u.height ≤ 2 * (t.size.log2 + 1) + u.most bent ∧
      ∀ s, t.Leans s → u.height ≤ 2 * (t.size.log2 + 1) := by
  have hlight : t.total.toNat < 2 ^ 63 := by rwa [hu.toNat_total h.weighed]
  obtain ⟨u, n, hbalance, hto⟩ := balanceAll_ok h.weighed hlight
  have hsize := hto.reshaped.size
  have hthirds := thirds_of_settled (hto.reshaped.weighed h.weighed) (hto.reshaped.ofUnits hu)
    hto.settled
  refine ⟨u, n, (balance_eq_balanceAll h hlight).trans hbalance, ?_, fun s hs => ?_⟩
  · rw [← hsize]
    exact hthirds.height_le
  · obtain ⟨u', n', hbalance', hstepped⟩ := stepped_balanceAll hs h.weighed hu hlight
    obtain rfl : u' = u := by
      rw [hbalance] at hbalance'
      exact congrArg Prod.fst hbalance'.symm
    have hheight := (hstepped.thirds fun _ => false).height_le
    rwa [most_false, hsize] at hheight

/-- A straight chain of a thousand nodes. -/
theorem height_balance_chain :
    let t := chain (fun s => s) .right .unset 0 1000
    t.WellFormed ∧ t.OfUnits ∧ t.size < 2 ^ 63 ∧ t.Leans .right ∧
      ∃ u n, t.balance = (u, .ok n) ∧ u.height ≤ 20 := by
  intro t
  have hwell : t.WellFormed := wellFormed_chain (by decide)
  have hunits : t.OfUnits := ofUnits_chain (by decide)
  have hsize : t.size = 1000 := size_chain
  have hfits : t.size < 2 ^ 63 := by
    rw [hsize]
    decide
  obtain ⟨u, n, hbalance, -, hstraight⟩ := height_balance hwell hunits hfits
  have hheight := hstraight .right leans_chain
  rw [hsize, show Nat.log2 1000 = 9 by decide] at hheight
  exact ⟨hwell, hunits, hfits, leans_chain, u, n, hbalance, hheight⟩

end Tree

end SpanTree
