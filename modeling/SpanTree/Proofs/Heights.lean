/-
SpanTree.Proofs.Heights — how high a tree of equal nodes may be once it
is balanced.

A tree with `n` nodes has `n + 1` places where a node may be added, and
the places of a tree are those of its two subtrees. Where no subtree has
more than two thirds of the places of the tree it belongs to, the number
of places falls by more than half over two levels, and the height is
logarithmic. `Tree.height_le` says this with exceptions: every way down
may besides go through some subtrees of a given kind, each of which costs
a level.

In a settled tree of unit nodes a child can have more than two thirds of
the places only if it is itself heavier on its inner side
(`Tree.thirds_of_settled`): raising it would hand its heavier part over
to the node that sinks. Such a node is `Tree.bent`, and nothing limits
their number. In a zigzag every node is bent, and balancing leaves a
zigzag as it is (`Tree.balance_zigzag`), so that no bound that holds of
all trees is logarithmic (`Tree.height_balance_linear`).
-/
import SpanTree.Proofs.Fixpoint

namespace SpanTree

namespace Tree

/-! ## Trees of equal nodes -/

/-- A tree that is larger than some other has a node. -/
theorem isNil_of_lt_size {t : Tree} {k : Nat} (h : k < t.size) : t.isNil = false := by
  cases t with
  | nil => exact absurd h (Nat.not_lt_zero k)
  | node => rfl

/-- Every node owns the same number of characters. -/
def Uniform (k : Size) (t : Tree) : Prop := ∀ x ∈ t.spans, x.length = k

section Uniform

variable {k : Size} {t u : Tree}

instance : Decidable (t.Uniform k) := inferInstanceAs (Decidable (∀ x ∈ t.spans, x.length = k))

@[simp] theorem uniform_nil : Uniform k .nil := by simp [Uniform]

theorem uniform_node {n : Node} {l r : Tree} :
    (Tree.node n l r).Uniform k ↔ n.length l r = k ∧ l.Uniform k ∧ r.Uniform k := by
  simp only [Uniform, spans_node, List.mem_append, List.mem_cons]
  constructor
  · intro h
    exact ⟨h _ (.inr (.inl rfl)), fun x hx => h x (.inl hx), fun x hx => h x (.inr (.inr hx))⟩
  · rintro ⟨hn, hl, hr⟩ x (hx | rfl | hx)
    · exact hl x hx
    · exact hn
    · exact hr x hx

theorem Uniform.child (h : t.Uniform k) (s : Side) : (t.child s).Uniform k := by
  cases t with
  | nil => exact uniform_nil
  | node n l r =>
    obtain ⟨-, hl, hr⟩ := uniform_node.mp h
    cases s
    · exact hl
    · exact hr

theorem Reshaped.uniform (h : Reshaped t u) (ht : t.Uniform k) : u.Uniform k := by
  unfold Uniform
  rwa [h.spans]

/-- Equal nodes weigh as much as there are of them, times what one of them owns. -/
theorem Uniform.toNat_total (hu : t.Uniform k) (hw : t.Weighed) :
    t.total.toNat = t.size * k.toNat := by
  have hsame : t.spans.map (·.length.toNat) = t.spans.map fun _ => k.toNat :=
    List.map_congr_left fun x hx => by rw [hu x hx]
  rw [← hw.covered_spans, covered, hsame, List.map_const', List.sum_replicate_nat, length_spans]

theorem Uniform.length (hu : t.Uniform k) (ht : t.isNil = false) : t.length = k := by
  cases t with
  | nil => cases ht
  | node n l r => exact (uniform_node.mp hu).1

/-- Among equal nodes, the numbers of nodes tell whether a rotation brings weights closer. -/
theorem Uniform.poisedOn_iff (hu : t.Uniform k) (hk : 0 < k.toNat) (hw : t.Weighed) (s : Side) :
    t.PoisedOn s ↔ ((t.child s.other).size < (t.child s).size →
      ((t.child s).child s).size ≤ (t.child s.other).size) := by
  have hnear := (hu.child s).toNat_total (hw.child s)
  have hfar := (hu.child s.other).toNat_total (hw.child s.other)
  have houter := ((hu.child s).child s).toNat_total ((hw.child s).child s)
  rw [PoisedOn, hnear, hfar, houter, Nat.mul_lt_mul_right hk]
  refine imp_congr_right fun hlt => ?_
  have hchild := isNil_of_lt_size hlt
  have htop : t.isNil = false := by
    cases t with
    | nil => cases hchild
    | node => rfl
  rw [hu.length htop, (hu.child s).length hchild, Nat.add_le_add_iff_right, ← Nat.mul_assoc,
    ← Nat.mul_assoc, Nat.mul_le_mul_right_iff hk, Nat.mul_le_mul_left_iff Nat.two_pos]

end Uniform

/-! ## Trees of unit nodes -/

/-- Every node owns one character. -/
def OfUnits (t : Tree) : Prop := ∀ x ∈ t.spans, x.length = 1

@[simp] theorem ofUnits_nil : OfUnits .nil := uniform_nil

theorem ofUnits_node {n : Node} {l r : Tree} :
    (Tree.node n l r).OfUnits ↔ n.length l r = 1 ∧ l.OfUnits ∧ r.OfUnits :=
  uniform_node

theorem OfUnits.child {t : Tree} (h : t.OfUnits) (s : Side) : (t.child s).OfUnits :=
  Uniform.child h s

theorem Reshaped.ofUnits {t u : Tree} (h : Reshaped t u) (ht : t.OfUnits) : u.OfUnits :=
  h.uniform ht

/-- Unit nodes weigh as much as there are of them. -/
theorem OfUnits.toNat_total {t : Tree} (hu : t.OfUnits) (hw : t.Weighed) :
    t.total.toNat = t.size := by
  rw [Uniform.toNat_total hu hw]
  exact Nat.mul_one _

/-- Among unit nodes, the numbers of nodes tell whether a rotation brings weights closer. -/
theorem OfUnits.poisedOn_iff {t : Tree} (hu : t.OfUnits) (hw : t.Weighed) (s : Side) :
    t.PoisedOn s ↔ ((t.child s.other).size < (t.child s).size →
      ((t.child s).child s).size ≤ (t.child s.other).size) :=
  Uniform.poisedOn_iff hu (by decide) hw s

/-! ## Heights -/

/-- The greatest number of subtrees of a kind on one way down. -/
def most (kind : Tree → Bool) : Tree → Nat
  | .nil => 0
  | .node n l r => max (l.most kind) (r.most kind) + if kind (.node n l r) then 1 else 0

/-- No child has more than two thirds of the places of its tree, trees of a kind excepted. -/
def Thirds (kind : Tree → Bool) : Tree → Prop
  | .nil => True
  | .node n l r =>
    (kind (.node n l r) = false →
      3 * (l.size + 1) ≤ 2 * (l.size + r.size + 2) ∧
        3 * (r.size + 1) ≤ 2 * (l.size + r.size + 2)) ∧
    l.Thirds kind ∧ r.Thirds kind

/-- Every level that does not go through an exception takes a third of the places. The
induction is on the tree, along a longest way down. -/
theorem Thirds.pow_le {kind : Tree → Bool} {t : Tree} (h : t.Thirds kind) {k : Nat}
    (hk : k + t.most kind ≤ t.height) : 3 ^ k ≤ 2 ^ k * (t.size + 1) := by
  induction t generalizing k with
  | nil =>
    obtain rfl : k = 0 := by
      simp only [height] at hk
      omega
    exact Nat.le_refl _
  | node n l r ihl ihr =>
    obtain ⟨hthird, hl, hr⟩ := h
    -- the child on the longest way down
    obtain ⟨c, hmost, hheight, ih, hsize, hthird⟩ : ∃ c : Tree,
        c.most kind ≤ max (l.most kind) (r.most kind) ∧ max l.height r.height = c.height ∧
        (∀ {k}, k + c.most kind ≤ c.height → 3 ^ k ≤ 2 ^ k * (c.size + 1)) ∧
        c.size + 1 ≤ l.size + r.size + 2 ∧
        (kind (.node n l r) = false → 3 * (c.size + 1) ≤ 2 * (l.size + r.size + 2)) := by
      rcases Nat.le_total l.height r.height with hle | hle
      · exact ⟨r, Nat.le_max_right _ _, Nat.max_eq_right hle, ihr hr, by omega,
          fun hkind => (hthird hkind).2⟩
      · exact ⟨l, Nat.le_max_left _ _, Nat.max_eq_left hle, ihl hl, by omega,
          fun hkind => (hthird hkind).1⟩
    simp only [most, height, hheight] at hk
    change 3 ^ k ≤ 2 ^ k * (l.size + r.size + 2)
    cases hkind : kind (.node n l r) with
    | true =>
      rw [hkind, if_pos rfl] at hk
      exact Nat.le_trans (ih (by omega)) (Nat.mul_le_mul_left _ hsize)
    | false =>
      rw [hkind, if_neg Bool.false_ne_true] at hk
      cases k with
      | zero => simp
      | succ k =>
        calc 3 ^ (k + 1) = 3 ^ k * 3 := Nat.pow_succ ..
          _ ≤ 2 ^ k * (c.size + 1) * 3 := Nat.mul_le_mul_right _ (ih (by omega))
          _ = 2 ^ k * (3 * (c.size + 1)) := by rw [Nat.mul_assoc, Nat.mul_comm (c.size + 1)]
          _ ≤ 2 ^ k * (2 * (l.size + r.size + 2)) := Nat.mul_le_mul_left _ (hthird hkind)
          _ = 2 ^ (k + 1) * (l.size + r.size + 2) := by rw [Nat.pow_succ, Nat.mul_assoc]

/-- **The height** of a tree is at most logarithmic in the number of its nodes, but for the
exceptions on one way down. -/
theorem Thirds.height_le {kind : Tree → Bool} {t : Tree} (h : t.Thirds kind) :
    t.height ≤ 2 * (t.size.log2 + 1) + t.most kind := by
  refine Nat.le_of_not_lt fun hlt => ?_
  have hpow := h.pow_le (k := 2 * (t.size.log2 + 1) + 1) (by omega)
  have hplaces : t.size + 1 ≤ 2 ^ (t.size.log2 + 1) := Nat.lt_log2_self
  generalize t.size.log2 + 1 = m at hpow hplaces
  -- two levels take more than half of the places, as `8 < 9`
  have hgrow : 2 ^ m * 4 ^ m ≤ 9 ^ m := by
    rw [← Nat.mul_pow]
    exact Nat.pow_le_pow_left (by decide) m
  have hle : 3 * 9 ^ m ≤ 2 * 9 ^ m :=
    calc 3 * 9 ^ m = 3 ^ (2 * m + 1) := by rw [Nat.pow_succ, Nat.pow_mul, Nat.mul_comm]
      _ ≤ 2 ^ (2 * m + 1) * (t.size + 1) := hpow
      _ ≤ 2 ^ (2 * m + 1) * 2 ^ m := Nat.mul_le_mul_left _ hplaces
      _ = 2 * (2 ^ m * 4 ^ m) := by
        rw [Nat.pow_succ, Nat.pow_mul, Nat.mul_comm _ 2, Nat.mul_assoc, Nat.mul_comm (2 ^ m)]
      _ ≤ 2 * 9 ^ m := Nat.mul_le_mul_left _ hgrow
  have hpos : 0 < 9 ^ m := Nat.pow_pos (by decide)
  omega

/-! ## Settled trees of unit nodes -/

/-- Whether the child on a side is the heavier one, and is heavier on its inner side. -/
def bentOn (s : Side) (t : Tree) : Bool :=
  (t.child s.other).total.toNat < (t.child s).total.toNat &&
    ((t.child s).child s).total.toNat < ((t.child s).child s.other).total.toNat

/-- Whether the heavier child of the top is heavier on its inner side. -/
def bent (t : Tree) : Bool := t.bentOn .left || t.bentOn .right

/-- A tree with a node has that one and those of its two subtrees. -/
theorem size_eq_children {t : Tree} (ht : t.isNil = false) (s : Side) :
    t.size = (t.child s).size + (t.child s.other).size + 1 := by
  cases t with
  | nil => cases ht
  | node n l r =>
    cases s
    · rfl
    · exact congrArg (· + 1) (Nat.add_comm _ _)

/-- At a poised node that is not bent no child has more than two thirds of the places. -/
theorem third_of_poised {t : Tree} (hw : t.Weighed) (hu : t.OfUnits) (hp : t.Poised)
    (ht : t.isNil = false) {s : Side} (hbent : t.bentOn s = false) :
    3 * ((t.child s).size + 1) ≤ 2 * (t.size + 1) := by
  have hsize := size_eq_children ht s
  have hpoised := (hu.poisedOn_iff hw s).mp (hp s)
  cases hc : (t.child s).isNil with
  | true =>
    have hzero : (t.child s).size = 0 := by
      cases hchild : t.child s <;> simp_all [isNil, size]
    omega
  | false =>
    have hparts := size_eq_children hc s
    rw [bentOn, (hu.child s).toNat_total (hw.child s),
      (hu.child s.other).toNat_total (hw.child s.other),
      ((hu.child s).child s).toNat_total ((hw.child s).child s),
      ((hu.child s).child s.other).toNat_total ((hw.child s).child s.other)] at hbent
    simp only [Bool.and_eq_false_iff, decide_eq_false_iff_not, Nat.not_lt] at hbent
    omega

theorem thirds_of_settled {t : Tree} (hw : t.Weighed) (hu : t.OfUnits) (hs : t.Settled) :
    t.Thirds bent := by
  induction t with
  | nil => trivial
  | node n l r ihl ihr =>
    have hpoised := hs.1
    refine ⟨fun hbent => ?_, ihl hw.2.1 (hu.child .left) hs.2.1,
      ihr hw.2.2 (hu.child .right) hs.2.2⟩
    obtain ⟨hleft, hright⟩ := Bool.or_eq_false_iff.mp hbent
    exact ⟨third_of_poised hw hu hpoised rfl hleft, third_of_poised hw hu hpoised rfl hright⟩

/-! ## Chains -/

/-- A chain of unit nodes, linked to a holder and numbered from an identity on. Its first child
is on the given side, and every next one on the side that `turn` makes of the side before. -/
def chain (turn : Side → Side) (s : Side) (link : Link) (id : NodeId) : Nat → Tree
  | 0 => .nil
  | n + 1 =>
    join s { id, link, data := { total := UInt64.ofNat (n + 1) } }
      (chain turn (turn s) (.node id) (id + 1) n) .nil

section Chain

variable {turn : Side → Side} {s : Side} {link : Link} {id : NodeId} {n : Nat}

theorem toNat_total_chain (hn : n < 2 ^ 64) : (chain turn s link id n).total.toNat = n := by
  cases n with
  | zero => rfl
  | succ n =>
    rw [chain, total_join]
    exact UInt64.toNat_ofNat_of_lt' hn

theorem weighed_chain (hn : n < 2 ^ 64) : (chain turn s link id n).Weighed := by
  induction n generalizing s link id with
  | zero => trivial
  | succ n ih =>
    have htop := @toNat_total_chain turn s link id _ hn
    rw [chain, total_join] at htop
    rw [chain, weighed_join, htop, toNat_total_chain (by omega)]
    exact ⟨Nat.lt_succ_self n, ih (by omega), trivial⟩

theorem ofUnits_chain (hn : n < 2 ^ 64) : (chain turn s link id n).OfUnits := by
  induction n generalizing s link id with
  | zero => exact ofUnits_nil
  | succ n ih =>
    have hbelow := @ih (turn s) (.node id) (id + 1) (by omega)
    have hlength : (chain turn s link id (n + 1)).length = 1 := by
      have hw := @weighed_chain turn s link id _ hn
      have htop := @toNat_total_chain turn s link id _ hn
      rw [chain] at hw htop ⊢
      rw [total_join] at htop
      rw [← UInt64.toNat_inj, toNat_length_join hw, htop, toNat_total_chain (by omega)]
      simp
    cases s with
    | left => exact ofUnits_node.mpr ⟨hlength, hbelow, ofUnits_nil⟩
    | right => exact ofUnits_node.mpr ⟨hlength, ofUnits_nil, hbelow⟩

theorem linked_chain : (chain turn s link id n).Linked := by
  induction n generalizing s link id with
  | zero => trivial
  | succ n ih =>
    rw [chain, linked_join]
    refine ⟨?_, rfl, ih, trivial⟩
    cases n with
    | zero => rfl
    | succ n => exact linkedTo_iff.mpr (by simp [chain])

/-- The identities of a chain start where it is numbered from. -/
theorem le_of_mem_chain {i : NodeId} (h : i ∈ (chain turn s link id n).ids) : id ≤ i := by
  induction n generalizing s link id with
  | zero => simp [chain] at h
  | succ n ih =>
    rw [chain] at h
    have hcases : i = id ∨ i ∈ (chain turn (turn s) (.node id) (id + 1) n).ids := by
      cases s <;> simpa [join, or_comm] using h
    rcases hcases with rfl | hbelow
    · exact Nat.le_refl _
    · exact Nat.le_of_succ_le (ih hbelow)

theorem distinct_chain : (chain turn s link id n).ids.Nodup := by
  induction n generalizing s link id with
  | zero => exact List.nodup_nil
  | succ n ih =>
    have hbelow := @ih (turn s) (.node id) (id + 1)
    have hnew : id ∉ (chain turn (turn s) (.node id) (id + 1) n).ids := fun h =>
      Nat.not_succ_le_self id (le_of_mem_chain h)
    rw [chain]
    cases s with
    | left => simpa [join, List.nodup_append, hbelow] using fun i hi => ne_of_mem_of_not_mem hi hnew
    | right => simpa [join, hbelow] using hnew

theorem wellFormed_chain (hn : n < 2 ^ 64) : (chain turn s link id n).WellFormed :=
  ⟨weighed_chain hn, linked_chain, distinct_chain⟩

theorem size_chain : (chain turn s link id n).size = n := by
  induction n generalizing s link id with
  | zero => rfl
  | succ n ih => rw [chain, size_join, ih]; rfl

theorem height_chain : (chain turn s link id n).height = n := by
  induction n generalizing s link id with
  | zero => rfl
  | succ n ih =>
    have hbelow := @ih (turn s) (.node id) (id + 1)
    rw [chain]
    cases s <;> simp [join, height, hbelow]

/-- In a zigzag every child has its own child on the inner side, so that raising it would hand
over all that is below it. -/
theorem settled_zigzag (hn : n < 2 ^ 64) : (chain Side.other s link id n).Settled := by
  induction n generalizing s link id with
  | zero => trivial
  | succ n ih =>
    have hu := @ofUnits_chain Side.other s link id _ hn
    have hw := @weighed_chain Side.other s link id _ hn
    rw [chain] at hu hw ⊢
    refine settled_join.mpr ⟨fun s' => ?_, ih (by omega), trivial⟩
    rw [hu.poisedOn_iff hw]
    have houter : ((chain Side.other s.other (.node id) (id + 1) n).child s).size = 0 := by
      cases n with
      | zero => rfl
      | succ n => cases s <;> rfl
    rcases s.eq_or_eq_other s' with rfl | rfl
    · rw [child_join, child_other_join, houter]
      exact fun _ => Nat.zero_le _
    · rw [Side.other_other, child_join, child_other_join]
      exact fun hlt => absurd hlt (Nat.not_lt_zero _)

/-- **A zigzag** is left as it is by balancing. -/
theorem balance_zigzag (hn : n < 2 ^ 63) :
    (chain Side.other s link id n).balance = (chain Side.other s link id n, .ok 0) := by
  have hfits : n < 2 ^ 64 := by omega
  exact (settled_zigzag hfits).balance (wellFormed_chain hfits)
    (by rw [toNat_total_chain hfits]; exact hn)

end Chain

/-- **No logarithmic height for all trees.** For every number of nodes there is a tree of unit
nodes, a zigzag, that balancing leaves as it is, as high as it has nodes. So no constant below
`2 ^ 57` bounds the heights by the logarithm. From about there on the bound would say no more
than that a tree is not higher than it has nodes: there are fewer than `2 ^ 63` of them. -/
theorem height_balance_linear :
    (∀ n, n < 2 ^ 63 → ∃ t : Tree, t.WellFormed ∧ t.OfUnits ∧ t.size = n ∧
      t.balance = (t, .ok 0) ∧ t.height = n) ∧
    ¬ ∃ c, c < 2 ^ 57 ∧ ∀ t : Tree, t.WellFormed → t.OfUnits → 1 ≤ t.size → t.size < 2 ^ 63 →
      ∃ u n, t.balance = (u, .ok n) ∧ u.height ≤ c * (t.size.log2 + 1) := by
  have hzigzag (n : Nat) (hn : n < 2 ^ 63) : ∃ t : Tree, t.WellFormed ∧ t.OfUnits ∧ t.size = n ∧
      t.balance = (t, .ok 0) ∧ t.height = n := by
    have hfits : n < 2 ^ 64 := by omega
    exact ⟨chain Side.other .left .unset 0 n, wellFormed_chain hfits, ofUnits_chain hfits,
      size_chain, balance_zigzag hn, height_chain⟩
  refine ⟨hzigzag, ?_⟩
  rintro ⟨c, hc, hbound⟩
  obtain ⟨t, hwell, hunits, hsize, hsame, hheight⟩ := hzigzag (2 ^ 63 - 1) (by decide)
  obtain ⟨u, n, hu, hle⟩ := hbound t hwell hunits (by omega) (by omega)
  rw [hsame, Prod.mk.injEq] at hu
  rw [← hu.1, hheight, hsize, show Nat.log2 (2 ^ 63 - 1) = 62 by decide] at hle
  omega

end Tree

end SpanTree
