/-
SpanTree.Proofs.Halvings — balancing the top of a straight chain halves it.

Balancing at one slot does not keep a chain straight. Every node that
sinks there is balanced on the other side, together with all that sank
before it, and nothing is known about what those nodes have become but
that they are still the same ones. On the side towards which the chain
leans it is otherwise: the child that is raised has nothing on its inner
side, so that what is left there is the straight chain without its first
node. This is what `settlesTo_straight` goes by. Its induction is on the
straight side, and of the other side it uses the number of nodes alone.

Where all nodes own the same number of characters, the weights are
multiples of that number. So a slot that is not poised is heavier on the
straight side by two nodes at least, and after a round that side is still
the heavier one or equal. The loop ends at a slot that is poised, which
now means: heavier by one node at most.
-/
import SpanTree.Proofs.Chains

namespace SpanTree

namespace Tree

/-! ## Weights of equal nodes -/

/-- Where the lengths of equal nodes add up to a word, the totals cannot have wrapped. -/
theorem Uniform.weighed {k : Size} {t : Tree} (hu : t.Uniform k) (hk : 0 < k.toNat)
    (hfits : t.size * k.toNat < 2 ^ 64) : t.Weighed := by
  induction t with
  | nil => trivial
  | node n l r ihl ihr =>
    obtain ⟨hown, hl, hr⟩ := uniform_node.mp hu
    have hsplit : (Tree.node n l r).size * k.toNat =
        l.size * k.toNat + r.size * k.toNat + k.toNat := by
      rw [size, Nat.add_mul, Nat.add_mul, Nat.one_mul]
    have hlw := ihl hl (by omega)
    have hrw := ihr hr (by omega)
    have hlt := hl.toNat_total hlw
    have hrt := hr.toNat_total hrw
    refine ⟨?_, hlw, hrw⟩
    -- the total is the sum of the three parts, which does not wrap
    have hsum : n.data.total = k + l.total + r.total := by
      rw [← hown, Node.length]
      grind
    rw [hsum, UInt64.toNat_add, UInt64.toNat_add, hlt, hrt]
    omega

/-! ## The loop on a slot with a straight side -/

/-- The children of the top have the same number of nodes, or the one on the given side has one
more. -/
def HalvedOn (s : Side) (t : Tree) : Prop :=
  (t.child s.other).size ≤ (t.child s).size ∧ (t.child s).size ≤ (t.child s.other).size + 1

theorem halvedOn_join {s : Side} {n : Node} {near far : Tree} :
    (join s n near far).HalvedOn s ↔ far.size ≤ near.size ∧ near.size ≤ far.size + 1 := by
  rw [HalvedOn, child_join, child_other_join]

/-- Equal nodes in two halves weigh the same on both sides, but for one node. -/
theorem HalvedOn.natAbs_le {s : Side} {k : Size} {t : Tree} (h : t.HalvedOn s)
    (hu : t.Uniform k) (hw : t.Weighed) :
    ((t.child .left).total.toNat - (t.child .right).total.toNat : Int).natAbs ≤ k.toNat := by
  have hnear := (hu.child s).toNat_total (hw.child s)
  have hfar := (hu.child s.other).toNat_total (hw.child s.other)
  have hle := Nat.mul_le_mul_right k.toNat h.1
  have hge := Nat.mul_le_mul_right k.toNat h.2
  rw [← hnear, ← hfar] at hle
  rw [Nat.add_mul, Nat.one_mul, ← hnear, ← hfar] at hge
  cases s <;> simp only [Side.other] at hle hge <;> omega

/-- A tree of equal nodes in two halves is poised. -/
theorem HalvedOn.poised {s : Side} {k : Size} {t : Tree} (h : t.HalvedOn s)
    (hu : t.Uniform k) (hk : 0 < k.toNat) (hw : t.Weighed) : t.Poised := by
  obtain ⟨hle, hge⟩ := h
  intro s'
  rw [hu.poisedOn_iff hk hw]
  rcases s.eq_or_eq_other s' with rfl | rfl
  · intro hlt
    have houter := size_child_lt s' (isNil_of_lt_size hlt)
    omega
  · rw [Side.other_other]
    omega

/-- **A slot with a straight side**, the heavier one, is left in two halves. The induction takes
the straight side apart, one node a round. -/
theorem settlesTo_straight {s : Side} {k : Size} {n : Node} {near far : Tree}
    (hl : near.Leans s) (hle : far.size ≤ near.size) (hu : (join s n near far).Uniform k)
    (hk : 0 < k.toNat) (hw : (join s n near far).Weighed) (hb : n.data.total.toNat < 2 ^ 63) :
    ∃ u, SettlesTo (join s n near far) u ∧ u.HalvedOn s := by
  induction near generalizing n far with
  | nil =>
    have hhalved : (join s n .nil far).HalvedOn s := halvedOn_join.mpr ⟨hle, by simp [size]⟩
    exact ⟨_, settlesTo_self hw (by rwa [total_join]) (hhalved.poised hu hk hw), hhalved⟩
  | node b l r ihl ihr =>
    by_cases hge : (Tree.node b l r).size ≤ far.size + 1
    · have hhalved : (join s n (.node b l r) far).HalvedOn s := halvedOn_join.mpr ⟨hle, hge⟩
      exact ⟨_, settlesTo_self hw (by rwa [total_join]) (hhalved.poised hu hk hw), hhalved⟩
    obtain ⟨outer, hform, hleans, hchild⟩ := hl.exists_join
    have ih : ∀ {n : Node} {far : Tree}, outer.Leans s → far.size ≤ outer.size →
        (join s n outer far).Uniform k → (join s n outer far).Weighed →
        n.data.total.toNat < 2 ^ 63 → ∃ u, SettlesTo (join s n outer far) u ∧ u.HalvedOn s := by
      rcases hchild with rfl | rfl
      · exact fun hl hle hu hw hb => ihl hl hle hu hw hb
      · exact fun hl hle hu hw hb => ihr hl hle hu hw hb
    clear ihl ihr hchild
    rw [hform] at hu hw hge ⊢
    rw [size_join, size] at hge
    -- two nodes more on the straight side are enough for a rotation
    have hnp : ¬ (join s n (join s b outer .nil) far).PoisedOn s := by
      rw [hu.poisedOn_iff hk hw, child_other_join, child_join, child_join, size_join]
      omega
    have hlt : far.total.toNat < b.data.total.toNat := by
      have hnear := (hu.child s).toNat_total (hw.child s)
      have hfar := (hu.child s.other).toNat_total (hw.child s.other)
      rw [child_join, total_join, size_join] at hnear
      rw [child_other_join] at hfar
      rw [hnear, hfar]
      exact Nat.mul_lt_mul_of_pos_right (by rw [size]; omega) hk
    -- the node that sank holds what was on the other side
    have hraised := reshaped_raised hw
    have hsunkWeighed := (hraised.weighed hw).child s.other
    have hsunkLight := light_sunk hw hb
    obtain ⟨x, m, hx, hto⟩ := balanceSelf_ok hsunkWeighed hsunkLight (by simp [Pivot.raised])
    have hxSize : x.size = far.size + 1 := by
      rw [hto.reshaped.size]
      simp [Pivot.raised, size_join, size]
    -- the slot after it
    obtain ⟨hafter, -⟩ := raised_settle hw hb hto.reshaped
    have hafterUniform := hafter.uniform hu
    have hafterWeighed := hafter.weighed hw
    simp only [Pivot.raised, setChild_other_join] at hafterUniform hafterWeighed
    obtain ⟨u, hu', hhalved⟩ := ih hleans (by omega) hafterUniform hafterWeighed hb
    refine ⟨u, settlesTo_round hw hb hlt hnp hx hto.reshaped ?_, hhalved⟩
    rw [Pivot.raised, setChild_other_join]
    exact hu'

/-! ## Straight chains -/

/-- **A straight chain is halved** by balancing its top, whatever the number of its nodes and
the number of characters that each of them owns. -/
theorem balanceSelf_straight {s : Side} {k : Size} {t : Tree} (hl : t.Leans s)
    (hu : t.Uniform k) (hk : 1 ≤ k.toNat) (hn : 1 ≤ t.size) (hfits : t.size * k.toNat < 2 ^ 63) :
    ∃ u m, t.balanceSelf = (u, .ok m) ∧ u.spans = t.spans ∧
      ((u.child .left).total.toNat - (u.child .right).total.toNat : Int).natAbs ≤ k.toNat := by
  have hw := hu.weighed hk (by omega)
  have hb : t.total.toNat < 2 ^ 63 := by rwa [hu.toNat_total hw]
  cases t with
  | nil => simp [size] at hn
  | node n l r =>
    obtain ⟨near, hform, hleans, -⟩ := hl.exists_join
    rw [hform] at hu hw hb ⊢
    rw [total_join] at hb
    obtain ⟨u, hto, hhalved⟩ := settlesTo_straight hleans (Nat.zero_le _) hu hk hw hb
    have hshape := hto.reshaped hw (by rwa [total_join])
    obtain ⟨m, hm⟩ := hto.balanceSelf hw (by rwa [total_join]) (by simp)
    exact ⟨u, m, hm, hshape.spans, hhalved.natAbs_le (hshape.uniform hu) (hshape.weighed hw)⟩

/-- Three nodes in a line own four characters each. Their weights differed by eight. -/
theorem balanceSelf_straight_line : line.Leans .right ∧ line.Uniform 4 ∧
    1 ≤ line.size ∧ line.size * 4 < 2 ^ 63 ∧
    ∃ u m, line.balanceSelf = (u, .ok m) ∧ u.spans = line.spans ∧
      ((u.child .left).total.toNat - (u.child .right).total.toNat : Int).natAbs ≤ 4 := by
  have hleans : line.Leans .right := ⟨rfl, rfl, rfl, trivial⟩
  have huniform : line.Uniform 4 := by decide
  have hsize : 1 ≤ line.size := by decide
  have hfits : line.size * 4 < 2 ^ 63 := by decide
  exact ⟨hleans, huniform, hsize, hfits,
    balanceSelf_straight hleans huniform (by decide) hsize hfits⟩

end Tree

end SpanTree
