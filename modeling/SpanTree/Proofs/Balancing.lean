/-
SpanTree.Proofs.Balancing — where balancing stops, and what it leaves.

`Tree.Poised` is the condition at one node under which balancing stops:
no single rotation there brings the weights strictly closer. It is
stated on weights; `SpanTree.Proofs.Fixpoint` says the same about the
rotations. `Tree.Settled` asks it of every node.

`balanceSelf_ok` is about one slot. The weight difference at the slot,
`Tree.tilt` up to its sign, falls with every rotation there; it never
exceeds the weight of the tree, which is the number of rotations allowed.
A rotation hands the inner grandchild over to the node that sinks, and
both subtrees of that node are settled when the two children were. So
balancing the node that sank restores what the rotation broke, and the
slot is left over two settled subtrees again.

What is proved about the loop, here and elsewhere, is proved by
`settle_induction`. It has a case for each way in which the loop ends,
and one for a round: the node that sank, and the slot after it.
-/
import SpanTree.Tree.Balance
import SpanTree.Proofs.Rotations

namespace SpanTree

namespace Tree

/-! ## The condition at a node -/

/-- Raising the child on a side would not bring the weights strictly
closer, if that is the heavier side. -/
def PoisedOn (s : Side) (t : Tree) : Prop :=
  (t.child s.other).total.toNat < (t.child s).total.toNat →
    2 * ((t.child s).child s).total.toNat + (t.child s).length.toNat ≤
      2 * (t.child s.other).total.toNat + t.length.toNat

/-- No single rotation at the top brings the weights strictly closer. -/
def Poised (t : Tree) : Prop := ∀ s, t.PoisedOn s

/-- No single rotation anywhere brings weights strictly closer. -/
def Settled : Tree → Prop
  | .nil => True
  | .node n l r => (Tree.node n l r).Poised ∧ l.Settled ∧ r.Settled

@[simp] theorem settled_nil : Settled .nil := trivial

theorem settled_join {s : Side} {n : Node} {near far : Tree} :
    (join s n near far).Settled ↔
      (join s n near far).Poised ∧ near.Settled ∧ far.Settled := by
  cases s
  · rfl
  · simp only [join, Settled, and_comm (a := near.Settled)]

theorem Settled.poised {t : Tree} (h : t.Settled) : t.Poised := by
  cases t with
  | nil => intro s; simp [PoisedOn, child]
  | node n l r => exact h.1

@[simp] theorem settled_setLink (link : Link) (t : Tree) :
    (t.setLink link).Settled ↔ t.Settled := by
  cases t <;> rfl

/-! ## Weight differences -/

section Tilt

variable {s : Side} {n a b : Node} {near far outer inner : Tree}

/-- The weight difference at a node, up to its sign. -/
theorem natAbs_tilt_join (h : (join s n near far).Weighed) (hb : n.data.total.toNat < 2 ^ 63) :
    (join s n near far).tilt.natAbs =
      ((near.total.toNat : Int) - far.total.toNat).natAbs := by
  rw [weighed_join] at h
  have hn : signed near.total = near.total.toNat := signed_of_lt (by omega)
  have hf : signed far.total = far.total.toNat := signed_of_lt (by omega)
  cases s <;> simp only [join, tilt, hn, hf]
  omega

/-- Where one child is heavier, that is the heavy side. -/
theorem heavySide_join (h : (join s n near far).Weighed) (hb : n.data.total.toNat < 2 ^ 63)
    (hlt : far.total.toNat < near.total.toNat) : (join s n near far).heavySide = some s := by
  rw [weighed_join] at h
  have hn : signed near.total = near.total.toNat := signed_of_lt (by omega)
  have hf : signed far.total = far.total.toNat := signed_of_lt (by omega)
  cases s <;> simp only [join, heavySide, tilt, hn, hf]
  · rw [if_neg (by omega), if_pos (by omega)]
  · rw [if_neg (by omega), if_neg (by omega)]

theorem toNat_length_join (h : (join s n near far).Weighed) :
    (join s n near far).length.toNat =
      n.data.total.toNat - near.total.toNat - far.total.toNat := by
  rw [weighed_join] at h
  cases s <;> simp only [join, length]
  · exact Node.toNat_length h.1
  · rw [Node.toNat_length (by omega)]
    omega

/-- The weight difference that a rotation leaves at the top. -/
theorem natAbs_tilt_raised (h : (join s a (join s b outer inner) far).Weighed)
    (hb : a.data.total.toNat < 2 ^ 63) :
    (Pivot.raised s ⟨a, b, outer, inner, far⟩).tilt.natAbs =
      ((a.data.total.toNat : Int) - b.data.total.toNat + inner.total.toNat
        - outer.total.toNat).natAbs := by
  have hw := (reshaped_raised h).weighed h
  have hsunk := toNat_sunk h
  rw [weighed_join, total_join] at h
  rw [Pivot.raised, natAbs_tilt_join hw (by simpa using hb), total_join, Node.withLink_total,
    Node.withTotal_total, hsunk]
  dsimp only
  omega

/-- The weight difference that balancing foresees is the one it gets. -/
theorem raisedTilt?_join (h : (join s a (join s b outer inner) far).Weighed)
    (hb : a.data.total.toNat < 2 ^ 63) :
    (join s a (join s b outer inner) far).raisedTilt? s =
      some ((a.data.total.toNat : Int) - b.data.total.toNat + inner.total.toNat
        - outer.total.toNat) := by
  simp only [weighed_join, total_join] at h
  have ha : signed a.data.total = a.data.total.toNat := signed_of_lt hb
  have hl : signed b.data.total = b.data.total.toNat := signed_of_lt (by omega)
  have hi : signed inner.total = inner.total.toNat := signed_of_lt (by omega)
  have ho : signed outer.total = outer.total.toNat := signed_of_lt (by omega)
  cases s <;> simp [join, raisedTilt?, ha, hl, hi, ho]

/-- Raising the heavier child brings the weights strictly closer exactly
where the condition on the weights fails. -/
theorem natAbs_tilt_raised_lt_iff (h : (join s a (join s b outer inner) far).Weighed)
    (hb : a.data.total.toNat < 2 ^ 63) (hlt : far.total.toNat < b.data.total.toNat) :
    (Pivot.raised s ⟨a, b, outer, inner, far⟩).tilt.natAbs <
        (join s a (join s b outer inner) far).tilt.natAbs ↔
      ¬ (join s a (join s b outer inner) far).PoisedOn s := by
  have hlow : (join s b outer inner).Weighed := by simpa using h.child s
  rw [natAbs_tilt_raised h hb, natAbs_tilt_join h hb, PoisedOn, child_join, child_other_join,
    child_join, toNat_length_join h, toNat_length_join hlow]
  simp only [weighed_join, total_join] at h ⊢
  omega

/-- A node is poised on its lighter side. -/
theorem poised_join_iff (hlt : far.total.toNat < near.total.toNat) :
    (join s n near far).Poised ↔ (join s n near far).PoisedOn s := by
  refine ⟨fun h => h s, fun h s' => ?_⟩
  rcases s.eq_or_eq_other s' with rfl | rfl
  · exact h
  · rw [PoisedOn, Side.other_other, child_join, child_other_join]
    omega

end Tilt

/-! ## One look at a slot -/

/-- What a look at a slot leads to that has a heavier child. -/
theorem improve_join {s : Side} {a b : Node} {outer inner far : Tree}
    (h : (join s a (join s b outer inner) far).Weighed) (hb : a.data.total.toNat < 2 ^ 63)
    (hlt : far.total.toNat < b.data.total.toNat) :
    (join s a (join s b outer inner) far).improve =
      if (Pivot.raised s ⟨a, b, outer, inner, far⟩).tilt.natAbs <
          (join s a (join s b outer inner) far).tilt.natAbs then
        .raised s (Pivot.raised s ⟨a, b, outer, inner, far⟩)
      else .none := by
  rw [improve, heavySide_join h hb (by simpa using hlt)]
  simp only [raisedTilt?_join h hb, rotateOwned_join h, natAbs_tilt_raised h hb]

/-- What a look at a weighed slot leads to: the slot is poised and stays
as it is, or a child is raised, which brings the weights strictly
closer. -/
theorem improve_cases {t : Tree} (h : t.Weighed) (hb : t.total.toNat < 2 ^ 63) :
    t.Poised ∧ t.improve = .none ∨
      ∃ s a b outer inner far, t = join s a (join s b outer inner) far ∧ ¬ t.Poised ∧
        t.improve = .raised s (Pivot.raised s ⟨a, b, outer, inner, far⟩) ∧
        (Pivot.raised s ⟨a, b, outer, inner, far⟩).tilt.natAbs < t.tilt.natAbs := by
  cases t with
  | nil => exact .inl ⟨Settled.poised trivial, rfl⟩
  | node n l r =>
    by_cases heq : l.total.toNat = r.total.toNat
    · have heq' : l.total = r.total := UInt64.toNat_inj.mp heq
      refine .inl ⟨fun s => ?_, by simp [improve, heavySide, tilt, heq']⟩
      cases s <;> simp [PoisedOn, child, Side.other, heq]
    · obtain ⟨s, near, far, ht, hlt⟩ :
          ∃ s near far, Tree.node n l r = join s n near far ∧
            far.total.toNat < near.total.toNat := by
        rcases Nat.lt_or_gt_of_ne heq with hlt | hlt
        · exact ⟨.right, r, l, rfl, hlt⟩
        · exact ⟨.left, l, r, rfl, hlt⟩
      rw [ht] at h ⊢
      rw [total_node] at hb
      cases near with
      | nil => simp at hlt
      | node b bl br =>
        obtain ⟨outer, inner, hj⟩ : ∃ outer inner, Tree.node b bl br = join s b outer inner := by
          cases s
          · exact ⟨bl, br, rfl⟩
          · exact ⟨br, bl, rfl⟩
        rw [hj] at h hlt ⊢
        rw [total_join] at hlt
        rw [improve_join h hb hlt]
        by_cases hp : (join s n (join s b outer inner) far).PoisedOn s
        · rw [if_neg (fun hc => (natAbs_tilt_raised_lt_iff h hb hlt).mp hc hp)]
          exact .inl ⟨(poised_join_iff (by simpa using hlt)).mpr hp, rfl⟩
        · have hc := (natAbs_tilt_raised_lt_iff h hb hlt).mpr hp
          rw [if_pos hc]
          exact .inr ⟨s, n, b, outer, inner, far, rfl, fun hp' => hp (hp' s), rfl, hc⟩

/-! ## Balancing at a slot -/

/-- The second tree is what balancing makes of the first, with a number
of rotations: another shape of it with a poised top, which stays settled
below if it was. No rotations are needed exactly where the top is poised
already, and then nothing changes. -/
structure BalancedTo (t u : Tree) (rotations : Nat) : Prop where
  reshaped : Reshaped t u
  poised : u.Poised
  settled : (∀ s, (t.child s).Settled) → u.Settled
  still : t.Poised → rotations = 0
  unchanged : rotations = 0 → u = t

/-- A poised tree is what balancing makes of it. -/
theorem BalancedTo.refl {t : Tree} (h : t.Poised) : BalancedTo t t 0 where
  reshaped := .refl t
  poised := h
  settled hs := by
    cases t with
    | nil => trivial
    | node n l r => exact ⟨h, hs .left, hs .right⟩
  still _ := rfl
  unchanged _ := rfl

@[simp] theorem setChild_other_join (s : Side) (n : Node) (near far c : Tree) :
    (join s n near far).setChild s.other c = join s n near c := by
  cases s <;> rfl

theorem isNil_of_size_eq {t u : Tree} (h : u.size = t.size) : u.isNil = t.isNil := by
  cases t <;> cases u <;> simp_all [size, isNil]

/-- The difference at a slot never exceeds its weight, so that the steps
that `balanceSelf` allows are enough. -/
theorem Weighed.natAbs_tilt_le {t : Tree} (h : t.Weighed) (hb : t.total.toNat < 2 ^ 63) :
    t.tilt.natAbs ≤ t.total.toNat := by
  cases t with
  | nil => simp [tilt]
  | node n l r =>
    have hj : (join .left n l r).tilt.natAbs = _ := natAbs_tilt_join h hb
    change (join .left n l r).tilt.natAbs ≤ n.data.total.toNat
    have := h.1
    omega

/-- On a slot whose node owns characters only the loop is left of balancing. -/
theorem Weighed.balanceSelf_eq {t : Tree} (h : t.Weighed) (ht : t.isNil = false) :
    t.balanceSelf = (settle t.total.toNat t).1 := by
  have hpos := h.own_pos ht
  have hne : t.length ≠ 0 := fun h0 => by simp [h0] at hpos
  simp [balanceSelf, balanceCheck, ht, hne]

/-- A rotation and the balancing of the node that sank are another shape
of the tree, with the weights that the rotation gave the slot. -/
theorem raised_settle {s : Side} {a b : Node} {outer inner far x : Tree}
    (h : (join s a (join s b outer inner) far).Weighed)
    (hb : a.data.total.toNat < 2 ^ 63)
    (hx : Reshaped ((Pivot.raised s ⟨a, b, outer, inner, far⟩).child s.other) x) :
    Reshaped (join s a (join s b outer inner) far)
        ((Pivot.raised s ⟨a, b, outer, inner, far⟩).setChild s.other x) ∧
      ((Pivot.raised s ⟨a, b, outer, inner, far⟩).setChild s.other x).tilt.natAbs =
        (Pivot.raised s ⟨a, b, outer, inner, far⟩).tilt.natAbs := by
  have hr := reshaped_raised h
  have hw := hr.weighed h
  simp only [Pivot.raised, child_other_join, setChild_other_join] at hx hr hw ⊢
  have hv := (Reshaped.refl outer).join s ((b.withTotal a.data.total).withLink a.link) hx
  refine ⟨hr.trans hv, ?_⟩
  rw [natAbs_tilt_join (hv.weighed hw) (by simpa using hb),
    natAbs_tilt_join hw (by simpa using hb), hx.total]

/-! ### The loop, case by case -/

theorem size_balanceSelf_le (t : Tree) : t.balanceSelf.1.size ≤ t.size := by
  unfold balanceSelf
  split
  · exact Nat.le_refl _
  · exact (settle _ _).2

/-- The loop as an induction: balancing the node that sank is a loop of its own, and the loop goes
on with whatever that leaves. -/
@[elab_as_elim]
theorem settle_induction {motive : Nat → Tree → Prop}
    (even : ∀ steps t, t.tilt = 0 → motive steps t)
    (spent : ∀ t, t.tilt ≠ 0 → motive 0 t)
    (still : ∀ rest t, t.tilt ≠ 0 → t.improve = .none → motive (rest + 1) t)
    (failed : ∀ rest t left f, t.tilt ≠ 0 → t.improve = .failed left f → motive (rest + 1) t)
    (raised : ∀ rest t s u x result, t.tilt ≠ 0 → t.improve = .raised s u →
      (u.child s.other).balanceSelf = (x, result) →
      motive (u.child s.other).total.toNat (u.child s.other) →
      motive rest (u.setChild s.other x) → motive (rest + 1) t)
    (steps : Nat) (t : Tree) : motive steps t := by
  by_cases ht : t.tilt = 0
  · exact even steps t ht
  cases steps with
  | zero => exact spent t ht
  | succ rest =>
    cases himp : t.improve with
    | none => exact still rest t ht himp
    | failed left f => exact failed rest t left f ht himp
    | raised s u =>
      have hr := rotateOwned_of_improve himp
      have hsize := size_of_rotateOwned hr
      have hlt := size_child_lt s.other (isNil_of_rotateOwned hr)
      obtain ⟨x, result, hx⟩ : ∃ x result, (u.child s.other).balanceSelf = (x, result) :=
        ⟨_, _, rfl⟩
      have hle : (u.setChild s.other x).size ≤ t.size := by
        rw [← hsize]
        exact size_setChild_le (by simpa only [hx] using size_balanceSelf_le (u.child s.other))
      exact raised rest t s u x result ht himp hx
        (settle_induction even spent still failed raised _ _)
        (settle_induction even spent still failed raised _ _)
termination_by (t.size, steps)
decreasing_by
  · exact Prod.Lex.left _ _ (hsize ▸ hlt)
  · rcases Nat.lt_or_eq_of_le hle with hless | heq
    · exact Prod.Lex.left _ _ hless
    · rw [heq]
      exact Prod.Lex.right _ (by omega)

/-- Where the weights are even nothing is done. -/
theorem settle_even (steps : Nat) {t : Tree} (ht : t.tilt = 0) :
    (settle steps t).1 = (t, .ok 0) := by
  rw [settle_eq, if_pos ht]

/-- Where no rotation is allowed any more the loop fails. -/
theorem settle_spent {t : Tree} (ht : t.tilt ≠ 0) :
    (settle 0 t).1 = (t, .error (.violation .noFixpoint)) := by
  rw [settle_eq, if_neg ht]

/-- Where no rotation helps nothing is done. -/
theorem settle_still {rest : Nat} {t : Tree} (ht : t.tilt ≠ 0) (himp : t.improve = .none) :
    (settle (rest + 1) t).1 = (t, .ok 0) := by
  rw [settle_eq, if_neg ht]
  simp only [himp]

/-- Where the rotation cannot be made the loop fails. -/
theorem settle_failed {rest : Nat} {t left : Tree} {f : Fault} (ht : t.tilt ≠ 0)
    (himp : t.improve = .failed left f) : (settle (rest + 1) t).1 = (left, .error f) := by
  rw [settle_eq, if_neg ht]
  simp only [himp]

/-- One round of the loop, whether or not the node that sank can be balanced. -/
theorem settle_round {rest : Nat} {s : Side} {t u x : Tree} {result : Except Fault Nat}
    (ht : t.tilt ≠ 0) (himp : t.improve = .raised s u)
    (hx : (u.child s.other).balanceSelf = (x, result)) :
    (settle (rest + 1) t).1 =
      match result with
      | .error e => (u.setChild s.other x, .error e)
      | .ok m =>
        ((settle rest (u.setChild s.other x)).1.1,
          (settle rest (u.setChild s.other x)).1.2.map (1 + m + ·)) := by
  obtain rfl : x = (u.child s.other).balanceSelf.1 := by rw [hx]
  have hresult : (u.child s.other).balanceSelf.2 = result := by rw [hx]
  rw [settle_eq, if_neg ht]
  simp only [himp, hresult]
  cases result <;> rfl

/-- One round of the loop: a child is raised, the node that sank is
balanced, and the loop goes on with one step fewer. -/
theorem settle_raised {rest m j : Nat} {s : Side} {t u x w : Tree} (ht : t.tilt ≠ 0)
    (himp : t.improve = .raised s u) (hx : (u.child s.other).balanceSelf = (x, .ok m))
    (hw : (settle rest (u.setChild s.other x)).1 = (w, .ok j)) :
    (settle (rest + 1) t).1 = (w, .ok (1 + m + j)) := by
  simp only [settle_round ht himp hx, hw, Except.map]

/-! ### The loop on weighed trees -/

/-- The loop of balancing at a slot, with as many steps as the weights at
the slot differ by. -/
theorem settle_ok (steps : Nat) (t : Tree) (hw : t.Weighed) (hb : t.total.toNat < 2 ^ 63)
    (hs : t.tilt.natAbs ≤ steps) :
    ∃ u n, (settle steps t).1 = (u, .ok n) ∧ BalancedTo t u n := by
  induction steps, t using settle_induction with
  | even steps t ht =>
    rcases improve_cases hw hb with ⟨hp, -⟩ | ⟨s, a, b, outer, inner, far, -, -, -, hlt⟩
    · exact ⟨t, 0, settle_even steps ht, .refl hp⟩
    · omega
  | spent t ht => omega
  | still rest t ht himp =>
    rcases improve_cases hw hb with ⟨hp, -⟩ | ⟨s, a, b, outer, inner, far, -, -, himp', -⟩
    · exact ⟨t, 0, settle_still ht himp, .refl hp⟩
    · cases himp.symm.trans himp'
  | failed rest t left f ht himp =>
    rcases improve_cases hw hb with ⟨-, himp'⟩ | ⟨s, a, b, outer, inner, far, -, -, himp', -⟩ <;>
      cases himp.symm.trans himp'
  | raised rest t s u x result ht himp hx below again =>
    rcases improve_cases hw hb with
      ⟨-, himp'⟩ | ⟨s', a, b, outer, inner, far, rfl, hnp, himp', hlt⟩
    · cases himp.symm.trans himp'
    obtain ⟨rfl, rfl⟩ := Improvement.raised.inj (himp.symm.trans himp')
    rw [total_join] at hb
    have hr := reshaped_raised hw
    -- the node that sank
    have hsw := (hr.weighed hw).child s.other
    have hst : ((Pivot.raised s ⟨a, b, outer, inner, far⟩).child s.other).total.toNat <
        2 ^ 63 := by
      have := hr.weighed hw
      simp only [Pivot.raised, weighed_join, child_other_join, Node.withLink_total,
        Node.withTotal_total] at this ⊢
      omega
    have hsn : ((Pivot.raised s ⟨a, b, outer, inner, far⟩).child s.other).isNil = false := by
      simp [Pivot.raised]
    obtain ⟨x', m, hx', hto⟩ := below hsw hst (hsw.natAbs_tilt_le hst)
    rw [← hsw.balanceSelf_eq hsn] at hx'
    obtain ⟨rfl, rfl⟩ := Prod.mk.inj (hx.symm.trans hx')
    -- the slot after it
    obtain ⟨hv, hvt⟩ := raised_settle hw hb hto.reshaped
    obtain ⟨w, j, hweq, hwb⟩ := again (hv.weighed hw) (by rw [hv.total]; simpa using hb)
      (by omega)
    refine ⟨w, 1 + m + j, settle_raised ht himp hx hweq, hv.trans hwb.reshaped, hwb.poised,
      fun hset => hwb.settled fun s' => ?_, fun hp => absurd hp hnp, fun h0 => by omega⟩
    have hnear : (join s b outer inner).Settled := by simpa using hset s
    have hfar : far.Settled := by simpa using hset s.other
    have hchildren := settled_join.mp hnear
    have hsettled : x.Settled := hto.settled fun s'' => by
      rcases s.eq_or_eq_other s'' with rfl | rfl <;>
        simp [Pivot.raised, hchildren.2.2, hfar]
    rcases s.eq_or_eq_other s' with rfl | rfl <;>
      simp [Pivot.raised, hchildren.2.1, hsettled]

/-- **Balancing at a slot** ends without a failure, and gives another
shape of the tree with a poised top. -/
theorem balanceSelf_ok {t : Tree} (hw : t.Weighed) (hb : t.total.toNat < 2 ^ 63)
    (ht : t.isNil = false) : ∃ u n, t.balanceSelf = (u, .ok n) ∧ BalancedTo t u n := by
  rw [hw.balanceSelf_eq ht]
  exact settle_ok _ t hw hb (hw.natAbs_tilt_le hb)

/-! ## Balancing everywhere -/

/-- The second tree is what balancing every slot makes of the first, with
a number of rotations. No rotations are needed exactly where the tree is
settled already, and then nothing changes. -/
structure SettledTo (t u : Tree) (rotations : Nat) : Prop where
  reshaped : Reshaped t u
  settled : u.Settled
  still : t.Settled → rotations = 0
  unchanged : rotations = 0 → u = t

/-- Balancing every slot ends without a failure and settles the tree. -/
theorem balanceAll_ok {t : Tree} (hw : t.Weighed) (hb : t.total.toNat < 2 ^ 63) :
    ∃ u n, t.balanceAll = (u, .ok n) ∧ SettledTo t u n := by
  induction t with
  | nil => exact ⟨.nil, 0, rfl, .refl _, trivial, fun _ => rfl, fun _ => rfl⟩
  | node n l r ihl ihr =>
    obtain ⟨hn, hwl, hwr⟩ := hw
    rw [total_node] at hb
    obtain ⟨l', i, hl, hL⟩ := ihl hwl (by omega)
    obtain ⟨r', j, hr, hR⟩ := ihr hwr (by omega)
    have hmid : Reshaped (.node n l r) (.node n l' r') := hL.reshaped.join .left n hR.reshaped
    obtain ⟨u, k, hu, hU⟩ := balanceSelf_ok (hmid.weighed ⟨hn, hwl, hwr⟩) hb rfl
    refine ⟨u, i + j + k, by simp only [balanceAll, hl, hr, hu], hmid.trans hU.reshaped,
      hU.settled fun s => by cases s <;> simp [child, hL.settled, hR.settled], fun h => ?_,
      fun h0 => ?_⟩
    · have hi := hL.still h.2.1
      have hj := hR.still h.2.2
      have hk := hU.still (by rw [hL.unchanged hi, hR.unchanged hj]; exact h.1)
      omega
    · rw [hU.unchanged (by omega), hL.unchanged (by omega), hR.unchanged (by omega)]

end Tree

end SpanTree
