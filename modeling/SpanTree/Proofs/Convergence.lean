/-
SpanTree.Proofs.Convergence — balancing at a slot always comes to rest.

The loop of `balanceSelf` looks at its slot, raises the heavier child if
that helps, balances the node that sank at a slot of its own, and looks
again. A `Pass` is one such look, and `Pass.Leads` goes from a look to
those that it makes necessary. A balancing that fails does so in one of
its passes (`exists_fails`), so that it is enough to speak about these.

`Pass.Sound` is what keeps a pass from failing: the tree is weighed and
light, and the slot is allowed at least as many rotations as its weights
differ by. Each rotation at the slot lowers both numbers, the difference
strictly, and the node that sank starts with an allowance of its own, its
weight. So soundness goes from pass to pass (`Sound.leads`).

Balancing is the one place where weights are compared as signed numbers.
`Tree.signedValues` lists those that a look computes.
-/
import Mathlib.Logic.Relation
import SpanTree.Proofs.Fixpoint

namespace SpanTree

open Relation (ReflTransGen)

/-! ## Signed numbers -/

namespace Tree

/-- The partial sums of the weight difference, up to its sign, that raising
the child on a side would give. -/
def foreseen (s : Side) : Tree → List Int
  | .nil => []
  | .node n l r =>
    match s.pick l r with
    | .nil => []
    | .node b bl br =>
      let sunk := signed n.data.total - signed b.data.total
      let handed := sunk + signed (s.pick br bl).total
      [sunk, handed, handed - signed (s.pick bl br).total]

/-- The last of the sums is the difference that balancing decides by. -/
theorem getLast?_foreseen (s : Side) (t : Tree) : (t.foreseen s).getLast? = t.raisedTilt? s := by
  cases t with
  | nil => rfl
  | node n l r =>
    simp only [foreseen, raisedTilt?]
    cases s.pick l r <;> rfl

/-- The signed numbers that a look at a slot computes: the weight
difference there, the sums of the one that raising the heavier child would
give, and the absolute values of these. -/
def signedValues (t : Tree) : List Int :=
  let sums := t.tilt :: t.heavySide.elim [] t.foreseen
  sums ++ sums.map fun n => (n.natAbs : Int)

/-- The sums of a foreseen difference are small. -/
theorem natAbs_foreseen_lt {t : Tree} (h : t.Weighed) (hb : t.total.toNat < 2 ^ 63) (s : Side) :
    ∀ n ∈ t.foreseen s, n.natAbs < 2 ^ 63 := by
  intro n hn
  cases hnil : (t.child s).isNil with
  | true =>
    cases t with
    | nil => simp [foreseen] at hn
    | node a l r =>
      cases s <;> cases l <;> cases r <;> simp_all [foreseen, child, isNil]
  | false =>
    obtain ⟨a, b, outer, inner, far, rfl⟩ := exists_join hnil
    rw [total_join] at hb
    simp only [weighed_join, total_join] at h
    have ha : signed a.data.total = a.data.total.toNat := signed_of_lt hb
    have hl : signed b.data.total = b.data.total.toNat := signed_of_lt (by omega)
    have hi : signed inner.total = inner.total.toNat := signed_of_lt (by omega)
    have ho : signed outer.total = outer.total.toNat := signed_of_lt (by omega)
    cases s <;> simp [join, foreseen, ha, hl, hi, ho] at hn <;> omega

/-- No signed number of a look leaves the range of a signed word. -/
theorem signedValues_inRange {t : Tree} (h : t.Weighed) (hb : t.total.toNat < 2 ^ 63) :
    ∀ n ∈ t.signedValues, -2 ^ 63 ≤ n ∧ n < 2 ^ 63 := by
  have hsums : ∀ n ∈ t.tilt :: t.heavySide.elim [] t.foreseen, n.natAbs < 2 ^ 63 := by
    intro n hn
    rcases List.mem_cons.mp hn with rfl | hn
    · have := h.natAbs_tilt_le hb
      omega
    · cases hs : t.heavySide with
      | none => simp [hs] at hn
      | some s =>
        rw [hs] at hn
        exact natAbs_foreseen_lt h hb s n hn
  intro n hn
  rcases List.mem_append.mp hn with hn | hn
  · have := hsums n hn
    omega
  · obtain ⟨m, hm, rfl⟩ := List.mem_map.mp hn
    have := hsums m hm
    omega

/-! ## One rotation -/

/-- A rotation that balancing makes, with what it does to the slot: it brings
the weights strictly closer, and they stay as close when the node that sank
is exchanged for another shape of it. -/
structure Closer (t : Tree) (s : Side) (u : Tree) : Prop where
  reshaped : Reshaped t u
  closer : u.tilt.natAbs < t.tilt.natAbs
  sunk : (u.child s.other).isNil = false
  light : (u.child s.other).total.toNat < 2 ^ 63
  exchange : ∀ x, Reshaped (u.child s.other) x →
    Reshaped t (u.setChild s.other x) ∧ (u.setChild s.other x).tilt.natAbs = u.tilt.natAbs

theorem closer_of_improve {t u : Tree} {s : Side} (h : t.Weighed) (hb : t.total.toNat < 2 ^ 63)
    (hr : t.improve = .raised s u) : t.Closer s u := by
  rcases improve_cases h hb with ⟨-, hnone⟩ | ⟨s', a, b, outer, inner, far, rfl, -, himp, hlt⟩
  · rw [hnone] at hr
    cases hr
  · rw [himp] at hr
    obtain ⟨rfl, rfl⟩ : s' = s ∧ Pivot.raised s' ⟨a, b, outer, inner, far⟩ = u := by
      simpa using hr
    rw [total_join] at hb
    have hkept := reshaped_raised h
    have hsunk := toNat_sunk h
    refine ⟨hkept, hlt, by simp [Pivot.raised], ?_, fun x hx => raised_settle h hb hx⟩
    simp only [weighed_join, total_join] at h
    simp only [Pivot.raised, child_other_join, total_join, Node.withLink_total,
      Node.withTotal_total, hsunk]
    omega

end Tree

/-! ## Passes -/

/-- A look at a slot: what the slot holds, and how many rotations are still
allowed there. -/
structure Pass where
  tree : Tree
  allowed : Nat

namespace Pass

/-- The first look at a slot. As many rotations are allowed there as the tree
weighs. -/
def first (t : Tree) : Pass := ⟨t, t.total.toNat⟩

/-- A child was raised, and the node that sank is looked at in its slot. -/
inductive Below : Pass → Pass → Prop
  | intro {t u : Tree} {s : Side} {rest : Nat} (raised : t.improve = .raised s u) :
    Below ⟨t, rest + 1⟩ (first (u.child s.other))

/-- A child was raised, the node that sank is balanced, and the slot is looked
at again, with one rotation less. -/
inductive Again : Pass → Pass → Prop
  | intro {t u x : Tree} {s : Side} {rest m : Nat} (raised : t.improve = .raised s u)
    (balanced : (u.child s.other).balanceSelf = (x, .ok m)) :
    Again ⟨t, rest + 1⟩ ⟨u.setChild s.other x, rest⟩

/-- A look makes another one necessary. -/
def Leads (p q : Pass) : Prop := p.Below q ∨ p.Again q

/-- A look fails: the slot holds no node that owns characters, the weights
differ and no rotation is allowed any more, or the rotation cannot be made. -/
inductive Fails (p : Pass) : Fault → Prop
  | unfit {f : Fault} (check : p.tree.balanceCheck = .error f) : Fails p f
  | exhausted (uneven : p.tree.tilt ≠ 0) (none : p.allowed = 0) :
    Fails p (.violation .noFixpoint)
  | stuck {f : Fault} {left : Tree} (failed : p.tree.improve = .failed left f) : Fails p f

end Pass

namespace Tree

/-- A balancing at a slot that fails after the check at the start fails in
its loop. -/
theorem exists_fails_of_settle {f : Fault} (steps : Nat) (t : Tree)
    (h : (settle steps t).1.2 = .error f) :
    ∃ q, ReflTransGen Pass.Leads ⟨t, steps⟩ q ∧ q.Fails f := by
  induction steps, t using settle_induction with
  | even steps t ht =>
    rw [settle_even steps ht] at h
    cases h
  | spent t ht =>
    rw [settle_spent ht, Except.error.injEq] at h
    exact ⟨_, .refl, h ▸ .exhausted ht rfl⟩
  | still rest t ht himp =>
    rw [settle_still ht himp] at h
    cases h
  | failed rest t left e ht himp =>
    rw [settle_failed ht himp, Except.error.injEq] at h
    exact ⟨_, .refl, h ▸ .stuck himp⟩
  | raised rest t s u x result ht himp hx below again =>
    rw [settle_round ht himp hx] at h
    cases result with
    | error e =>
      -- the node that sank was not balanced
      obtain rfl := Except.error.inj h
      suffices hq : ∃ q, ReflTransGen Pass.Leads (.first (u.child s.other)) q ∧ q.Fails e by
        obtain ⟨q, hrun, hfails⟩ := hq
        exact ⟨q, .head (.inl (.intro himp)) hrun, hfails⟩
      unfold balanceSelf at hx
      split at hx
      · next e' hcheck =>
        obtain rfl : e' = e := by simpa using congrArg Prod.snd hx
        exact ⟨_, .refl, .unfit hcheck⟩
      · exact below (congrArg Prod.snd hx)
    | ok m =>
      obtain ⟨q, hrun, hfails⟩ := again (eq_error_of_map h)
      exact ⟨q, .head (.inr (.intro himp hx)) hrun, hfails⟩

/-- **A balancing that fails** does so in one of its passes. -/
theorem exists_fails {t : Tree} {f : Fault} (h : t.balanceSelf.2 = .error f) :
    ∃ q, ReflTransGen Pass.Leads (.first t) q ∧ q.Fails f := by
  unfold balanceSelf at h
  split at h
  · next e hcheck =>
    obtain rfl : e = f := by simpa using h
    exact ⟨_, .refl, .unfit hcheck⟩
  · exact exists_fails_of_settle _ _ h

end Tree

/-! ## Sound passes -/

namespace Pass

/-- A pass that cannot fail: the slot holds a weighed and light tree, and is
allowed as many rotations as its weights differ by. -/
structure Sound (p : Pass) : Prop where
  weighed : p.tree.Weighed
  light : p.tree.total.toNat < 2 ^ 63
  filled : p.tree.isNil = false
  allowed : p.tree.tilt.natAbs ≤ p.allowed

variable {p q : Pass}

/-- The first look at a light slot is sound. -/
theorem sound_first {t : Tree} (h : t.Weighed) (hb : t.total.toNat < 2 ^ 63)
    (ht : t.isNil = false) : (first t).Sound :=
  ⟨h, hb, ht, h.natAbs_tilt_le hb⟩

/-- The slot is looked at again with its weights strictly closer, by as much
as the rotation brought them. -/
theorem Sound.again (hp : p.Sound) (h : p.Again q) :
    q.Sound ∧ q.tree.tilt.natAbs < p.tree.tilt.natAbs := by
  obtain ⟨hraised, hbalanced⟩ := h
  obtain ⟨hw, hb, hfilled, hallowed⟩ := hp
  obtain ⟨hkept, hcloser, hsunk, hlight, hexchange⟩ := Tree.closer_of_improve hw hb hraised
  obtain ⟨x, m, hx, hto⟩ := Tree.balanceSelf_ok ((hkept.weighed hw).child _) hlight hsunk
  obtain ⟨rfl, -⟩ := Prod.mk.inj (hx.symm.trans hbalanced)
  obtain ⟨hall, htilt⟩ := hexchange x hto.reshaped
  have hnil := Tree.isNil_of_size_eq hall.size
  dsimp only at *
  exact ⟨⟨hall.weighed hw, hall.total ▸ hb, hnil.trans hfilled, by dsimp only; omega⟩, by omega⟩

/-- The node that sank is looked at in a sound pass. -/
theorem Sound.below (hp : p.Sound) (h : p.Below q) : q.Sound := by
  obtain ⟨hraised⟩ := h
  have hcloser := Tree.closer_of_improve hp.weighed hp.light hraised
  exact sound_first ((hcloser.reshaped.weighed hp.weighed).child _) hcloser.light hcloser.sunk

/-- **One pass leads to another**, and stays sound. -/
theorem Sound.leads (hp : p.Sound) (h : p.Leads q) : q.Sound := by
  rcases h with h | h
  · exact hp.below h
  · exact (hp.again h).1

/-- All passes of a balancing are sound. -/
theorem Sound.run (hp : p.Sound) (h : ReflTransGen Leads p q) : q.Sound := by
  induction h with
  | refl => exact hp
  | tail _ hstep ih => exact ih.leads hstep

/-- What holds in a pass. It does not fail: the slot holds a node that owns
characters, a rotation is still allowed where the weights differ, and it can
be made. The heavier child is there, no check of a rotation of a child that is
there fails, and no signed number leaves its range. A rotation at the slot
brings its weights strictly closer, and so they are when the slot is looked at
again. -/
structure Safe (p : Pass) : Prop where
  never : ∀ f, ¬ p.Fails f
  present : ∀ s, p.tree.heavySide = some s → (p.tree.child s).isNil = false
  rotates : ∀ s, (p.tree.child s).isNil = false → ∃ u, p.tree.rotateOwned s = .ok u
  inRange : ∀ n ∈ p.tree.signedValues, -2 ^ 63 ≤ n ∧ n < 2 ^ 63
  closer : ∀ s u, p.tree.improve = .raised s u → u.tilt.natAbs < p.tree.tilt.natAbs
  again : ∀ q, p.Again q → q.tree.tilt.natAbs < p.tree.tilt.natAbs

/-- A sound pass does not fail. -/
theorem Sound.not_fails (hp : p.Sound) (f : Fault) : ¬ p.Fails f := by
  obtain ⟨hw, hb, hfilled, hallowed⟩ := hp
  intro hfails
  cases hfails with
  | unfit hcheck =>
    have hpos := hw.own_pos hfilled
    have hne : p.tree.length ≠ 0 := fun h0 => by simp [h0] at hpos
    simp [Tree.balanceCheck, hfilled, hne] at hcheck
  | exhausted huneven hnone => omega
  | stuck hfailed =>
    rcases Tree.improve_cases hw hb with ⟨-, hstill⟩ | ⟨_, _, _, _, _, _, -, -, hraised, -⟩
    · rw [hstill] at hfailed
      cases hfailed
    · rw [hraised] at hfailed
      cases hfailed

/-- A child that is heavier is there. -/
theorem Sound.present (hp : p.Sound) {s : Side} (h : p.tree.heavySide = some s) :
    (p.tree.child s).isNil = false := by
  obtain ⟨hw, hb, -, -⟩ := hp
  cases ht : p.tree with
  | nil => simp [ht, Tree.heavySide, Tree.tilt] at h
  | node n l r =>
    rw [ht] at hw hb h
    have hn := hw.1
    rw [Tree.total_node] at hb
    have hl : signed l.total = l.total.toNat := signed_of_lt (by omega)
    have hr : signed r.total = r.total.toNat := signed_of_lt (by omega)
    simp only [Tree.heavySide, Tree.tilt, hl, hr] at h
    cases s with
    | left =>
      cases l with
      | nil => simp at h
      | node => rfl
    | right =>
      cases r with
      | nil => simp at h
      | node => rfl

/-- **A sound pass** is safe. -/
theorem Sound.safe (hp : p.Sound) : p.Safe where
  never := hp.not_fails
  present _ := hp.present
  rotates s hs := by
    obtain ⟨a, b, outer, inner, far, ht⟩ := Tree.exists_join hs
    have hw := hp.weighed
    rw [ht] at hw ⊢
    exact ⟨_, Tree.rotateOwned_join hw⟩
  inRange := Tree.signedValues_inRange hp.weighed hp.light
  closer _ _ hraised := (Tree.closer_of_improve hp.weighed hp.light hraised).closer
  again _ h := (hp.again h).2

end Pass

/-! ## Balancing at a slot -/

namespace Run

/-- Balancing at the top of the tree at a place plants what balancing the tree gives. -/
theorem exec_balanceSelf {f : Forest} {p : Place} {u w : Tree} {r : Except Fault Nat}
    (h : f.tree p = u) (hu : u.balanceSelf = (w, r)) :
    exec (balanceSelf p) f = (r, f.plant w p) := by
  rw [balanceSelf, exec_bind_ok (exec_get f), h, hu, exec_conclude]

end Run

namespace Tree

/-- **Balancing at a slot converges**, whatever the shape of the tree and of
its subtrees. It ends without a failure and keeps the spans, the weight and
the link at the top, and no rotation at the slot would then bring its weights
strictly closer. All its passes are safe, those at the slots of nodes that
sank included, and no balancing can fail elsewhere than in a pass. -/
theorem balanceSelf_converges {t : Tree} (h : t.WellFormed) (hb : t.total.toNat < 2 ^ 63)
    (ht : t.isNil = false) :
    ∃ u n, t.balanceSelf = (u, .ok n) ∧
      u.spans = t.spans ∧ u.total = t.total ∧ u.link? = t.link? ∧ u.WellFormed ∧
      (∀ s w, u.rotateOwned s = .ok w → u.tilt.natAbs ≤ w.tilt.natAbs) ∧
      (∀ q, ReflTransGen Pass.Leads (.first t) q → q.Safe) ∧
      (∀ v f, v.balanceSelf.2 = .error f →
        ∃ q, ReflTransGen Pass.Leads (.first v) q ∧ q.Fails f) ∧
      ∀ (f : Forest) (p : Place), f.tree p = t →
        exec (Run.balanceSelf p) f = (.ok n, f.plant u p) := by
  obtain ⟨u, n, hu, hto⟩ := balanceSelf_ok h.weighed hb ht
  have hkept := hto.reshaped
  have hrest := (poised_iff (hkept.weighed h.weighed) (hkept.total ▸ hb)).mp hto.poised
  have hfirst := Pass.sound_first h.weighed hb ht
  refine ⟨u, n, hu, hkept.spans, hkept.total, hkept.link, hkept.wellFormed h, hrest, ?_, ?_, ?_⟩
  · intro q hrun
    exact (hfirst.run hrun).safe
  · intro v f hv
    exact exists_fails hv
  · intro f p hp
    exact Run.exec_balanceSelf hp hu

/-- Five nodes, the heavy one at the end of a line to the left, with a turn
that goes with the node that sinks. -/
def elbow : Tree :=
  .node { id := 0, data := { total := 20 } }
    (.node { id := 1, link := .node 0, data := { total := 19 } }
      (.node { id := 2, link := .node 1, data := { total := 10 } } .nil .nil)
      (.node { id := 3, link := .node 1, data := { total := 8 } }
        (.node { id := 4, link := .node 3, data := { total := 7 } } .nil .nil) .nil))
    .nil

theorem elbow_wellFormed : elbow.WellFormed := by
  refine ⟨?_, ?_, by decide⟩
  · simp only [elbow, Weighed]
    decide
  · simp only [elbow, Linked]
    decide

/-- Balancing straightens the elbow. -/
theorem balanceSelf_converges_elbow : elbow.WellFormed ∧ elbow.total.toNat < 2 ^ 63 ∧
    elbow.isNil = false ∧ ∃ u n, elbow.balanceSelf = (u, .ok n) ∧ u ≠ elbow ∧
      u.spans = elbow.spans ∧ ∀ q, ReflTransGen Pass.Leads (.first elbow) q → q.Safe := by
  have hlight : elbow.total.toNat < 2 ^ 63 := by decide
  have hcloser : ∃ w, elbow.rotateOwned .left = .ok w ∧ w.tilt.natAbs < elbow.tilt.natAbs :=
    ⟨_, rfl, by decide⟩
  obtain ⟨u, n, hu, hspans, -, -, -, hrest, hsafe, -⟩ :=
    balanceSelf_converges elbow_wellFormed hlight rfl
  refine ⟨elbow_wellFormed, hlight, rfl, u, n, hu, ?_, hspans, hsafe⟩
  rintro rfl
  obtain ⟨w, hw, hlt⟩ := hcloser
  have := hrest _ w hw
  omega

end Tree

end SpanTree
