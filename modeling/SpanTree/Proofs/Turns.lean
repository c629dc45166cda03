/-
SpanTree.Proofs.Turns — the rotations that a balancing at a slot makes.

A balancing gives the number of its rotations, and no more. Here they are
listed. A `Turn` is one owned rotation at a place of a tree, and `Turned`
chains such rotations: each is made in the whole tree that the one before
has left.

`Settles` is the loop of `balanceSelf` as a relation. It has one rule for
each way in which the loop goes on, and it collects the turns in the order
in which they are made, those at the slots of nodes that sank included.
The loop and the relation give the same trees, and the number that the
loop gives is the number of turns (`balanceSelf_eq_ok_iff`). All turns are made at
the slot or below it (`Settles.suffix`).
-/
import SpanTree.Proofs.Convergence

namespace SpanTree

/-! ## Turns -/

/-- An owned rotation: the way from the place where it is made to the top of the tree, the side of
the child that is raised, and what is at the place before and after. -/
structure Turn where
  path : Path
  side : Side
  before : Tree
  after : Tree
  rotates : before.rotateOwned side = .ok after

/-- Owned rotations one after the other, from a whole tree to another. -/
inductive Turned : Tree → List Turn → Tree → Prop
  | refl (t : Tree) : Turned t [] t
  | turn (r : Turn) {turns : List Turn} {u : Tree}
    (rest : Turned (Path.plug r.path r.after) turns u) :
    Turned (Path.plug r.path r.before) (r :: turns) u

namespace Turned

variable {t u v : Tree} {a b turns : List Turn}

theorem trans (h : Turned t a u) (h' : Turned u b v) : Turned t (a ++ b) v := by
  induction h with
  | refl t => exact h'
  | turn r rest ih => exact .turn r (ih h')

/-- Each turn leaves another shape of a weighed tree. -/
theorem reshaped (h : Turned t turns u) (hw : t.Weighed) :
    Tree.Reshaped t u ∧ ∀ r ∈ turns, Tree.Reshaped t (Path.plug r.path r.after) := by
  induction h with
  | refl t => exact ⟨.refl t, by simp⟩
  | @turn r turns u rest ih =>
    have hbefore := (Path.weighed_plug.mp hw).1
    have hstep : Tree.Reshaped (Path.plug r.path r.before) (Path.plug r.path r.after) := by
      obtain ⟨path, s, before, after, hrotates⟩ := r
      obtain ⟨n, m, outer, inner, far, rfl⟩ :=
        Tree.exists_join (Tree.isNil_child_of_rotateOwned hrotates)
      rw [Tree.rotateOwned_join hbefore, Except.ok.injEq] at hrotates
      subst hrotates
      exact Path.reshaped_plug path (Tree.reshaped_raised hbefore)
    obtain ⟨hlast, hall⟩ := ih (hstep.weighed hw)
    refine ⟨hstep.trans hlast, fun q hq => ?_⟩
    rcases List.mem_cons.mp hq with rfl | hq
    · exact hstep
    · exact hstep.trans (hall q hq)

end Turned

/-! ## The loop at a slot -/

/-- The loop of balancing at a slot, with the turns that it makes: one at the slot, those that
balance the node that sank, and so on until no rotation at the slot helps. -/
inductive Settles : Path → Nat → Tree → List Turn → Tree → Prop
  | still {path : Path} {steps : Nat} {t : Tree} (still : t.improve = .none)
    (allowed : t.tilt = 0 ∨ 0 < steps) : Settles path steps t [] t
  | turn {path : Path} {rest : Nat} {t u x v : Tree} {s : Side} {sunk : Spot} {a b : List Turn}
    (raised : t.improve = .raised s u) (down : Spot.down? ⟨u, path⟩ s.other = some sunk)
    (check : sunk.tree.balanceCheck = .ok ())
    (below : Settles sunk.path sunk.tree.total.toNat sunk.tree a x)
    (again : Settles path rest (u.setChild s.other x) b v) :
    Settles path (rest + 1) t (⟨path, s, t, u, Tree.rotateOwned_of_improve raised⟩ :: (a ++ b)) v

/-- Balancing at a slot, with the turns that it makes. -/
structure BalancesWith (path : Path) (t : Tree) (turns : List Turn) (u : Tree) : Prop where
  check : t.balanceCheck = .ok ()
  loop : Settles path t.total.toNat t turns u

/-- What is below a spot on a side, and what the whole tree is with something else there. -/
theorem Spot.down?_eq_some {u : Tree} {path : Path} {s : Side} {q : Spot}
    (h : Spot.down? ⟨u, path⟩ s = some q) :
    q.tree = u.child s ∧ path <:+ q.path ∧ q.toTree = Path.plug path u ∧
      ∀ x, Path.plug q.path x = Path.plug path (u.setChild s x) := by
  cases u with
  | nil => cases h
  | node n l r =>
    obtain rfl := Option.some.inj h
    refine ⟨rfl, List.suffix_cons _ _, ?_, fun x => ?_⟩
    · cases s <;> rfl
    · cases s <;> rfl

theorem Spot.exists_down {u : Tree} (path : Path) (s : Side) (h : u.isNil = false) :
    ∃ q, Spot.down? ⟨u, path⟩ s = some q ∧ q.tree = u.child s := by
  cases u with
  | nil => cases h
  | node n l r => exact ⟨_, rfl, rfl⟩

namespace Settles

variable {path : Path} {steps : Nat} {t u : Tree} {turns : List Turn}

/-- The turns lead from the whole tree to the one that is left. -/
theorem turned (h : Settles path steps t turns u) :
    Turned (Path.plug path t) turns (Path.plug path u) := by
  induction h with
  | still => exact .refl _
  | turn raised down check below again ihbelow ihagain =>
    obtain ⟨-, -, htop, hset⟩ := Spot.down?_eq_some down
    rw [← Spot.toTree, htop, hset] at ihbelow
    exact .turn ⟨_, _, _, _, Tree.rotateOwned_of_improve raised⟩ (ihbelow.trans ihagain)

/-- All turns are made at the slot or below it. -/
theorem suffix (h : Settles path steps t turns u) : ∀ r ∈ turns, path <:+ r.path := by
  induction h with
  | still => simp
  | turn raised down check below again ihbelow ihagain =>
    obtain ⟨-, hsuffix, -⟩ := Spot.down?_eq_some down
    intro r hr
    rcases List.mem_cons.mp hr with rfl | hr
    · exact List.suffix_rfl
    · rcases List.mem_append.mp hr with hr | hr
      · exact hsuffix.trans (ihbelow r hr)
      · exact ihagain r hr

end Settles

namespace Tree

/-- A rotation is tried only where the weights differ. -/
theorem tilt_ne_zero_of_raised {t u : Tree} {s : Side} (h : t.improve = .raised s u) :
    t.tilt ≠ 0 := by
  intro ht
  simp [improve, heavySide, ht] at h

/-- What the relation says the loop does. -/
theorem settle_of_settles {path : Path} {steps : Nat} {t u : Tree} {turns : List Turn}
    (h : Settles path steps t turns u) : (settle steps t).1 = (u, .ok turns.length) := by
  induction h with
  | @still path steps t still allowed =>
    by_cases ht : t.tilt = 0
    · exact settle_even steps ht
    · obtain ⟨rest, rfl⟩ := Nat.exists_eq_succ_of_ne_zero
        (Nat.pos_iff_ne_zero.mp (allowed.resolve_left ht))
      exact settle_still ht still
  | @turn path rest t u x v s sunk a b raised down check below again ihbelow ihagain =>
    obtain ⟨hsunk, -⟩ := Spot.down?_eq_some down
    have hx : (u.child s.other).balanceSelf = (x, .ok a.length) := by
      rw [← hsunk, balanceSelf, check, ihbelow]
    rw [settle_raised (tilt_ne_zero_of_raised raised) raised hx ihagain, List.length_cons,
      List.length_append]
    congr 2
    omega

/-- After its check a balancing is the loop. -/
theorem settle_of_balanceSelf {t u : Tree} {n : Nat} (h : t.balanceSelf = (u, .ok n)) :
    t.balanceCheck = .ok () ∧ (settle t.total.toNat t).1 = (u, .ok n) := by
  unfold balanceSelf at h
  split at h
  · cases (Prod.mk.inj h).2
  · next hcheck => exact ⟨hcheck, h⟩

/-- What the loop does the relation says. -/
theorem settles_of_settle {n : Nat} {v : Tree} (path : Path) (steps : Nat) (t : Tree)
    (h : (settle steps t).1 = (v, .ok n)) :
    ∃ turns, Settles path steps t turns v ∧ turns.length = n := by
  induction steps, t using settle_induction generalizing path n v with
  | even steps t ht =>
    obtain ⟨rfl, hn⟩ := Prod.mk.inj ((settle_even steps ht).symm.trans h)
    have himp : t.improve = .none := by simp [improve, heavySide, ht]
    exact ⟨[], .still himp (.inl ht), Except.ok.inj hn⟩
  | spent t ht => cases (settle_spent ht).symm.trans h
  | still rest t ht himp =>
    obtain ⟨rfl, hn⟩ := Prod.mk.inj ((settle_still ht himp).symm.trans h)
    exact ⟨[], .still himp (.inr (Nat.succ_pos rest)), Except.ok.inj hn⟩
  | failed rest t left f ht himp => cases (settle_failed ht himp).symm.trans h
  | raised rest t s u x result ht himp hx below again =>
    rw [settle_round ht himp hx] at h
    cases result with
    | error e => cases (Prod.mk.inj h).2
    | ok m =>
      have hnil := isNil_of_rotateOwned (rotateOwned_of_improve himp)
      obtain ⟨sunk, hdown, hsunk⟩ := Spot.exists_down path s.other hnil
      -- the node that sank
      obtain ⟨hcheck, hsettle⟩ := settle_of_balanceSelf hx
      obtain ⟨a, ha, rfl⟩ := below sunk.path hsettle
      -- the slot after it
      cases hlast : (settle rest (u.setChild s.other x)).1 with
      | mk w last =>
        cases last with
        | error e => simp [hlast, Except.map] at h
        | ok j =>
          simp only [hlast, Except.map, Prod.mk.injEq, Except.ok.injEq] at h
          obtain ⟨rfl, rfl⟩ := h
          obtain ⟨b, hb, rfl⟩ := again path hlast
          rw [← hsunk] at hcheck ha
          refine ⟨_, .turn himp hdown hcheck ha hb, ?_⟩
          rw [List.length_cons, List.length_append]
          omega

/-- **The turns of a balancing.** Balancing at a slot gives a tree and a number exactly where so
many turns lead to the tree. -/
theorem balanceSelf_eq_ok_iff {t u : Tree} {n : Nat} (path : Path) :
    t.balanceSelf = (u, .ok n) ↔ ∃ turns, BalancesWith path t turns u ∧ turns.length = n := by
  constructor
  · intro h
    obtain ⟨hcheck, hsettle⟩ := settle_of_balanceSelf h
    obtain ⟨turns, hturns, hn⟩ := settles_of_settle path _ _ hsettle
    exact ⟨turns, ⟨hcheck, hturns⟩, hn⟩
  · rintro ⟨turns, ⟨hcheck, hturns⟩, rfl⟩
    rw [balanceSelf, hcheck]
    exact settle_of_settles hturns

end Tree

end SpanTree
