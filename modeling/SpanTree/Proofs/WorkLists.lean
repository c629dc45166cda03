/-
SpanTree.Proofs.WorkLists — the walk over pending slots is the recursion.

`Tree.balance` keeps a list of slots and replaces what they hold while
others are pending. `balance_eq_balanceAll` says that on a well-formed
tree it ends with the same tree and the same number of rotations as
`Tree.balanceAll`.

A path has one slot, the place that its subtree hangs in (`Path.slot`).
The induction is on the subtree in a slot: taking up the slot's entry,
and all entries that this puts before the others, leaves the walk at the
balanced subtree with the same path (`run_slot`). The walk then stands
below the node whose slot comes next, and climbs; distinct identities
make sure that it stops at the right node.
-/
import SpanTree.Tree.WorkList
import SpanTree.Proofs.Balancing
import SpanTree.Proofs.Paths

namespace SpanTree

/-- The place in which the subtree of a path hangs. -/
def Path.slot : Path → Slot
  | [] => .top
  | b :: _ => .child b.holder.id b.side

namespace Spot

theorem climbFrom_of_id? {id : NodeId} {t : Tree} (h : t.id? = some id) (path : Path) :
    climbFrom id t path = some ⟨t, path⟩ := by
  cases path <;> simp [climbFrom, h]

/-- The walk stands at a node or just below it: climbing leads to the
node, and what hangs in the slot of the node's path is the node. -/
structure Near (p : Spot) (t : Tree) (path : Path) : Prop where
  climb : ∀ id, t.id? = some id → climbFrom id p.tree p.path = some ⟨t, path⟩
  visit : p.visit? path.slot = some ⟨t, path⟩

/-- Standing at a node. -/
theorem near_self {t : Tree} {path : Path} (h : ∀ id ∈ t.ids, id ∉ path.map (·.holder.id)) :
    Near ⟨t, path⟩ t path where
  climb id hid := climbFrom_of_id? hid path
  visit := by
    cases path with
    | nil => rfl
    | cons c rest =>
      have ht : t.id? ≠ some c.holder.id := fun hc =>
        h _ (Tree.id_mem_ids_of_id? hc) (by simp)
      obtain ⟨side, holder, sibling⟩ := c
      rw [Path.slot, visit?, climbFrom, if_neg ht, climbFrom_of_id? (Crumb.id?_attach _ _)]
      cases side <;> rfl

/-- Standing at a child of a node. -/
theorem near_below {t : Tree} {b : Crumb} {path : Path}
    (h : ∀ id ∈ t.ids, id ∉ (b :: path).map (·.holder.id))
    (hb : ∀ id ∈ (b.attach t).ids, id ∉ path.map (·.holder.id)) :
    Near ⟨t, b :: path⟩ (b.attach t) path where
  climb id hid := by
    rw [Crumb.id?_attach, Option.some.injEq] at hid
    have ht : t.id? ≠ some id := fun hc =>
      h _ (Tree.id_mem_ids_of_id? hc) (by simp [hid])
    rw [climbFrom, if_neg ht, climbFrom_of_id? (by simp [hid])]
  visit := by
    rw [← (near_self hb).visit]
    cases path with
    | nil => rfl
    | cons c rest =>
      have ht : t.id? ≠ some c.holder.id := fun hc =>
        h _ (Tree.id_mem_ids_of_id? hc) (by simp)
      simp [visit?, Path.slot, climbFrom, ht]

/-- From near a node the walk gets to each of its sides. -/
theorem Near.visit_child {p : Spot} {s : Side} {n : Node} {near far : Tree} {path : Path}
    (h : Near p (.join s n near far) path) :
    p.visit? (.child n.id s) = some ⟨near, ⟨s, n, far⟩ :: path⟩ := by
  rw [visit?, h.climb n.id (by cases s <;> rfl)]
  cases s <;> rfl

end Spot

namespace Path

/-- The holders of a path are nodes of the tree, beside those of the subtree. -/
theorem disjoint_of_nodup {p : Path} {t : Tree} (h : (plug p t).ids.Nodup) :
    t.ids.Nodup ∧ ∀ id ∈ t.ids, id ∉ p.map (·.holder.id) := by
  induction p generalizing t with
  | nil => exact ⟨h, by simp⟩
  | cons b rest ih =>
    obtain ⟨hn, hd⟩ := ih (t := b.attach t) h
    obtain ⟨side, holder, sibling⟩ := b
    have hmem : ∀ id, id ∈ t.ids → id ∈ (Crumb.attach ⟨side, holder, sibling⟩ t).ids := by
      intro id hid
      cases side <;> simp [Crumb.attach, Tree.join, hid]
    have hne : t.ids.Nodup ∧ holder.id ∉ t.ids := by
      cases side <;>
        simp only [Crumb.attach, Tree.join, Tree.ids_node, List.nodup_append, List.nodup_cons] at hn
      · exact ⟨hn.1, fun hc => hn.2.2 _ hc holder.id (by simp) rfl⟩
      · exact ⟨hn.2.1.2, hn.2.1.1⟩
    refine ⟨hne.1, fun id hid => ?_⟩
    rw [List.map_cons, List.mem_cons, not_or]
    exact ⟨fun heq => hne.2 (heq ▸ hid), hd id (hmem id hid)⟩

end Path

namespace Walk

/-- Taking up the entry of a slot for the first time. -/
theorem run_first {p here : Spot} {slot : Slot} {fuel k : Nat} {rest : List Pending}
    (h : p.visit? slot = some here) :
    run (fuel + 1) ⟨⟨slot, false⟩ :: rest, p, k⟩ =
      run fuel ⟨Pending.expand slot here.tree ++ rest, here, k⟩ := by
  rw [run]
  simp only [take, h]
  rfl

/-- Taking up the entry of a slot after the slots below it. -/
theorem run_second {p here : Spot} {slot : Slot} {fuel k c : Nat} {rest : List Pending} {u : Tree}
    (h : p.visit? slot = some here) (hu : here.tree.balanceSelf = (u, .ok c)) :
    run (fuel + 1) ⟨⟨slot, true⟩ :: rest, p, k⟩ = run fuel ⟨rest, ⟨u, here.path⟩, k + c⟩ := by
  rw [run]
  simp only [take, h, hu]
  rfl

/-- What taking up a slot that holds a tree has to do: balance the tree
and leave the walk there. -/
def Balances (t : Tree) (path : Path) (u : Tree) (m : Nat) : Prop :=
  ∀ (p : Spot) (fuel k : Nat) (rest : List Pending), p.visit? path.slot = some ⟨t, path⟩ →
    run (2 * t.size + fuel) ⟨⟨path.slot, false⟩ :: rest, p, k⟩ =
      run fuel ⟨rest, ⟨u, path⟩, k + m⟩

/-- The entries for one side of a node, if there are any. -/
theorem run_side (s : Side) {n : Node} {t u : Tree} (far : Tree) {path : Path} {p : Spot} {m : Nat}
    (hd : (Path.plug path (.join s n t far)).ids.Nodup)
    (hp : p.Near (.join s n t far) path) (hu : t.balanceAll = (u, .ok m))
    (hshape : Tree.Reshaped t u)
    (ih : t.isNil = false → Balances t (⟨s, n, far⟩ :: path) u m) (fuel k : Nat)
    (rest : List Pending) :
    ∃ q : Spot, q.Near (.join s n u far) path ∧
      run (2 * t.size + fuel)
          ⟨(if t.isNil then [] else [⟨.child n.id s, false⟩]) ++ rest, p, k⟩ =
        run fuel ⟨rest, q, k + m⟩ := by
  cases ht : t.isNil with
  | true =>
    cases t with
    | node => simp [Tree.isNil] at ht
    | nil =>
      simp only [Tree.balanceAll, Prod.mk.injEq, Except.ok.injEq] at hu
      obtain ⟨rfl, rfl⟩ := hu
      exact ⟨p, hp, by simp [Tree.size]⟩
  | false =>
    have hd' : (Path.plug (⟨s, n, far⟩ :: path) u).ids.Nodup :=
      (Path.reshaped_plug _ hshape).ids ▸ hd
    have hlow := Path.disjoint_of_nodup hd'
    have hhigh := Path.disjoint_of_nodup (p := path) (t := .join s n u far) hd'
    refine ⟨⟨u, ⟨s, n, far⟩ :: path⟩, Spot.near_below hlow.2 hhigh.2, ?_⟩
    exact ih ht p fuel k rest hp.visit_child

/-- Taking up a slot, with all that this puts on the list, balances the
tree in it and leaves the walk there. -/
theorem balances {t : Tree} (path : Path) (hne : t.isNil = false) (hw : t.Weighed)
    (hb : t.total.toNat < 2 ^ 63) (hd : (Path.plug path t).ids.Nodup) :
    ∃ u m, t.balanceAll = (u, .ok m) ∧ Balances t path u m := by
  induction t generalizing path with
  | nil => simp [Tree.isNil] at hne
  | node n l r ihl ihr =>
    obtain ⟨hn, hwl, hwr⟩ := hw
    rw [Tree.total_node] at hb
    obtain ⟨l', i, hl, hL⟩ := Tree.balanceAll_ok hwl (by omega)
    obtain ⟨r', j, hr, hR⟩ := Tree.balanceAll_ok hwr (by omega)
    have hmidl : Tree.Reshaped (.node n l r) (.node n l' r) := hL.reshaped.join .left n (.refl r)
    have hmid : Tree.Reshaped (.node n l r) (.node n l' r') := hL.reshaped.join .left n hR.reshaped
    obtain ⟨u, c, hu, -⟩ := Tree.balanceSelf_ok (hmid.weighed ⟨hn, hwl, hwr⟩) hb rfl
    have hdr : (Path.plug path (.node n l' r)).ids.Nodup :=
      (Path.reshaped_plug path hmidl).ids ▸ hd
    refine ⟨u, i + j + c, by simp only [Tree.balanceAll, hl, hr, hu], ?_⟩
    intro p fuel k rest hp
    have hsize : 2 * (Tree.node n l r).size + fuel =
        2 * l.size + (2 * r.size + (fuel + 1)) + 1 := by
      simp only [Tree.size]; omega
    rw [hsize, run_first hp, Pending.expand, List.append_assoc, List.append_assoc]
    -- the slot on the left
    obtain ⟨pl, hpl, hrunl⟩ := run_side .left r hd
      (Spot.near_self (Path.disjoint_of_nodup hd).2) hl hL.reshaped
      (fun hne' => by
        obtain ⟨v, m, hv, hB⟩ := ihl (⟨.left, n, r⟩ :: path) hne' hwl (by omega) hd
        rw [hl, Prod.mk.injEq, Except.ok.injEq] at hv
        obtain ⟨rfl, rfl⟩ := hv
        exact hB)
      (2 * r.size + (fuel + 1)) k
      ((if r.isNil then [] else [⟨.child n.id .right, false⟩]) ++ ([⟨path.slot, true⟩] ++ rest))
    -- the slot on the right
    obtain ⟨pr, hpr, hrunr⟩ := run_side .right l' hdr hpl hr hR.reshaped
      (fun hne' => by
        obtain ⟨v, m, hv, hB⟩ := ihr (⟨.right, n, l'⟩ :: path) hne' hwr (by omega) hdr
        rw [hr, Prod.mk.injEq, Except.ok.injEq] at hv
        obtain ⟨rfl, rfl⟩ := hv
        exact hB)
      (fuel + 1) (k + i) ([⟨path.slot, true⟩] ++ rest)
    have hu' : (⟨.join .right n r' l', path⟩ : Spot).tree.balanceSelf = (u, .ok c) := hu
    refine hrunl.trans (hrunr.trans ?_)
    rw [List.singleton_append, run_second hpr.visit hu']
    simp only [Nat.add_assoc]

end Walk

/-- The walk over pending slots and the recursion over the tree give the
same tree and the same number of rotations. -/
theorem Tree.balance_eq_balanceAll {t : Tree} (h : t.WellFormed) (hb : t.total.toNat < 2 ^ 63) :
    t.balance = t.balanceAll := by
  cases ht : t.isNil with
  | true =>
    cases t with
    | nil => rfl
    | node => simp [isNil] at ht
  | false =>
    obtain ⟨u, m, hu, hB⟩ := Walk.balances [] ht h.weighed hb h.distinct
    have hrun := hB ⟨t, []⟩ 0 0 [] rfl
    rw [Nat.zero_add] at hrun
    rw [Tree.balance, ht, hu]
    exact hrun

end SpanTree
