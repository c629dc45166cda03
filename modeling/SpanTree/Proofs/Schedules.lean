/-
SpanTree.Proofs.Schedules — in which order the slots of a tree are
balanced, and what stays in the slots that wait.

`Tree.slots` lists the slots that hold a tree, those below a slot before
it and the left ones before the right ones. A walk over the work list
balances exactly these slots, in this order (`Walk.Runs`), although the
slots are named by the nodes that have them and the nodes are turned
while slots wait.

The reason is the form of the work list. Of a slot that is taken up, the
way to the top decides what is still on the list (`Path.pending`): at each
step to the left the slot on the right, and at each step the slot of the
holder. The turns are made below the slot. So none of these slots is moved
and none loses its node (`Path.kept_of_pending`), whatever becomes of the
slot. `Walk.At` says where a walk stands, `At.step` that the next entry
leads to a place of the same kind, and `At.runs` that any number of
entries does.
-/
import SpanTree.Proofs.Outlines
import SpanTree.Proofs.Traversals
import SpanTree.Proofs.Turns

namespace SpanTree

/-! ## Slots -/

/-- What a slot of a tree holds, if there is the slot. -/
def Slot.content? (t : Tree) : Slot → Option Tree
  | .top => some t
  | .child holder s => (t.subtree? holder).map (·.child s)

namespace Tree

/-- The slots of a subtree that hold a tree, the slot of the subtree itself last. -/
def slotsIn (slot : Slot) : Tree → List Slot
  | .nil => []
  | .node n l r => l.slotsIn (.child n.id .left) ++ r.slotsIn (.child n.id .right) ++ [slot]

/-- The slots of a tree that hold a tree, each after those below it. -/
def slots (t : Tree) : List Slot := t.slotsIn .top

variable {t u : Tree} {slot : Slot} {path : Path}

/-- The slot of a path holds what the path leads to. -/
theorem content?_plug (h : (Path.plug path t).ids.Nodup) :
    path.slot.content? (Path.plug path t) = some t := by
  cases path with
  | nil => rfl
  | cons b rest =>
    have hid : b.holder.id ∈ (b.attach t).ids := id_mem_ids_of_id? (Crumb.id?_attach b t)
    rw [Path.plug_cons] at h
    have hfound := subtree?_plug h hid
    rw [subtree?_top (Crumb.id?_attach b t)] at hfound
    rw [Path.slot, Slot.content?, Path.plug_cons, hfound, Option.map_some, Crumb.attach,
      child_join]

/-- What a slot holds is what a path with the slot leads to. -/
theorem exists_path_of_content? (h : slot.content? t = some u) :
    ∃ path, Path.plug path u = t ∧ path.slot = slot := by
  cases slot with
  | top =>
    obtain rfl := Option.some.inj h
    exact ⟨[], rfl, rfl⟩
  | child holder s =>
    obtain ⟨v, hv, rfl⟩ := Option.map_eq_some_iff.mp h
    have hmem : holder ∈ t.ids := by
      by_contra hnot
      simp [subtree?_eq_none hnot] at hv
    obtain ⟨c, hc, rfl, rfl⟩ := locate?_of_mem hmem
    rw [subtree?_eq_locate?, hc, Option.map_some, Option.some.injEq] at hv
    subst hv
    refine ⟨c.crumb s :: c.path, ?_, rfl⟩
    exact congrArg (Path.plug c.path) (c.attach_crumb s)

theorem self_mem_slotsIn (ht : t.isNil = false) (slot : Slot) : slot ∈ t.slotsIn slot := by
  cases t with
  | nil => cases ht
  | node n l r => simp [slotsIn]

/-- A path leads to every slot of the list. -/
theorem exists_path_of_mem_slotsIn (path : Path) (h : slot ∈ t.slotsIn path.slot) :
    ∃ path' u, Path.plug path' u = Path.plug path t ∧ path'.slot = slot ∧ u.isNil = false := by
  induction t generalizing path with
  | nil => cases h
  | node n l r ihl ihr =>
    simp only [slotsIn, List.mem_append, List.mem_singleton] at h
    rcases h with (h | h) | rfl
    · exact ihl (⟨.left, n, r⟩ :: path) h
    · exact ihr (⟨.right, n, l⟩ :: path) h
    · exact ⟨path, .node n l r, rfl, rfl, rfl⟩

/-- The slots of a subtree are slots of the tree. -/
theorem slotsIn_subset_slots (path : Path) (t : Tree) :
    t.slotsIn path.slot ⊆ (Path.plug path t).slots := by
  induction path generalizing t with
  | nil => exact List.Subset.refl _
  | cons b rest ih =>
    refine List.Subset.trans (fun x hx => ?_) (ih (b.attach t))
    obtain ⟨side, holder, sibling⟩ := b
    cases side with
    | left => exact List.mem_append_left _ (List.mem_append_left _ hx)
    | right => exact List.mem_append_left _ (List.mem_append_right _ hx)

/-- **The slots of a tree** are those that hold a tree. -/
theorem mem_slots_iff (h : t.ids.Nodup) :
    slot ∈ t.slots ↔ ∃ u, slot.content? t = some u ∧ u.isNil = false := by
  constructor
  · intro hmem
    obtain ⟨path, u, rfl, rfl, hu⟩ := exists_path_of_mem_slotsIn [] hmem
    exact ⟨u, content?_plug h, hu⟩
  · rintro ⟨u, hcontent, hu⟩
    obtain ⟨path, rfl, rfl⟩ := exists_path_of_content? hcontent
    exact slotsIn_subset_slots path u (self_mem_slotsIn hu _)

/-- A slot of a subtree is the slot of the subtree itself, or a node of it has the slot. -/
theorem eq_or_holder_of_mem_slotsIn {x : Slot} (h : x ∈ t.slotsIn slot) :
    x = slot ∨ ∃ id ∈ t.ids, ∃ s, x = .child id s := by
  induction t generalizing slot with
  | nil => cases h
  | node n l r ihl ihr =>
    simp only [ids_node, List.mem_append, List.mem_cons]
    simp only [slotsIn, List.mem_append, List.mem_singleton] at h
    rcases h with (h | h) | rfl
    · rcases ihl h with rfl | ⟨id, hid, s, rfl⟩
      · exact .inr ⟨n.id, .inr (.inl rfl), .left, rfl⟩
      · exact .inr ⟨id, .inl hid, s, rfl⟩
    · rcases ihr h with rfl | ⟨id, hid, s, rfl⟩
      · exact .inr ⟨n.id, .inr (.inl rfl), .right, rfl⟩
      · exact .inr ⟨id, .inr (.inr hid), s, rfl⟩
    · exact .inl rfl

/-- No slot is listed twice. -/
theorem nodup_slotsIn (h : t.ids.Nodup) (hslot : ∀ id ∈ t.ids, ∀ s, slot ≠ .child id s) :
    (t.slotsIn slot).Nodup := by
  induction t generalizing slot with
  | nil => exact List.nodup_nil
  | node n l r ihl ihr =>
    simp only [ids_node, List.mem_append, List.mem_cons] at hslot
    rw [ids_node, List.nodup_append, List.nodup_cons] at h
    obtain ⟨hl, ⟨hnr, hr⟩, hcross⟩ := h
    have hnl : n.id ∉ l.ids := fun hmem => hcross _ hmem _ List.mem_cons_self rfl
    have hleft : (l.slotsIn (.child n.id .left)).Nodup := ihl hl fun id hid s heq => by
      cases heq
      exact hnl hid
    have hright : (r.slotsIn (.child n.id .right)).Nodup := ihr hr fun id hid s heq => by
      cases heq
      exact hnr hid
    simp only [slotsIn, List.nodup_append, List.mem_append, List.mem_singleton]
    refine ⟨⟨hleft, hright, ?_⟩, List.pairwise_singleton _ _, ?_⟩
    · rintro x hx y hy rfl
      rcases eq_or_holder_of_mem_slotsIn hx with rfl | ⟨id, hid, s, rfl⟩ <;>
        rcases eq_or_holder_of_mem_slotsIn hy with heq | ⟨id', hid', s', heq⟩ <;> cases heq
      · exact hnr hid'
      · exact hnl hid
      · exact hcross _ hid _ (List.mem_cons_of_mem _ hid') rfl
    · rintro x hx y rfl rfl
      rcases hx with hx | hx
      · rcases eq_or_holder_of_mem_slotsIn hx with rfl | ⟨id, hid, s, rfl⟩
        · exact hslot n.id (.inr (.inl rfl)) .left rfl
        · exact hslot id (.inl hid) s rfl
      · rcases eq_or_holder_of_mem_slotsIn hx with rfl | ⟨id, hid, s, rfl⟩
        · exact hslot n.id (.inr (.inl rfl)) .right rfl
        · exact hslot id (.inr (.inr hid)) s rfl

theorem nodup_slots (h : t.ids.Nodup) : t.slots.Nodup :=
  nodup_slotsIn h fun _ _ _ heq => by cases heq

end Tree

/-! ## The walk and its record -/

namespace Walk

/-- What becomes of the entry that is first on the work list, with the record of the balancing, if
that is what becomes of it. -/
inductive Leads : Walk → List (Slot × List Turn) → Walk → Prop
  | opened {slot : Slot} {rest : List Pending} {p here : Spot} {k : Nat}
    (visit : p.visit? slot = some here) :
    Leads ⟨⟨slot, false⟩ :: rest, p, k⟩ [] ⟨Pending.expand slot here.tree ++ rest, here, k⟩
  | balanced {slot : Slot} {rest : List Pending} {p here : Spot} {k : Nat} {turns : List Turn}
    {u : Tree} (visit : p.visit? slot = some here)
    (balances : BalancesWith here.path here.tree turns u) :
    Leads ⟨⟨slot, true⟩ :: rest, p, k⟩ [(slot, turns)] ⟨rest, ⟨u, here.path⟩, k + turns.length⟩

/-- One entry after the other. -/
inductive Runs : Walk → List (Slot × List Turn) → Walk → Prop
  | refl (w : Walk) : Runs w [] w
  | head {w v x : Walk} {a b : List (Slot × List Turn)} (step : Leads w a v) (rest : Runs v b x) :
    Runs w (a ++ b) x

variable {w v : Walk} {log : List (Slot × List Turn)}

/-- Taking up an entry is what the relation says. -/
theorem take_eq_ok_iff {entry : Pending} {rest : List Pending} (hwork : w.work = entry :: rest) :
    w.take entry rest = .ok v ↔ ∃ log, Leads w log v := by
  obtain ⟨work, p, k⟩ := w
  obtain rfl : work = entry :: rest := hwork
  obtain ⟨slot, childrenDone⟩ := entry
  constructor
  · intro h
    cases hvisit : p.visit? slot with
    | none => simp [take, hvisit] at h
    | some here =>
      cases childrenDone with
      | false =>
        simp only [take, hvisit, Bool.false_eq_true, if_false, Except.ok.injEq] at h
        subst h
        exact ⟨_, .opened hvisit⟩
      | true =>
        simp only [take, hvisit, if_true] at h
        split at h
        · cases h
        · next u n hself =>
          obtain ⟨turns, hturns, rfl⟩ := (Tree.balanceSelf_eq_ok_iff here.path).mp hself
          obtain rfl := Except.ok.inj h
          exact ⟨_, .balanced hvisit hturns⟩
  · rintro ⟨log, h⟩
    cases h with
    | opened hvisit => simp [take, hvisit]
    | @balanced _ _ _ here _ turns u hvisit hturns =>
      have hself := (Tree.balanceSelf_eq_ok_iff here.path).mpr ⟨turns, hturns, rfl⟩
      simp [take, hvisit, hself]

/-- A walk that ends has a record. -/
theorem exists_runs {fuel n : Nat} {u : Tree} (h : run fuel w = (u, .ok n)) :
    ∃ log v, Runs w log v ∧ v.work = [] ∧ v.spot.toTree = u ∧ v.rotations = n := by
  induction fuel generalizing w with
  | zero =>
    rw [run] at h
    split at h
    · next hwork =>
      obtain ⟨rfl, hn⟩ := Prod.mk.inj h
      exact ⟨[], w, .refl w, hwork, rfl, Except.ok.inj hn⟩
    · cases (Prod.mk.inj h).2
  | succ fuel ih =>
    rw [run] at h
    split at h
    · next hwork =>
      obtain ⟨rfl, hn⟩ := Prod.mk.inj h
      exact ⟨[], w, .refl w, hwork, rfl, Except.ok.inj hn⟩
    · next entry rest hwork =>
      cases htake : w.take entry rest with
      | error e => simp [htake] at h
      | ok next =>
        simp only [htake] at h
        obtain ⟨a, hstep⟩ := (take_eq_ok_iff hwork).mp htake
        obtain ⟨b, v, hrest, hend⟩ := ih h
        exact ⟨a ++ b, v, .head hstep hrest, hend⟩

/-- The turns of a record lead from tree to tree, and the walk counts them. -/
theorem Leads.turned (h : Leads w log v) :
    Turned w.spot.toTree (log.flatMap (·.2)) v.spot.toTree ∧
      v.rotations = w.rotations + (log.flatMap (·.2)).length := by
  cases h with
  | opened hvisit =>
    simp only [List.flatMap_nil, List.length_nil, Nat.add_zero, and_true]
    rw [← Spot.toTree_of_visit hvisit]
    exact .refl _
  | balanced hvisit hturns =>
    simp only [List.flatMap_cons, List.flatMap_nil, List.append_nil, and_true]
    rw [← Spot.toTree_of_visit hvisit]
    exact hturns.loop.turned

theorem Runs.turned (h : Runs w log v) :
    Turned w.spot.toTree (log.flatMap (·.2)) v.spot.toTree ∧
      v.rotations = w.rotations + (log.flatMap (·.2)).length := by
  induction h with
  | refl w => exact ⟨.refl _, rfl⟩
  | head step rest ih =>
    obtain ⟨hstep, hcount⟩ := step.turned
    obtain ⟨hrest, hcount'⟩ := ih
    rw [List.flatMap_append, List.length_append]
    exact ⟨hstep.trans hrest, by omega⟩

end Walk

/-! ## What waits above a place -/

/-- The entries that a step down leaves on the list, for the other side of its holder. -/
def Crumb.pending (b : Crumb) : List Pending :=
  match b.side with
  | .left => if b.sibling.isNil then [] else [⟨.child b.holder.id .right, false⟩]
  | .right => []

/-- The slots on the other side of a step down that come later. -/
def Crumb.ahead (b : Crumb) : List Slot :=
  match b.side with
  | .left => b.sibling.slotsIn (.child b.holder.id .right)
  | .right => []

/-- The same step, with the same tree on the other side where that is still to come. -/
structure Crumb.Alike (b c : Crumb) : Prop where
  side : c.side = b.side
  holder : c.holder = b.holder
  sibling : b.side = .left → c.sibling = b.sibling

namespace Crumb

theorem alike_refl (b : Crumb) : b.Alike b := ⟨rfl, rfl, fun _ => rfl⟩

/-- On the right the other side has been balanced. -/
theorem alike_right (holder : Node) (l l' : Tree) :
    Crumb.Alike ⟨.right, holder, l⟩ ⟨.right, holder, l'⟩ := ⟨rfl, rfl, fun h => by cases h⟩

end Crumb

namespace Path

/-- The entries that wait while the walk is below a path. -/
def pending : Path → List Pending
  | [] => []
  | b :: rest => b.pending ++ ⟨slot rest, true⟩ :: pending rest

/-- The slots that come after those below a path. -/
def ahead : Path → List Slot
  | [] => []
  | b :: rest => b.ahead ++ slot rest :: ahead rest

/-- The same way, with the same trees on the sides that are still to come. -/
def Alike (p q : Path) : Prop := List.Forall₂ Crumb.Alike p q

variable {p q : Path}

theorem Alike.slot_eq (h : Alike p q) : q.slot = p.slot := by
  cases h with
  | nil => rfl
  | cons hb _ => rw [slot, slot, hb.side, hb.holder]

theorem Alike.sides_eq (h : Alike p q) : q.map (·.side) = p.map (·.side) := by
  induction h with
  | nil => rfl
  | cons hb _ ih => rw [List.map_cons, List.map_cons, hb.side, ih]

end Path

/-- The slot of an entry holds the same node in two trees, and the way to it is the same. Below a
slot that has not been opened nothing is different. -/
def Pending.Kept (t u : Tree) (entry : Pending) : Prop :=
  ∃ s x id, entry.slot.content? t = some s ∧ entry.slot.content? u = some x ∧
    s.id? = some id ∧ x.id? = some id ∧ u.wayTo? id = t.wayTo? id ∧
    (entry.childrenDone = false → x = s)

namespace Path

variable {p q : Path} {s x : Tree}

/-- What two ways that are alike lead to, with one node at the top, is kept in the slot. -/
theorem kept_slot (h : Alike p q) (hp : (plug p s).ids.Nodup) (hq : (plug q x).ids.Nodup)
    {id : NodeId} (hs : s.id? = some id) (hx : x.id? = some id) {childrenDone : Bool}
    (hsame : childrenDone = false → x = s) :
    Pending.Kept (plug p s) (plug q x) ⟨q.slot, childrenDone⟩ := by
  refine ⟨s, x, id, ?_, Tree.content?_plug hq, hs, hx, ?_, hsame⟩
  · rw [h.slot_eq]
    exact Tree.content?_plug hp
  · rw [Tree.wayTo?_plug hq (Tree.wayTo?_top hx),
      Tree.wayTo?_plug hp (Tree.wayTo?_top hs), h.sides_eq]

/-- **The slots that wait** while the walk is below a path are kept, whatever comes to be there.
The induction climbs the path: the waiting slot on the right is next to the way, and the slot of
the holder is on it. -/
theorem kept_of_pending (h : Alike p q) (hp : (plug p s).ids.Nodup) (hq : (plug q x).ids.Nodup) :
    ∀ entry ∈ q.pending, entry.Kept (plug p s) (plug q x) := by
  induction h generalizing s x with
  | nil => simp [pending]
  | @cons b c p q hb hrest ih =>
    intro entry hmem
    rw [pending, List.mem_append, List.mem_cons] at hmem
    rcases hmem with hmem | rfl | hmem
    · obtain ⟨side, holder, sibling⟩ := b
      obtain ⟨side', holder', sibling'⟩ := c
      obtain ⟨rfl, rfl, hsibling⟩ := hb
      cases side' with
      | right => cases hmem
      | left =>
        obtain rfl := hsibling rfl
        cases hnil : sibling'.isNil with
        | true => simp [Crumb.pending, hnil] at hmem
        | false =>
          obtain rfl : entry = ⟨.child holder'.id .right, false⟩ := by
            simpa [Crumb.pending, hnil] using hmem
          obtain ⟨id, hid⟩ := Tree.exists_id hnil
          exact kept_slot (p := ⟨.right, holder', s⟩ :: p) (q := ⟨.right, holder', x⟩ :: q)
            (.cons (Crumb.alike_right holder' s x) hrest) hp hq hid hid fun _ => rfl
    · exact kept_slot hrest hp hq (Crumb.id?_attach b s)
        (hb.holder ▸ Crumb.id?_attach c x) fun h => by cases h
    · exact ih hp hq entry hmem

end Path

/-! ## Where a walk stands -/

namespace Walk

variable {t s : Tree} {done : List Slot} {w v : Walk} {log : List (Slot × List Turn)} {path : Path}
  {opened : Bool}

/-- A walk over a tree takes up the slot of a path next, which holds a tree. The first of the slots
have been balanced, and what comes later is what was there. -/
structure At (t : Tree) (done : List Slot) (w : Walk) (path : Path) (s : Tree) (opened : Bool) :
    Prop where
  work : w.work = ⟨path.slot, opened⟩ :: path.pending
  visit : w.spot.visit? path.slot = some ⟨s, path⟩
  filled : s.isNil = false
  shape : Tree.Reshaped t (Path.plug path s)
  origin : ∃ path₀ s₀, Path.plug path₀ s₀ = t ∧ path₀.Alike path ∧ s.id? = s₀.id? ∧
    (opened = false → s = s₀)
  order : done ++ ((if opened then [path.slot] else s.slotsIn path.slot) ++ path.ahead) = t.slots

theorem at_start (ht : t.isNil = false) : At t [] (.start t) [] t false where
  work := rfl
  visit := rfl
  filled := ht
  shape := .refl t
  origin := ⟨[], t, rfl, .nil, rfl, fun _ => rfl⟩
  order := by simp [Path.ahead, Tree.slots, Path.slot]

/-- With the left side of a node done, the walk comes to the right side, if there is a tree, and
else to the slot of the node. -/
theorem at_right {n : Node} {l r : Tree}
    (work : w.work = Crumb.pending ⟨.left, n, r⟩ ++ ⟨path.slot, true⟩ :: path.pending)
    (near : w.spot.Near (.node n l r) path) (shape : Tree.Reshaped t (Path.plug path (.node n l r)))
    (origin : ∃ path₀ l₀, Path.plug path₀ (.node n l₀ r) = t ∧ path₀.Alike path)
    (order : done ++ (r.slotsIn (.child n.id .right) ++ path.slot :: path.ahead) = t.slots) :
    ∃ path' s opened, At t done w path' s opened := by
  obtain ⟨path₀, l₀, hplug, halike⟩ := origin
  cases hr : r.isNil with
  | true =>
    obtain rfl := Tree.isNil_iff.mp hr
    refine ⟨path, .node n l .nil, true, ?_, near.visit, rfl, shape, ?_, ?_⟩
    · simpa [Crumb.pending, Tree.isNil] using work
    · exact ⟨path₀, _, hplug, halike, rfl, fun h => by cases h⟩
    · simpa [Tree.slotsIn] using order
  | false =>
    refine ⟨⟨.right, n, l⟩ :: path, r, false, ?_, ?_, hr, shape, ?_, ?_⟩
    · simpa [Crumb.pending, hr, Path.pending, Path.slot] using work
    · exact near.visit_child (s := .right)
    · exact ⟨⟨.right, n, l₀⟩ :: path₀, r, hplug, .cons (Crumb.alike_right n l₀ l) halike, rfl,
        fun _ => rfl⟩
    · simpa [Path.ahead, Crumb.ahead, Path.slot] using order

/-- With a node opened, the walk comes to the left side, if there is a tree. -/
theorem at_left {n : Node} {l r : Tree}
    (work : w.work = Pending.expand path.slot (.node n l r) ++ path.pending)
    (near : w.spot.Near (.node n l r) path) (shape : Tree.Reshaped t (Path.plug path (.node n l r)))
    (origin : ∃ path₀, Path.plug path₀ (.node n l r) = t ∧ path₀.Alike path)
    (order : done ++ ((Tree.node n l r).slotsIn path.slot ++ path.ahead) = t.slots) :
    ∃ path' s opened, At t done w path' s opened := by
  obtain ⟨path₀, hplug, halike⟩ := origin
  cases hl : l.isNil with
  | true =>
    obtain rfl := Tree.isNil_iff.mp hl
    refine at_right ?_ near shape ⟨path₀, .nil, hplug, halike⟩ ?_
    · simpa [Pending.expand, Crumb.pending, Tree.isNil] using work
    · simpa [Tree.slotsIn] using order
  | false =>
    refine ⟨⟨.left, n, r⟩ :: path, l, false, ?_, near.visit_child (s := .left), hl, shape, ?_, ?_⟩
    · simpa [Pending.expand, hl, Path.pending, Path.slot, Crumb.pending] using work
    · exact ⟨⟨.left, n, r⟩ :: path₀, l, hplug, .cons (Crumb.alike_refl _) halike, rfl,
        fun _ => rfl⟩
    · simpa [Tree.slotsIn, Path.ahead, Path.slot, Crumb.ahead] using order

/-- With one side of a node done, the walk comes to the other side or to the slot of the node. -/
theorem at_above {b₀ b : Crumb} {path₀ : Path} {u s₀ : Tree} (hb : b₀.Alike b)
    (halike : path₀.Alike path) (work : w.work = Path.pending (b :: path))
    (near : w.spot.Near (b.attach u) path) (shape : Tree.Reshaped t (Path.plug (b :: path) u))
    (origin : Path.plug (b₀ :: path₀) s₀ = t)
    (order : done ++ Path.ahead (b :: path) = t.slots) :
    ∃ path' s opened, At t done w path' s opened := by
  obtain ⟨side, holder, sibling⟩ := b
  obtain ⟨side₀, holder₀, sibling₀⟩ := b₀
  obtain ⟨rfl, rfl, hsibling⟩ := hb
  cases side with
  | left =>
    obtain rfl := hsibling rfl
    exact at_right work near shape ⟨path₀, s₀, origin, halike⟩ order
  | right =>
    exact ⟨path, _, true, work, near.visit, rfl, shape,
      ⟨path₀, _, origin, halike, rfl, fun h => by cases h⟩, order⟩

/-- **One entry.** The walk stands at another slot of the same kind then, or it has balanced all
slots. -/
theorem At.step (hw : t.WellFormed) (h : At t done w path s opened) (hstep : Leads w log v) :
    (∃ path' s' opened', At t (done ++ log.map (·.1)) v path' s' opened') ∨
      v.work = [] ∧ done ++ log.map (·.1) = t.slots := by
  obtain ⟨work, visit, filled, shape, ⟨path₀, s₀, hplug, halike, hid, hsame⟩, order⟩ := h
  cases hstep with
  | opened visit' =>
    obtain ⟨hentry, rfl⟩ := List.cons.inj work
    obtain ⟨rfl, rfl⟩ := Pending.mk.inj hentry
    obtain rfl := Option.some.inj (visit'.symm.trans visit)
    obtain rfl := hsame rfl
    have hnear := Spot.near_self (Path.disjoint_of_nodup (shape.ids ▸ hw.distinct)).2
    cases s with
    | nil => cases filled
    | node n l r =>
      exact .inl (at_left rfl hnear shape ⟨path₀, hplug, halike⟩ (by simpa using order))
  | @balanced _ _ _ _ _ turns u visit' hturns =>
    obtain ⟨hentry, rfl⟩ := List.cons.inj work
    obtain ⟨rfl, rfl⟩ := Pending.mk.inj hentry
    obtain rfl := Option.some.inj (visit'.symm.trans visit)
    have hshape : Tree.Reshaped t (Path.plug path u) :=
      shape.trans (hturns.loop.turned.reshaped (shape.weighed hw.weighed)).1
    have hd : (Path.plug path u).ids.Nodup := hshape.ids ▸ hw.distinct
    have hdone : done ++ [path.slot] ++ path.ahead = t.slots := by simpa using order
    cases halike with
    | nil => exact .inr ⟨rfl, by simpa [Path.ahead] using hdone⟩
    | @cons _ b _ rest hb hrest =>
      have habove := Path.disjoint_of_nodup (p := rest) (t := b.attach u) hd
      have hnear := Spot.near_below (Path.disjoint_of_nodup hd).2 habove.2
      exact .inl (at_above hb hrest rfl hnear hshape hplug hdone)

/-- **Any number of entries.** -/
theorem At.runs (hw : t.WellFormed) (h : At t done w path s opened) (hruns : Runs w log v) :
    (∃ path' s' opened', At t (done ++ log.map (·.1)) v path' s' opened') ∨
      v.work = [] ∧ done ++ log.map (·.1) = t.slots := by
  induction hruns generalizing done path s opened with
  | refl w => exact .inl ⟨path, s, opened, by simpa using h⟩
  | head step rest ih =>
    rw [List.map_append, ← List.append_assoc]
    rcases h.step hw step with ⟨path', s', opened', hnext⟩ | ⟨hwork, hdone⟩
    · exact ih hnext
    · -- nothing is left to be taken up
      cases rest with
      | refl => exact .inr ⟨hwork, by simpa using hdone⟩
      | head step' _ => cases step' <;> cases hwork

/-- The slots that wait hold what they held, or the node that they held with other trees below. -/
theorem At.kept (hw : t.WellFormed) (h : At t done w path s opened) :
    ∀ entry ∈ w.work, entry.Kept t w.spot.toTree := by
  obtain ⟨work, visit, filled, shape, ⟨path₀, s₀, rfl, halike, hid, hsame⟩, -⟩ := h
  have hq : (Path.plug path s).ids.Nodup := shape.ids ▸ hw.distinct
  rw [← Spot.toTree_of_visit visit, work]
  intro entry hmem
  rcases List.mem_cons.mp hmem with rfl | hmem
  · obtain ⟨id, hs⟩ := Tree.exists_id filled
    exact Path.kept_slot halike hw.distinct hq (hid ▸ hs) hs hsame
  · exact Path.kept_of_pending halike hw.distinct hq entry hmem

/-- While a slot is balanced, too, after each turn. All turns are made below the path of the slot,
and every slot that waits is beside the path or on it. -/
theorem At.kept_turn (hw : t.WellFormed) (h : At t done w path s opened) {slot : Slot}
    {turns : List Turn} (hstep : Leads w [(slot, turns)] v) :
    ∀ r ∈ turns, ∀ entry ∈ v.work, entry.Kept t (Path.plug r.path r.after) := by
  obtain ⟨work, visit, -, shape, ⟨path₀, s₀, rfl, halike, -⟩, -⟩ := h
  cases hstep with
  | balanced visit' hturns =>
    obtain ⟨hentry, rfl⟩ := List.cons.inj work
    obtain ⟨rfl, rfl⟩ := Pending.mk.inj hentry
    obtain rfl := Option.some.inj (visit'.symm.trans visit)
    intro r hr
    have hshape := (hturns.loop.turned.reshaped (shape.weighed hw.weighed)).2 r hr
    obtain ⟨more, hmore⟩ := hturns.loop.suffix r hr
    rw [← hmore, Tree.plug_append] at hshape ⊢
    exact Path.kept_of_pending halike hw.distinct ((shape.trans hshape).ids ▸ hw.distinct)

end Walk

/-! ## The schedule of a balancing -/

namespace Walk

/-- The record of a walk over all slots of a tree, each of them once and those below it before it,
with the turns made. -/
structure Schedule (t : Tree) (log : List (Slot × List Turn)) (v : Walk) : Prop where
  runs : Runs (.start t) log v
  ended : v.work = []
  slots : log.map (·.1) = t.slots
  turned : Turned t (log.flatMap (·.2)) v.spot.toTree
  count : v.rotations = (log.flatMap (·.2)).length

variable {t : Tree} {log : List (Slot × List Turn)} {v : Walk}

/-- A walk that has come to its end has balanced every slot. -/
theorem Runs.schedule (hw : t.WellFormed) (ht : t.isNil = false) (h : Runs (.start t) log v)
    (hend : v.work = []) : Schedule t log v where
  runs := h
  ended := hend
  slots := by
    rcases (at_start ht).runs hw h with ⟨path, s, opened, hat⟩ | ⟨-, hslots⟩
    · cases hend.symm.trans hat.work
    · exact hslots
  turned := h.turned.1
  count := h.turned.2.trans (Nat.zero_add _)

end Walk

namespace Tree

/-- **Balancing a tree from a list of slots.** It ends without a failure, and the tree and the
number are those of the recursion; on an empty slot it does nothing. It balances every slot that
holds a tree once, and its number counts the rotations that lead from the tree to the result. At
every point of the way, after each single rotation too, the slots that wait hold the nodes that
they held at first. -/
theorem balance_schedule {t : Tree} (h : t.WellFormed) (hb : t.total.toNat < 2 ^ 63) :
    ∃ u n, t.balance = (u, .ok n) ∧ t.balanceAll = (u, .ok n) ∧
      (∀ (f : Forest) (p : Place), f.tree p = t →
        exec (Run.balance p) f = (.ok n, f.plant u p)) ∧
      (t.isNil = true → u = .nil ∧ n = 0) ∧
      (t.isNil = false →
        ∃ log v, Walk.Schedule t log v ∧ v.spot.toTree = u ∧ v.rotations = n) ∧
      t.slots.Nodup ∧
      (∀ slot, slot ∈ t.slots ↔ ∃ s, slot.content? t = some s ∧ s.isNil = false) ∧
      (t.isNil = false → ∀ log w, Walk.Runs (.start t) log w →
        (∀ entry ∈ w.work, entry.Kept t w.spot.toTree) ∧
        ∀ slot turns v, Walk.Leads w [(slot, turns)] v →
          ∀ r ∈ turns, ∀ entry ∈ v.work, entry.Kept t (Path.plug r.path r.after)) := by
  obtain ⟨u, n, hall, -⟩ := balanceAll_ok h.weighed hb
  have hbalance : t.balance = (u, .ok n) := (balance_eq_balanceAll h hb).trans hall
  refine ⟨u, n, hbalance, hall, fun f p hp => Run.exec_balance hp hbalance, fun ht => ?_,
    fun ht => ?_, nodup_slots h.distinct, fun slot => mem_slots_iff h.distinct,
    fun ht log w hruns => ?_⟩
  · obtain rfl := isNil_iff.mp ht
    obtain ⟨rfl, hn⟩ := Prod.mk.inj hall
    exact ⟨rfl, (Except.ok.inj hn).symm⟩
  · rw [balance, ht] at hbalance
    obtain ⟨log, v, hruns, hend, htree, hcount⟩ := Walk.exists_runs hbalance
    exact ⟨log, v, hruns.schedule h ht hend, htree, hcount⟩
  · rcases (Walk.at_start ht).runs h hruns with ⟨path, s, opened, hat⟩ | ⟨hend, -⟩
    · exact ⟨hat.kept h, fun slot turns v hstep => hat.kept_turn h hstep⟩
    · refine ⟨by simp [hend], fun slot turns v hstep => ?_⟩
      cases hstep
      cases hend

/-- The slots of the elbow are balanced from below, and the balancing rotates. -/
theorem balance_schedule_elbow : elbow.WellFormed ∧ elbow.total.toNat < 2 ^ 63 ∧
    ∃ u n log v, elbow.balance = (u, .ok n) ∧ elbow.balanceAll = (u, .ok n) ∧ n ≠ 0 ∧
      Walk.Schedule elbow log v ∧ v.spot.toTree = u ∧ v.rotations = n ∧
      log.map (·.1) =
        [.child 1 .left, .child 3 .left, .child 1 .right, .child 0 .left, .top] := by
  have hlight : elbow.total.toNat < 2 ^ 63 := by decide
  obtain ⟨u, n, hu, hall, -, -, hlog, -⟩ := balance_schedule elbow_wellFormed hlight
  obtain ⟨log, v, hschedule, htree, hcount⟩ := hlog rfl
  refine ⟨elbow_wellFormed, hlight, u, n, log, v, hu, hall, ?_, hschedule, htree, hcount,
    hschedule.slots.trans rfl⟩
  -- a tree that needs no rotation is poised at the top
  rintro rfl
  obtain ⟨w, m, hw, hto⟩ := balanceAll_ok elbow_wellFormed.weighed hlight
  obtain ⟨rfl, hm⟩ := Prod.mk.inj (hall.symm.trans hw)
  have hsame := hto.unchanged (Except.ok.inj hm).symm
  have hpoised := hto.settled.poised .left
  rw [hsame] at hpoised
  revert hpoised
  simp only [PoisedOn]
  decide

end Tree

end SpanTree
