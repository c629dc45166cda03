/-
SpanTree.Proofs.Fixpoint — balancing ends where no rotation helps, and
stays there.

`poised_iff` reads the condition on the weights of a node as a statement
about the rotations at it, and `settled_iff` reads `Tree.Settled` as a
statement about all nodes. With these `balance_reaches_fixpoint` says
what balancing leaves in terms of the tree alone.

The second half of it is about the two operations that balance a whole
tree in a forest. On a tree that is settled the operation of a text does
its bookkeeping only: the trackers and the profile note it
(`exec_balanceIntervals_of_balance`).
-/
import SpanTree.Proofs.Texts

namespace SpanTree

namespace Tree

/-! ## The condition, by rotations -/

/-- Only a tree with a child on the side can be rotated. -/
theorem isNil_child_of_rotateOwned {s : Side} {t u : Tree} (h : t.rotateOwned s = .ok u) :
    (t.child s).isNil = false := by
  cases t with
  | nil => simp [rotateOwned, pivot] at h
  | node n l r => cases s <;> cases l <;> cases r <;> simp_all [rotateOwned, pivot, child, isNil]

/-- A rotation that raises the child that is not heavier does not bring
the weights closer. -/
theorem natAbs_tilt_le_raised {s : Side} {a b : Node} {outer inner far : Tree}
    (h : (join s a (join s b outer inner) far).Weighed) (hb : a.data.total.toNat < 2 ^ 63)
    (hle : b.data.total.toNat ≤ far.total.toNat) :
    (join s a (join s b outer inner) far).tilt.natAbs ≤
      (Pivot.raised s ⟨a, b, outer, inner, far⟩).tilt.natAbs := by
  rw [natAbs_tilt_raised h hb, natAbs_tilt_join h hb]
  simp only [weighed_join, total_join] at h ⊢
  omega

/-- **Poised nodes.** The condition on the weights of a node says that no
rotation at the node brings its weights strictly closer. -/
theorem poised_iff {t : Tree} (h : t.Weighed) (hb : t.total.toNat < 2 ^ 63) :
    t.Poised ↔ ∀ s u, t.rotateOwned s = .ok u → t.tilt.natAbs ≤ u.tilt.natAbs := by
  constructor
  · intro hp s u hu
    obtain ⟨a, b, outer, inner, far, rfl⟩ := exists_join (isNil_child_of_rotateOwned hu)
    rw [total_join] at hb
    rw [rotateOwned_join h, Except.ok.injEq] at hu
    subst hu
    rcases Nat.lt_or_ge far.total.toNat b.data.total.toNat with hlt | hle
    · refine Nat.le_of_not_lt fun hc => ?_
      exact (natAbs_tilt_raised_lt_iff h hb hlt).mp hc (hp s)
    · exact natAbs_tilt_le_raised h hb hle
  · intro hr
    rcases improve_cases h hb with ⟨hp, -⟩ | ⟨s, a, b, outer, inner, far, rfl, -, -, hlt⟩
    · exact hp
    · have := hr s _ (rotateOwned_join h)
      omega

/-! ## The condition at every node -/

theorem Settled.of_plug {path : Path} {t : Tree} (h : (Path.plug path t).Settled) : t.Settled := by
  induction path generalizing t with
  | nil => exact h
  | cons b rest ih => exact (settled_join.mp (ih h)).2.1

theorem plug_append (path rest : Path) (t : Tree) :
    Path.plug (path ++ rest) t = Path.plug rest (Path.plug path t) := by
  induction path generalizing t with
  | nil => rfl
  | cons b path ih => exact ih _

/-- A tree is settled where every node of it is poised. -/
theorem settled_iff {t : Tree} : t.Settled ↔ ∀ c : Cursor, c.toTree = t → c.subtree.Poised := by
  constructor
  · rintro h c rfl
    exact (Settled.of_plug h).poised
  · intro h
    induction t with
    | nil => trivial
    | node n l r ihl ihr =>
      refine ⟨h ⟨n, l, r, []⟩ rfl, ihl fun c hc => ?_, ihr fun c hc => ?_⟩
      · have hplug := plug_append c.path [⟨.left, n, r⟩] c.subtree
        exact h { c with path := c.path ++ [⟨.left, n, r⟩] } (hplug.trans (by
          rw [show Path.plug c.path c.subtree = l from hc]
          rfl))
      · have hplug := plug_append c.path [⟨.right, n, l⟩] c.subtree
        exact h { c with path := c.path ++ [⟨.right, n, l⟩] } (hplug.trans (by
          rw [show Path.plug c.path c.subtree = r from hc]
          rfl))

/-- The nodes of a tree weigh no more than the tree. -/
theorem Weighed.total_le_plug {path : Path} {t : Tree} (h : (Path.plug path t).Weighed) :
    t.total.toNat ≤ (Path.plug path t).total.toNat := by
  induction path generalizing t with
  | nil => exact Nat.le_refl _
  | cons b rest ih =>
    have hb : (b.attach t).Weighed := ((Path.weighed_plug (p := rest)).mp h).1
    refine Nat.le_trans ?_ (ih h)
    rw [Crumb.attach, weighed_join] at hb
    rw [Crumb.total_attach]
    omega

/-- A settled tree is balanced without a rotation. -/
theorem Settled.balance {t : Tree} (h : t.WellFormed) (hb : t.total.toNat < 2 ^ 63)
    (hs : t.Settled) : t.balance = (t, .ok 0) := by
  obtain ⟨u, n, hu, hto⟩ := balanceAll_ok h.weighed hb
  rw [balance_eq_balanceAll h hb, hu, hto.still hs, hto.unchanged (hto.still hs)]

end Tree

/-! ## Balancing in a forest -/

namespace Forest

variable {f : Forest}

/-- The forest once a tracker and the profile keep notes of something
that changed nothing else. -/
def noted (f : Forest) (t : TextId) (a : Tracker) (p : Profile) : Forest :=
  { f with texts := f.texts.modify t ({ · with access := a }), profile := p }

theorem texts_noted {t : TextId} {x : Text} (hx : f.texts[t]? = some x) (a : Tracker)
    (p : Profile) : (f.noted t a p).texts[t]? = some { x with access := a } := by
  simp [noted, hx]

/-- The trees are as they were. -/
theorem tree_noted (f : Forest) (t : TextId) (a : Tracker) (q : Profile) (p : Place) :
    (f.noted t a q).tree p = f.tree p :=
  f.tree_access t (fun _ => a) p

/-- Without new notes the forest is as it was. -/
theorem noted_self {t : TextId} {x : Text} (hx : f.texts[t]? = some x) :
    f.noted t x.access f.profile = f := modifyText_self hx rfl

end Forest

namespace Run

variable {f : Forest} {t : TextId} {x : Text}

/-- What runs in a write session, and leaves the tracker of the text alone,
leaves of the session what the tracker notes. -/
theorem exec_withSession_idle {α : Type} (hx : f.texts[t]? = some x)
    (hidle : f.settings.tracking = true → x.access.word = 0) {body : Run α}
    {P : Except Fault α → Forest → Prop}
    (h : ∀ a, ∃ r g p, exec body (f.noted t a f.profile) = (r, g.noted t a p) ∧
      g.settings = f.settings ∧ P r g) :
    ∃ r g a p, exec (withSession t .write body) f = (r, g.noted t a p) ∧
      a.word = x.access.word ∧ P r g := by
  cases ht : f.settings.tracking with
  | false =>
    obtain ⟨r, g, p, hp, hsettings, hP⟩ := h x.access
    rw [Forest.noted_self hx] at hp
    refine ⟨r, g, x.access, p, ?_, rfl, hP⟩
    have hg : (g.noted t x.access p).settings.tracking = false := by
      rw [← ht, ← hsettings]
      rfl
    rw [exec_withSession_ok (exec_openSession_untracked ht hx .write), hp, exec_closeSession_eq, hg]
    rfl
  | true =>
    have hword := hidle ht
    obtain ⟨a, ha⟩ : ∃ a, x.access.openSession .write = .ok a :=
      ⟨_, by simp only [Tracker.openSession, Tracker.openWrite, hword]; rfl⟩
    have hopen : exec (openSession t .write) f = (.ok ⟨⟩, f.noted t a f.profile) := by
      rw [exec_openSession_tracked ht hx, ha]
      rfl
    obtain ⟨r, g, p, hp, hsettings, hP⟩ := h a
    refine ⟨r, g, a.close .write, p, ?_, hword.symm, hP⟩
    have hg : (g.noted t a p).settings.tracking = true := by
      rw [← ht, ← hsettings]
      rfl
    rw [exec_withSession_ok hopen, hp, exec_closeSession_eq, if_pos hg]
    refine Prod.ext rfl ?_
    change { g with texts := (g.texts.modify t _).modify t _, profile := p } = g.noted t _ p
    rw [List.modify_modify_eq]
    rfl

/-- Balancing a text whose tree is balanced without a rotation changes
what the tracker and the profile note, and nothing else. -/
theorem exec_balanceIntervals_of_balance (hx : f.texts[t]? = some x)
    (hidle : f.settings.tracking = true → x.access.word = 0) (hw : x.root.Weighed)
    (hl : x.root.Linked) (hbalance : x.root.balance = (x.root, .ok 0))
    (hroot : f.settings.verifying = true →
      ∀ link ∈ x.root.link?, link = .owner t ∧ x.root.total = x.length) :
    ∃ a p, exec (balanceIntervals t) f = (.ok 0, f.noted t a p) ∧ a.word = x.access.word := by
  suffices h : ∃ r g a p, exec (balanceIntervals t) f = (r, g.noted t a p) ∧
      a.word = x.access.word ∧ r = .ok 0 ∧ g = f by
    obtain ⟨_, _, a, p, hexec, hword, rfl, rfl⟩ := h
    exact ⟨a, p, hexec, hword⟩
  refine exec_withSession_idle hx hidle fun a => ?_
  suffices h : ∃ p, exec _ (f.noted t a f.profile) = (.ok 0, f.noted t a p) by
    obtain ⟨p, hp⟩ := h
    exact ⟨.ok 0, f, p, hp, rfl, rfl, rfl⟩
  have hx' (p : Profile) := Forest.texts_noted hx a p
  rw [exec_bind_ok (exec_text (hx' _))]
  split
  · exact ⟨_, rfl⟩
  · obtain ⟨p, p', hp⟩ := exec_profiled "basic_text::balance_intervals" (do
      let rotations ← conclude (.text t) (← text t).root.balance
      addRotations rotations
      verify t
      pure rotations) (f.noted t a f.profile)
    refine ⟨p', hp.trans ?_⟩
    have hsame (p : Profile) : (f.noted t a p).plant x.root (.text t) = f.noted t a p :=
      Forest.modifyText_self (hx' p) rfl
    have hverify (p : Profile) : exec (verify t) (f.noted t a p) = (.ok ⟨⟩, f.noted t a p) := by
      rw [verify, exec_bind_ok (exec_get _)]
      split
      · next hv => exact exec_checkText_of (hx' p) hw hl (hroot hv)
      · rfl
    change (let r := exec _ (f.noted t a p); (r.1, { r.2 with profile := p' })) = _
    rw [exec_bind_ok (exec_text (hx' p)), hbalance, exec_bind_ok (exec_conclude _ _ _), hsame,
      exec_bind_ok (exec_addRotations _ _)]
    change (let r := exec _ (f.noted t a (p.add 0)); (r.1, { r.2 with profile := p' })) = _
    rw [exec_bind_ok (hverify _), exec_pure]
    rfl

/-- Balancing the tree of a place plants what balancing the tree gives. -/
theorem exec_balance {p : Place} {u w : Tree} {r : Except Fault Nat} (h : f.tree p = u)
    (hu : u.balance = (w, r)) : exec (balance p) f = (r, f.plant w p) := by
  rw [balance, exec_bind_ok (exec_get f), h, hu, exec_conclude]

end Run

/-! ## The fixpoint -/

namespace Tree

/-- **Balancing reaches a fixpoint at every node.** It ends without a
failure and keeps the spans, the link at the top and the weight. No node
of the result can be improved, by its weights or, what is the same, by a
rotation. No rotation is needed exactly where no node of the tree can be
improved, and then the tree is as it was. Balancing once more, at the
place of the tree or as the tree of a text, makes no rotation and changes
nothing but notes. -/
theorem balance_reaches_fixpoint {t : Tree} (h : t.WellFormed) (hb : t.total.toNat < 2 ^ 63) :
    ∃ u n, t.balance = (u, .ok n) ∧
      u.spans = t.spans ∧ u.link? = t.link? ∧ u.total = t.total ∧ u.WellFormed ∧
      (∀ c : Cursor, c.toTree = u → c.subtree.Poised) ∧
      (∀ c : Cursor, c.toTree = t ∨ c.toTree = u →
        (c.subtree.Poised ↔
          ∀ s w, c.subtree.rotateOwned s = .ok w → c.subtree.tilt.natAbs ≤ w.tilt.natAbs)) ∧
      (n = 0 ↔ ∀ c : Cursor, c.toTree = t → c.subtree.Poised) ∧ (n = 0 → u = t) ∧
      u.balance = (u, .ok 0) ∧
      (∀ (f : Forest) (p : Place), f.tree p = t →
        exec (Run.balance p) f = (.ok n, f.plant u p) ∧
          exec (Run.balance p) (f.plant u p) = (.ok 0, f.plant u p)) ∧
      ∀ (f : Forest) (text : TextId) (x : Text), f.texts[text]? = some x → x.root = u →
        (f.settings.tracking = true → x.access.word = 0) →
        (f.settings.verifying = true →
          ∀ link ∈ x.root.link?, link = .owner text ∧ x.root.total = x.length) →
        ∃ a p, exec (Run.balanceIntervals text) f = (.ok 0, f.noted text a p) ∧
          a.word = x.access.word := by
  obtain ⟨u, n, hu, hto⟩ := balanceAll_ok h.weighed hb
  rw [← balance_eq_balanceAll h hb] at hu
  have hkept := hto.reshaped
  have hwell := hkept.wellFormed h
  have hlight : u.total.toNat < 2 ^ 63 := hkept.total ▸ hb
  have hagain := hto.settled.balance hwell hlight
  refine ⟨u, n, hu, hkept.spans, hkept.link, hkept.total, hwell, settled_iff.mp hto.settled,
    fun c hc => ?_, ⟨fun h0 => ?_, fun hp => hto.still (settled_iff.mpr hp)⟩, hto.unchanged,
    hagain, fun f p hp => ⟨Run.exec_balance hp hu, ?_⟩, fun f text x hx hroot hidle hown => ?_⟩
  · have hboth : c.toTree.Weighed ∧ c.toTree.total.toNat < 2 ^ 63 := by
      rcases hc with rfl | rfl
      · exact ⟨h.weighed, hb⟩
      · exact ⟨hwell.weighed, hlight⟩
    have hle : c.subtree.total.toNat ≤ c.toTree.total.toNat := hboth.1.total_le_plug
    exact poised_iff (Cursor.weighed_subtree hboth.1) (Nat.lt_of_le_of_lt hle hboth.2)
  · have hsame := hto.unchanged h0
    subst hsame
    exact settled_iff.mp hto.settled
  · have hnil : (f.tree p).isNil = u.isNil := by rw [hp, isNil_of_size_eq hkept.size]
    rw [Run.exec_balance (Forest.tree_plant p hnil) hagain, Forest.plant_plant]
  · subst hroot
    exact Run.exec_balanceIntervals_of_balance hx hidle hwell.weighed hwell.linked hagain hown

/-- Three nodes in a line, all on the right. -/
def line : Tree :=
  .node { id := 0, data := { total := 12 } } .nil
    (.node { id := 1, link := .node 0, data := { total := 8, position := 4 } } .nil
      (.node { id := 2, link := .node 1, data := { total := 4, position := 8 } } .nil .nil))

/-- Three nodes in a line are balanced by rotations, once and for all. -/
theorem balance_line : line.WellFormed ∧ line.total.toNat < 2 ^ 63 ∧
    ∃ u n, line.balance = (u, .ok n) ∧ u.spans = line.spans ∧ n ≠ 0 ∧
      u.balance = (u, .ok 0) := by
  have hwell : line.WellFormed := by
    refine ⟨?_, ?_, by decide⟩
    · simp only [line, Weighed]
      decide
    · simp only [line, Linked]
      decide
  have hlight : line.total.toNat < 2 ^ 63 := by decide
  obtain ⟨u, n, hu, hspans, -, -, -, -, -, hzero, -, hagain, -⟩ :=
    balance_reaches_fixpoint hwell hlight
  refine ⟨hwell, hlight, u, n, hu, hspans, fun h0 => ?_, hagain⟩
  have hp := hzero.mp h0 ⟨_, _, _, []⟩ rfl .right
  revert hp
  simp only [PoisedOn]
  decide

end Tree

end SpanTree
