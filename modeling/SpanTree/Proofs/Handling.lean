/-
SpanTree.Proofs.Handling — the operations that move nodes between trees
leave all links true, whatever the weights and however they end.

`Handling` lists the operations: those of a text, of a slot and of a
node. Most of them work on one tree and rework it
(`SpanTree.Proofs.Reworks`). The others carry a tree from one place to
another. Between the two places the tree is `InHand`: no place has a node
of it, and its top is linked to no node.

`upright_after_run` is about runs of such operations, the failed ones
included. That the links are true is also what the checks see: of such a
forest they only ever report weights.
-/
import Mathlib.Data.UInt
import Mathlib.Logic.Relation
import SpanTree.Proofs.Checks
import SpanTree.Proofs.Reworks

namespace SpanTree

open Relation (ReflTransGen)

/-! ## Trees in hand -/

/-- A linked tree that no place has, fit for a slot. -/
structure Forest.InHand (f : Forest) (u : Tree) : Prop where
  linked : u.Linked
  top : ∀ link ∈ u.link?, link = .unset ∨ ∃ t, link = .owner t
  distinct : u.ids.Nodup
  apart : ∀ p, ∀ id ∈ u.ids, id ∉ (f.tree p).ids
  fresh : ∀ id ∈ u.ids, id < f.nextId

namespace Forest

variable {f : Forest} {p q : Place} {u : Tree} {id : NodeId}

theorem nextId_plant (f : Forest) (u : Tree) (p : Place) : (f.plant u p).nextId = f.nextId := by
  cases p <;> rfl

/-- The nodes after planting are those of the new tree and those elsewhere. -/
theorem mem_ids_plant (h : id ∈ ((f.plant u p).tree q).ids) :
    (q = p ∧ id ∈ u.ids) ∨ (q ≠ p ∧ id ∈ (f.tree q).ids) := by
  by_cases hq : q = p
  · subst hq
    rcases tree_plant_cases f u q with hu | hu
    · exact .inl ⟨rfl, hu ▸ h⟩
    · simp [hu] at h
  · rw [tree_plant_of_ne hq] at h
    exact .inr ⟨hq, h⟩

/-- A tree is planted that fits at the place and has no node of a tree elsewhere. -/
theorem Upright.planted (hf : f.Upright) (hlinked : u.Linked)
    (htop : ∀ link ∈ u.link?, p.Admits link) (hdistinct : u.ids.Nodup)
    (hapart : ∀ q, q ≠ p → ∀ id ∈ u.ids, id ∉ (f.tree q).ids)
    (hfresh : ∀ id ∈ u.ids, id < f.nextId) : (f.plant u p).Upright := by
  -- what holds of every tree holds of the new one, of no tree, and of the trees elsewhere
  have hevery {P : Place → Tree → Prop} (hu : P p u) (hnil : P p .nil)
      (helse : ∀ q, P q (f.tree q)) (q : Place) : P q ((f.plant u p).tree q) := by
    by_cases hq : q = p
    · subst hq
      rcases tree_plant_cases f u q with h | h <;> rwa [h]
    · rw [tree_plant_of_ne hq]
      exact helse q
  refine ⟨?_, ?_, ?_, ?_, ?_⟩
  · exact hevery (P := fun _ t => t.Linked) hlinked Tree.linked_nil hf.linked
  · exact hevery (P := fun q t => ∀ link ∈ t.link?, q.Admits link) htop (by simp) hf.top
  · exact hevery (P := fun _ t => t.ids.Nodup) hdistinct List.nodup_nil hf.distinct
  · intro q r hqr id hid hmem
    rcases mem_ids_plant hid with ⟨hq, hid⟩ | ⟨hq, hid⟩
    · rcases mem_ids_plant hmem with ⟨hr, -⟩ | ⟨hr, hmem⟩
      · exact hqr (hq.trans hr.symm)
      · exact hapart r hr id hid hmem
    · rcases mem_ids_plant hmem with ⟨-, hmem⟩ | ⟨-, hmem⟩
      · exact hapart q hq id hmem hid
      · exact hf.apart q r hqr id hid hmem
  · intro q id hid
    rw [nextId_plant]
    rcases mem_ids_plant hid with ⟨-, hid⟩ | ⟨-, hid⟩
    · exact hfresh id hid
    · exact hf.fresh q id hid

/-- A place is emptied. -/
theorem Upright.emptied (hf : f.Upright) (p : Place) : (f.plant .nil p).Upright :=
  hf.planted Tree.linked_nil (by simp) List.nodup_nil (by simp) (by simp)

/-- The tree of a place that was emptied is in hand. -/
theorem Upright.taken (hf : f.Upright) (p : Place) : (f.plant .nil p).InHand (f.tree p) where
  linked := hf.linked p
  top link hlink := (hf.top p link hlink).unset_or_owner
  distinct := hf.distinct p
  apart q id hid hmem := by
    rcases mem_ids_plant hmem with ⟨-, hmem⟩ | ⟨hq, hmem⟩
    · cases hmem
    · exact hf.apart p q (Ne.symm hq) id hid hmem
  fresh id hid := by
    rw [nextId_plant]
    exact hf.fresh p id hid

theorem InHand.nil (f : Forest) : f.InHand .nil :=
  ⟨Tree.linked_nil, by simp, List.nodup_nil, by simp, by simp⟩

/-- A tree in hand is put at a place, with a link that the place admits. -/
theorem Upright.put (hf : f.Upright) (hu : f.InHand u) {link : Link} (hlink : p.Admits link) :
    (f.plant (u.setLink link) p).Upright := by
  refine hf.planted ((Tree.linked_setLink _ _).mpr hu.linked) ?_ ?_ ?_ ?_
  · cases u with
    | nil => simp [Tree.setLink]
    | node n l r => simpa [Tree.setLink, Node.withLink] using hlink
  · simpa using hu.distinct
  · simpa using fun q _ => hu.apart q
  · simpa using hu.fresh

/-- A tree in hand is put into a slot. -/
theorem Upright.stored (hf : f.Upright) (hu : f.InHand u) (slot : String) :
    (f.plant u (.loose slot)).Upright :=
  hf.planted hu.linked hu.top hu.distinct (fun q _ => hu.apart q) hu.fresh

/-- A tree in hand is hung on a side of a node, and what hung there is in hand. -/
theorem Upright.hung (hf : f.Upright) (hu : f.InHand u) {c : Cursor} (htree : c.toTree = f.tree p)
    (s : Side) :
    let g := f.plant (c.withChild s (u.setLink (.node c.node.id))).toTree p
    g.Upright ∧ g.InHand ((c.child s).setLink .unset) := by
  intro g
  have hl : c.toTree.Linked := htree ▸ hf.linked p
  have hold : (f.tree p).ids.Perm ((c.child s).ids ++ c.rest s) := htree ▸ c.ids_toTree s
  have hnew : (c.withChild s (u.setLink (.node c.node.id))).toTree.ids.Perm
      (u.ids ++ c.rest s) := by
    rw [← Tree.ids_setLink (.node c.node.id) u]
    exact c.ids_withChild s _
  have hchild {id : NodeId} (hid : id ∈ (c.child s).ids) : id ∈ (f.tree p).ids :=
    hold.mem_iff.mpr (List.mem_append_left _ hid)
  have hrest {id : NodeId} (hid : id ∈ c.rest s) : id ∈ (f.tree p).ids :=
    hold.mem_iff.mpr (List.mem_append_right _ hid)
  obtain ⟨hdchild, hdrest, hcut⟩ := List.nodup_append.mp (hold.nodup_iff.mp (hf.distinct p))
  have hhangs : (u.setLink (.node c.node.id)).Hangs (some (.node c.node.id)) u.ids := by
    refine ⟨(Tree.linked_setLink _ _).mpr hu.linked, ?_, by rw [Tree.ids_setLink]⟩
    cases u <;> simp [Tree.setLink, Node.withLink]
  have hw := Cursor.hangs_withChild hl s hhangs
  constructor
  · refine hf.planted hw.linked (fun link hlink => ?_) ?_ (fun q hq id hid hmem => ?_)
      fun id hid => ?_
    · exact hf.top p link (htree ▸ hw.link link hlink)
    · exact hnew.nodup_iff.mpr (List.nodup_append.mpr ⟨hu.distinct, hdrest, fun a ha b hb hab =>
        hu.apart p a ha (hab ▸ hrest hb)⟩)
    · rcases List.mem_append.mp (hnew.mem_iff.mp hid) with hid | hid
      · exact hu.apart q id hid hmem
      · exact hf.apart p q (Ne.symm hq) id (hrest hid) hmem
    · rcases List.mem_append.mp (hnew.mem_iff.mp hid) with hid | hid
      · exact hu.fresh id hid
      · exact hf.fresh p id (hrest hid)
  · refine ⟨?_, ?_, ?_, fun q id hid hmem => ?_, fun id hid => ?_⟩
    · exact (Tree.linked_setLink _ _).mpr ((Cursor.linked_subtree hl).child s)
    · cases c.child s <;> simp [Tree.setLink, Node.withLink]
    · rwa [Tree.ids_setLink]
    · rw [Tree.ids_setLink] at hid
      rcases mem_ids_plant hmem with ⟨-, hmem⟩ | ⟨hq, hmem⟩
      · rcases List.mem_append.mp (hnew.mem_iff.mp hmem) with hmem | hmem
        · exact hu.apart p id hmem (hchild hid)
        · exact hcut id hid id hmem rfl
      · exact hf.apart p q (Ne.symm hq) id (hchild hid) hmem
    · rw [Tree.ids_setLink] at hid
      rw [nextId_plant]
      exact hf.fresh p id (hchild hid)

end Forest

/-! ## Taking trees and putting them -/

namespace Run

variable {f : Forest} {id : NodeId} {t : TextId}

/-- What is given is in hand, and the forest is upright; also where nothing is given. -/
def Yields (x : Run Tree) (f : Forest) : Prop :=
  (exec x f).2.Upright ∧ ∀ u, (exec x f).1 = .ok u → (exec x f).2.InHand u

/-- Puts a tree that is given into a slot, or drops it. -/
def keep (into : Option String) (x : Run Tree) : Run Unit := do
  let u ← x
  match into with
  | some slot => storeLoose slot u
  | none => pure ()

/-- The tree of a slot, or none. -/
def lend : Option String → Run Tree
  | some slot => takeLoose slot
  | none => pure .nil

theorem upright_keep {x : Run Tree} (h : Yields x f) (into : Option String) :
    (exec (keep into x) f).2.Upright := by
  obtain ⟨hg, hu⟩ := h
  rw [keep, exec_bind]
  cases hx : exec x f with
  | mk r g =>
    rw [hx] at hg hu
    cases r with
    | error e => exact hg
    | ok u =>
      cases into with
      | none => exact hg
      | some slot => exact hg.stored (hu u rfl) slot

theorem exec_takeLoose (slot : String) (f : Forest) :
    exec (takeLoose slot) f = (.ok (f.tree (.loose slot)), f.plant .nil (.loose slot)) := rfl

theorem yields_lend (hf : f.Upright) (slot : Option String) : Yields (lend slot) f := by
  cases slot with
  | none =>
    refine ⟨hf, fun u h => ?_⟩
    cases h
    exact .nil f
  | some slot =>
    refine ⟨hf.emptied (.loose slot), fun u h => ?_⟩
    cases h
    exact hf.taken (.loose slot)

theorem yields_detachRoot (hf : f.Upright) (t : TextId) : Yields (detachRoot t) f := by
  cases hx : f.texts[t]? with
  | none =>
    rw [Yields, detachRoot, exec_bind_error (exec_text_none hx)]
    exact ⟨hf, fun u h => by cases h⟩
  | some x =>
    have hexec : exec (detachRoot t) f = (.ok (f.tree (.text t)), f.plant .nil (.text t)) := by
      rw [detachRoot, exec_bind_ok (exec_text hx), Forest.tree_text hx]
      rfl
    rw [Yields, hexec]
    refine ⟨hf.emptied (.text t), fun u h => ?_⟩
    cases h
    exact hf.taken (.text t)

/-- A tree in hand is installed on a side of a node. If no tree has the node, it is lost. -/
theorem yields_setChild {u : Tree} (hf : f.Upright) (hu : f.InHand u) (s : Side) (id : NodeId) :
    Yields (setChild s id u) f := by
  cases hc : f.locate? id with
  | none =>
    rw [Yields, setChild, exec_bind_error (exec_locate_none hc)]
    exact ⟨hf, fun u h => by cases h⟩
  | some site =>
    obtain ⟨p, c⟩ := site
    obtain ⟨htree, hnode, -⟩ := Forest.locate?_some hc
    obtain ⟨hg, hformer⟩ := hf.hung hu htree s
    rw [hnode] at hg hformer
    rw [Yields, setChild, exec_bind_ok (exec_locate hc)]
    refine ⟨hg, fun u h => ?_⟩
    cases h
    exact hformer

theorem yields_bind {x : Run Tree} {k : Tree → Run Tree} (h : Yields x f)
    (hk : ∀ u g, g.Upright → g.InHand u → Yields (k u) g) : Yields (x >>= k) f := by
  obtain ⟨hg, hu⟩ := h
  rw [Yields, exec_bind]
  cases hx : exec x f with
  | mk r g =>
    rw [hx] at hg hu
    cases r with
    | error e => exact ⟨hg, fun u h => by cases h⟩
    | ok u => exact hk u g hg (hu u rfl)

/-- A text gets the tree of a slot. -/
theorem upright_attachRoot (hf : f.Upright) (t : TextId) (slot : String) :
    (exec (do attachRoot t (← takeLoose slot)) f).2.Upright := by
  rw [exec_bind_ok (exec_takeLoose slot f)]
  exact (hf.emptied (.loose slot)).put (p := .text t) (hf.taken (.loose slot)) rfl

/-- An owned rotation of a loose tree. Where it fails the tree is gone. -/
theorem upright_rotateLoose (hf : f.Upright) (s : Side) (slot : String) :
    (exec (rotateLoose s slot) f).2.Upright := by
  rw [rotateLoose, exec_bind_ok (exec_takeLoose slot f)]
  cases hrot : (f.tree (.loose slot)).rotateOwned s with
  | error v => exact hf.emptied (.loose slot)
  | ok u =>
    have hu := Tree.hangs_rotateOwned (hf.linked (.loose slot)) hrot
    have hin := hf.taken (.loose slot)
    refine (hf.emptied (.loose slot)).stored ⟨hu.linked, ?_, hu.distinct hin.distinct, ?_, ?_⟩ slot
    · exact fun link hlink => hin.top link (hu.link link hlink)
    · exact fun q id hid => hin.apart q id (hu.ids.subset hid)
    · exact fun id hid => hin.fresh id (hu.ids.subset hid)

/-- An operation that begins with a node, and reworks the tree that has it. -/
theorem upright_of_locate {α : Type} {k : Site → Run α} (hf : f.Upright)
    (h : ∀ p c, f.locate? id = some ⟨p, c⟩ → f.Reworked p (exec (locate id >>= k) f).2) :
    (exec (locate id >>= k) f).2.Upright := by
  obtain ⟨p, hwork⟩ := reworked_of_locate hf h
  exact hf.reworked hwork

end Run

/-! ## What the checks report -/

namespace Forest.Upright

variable {f : Forest} {t : TextId} {v : Violation}

/-- The check of a node of an upright forest can only report weights. -/
theorem of_checkInvariants (hf : f.Upright) {id : NodeId}
    (h : (exec (Run.checkInvariants id) f).1 = .error (.violation v)) : v = .emptyOwnRange := by
  cases hc : f.locate? id with
  | none =>
    rw [Run.checkInvariants, exec_bind_error (Run.exec_locate_none hc)] at h
    cases h
  | some site =>
    obtain ⟨p, c⟩ := site
    have hl : c.subtree.Linked := by
      refine Cursor.linked_subtree ?_
      rw [(locate?_some hc).1]
      exact hf.linked p
    rw [Run.checkInvariants, exec_bind_ok (Run.exec_locate hc)] at h
    dsimp only at h
    cases hcheck : c.subtree.check with
    | ok _ => simp [hcheck] at h
    | error w =>
      rw [hcheck] at h
      cases h
      exact Tree.eq_of_check_error hl hcheck

/-- The check of a text of an upright forest can only report weights. -/
theorem of_checkText (hf : f.Upright) (h : (exec (Run.checkText t) f).1 = .error (.violation v)) :
    v = .textUncovered ∨ v = .emptyOwnRange := by
  cases hx : f.texts[t]? with
  | none =>
    rw [Run.checkText, exec_bind_error (Run.exec_text_none hx)] at h
    cases h
  | some x =>
    have htree : f.tree (.text t) = x.root := tree_text hx
    have htop := hf.top (.text t)
    have hl := hf.linked (.text t)
    rw [htree] at htop hl
    rw [Run.checkText, exec_bind_ok (Run.exec_text hx)] at h
    cases hroot : x.root with
    | nil => simp [hroot] at h
    | node n l r =>
      rw [hroot] at htop hl h
      have hlink : n.link = .owner t := htop n.link rfl
      dsimp only at h
      rw [exec_bind_ok (Run.exec_require (by simp [hlink]) _ _)] at h
      by_cases htotal : n.data.total = x.length
      · rw [exec_bind_ok (Run.exec_require (by simp [htotal]) _ _)] at h
        cases hcheck : (Tree.node n l r).check with
        | ok _ => simp [hcheck] at h
        | error w =>
          rw [hcheck] at h
          cases h
          exact .inr (Tree.eq_of_check_error hl hcheck)
      · rw [exec_bind_error (Run.exec_require_not (by simp [htotal]) _ _)] at h
        cases h
        exact .inl rfl

/-- So can the check that a text offers, which may also be refused. -/
theorem of_checkIntervals (hf : f.Upright)
    (h : (exec (Run.checkIntervals t) f).1 = .error (.violation v)) :
    v = .textUncovered ∨ v = .emptyOwnRange := by
  rcases Run.session_cases t .read f with ⟨e, hopen, he⟩ | ⟨f', hopen, hsame, -⟩
  · rw [Run.checkIntervals, Run.exec_withSession_error hopen] at h
    cases h
    rcases he with he | ⟨o, he⟩ <;> cases he
  · rw [Run.checkIntervals, Run.exec_withSession_ok hopen] at h
    exact (hsame.upright hf).of_checkText h

end Forest.Upright

/-! ## Handling -/

/-- An operation that moves nodes or links them anew. A tree that is given back goes into a
slot or is dropped. -/
inductive Handling where
  | createRoot (t : TextId)
  | intervals (t : TextId)
  | findInterval (t : TextId) (position : Size)
  | balanceIntervals (t : TextId)
  | attachRoot (t : TextId) (slot : String)
  | detachRoot (t : TextId) (into : Option String)
  | balance (slot : String)
  | balanceSelf (slot : String)
  | rotateLoose (s : Side) (slot : String)
  | setChild (s : Side) (id : NodeId) (slot into : Option String)
  | takeChild (s : Side) (id : NodeId) (into : Option String)
  | find (id : NodeId) (position : Size)
  | balancePossibleRoot (id : NodeId)
  | rotateInPlace (s : Side) (id : NodeId)
  | split (s : Side) (id : NodeId) (offset : Size)
  | merge (s : Side) (id : NodeId)
  | remove (id : NodeId)

namespace Handling

/-- The forest after an operation, whether or not it succeeded. -/
def after (f : Forest) : Handling → Forest
  | createRoot t => (exec (Run.createRoot t) f).2
  | intervals t => (exec (Run.intervals t) f).2
  | findInterval t position => (exec (Run.findInterval t position) f).2
  | balanceIntervals t => (exec (Run.balanceIntervals t) f).2
  | attachRoot t slot => (exec (do Run.attachRoot t (← Run.takeLoose slot)) f).2
  | detachRoot t into => (exec (Run.keep into (Run.detachRoot t)) f).2
  | balance slot => (exec (Run.balance (.loose slot)) f).2
  | balanceSelf slot => (exec (Run.balanceSelf (.loose slot)) f).2
  | rotateLoose s slot => (exec (Run.rotateLoose s slot) f).2
  | setChild s id slot into =>
    (exec (Run.keep into (do Run.setChild s id (← Run.lend slot))) f).2
  | takeChild s id into => (exec (Run.keep into (Run.takeChild s id)) f).2
  | find id position => (exec (Run.find id position) f).2
  | balancePossibleRoot id => (exec (Run.balancePossibleRoot id) f).2
  | rotateInPlace s id => (exec (Run.rotateInPlace s id) f).2
  | split s id offset => (exec (Run.split s id offset) f).2
  | merge s id => (exec (Run.merge s id) f).2
  | remove id => (exec (Run.remove id) f).2

/-- No tree is installed below one of its own nodes. -/
def Acyclic (f : Forest) : Handling → Prop
  | setChild _ id (some slot) _ => id ∉ (f.tree (.loose slot)).ids
  | _ => True

open Run in
/-- One operation leaves an upright forest upright. -/
theorem upright_after {f : Forest} (hf : f.Upright) (h : Handling) : (h.after f).Upright := by
  cases h with
  | createRoot t => exact hf.reworked (reworked_createRoot hf t)
  | intervals t => exact hf.reworked (reworked_intervals hf t)
  | findInterval t position => exact hf.reworked (reworked_findInterval hf t position)
  | balanceIntervals t => exact hf.reworked (reworked_balanceIntervals hf t)
  | attachRoot t slot => exact upright_attachRoot hf t slot
  | detachRoot t into => exact upright_keep (yields_detachRoot hf t) into
  | balance slot => exact hf.reworked (reworked_balance hf _)
  | balanceSelf slot => exact hf.reworked (reworked_balanceSelf hf _)
  | rotateLoose s slot => exact upright_rotateLoose hf s slot
  | setChild s id slot into =>
    exact upright_keep (yields_bind (yields_lend hf slot) fun _ _ hg hu =>
      yields_setChild hg hu s id) into
  | takeChild s id into => exact upright_keep (yields_setChild hf (.nil f) s id) into
  | find id position =>
    obtain ⟨p, hwork⟩ := exists_reworked_find hf id position
    exact hf.reworked hwork
  | balancePossibleRoot id =>
    exact upright_of_locate hf fun _ _ hc => (reworked_balancePossibleRoot hf hc).1
  | rotateInPlace s id => exact upright_of_locate hf fun _ _ hc => reworked_rotateInPlace hf hc s
  | split s id offset => exact upright_of_locate hf fun _ _ hc => reworked_split hf hc s offset
  | merge s id => exact upright_of_locate hf fun _ _ hc => reworked_merge hf hc s
  | remove id => exact upright_of_locate hf fun _ _ hc => reworked_remove hf hc

/-- One operation after another, whether or not they succeed. -/
def Handled (f g : Forest) : Prop := ∃ h : Handling, h.Acyclic f ∧ g = h.after f

/-- **Links are true** after every run of operations that move nodes, whatever the weights, and
whichever of the operations fail: each child is linked to the node that holds it, the root of each
text to the text, and the top of a loose tree to no node. What the checks of nodes and of texts
report is then never a link. -/
theorem upright_after_run {f g : Forest} (hf : f.Upright) (hrun : ReflTransGen Handled f g) :
    g.Upright ∧
      (∀ id v, (exec (Run.checkInvariants id) g).1 = .error (.violation v) →
        v = .emptyOwnRange) ∧
      ∀ t v, (exec (Run.checkIntervals t) g).1 = .error (.violation v) →
        v = .textUncovered ∨ v = .emptyOwnRange := by
  have hg : g.Upright := by
    induction hrun with
    | refl => exact hf
    | tail _ hstep ih =>
      obtain ⟨h, -, rfl⟩ := hstep
      exact upright_after ih h
  exact ⟨hg, fun _ _ => hg.of_checkInvariants, fun _ _ => hg.of_checkIntervals⟩

/-- A text without a tree, and nodes to come from number 4 on. -/
def unplanted : Forest :=
  { texts := [{ name := "t", beginOffset := 0, content := "abc" }], nextId := 4 }

theorem tree_unplanted (p : Place) : unplanted.tree p = .nil := by
  rcases p with (_ | t) | slot <;> rfl

theorem upright_unplanted : unplanted.Upright := .of_nil tree_unplanted

/-- A tree whose top weighs less than either of its children. -/
def crookedTree : Tree :=
  .node { id := 0, link := .owner 0, data := { total := 3 } }
    (.node { id := 1, link := .node 0, data := { total := 2 ^ 63 } } .nil .nil)
    (.node { id := 2, link := .node 0, data := { total := 2 ^ 63 + 1 } } .nil .nil)

/-- The crooked tree as the tree of the text, and a loose node of no weight. -/
def crooked : Forest :=
  (unplanted.plant crookedTree (.text 0)).plant (.node { id := 3 } .nil .nil) (.loose "spare")

theorem upright_crooked : crooked.Upright := by
  have htext : (unplanted.plant crookedTree (.text 0)).Upright := by
    refine upright_unplanted.planted ⟨rfl, rfl, ⟨rfl, rfl, trivial, trivial⟩,
      ⟨rfl, rfl, trivial, trivial⟩⟩ ?_ (by decide) (by simp [tree_unplanted]) (by decide)
    rintro link ⟨⟩
    rfl
  refine htext.planted ⟨rfl, rfl, trivial, trivial⟩ ?_ (by decide) ?_ (by decide)
  · rintro link ⟨⟩
    exact .inl rfl
  · intro q _ id hid hmem
    obtain rfl : id = 3 := by simpa using hid
    rcases Forest.mem_ids_plant hmem with ⟨-, hmem⟩ | ⟨-, hmem⟩
    · exact absurd hmem (by decide)
    · simp [tree_unplanted] at hmem

/-- The loose node is hung below a leaf of the crooked tree, and the tree is balanced, which the
weights make fail. The links are true. -/
theorem upright_after_run_crooked :
    crooked.Upright ∧
      ((balanceIntervals 0).after ((setChild .left 1 (some "spare") none).after crooked)).Upright :=
  ⟨upright_crooked, (upright_after_run upright_crooked (.tail (.tail .refl
    ⟨setChild .left 1 (some "spare") none, show 1 ∉ [3] by decide, rfl⟩)
    ⟨balanceIntervals 0, trivial, rfl⟩)).1⟩

end Handling

end SpanTree
