/-
SpanTree.Proofs.Places — the trees of a forest, each at its place.

Planting a tree changes what is at one place, a text or a slot, and at no
other. Looking up a node goes through all trees; a node that one tree has
and no other is found in that one (`locate?_eq`). Both are stated for
texts and slots alike, so that what follows from them holds of attached
and of loose trees.

A slot is a key of a table, and planting a tree once more in a slot that
holds it changes nothing only if the keys of the table increase.
-/
import SpanTree.Forest.Basic
import SpanTree.Proofs.Paths
import SpanTree.Proofs.Tables

namespace SpanTree

namespace Forest

variable {f : Forest} {p q : Place} {t : TextId} {u : Tree} {id : NodeId}

/-! ## Planting a tree -/

theorem tree_text {x : Text} (h : f.texts[t]? = some x) : f.tree (.text t) = x.root := by
  simp [tree, h]

/-- Beside the only text of a forest without loose trees there is no tree. -/
theorem tree_of_single {x : Text} (htexts : f.texts = [x]) (hloose : f.loose = {})
    (hp : p ≠ .text 0) : f.tree p = .nil := by
  rcases p with (_ | i) | slot
  · exact absurd rfl hp
  · simp [tree, htexts]
  · rw [tree, hloose]
    rfl

theorem texts_plant (u : Tree) (x : Text) (h : f.texts[t]? = some x) :
    (f.plant u (.text t)).texts[t]? = some { x with root := u } := by
  simp [plant, modifyText, h]

/-- A change that changes nothing of a text. -/
theorem modifyText_self {x : Text} (hx : f.texts[t]? = some x) {g : Text → Text} (hg : g x = x) :
    f.modifyText t g = f := by
  have htexts : f.texts.modify t g = f.texts := by
    refine List.ext_getElem? fun i => ?_
    rw [List.getElem?_modify]
    split
    · next hi =>
      subst hi
      simp [hx, hg]
    · exact Option.map_id'
  simp only [modifyText, htexts]

/-- A tracker is no part of a tree. -/
theorem tree_access (f : Forest) (t : TextId) (a : Tracker → Tracker) (p : Place) :
    (f.modifyText t fun x => { x with access := a x.access }).tree p = f.tree p := by
  cases p with
  | loose slot => rfl
  | text i =>
    simp only [tree, modifyText, List.getElem?_modify]
    split <;> cases f.texts[i]? <;> rfl

/-- Two changes of one text. -/
theorem modifyText_modifyText (f : Forest) (t : TextId) (g h : Text → Text) :
    (f.modifyText t g).modifyText t h = f.modifyText t (h ∘ g) := by
  simp only [modifyText, List.modify_modify_eq]

/-- A tree takes the place of another. -/
theorem tree_plant_of_node (h : (f.tree p).isNil = false) (u : Tree) :
    (f.plant u p).tree p = u := by
  cases p with
  | text i =>
    cases hx : f.texts[i]? with
    | some x => exact tree_text (texts_plant u x hx)
    | none => simp [tree, hx, Tree.isNil] at h
  | loose slot => simp [tree, plant, Table.get?_insert]

/-- A place is left empty. -/
theorem tree_plant_nil (f : Forest) (p : Place) : (f.plant .nil p).tree p = .nil := by
  cases p with
  | text i => cases hx : f.texts[i]? <;> simp [tree, plant, modifyText, hx]
  | loose slot => simp [tree, plant, Table.get?_insert]

/-- The tree of a place is the one that was planted there, if the place
exists. -/
theorem tree_plant (p : Place) {u : Tree} (h : (f.tree p).isNil = u.isNil) :
    (f.plant u p).tree p = u := by
  cases u with
  | nil => exact f.tree_plant_nil p
  | node n l r => exact tree_plant_of_node h _

/-- A tree is planted in one place only. -/
theorem tree_plant_of_ne (h : q ≠ p) (u : Tree) : (f.plant u p).tree q = f.tree q := by
  cases p with
  | text i =>
    cases q with
    | loose slot => rfl
    | text j =>
      have hne : i ≠ j := fun heq => h (heq ▸ rfl)
      simp [tree, plant, modifyText, hne]
  | loose slot =>
    cases q with
    | text j => rfl
    | loose other =>
      have hne : other ≠ slot := fun heq => h (heq ▸ rfl)
      simp [tree, plant, Table.get?_insert, hne]

/-- A tree that is planted replaces one that was planted before. -/
theorem plant_replace (f : Forest) (u w : Tree) (p : Place) :
    (f.plant u p).plant w p = f.plant w p := by
  cases p with
  | text i => exact modifyText_modifyText f i _ _
  | loose slot =>
    suffices hins : Table.insertEntry slot w (Table.insertEntry slot u f.loose.entries) =
        Table.insertEntry slot w f.loose.entries by
      simp only [plant, Table.insert, hins]
    induction f.loose.entries with
    | nil => simp [Table.insertEntry]
    | cons e rest ih =>
      simp only [Table.insertEntry]
      split
      · simp [Table.insertEntry]
      · split
        · simp [Table.insertEntry]
        · simp_all [Table.insertEntry]

/-- Planting a tree once more changes nothing. -/
theorem plant_plant (f : Forest) (u : Tree) (p : Place) :
    (f.plant u p).plant u p = f.plant u p := f.plant_replace u u p

/-- Planting the tree that a text has changes nothing. -/
theorem plant_self (f : Forest) (t : TextId) : f.plant (f.tree (.text t)) (.text t) = f := by
  cases hx : f.texts[t]? with
  | none => simp [plant, modifyText, List.modify_eq_self (List.getElem?_eq_none_iff.mp hx)]
  | some x => exact modifyText_self hx (by rw [tree_text hx])

/-- Planting the tree that is at a place changes nothing, if there is one. -/
theorem plant_same (hloose : f.loose.Ordered) (h : (f.tree p).isNil = false) :
    f.plant (f.tree p) p = f := by
  cases p with
  | text t => exact f.plant_self t
  | loose slot =>
    cases hslot : f.loose.get? slot with
    | none =>
      rw [tree, hslot] at h
      cases h
    | some u =>
      have htree : f.tree (.loose slot) = u := by rw [tree, hslot, Option.getD_some]
      rw [htree, plant, hloose.insert_self hslot]

/-- To plant a tree changes something, unless the tree is there already. -/
theorem plant_eq_self_iff (hloose : f.loose.Ordered) (h : (f.tree p).isNil = false) :
    f.plant u p = f ↔ u = f.tree p := by
  constructor
  · intro hsame
    rw [← tree_plant_of_node h u, hsame]
  · rintro rfl
    exact plant_same hloose h

/-! ## Looking up a node -/

theorem findSome?_of_unique {α β : Type} [DecidableEq α] {g : α → Option β} {l : List α} {a : α}
    (ha : a ∈ l) (hother : ∀ x ∈ l, x ≠ a → g x = none) : l.findSome? g = g a := by
  induction l with
  | nil => simp at ha
  | cons x rest ih =>
    by_cases hx : x = a
    · subst hx
      rw [List.findSome?_cons]
      cases hg : g x with
      | some b => rfl
      | none =>
        simp only [List.findSome?_eq_none_iff]
        intro y hy
        by_cases hyx : y = x
        · rw [hyx, hg]
        · exact hother y (List.mem_cons_of_mem _ hy) hyx
    · rw [List.findSome?_cons, hother x List.mem_cons_self hx]
      exact ih (by simpa [Ne.symm hx] using ha) fun y hy => hother y (List.mem_cons_of_mem _ hy)

/-- A place with a node is among the places that are looked through. -/
theorem mem_places (h : id ∈ (f.tree p).ids) : p ∈ f.places := by
  unfold places
  cases p with
  | text t =>
    cases hx : f.texts[t]? with
    | none => simp [tree, hx] at h
    | some x =>
      have hlt := (List.getElem?_eq_some_iff.mp hx).1
      simp [hlt]
  | loose slot =>
    cases hslot : f.loose.get? slot with
    | none => simp [tree, hslot] at h
    | some u => exact List.mem_append_right _ (List.mem_map.mpr ⟨_, Table.mem_of_get? hslot, rfl⟩)

/-- A node that one tree has and no other is looked up there. -/
theorem locate?_eq (hid : id ∈ (f.tree p).ids) (halone : ∀ q, q ≠ p → id ∉ (f.tree q).ids) :
    f.locate? id = ((f.tree p).locate? id).map fun c => ⟨p, c⟩ := by
  refine findSome?_of_unique (mem_places hid) fun q _ hq => ?_
  rw [Tree.locate?_eq_none (halone q hq)]
  rfl

theorem subtree?_eq (hid : id ∈ (f.tree p).ids) (halone : ∀ q, q ≠ p → id ∉ (f.tree q).ids) :
    f.subtree? id = (f.tree p).subtree? id := by
  refine findSome?_of_unique (mem_places hid) fun q _ hq => ?_
  rw [Tree.subtree?_eq_locate?, Tree.locate?_eq_none (halone q hq)]
  rfl

/-- The cursor that a node is looked up with. -/
theorem exists_cursor (hid : id ∈ (f.tree p).ids) (halone : ∀ q, q ≠ p → id ∉ (f.tree q).ids) :
    ∃ c, f.locate? id = some ⟨p, c⟩ ∧ c.toTree = f.tree p ∧ c.node.id = id := by
  obtain ⟨c, hc, htree, hnode⟩ := Tree.locate?_of_mem hid
  exact ⟨c, by rw [locate?_eq hid halone, hc]; rfl, htree, hnode⟩

end Forest

end SpanTree
