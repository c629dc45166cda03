/-
SpanTree.Proofs.Reworks — what an operation on a forest changes, whatever
the weights of its trees.

In an `Upright` forest every tree is linked as its place asks for, and no
two trees share a node. An operation that is given a node works on the
tree that has the node and on no other. `Forest.Reworked` says what it
leaves: the tree at the place has nodes that it had before or that are
new, it is linked again, and everything around it is as it was, with the
words of all trackers. A reworked forest is upright, and what reworks one
tree twice reworks it.

Nothing is assumed of the weights, so that every check may fail and every
balancing may break off. The lemmas hold however the operation ends. If
the tree is that of a text and covers the text, it does so afterwards.
-/
import SpanTree.Proofs.Fills
import SpanTree.Proofs.Rejections
import SpanTree.Proofs.Texts

namespace SpanTree

/-- What a text is beside its tree: its name, its place, its characters, and the word of its
tracker. -/
def Text.cover (x : Text) : String × Size × String × UInt32 :=
  (x.name, x.beginOffset, x.content, x.access.word)

namespace Forest

/-! ## Upright forests -/

/-- The links of all trees are true: every child is linked to the node that holds it, the tree of
a text to the text, and the top of a loose tree to no node. Every node is in one place, and nodes
that are made later are others. -/
structure Upright (f : Forest) : Prop where
  linked : ∀ p, (f.tree p).Linked
  top : ∀ p, ∀ link ∈ (f.tree p).link?, p.Admits link
  distinct : ∀ p, (f.tree p).ids.Nodup
  apart : ∀ p q, p ≠ q → ∀ id ∈ (f.tree p).ids, id ∉ (f.tree q).ids
  fresh : ∀ p, ∀ id ∈ (f.tree p).ids, id < f.nextId

/-- What the texts are beside their trees. -/
def covers (f : Forest) : List (String × Size × String × UInt32) := f.texts.map Text.cover

/-- The characters of the texts. -/
def contents (f : Forest) : List String := f.texts.map (·.content)

/-- If the place is a text, of a size that fits, its tree covers it. -/
def Filled (f : Forest) (p : Place) : Prop :=
  ∀ t content, p = .text t → f.contents[t]? = some content → content.utf8ByteSize < 2 ^ 63 →
    (f.tree p).Fills content.utf8ByteSize

/-- The second forest is the first after work on the tree of a place. -/
structure Reworked (f : Forest) (p : Place) (g : Forest) : Prop where
  elsewhere : ∀ q, q ≠ p → g.tree q = f.tree q
  linked : (g.tree p).Linked
  top : ∀ link ∈ (g.tree p).link?, p.Admits link
  distinct : (g.tree p).ids.Nodup
  ids : ∀ id ∈ (g.tree p).ids, id ∈ (f.tree p).ids ∨ (f.nextId ≤ id ∧ id < g.nextId)
  filled : f.Filled p → g.Filled p
  nextId : f.nextId ≤ g.nextId
  settings : g.settings = f.settings
  covers : g.covers = f.covers

variable {f g k : Forest} {p q : Place} {id : NodeId} {c : Cursor} {u : Tree}

/-- A node that was located is in the tree of its place. -/
theorem locate?_some (h : f.locate? id = some ⟨p, c⟩) :
    c.toTree = f.tree p ∧ c.node.id = id ∧ id ∈ (f.tree p).ids := by
  obtain ⟨q, -, hq⟩ := List.exists_of_findSome?_eq_some h
  obtain ⟨d, hd, hsite⟩ := Option.map_eq_some_iff.mp hq
  cases hsite
  have hid : id ∈ (f.tree p).ids := by
    by_contra hnot
    rw [Tree.locate?_eq_none hnot] at hd
    cases hd
  obtain ⟨e, he, htree, hnode⟩ := Tree.locate?_of_mem hid
  obtain rfl : e = c := Option.some.inj (he.symm.trans hd)
  exact ⟨htree, hnode, hid⟩

namespace Upright

/-- Without trees there is nothing to be wrong. -/
theorem of_nil (h : ∀ p, f.tree p = .nil) : f.Upright := by
  constructor <;> simp [h]

/-- Whether a forest is upright is a matter of its trees. -/
theorem congr (hf : f.Upright) (htree : ∀ p, g.tree p = f.tree p) (hnext : g.nextId = f.nextId) :
    g.Upright where
  linked p := htree p ▸ hf.linked p
  top p := htree p ▸ hf.top p
  distinct p := htree p ▸ hf.distinct p
  apart p q := by
    rw [htree p, htree q]
    exact hf.apart p q
  fresh p := by
    rw [htree p, hnext]
    exact hf.fresh p

/-- A node is located in the one tree that has it. -/
theorem place_eq (hf : f.Upright) (hid : id ∈ (f.tree p).ids) (h : f.locate? id = some ⟨q, c⟩) :
    q = p := by
  by_contra hne
  exact hf.apart q p hne id (locate?_some h).2.2 hid

theorem reworked (hf : f.Upright) (h : f.Reworked p g) : g.Upright where
  linked q := by
    by_cases hq : q = p
    · exact hq ▸ h.linked
    · exact h.elsewhere q hq ▸ hf.linked q
  top q := by
    by_cases hq : q = p
    · exact hq ▸ h.top
    · exact h.elsewhere q hq ▸ hf.top q
  distinct q := by
    by_cases hq : q = p
    · exact hq ▸ h.distinct
    · exact h.elsewhere q hq ▸ hf.distinct q
  apart q r hqr id hid hmem := by
    have hnew {r : Place} (hr : r ≠ p) (hid : id ∈ (g.tree p).ids)
        (hmem : id ∈ (f.tree r).ids) : False := by
      rcases h.ids id hid with hold | hnew
      · exact hf.apart p r (Ne.symm hr) id hold hmem
      · exact absurd (hf.fresh r id hmem) (Nat.not_lt.mpr hnew.1)
    by_cases hq : q = p
    · subst hq
      rw [h.elsewhere r (Ne.symm hqr)] at hmem
      exact hnew (Ne.symm hqr) hid hmem
    · rw [h.elsewhere q hq] at hid
      by_cases hr : r = p
      · subst hr
        exact hnew hqr hmem hid
      · rw [h.elsewhere r hr] at hmem
        exact hf.apart q r hqr id hid hmem
  fresh q id hid := by
    by_cases hq : q = p
    · subst hq
      rcases h.ids id hid with hold | hnew
      · exact Nat.lt_of_lt_of_le (hf.fresh q id hold) h.nextId
      · exact hnew.2
    · rw [h.elsewhere q hq] at hid
      exact Nat.lt_of_lt_of_le (hf.fresh q id hid) h.nextId

/-- Nothing was done. -/
theorem stay (hf : f.Upright) (p : Place) : f.Reworked p f :=
  ⟨fun _ _ => rfl, hf.linked p, hf.top p, hf.distinct p, fun _ hid => .inl hid, id, Nat.le_refl _,
    rfl, rfl⟩

/-- The top of the tree of a text is linked to the text. -/
theorem homed (hf : f.Upright) (p : Place) (h : p.home? ≠ none) : (f.tree p).Homed p.home? := by
  intro link hlink
  cases p with
  | text t => exact ⟨t, hf.top (.text t) link hlink, rfl⟩
  | loose slot => exact absurd rfl h

end Upright

theorem Reworked.trans (h : f.Reworked p g) (h' : g.Reworked p k) : f.Reworked p k where
  elsewhere q hq := (h'.elsewhere q hq).trans (h.elsewhere q hq)
  linked := h'.linked
  top := h'.top
  distinct := h'.distinct
  ids id hid := by
    rcases h'.ids id hid with hmid | ⟨hlow, hhigh⟩
    · rcases h.ids id hmid with hold | ⟨hlow, hhigh⟩
      · exact .inl hold
      · exact .inr ⟨hlow, Nat.lt_of_lt_of_le hhigh h'.nextId⟩
    · exact .inr ⟨Nat.le_trans h.nextId hlow, hhigh⟩
  filled := h'.filled ∘ h.filled
  nextId := Nat.le_trans h.nextId h'.nextId
  settings := h'.settings.trans h.settings
  covers := h'.covers.trans h.covers

/-- The profile is no part of what is reworked. -/
theorem Reworked.profile (h : f.Reworked p g) (q q' : Profile) :
    { f with profile := q }.Reworked p { g with profile := q' } :=
  ⟨h.elsewhere, h.linked, h.top, h.distinct, h.ids, h.filled, h.nextId, h.settings, h.covers⟩

theorem Upright.profile (hf : f.Upright) (q : Profile) : { f with profile := q }.Upright :=
  ⟨hf.linked, hf.top, hf.distinct, hf.apart, hf.fresh⟩

/-! ## Planting a tree -/

theorem tree_plant_cases (f : Forest) (u : Tree) (p : Place) :
    (f.plant u p).tree p = u ∨ (f.plant u p).tree p = .nil := by
  cases p with
  | text t =>
    cases hx : f.texts[t]? with
    | some x => exact .inl (tree_text (texts_plant u x hx))
    | none => exact .inr (by simp [tree, plant, modifyText, hx])
  | loose slot => exact .inl (by simp [tree, plant, Table.get?_insert])

theorem covers_plant (f : Forest) (u : Tree) (p : Place) : (f.plant u p).covers = f.covers := by
  cases p with
  | loose slot => rfl
  | text t =>
    refine List.ext_getElem? fun i => ?_
    simp only [covers, plant, modifyText, List.getElem?_map, List.getElem?_modify]
    split <;> cases f.texts[i]? <;> rfl

theorem contents_of_covers (h : g.covers = f.covers) : g.contents = f.contents := by
  have hmap := congrArg (List.map fun c => c.2.2.1) h
  rwa [covers, covers, List.map_map, List.map_map] at hmap

/-- A tree that fills if the one before it did. -/
theorem Filled.plant {n : NodeId} (h : f.Filled p)
    (hu : ∀ t, p = .text t → ∀ k < 2 ^ 63, (f.tree p).Fills k → u.Fills k) :
    ({ f with nextId := n }.plant u p).Filled p := by
  intro t content hp hcontent hsmall
  rw [contents_of_covers (covers_plant { f with nextId := n } u p)] at hcontent
  rcases tree_plant_cases { f with nextId := n } u p with htree | htree
  · rw [htree]
    exact hu t hp _ hsmall (h t content hp hcontent hsmall)
  · rw [htree]
    exact Tree.fills_nil _

/-- To plant a tree at a place is to rework the place, if the tree fits there and has no node of
another one. Identities may be taken for it. -/
theorem reworked_plant {n : NodeId} (hn : f.nextId ≤ n) (hlinked : u.Linked)
    (htop : ∀ link ∈ u.link?, p.Admits link) (hdistinct : u.ids.Nodup)
    (hids : ∀ id ∈ u.ids, id ∈ (f.tree p).ids ∨ (f.nextId ≤ id ∧ id < n))
    (hfilled : f.Filled p → ({ f with nextId := n }.plant u p).Filled p) :
    f.Reworked p ({ f with nextId := n }.plant u p) := by
  have htree (q : Place) : ({ f with nextId := n } : Forest).tree q = f.tree q := by
    cases q <;> rfl
  have hnext : ({ f with nextId := n }.plant u p).nextId = n := by cases p <;> rfl
  have hsettings : ({ f with nextId := n }.plant u p).settings = f.settings := by
    cases p <;> rfl
  have hcovers := covers_plant { f with nextId := n } u p
  have helse (q : Place) (hq : q ≠ p) : ({ f with nextId := n }.plant u p).tree q = f.tree q :=
    (tree_plant_of_ne hq u).trans (htree q)
  rcases tree_plant_cases { f with nextId := n } u p with hu | hu
  · exact ⟨helse, by rwa [hu], by rwa [hu], by rwa [hu], by rwa [hu, hnext], hfilled,
      by rwa [hnext], hsettings, hcovers⟩
  · exact ⟨helse, by simp [hu], by simp [hu], by simp [hu], by simp [hu], hfilled, by rwa [hnext],
      hsettings, hcovers⟩

/-- A tree is planted that hangs as the one before it did. -/
theorem Upright.plant (hf : f.Upright) (hu : u.Hangs (f.tree p).link? (f.tree p).ids)
    (hfills : ∀ t, p = .text t → ∀ k < 2 ^ 63, (f.tree p).Fills k → u.Fills k) :
    f.Reworked p (f.plant u p) :=
  reworked_plant (Nat.le_refl _) hu.linked (fun link hlink => hf.top p link (hu.link link hlink))
    (hu.distinct (hf.distinct p)) (fun _ hid => .inl (hu.ids.subset hid))
    fun h => h.plant hfills

/-- A tree is planted that differs in caches, flags and properties only. -/
theorem Upright.plant_skeleton (hf : f.Upright) (hu : u.skeleton = (f.tree p).skeleton) :
    f.Reworked p (f.plant u p) :=
  hf.plant ((Tree.hangs_congr (Tree.outline_congr hu)).mpr (hf.linked p).hangs)
    fun _ _ _ _ h => h.congr hu

/-- A tree is planted that hangs as the one before it did, with a new node. -/
theorem Upright.plant_new (hf : f.Upright)
    (hu : u.Hangs (f.tree p).link? (f.nextId :: (f.tree p).ids))
    (hfills : ∀ t, p = .text t → ∀ k < 2 ^ 63, (f.tree p).Fills k → u.Fills k) :
    f.Reworked p ({ f with nextId := f.nextId + 1 }.plant u p) := by
  have hnew : f.nextId ∉ (f.tree p).ids := fun hid => Nat.lt_irrefl _ (hf.fresh p _ hid)
  refine reworked_plant (Nat.le_succ _) hu.linked
    (fun link hlink => hf.top p link (hu.link link hlink))
    (hu.distinct (List.nodup_cons.mpr ⟨hnew, hf.distinct p⟩)) (fun id hid => ?_)
    fun h => h.plant hfills
  rcases List.mem_cons.mp (hu.ids.subset hid) with rfl | hold
  · exact .inr ⟨Nat.le_refl _, Nat.lt_succ_self _⟩
  · exact .inl hold

end Forest

namespace Run

variable {α β : Type} {f g : Forest} {p : Place} {id : NodeId} {c : Cursor} {t : TextId}

/-! ## Putting operations together -/

/-- One piece of work after another. -/
theorem reworked_bind {x : Run α} {k : α → Run β} (hf : f.Upright)
    (hx : f.Reworked p (exec x f).2)
    (hk : ∀ a g, exec x f = (.ok a, g) → g.Upright → g.Reworked p (exec (k a) g).2) :
    f.Reworked p (exec (x >>= k) f).2 := by
  rw [exec_bind]
  cases h : exec x f with
  | mk r g =>
    rw [h] at hx
    cases r with
    | error e => exact hx
    | ok a => exact hx.trans (hk a g h (hf.reworked hx))

/-- What only looks at the forest before it goes on. -/
theorem reworked_look {x : Run α} {k : α → Run β} (hf : f.Upright) (hx : (exec x f).2 = f)
    (hk : ∀ a, exec x f = (.ok a, f) → f.Reworked p (exec (k a) f).2) :
    f.Reworked p (exec (x >>= k) f).2 := by
  refine reworked_bind hf (by rw [hx]; exact hf.stay p) fun a g h _ => ?_
  obtain rfl : g = f := by rw [← hx, h]
  exact hk a h

theorem exec_require_same (condition : Bool) (v : Violation) (f : Forest) :
    (exec (require condition v) f).2 = f := by
  cases condition <;> rfl

theorem exec_text_same (t : TextId) (f : Forest) : (exec (text t) f).2 = f := by
  cases h : f.texts[t]? with
  | some x => rw [exec_text h]
  | none => rw [exec_text_none h]

theorem reworked_profiled {label : String} {body : Run α}
    (h : ∀ q, { f with profile := q }.Reworked p (exec body { f with profile := q }).2) :
    f.Reworked p (exec (profiled label body) f).2 :=
  exec_profiled_of (P := fun x => f.Reworked p x.2) fun q q' => (h q).profile f.profile q'

theorem reworked_conclude (hf : f.Upright) {edited : Edited α}
    (hu : edited.1.Hangs (f.tree p).link? (f.tree p).ids)
    (hfills : ∀ t, p = .text t → ∀ k < 2 ^ 63, (f.tree p).Fills k → edited.1.Fills k) :
    f.Reworked p (exec (conclude p edited) f).2 := by
  rw [exec_conclude]
  exact hf.plant hu hfills

/-! ## Operations on the tree of a node -/

section Located

variable (hf : f.Upright) (hc : f.locate? id = some ⟨p, c⟩)

include hf hc

/-- A cursor that keeps the skeleton of the tree is put back. -/
theorem reworked_putBack {d : Cursor} (hd : d.toTree.skeleton = c.toTree.skeleton) :
    f.Reworked p (exec (putBack ⟨p, d⟩) f).2 := by
  obtain ⟨htree, -, -⟩ := Forest.locate?_some hc
  rw [exec_putBack]
  exact hf.plant_skeleton (htree ▸ hd)

/-- A change to the payload of a node. -/
theorem reworked_modifyNode {k : Cursor → Cursor}
    (hk : (k c).toTree.skeleton = c.toTree.skeleton) :
    f.Reworked p (exec (modifyNode id k) f).2 := by
  rw [modifyNode, exec_bind_ok (exec_locate hc)]
  exact reworked_putBack hf hc (d := k c) hk

/-- A step to another node sets its cache. -/
theorem reworked_moveTo {move : Cursor → Option Cursor}
    (hmove : ∀ d, move c = some d → d.toTree.skeleton = c.toTree.skeleton) :
    f.Reworked p (exec (moveTo move id) f).2 := by
  rw [moveTo, exec_bind_ok (exec_locate hc)]
  dsimp only
  cases h : move c with
  | none => exact hf.stay p
  | some d => exact reworked_putBack hf hc (hmove d h)

/-- A walk to a position sets the caches on its way. -/
theorem reworked_update (position : Size) : f.Reworked p (exec (update id position) f).2 := by
  have hwalk : f.Reworked p (exec (putBack ⟨p, (c.update position).1⟩) f).2 :=
    reworked_putBack hf hc (Cursor.skeleton_updateLoop position _ c)
  rw [update, exec_bind_ok (exec_locate hc)]
  dsimp only
  rw [exec_bind_ok (exec_putBack _ f), exec_bind, exec_ofExcept]
  cases (c.update position).2 <;> exact hwalk

theorem reworked_rotateInPlace (s : Side) : f.Reworked p (exec (rotateInPlace s id) f).2 := by
  obtain ⟨htree, -, -⟩ := Forest.locate?_some hc
  have hl : c.toTree.Linked := htree ▸ hf.linked p
  have hu := Path.hangs_plug (p := c.path) hl
    (Tree.hangs_rotateInPlace (Cursor.linked_subtree hl) s)
  have hplant : f.Reworked p (f.plant (Path.plug c.path (c.subtree.rotateInPlace s).1) p) := by
    refine hf.plant ?_ ?_
    · rw [← htree]
      exact hu
    · rw [← htree]
      exact fun _ _ _ _ h => Cursor.fills_rotateInPlace h s
  rw [rotateInPlace, exec_bind_ok (exec_locate hc)]
  dsimp only
  rw [exec_bind_ok (exec_plant _ _ _)]
  split <;> exact hplant

theorem reworked_merge (s : Side) : f.Reworked p (exec (merge s id) f).2 := by
  obtain ⟨htree, -, -⟩ := Forest.locate?_some hc
  have hl : c.toTree.Linked := htree ▸ hf.linked p
  rw [merge, exec_bind_ok (exec_locate hc)]
  refine reworked_conclude hf ?_ ?_
  · rw [← htree]
    exact Cursor.hangs_mergeInto hl s _
  · rintro t rfl k - h
    rw [← htree] at h
    have hhome : (f.tree (.text t)).Homed (some t) := hf.homed (.text t) (by simp [Place.home?])
    exact Cursor.fills_mergeInto h hl (fun _ => htree ▸ hhome) s

theorem reworked_remove : f.Reworked p (exec (remove id) f).2 := by
  obtain ⟨htree, -, -⟩ := Forest.locate?_some hc
  have hl : c.toTree.Linked := htree ▸ hf.linked p
  rw [remove, exec_bind_ok (exec_locate hc)]
  refine reworked_conclude hf ?_ ?_
  · rw [← htree]
    exact Cursor.hangs_remove hl _
  · rintro t rfl k - h
    rw [← htree] at h
    exact Cursor.fills_remove h hl fun _ => htree ▸ hf.homed (.text t) (by simp [Place.home?])

end Located

/-- What an operation reworks that begins with a node. If no tree has the node, it does nothing. -/
theorem reworked_of_locate (hf : f.Upright) {k : Site → Run α}
    (h : ∀ p c, f.locate? id = some ⟨p, c⟩ → f.Reworked p (exec (locate id >>= k) f).2) :
    ∃ p, f.Reworked p (exec (locate id >>= k) f).2 := by
  cases hc : f.locate? id with
  | some site => exact ⟨_, h site.place site.cursor hc⟩
  | none =>
    rw [exec_bind_error (exec_locate_none hc)]
    exact ⟨.text 0, hf.stay _⟩

/-- A change to the payload of a node that keeps its weight. -/
theorem reworked_modifyData (hf : f.Upright) (id : NodeId) {e : Payload → Payload}
    (he : ∀ d, (e d).total = d.total) : ∃ p, f.Reworked p (exec (modifyData id e) f).2 := by
  unfold modifyData
  refine reworked_of_locate hf fun p c hc => ?_
  have hskeleton := Cursor.skeleton_mapData (c := c) (he c.node.data)
  exact reworked_modifyNode hf hc (k := (·.mapData e)) hskeleton

theorem reworked_balanceSelf (hf : f.Upright) (p : Place) :
    f.Reworked p (exec (balanceSelf p) f).2 := by
  rw [balanceSelf, exec_bind_ok (exec_get f)]
  exact reworked_conclude hf (Tree.hangs_balanceSelf (hf.linked p))
    fun _ _ _ hk h => Tree.fills_balanceSelf h hk

theorem reworked_balance (hf : f.Upright) (p : Place) :
    f.Reworked p (exec (balance p) f).2 := by
  rw [balance, exec_bind_ok (exec_get f)]
  exact reworked_conclude hf (Tree.hangs_balance (hf.linked p))
    fun _ _ _ hk h => Tree.fills_balance h hk (hf.linked p) (hf.distinct p)

/-! ## Balancing at the root, and what leads to it -/

/-- The root of a text is balanced and handed back, also where balancing breaks off. -/
theorem reworked_balanceRoot (hf : f.Upright) {x : Text} (hx : f.texts[t]? = some x)
    (id : NodeId) :
    let body : Run NodeId := do
      let root ← detachRoot t
      let (balanced, result) := root.balanceSelf
      attachRoot t balanced
      addRotations (← ofExcept result)
      pure (balanced.id?.getD id)
    f.Reworked (.text t) (exec body f).2 ∧
      ∀ top g, exec body f = (.ok top, g) → top = id ∨ top ∈ (f.tree (.text t)).ids := by
  intro body
  have htree : f.tree (.text t) = x.root := Forest.tree_text hx
  have hu := Tree.hangs_balanceSelf (hf.linked (.text t))
  rw [htree] at hu
  have hdetach : exec (detachRoot t) f =
      (.ok x.root, f.modifyText t fun x => { x with root := .nil }) := by
    rw [detachRoot, exec_bind_ok (exec_text hx)]
    rfl
  have hattach : f.Reworked (.text t) (f.plant (x.root.balanceSelf.1.setLink (.owner t))
      (.text t)) := by
    have hids : (x.root.balanceSelf.1.setLink (.owner t)).ids = x.root.balanceSelf.1.ids :=
      Tree.ids_setLink _ _
    refine Forest.reworked_plant (Nat.le_refl _) ((Tree.linked_setLink _ _).mpr hu.linked) ?_ ?_ ?_
      fun h => h.plant fun _ _ k hk hfills => ?_
    · cases x.root.balanceSelf.1 <;> simp [Tree.setLink, Place.Admits]
    · rw [hids]
      exact hu.distinct (htree ▸ hf.distinct (.text t))
    · rw [hids, htree]
      exact fun _ hid => .inl (hu.ids.subset hid)
    · rw [htree] at hfills
      exact (Tree.fills_balanceSelf hfills hk).setLink _
  have hexec : exec body f = ((x.root.balanceSelf.2.map fun _ =>
      x.root.balanceSelf.1.id?.getD id), (exec body f).2) ∧
      ∃ q, (exec body f).2 = { f.plant (x.root.balanceSelf.1.setLink (.owner t)) (.text t) with
        profile := q } := by
    simp only [body]
    rw [exec_bind_ok hdetach]
    simp only [← modifyText_detach]
    cases x.root.balanceSelf.2 with
    | error e => exact ⟨rfl, f.profile, rfl⟩
    | ok k => exact ⟨rfl, f.profile.add k, rfl⟩
  obtain ⟨hresult, q, hstate⟩ := hexec
  constructor
  · rw [hstate]
    exact hattach.profile f.profile q
  · intro top g h
    rw [h] at hresult
    cases hb : x.root.balanceSelf.2 with
    | error e => simp [hb, Except.map] at hresult
    | ok k =>
      have htop : top = x.root.balanceSelf.1.id?.getD id := by
        simpa [hb, Except.map] using hresult
      cases hid : x.root.balanceSelf.1.id? with
      | none => exact .inl (by rw [htop, hid]; rfl)
      | some top' =>
        refine .inr ?_
        rw [htop, hid, htree]
        exact hu.ids.subset (Tree.id_mem_ids_of_id? hid)

/-- Balancing at a node that may be a root. The node that is then there was in the tree before. -/
theorem reworked_balancePossibleRoot (hf : f.Upright) (hc : f.locate? id = some ⟨p, c⟩) :
    f.Reworked p (exec (balancePossibleRoot id) f).2 ∧
      ∀ top g, exec (balancePossibleRoot id) f = (.ok top, g) → top ∈ (f.tree p).ids := by
  obtain ⟨htree, hnode, hid⟩ := Forest.locate?_some hc
  have hstay : f.Reworked p f := hf.stay p
  rw [balancePossibleRoot, exec_bind_ok (exec_locate hc)]
  cases hlink : c.node.link with
  | unset =>
    refine ⟨hstay, fun top g h => ?_⟩
    cases h
    exact hid
  | node holder =>
    refine ⟨hstay, fun top g h => ?_⟩
    cases h
    exact hid
  | owner t =>
    dsimp only
    cases hx : f.texts[t]? with
    | none =>
      rw [exec_bind_error (exec_text_none hx)]
      exact ⟨hstay, fun top g h => by cases h⟩
    | some x =>
      rw [exec_bind_ok (exec_text hx)]
      by_cases hroot : x.root.id? = some id
      · have hp : p = .text t := by
          refine hf.place_eq ?_ hc
          rw [Forest.tree_text hx]
          exact Tree.id_mem_ids_of_id? hroot
        subst hp
        rw [exec_bind_ok (exec_require (by simp [hroot]) _ _)]
        obtain ⟨q, q', hprofiled⟩ := exec_profiled "interval::balance_possible_root" (do
          let root ← detachRoot t
          let (balanced, result) := root.balanceSelf
          attachRoot t balanced
          addRotations (← ofExcept result)
          pure (balanced.id?.getD id)) f
        obtain ⟨hwork, htop⟩ := reworked_balanceRoot (f := { f with profile := q })
          (hf.profile q) hx id
        rw [hprofiled]
        refine ⟨hwork.profile f.profile q', fun top g h => ?_⟩
        obtain ⟨hresult, -⟩ := Prod.mk.inj h
        rcases htop top _ (Prod.ext hresult rfl) with rfl | hmem
        · exact hid
        · exact hmem
      · rw [exec_bind_error (exec_require_not (by simp [hroot]) _ _)]
        exact ⟨hstay, fun top g h => by cases h⟩

/-- Balancing at a node that may have been lost. -/
theorem reworked_balancePossibleRoot_of (hf : f.Upright)
    (hplace : ∀ q d, f.locate? id = some ⟨q, d⟩ → q = p) :
    f.Reworked p (exec (balancePossibleRoot id) f).2 := by
  cases hc : f.locate? id with
  | none =>
    rw [balancePossibleRoot, exec_bind_error (exec_locate_none hc)]
    exact hf.stay p
  | some site =>
    obtain ⟨q, d⟩ := site
    obtain rfl := hplace q d hc
    exact (reworked_balancePossibleRoot hf hc).1

/-- A node of a tree is found in the same place after the tree was reworked, if it is still
there. -/
theorem place_of_reworked {q : Place} {d : Cursor} (hf : f.Upright) (h : f.Reworked p g)
    (hid : id ∈ (f.tree p).ids) (hd : g.locate? id = some ⟨q, d⟩) : q = p := by
  by_contra hne
  have hmem := (Forest.locate?_some hd).2.2
  rw [h.elsewhere q hne] at hmem
  exact hf.apart q p hne id hmem hid

/-- The search below a node of the tree, which sets the cache of the node that it finds. -/
theorem reworked_seek (hf : f.Upright) (hplace : ∀ q d, f.locate? id = some ⟨q, d⟩ → q = p)
    (offset position : Size) :
    f.Reworked p (exec (do
      let site ← locate id
      let total := site.cursor.node.data.total
      if total < offset then
        throw (findOutside position (position - offset) (position - offset + total))
      let found := site.cursor.seek offset position
      putBack { site with cursor := found }
      pure found.node.id) f).2 := by
  cases hc : f.locate? id with
  | none =>
    rw [exec_bind_error (exec_locate_none hc)]
    exact hf.stay p
  | some site =>
    obtain ⟨q, c⟩ := site
    obtain rfl := hplace q c hc
    obtain ⟨htree, -, -⟩ := Forest.locate?_some hc
    rw [exec_bind_ok (exec_locate hc)]
    dsimp only
    split
    · exact hf.stay q
    · exact hf.plant_skeleton (htree ▸ c.skeleton_seek offset position)

/-- A search from a node: the root is balanced before it, and the node that is then there is one of
the tree. -/
theorem reworked_find (hf : f.Upright) (hc : f.locate? id = some ⟨p, c⟩) (position : Size) :
    f.Reworked p (exec (find id position) f).2 := by
  obtain ⟨-, -, hid⟩ := Forest.locate?_some hc
  refine reworked_profiled fun q => ?_
  have hf' := hf.profile q
  have hc' : { f with profile := q }.locate? id = some ⟨p, c⟩ := hc
  have hself : ∀ r d, { f with profile := q }.locate? id = some ⟨r, d⟩ → r = p :=
    fun _ _ => hf'.place_eq hid
  rw [exec_bind_ok (exec_locate hc')]
  cases hlink : c.node.link with
  | unset => exact reworked_seek hf' hself _ _
  | node holder => exact reworked_seek hf' hself _ _
  | owner t =>
    dsimp only
    refine reworked_look hf' (exec_text_same t _) fun x _ => ?_
    split
    · exact hf'.stay p
    · obtain ⟨hwork, htop⟩ := reworked_balancePossibleRoot hf' hc'
      refine reworked_bind hf' hwork fun top g h hg => ?_
      rw [h] at hwork
      exact reworked_seek hg (fun _ _ => place_of_reworked hf' hwork (htop top g h)) _ _

/-- Whatever node a search is asked of, it reworks one tree. -/
theorem exists_reworked_find (hf : f.Upright) (id : NodeId) (position : Size) :
    ∃ p, f.Reworked p (exec (find id position) f).2 := by
  cases hc : f.locate? id with
  | some site => exact ⟨_, reworked_find hf (c := site.cursor) hc position⟩
  | none =>
    refine ⟨.text 0, reworked_profiled fun q => ?_⟩
    have hnone : { f with profile := q }.locate? id = none := hc
    rw [exec_bind_error (exec_locate_none hnone)]
    exact (hf.profile q).stay _

/-- A split balances the piece and the root, and fails where one of them does. -/
theorem reworked_split (hf : f.Upright) (hc : f.locate? id = some ⟨p, c⟩) (s : Side)
    (offset : Size) : f.Reworked p (exec (split s id offset) f).2 := by
  rw [split, exec_bind_ok (exec_locate hc)]
  refine reworked_look hf (exec_require_same _ _ f) fun _ hinside => reworked_profiled fun q => ?_
  have hoffset : c.splits offset = true := by
    by_contra hnot
    rw [exec_require_not (by simpa using hnot) _ _] at hinside
    cases hinside
  have hf' := hf.profile q
  have hc' : { f with profile := q }.locate? id = some ⟨p, c⟩ := hc
  generalize { f with profile := q } = f at hf' hc' ⊢
  obtain ⟨htree, -, hid⟩ := Forest.locate?_some hc'
  have hl : c.toTree.Linked := htree ▸ hf'.linked p
  have hcut := Cursor.hangs_splitOff hl s offset f.nextId
  rw [htree] at hcut
  have hwork := hf'.plant_new hcut fun _ _ k hk h => by
    rw [← htree] at h
    exact Cursor.fills_splitOff h hk hl hoffset s f.nextId
  rw [exec_bind_ok (exec_freshId f)]
  dsimp only
  rw [exec_bind_ok (exec_putBack _ _)]
  have hg := hf'.reworked hwork
  refine hwork.trans (reworked_bind hg (by rw [exec_ofExcept]; exact hg.stay p) fun k g h _ => ?_)
  rw [exec_ofExcept] at h
  obtain ⟨-, rfl⟩ := Prod.mk.inj h
  refine reworked_bind hg ((hg.stay p).profile _ _) fun _ g h hg' => ?_
  rw [exec_addRotations] at h
  obtain ⟨-, rfl⟩ := Prod.mk.inj h
  refine reworked_bind hg' (reworked_balancePossibleRoot_of hg' fun r d hd => ?_)
    fun _ _ _ hk => hk.stay p
  exact place_of_reworked hf' hwork hid hd

/-! ## Operations of a text -/

/-- The first node of a text. -/
theorem reworked_createRoot (hf : f.Upright) (t : TextId) :
    f.Reworked (.text t) (exec (createRoot t) f).2 := by
  rw [createRoot]
  cases hx : f.texts[t]? with
  | none =>
    rw [exec_bind_error (exec_text_none hx)]
    exact hf.stay _
  | some x =>
    rw [exec_bind_ok (exec_text hx)]
    refine reworked_look hf (exec_require_same _ _ f) fun _ hnil => ?_
    refine reworked_look hf (exec_require_same _ _ f) fun _ hpos => ?_
    have hlength : 0 < x.length := by
      by_contra hnot
      rw [exec_require_not (by simpa using hnot) _ _] at hpos
      cases hpos
    rw [exec_bind_ok (exec_freshId f)]
    refine Forest.reworked_plant (Nat.le_succ _) ⟨rfl, rfl, trivial, trivial⟩ ?_ ?_ ?_ ?_
    · simp [Tree.setLink, Place.Admits]
    · simp [Tree.setLink]
    · intro id hid
      have hnew : id = f.nextId := by
        simpa [Tree.setLink, Node.fresh] using hid
      rw [hnew]
      exact .inr ⟨Nat.le_refl _, Nat.lt_succ_self _⟩
    · rintro - _ content ⟨⟩ hcontent hsmall
      rw [Forest.contents_of_covers (Forest.covers_plant _ _ _)] at hcontent
      obtain rfl : x.content = content := by
        simpa [Forest.contents, hx] using hcontent
      have hget : ({ f with nextId := f.nextId + 1 } : Forest).texts[t]? = some x := hx
      rw [Forest.tree_text (Forest.texts_plant _ x hget)]
      refine .inr ⟨⟨?_, trivial, trivial⟩, ?_⟩
      · simpa [Tree.setLink, Node.fresh] using UInt64.lt_iff_toNat_lt.mp hlength
      · have hfits : x.content.utf8ByteSize < 2 ^ 64 := by omega
        simp only [Tree.setLink, Node.fresh, Tree.total_node, Node.withLink_total,
          Node.withPosition_total, Text.length, Nat.toUInt64, UInt64.toNat_ofNat']
        exact Nat.mod_eq_of_lt hfits

/-- The root of a text, which has one afterwards or has no characters. -/
theorem reworked_ensureRoot (hf : f.Upright) (t : TextId) :
    f.Reworked (.text t) (exec (ensureRoot t) f).2 ∧
      ∀ root g, exec (ensureRoot t) f = (.ok (some root), g) → root ∈ (g.tree (.text t)).ids := by
  rw [ensureRoot]
  cases hx : f.texts[t]? with
  | none =>
    rw [exec_bind_error (exec_text_none hx)]
    exact ⟨hf.stay _, fun root g h => by cases h⟩
  | some x =>
    have htree : f.tree (.text t) = x.root := Forest.tree_text hx
    rw [exec_bind_ok (exec_text hx)]
    by_cases hnew : (x.root.isNil && decide (0 < x.length)) = true
    · rw [if_pos hnew, exec_bind_pure]
      refine ⟨reworked_createRoot hf t, fun root g h => ?_⟩
      rw [Bool.and_eq_true] at hnew
      rw [createRoot, exec_bind_ok (exec_text hx), exec_bind_ok (exec_require hnew.1 _ _),
        exec_bind_ok (exec_require hnew.2 _ _), exec_bind_ok (exec_freshId f)] at h
      obtain ⟨hroot, rfl⟩ := Prod.mk.inj h
      have hid : f.nextId = root := Option.some.inj (Except.ok.inj hroot)
      have hget : ({ f with nextId := f.nextId + 1 } : Forest).texts[t]? = some x := hx
      have hplanted := Forest.texts_plant
        (Tree.setLink (.owner t) (.node ((Node.fresh f.nextId x.length).withPosition
          x.beginOffset) .nil .nil)) x hget
      refine (congrArg (root ∈ Tree.ids ·) (Forest.tree_text hplanted)).mpr ?_
      simp [Tree.setLink, Node.fresh, hid]
    · rw [if_neg hnew]
      refine ⟨hf.stay _, fun root g h => ?_⟩
      obtain ⟨hroot, rfl⟩ := Prod.mk.inj h
      rw [htree]
      exact Tree.id_mem_ids_of_id? (by simpa using hroot)

theorem exec_checkText_same (t : TextId) (f : Forest) : (exec (checkText t) f).2 = f := by
  cases hx : f.texts[t]? with
  | none => rw [checkText, exec_bind_error (exec_text_none hx)]
  | some x =>
    obtain ⟨r, hexec, -⟩ := exec_checkText_eq hx
    rw [hexec]

theorem exec_verify_same (t : TextId) (f : Forest) : (exec (verify t) f).2 = f := by
  rw [verify, exec_bind_ok (exec_get f)]
  split
  · exact exec_checkText_same t f
  · rfl

end Run

/-! ## Sessions -/

/-- The second forest has the trees and the characters of the first. Trackers and profiles do not
matter. -/
structure Forest.SameTrees (f g : Forest) : Prop where
  tree : ∀ p, g.tree p = f.tree p
  contents : g.contents = f.contents
  nextId : g.nextId = f.nextId
  settings : g.settings = f.settings

namespace Forest

variable {f g k : Forest} {p : Place} {t : TextId} {x : Text}

theorem SameTrees.refl (f : Forest) : f.SameTrees f := ⟨fun _ => rfl, rfl, rfl, rfl⟩

theorem SameTrees.filled (h : f.SameTrees g) (hf : f.Filled p) : g.Filled p := by
  intro t content hp hcontent hsmall
  rw [h.contents] at hcontent
  rw [h.tree]
  exact hf t content hp hcontent hsmall

theorem SameTrees.upright (h : f.SameTrees g) (hf : f.Upright) : g.Upright :=
  hf.congr h.tree h.nextId

/-- What is reworked between two changes of trackers. -/
theorem Reworked.between {f' g' : Forest} (h : f'.Reworked p g') (hf : f.SameTrees f')
    (hg : g'.SameTrees g) (hcovers : g.covers = f.covers) : f.Reworked p g where
  elsewhere q hq := by rw [hg.tree, h.elsewhere q hq, hf.tree]
  linked := hg.tree p ▸ h.linked
  top := hg.tree p ▸ h.top
  distinct := hg.tree p ▸ h.distinct
  ids := by
    rw [hg.tree, hg.nextId, ← hf.tree, ← hf.nextId]
    exact h.ids
  filled := hg.filled ∘ h.filled ∘ hf.filled
  nextId := by
    rw [hg.nextId, ← hf.nextId]
    exact h.nextId
  settings := hg.settings.trans (h.settings.trans hf.settings)
  covers := hcovers

/-- A change of the tracker of a text. -/
theorem sameTrees_access (f : Forest) (t : TextId) (a : Tracker → Tracker) :
    f.SameTrees (f.modifyText t fun x => { x with access := a x.access }) := by
  refine ⟨f.tree_access t a, List.ext_getElem? fun i => ?_, rfl, rfl⟩
  simp only [contents, modifyText, List.getElem?_map, List.getElem?_modify]
  split <;> cases f.texts[i]? <;> rfl

theorem covers_modifyText (hx : f.texts[t]? = some x) (k : Text → Text) :
    (f.modifyText t k).covers = f.covers.set t (k x).cover := by
  refine List.ext_getElem? fun i => ?_
  simp only [covers, modifyText, List.getElem?_map, List.getElem?_modify, List.getElem?_set,
    List.length_map]
  by_cases hi : t = i
  · subst hi
    obtain ⟨hlt, hget⟩ := List.getElem?_eq_some_iff.mp hx
    simp [hlt, hget]
  · simp [hi]

end Forest

/-- A session leaves the word of its tracker as it was. -/
theorem Tracker.word_close {a a' b : Tracker} {kind : SessionKind}
    (h : a.openSession kind = .ok a') (hb : b.word = a'.word) : (b.close kind).word = a.word := by
  have hread (h : a.openRead = .ok a') : b.word - Tracker.sessionUnit = a.word := by
    unfold openRead at h
    split at h
    · cases h
    · cases h
      rw [hb, word_record]
      simp
  cases kind with
  | none => exact hread h
  | read => exact hread h
  | write =>
    simp only [openSession, openWrite] at h
    split at h
    · next hzero => exact hzero.symm
    · cases h

namespace Run

variable {α : Type} {f g : Forest} {p : Place} {t : TextId} {kind : SessionKind}

/-- A session is refused, and nothing happens, or it is opened, and closed after anything that
leaves the settings and the words. The trees stay, and in the end the words are what they were. -/
theorem session_cases (t : TextId) (kind : SessionKind) (f : Forest) :
    (∃ e, exec (openSession t kind) f = (.error e, f) ∧
      (e = .breach .lostText ∨ ∃ o, e = .overlap o)) ∨
      ∃ f', exec (openSession t kind) f = (.ok ⟨⟩, f') ∧ f.SameTrees f' ∧
        ∀ g', g'.settings = f'.settings → g'.covers = f'.covers →
          ∃ g, exec (closeSession t kind) g' = (.ok ⟨⟩, g) ∧ g'.SameTrees g ∧
            g.covers = f.covers := by
  cases hx : f.texts[t]? with
  | none =>
    refine .inl ⟨.breach .lostText, ?_, .inl rfl⟩
    rw [openSession, exec_bind_error (exec_text_none hx)]
  | some x =>
    cases ht : f.settings.tracking with
    | false =>
      refine .inr ⟨f, exec_openSession_untracked ht hx kind, .refl f,
        fun g' hsettings hcovers => ⟨g', ?_, .refl g', hcovers⟩⟩
      rw [exec_closeSession_eq, hsettings, ht]
      rfl
    | true =>
      have hopen := exec_openSession_tracked ht hx kind
      cases ha : x.access.openSession kind with
      | error o => exact .inl ⟨.overlap o, by rw [hopen, ha], .inr ⟨o, rfl⟩⟩
      | ok a =>
        refine .inr ⟨_, by rw [hopen, ha], f.sameTrees_access t fun _ => a,
          fun g' hsettings hcovers => ⟨_, ?_, g'.sameTrees_access t (·.close kind), ?_⟩⟩
        · have hg' : g'.settings.tracking = true := by
            rw [hsettings]
            exact ht
          rw [exec_closeSession_eq, if_pos hg']
        · rw [Forest.covers_modifyText hx] at hcovers
          have hlt : t < f.covers.length := by
            simpa [Forest.covers] using (List.getElem?_eq_some_iff.mp hx).1
          have hcover : (g'.texts[t]?).map Text.cover = some { x with access := a }.cover := by
            rw [← List.getElem?_map]
            change g'.covers[t]? = _
            rw [hcovers, List.getElem?_set_self hlt]
          obtain ⟨y, hy, hycover⟩ := Option.map_eq_some_iff.mp hcover
          have hword : y.access.word = a.word := congrArg (·.2.2.2) hycover
          have hclose : ({ y with access := y.access.close kind } : Text).cover = x.cover := by
            simp only [Text.cover, Prod.mk.injEq] at hycover ⊢
            exact ⟨hycover.1, hycover.2.1, hycover.2.2.1, Tracker.word_close ha hword⟩
          rw [Forest.covers_modifyText hy, hclose, hcovers, List.set_set]
          have hself : f.covers[t] = x.cover := by
            simp [Forest.covers, (List.getElem?_eq_some_iff.mp hx).2]
          rw [← hself, List.set_getElem_self hlt]

/-- What an operation reworks, it reworks in a session too. -/
theorem reworked_withSession (hf : f.Upright) {body : Run α}
    (hbody : ∀ g : Forest, g.Upright → g.Reworked p (exec body g).2) :
    f.Reworked p (exec (withSession t kind body) f).2 := by
  rcases session_cases t kind f with ⟨e, hopen, -⟩ | ⟨f', hopen, hsame, hclose⟩
  · rw [exec_withSession_error hopen]
    exact hf.stay p
  · have hwork := hbody f' (hsame.upright hf)
    obtain ⟨g, hclosed, hsame', hcovers⟩ := hclose _ hwork.settings hwork.covers
    rw [exec_withSession_ok hopen, hclosed]
    exact hwork.between hsame hsame' hcovers

theorem reworked_content (hf : f.Upright) (t : TextId) :
    f.Reworked (.text t) (exec (content t) f).2 :=
  reworked_withSession hf fun g hg =>
    reworked_look hg (exec_text_same t g) fun _ _ => hg.stay _

theorem reworked_intervals (hf : f.Upright) (t : TextId) :
    f.Reworked (.text t) (exec (intervals t) f).2 :=
  reworked_withSession hf fun _ hg => (reworked_ensureRoot hg t).1

theorem reworked_checkIntervals (hf : f.Upright) (t : TextId) :
    f.Reworked (.text t) (exec (checkIntervals t) f).2 :=
  reworked_withSession hf fun g hg => by
    rw [exec_checkText_same]
    exact hg.stay _

theorem reworked_findInterval (hf : f.Upright) (t : TextId) (position : Size) :
    f.Reworked (.text t) (exec (findInterval t position) f).2 := by
  refine reworked_withSession hf fun g hg => ?_
  obtain ⟨hwork, hroot⟩ := reworked_ensureRoot hg t
  refine reworked_bind hg hwork fun root k h hk => ?_
  cases root with
  | none => exact reworked_look hk (exec_text_same t k) fun _ _ => hk.stay _
  | some root =>
    have hid := hroot root k h
    obtain ⟨c, hc, -, -⟩ := Forest.exists_cursor hid fun q hq hmem =>
      hk.apart (.text t) q (Ne.symm hq) root hid hmem
    refine reworked_bind hk (reworked_find hk hc position) fun found l _ hl => ?_
    exact reworked_look hl (exec_verify_same t l) fun _ _ => hl.stay _

/-- The whole tree of a text is balanced. -/
theorem reworked_balanceTree (hf : f.Upright) {x : Text} (hx : f.texts[t]? = some x) :
    f.Reworked (.text t) (exec (conclude (.text t) x.root.balance) f).2 := by
  have htree : f.tree (.text t) = x.root := Forest.tree_text hx
  rw [← htree]
  exact reworked_conclude hf (Tree.hangs_balance (hf.linked _))
    fun _ _ _ hk h => Tree.fills_balance h hk (hf.linked _) (hf.distinct _)

theorem reworked_balanceIntervals (hf : f.Upright) (t : TextId) :
    f.Reworked (.text t) (exec (balanceIntervals t) f).2 := by
  refine reworked_withSession hf fun g hg => ?_
  refine reworked_look hg (exec_text_same t g) fun x hx => ?_
  split
  · exact hg.stay _
  · refine reworked_profiled fun q => ?_
    have hg' := hg.profile q
    refine reworked_look hg' (exec_text_same t _) fun y hy => ?_
    have hget : { g with profile := q }.texts[t]? = some y := by
      cases ht : g.texts[t]? with
      | none =>
        rw [exec_text_none (f := { g with profile := q }) ht] at hy
        cases hy
      | some z =>
        rw [exec_text (f := { g with profile := q }) ht] at hy
        cases hy
        rfl
    refine reworked_bind hg' (reworked_balanceTree hg' hget) fun n k _ hk => ?_
    refine reworked_bind hk ((hk.stay _).profile _ _) fun _ l _ hl => ?_
    exact reworked_look hl (exec_verify_same t l) fun _ _ => hl.stay _

end Run

end SpanTree
