/-
SpanTree.Proofs.Erasure — operations that do not see the diagnostics.

The trackers, the profile and the settings of a forest are there to find
mistakes. `Forest.bare` is a forest without them. An operation is `Blind`
where it gives the same result from the bare forest, and leaves the same
forest but for the diagnostics. What is put together from blind
operations is blind.

All operations on nodes are blind wherever they are made, and so is the
making of a text. An operation of a text is blind where its session is
admitted and the check after it passes; `blind_withSession` and
`blind_verify` say so, and nothing else depends on the settings.

A client erases a part of its own state along with the diagnostics, and
so `Blind` leaves open what is erased.
-/
import SpanTree.Proofs.Errands
import SpanTree.Proofs.Reworks

namespace SpanTree

/-! ## Bare forests -/

/-- A text without its tracker. -/
def Text.bare (x : Text) : Text := { x with access := {} }

namespace Forest

variable {f : Forest} {p : Place} {t : TextId} {id : NodeId}

/-- A forest without trackers and profile, and with everything switched off. -/
def bare (f : Forest) : Forest :=
  { texts := f.texts.map Text.bare, loose := f.loose, nextId := f.nextId }

theorem texts_bare (f : Forest) (t : TextId) : f.bare.texts[t]? = f.texts[t]?.map Text.bare :=
  List.getElem?_map

@[simp] theorem tree_bare (f : Forest) (p : Place) : f.bare.tree p = f.tree p := by
  cases p with
  | loose slot => rfl
  | text t =>
    rw [tree, tree, texts_bare]
    cases f.texts[t]? <;> rfl

@[simp] theorem locate?_bare (f : Forest) (id : NodeId) : f.bare.locate? id = f.locate? id := by
  simp only [locate?, places, tree_bare]
  simp [bare]

@[simp] theorem subtree?_bare (f : Forest) (id : NodeId) : f.bare.subtree? id = f.subtree? id := by
  simp only [subtree?, places, tree_bare]
  simp [bare]

@[simp] theorem cache_bare (f : Forest) (id : NodeId) : f.bare.cache id = f.cache id := by
  rw [cache, cache, subtree?_bare]

/-- A change to a text is a change to the bare text, or to its tracker only. -/
theorem bare_modifyText (f : Forest) (t : TextId) {k k' : Text → Text}
    (hk : ∀ x, (k x).bare = k' x.bare) : (f.modifyText t k).bare = f.bare.modifyText t k' := by
  have htexts : (f.texts.modify t k).map Text.bare = (f.texts.map Text.bare).modify t k' := by
    refine List.ext_getElem? fun i => ?_
    rw [List.getElem?_map, List.getElem?_modify, List.getElem?_modify, List.getElem?_map]
    split <;> cases f.texts[i]? <;> simp [hk]
  simp only [bare, modifyText, htexts]

theorem bare_modifyText_access (f : Forest) (t : TextId) (a : Tracker → Tracker) :
    (f.modifyText t fun x => { x with access := a x.access }).bare = f.bare := by
  have hid : f.bare.modifyText t id = f.bare := by
    have htexts : f.bare.texts.modify t id = f.bare.texts := by
      refine List.ext_getElem? fun i => ?_
      rw [List.getElem?_modify]
      split <;> simp
    rw [modifyText, htexts]
  have hsame : ∀ x : Text, ({ x with access := a x.access } : Text).bare = id x.bare :=
    fun _ => rfl
  exact (f.bare_modifyText t hsame).trans hid

@[simp] theorem bare_plant (f : Forest) (u : Tree) (p : Place) :
    (f.plant u p).bare = f.bare.plant u p := by
  cases p with
  | loose slot => rfl
  | text t => exact f.bare_modifyText t fun _ => rfl

end Forest

/-! ## Blind operations -/

section Blind

variable {S α β : Type} {e : S → S} {x : ExceptT Fault (StateM S) α} {s : S}

/-- The operation does the same from the state without what is erased. -/
def Blind (e : S → S) (x : ExceptT Fault (StateM S) α) (s : S) : Prop :=
  exec x (e s) = ((exec x s).1, e (exec x s).2)

namespace Blind

protected theorem pure (a : α) : Blind e (pure a) s := rfl

protected theorem throw (fault : Fault) : Blind (α := α) e (throw fault) s := rfl

protected theorem ofExcept (r : Except Fault α) : Blind e (ofExcept r) s := by
  rw [Blind, exec_ofExcept, exec_ofExcept]

/-- One operation after another. -/
protected theorem bind {k : α → ExceptT Fault (StateM S) β} (hx : Blind e x s)
    (hk : ∀ a s', exec x s = (.ok a, s') → Blind e (k a) s') : Blind e (x >>= k) s := by
  rw [Blind, exec_bind, exec_bind, hx]
  rcases h : exec x s with ⟨r, s'⟩
  cases r with
  | error fault => rfl
  | ok a => exact hk a s' h

/-- Something that is done however an operation ends, and does not fail. -/
protected theorem tryFinally {final : ExceptT Fault (StateM S) PUnit} (hx : Blind e x s)
    (hfinal : ∀ s, (exec final s).1 = .ok ⟨⟩ ∧ Blind e final s) :
    Blind e (tryFinally x final) s := by
  have hclosed (s : S) : exec final s = (.ok ⟨⟩, (exec final s).2) :=
    Prod.ext (hfinal s).1 rfl
  have hbare : exec final (e (exec x s).2) = (.ok ⟨⟩, e (exec final (exec x s).2).2) := by
    rw [(hfinal _).2, (hfinal _).1]
  have hrun : exec (tryFinally x final) s = ((exec x s).1, (exec final (exec x s).2).2) :=
    exec_tryFinally rfl (hclosed _)
  rw [Blind, exec_tryFinally hx hbare, hrun]

end Blind

end Blind

namespace Run

variable {α β : Type} {f : Forest} {id : NodeId} {t : TextId}

/-- An operation on a forest is blind where it is used by a client too. -/
theorem blind_liftM {σ : Type} {e : σ → σ} {x : Run α} (h : Blind Forest.bare x f) (s : σ) :
    Blind (Prod.map e Forest.bare) (liftM x : Client σ α) (s, f) := by
  rw [Blind, Prod.map_apply, exec_liftM, exec_liftM, h]
  rfl

/-! ## Looking and changing -/

theorem blind_modify {k : Forest → Forest} (hk : (k f).bare = k f.bare) :
    Blind Forest.bare (modify k) f := by
  rw [Blind, exec_modify, exec_modify, hk]

theorem blind_locate (id : NodeId) (f : Forest) : Blind Forest.bare (locate id) f := by
  cases h : f.locate? id with
  | none => rw [Blind, exec_locate_none h, exec_locate_none (by rwa [Forest.locate?_bare])]
  | some site => rw [Blind, exec_locate h, exec_locate (by rwa [Forest.locate?_bare])]

theorem blind_subtree (id : NodeId) (f : Forest) : Blind Forest.bare (Run.subtree id) f := by
  rw [Blind, Run.subtree, exec_bind_ok (exec_get f), exec_bind_ok (exec_get f.bare),
    Forest.subtree?_bare]
  cases f.subtree? id <;> rfl

theorem blind_span (id : NodeId) (f : Forest) : Blind Forest.bare (span id) f :=
  (blind_subtree id f).bind fun u g _ => by cases u <;> rfl

/-- What is done with a text does not depend on its tracker. -/
theorem blind_text {k : Text → Run α}
    (hk : ∀ x, f.texts[t]? = some x → k x.bare = k x ∧ Blind Forest.bare (k x) f) :
    Blind Forest.bare (text t >>= k) f := by
  cases hx : f.texts[t]? with
  | none =>
    have hbare : f.bare.texts[t]? = none := by rw [Forest.texts_bare, hx, Option.map_none]
    rw [Blind, exec_bind_error (exec_text_none hx), exec_bind_error (exec_text_none hbare)]
  | some x =>
    have hbare : f.bare.texts[t]? = some x.bare := by rw [Forest.texts_bare, hx, Option.map_some]
    rw [Blind, exec_bind_ok (exec_text hx), exec_bind_ok (exec_text hbare), (hk x hx).1]
    exact (hk x hx).2

theorem blind_require (condition : Bool) (v : Violation) (f : Forest) :
    Blind Forest.bare (require condition v) f := by
  cases condition <;> rfl

theorem blind_plant (p : Place) (u : Tree) (f : Forest) : Blind Forest.bare (plant p u) f :=
  blind_modify (f.bare_plant u p)

theorem blind_putBack (site : Site) (f : Forest) : Blind Forest.bare (putBack site) f :=
  blind_plant _ _ f

theorem blind_conclude (p : Place) (edited : Edited α) (f : Forest) :
    Blind Forest.bare (conclude p edited) f :=
  (blind_plant _ _ f).bind fun _ _ _ => .ofExcept _

theorem blind_freshId (f : Forest) : Blind Forest.bare freshId f := rfl

theorem blind_addRotations (rotations : Nat) (f : Forest) :
    Blind Forest.bare (addRotations rotations) f := rfl

/-- A profiled scope is as blind as what it contains. -/
theorem blind_profiled {label : String} {body : Run α}
    (hbody : ∀ q, Blind Forest.bare body { f with profile := q }) :
    Blind Forest.bare (profiled label body) f := by
  have hbare : exec (profiled label body) f.bare = exec body f.bare := by
    rw [profiled, exec_bind_ok (exec_get f.bare)]
    rfl
  obtain ⟨q, q', hscope⟩ := exec_profiled label body f
  have hinner := hbody q
  rw [Blind, hbare, hscope]
  exact hinner

/-- A node is changed where it stands. -/
theorem blind_modifyNode (id : NodeId) (k : Cursor → Cursor) (f : Forest) :
    Blind Forest.bare (modifyNode id k) f :=
  (blind_locate id f).bind fun _ g _ => blind_plant _ _ g

theorem blind_modifyData (id : NodeId) (k : Payload → Payload) (f : Forest) :
    Blind Forest.bare (modifyData id k) f := blind_modifyNode id _ f

/-! ## Operations on nodes -/

theorem blind_outermost (s : Side) (id : NodeId) (f : Forest) :
    Blind Forest.bare (outermost s id) f :=
  (blind_locate id f).bind fun _ _ _ => .pure _

theorem blind_moveTo (move : Cursor → Option Cursor) (id : NodeId) (f : Forest) :
    Blind Forest.bare (moveTo move id) f := by
  refine (blind_locate id f).bind fun site g _ => ?_
  cases move site.cursor with
  | none => exact .pure _
  | some c => exact (blind_putBack _ g).bind fun _ _ _ => .pure _

theorem blind_update (id : NodeId) (position : Size) (f : Forest) :
    Blind Forest.bare (update id position) f := by
  refine (blind_locate id f).bind fun site g _ => ?_
  refine (blind_putBack _ g).bind fun _ g _ => ?_
  exact (Blind.ofExcept _).bind fun _ _ _ => .pure _

theorem blind_rotateInPlace (s : Side) (id : NodeId) (f : Forest) :
    Blind Forest.bare (rotateInPlace s id) f := by
  refine (blind_locate id f).bind fun site g _ => (blind_plant _ _ g).bind fun _ g _ => ?_
  split
  · exact .pure _
  · exact .throw _

theorem blind_merge (s : Side) (id : NodeId) (f : Forest) :
    Blind Forest.bare (merge s id) f :=
  (blind_locate id f).bind fun _ g _ => blind_conclude _ _ g

theorem blind_remove (id : NodeId) (f : Forest) : Blind Forest.bare (remove id) f :=
  (blind_locate id f).bind fun _ g _ => blind_conclude _ _ g

theorem blind_modifyText (t : TextId) {k : Text → Text} (hk : ∀ x, (k x).bare = k x.bare)
    (f : Forest) : Blind Forest.bare (modifyText t k) f :=
  blind_modify (f.bare_modifyText t hk)

theorem blind_attachRoot (t : TextId) (u : Tree) (f : Forest) :
    Blind Forest.bare (attachRoot t u) f :=
  blind_modifyText t (fun _ => by rfl) f

theorem blind_detachRoot (t : TextId) (f : Forest) : Blind Forest.bare (detachRoot t) f :=
  blind_text fun _ _ =>
    ⟨rfl, (blind_modifyText t (fun _ => by rfl) f).bind fun _ _ _ => .pure _⟩

theorem blind_balancePossibleRoot (id : NodeId) (f : Forest) :
    Blind Forest.bare (balancePossibleRoot id) f := by
  refine (blind_locate id f).bind fun site g _ => ?_
  cases site.cursor.node.link with
  | unset => exact .pure _
  | node holder => exact .pure _
  | owner t =>
    refine blind_text fun x _ => ⟨rfl, (blind_require _ _ g).bind fun _ g _ => ?_⟩
    refine blind_profiled fun q => ?_
    refine (blind_detachRoot t _).bind fun root g _ => (blind_attachRoot t _ g).bind fun _ g _ => ?_
    exact (Blind.ofExcept _).bind fun _ g _ =>
      (blind_addRotations _ g).bind fun _ _ _ => .pure _

theorem blind_split (s : Side) (id : NodeId) (offset : Size) (f : Forest) :
    Blind Forest.bare (split s id offset) f := by
  refine (blind_locate id f).bind fun site g _ => (blind_require _ _ g).bind fun _ g _ => ?_
  refine blind_profiled fun q => ?_
  refine (blind_freshId _).bind fun piece g _ => (blind_putBack _ g).bind fun _ g _ => ?_
  refine (Blind.ofExcept _).bind fun _ g _ => (blind_addRotations _ g).bind fun _ g _ => ?_
  exact (blind_balancePossibleRoot id g).bind fun _ _ _ => .pure _

theorem blind_find (id : NodeId) (position : Size) (f : Forest) :
    Blind Forest.bare (find id position) f := by
  -- the search below the node that is then on top
  have hseek (top : NodeId) (offset : Size) (g : Forest) : Blind Forest.bare (do
      let site ← locate top
      let total := site.cursor.node.data.total
      if total < offset then
        throw (findOutside position (position - offset) (position - offset + total))
      let found := site.cursor.seek offset position
      putBack { site with cursor := found }
      pure found.node.id) g := by
    refine (blind_locate top g).bind fun site g _ => ?_
    dsimp only
    split
    · exact .throw _
    · exact (blind_putBack _ g).bind fun _ _ _ => .pure _
  refine blind_profiled fun q => (blind_locate id _).bind fun site g _ => ?_
  cases site.cursor.node.link with
  | unset => exact hseek _ _ g
  | node holder => exact hseek _ _ g
  | owner t =>
    refine blind_text fun x _ => ⟨rfl, ?_⟩
    dsimp only
    split
    · exact .throw _
    · exact (blind_balancePossibleRoot id g).bind fun top g _ => hseek _ _ g

/-- An edit of flags or properties. -/
theorem blind_mark (m : Mark) (f : Forest) : Blind Forest.bare m.run f := by
  cases m with
  | setFlags id flags => exact (blind_modifyData id _ f).bind fun _ _ _ => .pure _
  | setPlist id plist => exact (blind_modifyData id _ f).bind fun _ _ _ => .pure _
  | put id key value => exact (blind_modifyData id _ f).bind fun _ _ _ => .pure _
  | removeProperty id key =>
    have hremove : Blind Forest.bare (removeProperty id key) f := by
      refine (blind_locate id f).bind fun _ g _ => ?_
      exact (blind_modifyData id _ g).bind fun _ _ _ => .pure _
    exact hremove.bind fun _ _ _ => .pure _
  | copyProperties id source =>
    have hcopy : Blind Forest.bare (copyProperties id source) f := by
      refine (blind_locate id f).bind fun site g _ => ?_
      refine (blind_locate source g).bind fun from' g _ => ?_
      dsimp only
      split
      · exact .pure _
      · exact blind_modifyData id _ g
    exact hcopy.bind fun _ _ _ => .pure _

/-! ## Operations of a text -/

/-- A new text has a tracker by the settings, and is otherwise the same. -/
theorem blind_newText (name : String) (beginOffset : Size) (content : String) (f : Forest) :
    Blind Forest.bare (newText name beginOffset content) f := by
  rw [Blind, exec_newText, exec_newText]
  simp [Forest.bare, Text.bare]
  rfl

theorem blind_createRoot (t : TextId) (f : Forest) : Blind Forest.bare (createRoot t) f := by
  refine blind_text fun x _ => ⟨rfl, ?_⟩
  refine (blind_require _ _ f).bind fun _ g _ => (blind_require _ _ g).bind fun _ g _ => ?_
  refine (blind_freshId g).bind fun id g _ => (blind_attachRoot t _ g).bind fun _ _ _ => .pure _

theorem blind_ensureRoot (t : TextId) (f : Forest) : Blind Forest.bare (ensureRoot t) f := by
  refine blind_text fun x _ => ⟨rfl, ?_⟩
  split
  · exact (blind_createRoot t f).bind fun _ _ _ => .pure _
  · exact .pure _

/-- The check of a text looks at its tree and its size. -/
theorem blind_checkText (t : TextId) (f : Forest) : Blind Forest.bare (checkText t) f := by
  refine blind_text fun x _ => ⟨rfl, ?_⟩
  cases x.root with
  | nil => exact .pure _
  | node n l r =>
    refine (blind_require _ _ f).bind fun _ g _ => (blind_require _ _ g).bind fun _ g _ => ?_
    split
    · exact .pure _
    · exact .throw _

/-- Where the check passes it does not matter whether it is made. -/
theorem blind_verify (h : exec (checkText t) f = (.ok ⟨⟩, f)) :
    Blind Forest.bare (verify t) f := by
  have hbare : exec (verify t) f.bare = (.ok ⟨⟩, f.bare) := by
    rw [verify, exec_bind_ok (exec_get f.bare)]
    rfl
  have hverify : exec (verify t) f = (.ok ⟨⟩, f) := by
    rw [verify, exec_bind_ok (exec_get f)]
    split
    · exact h
    · rfl
  rw [Blind, hbare, hverify]

/-! ## Sessions -/

/-- A session that is admitted is a change of the tracker. -/
theorem blind_openSession {kind : SessionKind}
    (h : ∀ o, (exec (openSession t kind) f).1 ≠ .error (.overlap o)) :
    Blind Forest.bare (openSession t kind) f := by
  cases hx : f.texts[t]? with
  | none =>
    have hbare : f.bare.texts[t]? = none := by rw [Forest.texts_bare, hx, Option.map_none]
    rw [Blind, openSession, exec_bind_error (exec_text_none hx),
      exec_bind_error (exec_text_none hbare)]
  | some x =>
    have hbare : f.bare.texts[t]? = some x.bare := by rw [Forest.texts_bare, hx, Option.map_some]
    rw [Blind, exec_openSession_untracked rfl hbare]
    cases ht : f.settings.tracking with
    | false => rw [exec_openSession_untracked ht hx]
    | true =>
      rw [exec_openSession_tracked ht hx] at h ⊢
      cases ha : x.access.openSession kind with
      | error o =>
        rw [ha] at h
        exact absurd rfl (h o)
      | ok access =>
        rw [f.bare_modifyText_access t fun _ => access]

theorem blind_closeSession (t : TextId) (kind : SessionKind) (f : Forest) :
    Blind Forest.bare (closeSession t kind) f := by
  rw [Blind, exec_closeSession_eq, exec_closeSession_eq, if_neg (by simp [Forest.bare])]
  split
  · rw [f.bare_modifyText_access t (·.close kind)]
  · rfl

/-- An operation in a session is blind if the session is admitted, and the operation is blind in
it. -/
theorem blind_withSession {kind : SessionKind} {body : Run α}
    (h : ∀ o, (exec (openSession t kind) f).1 ≠ .error (.overlap o))
    (hbody : ∀ g, exec (openSession t kind) f = (.ok ⟨⟩, g) → Blind Forest.bare body g) :
    Blind Forest.bare (withSession t kind body) f := by
  refine (blind_openSession h).bind fun _ g hg => (hbody g hg).tryFinally fun k => ⟨?_, ?_⟩
  · rw [exec_liftM_self, exec_closeSession_eq]
  · exact blind_closeSession t kind k

/-- The same for an operation of a client. -/
theorem blind_withSession_client {σ : Type} {e : σ → σ} {s : σ} {kind : SessionKind}
    {body : Client σ α} (h : ∀ o, (exec (openSession t kind) f).1 ≠ .error (.overlap o))
    (hbody : ∀ g, exec (openSession t kind) f = (.ok ⟨⟩, g) →
      Blind (Prod.map e Forest.bare) body (s, g)) :
    Blind (Prod.map e Forest.bare) (withSession t kind body) (s, f) := by
  refine (blind_liftM (blind_openSession h) s).bind fun _ y hy => ?_
  have hopen : exec (openSession t kind) f = (.ok ⟨⟩, y.2) := by
    rw [exec_liftM] at hy
    obtain ⟨hr, rfl⟩ := Prod.mk.inj hy
    exact Prod.ext hr rfl
  have hstate : y = (s, y.2) := by
    rw [exec_liftM] at hy
    obtain ⟨-, rfl⟩ := Prod.mk.inj hy
    rfl
  rw [hstate]
  refine (hbody y.2 hopen).tryFinally fun k => ⟨?_, ?_⟩
  · obtain ⟨s', k⟩ := k
    rw [exec_liftM, exec_closeSession_eq]
  · exact blind_liftM (blind_closeSession t kind k.2) k.1

end Run

end SpanTree
