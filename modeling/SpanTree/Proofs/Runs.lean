/-
SpanTree.Proofs.Runs — what an operation gives, and the state it leaves.

An operation may fail and keeps what it did before. `exec` runs one from
a state and gives both: the result or the failure, and the state after
it. There is one lemma for each way an operation is put together; the
specifications of the operations go through them by rewriting.

`Client` is an operation of a caller with a state of its own, who uses
the operations on the forest (`exec_liftM`). A traversal calls back into
such a client.
-/
import SpanTree.Forest.Texts

namespace SpanTree

/-- The result of an operation from a state, and the state after it. -/
def exec {S α : Type} (x : ExceptT Fault (StateM S) α) (s : S) : Except Fault α × S := x.run.run s

/-- What is made of a result makes no failure. -/
theorem eq_error_of_map {α β : Type} {k : α → β} {r : Except Fault α} {e : Fault}
    (h : r.map k = .error e) : r = .error e := by
  cases r with
  | ok a => cases h
  | error e' =>
    cases h
    rfl

section Exec

variable {S α β : Type} {s s' : S}

@[simp] theorem exec_pure (a : α) (s : S) :
    exec (pure a : ExceptT Fault (StateM S) α) s = (.ok a, s) := rfl

@[simp] theorem exec_throw (e : Fault) (s : S) :
    exec (throw e : ExceptT Fault (StateM S) α) s = (.error e, s) := rfl

@[simp] theorem exec_get (s : S) :
    exec (get : ExceptT Fault (StateM S) S) s = (.ok s, s) := rfl

@[simp] theorem exec_modify (g : S → S) (s : S) :
    exec (modify g : ExceptT Fault (StateM S) PUnit) s = (.ok ⟨⟩, g s) := rfl

@[simp] theorem exec_ofExcept (r : Except Fault α) (s : S) :
    exec (ofExcept r : ExceptT Fault (StateM S) α) s = (r, s) := by
  cases r <;> rfl

/-- One operation after another. -/
theorem exec_bind (x : ExceptT Fault (StateM S) α) (k : α → ExceptT Fault (StateM S) β) (s : S) :
    exec (x >>= k) s =
      match exec x s with
      | (.ok a, s') => exec (k a) s'
      | (.error e, s') => (.error e, s') := by
  change (StateT.run (x.run >>= ExceptT.bindCont k) s) = _
  rw [StateT.run_bind]
  change (match exec x s with | (r, s') => StateT.run (ExceptT.bindCont k r) s') = _
  obtain ⟨r, s'⟩ := exec x s
  cases r <;> rfl

theorem exec_bind_ok {x : ExceptT Fault (StateM S) α} {a : α} (h : exec x s = (.ok a, s'))
    (k : α → ExceptT Fault (StateM S) β) : exec (x >>= k) s = exec (k a) s' := by
  rw [exec_bind, h]

theorem exec_bind_error {x : ExceptT Fault (StateM S) α} {e : Fault}
    (h : exec x s = (.error e, s')) (k : α → ExceptT Fault (StateM S) β) :
    exec (x >>= k) s = (.error e, s') := by
  rw [exec_bind, h]

/-- What only computes afterwards changes the result. -/
theorem exec_bind_pure (x : ExceptT Fault (StateM S) α) (k : α → β) (s : S) :
    exec (x >>= fun a => pure (k a)) s = ((exec x s).1.map k, (exec x s).2) := by
  rw [exec_bind]
  obtain ⟨r, s'⟩ := exec x s
  cases r <;> rfl

/-- What only looks at the state afterwards leaves it alone. -/
theorem exec_bind_same {k : α → ExceptT Fault (StateM S) β} (h : ∀ a s, (exec (k a) s).2 = s)
    (x : ExceptT Fault (StateM S) α) (s : S) : (exec (x >>= k) s).2 = (exec x s).2 := by
  rw [exec_bind]
  obtain ⟨r, s'⟩ := exec x s
  cases r with
  | ok a => exact h a s'
  | error e => rfl

/-- Something that is done however an operation ends, and does not fail. -/
theorem exec_tryFinally {x : ExceptT Fault (StateM S) α} {r : Except Fault α} {s'' : S}
    (h : exec x s = (r, s')) {final : ExceptT Fault (StateM S) PUnit}
    (hf : exec final s' = (.ok ⟨⟩, s'')) : exec (tryFinally x final) s = (r, s'') := by
  have hx : x s = (r, s') := h
  have hfinal : final s' = (.ok ⟨⟩, s'') := hf
  cases r <;>
    simp [exec, tryFinally, tryFinally', StateT.run, ExceptT.run, ExceptT.mk, Functor.map,
      ExceptT.map, StateT.bind, bind, pure, hx, hfinal] <;>
    rfl

end Exec

/-! ## Clients -/

/-- An operation of a caller that has a state of its own beside the forest. -/
abbrev Client (σ : Type) := ExceptT Fault (StateM (σ × Forest))

/-- A client uses an operation on the forest. -/
instance (σ : Type) : MonadLift Run (Client σ) where
  monadLift x := fun (s, f) => ((exec x f).1, (s, (exec x f).2))

@[simp] theorem exec_liftM {σ α : Type} (x : Run α) (s : σ) (f : Forest) :
    exec (liftM x : Client σ α) (s, f) = ((exec x f).1, (s, (exec x f).2)) := rfl

theorem exec_liftM_bind_ok {σ α β : Type} {x : Run α} {a : α} {f f' : Forest}
    (h : exec x f = (.ok a, f')) {k : α → Client σ β} {s : σ} :
    exec (liftM x >>= k) (s, f) = exec (k a) (s, f') :=
  exec_bind_ok (by rw [exec_liftM, h]) k

theorem exec_liftM_bind_error {σ α β : Type} {x : Run α} {e : Fault} {f f' : Forest}
    (h : exec x f = (.error e, f')) {k : α → Client σ β} {s : σ} :
    exec (liftM x >>= k) (s, f) = (.error e, (s, f')) :=
  exec_bind_error (by rw [exec_liftM, h]) k

@[simp] theorem exec_liftM_self {α : Type} (x : Run α) (f : Forest) :
    exec (liftM x : Run α) f = exec x f := rfl

/-! ## Profiled scopes -/

namespace Run

/-- A profiled scope changes the profile, and does otherwise what it contains. -/
theorem exec_profiled {α : Type} (label : String) (body : Run α) (f : Forest) :
    ∃ p p', exec (profiled label body) f =
      ((exec body { f with profile := p }).1,
        { (exec body { f with profile := p }).2 with profile := p' }) := by
  cases hs : f.settings.profiling with
  | false =>
    refine ⟨f.profile, (exec body f).2.profile, ?_⟩
    rw [profiled, exec_bind_ok (exec_get f)]
    simp [hs]
  | true =>
    refine ⟨f.profile.enter label,
      (exec body { f with profile := f.profile.enter label }).2.profile.leave, ?_⟩
    rw [profiled, exec_bind_ok (exec_get f), if_pos hs,
      exec_bind_ok (exec_modify (fun f => { f with profile := f.profile.enter label }) f)]
    exact exec_tryFinally rfl (exec_modify _ _)

/-- What holds of what a profiled scope contains, under every profile, holds of the scope. -/
theorem exec_profiled_of {α : Type} {label : String} {body : Run α} {f : Forest}
    {P : Except Fault α × Forest → Prop}
    (h : ∀ p p', P ((exec body { f with profile := p }).1,
      { (exec body { f with profile := p }).2 with profile := p' })) :
    P (exec (profiled label body) f) := by
  obtain ⟨p, p', hp⟩ := exec_profiled label body f
  rw [hp]
  exact h p p'

@[simp] theorem exec_addRotations (rotations : Nat) (f : Forest) :
    exec (addRotations rotations) f =
      (.ok ⟨⟩, { f with profile := f.profile.add rotations }) := rfl

@[simp] theorem exec_violate {α : Type} (v : Violation) (f : Forest) :
    exec (violate v : Run α) f = (.error (.violation v), f) := rfl

theorem exec_require {condition : Bool} (h : condition = true) (v : Violation) (f : Forest) :
    exec (require condition v) f = (.ok ⟨⟩, f) := by
  rw [require, if_pos h, exec_pure]

theorem exec_require_not {condition : Bool} (h : condition = false) (v : Violation) (f : Forest) :
    exec (require condition v) f = (.error (.violation v), f) := by
  rw [require, h, if_neg Bool.false_ne_true, exec_violate]

@[simp] theorem exec_plant (place : Place) (t : Tree) (f : Forest) :
    exec (plant place t) f = (.ok ⟨⟩, f.plant t place) := rfl

@[simp] theorem exec_putBack (site : Site) (f : Forest) :
    exec (putBack site) f = (.ok ⟨⟩, f.plant site.cursor.toTree site.place) := rfl

@[simp] theorem exec_conclude {α : Type} (place : Place) (edited : Edited α) (f : Forest) :
    exec (conclude place edited) f = (edited.2, f.plant edited.1 place) := by
  rw [conclude, exec_bind_ok (exec_plant place edited.1 f), exec_ofExcept]

theorem exec_freshId (f : Forest) :
    exec freshId f = (.ok f.nextId, { f with nextId := f.nextId + 1 }) := rfl

theorem exec_text {f : Forest} {t : TextId} {x : Text} (h : f.texts[t]? = some x) :
    exec (text t) f = (.ok x, f) := by
  rw [text, exec_bind_ok (exec_get f), h, exec_pure]

theorem exec_newText (name : String) (beginOffset : Size) (content : String) (f : Forest) :
    exec (newText name beginOffset content) f =
      (.ok f.texts.length,
        let x : Text := { name, beginOffset, content, access := .idle f.settings.history }
        { f with texts := f.texts ++ [x] }) := rfl

theorem exec_locate {f : Forest} {id : NodeId} {site : Site} (h : f.locate? id = some site) :
    exec (locate id) f = (.ok site, f) := by
  rw [locate, exec_bind_ok (exec_get f), h, exec_pure]

/-- A node is changed where it stands. -/
theorem exec_modifyNode {f : Forest} {place : Place} {id : NodeId} {c : Cursor}
    (h : f.locate? id = some ⟨place, c⟩) (k : Cursor → Cursor) :
    exec (modifyNode id k) f = (.ok ⟨⟩, f.plant (k c).toTree place) := by
  rw [modifyNode, exec_bind_ok (exec_locate h), exec_plant]

theorem exec_locate_none {f : Forest} {id : NodeId} (h : f.locate? id = none) :
    exec (locate id) f = (.error (.breach .lostNode), f) := by
  rw [locate, exec_bind_ok (exec_get f), h, exec_throw]

/-- Looking changes nothing. -/
theorem exec_subtree_same (id : NodeId) (f : Forest) : (exec (Run.subtree id) f).2 = f := by
  rw [Run.subtree, exec_bind_ok (exec_get f)]
  cases f.subtree? id <;> rfl

theorem exec_span_same (id : NodeId) (f : Forest) : (exec (span id) f).2 = f := by
  refine (exec_bind_same (fun u g => ?_) _ f).trans (exec_subtree_same id f)
  cases u <;> rfl

/-- A node is located, or the lookup fails; nothing changes. -/
theorem exec_locate_cases (id : NodeId) (f : Forest) :
    (∃ site, exec (locate id) f = (.ok site, f)) ∨ ∃ e, exec (locate id) f = (.error e, f) := by
  cases h : f.locate? id with
  | some site => exact .inl ⟨site, exec_locate h⟩
  | none => exact .inr ⟨_, exec_locate_none h⟩

theorem exec_locate_same (id : NodeId) (f : Forest) : (exec (locate id) f).2 = f := by
  rcases exec_locate_cases id f with ⟨site, h⟩ | ⟨e, h⟩ <;> rw [h]

theorem exec_text_none {f : Forest} {t : TextId} (h : f.texts[t]? = none) :
    exec (text t) f = (.error (.breach .lostText), f) := by
  rw [text, exec_bind_ok (exec_get f), h, exec_throw]

theorem exec_subtree {f : Forest} {id : NodeId} {t : Tree} (h : f.subtree? id = some t) :
    exec (subtree id) f = (.ok t, f) := by
  rw [subtree, exec_bind_ok (exec_get f), h, exec_pure]

/-! ## Sessions -/

/-- Where sessions are tracked, the tracker of the text decides. -/
theorem exec_openSession_tracked {f : Forest} {t : TextId} {x : Text}
    (ht : f.settings.tracking = true)
    (hx : f.texts[t]? = some x) (kind : SessionKind) :
    exec (openSession t kind) f =
      match x.access.openSession kind with
      | .ok access => (.ok ⟨⟩, f.modifyText t fun x => { x with access })
      | .error o => (.error (.overlap o), f) := by
  rw [openSession, exec_bind_ok (exec_text hx), exec_bind_ok (exec_get f), ht]
  cases x.access.openSession kind <;> rfl

/-- Where they are not tracked, every session is admitted. -/
theorem exec_openSession_untracked {f : Forest} {t : TextId} {x : Text}
    (ht : f.settings.tracking = false)
    (hx : f.texts[t]? = some x) (kind : SessionKind) :
    exec (openSession t kind) f = (.ok ⟨⟩, f) := by
  rw [openSession, exec_bind_ok (exec_text hx), exec_bind_ok (exec_get f), ht]
  rfl

/-- A session is closed on the tracker of the text. -/
theorem exec_closeSession_eq (t : TextId) (kind : SessionKind) (f : Forest) :
    exec (closeSession t kind) f =
      (.ok ⟨⟩, if f.settings.tracking then
        f.modifyText t fun x => { x with access := x.access.close kind } else f) := by
  rw [closeSession, exec_bind_ok (exec_get f)]
  split <;> rfl

/-- Where a session fails to open, nothing else is done. -/
theorem exec_withSession_error {α : Type} {t : TextId} {kind : SessionKind} {body : Run α}
    {f g : Forest} {e : Fault} (h : exec (openSession t kind) f = (.error e, g)) :
    exec (withSession t kind body) f = (.error e, g) :=
  exec_bind_error (by rw [exec_liftM_self, h]) _

/-- What is done in a session that is admitted. -/
theorem exec_withSession_ok {α : Type} {t : TextId} {kind : SessionKind} {body : Run α}
    {f g : Forest} (h : exec (openSession t kind) f = (.ok ⟨⟩, g)) :
    exec (withSession t kind body) f =
      ((exec body g).1, (exec (closeSession t kind) (exec body g).2).2) := by
  rw [withSession, exec_bind_ok (by rw [exec_liftM_self, h])]
  generalize hbody : exec body g = y
  obtain ⟨r, k⟩ := y
  exact exec_tryFinally hbody (by rw [exec_liftM_self, exec_closeSession_eq])

/-- What a client does in a session that is admitted. -/
theorem exec_withSession_client {σ α : Type} {t : TextId} {kind : SessionKind} {body : Client σ α}
    {f g : Forest} (h : exec (openSession t kind) f = (.ok ⟨⟩, g)) (s : σ) :
    exec (withSession t kind body) (s, f) =
      ((exec body (s, g)).1, ((exec body (s, g)).2.1,
        (exec (closeSession t kind) (exec body (s, g)).2.2).2)) := by
  rw [withSession, exec_liftM_bind_ok h]
  generalize hbody : exec body (s, g) = y
  obtain ⟨r, s', k⟩ := y
  exact exec_tryFinally hbody (by rw [exec_liftM, exec_closeSession_eq])

end Run

end SpanTree
