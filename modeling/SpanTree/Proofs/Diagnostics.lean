/-
SpanTree.Proofs.Diagnostics — what is switched on cannot be told from
what is done.

A caller makes texts, works on them and on the nodes of their trees, and
traverses them, and while a text is being traversed does not use its
operations (`Task.Considerate`). With sessions tracked and texts checked
the same happens then as with everything switched off: the same results,
the same failures, and the same texts and trees after every step.

The invariant is `Forest.Ready`. The trees are upright and cover their
texts, so that every check passes; and a session is open at most on the
texts that are being traversed, so that every other session is admitted.
Every task keeps it, failed or not. With it every operation of a text is
blind (`blind_textCall`), and so is a traversal whose visits are
(`silent_traverseIntervals`).

Considerate is what was done, and not what the caller might have done. A
log only grows, so that what a log says of its end it says of each step
before.
-/
import SpanTree.Proofs.Erasure
import SpanTree.Proofs.Reentrance

namespace SpanTree

open Run

/-! ## Forests that are ready -/

namespace Forest

variable {f g : Forest} {c : Settings} {busy : List TextId} {t : TextId} {p : Place} {x : Text}

/-- Every tree is upright and covers its text, and the texts have no sessions, but for those that
are being traversed. -/
structure Ready (c : Settings) (busy : List TextId) (f : Forest) : Prop where
  settings : f.settings = c
  upright : f.Upright
  filled : ∀ p, f.Filled p
  small : ∀ content ∈ f.contents, content.utf8ByteSize < 2 ^ 63
  idle : c.tracking = true → ∀ t ∉ busy, ∀ w ∈ f.word? t, w = 0

/-- A forest without texts and trees is ready for them. -/
theorem ready_empty (c : Settings) : ({ settings := c } : Forest).Ready c [] := by
  have hnil : ∀ p, ({ settings := c } : Forest).tree p = .nil := by
    rintro (t | slot) <;> rfl
  refine ⟨rfl, .of_nil hnil, fun p t content hp hcontent => ?_, ?_, ?_⟩
  · simp [contents] at hcontent
  · simp [contents]
  · simp [word?]

theorem texts_modifyText_self {k : Text → Text} :
    (f.modifyText t k).texts[t]? = f.texts[t]?.map k := by
  simp [modifyText]

/-- A change of the tracker of another text is not seen. -/
theorem word?_modifyText {i : TextId} (hi : i ≠ t) (k : Text → Text) :
    (f.modifyText t k).word? i = f.word? i := by
  simp [word?, modifyText, Ne.symm hi]

namespace Ready

/-- Work on one tree leaves the forest ready. -/
theorem reworked (hf : f.Ready c busy) (h : f.Reworked p g) : g.Ready c busy where
  settings := h.settings.trans hf.settings
  upright := hf.upright.reworked h
  filled q := by
    by_cases hq : q = p
    · exact hq ▸ h.filled (hf.filled p)
    · intro t content htext hcontent
      rw [contents_of_covers h.covers] at hcontent
      rw [h.elsewhere q hq]
      exact hf.filled q t content htext hcontent
  small := by
    rw [contents_of_covers h.covers]
    exact hf.small
  idle ht t hbusy := by
    rw [word?_of_covers h.covers]
    exact hf.idle ht t hbusy

theorem profile (hf : f.Ready c busy) (q : Profile) : Ready c busy { f with profile := q } :=
  ⟨hf.settings, hf.upright.profile q, hf.filled, hf.small, hf.idle⟩

/-- So does a change of the tracker of a text, if the text is busy afterwards or has no session. -/
theorem access {busy' : List TextId} (hf : f.Ready c busy) (t : TextId) (a : Tracker → Tracker)
    (hword : c.tracking = true → t ∉ busy' → ∀ b, (a b).word = 0)
    (hbusy : ∀ i ≠ t, i ∉ busy' → i ∉ busy) :
    (f.modifyText t fun x => { x with access := a x.access }).Ready c busy' := by
  have hsame := f.sameTrees_access t a
  refine ⟨hsame.settings.trans hf.settings, hsame.upright hf.upright,
    fun p => hsame.filled (hf.filled p), by rw [hsame.contents]; exact hf.small, ?_⟩
  intro ht i hi w hw
  by_cases hit : i = t
  · subst hit
    obtain ⟨x, hx, rfl⟩ := Option.map_eq_some_iff.mp hw
    obtain ⟨y, -, rfl⟩ := Option.map_eq_some_iff.mp (texts_modifyText_self.symm.trans hx)
    exact hword ht hi _
  · rw [word?_modifyText hit] at hw
    exact hf.idle ht i (hbusy i hit hi) w hw

/-- The session of a text that is not being traversed is admitted. -/
theorem admits (hf : f.Ready c busy) (ht : t ∉ busy) (kind : SessionKind) (o : Overlap) :
    (exec (openSession t kind) f).1 ≠ .error (.overlap o) := by
  cases hx : f.texts[t]? with
  | none => simp [openSession, exec_bind_error (exec_text_none hx)]
  | some x =>
    cases htrack : f.settings.tracking with
    | false => simp [exec_openSession_untracked htrack hx]
    | true =>
      have hword : x.access.word = 0 := by
        refine hf.idle (by rw [← hf.settings, htrack]) t ht _ ?_
        simp [word?, hx]
      rw [exec_openSession_tracked htrack hx]
      cases kind <;>
        simp [Tracker.openSession, Tracker.openRead, Tracker.openWrite, Tracker.writerOpen, hword]

/-- With the session open the forest is ready, while the text is busy. -/
theorem opened (hf : f.Ready c busy) {kind : SessionKind}
    (h : exec (openSession t kind) f = (.ok ⟨⟩, g)) :
    g.Ready c (t :: busy) ∧ t < g.texts.length := by
  cases hx : f.texts[t]? with
  | none =>
    rw [openSession, exec_bind_error (exec_text_none hx)] at h
    cases h
  | some x =>
    have hlt := (List.getElem?_eq_some_iff.mp hx).1
    cases htrack : f.settings.tracking with
    | false =>
      rw [exec_openSession_untracked htrack hx] at h
      cases h
      refine ⟨⟨hf.settings, hf.upright, hf.filled, hf.small, fun ht i hi => ?_⟩, hlt⟩
      exact hf.idle ht i fun hmem => hi (List.mem_cons_of_mem t hmem)
    | true =>
      rw [exec_openSession_tracked htrack hx] at h
      cases ha : x.access.openSession kind with
      | error o =>
        rw [ha] at h
        cases h
      | ok access =>
        rw [ha] at h
        cases h
        refine ⟨hf.access t (fun _ => access) (fun _ hnot => ?_) fun i _ hi hmem => ?_, ?_⟩
        · exact absurd List.mem_cons_self hnot
        · exact hi (List.mem_cons_of_mem t hmem)
        · simpa [modifyText] using hlt

/-- With the session of a writer closed the text is not busy. -/
theorem closed (hf : f.Ready c (t :: busy)) : (exec (closeSession t .write) f).2.Ready c busy := by
  rw [exec_closeSession_eq]
  cases htrack : f.settings.tracking with
  | false =>
    rw [if_neg (by simp)]
    refine ⟨hf.settings, hf.upright, hf.filled, hf.small, fun ht => ?_⟩
    rw [← hf.settings, htrack] at ht
    cases ht
  | true =>
    rw [if_pos rfl]
    refine hf.access t (·.close .write) (fun _ _ _ => rfl) fun i hit hi hmem => ?_
    exact (List.mem_cons.mp hmem).elim hit hi

/-- Every text passes its check. -/
theorem check (hf : f.Ready c busy) (hx : f.texts[t]? = some x) :
    exec (checkText t) f = (.ok ⟨⟩, f) := by
  have htree : f.tree (.text t) = x.root := tree_text hx
  have hcontent : f.contents[t]? = some x.content := by
    rw [contents, List.getElem?_map, hx]
    rfl
  have hsmall : x.content.utf8ByteSize < 2 ^ 63 :=
    hf.small _ (List.mem_of_getElem? hcontent)
  have hfills := hf.filled (.text t) t x.content rfl hcontent hsmall
  rw [htree] at hfills
  have hlinked : x.root.Linked := htree ▸ hf.upright.linked (.text t)
  refine exec_checkText_of hx hfills.weighed hlinked fun link hlink => ?_
  refine ⟨hf.upright.top (.text t) link (htree ▸ hlink), ?_⟩
  rcases hfills with hnil | ⟨-, htotal⟩
  · simp [hnil] at hlink
  · refine UInt64.toNat_inj.mp ?_
    rw [htotal, Text.length, Nat.toUInt64, UInt64.toNat_ofNat', Nat.mod_eq_of_lt (by omega)]

end Ready

end Forest

/-! ## Tasks -/

/-- What a caller may do, beside traversals. -/
inductive Task where
  | newText (name : String) (beginOffset : Size) (content : String)
  | call (c : TextCall)
  | size (t : TextId)
  | mark (m : Mark)
  | look (id : NodeId)
  | split (s : Side) (id : NodeId) (offset : Size)
  | merge (s : Side) (id : NodeId)
  | remove (id : NodeId)
  | rotate (s : Side) (id : NodeId)
  | next (id : NodeId)
  | prev (id : NodeId)
  | update (id : NodeId) (position : Size)
  | find (id : NodeId) (position : Size)
  | outermost (s : Side) (id : NodeId)

namespace Task

def run : Task → Run Response
  | newText name beginOffset content => do
    pure (.text (← Run.newText name beginOffset content))
  | call c => c.run
  | size t => do pure (.size (← Run.text t).length)
  | mark m => m.run
  | look id => do pure (.span (← Run.span id))
  | split s id offset => do pure (.node (some (← Run.split s id offset)))
  | merge s id => do pure (.node (some (← Run.merge s id)))
  | remove id => do
    Run.remove id
    pure .done
  | rotate s id => do
    Run.rotateInPlace s id
    pure .done
  | next id => do pure (.node (← Run.next id))
  | prev id => do pure (.node (← Run.prev id))
  | update id position => do pure (.node (some (← Run.update id position)))
  | find id position => do pure (.node (some (← Run.find id position)))
  | outermost s id => do pure (.node (some (← Run.outermost s id)))

/-- The task uses no operation of a text that is being traversed, and makes no text that is too
long. -/
def Considerate (busy : List TextId) : Task → Prop
  | newText _ _ content => content.utf8ByteSize < 2 ^ 63
  | call c => c.text ∉ busy
  | _ => True

instance (busy : List TextId) : DecidablePred (Considerate busy)
  | newText _ _ content => inferInstanceAs (Decidable (content.utf8ByteSize < 2 ^ 63))
  | call c => inferInstanceAs (Decidable (c.text ∉ busy))
  | size _ | mark _ | look _ | split .. | merge .. | remove _ | rotate .. | next _ | prev _
  | update .. | find .. | outermost .. => .isTrue trivial

end Task

section Tasks

variable {f g : Forest} {c : Settings} {busy : List TextId} {t : TextId}

/-- The outermost node is only looked for. -/
theorem exec_outermost_same (s : Side) (id : NodeId) (f : Forest) :
    (exec (Run.outermost s id) f).2 = f := by
  rw [Run.outermost, exec_bind_pure]
  exact exec_locate_same id f

theorem exists_reworked_mark (hf : f.Upright) (m : Mark) :
    ∃ p, f.Reworked p (exec m.run f).2 := by
  rcases exec_mark_cases m f with h | ⟨id, e, h⟩
  · rw [h]
    exact ⟨.text 0, hf.stay _⟩
  · rw [h]
    exact reworked_modifyData hf id fun _ => rfl

/-- An operation of a text works on its tree. -/
theorem exists_reworked_textCall (hf : f.Upright) (call : TextCall) :
    ∃ p, f.Reworked p (exec call.run f).2 := by
  cases call with
  | content t =>
    rw [TextCall.run, exec_bind_pure]
    exact ⟨_, reworked_content hf t⟩
  | intervals t =>
    rw [TextCall.run, exec_bind_pure]
    exact ⟨_, reworked_intervals hf t⟩
  | findInterval t position =>
    rw [TextCall.run, exec_bind_pure]
    exact ⟨_, reworked_findInterval hf t position⟩
  | balanceIntervals t =>
    rw [TextCall.run, exec_bind_pure]
    exact ⟨_, reworked_balanceIntervals hf t⟩
  | checkIntervals t =>
    rw [TextCall.run, exec_bind_pure]
    exact ⟨_, reworked_checkIntervals hf t⟩

/-- A text without a tree that is not too long may be added at any time. -/
theorem ready_append (hf : f.Ready c busy) {x : Text} (hroot : x.root = .nil)
    (hword : x.access.word = 0) (hsmall : x.content.utf8ByteSize < 2 ^ 63) :
    Forest.Ready c busy { f with texts := f.texts ++ [x] } := by
  generalize hg : ({ f with texts := f.texts ++ [x] } : Forest) = g
  have htexts : g.texts = f.texts ++ [x] := hg ▸ rfl
  have hcontents : g.contents = f.contents ++ [x.content] := by
    rw [Forest.contents, htexts, List.map_append]
    rfl
  have htree (p : Place) : g.tree p = f.tree p := by
    cases p with
    | loose slot => rw [← hg, Forest.tree, Forest.tree]
    | text t =>
      rw [Forest.tree, Forest.tree, htexts, List.getElem?_append]
      split
      · rfl
      · next hlt =>
        rw [List.getElem?_eq_none (Nat.not_lt.mp hlt)]
        cases t - f.texts.length with
        | zero => exact hroot
        | succ n => rfl
  constructor
  · rw [← hg]
    exact hf.settings
  · exact hf.upright.congr htree (hg ▸ rfl)
  · intro p t content hp hget _
    rw [htree]
    rw [hcontents, List.getElem?_append] at hget
    split at hget
    · exact hf.filled p t content hp hget (hf.small _ (List.mem_of_getElem? hget))
    · next hlt =>
      have hnone : f.texts[t]? = none :=
        List.getElem?_eq_none (by simpa [Forest.contents] using hlt)
      have hnil : f.tree p = .nil := by
        rw [hp, Forest.tree, hnone]
        rfl
      rw [hnil]
      exact Tree.fills_nil _
  · intro content hmem
    rw [hcontents] at hmem
    rcases List.mem_append.mp hmem with hold | hnew
    · exact hf.small content hold
    · rw [List.mem_singleton.mp hnew]
      exact hsmall
  · intro ht t hbusy w hw
    rw [Forest.word?, htexts, List.getElem?_append] at hw
    split at hw
    · exact hf.idle ht t hbusy w hw
    · obtain ⟨y, hy, rfl⟩ := Option.map_eq_some_iff.mp hw
      rw [List.mem_singleton.mp (List.mem_of_getElem? hy)]
      exact hword

/-- **A task** leaves the forest ready, whether or not it succeeds. -/
theorem ready_task (hf : f.Ready c busy) {made : Task} (h : made.Considerate busy) :
    (exec made.run f).2.Ready c busy := by
  have hnode {α : Type} {k : Site → Run α} {id : NodeId}
      (h : ∀ p c, f.locate? id = some ⟨p, c⟩ →
        f.Reworked p (exec (locate id >>= k) f).2) : (exec (locate id >>= k) f).2.Ready c busy := by
    obtain ⟨p, hwork⟩ := reworked_of_locate hf.upright h
    exact hf.reworked hwork
  cases made with
  | newText name beginOffset content =>
    rw [Task.run, exec_bind_pure, exec_newText]
    exact ready_append hf rfl rfl h
  | call call =>
    obtain ⟨p, hwork⟩ := exists_reworked_textCall hf.upright call
    exact hf.reworked hwork
  | size t =>
    rw [Task.run, exec_bind_pure]
    exact (exec_text_same t f).symm ▸ hf
  | mark m =>
    obtain ⟨p, hwork⟩ := exists_reworked_mark hf.upright m
    exact hf.reworked hwork
  | look id =>
    rw [Task.run, exec_bind_pure]
    exact (exec_span_same id f).symm ▸ hf
  | split s id offset =>
    rw [Task.run, exec_bind_pure]
    exact hnode fun _ _ hc => reworked_split hf.upright hc s offset
  | merge s id =>
    rw [Task.run, exec_bind_pure]
    exact hnode fun _ _ hc => reworked_merge hf.upright hc s
  | remove id =>
    rw [Task.run, exec_bind_pure]
    exact hnode fun _ _ hc => reworked_remove hf.upright hc
  | rotate s id =>
    rw [Task.run, exec_bind_pure]
    exact hnode fun _ _ hc => reworked_rotateInPlace hf.upright hc s
  | next id =>
    rw [Task.run, exec_bind_pure]
    exact hnode fun _ _ hc => reworked_moveTo hf.upright hc fun _ => Cursor.skeleton_of_next
  | prev id =>
    rw [Task.run, exec_bind_pure]
    exact hnode fun _ _ hc => reworked_moveTo hf.upright hc fun _ => Cursor.skeleton_of_prev
  | update id position =>
    rw [Task.run, exec_bind_pure]
    exact hnode fun _ _ hc => reworked_update hf.upright hc position
  | find id position =>
    rw [Task.run, exec_bind_pure]
    obtain ⟨p, hwork⟩ := exists_reworked_find hf.upright id position
    exact hf.reworked hwork
  | outermost s id =>
    rw [Task.run, exec_bind_pure]
    exact (exec_outermost_same s id f).symm ▸ hf

/-- A text of a ready forest is verified in vain. -/
theorem blind_verify_of_ready (hf : f.Ready c busy) (ht : t < f.texts.length) :
    Blind Forest.bare (verify t) f :=
  blind_verify (hf.check (List.getElem?_eq_getElem ht))

/-- Work on one tree leaves the number of texts. -/
theorem length_of_reworked {p : Place} (h : f.Reworked p g) : g.texts.length = f.texts.length := by
  have hlength := congrArg List.length h.covers
  simpa [Forest.covers] using hlength

/-- An operation of a text that is not being traversed is blind. -/
theorem blind_textCall (hf : f.Ready c busy) {call : TextCall} (h : call.text ∉ busy) :
    Blind Forest.bare call.run f := by
  cases call with
  | content t =>
    refine (blind_withSession (hf.admits h .read) fun g _ => ?_).bind fun _ _ _ => .pure _
    exact blind_text fun _ _ => ⟨rfl, .pure _⟩
  | intervals t =>
    refine (blind_withSession (hf.admits h .write) fun g _ => ?_).bind fun _ _ _ => .pure _
    exact blind_ensureRoot t g
  | findInterval t position =>
    refine (blind_withSession (hf.admits h .write) fun g hg => ?_).bind fun _ _ _ => .pure _
    obtain ⟨hg, ht⟩ := hf.opened hg
    refine (blind_ensureRoot t g).bind fun root k hk => ?_
    have hwork := (reworked_ensureRoot hg.upright t).1
    rw [hk] at hwork
    cases root with
    | none => exact blind_text fun _ _ => ⟨rfl, .throw _⟩
    | some root =>
      refine (blind_find root position k).bind fun found l hl => ?_
      have hkept := hg.reworked hwork
      obtain ⟨p, hwork'⟩ := exists_reworked_find hkept.upright root position
      rw [hl] at hwork'
      have hlt : t < l.texts.length := by
        rw [length_of_reworked hwork', length_of_reworked hwork]
        exact ht
      exact (blind_verify_of_ready (hkept.reworked hwork') hlt).bind fun _ _ _ => .pure _
  | balanceIntervals t =>
    refine (blind_withSession (hf.admits h .write) fun g hg => ?_).bind fun _ _ _ => .pure _
    obtain ⟨hg, ht⟩ := hf.opened hg
    refine blind_text fun x _ => ⟨rfl, ?_⟩
    split
    · exact .pure _
    · refine blind_profiled fun q => blind_text fun y hy => ⟨rfl, ?_⟩
      have hg' := hg.profile q
      refine (blind_conclude _ _ _).bind fun n k hk => ?_
      have hwork := reworked_balanceTree hg'.upright hy
      rw [hk] at hwork
      have hready := (hg'.reworked hwork).profile (k.profile.add n)
      have hlt : t < k.texts.length := by
        rw [length_of_reworked hwork]
        exact ht
      refine (blind_addRotations n k).bind fun _ l hl => ?_
      rw [exec_addRotations] at hl
      obtain ⟨-, rfl⟩ := Prod.mk.inj hl
      exact (blind_verify_of_ready hready hlt).bind fun _ _ _ => .pure _
  | checkIntervals t =>
    refine (blind_withSession (hf.admits h .read) fun g _ => ?_).bind fun _ _ _ => .pure _
    exact blind_checkText t g

/-- **A task** of a considerate caller is blind. -/
theorem blind_task (hf : f.Ready c busy) {made : Task} (h : made.Considerate busy) :
    Blind Forest.bare made.run f := by
  cases made with
  | newText name beginOffset content =>
    exact (blind_newText name beginOffset content f).bind fun _ _ _ => .pure _
  | call call => exact blind_textCall hf h
  | size t => exact blind_text fun _ _ => ⟨rfl, .pure _⟩
  | mark m => exact blind_mark m f
  | look id => exact (blind_span id f).bind fun _ _ _ => .pure _
  | split s id offset => exact (blind_split s id offset f).bind fun _ _ _ => .pure _
  | merge s id => exact (blind_merge s id f).bind fun _ _ _ => .pure _
  | remove id => exact (blind_remove id f).bind fun _ _ _ => .pure _
  | rotate s id => exact (blind_rotateInPlace s id f).bind fun _ _ _ => .pure _
  | next id => exact (blind_moveTo _ id f).bind fun _ _ _ => .pure _
  | prev id => exact (blind_moveTo _ id f).bind fun _ _ _ => .pure _
  | update id position => exact (blind_update id position f).bind fun _ _ _ => .pure _
  | find id position => exact (blind_find id position f).bind fun _ _ _ => .pure _
  | outermost s id => exact (blind_outermost s id f).bind fun _ _ _ => .pure _

end Tasks

/-! ## Entries -/

namespace Entry

variable {ω ρ : Type}

/-- An entry without diagnostics. -/
def bare : Entry ω ρ → Entry ω ρ
  | task busy made before result after => .task busy made before.bare result after.bare
  | traversal busy t before result after visits =>
    .traversal busy t before.bare result after.bare visits

/-- No operation of a text was used while the text was being traversed. -/
def Considerate : Entry Task Response → Prop
  | task busy made _ _ _ => made.Considerate busy
  | traversal busy t _ _ _ _ => t ∉ busy

instance : DecidablePred Considerate
  | task busy made _ _ _ => inferInstanceAs (Decidable (made.Considerate busy))
  | traversal busy t _ _ _ _ => inferInstanceAs (Decidable (t ∉ busy))

/-- The diagnostics had nothing to say: the session of the operation was admitted, and every text
passes its check afterwards. -/
def Silent : Entry Task Response → Prop
  | task _ made before _ after =>
    (∀ call, made = .call call →
      ∀ o, (exec (openSession call.text call.kind) before).1 ≠ .error (.overlap o)) ∧
      ∀ t x, after.texts[t]? = some x → exec (checkText t) after = (.ok ⟨⟩, after)
  | traversal _ t before _ after _ =>
    (∀ o, (exec (openSession t .write) before).1 ≠ .error (.overlap o)) ∧
      ∀ t x, after.texts[t]? = some x → exec (checkText t) after = (.ok ⟨⟩, after)

end Entry

/-- A log without diagnostics. -/
def Log.bare {ω ρ σ : Type} (log : Log ω ρ σ) : Log ω ρ σ :=
  { log with entries := log.entries.map Entry.bare }

section Clients

variable {α β σ : Type} {f g : Forest} {c : Settings} {busy : List TextId} {t : TextId}
  {log log' : Log Task Response σ} {x : Client (Log Task Response σ) α}

/-- With everything switched off, all that has been done in the end is considerate. -/
def EndsConsiderate (x : Client (Log Task Response σ) α) (log : Log Task Response σ) (f : Forest) :
    Prop :=
  ∀ e ∈ (exec x (log.bare, f.bare)).2.1.entries, e.Considerate

/-- What a client does has nothing to do with the diagnostics, and they have nothing to say. The
forest is ready afterwards, while the texts are still being traversed. -/
structure Unobserved (c : Settings) (busy : List TextId) (x : Client (Log Task Response σ) α)
    (log : Log Task Response σ) (f : Forest) : Prop where
  blind : Blind (Prod.map Log.bare Forest.bare) x (log, f)
  ready : (exec x (log, f)).2.2.Ready c busy
  silent : (∀ e ∈ log.entries, e.Silent) → ∀ e ∈ (exec x (log, f)).2.1.entries, e.Silent

namespace Unobserved

protected theorem pure (hf : f.Ready c busy) (a : α) :
    Unobserved c busy (pure a) log f := ⟨.pure a, hf, id⟩

/-- What goes on as something else does. -/
theorem of_exec {y : Client (Log Task Response σ) α} (h : exec x (log, f) = exec y (log', g))
    (hbare : exec x (log.bare, f.bare) = exec y (log'.bare, g.bare))
    (hsilent : (∀ e ∈ log.entries, e.Silent) → ∀ e ∈ log'.entries, e.Silent)
    (hend : EndsConsiderate x log f)
    (hy : EndsConsiderate y log' g → Unobserved c busy y log' g) : Unobserved c busy x log f := by
  rw [EndsConsiderate, hbare] at hend
  obtain ⟨hblind, hready, hlater⟩ := hy hend
  refine ⟨?_, ?_, fun hold => ?_⟩
  · rw [Blind, Prod.map_apply, hbare, h]
    exact hblind
  · rw [h]
    exact hready
  · rw [h]
    exact hlater (hsilent hold)

/-- A failure. -/
protected theorem throw (hf : f.Ready c busy) (e : Fault) :
    Unobserved (α := α) c busy (throw e) log f := ⟨.throw e, hf, id⟩

/-- An operation on the forest. -/
protected theorem liftM {y : Run α} (hblind : Blind Forest.bare y f)
    (hready : (exec y f).2.Ready c busy) : Unobserved c busy (liftM y) log f :=
  ⟨blind_liftM hblind log, hready, id⟩

/-- One operation after another. What the first has done stays done in the end. -/
protected theorem bind {k : α → Client (Log Task Response σ) β} (hgrows : ∀ a, Errand.Grows (k a))
    (hend : EndsConsiderate (x >>= k) log f)
    (hx : EndsConsiderate x log f → Unobserved c busy x log f)
    (hk : ∀ a log' g, exec x (log, f) = (.ok a, (log', g)) → g.Ready c busy →
      EndsConsiderate (k a) log' g → Unobserved c busy (k a) log' g) :
    Unobserved c busy (x >>= k) log f := by
  have hfirst : Unobserved c busy x log f := by
    refine hx fun e he => hend e ?_
    rw [exec_bind]
    generalize exec x (log.bare, f.bare) = y at he
    obtain ⟨r, log', g⟩ := y
    cases r with
    | error fault => exact he
    | ok a => exact (hgrows a log' g).subset he
  obtain ⟨hblind, hready, hsilent⟩ := hfirst
  have hsecond : ∀ a s', exec x (log, f) = (.ok a, s') → Unobserved c busy (k a) s'.1 s'.2 := by
    rintro a ⟨log', g⟩ h
    rw [h] at hready
    refine hk a log' g h hready fun e he => hend e ?_
    have hbare : exec x (log.bare, f.bare) = (.ok a, (log'.bare, g.bare)) := by
      have hboth : exec x (log.bare, f.bare) = _ := hblind
      rw [hboth, h]
      rfl
    rwa [exec_bind_ok hbare]
  refine ⟨hblind.bind fun a s' h => (hsecond a s' h).blind, ?_, fun hold => ?_⟩
  · rw [exec_bind]
    rcases h : exec x (log, f) with ⟨r, s'⟩
    rw [h] at hready
    cases r with
    | error fault => exact hready
    | ok a => exact (hsecond a s' h).ready
  · have hmid := hsilent hold
    rw [exec_bind]
    rcases h : exec x (log, f) with ⟨r, s'⟩
    rw [h] at hmid
    cases r with
    | error fault => exact hmid
    | ok a => exact (hsecond a s' h).silent hmid

end Unobserved

/-! ## Traversals -/

/-- The cache of a node is set. -/
theorem ready_setCache (hf : f.Ready c busy) (id : NodeId) (position : Size) :
    (exec (modifyNode id (·.withPosition position)) f).2.Ready c busy := by
  obtain ⟨p, hwork⟩ := reworked_of_locate hf.upright fun p d hd =>
    reworked_modifyNode hf.upright hd (k := (·.withPosition position))
      (d.skeleton_withPosition position)
  exact hf.reworked hwork

variable {visit : NodeId → Client (Log Task Response σ) Unit}

/-- The loop of a traversal. -/
theorem unobserved_traverseLoop (hgrows : ∀ id, Errand.Grows (visit id))
    (hvisit : ∀ id log f, Forest.Ready c busy f → EndsConsiderate (visit id) log f →
      Unobserved c busy (visit id) log f) (fuel : Nat) (stack : List NodeId) (position : Size)
    (hf : f.Ready c busy) (log : Log Task Response σ)
    (hend : EndsConsiderate (traverseLoop visit fuel stack position) log f) :
    Unobserved c busy (traverseLoop visit fuel stack position) log f := by
  induction fuel generalizing stack position f log with
  | zero =>
    cases stack with
    | nil => exact .pure hf _
    | cons id rest => exact .liftM (.throw _) hf
  | succ fuel ih =>
    cases stack with
    | nil => exact .pure hf _
    | cons id rest =>
      have hloop (length : Size) (after : Tree) : Errand.Grows (traverseLoop visit fuel
          (((after.child .right).spine .left).reverse ++ rest) (position + length)) :=
        .traverseLoop hgrows fuel _ _
      have hlook (length : Size) := (Errand.Grows.liftM (Run.subtree id)).bind (hloop length)
      have hcall (length : Size) := (hgrows id).bind fun _ => hlook length
      -- the length of the node, its cache, the call, and what is then on its right
      refine .bind (fun length => (Errand.Grows.liftM _).bind fun _ => hcall length) hend
        (fun _ => .liftM ?_ ?_) fun length log₁ f₁ _ hf₁ hend₁ => ?_
      · exact (blind_span id f).bind fun _ _ _ => .pure _
      · rw [exec_bind_pure]
        exact (exec_span_same id f).symm ▸ hf
      refine .bind (fun _ => hcall length) hend₁ (fun _ => .liftM ?_ ?_)
        fun _ log₂ f₂ _ hf₂ hend₂ => ?_
      · exact blind_modifyNode id _ f₁
      · exact ready_setCache hf₁ id position
      refine .bind (fun _ => hlook length) hend₂ (hvisit id log₂ f₂ hf₂)
        fun _ log₃ f₃ _ hf₃ hend₃ => ?_
      refine .bind (hloop length) hend₃ (fun _ => .liftM (blind_subtree id f₃) ?_)
        fun after log₄ f₄ _ hf₄ hend₄ => ?_
      · exact (exec_subtree_same id f₃).symm ▸ hf₃
      exact ih _ _ hf₄ log₄ hend₄

/-- A session for a traversal. While it is open the text is being traversed. -/
theorem unobserved_withSession (hf : f.Ready c busy) (ht : t ∉ busy)
    (hbody : ∀ g, g.Ready c (t :: busy) → EndsConsiderate x log g →
      Unobserved c (t :: busy) x log g)
    (hend : EndsConsiderate (withSession t .write x) log f) :
    Unobserved c busy (withSession t .write x) log f := by
  have hadmitted := hf.admits ht .write
  have hopenBlind := blind_openSession hadmitted
  rcases session_cases t .write f with ⟨e, hopen, -⟩ | ⟨g, hopen, -, -⟩
  · refine ⟨blind_withSession_client hadmitted fun g hg => ?_, ?_, fun hold => ?_⟩
    · rw [hopen] at hg
      cases hg
    · rw [withSession, exec_liftM_bind_error hopen]
      exact hf
    · rw [withSession, exec_liftM_bind_error hopen]
      exact hold
  · rw [Blind, hopen] at hopenBlind
    have hinner : Unobserved c (t :: busy) x log g := by
      refine hbody g (hf.opened hopen).1 fun e he => hend e ?_
      rw [exec_withSession_client hopenBlind]
      exact he
    refine ⟨blind_withSession_client hadmitted fun k hk => ?_, ?_, fun hold => ?_⟩
    · rw [hopen] at hk
      cases hk
      exact hinner.blind
    · rw [exec_withSession_client hopen]
      exact hinner.ready.closed
    · rw [exec_withSession_client hopen]
      exact hinner.silent hold

/-- **A traversal** of a text, whose visits have nothing to do with the diagnostics. -/
theorem unobserved_traverseIntervals (hgrows : ∀ id, Errand.Grows (visit id))
    (hvisit : ∀ id log f, Forest.Ready c (t :: busy) f → EndsConsiderate (visit id) log f →
      Unobserved c (t :: busy) (visit id) log f) (hf : f.Ready c busy) (ht : t ∉ busy)
    (hend : EndsConsiderate (traverseIntervals t visit) log f) :
    Unobserved c busy (traverseIntervals t visit) log f := by
  refine unobserved_withSession hf ht (fun g hg hend => ?_) hend
  cases hx : g.texts[t]? with
  | none =>
    have hbare : g.bare.texts[t]? = none := by rw [Forest.texts_bare, hx, Option.map_none]
    exact .of_exec (exec_liftM_bind_error (exec_text_none hx))
      (exec_liftM_bind_error (exec_text_none hbare)) id hend fun _ => .throw hg _
  | some x =>
    have hbare : g.bare.texts[t]? = some x.bare := by rw [Forest.texts_bare, hx, Option.map_some]
    refine .of_exec (exec_liftM_bind_ok (exec_text hx)) (exec_liftM_bind_ok (exec_text hbare)) id
      hend fun hend => ?_
    generalize x.root.id? = top at hend ⊢
    cases top with
    | none => exact .pure hg _
    | some root =>
      refine .bind (fun site => .traverseLoop hgrows _ _ _) hend
        (fun _ => .liftM (blind_locate root g) ?_) fun site log₁ g₁ _ hg₁ hend₁ => ?_
      · exact (exec_locate_same root g).symm ▸ hg
      · exact unobserved_traverseLoop hgrows hvisit _ _ _ hg₁ log₁ hend₁

/-! ## Errands -/

namespace Errand

/-- An errand for a node that is visited. -/
theorem unobserved_visiting {visit : NodeId → σ → Errand Task Response σ} {id : NodeId}
    (hvisit : EndsConsiderate ((visit id log.state).follow Task.run busy) log f →
      Unobserved c busy ((visit id log.state).follow Task.run busy) log f)
    (hend : EndsConsiderate (visiting Task.run visit busy id) log f) :
    Unobserved c busy (visiting Task.run visit busy id) log f := by
  have hbare (log : Log Task Response σ) (f : Forest) :
      (exec (visiting Task.run visit busy id) (log, f)).2.1.entries =
        (exec ((visit id log.state).follow Task.run busy) (log, f)).2.1.entries := by
    generalize hmade : exec ((visit id log.state).follow Task.run busy) (log, f) = made
    obtain ⟨r, log', g⟩ := made
    rw [exec_visiting hmade]
  rw [EndsConsiderate, hbare] at hend
  obtain ⟨hblind, hready, hsilent⟩ := hvisit hend
  generalize hmade : exec ((visit id log.state).follow Task.run busy) (log, f) = made
    at hready hsilent
  obtain ⟨r, log', g⟩ := made
  have hmade' : exec ((visit id log.bare.state).follow Task.run busy) (log.bare, f.bare) =
      (r, log'.bare, g.bare) := by
    have hboth : exec ((visit id log.bare.state).follow Task.run busy) (log.bare, f.bare) = _ :=
      hblind
    rw [hboth, hmade]
    rfl
  refine ⟨?_, ?_, ?_⟩
  · rw [Blind, Prod.map_apply, exec_visiting hmade, exec_visiting hmade', Forest.cache_bare]
    rfl
  · rw [exec_visiting hmade]
    exact hready
  · rw [exec_visiting hmade]
    exact hsilent

/-- What an errand does has nothing to do with the diagnostics, if it ends considerate. -/
theorem unobserved_follow (errand : Errand Task Response σ) (hf : f.Ready c busy)
    (log : Log Task Response σ) (hend : EndsConsiderate (errand.follow Task.run busy) log f) :
    Unobserved c busy (errand.follow Task.run busy) log f := by
  induction errand generalizing busy log f with
  | done s => exact ⟨rfl, hf, id⟩
  | fail s e => exact ⟨rfl, hf, id⟩
  | ask made next ih =>
    -- with everything switched off the task is made too, and is logged for good
    have hmade : made.Considerate busy := by
      rcases hplain : exec made.run f.bare with ⟨r, g⟩
      have hgrows : Grows ((next r).follow Task.run busy) := grows_follow (next r) busy
      have hlogged :=
        hgrows { log.bare with entries := log.bare.entries ++ [.task busy made f.bare r g] } g
      refine hend (.task busy made f.bare r g) ?_
      rw [exec_ask hplain]
      exact hlogged.subset (by simp)
    have hblind := blind_task hf hmade
    have hready := ready_task hf hmade
    rcases hexec : exec made.run f with ⟨r, g⟩
    rw [Blind, hexec] at hblind
    rw [hexec] at hready
    refine .of_exec (exec_ask hexec) ((exec_ask hblind).trans ?_) (fun hold e he => ?_) hend
      fun hend => ih r hready _ hend
    · simp only [Log.bare, List.map_append]
      rfl
    · rcases List.mem_append.mp he with he | he
      · exact hold e he
      · obtain rfl := List.mem_singleton.mp he
        refine ⟨?_, fun t x hx => hready.check hx⟩
        rintro call rfl
        exact hf.admits hmade call.kind
  | traverse t s visit next ihvisit ihnext =>
    let start : Log Task Response σ := { log with state := s, visits := [] }
    have hvisiting (id : NodeId) : Grows (visiting Task.run visit (t :: busy) id) :=
      grows_visiting (fun id s => grows_follow (visit id s) (t :: busy)) id
    -- the visits and the traversal itself are logged for good too
    obtain ⟨ht, hinner⟩ : t ∉ busy ∧
        EndsConsiderate (traverseIntervals t (visiting Task.run visit (t :: busy))) start f := by
      rcases hplain : exec (traverseIntervals t (visiting Task.run visit (t :: busy)))
        (start.bare, f.bare) with ⟨r, inner, g⟩
      have hgrows : Grows ((next r inner.state).follow Task.run busy) :=
        grows_follow (next r inner.state) busy
      have hlogged := hgrows
        { inner with
            visits := log.bare.visits
            entries := inner.entries ++ [.traversal busy t f.bare r g inner.visits] } g
      rw [EndsConsiderate, exec_traverse hplain] at hend
      refine ⟨hend (.traversal busy t f.bare r g inner.visits) (hlogged.subset (by simp)),
        fun e he => hend e (hlogged.subset ?_)⟩
      rw [hplain] at he
      exact List.mem_append_left _ he
    obtain ⟨hblind, hready, hsilent⟩ := unobserved_traverseIntervals hvisiting
      (fun id log f hf hend => unobserved_visiting (ihvisit id log.state hf log) hend) hf ht hinner
    rcases hexec : exec (traverseIntervals t (visiting Task.run visit (t :: busy))) (start, f) with
      ⟨r, inner, g⟩
    rw [Blind, hexec] at hblind
    rw [hexec] at hready hsilent
    refine .of_exec (exec_traverse hexec) ((exec_traverse hblind).trans ?_) (fun hold e he => ?_)
      hend fun hend => ihnext r inner.state hready _ hend
    · simp only [Log.bare, List.map_append]
      rfl
    · rcases List.mem_append.mp he with he | he
      · exact hsilent hold e he
      · obtain rfl := List.mem_singleton.mp he
        exact ⟨hf.admits ht .write, fun t x hx => hready.check hx⟩

/-- **Diagnostics are not observed.** If a caller of new texts, who sees everything switched off,
uses no operation of a text while the text is being traversed, then with any settings the caller
gets the same results and the same failures, and each text and each tree is the same after each
step, but for trackers and profile. The sessions are all admitted, and every text passes its check
after every step. -/
theorem diagnostics_unobserved (errand : Errand Task Response σ) (s : σ)
    (h : ∀ e ∈ errand.log Task.run s { settings := .plain }, e.Considerate) (c : Settings) :
    let y := exec (errand.follow Task.run []) ({ state := s }, { settings := c })
    exec (errand.follow Task.run []) ({ state := s }, { settings := .plain }) =
      (y.1, (y.2.1.bare, y.2.2.bare)) ∧ ∀ e ∈ y.2.1.entries, e.Silent := by
  have hend : EndsConsiderate (errand.follow Task.run []) { state := s } { settings := c } := h
  obtain ⟨hblind, -, hsilent⟩ := unobserved_follow errand (Forest.ready_empty c) _ hend
  exact ⟨hblind, hsilent (by simp)⟩

/-- A caller who makes two texts. At each node of the first the node is marked and the second text
is read and traversed. Then the first is split and searched, at last at a position that it does not
have, and balanced. -/
def rounds : Errand Task Response Unit :=
  .ask (.newText "a" 1 "abc") fun _ =>
  .ask (.newText "b" 0 "xy") fun _ =>
  .ask (.call (.intervals 0)) fun _ =>
  .traverse 0 ()
    (fun id _ =>
      .ask (.mark (.put id "seen" "")) fun _ =>
      .ask (.call (.content 1)) fun _ =>
      .traverse 1 () (fun _ _ => .done ()) fun _ _ => .done ())
    fun _ _ =>
  .ask (.split .right 0 1) fun _ =>
  .ask (.call (.findInterval 0 2)) fun _ =>
  .ask (.call (.findInterval 0 7)) fun _ =>
  .ask (.call (.balanceIntervals 0)) fun _ => .done ()

/-- The caller is considerate, and debugging changes nothing. -/
theorem diagnostics_unobserved_rounds :
    (∀ e ∈ rounds.log Task.run () { settings := .plain }, e.Considerate) ∧
      let y := exec (rounds.follow Task.run []) ({ state := () }, { settings := .debug })
      exec (rounds.follow Task.run []) ({ state := () }, { settings := .plain }) =
        (y.1, (y.2.1.bare, y.2.2.bare)) ∧ ∀ e ∈ y.2.1.entries, e.Silent := by
  have hconsiderate : ∀ e ∈ rounds.log Task.run () { settings := .plain }, e.Considerate := by
    decide +kernel
  exact ⟨hconsiderate, diagnostics_unobserved rounds () hconsiderate .debug⟩

end Errand

end Clients

end SpanTree
