/-
SpanTree.Proofs.Texts — the operations of a text, on readings.

An operation of a text runs in a session. Of the tracker a reading keeps
the word, which decides whether a session is admitted; a session that
was admitted leaves the word as it found it (`closed_opened`). So the
specifications are those of what runs in the session, and where a session
is refused nothing happens.

The check of a text passes on every text with a reading, whence the
operations that check the text afterwards do not fail by it.
-/
import SpanTree.Forest.Texts
import SpanTree.Proofs.Checks
import SpanTree.Proofs.Edits
import SpanTree.Proofs.WorkLists

namespace SpanTree

namespace Reading

/-- The tracker admits a session. -/
def Admits (v : Reading) (kind : SessionKind) : Prop :=
  v.settings.tracking = true →
    match kind with
    | .write => v.word = 0
    | _ => v.word &&& Tracker.writerBit = 0

/-- The word of the tracker in a session. -/
def opened (v : Reading) (kind : SessionKind) : UInt32 :=
  if v.settings.tracking then
    match kind with
    | .write => Tracker.sessionUnit ||| Tracker.writerBit
    | _ => v.word + Tracker.sessionUnit
  else v.word

/-- The word of the tracker after a session. -/
def closed (v : Reading) (kind : SessionKind) : UInt32 :=
  if v.settings.tracking then
    match kind with
    | .write => 0
    | _ => v.word - Tracker.sessionUnit
  else v.word

/-- A session that is admitted leaves the word as it was. -/
theorem closed_opened {v : Reading} {kind : SessionKind} (h : v.Admits kind) :
    { v with word := v.opened kind }.closed kind = v.word := by
  cases ht : v.settings.tracking with
  | false => simp [closed, opened, ht]
  | true =>
    have hword := h ht
    cases kind <;> simp_all [closed, opened]

end Reading

namespace Forest

variable {f : Forest} {t : TextId} {v : Reading}

/-- The tracker of a text changes, and nothing else. -/
theorem Reads.access (h : f.Reads t v) {x : Text} (hx : f.texts[t]? = some x)
    (g : Tracker → Tracker) :
    (f.modifyText t fun x => { x with access := g x.access }).Reads t
        { v with word := (g x.access).word } ∧
      (f.modifyText t fun x => { x with access := g x.access }).tree (.text t) =
        f.tree (.text t) := by
  obtain ⟨x', hx', hstart, hcontent, -, hshape⟩ := h.text
  obtain rfl : x = x' := by simpa [hx] using hx'
  have hget : (f.modifyText t fun x => { x with access := g x.access }).texts[t]? =
      some { x with access := g x.access } := by
    simp [modifyText, hx]
  have htree := f.tree_access t g
  refine ⟨⟨⟨h.valid.small, h.valid.fits, h.valid.placed, h.valid.covers, h.valid.distinct,
    h.valid.fresh⟩, ⟨_, hget, hstart, hcontent, rfl, ⟨hshape.spans, hshape.weighed, hshape.linked,
    hshape.homed⟩⟩, h.settings, h.nextId, fun p hp id hid => h.apart p hp id (htree p ▸ hid)⟩,
    htree _⟩

end Forest

/-- The text passes its check: its tree, if there is one, is linked to it,
covers it, and passes the structural check. -/
def Text.Passes (x : Text) (t : TextId) : Prop :=
  ∀ link ∈ x.root.link?,
    link = .owner t ∧ x.root.total = x.length ∧ x.root.Linked ∧ x.root.Outweighs

namespace Run

variable {α : Type} {t : TextId} {v v' : Reading} {f : Forest} {kind : SessionKind}

/-! ## Sessions -/

/-- The tracker of a text admits a session, or refuses it. -/
theorem openSession_cases (ht : v.settings.tracking = true) (a : Tracker) (ha : a.word = v.word)
    (kind : SessionKind) :
    (v.Admits kind ∧ ∃ a', a.openSession kind = .ok a' ∧ a'.word = v.opened kind) ∨
      (¬ v.Admits kind ∧ ∃ o, a.openSession kind = .error o) := by
  have read (hk : a.openSession kind = a.openRead)
      (hadm : v.Admits kind ↔ v.word &&& Tracker.writerBit = 0)
      (hword : v.opened kind = v.word + Tracker.sessionUnit) :
      (v.Admits kind ∧ ∃ a', a.openSession kind = .ok a' ∧ a'.word = v.opened kind) ∨
        (¬ v.Admits kind ∧ ∃ o, a.openSession kind = .error o) := by
    rw [hk, hadm, hword, ← ha]
    by_cases hw : a.word &&& Tracker.writerBit = 0
    · exact .inl ⟨hw, _, by simp only [Tracker.openRead, Tracker.writerOpen, hw]; rfl, by simp⟩
    · exact .inr ⟨hw, _, by simp [Tracker.openRead, Tracker.writerOpen, hw]; rfl⟩
  cases kind with
  | write =>
    have hadm : v.Admits .write ↔ a.word = 0 := by simp [Reading.Admits, ht, ha]
    rw [hadm]
    by_cases hw : a.word = 0
    · refine .inl ⟨hw, _, by simp only [Tracker.openSession, Tracker.openWrite, hw]; rfl, ?_⟩
      simp [Reading.opened, ht]
    · exact .inr ⟨hw, _, by simp [Tracker.openSession, Tracker.openWrite, hw]; rfl⟩
  | read => exact read rfl (by simp [Reading.Admits, ht]) (by simp [Reading.opened, ht])
  | none => exact read rfl (by simp [Reading.Admits, ht]) (by simp [Reading.opened, ht])

/-- A session of a text is opened, or refused and nothing changes. -/
theorem exec_openSession (hf : f.Reads t v) (kind : SessionKind) :
    (v.Admits kind ∧ ∃ g, exec (openSession t kind) f = (.ok ⟨⟩, g) ∧
        g.Reads t { v with word := v.opened kind } ∧ g.tree (.text t) = f.tree (.text t)) ∨
      (¬ v.Admits kind ∧ ∃ o, exec (openSession t kind) f = (.error (.overlap o), f)) := by
  obtain ⟨x, hx, -, -, hword, -⟩ := hf.text
  cases ht : v.settings.tracking with
  | false =>
    have hopened : v.opened kind = v.word := by simp [Reading.opened, ht]
    have hopen := exec_openSession_untracked (by rw [hf.settings, ht]) hx kind
    exact .inl ⟨fun h => by simp [ht] at h, f, hopen, hopened ▸ hf, rfl⟩
  | true =>
    have hopen := exec_openSession_tracked (by rw [hf.settings, ht]) hx kind
    rcases openSession_cases ht x.access hword kind with ⟨hadm, a, ha, haword⟩ | ⟨hadm, o, ho⟩
    · obtain ⟨hg, htree⟩ := hf.access hx fun _ => a
      exact .inl ⟨hadm, _, by rw [hopen, ha], haword ▸ hg, htree⟩
    · exact .inr ⟨hadm, o, by rw [hopen, ho]⟩

/-- A session of a text is closed. -/
theorem exec_closeSession (hf : f.Reads t v) (kind : SessionKind) :
    ∃ g, exec (closeSession t kind) f = (.ok ⟨⟩, g) ∧ g.Reads t { v with word := v.closed kind } ∧
      g.tree (.text t) = f.tree (.text t) := by
  obtain ⟨x, hx, -, -, hword, -⟩ := hf.text
  rw [exec_closeSession_eq, hf.settings]
  cases ht : v.settings.tracking with
  | false =>
    have hclosed : v.closed kind = v.word := by simp [Reading.closed, ht]
    exact ⟨f, rfl, hclosed ▸ hf, rfl⟩
  | true =>
    have hclosed : (x.access.close kind).word = v.closed kind := by
      cases kind <;> simp [Tracker.close, Reading.closed, ht, hword]
    obtain ⟨hg, htree⟩ := hf.access hx (·.close kind)
    exact ⟨_, rfl, hclosed ▸ hg, htree⟩

/-- A session that is admitted opens. It closes after anything that keeps
the settings and the word there is in the session; the word is then what
it was before. -/
theorem exec_session (hf : f.Reads t v) (hadm : v.Admits kind) :
    ∃ w g, exec (openSession t kind) f = (.ok ⟨⟩, g) ∧ g.Reads t { v with word := w } ∧
      g.tree (.text t) = f.tree (.text t) ∧
      ∀ g' v', Forest.Reads g' t { v' with word := w } → v'.settings = v.settings →
        v'.word = v.word → ∃ f', exec (closeSession t kind) g' = (.ok ⟨⟩, f') ∧
          f'.Reads t v' ∧ f'.tree (.text t) = g'.tree (.text t) := by
  rcases exec_openSession hf kind with ⟨-, g, hopen, hg, htree⟩ | ⟨hnot, -⟩
  · refine ⟨v.opened kind, g, hopen, hg, htree, fun g' v' hg' hsettings hword => ?_⟩
    obtain ⟨f', hclose, hf', htree'⟩ := exec_closeSession hg' kind
    have hback : { v' with word := v.opened kind }.closed kind = v'.word := by
      refine Eq.trans ?_ ((Reading.closed_opened hadm).trans hword.symm)
      simp only [Reading.closed, hsettings]
    rw [hback] at hf'
    exact ⟨f', hclose, hf', htree'⟩
  · exact absurd hadm hnot

/-- What runs in a session decides the result and the tree; the word of
the tracker is afterwards what it was before. -/
theorem exec_withSession (hf : f.Reads t v) (hadm : v.Admits kind) {body : Run α}
    {r : Except Fault α} {P : Tree → Prop} (hsettings : v'.settings = v.settings)
    (hword : v'.word = v.word)
    (h : ∀ w g, Forest.Reads g t { v with word := w } → g.tree (.text t) = f.tree (.text t) →
      ∃ g', exec body g = (r, g') ∧ g'.Reads t { v' with word := w } ∧ P (g'.tree (.text t))) :
    ∃ f', exec (withSession t kind body) f = (r, f') ∧ f'.Reads t v' ∧ P (f'.tree (.text t)) := by
  obtain ⟨w, g, hopen, hg, htree, hclose⟩ := exec_session hf hadm
  obtain ⟨g', hbody, hg', hP⟩ := h w g hg htree
  obtain ⟨f', hclosed, hf', htree'⟩ := hclose g' v' hg' hsettings hword
  refine ⟨f', ?_, hf', htree' ▸ hP⟩
  rw [exec_withSession_ok hopen, hbody, hclosed]

/-- An operation keeps its specification in a session that is admitted. -/
theorem does_withSession (hadm : v.Admits kind) {body : Run α} {r : Except Fault α}
    (hsettings : v'.settings = v.settings) (hword : v'.word = v.word)
    (h : ∀ w, Does body t { v with word := w } r { v' with word := w }) :
    Does (withSession t kind body) t v r v' := by
  intro f hf
  obtain ⟨f', hexec, hf', -⟩ := exec_withSession (P := fun _ => True) hf hadm hsettings hword
    fun w g hg _ => by
      obtain ⟨g', hbody, hg'⟩ := h w g hg
      exact ⟨g', hbody, hg', trivial⟩
  exact ⟨f', hexec, hf'⟩

/-- Where a session is refused, nothing happens. -/
theorem exec_withSession_refused (hf : f.Reads t v) (hadm : ¬ v.Admits kind) (body : Run α) :
    ∃ o, exec (withSession t kind body) f = (.error (.overlap o), f) := by
  rcases exec_openSession hf kind with ⟨hyes, -⟩ | ⟨-, o, hopen⟩
  · exact absurd hyes hadm
  · exact ⟨o, exec_withSession_error hopen⟩

/-! ## Checks -/

/-- The check of a text changes nothing. -/
theorem exec_checkText_eq {x : Text} (hx : f.texts[t]? = some x) :
    ∃ r, exec (checkText t) f = (r, f) ∧ (r = .ok ⟨⟩ ↔ x.Passes t) := by
  rw [checkText, exec_bind_ok (exec_text hx), Text.Passes]
  cases hr : x.root with
  | nil => exact ⟨_, rfl, by simp⟩
  | node n l r =>
    dsimp only
    by_cases hlink : n.link = .owner t
    · rw [exec_bind_ok (exec_require (by simp [hlink]) _ _)]
      by_cases htotal : n.data.total = x.length
      · rw [exec_bind_ok (exec_require (by simp [htotal]) _ _)]
        have hiff := (Tree.node n l r).check_eq_ok_iff
        cases hcheck : (Tree.node n l r).check with
        | ok u =>
          rw [hcheck] at hiff
          exact ⟨_, rfl, by simpa [hlink, htotal] using hiff⟩
        | error e =>
          rw [hcheck] at hiff
          exact ⟨_, rfl, by simpa [hlink, htotal] using hiff⟩
      · rw [exec_bind_error (exec_require_not (by simp [htotal]) _ _)]
        exact ⟨_, rfl, by simp [htotal]⟩
    · rw [exec_bind_error (exec_require_not (by simp [hlink]) _ _)]
      exact ⟨_, rfl, by simp [hlink]⟩

/-- The check of a text passes where the tree is weighed and linked, names
the text and covers it. -/
theorem exec_checkText_of {x : Text} (hx : f.texts[t]? = some x) (hw : x.root.Weighed)
    (hl : x.root.Linked)
    (hroot : ∀ link ∈ x.root.link?, link = .owner t ∧ x.root.total = x.length) :
    exec (checkText t) f = (.ok ⟨⟩, f) := by
  obtain ⟨r, hexec, hiff⟩ := exec_checkText_eq hx
  have hpasses : x.Passes t := fun link hlink =>
    ⟨(hroot link hlink).1, (hroot link hlink).2, hl, (Tree.weighed_iff.mp hw).1⟩
  rw [hexec, hiff.mpr hpasses]

/-- **The check of a text** passes. -/
theorem exec_checkText (hf : f.Reads t v) : exec (checkText t) f = (.ok ⟨⟩, f) := by
  obtain ⟨x, hx, -, hcontent, -, hshape⟩ := hf.text
  refine exec_checkText_of hx hshape.weighed hshape.linked fun link hlink => ?_
  obtain ⟨text, hown, htext⟩ := hshape.homed link hlink
  obtain rfl : t = text := by simpa using htext
  have hne : v.spans ≠ [] := by
    rw [← hshape.spans, Ne, Tree.spans_eq_nil]
    rintro hr
    simp [hr] at hlink
  have htotal := hshape.total
  rw [hf.valid.covers hne, ← hf.valid.toNat_size, UInt64.toNat_inj, ← hcontent] at htotal
  exact ⟨hown, htotal⟩

theorem exec_verify (hf : f.Reads t v) : exec (verify t) f = (.ok ⟨⟩, f) := by
  rw [verify, exec_bind_ok (exec_get f)]
  split
  · exact exec_checkText hf
  · rfl

/-! ## The root of a text -/

/-- The reading once the text has its first node, if it has characters. -/
def rooted (v : Reading) : Reading :=
  if v.spans = [] ∧ 0 < v.size then covering v else v

theorem rooted_of_spans (h : v.spans ≠ []) : rooted v = v := if_neg fun hc => h hc.1

/-- Only the spans and the next identity are new. -/
theorem rooted_eq (v : Reading) : ∃ nextId spans, rooted v = { v with nextId, spans } := by
  unfold rooted
  split
  · exact ⟨_, _, rfl⟩
  · exact ⟨_, _, rfl⟩

theorem rooted_word (v : Reading) : (rooted v).word = v.word := by
  unfold rooted
  split <;> rfl

theorem rooted_settings (v : Reading) : (rooted v).settings = v.settings := by
  unfold rooted
  split <;> rfl

theorem rooted_withWord (v : Reading) (word : UInt32) :
    rooted { v with word } = { rooted v with word } := by
  by_cases h : v.spans = [] ∧ 0 < v.size
  · have hr : rooted v = covering v := if_pos h
    exact (if_pos h).trans (by rw [hr]; rfl)
  · have hr : rooted v = v := if_neg h
    exact (if_neg h).trans (by rw [hr])

/-- A text with characters has a root afterwards. -/
theorem spans_rooted (h : 0 < v.size) : (rooted v).spans ≠ [] := by
  unfold rooted
  split
  · simp [covering]
  · next hn => exact fun hs => hn ⟨hs, h⟩

theorem valid_rooted (hv : v.Valid) : (rooted v).Valid := by
  unfold rooted
  split
  · exact valid_covering hv
  · exact hv

/-- A text without characters has no tree. -/
theorem spans_of_size (hf : f.Reads t v) (h : v.size = 0) : v.spans = [] := by
  cases hs : v.spans with
  | nil => rfl
  | cons x rest =>
    have hpos := hf.shape.weighed.length_pos (s := x) (by rw [hf.shape.spans, hs]; simp)
    have hcover := hf.valid.covers (by simp [hs])
    rw [hs, covered_cons] at hcover
    omega

/-- The root of a text, made if there are characters to cover. -/
theorem exec_ensureRoot (hf : f.Reads t v) (hpos : 0 < v.size) :
    ∃ root f', exec (ensureRoot t) f = (.ok (some root), f') ∧ f'.Reads t (rooted v) ∧
      (f'.tree (.text t)).id? = some root := by
  obtain ⟨x, hx, -, hcontent, -, hshape⟩ := hf.text
  have hown : 0 < x.length := by
    rw [UInt64.lt_iff_toNat_lt, Text.length, hcontent, hf.valid.toNat_size]
    exact hpos
  by_cases hs : v.spans = []
  · obtain ⟨f', hcreate, hf'⟩ := does_createRoot hs hpos f hf
    refine ⟨v.nextId, f', ?_, by rwa [rooted, if_pos ⟨hs, hpos⟩], ?_⟩
    · rw [ensureRoot, exec_bind_ok (exec_text hx), if_pos (by simp [hshape.isNil.mpr hs, hown])]
      exact exec_bind_ok hcreate _
    · have hids : (f'.tree (.text t)).ids = [v.nextId] := hf'.ids
      cases htree : f'.tree (.text t) with
      | nil => simp [htree] at hids
      | node n l r =>
        have hmem : n.id ∈ (f'.tree (.text t)).ids := by simp [htree]
        rw [hids, List.mem_singleton] at hmem
        exact congrArg some hmem
  · have hnil : x.root.isNil = false := by simpa [hs] using hshape.isNil
    obtain ⟨root, hroot⟩ : ∃ root, x.root.id? = some root := by
      cases hr : x.root with
      | nil => simp [hr, Tree.isNil] at hnil
      | node n l r => exact ⟨n.id, rfl⟩
    refine ⟨root, f, ?_, by rwa [rooted_of_spans hs], by rw [Forest.tree_text hx, hroot]⟩
    rw [ensureRoot, exec_bind_ok (exec_text hx), if_neg (by simp [hnil]), exec_pure, hroot]

/-- A text without characters has no root. -/
theorem does_ensureRoot_empty (hzero : v.size = 0) : Does (ensureRoot t) t v (.ok none) v := by
  intro f hf
  obtain ⟨x, hx, -, hcontent, -, hshape⟩ := hf.text
  have hown : ¬ 0 < x.length := by
    rw [UInt64.lt_iff_toNat_lt, Text.length, hcontent, hf.valid.toNat_size, hzero]
    exact Nat.lt_irrefl 0
  have hnil := hshape.spans.trans (spans_of_size hf hzero)
  rw [Tree.spans_eq_nil] at hnil
  refine ⟨f, ?_, hf⟩
  rw [ensureRoot, exec_bind_ok (exec_text hx), if_neg (by simp [hown]), exec_pure, hnil]
  rfl

/-! ## Operations of a text -/

/-- The search for a position of a text, in a session. -/
theorem does_findInterval (hadm : v.Admits .write) (hsize : 0 < v.size) {p : Size}
    {pre post : List Span} {y : Span} (hy : (rooted v).spans = pre ++ y :: post)
    (hfinds : Finds (rooted v) p y post) :
    Does (findInterval t p) t v (.ok y.id) (rooted v) := by
  refine does_withSession hadm (rooted_settings v) (rooted_word v) fun w g hg => ?_
  obtain ⟨root, g', hroot, hg', hid⟩ := exec_ensureRoot hg hsize
  rw [rooted_withWord] at hg'
  obtain ⟨g'', hfind, hg''⟩ := exec_find_root hg' hid hy hfinds
  refine ⟨g'', ?_, hg''⟩
  rw [exec_bind_ok hroot]
  dsimp only
  rw [exec_bind_ok hfind, exec_bind_ok (exec_verify hg''), exec_pure]

/-- A position outside the text is refused; the text has its root then. -/
theorem does_findInterval_outside (hadm : v.Admits .write) (hsize : 0 < v.size) {p : Size}
    (hout : ¬ (v.start.toNat ≤ p.toNat ∧ p.toNat ≤ v.finish.toNat)) :
    Does (findInterval t p) t v (.error (findOutside p v.start v.finish)) (rooted v) := by
  refine does_withSession hadm (rooted_settings v) (rooted_word v) fun w g hg => ?_
  obtain ⟨root, g', hroot, hg', hid⟩ := exec_ensureRoot hg hsize
  rw [rooted_withWord] at hg'
  have hstart : (rooted v).start = v.start ∧ (rooted v).finish = v.finish := by
    obtain ⟨_, _, hr⟩ := rooted_eq v
    exact hr ▸ ⟨rfl, rfl⟩
  obtain ⟨g'', hfind, hg''⟩ := exec_find_root_outside hg' hid
    (p := p) (by rw [← hstart.1, ← hstart.2] at hout; exact hout)
  refine ⟨g'', ?_, hg''⟩
  rw [exec_bind_ok hroot]
  dsimp only
  rw [exec_bind_error hfind, ← hstart.1, ← hstart.2]
  rfl

/-- In a text without characters every position is refused. -/
theorem does_findInterval_empty (hadm : v.Admits .write) (hzero : v.size = 0) (p : Size) :
    Does (findInterval t p) t v
      (.error (.range ⟨"basic_text::find_interval", p, v.start, v.start⟩)) v := by
  refine does_withSession hadm rfl rfl fun w g hg => ?_
  obtain ⟨g', hroot, hg'⟩ := does_ensureRoot_empty (v := { v with word := w }) hzero g hg
  obtain ⟨x, hx, hstart, -⟩ := hg'.text
  refine ⟨g', ?_, hg'⟩
  rw [exec_bind_ok hroot]
  dsimp only
  rw [exec_bind_ok (exec_text hx), hstart]
  rfl

/-- **Balancing a text** makes another shape of its tree, with the
rotations that balancing the tree takes. -/
theorem exec_balanceIntervals (hf : f.Reads t v) (hadm : v.Admits .write) :
    ∃ u k f', (f.tree (.text t)).balance = (u, .ok k) ∧ Tree.SettledTo (f.tree (.text t)) u k ∧
      exec (balanceIntervals t) f = (.ok k, f') ∧ f'.Reads t v ∧ f'.tree (.text t) = u := by
  have hshape := hf.shape
  obtain ⟨u, k, hu, hsettled⟩ := Tree.balanceAll_ok hshape.weighed (hshape.light hf.valid)
  rw [← Tree.balance_eq_balanceAll (hshape.wellFormed hf.valid) (hshape.light hf.valid)] at hu
  suffices h : ∃ f', exec (balanceIntervals t) f = (.ok k, f') ∧ f'.Reads t v ∧
      f'.tree (.text t) = u by
    obtain ⟨f', hexec, hf', htree⟩ := h
    exact ⟨u, k, f', hu, hsettled, hexec, hf', htree⟩
  refine exec_withSession (P := (· = u)) hf hadm rfl rfl fun w g hg hgtree => ?_
  obtain ⟨x, hx, -⟩ := hg.text
  rw [← hgtree, Forest.tree_text hx] at hu hsettled
  rw [exec_bind_ok (exec_text hx)]
  split
  · next hnil =>
    cases hr : x.root with
    | node n l r => simp [hr, Tree.isNil] at hnil
    | nil =>
      rw [hr] at hu
      obtain ⟨rfl, rfl⟩ : Tree.nil = u ∧ 0 = k := by simpa [Tree.balance, Tree.isNil] using hu
      exact ⟨g, exec_pure _ _, hg, by rw [Forest.tree_text hx, hr]⟩
  · refine exec_profiled_tree (P := (· = u)) fun p => ?_
    have hplant := (hg.profile p).plant_shape (hg.shape.reshaped (by
      rw [Forest.tree_text hx]
      exact hsettled.reshaped))
    refine ⟨_, ?_, hplant.profile (p.add k), Forest.tree_text (Forest.texts_plant _ x hx)⟩
    rw [exec_bind_ok (exec_text (f := { g with profile := p }) hx), hu,
      exec_bind_ok (exec_conclude _ _ _), exec_bind_ok (exec_addRotations _ _),
      exec_bind_ok (exec_verify (hplant.profile _)), exec_pure]
    rfl

/-- Balancing keeps the reading of a text, admitted or not. -/
theorem reads_balanceIntervals (hf : f.Reads t v) :
    (exec (balanceIntervals t) f).2.Reads t v := by
  by_cases hadm : v.Admits .write
  · obtain ⟨u, k, f', -, -, hexec, hf', -⟩ := exec_balanceIntervals hf hadm
    rw [hexec]
    exact hf'
  · obtain ⟨o, hrefused⟩ := exec_withSession_refused hf hadm _
    rw [balanceIntervals, hrefused]
    exact hf

end Run

end SpanTree
