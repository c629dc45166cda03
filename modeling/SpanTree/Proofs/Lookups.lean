/-
SpanTree.Proofs.Lookups — lookups settle a tree.

A search in a text balances at the root before it goes down. What it goes
down from is poised, so that the next search rotates nothing: whether a
tree is poised is read off its skeleton, and searches, moves, walks and
traversals keep the skeleton. `Forest.Rests` is this state of a text, in
which only caches, flags and properties may change. It is kept by every
single call (`still_call`), and so by every sequence of calls
(`still_records`).

A traversal keeps it if its calls do (`Run.Spares`). So nothing is asked
of the calls but what is said of them. They may edit flags and
properties, look for positions in turn, and fail.

Which node a position belongs to is read off the skeleton, too
(`Text.Places`). A search goes by weights, so that it finds this node from
any caches. A walk goes by caches. It finds the node where the text rests
strictly, which is with exact caches. Strictness is kept like the rest:
moves leave exact caches alone (`SpanTree.Proofs.Timings`).
-/
import SpanTree.Proofs.Timings

namespace SpanTree

/-! ## What is read off the skeleton -/

namespace Tree

variable {t u : Tree}

@[simp] theorem child_skeleton (s : Side) (t : Tree) :
    t.skeleton.child s = (t.child s).skeleton := by
  cases t <;> cases s <;> rfl

@[simp] theorem length_skeleton (t : Tree) : t.skeleton.length = t.length := by
  cases t <;> simp [skeleton, length, Node.length, Node.bone]

/-- Whether the top is poised goes by the weights. -/
theorem poised_congr (h : u.skeleton = t.skeleton) : u.Poised ↔ t.Poised := by
  have hskeleton (t : Tree) : t.skeleton.Poised ↔ t.Poised := by simp [Poised, PoisedOn]
  rw [← hskeleton, h, hskeleton]

/-- A poised tree is left alone. -/
theorem BalancedTo.eq_of_poised {k : Nat} (h : t.BalancedTo u k) (hp : t.Poised) : u = t :=
  h.unchanged (h.still hp)

end Tree

namespace Text

variable {x : Text} {q : Size} {id id' : NodeId} {u : Tree}

/-- The node where a position has its place in a text. Offsets are words, so that the text may begin
so late that its positions wrap. -/
def Places (x : Text) (q : Size) (id : NodeId) : Prop :=
  ∃ pre y post, x.root.frame.spans = pre ++ y :: post ∧
    Locates 0 (q - x.beginOffset) pre y post ∧ y.id = id

/-- A position has one place. -/
theorem Places.unique (h : x.Places q id) (h' : x.Places q id') : id = id' := by
  obtain ⟨pre, y, post, hcut, hplace, rfl⟩ := h
  obtain ⟨pre', y', post', hcut', hplace', rfl⟩ := h'
  obtain ⟨-, rfl, -⟩ := locates_unique (hcut.symm.trans hcut') hplace hplace'
  rfl

/-- The place is found in any tree with the skeleton. -/
theorem places_of_cut {pre post : List Span} {y : Span} (hu : u.skeleton = x.root.skeleton)
    (hcut : u.spans = pre ++ y :: post) (h : Locates 0 (q - x.beginOffset) pre y post) :
    x.Places q y.id := by
  have hcovered (spans : List Span) :
      covered (spans.map fun x => ⟨x.id, x.length, 0, {}, {}⟩) = covered spans := by
    induction spans with
    | nil => rfl
    | cons x rest ih => rw [List.map_cons, covered_cons, covered_cons, ih]
  rw [Places, ← Tree.frame_congr hu, Tree.spans_frame, hcut, List.map_append, List.map_cons]
  refine ⟨_, _, _, rfl, ?_, rfl⟩
  rw [Locates, hcovered, List.map_eq_nil_iff]
  exact h

end Text

/-! ## Searches among spans -/

namespace Searched

variable {start q : Size} {refusal : Fault} {spans left left' : List Span}
  {r r' : Except Fault NodeId}

/-- Exact caches are left alone. -/
theorem left_of_laid (h : Searched start q refusal spans r left)
    (hlaid : laid start spans = spans) : left = spans := by
  cases r with
  | error e => exact (h.refused e rfl).2
  | ok id =>
    obtain ⟨pre, y, post, rfl, hplace⟩ := h.located id rfl
    obtain ⟨-, p, hp, rfl⟩ := h.found pre y post rfl hplace
    have hposition := position_laid hlaid
    have hbound := p.toNat_lt
    obtain rfl : p = y.position := UInt64.toNat_inj.mp (by omega)
    rfl

/-- What a search gives is settled by the spans and the position. -/
theorem result_unique (h : Searched start q refusal spans r left)
    (h' : Searched start q refusal spans r' left') : r = r' := by
  cases r with
  | ok id =>
    obtain ⟨pre, y, post, hcut, hplace⟩ := h.located id rfl
    rw [(h.found pre y post hcut hplace).1, (h'.found pre y post hcut hplace).1]
  | error e =>
    cases r' with
    | error e' => rw [(h.refused e rfl).1, (h'.refused e' rfl).1]
    | ok id => exact absurd (h.succeeds.mpr (h'.succeeds.mp ⟨id, rfl⟩)) (by simp)

/-- A search that succeeds gives the place of the position. -/
theorem places {x : Text} {u : Tree} {id : NodeId} (hu : u.skeleton = x.root.skeleton)
    (h : Searched x.beginOffset q refusal u.spans (.ok id) left) : x.Places q id := by
  obtain ⟨pre, y, post, hcut, hplace⟩ := h.located id rfl
  obtain ⟨hfound, -⟩ := h.found pre y post hcut hplace
  obtain rfl := Except.ok.inj hfound
  have hback : (q - x.beginOffset).toNat = q.toNat - x.beginOffset.toNat :=
    Size.toNat_sub_of_le hplace.bounds.1
  obtain ⟨hlo, hhi⟩ := hplace
  refine Text.places_of_cut hu hcut ?_
  rw [Locates, hback]
  exact ⟨by omega, hhi.imp (by omega) fun h => ⟨by omega, h.2⟩⟩

end Searched

/-! ## Texts that rest -/

namespace Forest

/-- A text stands as it did in another state: it has the first position and the characters, and its
tree differs in caches, flags and properties only. If it does so strictly, the caches are exact. -/
structure Rests (f : Forest) (strict : Prop) (t : TextId) (x : Text) : Prop where
  carried : ∃ y, f.Carries t y ∧ y.beginOffset = x.beginOffset ∧ y.content = x.content
  skeleton : (f.tree (.text t)).skeleton = x.root.skeleton
  timed : strict → (f.tree (.text t)).Timed x.beginOffset

variable {f g : Forest} {strict : Prop} {t : TextId} {x y : Text} {u : Tree} {id : NodeId}

theorem Rests.grows (hf : f.Rests strict t x) : f.Grows (.text t) := by
  obtain ⟨y, hy, -⟩ := hf.carried
  exact hy.grows

theorem Rests.ids (hf : f.Rests strict t x) : (f.tree (.text t)).ids = x.root.ids :=
  (Tree.twins_of_skeleton hf.skeleton).ids

/-- A cursor of a node of the text. -/
theorem Rests.cursor (hf : f.Rests strict t x) (hid : id ∈ x.root.ids) :
    ∃ c, f.locate? id = some ⟨.text t, c⟩ ∧ c.toTree = f.tree (.text t) ∧ c.node.id = id := by
  rw [← hf.ids] at hid
  exact exists_cursor hid fun q hq => hf.grows.apart q hq id hid

/-- A text in which searches can be made rests, as it is or as it was. -/
theorem Carries.rests (hf : f.Carries t y) (hbegin : y.beginOffset = x.beginOffset)
    (hcontent : y.content = x.content) (hskeleton : y.root.skeleton = x.root.skeleton)
    (htimed : strict → y.root.Timed x.beginOffset) : f.Rests strict t x := by
  have htree := tree_text hf.text
  exact ⟨⟨y, hf, hbegin, hcontent⟩, htree ▸ hskeleton, htree ▸ htimed⟩

/-- The tree is exchanged for one that differs in caches, flags and properties. -/
theorem Rests.plant (hf : f.Rests strict t x) (hu : u.skeleton = (f.tree (.text t)).skeleton)
    (htimed : strict → u.Timed x.beginOffset) (q : Profile) :
    { f.plant u (.text t) with profile := q }.Rests strict t x := by
  obtain ⟨y, hy, hbegin, hcontent⟩ := hf.carried
  have htwins := Tree.twins_of_skeleton (tree_text hy.text ▸ hu)
  exact (hy.twin htwins q).rests hbegin hcontent (hu.trans hf.skeleton) htimed

/-- The tracker of the text is changed. -/
theorem Carries.access (hf : f.Carries t y) (a : Tracker → Tracker) :
    (f.modifyText t fun x => { x with access := a x.access }).Carries t
      { y with access := a y.access } where
  text := by simp [modifyText, hf.text]
  small := hf.small
  covers := hf.covers
  grows := hf.grows.congr (f.tree_access t a) (Nat.le_refl _)

theorem Rests.access (hf : f.Rests strict t x) (a : Tracker → Tracker) :
    (f.modifyText t fun x => { x with access := a x.access }).Rests strict t x := by
  obtain ⟨y, hy, hbegin, hcontent⟩ := hf.carried
  have htree := f.tree_access t a
  refine ⟨⟨_, hy.access a, hbegin, hcontent⟩, ?_, ?_⟩
  · rw [htree]
    exact hf.skeleton
  · rw [htree]
    exact hf.timed

/-- A session that is opened changes the tracker, at most. -/
theorem access_of_opened {kind : SessionKind} (hx : f.texts[t]? = some y)
    (hopen : exec (Run.openSession t kind) f = (.ok ⟨⟩, g)) :
    ∃ a : Tracker → Tracker, g = f.modifyText t fun x => { x with access := a x.access } := by
  cases ht : f.settings.tracking with
  | false =>
    rw [Run.exec_openSession_untracked ht hx, Prod.mk.injEq] at hopen
    exact ⟨id, hopen.2.symm.trans (modifyText_self hx rfl).symm⟩
  | true =>
    rw [Run.exec_openSession_tracked ht hx] at hopen
    cases ha : y.access.openSession kind with
    | error o =>
      rw [ha] at hopen
      cases hopen
    | ok a =>
      rw [ha, Prod.mk.injEq] at hopen
      exact ⟨fun _ => a, hopen.2.symm⟩

/-- The text rests when a session is open. -/
theorem Rests.opened {kind : SessionKind} (hf : f.Rests strict t x)
    (hopen : exec (Run.openSession t kind) f = (.ok ⟨⟩, g)) : g.Rests strict t x := by
  obtain ⟨y, hy, -⟩ := hf.carried
  obtain ⟨a, rfl⟩ := access_of_opened hy.text hopen
  exact hf.access a

theorem tree_closed (t : TextId) (kind : SessionKind) (f : Forest) (p : Place) :
    (exec (Run.closeSession t kind) f).2.tree p = f.tree p := by
  rw [Run.exec_closeSession_eq]
  split
  · exact f.tree_access t (·.close kind) p
  · rfl

/-- So it does when the session is closed. -/
theorem Rests.closed (hf : f.Rests strict t x) (kind : SessionKind) :
    (exec (Run.closeSession t kind) f).2.Rests strict t x := by
  rw [Run.exec_closeSession_eq]
  split
  · exact hf.access (·.close kind)
  · exact hf

/-- The text bears the frame of its tree. -/
theorem Rests.bears (hf : f.Rests strict t x) : f.Bears (.text t) x.root.frame where
  apart q hq id hid := by
    rw [Tree.ids_frame, ← hf.ids] at hid
    exact hf.grows.apart q hq id hid
  frame := Tree.frame_congr hf.skeleton

end Forest

namespace Run

variable {σ : Type} {f : Forest} {strict : Prop} {t : TextId} {x : Text} {id : NodeId}

/-! ## Searches and balancing -/

/-- No session is open on a text, or one for writing is refused. -/
theorem idle_or_refused {α : Type} (hx : f.texts[t]? = some x) (body : Run α) :
    (f.settings.tracking = true → x.access.word = 0) ∨
      ∃ o, exec (withSession t .write body) f = (.error (.overlap o), f) := by
  by_cases hidle : f.settings.tracking = true → x.access.word = 0
  · exact .inl hidle
  · simp only [not_forall] at hidle
    obtain ⟨ht, hword⟩ := hidle
    have hbusy : f.Busy t := ⟨_, by rw [Forest.word?, hx]; rfl, hword⟩
    obtain ⟨o, hopen⟩ := exec_openSession_busy ht hbusy
    exact .inr ⟨o, exec_withSession_error hopen⟩

/-- A search in a text that rests, once its tree is poised, lets it rest and gives the place of the
position. -/
theorem rests_findInterval (hp : x.root.Poised) (hnil : x.root.isNil = false)
    (hf : f.Rests strict t x) (q : Size) :
    ∃ r g, exec (findInterval t q) f = (r, g) ∧ g.Rests strict t x ∧
      ∀ id, r = .ok id → x.Places q id := by
  obtain ⟨y, hy, hbegin, hcontent⟩ := hf.carried
  have htree := Forest.tree_text hy.text
  have hskel : y.root.skeleton = x.root.skeleton := htree ▸ hf.skeleton
  have hynil : y.root.isNil = false := (Tree.twins_of_skeleton hskel).isNil.trans hnil
  rcases idle_or_refused hy.text _ with hidle | ⟨o, hrefused⟩
  · obtain ⟨r, u, a, k, hexec, -, hcarries, hsought, hsearched⟩ :=
      exec_findInterval_carries hy hidle q
    rw [y.spansFrom_of_root hynil, hbegin] at hsearched
    -- what balancing at the root makes of the tree is the tree
    have hu : u.skeleton = x.root.skeleton := by
      obtain ⟨w, hw, ⟨-, rfl⟩ | ⟨-, k, hto⟩⟩ := hsought hynil
      · exact hw.trans hskel
      · rw [hw, hto.eq_of_poised ((Tree.poised_congr hskel).mpr hp), hskel]
    refine ⟨r, _, hexec, hcarries.noted.rests hbegin hcontent hu fun hstrict => ?_, ?_⟩
    · have htimed := hf.timed hstrict
      rw [htree] at htimed
      change laid x.beginOffset u.spans = u.spans
      rw [hsearched.left_of_laid htimed, htimed]
    · rintro id rfl
      exact hsearched.places hskel
  · exact ⟨_, f, hrefused, hf, by simp⟩

/-- So does balancing at the root, and it gives the root. -/
theorem rests_balancePossibleRoot (hp : x.root.Poised) (hf : f.Rests strict t x)
    (hid : x.root.id? = some id) :
    ∃ g, exec (balancePossibleRoot id) f = (.ok id, g) ∧ g.Rests strict t x := by
  have htop : (f.tree (.text t)).id? = some id := by
    rw [← Tree.id?_frame, Tree.frame_congr hf.skeleton, Tree.id?_frame, hid]
  obtain ⟨u, top, k, q, hexec, hto, hu⟩ := exec_balancePossibleRoot_text hf.grows htop
  obtain rfl := hto.eq_of_poised ((Tree.poised_congr hf.skeleton).mpr hp)
  obtain rfl := Option.some.inj (htop.symm.trans hu)
  exact ⟨_, hexec, hf.plant rfl hf.timed q⟩

/-! ## Moves and walks -/

/-- A move to another node lets the text rest. Where the caches are exact it changes nothing, if it
leaves exact caches alone. -/
theorem rests_moveTo (hf : f.Rests strict t x) (hid : id ∈ x.root.ids)
    {move : Cursor → Option Cursor}
    (hmove : ∀ c d, move c = some d → d.toTree.skeleton = c.toTree.skeleton)
    (htimed : ∀ c d, c.toTree.Timed x.beginOffset → c.toTree.Linked → move c = some d →
      d.toTree = c.toTree) :
    (exec (moveTo move id) f).2.Rests strict t x ∧
      (strict → (exec (moveTo move id) f).2 = f) := by
  obtain ⟨c, hc, htree, -⟩ := hf.cursor hid
  rw [Forest.exec_moveTo_at hc]
  cases hd : move c with
  | none => exact ⟨hf, fun _ => rfl⟩
  | some d =>
    have hsame (hstrict : strict) : d.toTree = f.tree (.text t) := by
      have h := hf.timed hstrict
      rw [← htree] at h
      rw [htimed c d h (htree ▸ hf.grows.wellFormed.linked) hd, htree]
    refine ⟨hf.plant (htree ▸ hmove c d hd) (fun hstrict => ?_) f.profile, fun hstrict => ?_⟩
    · rw [hsame hstrict]
      exact hf.timed hstrict
    · exact (congrArg (f.plant · (.text t)) (hsame hstrict)).trans (f.plant_self t)

/-- A walk to a position plants the tree that it leaves, whether or not it arrives. -/
theorem exec_update_at {p : Place} {c : Cursor} (hc : f.locate? id = some ⟨p, c⟩) (q : Size) :
    exec (update id q) f =
      ((c.update q).2.map fun _ => (c.update q).1.node.id, f.plant (c.update q).1.toTree p) := by
  rw [update, exec_bind_ok (exec_locate hc)]
  generalize c.update q = e
  obtain ⟨e, _ | _⟩ := e <;> rfl

/-- A walk to a position lets the text rest. From exact caches it changes nothing, and gives the
place of the position. -/
theorem rests_update (hf : f.Rests strict t x) (hid : id ∈ x.root.ids) (q : Size) :
    ∃ r g, exec (update id q) f = (r, g) ∧ g.Rests strict t x ∧ (strict → g = f) ∧
      ∀ id', strict → r = .ok id' → x.Places q id' := by
  obtain ⟨c, hc, htree, -⟩ := hf.cursor hid
  have hskel : (c.update q).1.toTree.skeleton = c.toTree.skeleton :=
    Cursor.skeleton_updateLoop q c.toTree.size c
  have hl : c.toTree.Linked := htree ▸ hf.grows.wellFormed.linked
  have hsame (hstrict : strict) : (c.update q).1.toTree = c.toTree :=
    Cursor.timed_updateLoop (htree ▸ hf.timed hstrict) hl c.toTree.size
  have hrests : (f.plant (c.update q).1.toTree (.text t)).Rests strict t x :=
    hf.plant (htree ▸ hskel) (fun hstrict => by
      rw [hsame hstrict, htree]
      exact hf.timed hstrict) f.profile
  refine ⟨_, _, exec_update_at hc q, hrests, fun hstrict => ?_, ?_⟩
  · rw [hsame hstrict, htree, Forest.plant_self]
  · intro id' hstrict hr
    have hd := hsame hstrict
    have htimed := hf.timed hstrict
    have hlight := hf.grows.light
    have hw := hf.grows.wellFormed.weighed
    cases hok : (c.update q).2 with
    | error e =>
      rw [hok] at hr
      cases hr
    | ok _ =>
      have harrived : (c.update q).1.moveTowards q = .arrived :=
        Cursor.arrived_of_updateLoop c.toTree.size hok
      rw [hok] at hr
      obtain rfl := Except.ok.inj hr
      generalize (c.update q).1 = d at *
      rw [← htree, ← hd] at htimed hlight hw
      exact Text.places_of_cut (hskel.trans (htree ▸ hf.skeleton)) d.spans_toTree
        (Cursor.locates_of_arrived htimed hw hlight harrived)

/-! ## Traversals -/

/-- A call for the nodes of a text that lets the text rest, whether or not it fails. -/
def Spares (strict : Prop) (t : TextId) (x : Text) (visit : NodeId → Client σ Unit) : Prop :=
  ∀ id ∈ x.root.ids, ∀ s f, f.Rests strict t x →
    (exec (visit id) (s, f)).2.2.Rests strict t x

variable {visit visit' : NodeId → Client σ Unit}

/-- A call that leaves the forest alone may change the state of the caller, and fail. -/
theorem spares_of_same (h : ∀ id s f, (exec (visit id) (s, f)).2.2 = f) :
    Spares strict t x visit := by
  intro id _ s f hf
  rw [h]
  exact hf

/-- One call after another. -/
theorem Spares.seq (h : Spares strict t x visit) (h' : Spares strict t x visit') :
    Spares strict t x (fun id => do visit id; visit' id) := by
  intro id hid s f hf
  have hfirst := h id hid s f hf
  rw [exec_bind]
  generalize exec (visit id) (s, f) = result at hfirst ⊢
  obtain ⟨r, s', g⟩ := result
  cases r with
  | error e => exact hfirst
  | ok _ => exact h' id hid s' g hfirst

/-- A node is changed where it stands. -/
theorem exec_modifyNode_rests (hf : f.Rests strict t x) (hid : id ∈ x.root.ids)
    {k : Cursor → Cursor}
    (hk : ∀ c : Cursor, (k c).toTree.skeleton = c.toTree.skeleton)
    (htimed : ∀ c : Cursor, strict → c.toTree = f.tree (.text t) → c.node.id = id →
      (k c).toTree.Timed x.beginOffset) :
    ∃ g, exec (modifyNode id k) f = (.ok ⟨⟩, g) ∧ g.Rests strict t x := by
  obtain ⟨c, hc, htree, hnode⟩ := hf.cursor hid
  exact ⟨_, exec_modifyNode hc k,
    hf.plant (htree ▸ hk c) (fun hstrict => htimed c hstrict htree hnode) f.profile⟩

/-- An edit of flags and properties lets the text rest. -/
theorem rests_modifyData (hf : f.Rests strict t x) (hid : id ∈ x.root.ids) {e : Payload → Payload}
    (he : ∀ data, (e data).total = data.total ∧ (e data).position = data.position) :
    (exec (modifyData id e) f).2.Rests strict t x := by
  have hedit (c : Cursor) : c.toTree.Stamped [] (c.mapData e).toTree :=
    Tree.stamped_mapData (he _).1 (he _).2
  obtain ⟨g, hg, hrests⟩ := exec_modifyNode_rests hf hid (fun c => (hedit c).skeleton)
    fun c hstrict htree _ => (hedit c).timed (htree ▸ hf.timed hstrict)
  rw [modifyData, hg]
  exact hrests

theorem spares_modifyData {e : NodeId → Payload → Payload}
    (he : ∀ id data, (e id data).total = data.total ∧ (e id data).position = data.position) :
    Spares strict t x fun id => (liftM (modifyData id (e id)) : Client σ Unit) :=
  fun id hid s f hf => by
    rw [exec_liftM]
    exact rests_modifyData hf hid (he id)

/-- The cache that a traversal sets is the one that the node has, where caches are exact. -/
theorem withPosition_start (hf : f.Rests strict t x) (hstrict : strict) {z : NodeId × Size}
    (hz : z ∈ starts x.beginOffset x.root.spans) {c : Cursor} (htree : c.toTree = f.tree (.text t))
    (hnode : c.node.id = z.1) : c.withPosition z.2 = c := by
  have hstarts := Tree.timed_iff.mp (hf.timed hstrict)
  rw [← starts_frame, Tree.frame_congr hf.skeleton, starts_frame] at hstarts
  rw [hstarts] at hz
  obtain ⟨y, hy, rfl⟩ := List.mem_map.mp hz
  have hspan : c.span ∈ (f.tree (.text t)).spans := by simp [← htree, c.spans_toTree]
  obtain rfl : y = c.span :=
    List.inj_on_of_nodup_map hf.grows.wellFormed.distinct hy hspan hnode.symm
  rw [Cursor.span_position, Cursor.withPosition_self]

/-- A visit of a traversal is made at a node of the text. -/
theorem mem_ids_of_start {base : Size} {z : NodeId × Size} (hz : z ∈ starts base x.root.spans) :
    z.1 ∈ x.root.ids := by
  rw [Tree.ids, ← ids_starts base]
  exact List.mem_map_of_mem hz

/-- Where caches are exact, the cache that a traversal sets changes nothing. -/
theorem exec_setStart_timed (hf : f.Rests True t x) {z : NodeId × Size}
    (hz : z ∈ starts x.beginOffset x.root.spans) :
    exec (modifyNode z.1 (·.withPosition z.2)) f = (.ok ⟨⟩, f) := by
  obtain ⟨c, hc, htree, hnode⟩ := hf.cursor (mem_ids_of_start hz)
  rw [exec_modifyNode hc, withPosition_start hf trivial hz htree hnode, htree, f.plant_self]

/-- A visit of a traversal sets a cache before the call. -/
theorem rests_visitAt (hvisit : Spares strict t x visit) (hf : f.Rests strict t x)
    {z : NodeId × Size} (hz : z ∈ starts x.beginOffset x.root.spans) (s : σ) :
    (exec (visitAt visit z) (s, f)).2.2.Rests strict t x := by
  have hid := mem_ids_of_start hz
  obtain ⟨g, hset, hg⟩ := exec_modifyNode_rests (k := (·.withPosition z.2)) hf hid
    (fun c => c.skeleton_withPosition z.2) fun c hstrict htree hnode => by
      rw [withPosition_start hf hstrict hz htree hnode, htree]
      exact hf.timed hstrict
  rw [visitAt, exec_liftM_bind_ok hset]
  exact hvisit z.1 hid s g hg

/-- What a traversal keeps of a text that rests from one visit to the next. -/
theorem kept_at_rest {P : Forest → Prop} {g : Forest}
    (hopen : exec (openSession t .write) f = (.ok ⟨⟩, g)) (hrests : ∀ h, P h → h.Rests strict t x)
    (hvisit : ∀ z ∈ starts x.beginOffset x.root.spans, ∀ s h, P h →
      P (exec (visitAt visit z) (s, h)).2.2) (hg : P g) (s : σ) :
    ∃ h, P h ∧
      (exec (traverseIntervals t visit) (s, f)).2.2 = (exec (closeSession t .write) h).2 := by
  have hrest := hrests g hg
  obtain ⟨y, hy, hbegin, -⟩ := hrest.carried
  have hframe : y.root.frame = x.root.frame := by
    rw [← Forest.tree_text hy.text]
    exact hrest.bears.frame
  have hd : x.root.frame.ids.Nodup := by
    rw [Tree.ids_frame, ← hrest.ids]
    exact hrest.grows.wellFormed.distinct
  refine kept_by_traversal hopen hy.text hframe (fun h hh => (hrests h hh).bears) hd ?_ hg s
  rwa [starts_frame, hbegin]

/-- A traversal whose calls let the text rest does so, too. -/
theorem rests_traverseIntervals (hvisit : Spares strict t x visit) (hf : f.Rests strict t x)
    (s : σ) : (exec (traverseIntervals t visit) (s, f)).2.2.Rests strict t x := by
  rcases session_cases t .write f with ⟨e, hopen, -⟩ | ⟨g, hopen, -, -⟩
  · have hrefused : exec (traverseIntervals t visit) (s, f) = (.error e, (s, f)) :=
      exec_liftM_bind_error hopen
    rwa [hrefused]
  · obtain ⟨h, hh, hclosed⟩ := kept_at_rest hopen (fun _ hh => hh)
      (fun _ hz s _ hh => rests_visitAt hvisit hh hz s) (hf.opened hopen) s
    rw [hclosed]
    exact hh.closed .write

end Run

/-! ## Sequences of calls -/

/-- A call that looks for something in a text, or moves between its nodes. -/
inductive Lookup (σ : Type) where
  | find (position : Size)
  | balance (id : NodeId)
  | next (id : NodeId)
  | prev (id : NodeId)
  | update (id : NodeId) (position : Size)
  | traverse (visit : NodeId → Client σ Unit)

namespace Lookup

variable {σ : Type} {f : Forest} {strict : Prop} {t : TextId} {x : Text}

/-- The call on a text, with the node that it gives. -/
def run (t : TextId) : Lookup σ → Client σ (Option NodeId)
  | find position => do pure (some (← liftM (Run.findInterval t position)))
  | balance id => do pure (some (← liftM (Run.balancePossibleRoot id)))
  | next id => liftM (Run.next id)
  | prev id => liftM (Run.prev id)
  | update id position => do pure (some (← liftM (Run.update id position)))
  | traverse visit => do
    Run.traverseIntervals t visit
    pure none

/-- The position that the call looks for. -/
def position? : Lookup σ → Option Size
  | find position => some position
  | update _ position => some position
  | _ => none

/-- The call is made at nodes of the text, and balances at its root only. What is called for the
nodes of a traversal lets the text rest. -/
def Within (strict : Prop) (t : TextId) (x : Text) : Lookup σ → Prop
  | find _ => True
  | balance id => x.root.id? = some id
  | next id => id ∈ x.root.ids
  | prev id => id ∈ x.root.ids
  | update id _ => id ∈ x.root.ids
  | traverse visit => Run.Spares strict t x visit

/-- A call with the forests before and after it, and what it gave. -/
structure Record (σ : Type) where
  call : Lookup σ
  before : Forest
  result : Except Fault (Option NodeId)
  after : Forest

/-- The calls of a sequence, which goes on after failures. -/
def records (t : TextId) : List (Lookup σ) → σ → Forest → List (Record σ)
  | [], _, _ => []
  | call :: rest, s, f =>
    let (result, s', g) := exec (call.run t) (s, f)
    ⟨call, f, result, g⟩ :: records t rest s' g

/-- What holds of a call on a settled text. The text rests before and after it, with the same root,
links and weights, and balancing would not rotate. Balancing at the root gives the root. If a
position was looked for, and a node was found, it is the place of the position; a walk has to start
from exact caches for this. -/
structure Record.Still (e : Record σ) (strict : Prop) (t : TextId) (x : Text) : Prop where
  before : e.before.Rests strict t x
  after : e.after.Rests strict t x
  poised : (e.before.tree (.text t)).balanceSelf = (e.before.tree (.text t), .ok 0)
  root : ∀ id, e.call = .balance id → e.result = .ok (some id)
  place : ∀ q id, e.call.position? = some q → strict ∨ e.call = .find q →
    e.result = .ok (some id) → x.Places q id

theorem exec_some (op : Run NodeId) (s : σ) (f : Forest) :
    exec (do pure (some (← liftM op)) : Client σ (Option NodeId)) (s, f) =
      ((exec op f).1.map some, s, (exec op f).2) := by
  rw [exec_bind_pure, exec_liftM]

theorem eq_ok_of_map_some {r : Except Fault NodeId} {id : NodeId}
    (h : r.map some = .ok (some id)) : r = .ok id := by
  cases r <;> simp_all [Except.map]

/-- One call on a settled text. -/
theorem still_call (hp : x.root.Poised) (hnil : x.root.isNil = false)
    (hf : f.Rests strict t x) (call : Lookup σ) (hcall : call.Within strict t x) (s : σ) :
    Record.Still ⟨call, f, (exec (call.run t) (s, f)).1, (exec (call.run t) (s, f)).2.2⟩
      strict t x := by
  have hpoised : (f.tree (.text t)).balanceSelf = (f.tree (.text t), .ok 0) := by
    have hfnil := (Tree.twins_of_skeleton hf.skeleton).isNil.trans hnil
    have hfp := (Tree.poised_congr hf.skeleton).mpr hp
    obtain ⟨u, n, hu, hto⟩ :=
      Tree.balanceSelf_ok hf.grows.wellFormed.weighed hf.grows.light hfnil
    rw [hu, hto.eq_of_poised hfp, hto.still hfp]
  cases call with
  | find position =>
    obtain ⟨r, g, hexec, hg, hplace⟩ := Run.rests_findInterval hp hnil hf position
    rw [run, exec_some, hexec]
    refine ⟨hf, hg, hpoised, nofun, ?_⟩
    rintro q id ⟨⟩ - hr
    exact hplace id (eq_ok_of_map_some hr)
  | balance id =>
    obtain ⟨g, hexec, hg⟩ := Run.rests_balancePossibleRoot hp hf hcall
    rw [run, exec_some, hexec]
    refine ⟨hf, hg, hpoised, ?_, nofun⟩
    rintro id' ⟨⟩
    rfl
  | next id =>
    obtain ⟨hg, -⟩ := Run.rests_moveTo hf hcall (fun _ _ => Cursor.skeleton_of_next)
      fun _ _ => Cursor.timed_next
    exact ⟨hf, hg, hpoised, nofun, nofun⟩
  | prev id =>
    obtain ⟨hg, -⟩ := Run.rests_moveTo hf hcall (fun _ _ => Cursor.skeleton_of_prev)
      fun _ _ => Cursor.timed_prev
    exact ⟨hf, hg, hpoised, nofun, nofun⟩
  | update id position =>
    obtain ⟨r, g, hexec, hg, -, hplace⟩ := Run.rests_update hf hcall position
    rw [run, exec_some, hexec]
    refine ⟨hf, hg, hpoised, nofun, ?_⟩
    rintro q id' ⟨⟩ hstrict hr
    exact hplace id' (hstrict.resolve_right nofun) (eq_ok_of_map_some hr)
  | traverse visit =>
    have hg := Run.rests_traverseIntervals hcall hf s
    rw [run, exec_bind_pure]
    exact ⟨hf, hg, hpoised, nofun, nofun⟩

/-- A call may be made for every node of a traversal. -/
theorem spares (hp : x.root.Poised) (hnil : x.root.isNil = false) (call : NodeId → Lookup σ)
    (hcall : ∀ id ∈ x.root.ids, (call id).Within strict t x) :
    Run.Spares strict t x (fun id => do let _ ← (call id).run t) := by
  intro id hid s f hf
  rw [exec_bind_pure]
  exact (still_call hp hnil hf (call id) (hcall id hid) s).after

/-- A sequence of calls on a settled text. -/
theorem still_records (hp : x.root.Poised) (hnil : x.root.isNil = false)
    (calls : List (Lookup σ)) (hcalls : ∀ call ∈ calls, call.Within strict t x)
    (hf : f.Rests strict t x) (s : σ) : ∀ e ∈ records t calls s f, e.Still strict t x := by
  induction calls generalizing f s with
  | nil => simp [records]
  | cons call rest ih =>
    have hfirst := still_call hp hnil hf call (hcalls call List.mem_cons_self) s
    have hrest := ih (fun c hc => hcalls c (List.mem_cons_of_mem _ hc)) hfirst.after
      (exec (call.run t) (s, f)).2.1
    intro e he
    rcases List.mem_cons.mp he with rfl | he
    · exact hfirst
    · exact hrest e he

end Lookup

/-! ## The first search -/

/-- A search in a text whose caches are exact leaves what balancing makes of the tree, and notes. -/
theorem Run.exec_findInterval_timed {f : Forest} {t : TextId} {x : Text} (hf : f.Carries t x)
    (hidle : f.settings.tracking = true → x.access.word = 0) (hnil : x.root.isNil = false)
    (htimed : x.root.Timed x.beginOffset) (q : Size) :
    ∃ r u a k, exec (findInterval t q) f = (r, (f.plant u (.text t)).noted t a k) ∧
      a.word = x.access.word ∧ (f.plant u (.text t)).Carries t { x with root := u } ∧
      (q < x.beginOffset ∧ u = x.root ∨ x.beginOffset ≤ q ∧ ∃ n, x.root.BalancedTo u n) ∧
      u.spans = x.root.spans ∧
      Searched x.beginOffset q (x.refusal q) x.root.spans r x.root.spans := by
  obtain ⟨r, u, a, k, hexec, hword, hcarries, hsought, hsearched⟩ :=
    exec_findInterval_carries hf hidle q
  rw [x.nextFrom_of_root hnil] at hexec hcarries
  rw [x.spansFrom_of_root hnil] at hsearched
  have hspans := hsearched.left_of_laid htimed
  refine ⟨r, u, a, k, hexec, hword, hcarries, ?_, hspans, hspans ▸ hsearched⟩
  obtain ⟨w, hw, ⟨hlt, rfl⟩ | ⟨hle, n, hto⟩⟩ := hsought hnil
  · exact .inl ⟨hlt, Tree.eq_of_skeleton hw hspans⟩
  · obtain rfl := Tree.eq_of_skeleton hw (hspans.trans hto.reshaped.spans.symm)
    exact .inr ⟨hle, n, hto⟩

namespace Lookup

variable {f : Forest} {t : TextId} {x : Text} {p : Size}

/-- **Lookups settle a text** whose caches are exact. A search for a position that is not before the
text leaves what balancing makes of the tree, whether or not it finds the position. From then on
no call of any sequence rotates anything, and nodes that are found for one position are the same.
In particular the same search gives the same once more, and changes nothing but notes. -/
theorem lookups_settle (hf : f.Carries t x)
    (hidle : f.settings.tracking = true → x.access.word = 0) (hnil : x.root.isNil = false)
    (htimed : x.root.Timed x.beginOffset) (hle : x.beginOffset ≤ p) :
    ∃ r u n a k, exec (Run.findInterval t p) f = (r, (f.plant u (.text t)).noted t a k) ∧
      x.root.BalancedTo u n ∧
      let y : Text := { x with root := u, access := a }
      let g := (f.plant u (.text t)).noted t a k
      (∃ a' k', exec (Run.findInterval t p) g = (r, g.noted t a' k')) ∧
        (∀ strict, g.Rests strict t y) ∧ (∀ id, r = .ok id → y.Places p id) ∧
        (∀ q id id', y.Places q id → y.Places q id' → id = id') ∧
        ∀ (σ : Type) (strict : Prop) (h : Forest) (calls : List (Lookup σ)) (s : σ),
          h.Rests strict t y → (∀ call ∈ calls, call.Within strict t y) →
          ∀ e ∈ records t calls s h, e.Still strict t y := by
  obtain ⟨r, u, a, k, hexec, hword, hcarries, hu, hspans, hsearched⟩ :=
    Run.exec_findInterval_timed hf hidle hnil htimed p
  obtain ⟨n, hto⟩ : ∃ n, x.root.BalancedTo u n := by
    rcases hu with ⟨hlt, -⟩ | ⟨-, hto⟩
    · exact absurd hlt (UInt64.not_lt.mpr hle)
    · exact hto
  have hunil : u.isNil = false := (Tree.isNil_of_size_eq hto.reshaped.size).trans hnil
  have hutimed : u.Timed x.beginOffset := by rwa [Tree.Timed, hspans]
  rw [← hspans] at hsearched
  have hy := hcarries.noted (a := a) (q := k)
  refine ⟨r, u, n, a, k, hexec, hto, ?_, fun strict => hy.rests rfl rfl rfl fun _ => hutimed, ?_,
    fun q id id' => Text.Places.unique, fun σ strict h calls s hh hcalls =>
      still_records hto.poised hunil calls hcalls hh s⟩
  · obtain ⟨r', u', a', k', hexec', -, -, hu', -, hsearched'⟩ :=
      Run.exec_findInterval_timed hy (fun ht => hword.trans (hidle ht)) hunil hutimed p
    obtain rfl : u' = u := by
      rcases hu' with ⟨-, hsame⟩ | ⟨-, n', hto'⟩
      · exact hsame
      · exact hto'.eq_of_poised hto.poised
    obtain rfl : r' = r := hsearched'.result_unique hsearched
    have hplant := Forest.plant_self ((f.plant u' (.text t)).noted t a k) t
    rw [Forest.tree_text hy.text] at hplant
    exact ⟨a', k', hexec'.trans (by rw [hplant])⟩
  · rintro id rfl
    exact hsearched.places (x := { x with root := u, access := a }) rfl

end Lookup

namespace Forest

/-- Three characters with a node for each of them, all on the right. The caches are exact. -/
def slope : Text where
  name := "t"
  beginOffset := 5
  content := "abc"
  root := .node { id := 0, link := .owner 0, data := { total := 3, position := 5 } } .nil
    (.node { id := 1, link := .node 0, data := { total := 2, position := 6 } } .nil
      (.node { id := 2, link := .node 1, data := { total := 1, position := 7 } } .nil .nil))

/-- The text alone. -/
def stretched : Forest where
  texts := [slope]
  nextId := 3

theorem grows_stretched : stretched.Grows (.text 0) := by
  refine grows_of_single rfl rfl ⟨?_, ?_, by decide⟩ (by rintro link ⟨⟩; rfl) (by decide)
    (by decide)
  · simp only [slope, Tree.Weighed]
    decide
  · simp only [slope, Tree.Linked]
    decide

end Forest

namespace Lookup

/-- A call that marks a node, fails at one of them, and looks for a position at the others. -/
def glance (id : NodeId) : Client Nat Unit := do
  Run.unveil 2 id
  let _ ← (find 6 : Lookup Nat).run 0

theorem spares_glance {strict : Prop} {x : Text} (hp : x.root.Poised)
    (hnil : x.root.isNil = false) : Run.Spares strict 0 x glance := by
  have hunveil : Run.Spares strict 0 x (Run.unveil 2) :=
    (Run.spares_modifyData (e := fun _ data =>
      { data with flags := { data.flags with visible := true } }) fun _ _ => ⟨rfl, rfl⟩).seq
      (Run.spares_of_same fun _ _ _ => rfl)
  exact hunveil.seq (spares hp hnil (fun _ => find 6) fun _ _ => trivial)

/-- The first search rotates. After it no call does, not even in the course of a traversal that
marks nodes and fails. The walk and the search for one position come to one node. -/
theorem lookups_settle_stretched :
    Forest.stretched.Carries 0 Forest.slope ∧ ¬ Forest.slope.root.Poised ∧
      ∃ r g u a root, exec (Run.findInterval 0 6) Forest.stretched = (r, g) ∧ u.Poised ∧
        u.id? = some root ∧
        ∀ e ∈ records 0 [.find 9, .traverse glance, .update 2 6, .next 0, .balance root, .find 6]
          0 g, e.Still True 0 { Forest.slope with root := u, access := a } := by
  have hcarries : Forest.stretched.Carries 0 Forest.slope :=
    ⟨rfl, by decide, fun _ => rfl, Forest.grows_stretched⟩
  obtain ⟨r, u, n, a, k, hexec, hto, -, hrests, -, -, hstill⟩ :=
    lookups_settle (p := 6) hcarries (fun _ => rfl) rfl rfl (by decide)
  have hids : u.ids = [0, 1, 2] := congrArg (List.map Span.id) hto.reshaped.spans
  have hnil : u.isNil = false := Tree.isNil_of_size_eq hto.reshaped.size
  obtain ⟨root, hroot⟩ := Tree.exists_id hnil
  refine ⟨hcarries, fun hp => ?_, r, _, u, a, root, hexec, hto.poised, hroot,
    hstill Nat True _ _ 0 (hrests True) ?_⟩
  · have hright := hp .right
    revert hright
    simp only [Tree.PoisedOn]
    decide
  · simp only [List.mem_cons, List.not_mem_nil, or_false]
    rintro call (rfl | rfl | rfl | rfl | rfl | rfl)
    · trivial
    · exact spares_glance hto.poised hnil
    · change 2 ∈ u.ids
      rw [hids]
      decide
    · change 0 ∈ u.ids
      rw [hids]
      decide
    · exact hroot
    · trivial

end Lookup

end SpanTree
