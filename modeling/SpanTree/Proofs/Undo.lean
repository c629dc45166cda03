/-
SpanTree.Proofs.Undo — a split can be taken back.

Between a split and the merge that takes it back the text may be searched,
balanced and traversed, and its nodes be moved between. `Calm` is one such
step. It may put the piece anywhere in the tree, but the list of spans
keeps what it says: the same spans, if the visits of traversals only move
(`spans_kept`), and otherwise the same nodes with the same lengths
(`sizes_kept`). In the list the piece is still beside the node that it was
cut from, so that the merge hands it back to that node (`exec_undo`), and
the lengths and the caches add up to those before the split.

A visit that searches another text only moves, as far as the text is
concerned (`visitsBy_findInterval`).

Caches are compared as words, so that the text may begin so late that its
positions wrap. What is asked of them is that they are exact
(`Tree.Timed`); a split, a merge and every calm step keep this.
-/
import SpanTree.Proofs.Lookups

namespace SpanTree

open Relation (ReflTransGen)

/-! ## Calm steps -/

/-- One step that searches, balances or traverses a text or moves between
its nodes, and the forest it leaves. It may fail. The visits of a
traversal are made of steps of a given kind. -/
inductive Calm (Kind : Forest → Forest → Prop) (t : TextId) (f : Forest) : Forest → Prop
  | moving {g : Forest} (h : Moving t f g) : Calm Kind t f g
  | findInterval (position : Size) : Calm Kind t f (exec (Run.findInterval t position) f).2
  | balanceIntervals : Calm Kind t f (exec (Run.balanceIntervals t) f).2
  | traverseIntervals {σ : Type} {visit : NodeId → Client σ Unit}
    (visits : VisitsBy Kind t f visit) (s : σ) :
    Calm Kind t f (exec (Run.traverseIntervals t visit) (s, f)).2.2

/-- A node and its length. -/
def Span.size (x : Span) : NodeId × Size := (x.id, x.length)

/-- A node, its length and its cache. -/
def Span.place (x : Span) : NodeId × Size × Size := (x.id, x.length, x.position)

/-- Where spans start depends on their lengths alone. -/
theorem place_of_size {base : Size} {a b : List Span} (ha : laid base a = a)
    (hb : laid base b = b) (h : a.map Span.size = b.map Span.size) :
    a.map Span.place = b.map Span.place := by
  induction a generalizing base b with
  | nil =>
    obtain rfl := List.map_eq_nil_iff.mp h.symm
    rfl
  | cons x a ih =>
    obtain ⟨y, b, rfl, hy, hrest⟩ := List.map_eq_cons_iff.mp h.symm
    have hid : y.id = x.id := congrArg Prod.fst hy
    have hlength : y.length = x.length := congrArg Prod.snd hy
    obtain ⟨hx, ha⟩ := laid_cons_iff.mp ha
    obtain ⟨hy, hb⟩ := laid_cons_iff.mp hb
    rw [List.map_cons, List.map_cons, ih ha (hlength ▸ hb) hrest.symm]
    simp only [Span.place, hid, hlength, hx, hy]

/-- Trees with one skeleton have nodes of the same lengths. -/
theorem Tree.sizes_of_skeleton {t u : Tree} (h : u.skeleton = t.skeleton) :
    u.spans.map Span.size = t.spans.map Span.size := by
  have hspans := congrArg (fun v => v.spans.map Span.size) (frame_congr h)
  simp only [spans_frame, List.map_map] at hspans
  exact hspans

namespace Forest

variable {f g : Forest} {t : TextId} {x : Text} {base : Size} {strict : Prop}
  {R : List Span → Prop}

/-- A text that begins at a position, with exact caches, in which searches can be made, and with
spans of a certain form. -/
def Shows (f : Forest) (t : TextId) (base : Size) (R : List Span → Prop) : Prop :=
  ∃ x, f.Carries t x ∧ x.beginOffset = base ∧ x.root.Timed base ∧ R x.root.spans

/-- A text that rests on exact caches shows its spans. -/
theorem Rests.shows (hf : f.Rests True t x) (hR : R (f.tree (.text t)).spans) :
    f.Shows t x.beginOffset R := by
  obtain ⟨y, hy, hbegin, -⟩ := hf.carried
  have htimed := hf.timed trivial
  rw [tree_text hy.text] at htimed hR
  exact ⟨y, hy, hbegin, htimed, hR⟩

/-- A text with exact caches rests, as it is. -/
theorem Shows.rests (hf : f.Shows t base R) :
    ∃ x, x.beginOffset = base ∧ f.Rests True t x ∧ R (f.tree (.text t)).spans := by
  obtain ⟨x, hx, hbegin, htimed, hR⟩ := hf
  exact ⟨x, hbegin, hx.rests rfl rfl rfl fun _ => hbegin ▸ htimed, tree_text hx.text ▸ hR⟩

/-- What happens elsewhere leaves searches possible. -/
theorem Carries.elsewhere (hf : f.Carries t x) (h : f.Elsewhere t g) : g.Carries t x := by
  have htree : g.tree (.text t) = f.tree (.text t) := by simp only [tree, h.text]
  refine ⟨h.text.trans hf.text, hf.small, hf.covers, ⟨⟨?_, ?_, ?_⟩, ?_, ?_, ?_⟩⟩
  · rw [htree]
    exact hf.grows.wellFormed
  · rw [htree]
    exact hf.grows.link
  · intro q hq id hid hmem
    rw [htree] at hid
    exact (h.apart q hq id hmem).2 hid
  · rw [htree]
    exact hf.grows.light
  · rintro ⟨⟩
  · intro q id hid
    by_cases hq : q = .text t
    · rw [hq, htree] at hid
      exact Nat.lt_of_lt_of_le (hf.grows.fresh _ id hid) h.nextId
    · exact (h.apart q hq id hid).1

theorem Rests.elsewhere (hf : f.Rests strict t x) (h : f.Elsewhere t g) : g.Rests strict t x := by
  obtain ⟨y, hy, hbegin, hcontent⟩ := hf.carried
  have htree : g.tree (.text t) = f.tree (.text t) := by simp only [tree, h.text]
  exact ⟨⟨y, hy.elsewhere h, hbegin, hcontent⟩, htree ▸ hf.skeleton, htree ▸ hf.timed⟩

/-- The nodes and the lengths of a text that rests. -/
theorem Rests.sizes (hf : f.Rests strict t x) :
    (f.tree (.text t)).spans.map Span.size = x.root.spans.map Span.size :=
  Tree.sizes_of_skeleton hf.skeleton

end Forest

namespace Run

variable {f g : Forest} {t : TextId} {x : Text} {base : Size} {strict : Prop}
  {R : List Span → Prop} {Kind : Forest → Forest → Prop}

/-- Moves leave a text with exact caches alone. -/
theorem rests_of_moving (hf : f.Rests True t x) (h : Moving t f g) :
    g.Rests True t x ∧ g.tree (.text t) = f.tree (.text t) := by
  have same (hg : g = f) : g.Rests True t x ∧ g.tree (.text t) = f.tree (.text t) :=
    ⟨hg ▸ hf, by rw [hg]⟩
  cases h with
  | next live =>
    exact same ((rests_moveTo hf (hf.ids ▸ live) (fun _ _ => Cursor.skeleton_of_next)
      fun _ _ => Cursor.timed_next).2 trivial)
  | prev live =>
    exact same ((rests_moveTo hf (hf.ids ▸ live) (fun _ _ => Cursor.skeleton_of_prev)
      fun _ _ => Cursor.timed_prev).2 trivial)
  | @update id live p =>
    obtain ⟨r, g, hexec, -, hg, -⟩ := rests_update hf (hf.ids ▸ live) p
    exact same (hexec ▸ hg trivial)
  | elsewhere h => exact ⟨hf.elsewhere h, by simp only [Forest.tree, h.text]⟩

/-- Quiet steps let a text with exact caches rest. -/
theorem rests_of_quiet (hf : f.Rests True t x) (h : Quiet t f g) : g.Rests True t x := by
  obtain h | rfl | ⟨id, live, e, rfl⟩ := quiet_cases h
  · exact (rests_of_moving hf h).1
  · exact hf
  · exact rests_modifyData hf (hf.ids ▸ live) fun _ => ⟨rfl, rfl⟩

/-- Moves keep the spans. -/
theorem shows_of_moving {spans : List Span} (hf : f.Shows t base (· = spans))
    (h : Moving t f g) : g.Shows t base (· = spans) := by
  obtain ⟨x, rfl, hx, hspans⟩ := hf.rests
  obtain ⟨hg, htree⟩ := rests_of_moving hx h
  exact hg.shows (htree ▸ hspans)

/-- Quiet steps keep the nodes and their lengths. -/
theorem shows_of_quiet {sizes : List (NodeId × Size)}
    (hf : f.Shows t base (·.map Span.size = sizes)) (h : Quiet t f g) :
    g.Shows t base (·.map Span.size = sizes) := by
  obtain ⟨x, rfl, hx, hsizes⟩ := hf.rests
  have hg := rests_of_quiet hx h
  exact hg.shows (hg.sizes.trans (hx.sizes.symm.trans hsizes))

/-- Balancing a text without open sessions makes another shape of its tree, and notes. -/
theorem exec_balanceIntervals_carries (hf : f.Carries t x)
    (hidle : f.settings.tracking = true → x.access.word = 0) :
    ∃ u n a k, exec (balanceIntervals t) f = (.ok n, (f.plant u (.text t)).noted t a k) ∧
      Tree.SettledTo x.root u n := by
  have hlight : x.root.total.toNat < 2 ^ 63 := Forest.tree_text hf.text ▸ hf.grows.light
  obtain ⟨u, n, hu, hto⟩ := Tree.balanceAll_ok hf.wellFormed.weighed hlight
  rw [← Tree.balance_eq_balanceAll hf.wellFormed hlight] at hu
  suffices h : ∃ r g a k, exec (balanceIntervals t) f = (r, g.noted t a k) ∧
      a.word = x.access.word ∧ r = .ok n ∧ g = f.plant u (.text t) by
    obtain ⟨_, _, a, k, hexec, -, rfl, rfl⟩ := h
    exact ⟨u, n, a, k, hexec, hto⟩
  refine exec_withSession_idle hf.text hidle fun a => ?_
  have hnoted := hf.noted (a := a) (q := f.profile)
  rw [exec_bind_ok (exec_text hnoted.text)]
  split
  · next hnil =>
    have hroot : x.root = .nil := Tree.isNil_iff.mp hnil
    obtain ⟨rfl, rfl⟩ : Tree.nil = u ∧ 0 = n := by
      simpa [hroot, Tree.balance, Tree.isNil] using hu
    refine ⟨_, f, f.profile, exec_pure _ _, rfl, rfl, ?_⟩
    have hplant := f.plant_self t
    rw [Forest.tree_text hf.text, hroot] at hplant
    exact hplant.symm
  · have hscope : ∃ r g k, exec (profiled "basic_text::balance_intervals" do
        let rotations ← conclude (.text t) (← text t).root.balance
        addRotations rotations
        verify t
        pure rotations) (f.noted t a f.profile) = (r, { g with profile := k }) ∧
          r = .ok n ∧ g = (f.noted t a f.profile).plant u (.text t) := by
      refine exec_profiled_exists fun k => ?_
      have hk : (f.noted t a k).Carries t { x with access := a } := hf.noted
      have hplant := hk.twin hto.reshaped.twins (k.add n)
      refine ⟨.ok n, _, k.add n, ?_, rfl, rfl⟩
      change exec _ (f.noted t a k) = _
      rw [exec_bind_ok (exec_text hk.text), hu, exec_bind_ok (exec_conclude _ _ _),
        exec_bind_ok (exec_addRotations _ _)]
      change exec _ { (f.noted t a k).plant u (.text t) with profile := k.add n } = _
      rw [exec_bind_ok (exec_verify_carries hplant), exec_pure]
      rfl
    obtain ⟨_, _, k, hexec, rfl, rfl⟩ := hscope
    exact ⟨_, f.plant u (.text t), k, by rw [hexec, Forest.plant_noted]; rfl, rfl, rfl, rfl⟩

/-- A traversal keeps what every visit keeps. -/
theorem shows_traverseIntervals {σ : Type} {visit : NodeId → Client σ Unit}
    (hquiet : ∀ f g, Kind f g → Quiet t f g)
    (hkind : ∀ f g, f.Shows t base R → Kind f g → g.Shows t base R) (hf : f.Shows t base R)
    (visits : VisitsBy Kind t f visit) (s : σ) :
    (exec (traverseIntervals t visit) (s, f)).2.2.Shows t base R := by
  rcases session_cases t .write f with ⟨e, hopen, -⟩ | ⟨g, hopen, hsame, -⟩
  · have hrefused : exec (traverseIntervals t visit) (s, f) = (.error e, (s, f)) :=
      exec_liftM_bind_error hopen
    rwa [hrefused]
  · obtain ⟨x, rfl, hx, hR⟩ := hf.rests
    -- what the steps of a visit keep, with the state that tells that they are quiet
    have hstep (h h' : Forest) (hh : h.Rests True t x ∧ R (h.tree (.text t)).spans)
        (hk : Kind h h') : h'.Rests True t x ∧ R (h'.tree (.text t)).spans := by
      obtain ⟨y, -, -, hR'⟩ := (hkind h h' (hh.1.shows hh.2) hk).rests
      exact ⟨rests_of_quiet hh.1 (hquiet h h' hk), hR'⟩
    have hvisit (z : NodeId × Size) (hz : z ∈ starts x.beginOffset x.root.spans) (s : σ)
        (h : Forest) (hh : Underway t visit f h ∧ h.Rests True t x ∧ R (h.tree (.text t)).spans) :
        Underway t visit f (exec (visitAt visit z) (s, h)).2.2 ∧
          (exec (visitAt visit z) (s, h)).2.2.Rests True t x ∧
          R ((exec (visitAt visit z) (s, h)).2.2.tree (.text t)).spans := by
      rw [visitAt, exec_liftM_bind_ok (exec_setStart_timed hh.2.1 hz)]
      exact kept_by_visits visits hstep (hx.ids ▸ mem_ids_of_start hz) s hh
    obtain ⟨h, ⟨-, hh, hspans⟩, hclosed⟩ := kept_at_rest hopen (fun _ hh => hh.2.1) hvisit
      ⟨.opened hopen, hx.opened hopen, hsame.tree (.text t) ▸ hR⟩ s
    have htree := Forest.tree_closed t .write h (.text t)
    rw [hclosed]
    exact (hh.closed .write).shows (htree ▸ hspans)

/-- **A calm step** keeps the form of the spans if every visit does. -/
theorem shows_of_calm (hquiet : ∀ f g, Kind f g → Quiet t f g)
    (hkind : ∀ f g, f.Shows t base R → Kind f g → g.Shows t base R)
    (hmoving : ∀ f g, f.Shows t base R → Moving t f g → g.Shows t base R)
    (hne : ∀ spans, R spans → spans ≠ []) (hf : f.Shows t base R) (h : Calm Kind t f g) :
    g.Shows t base R := by
  cases h with
  | moving h => exact hmoving f g hf h
  | findInterval p =>
    obtain ⟨x, hx, rfl, htimed, hR⟩ := id hf
    have hnil : x.root.isNil = false := by
      rw [← Bool.not_eq_true, Tree.isNil_iff]
      exact fun hroot => hne _ hR (by rw [hroot]; rfl)
    rcases idle_or_refused hx.text _ with hidle | ⟨o, hrefused⟩
    · obtain ⟨r, u, a, k, hexec, -, hcarries, -, hspans, -⟩ :=
        exec_findInterval_timed hx hidle hnil htimed p
      rw [hexec]
      refine ⟨_, hcarries.noted, rfl, ?_, hspans.symm ▸ hR⟩
      rwa [Tree.Timed, hspans]
    · rw [findInterval, hrefused]
      exact hf
  | balanceIntervals =>
    obtain ⟨x, hx, rfl, htimed, hR⟩ := id hf
    rcases idle_or_refused hx.text _ with hidle | ⟨o, hrefused⟩
    · obtain ⟨u, n, a, k, hexec, hto⟩ := exec_balanceIntervals_carries hx hidle
      have hspans := hto.reshaped.spans
      rw [hexec]
      refine ⟨_, (hx.twin hto.reshaped.twins f.profile).noted, rfl, ?_, hspans.symm ▸ hR⟩
      rwa [Tree.Timed, hspans]
    · rw [balanceIntervals, hrefused]
      exact hf
  | traverseIntervals visits s => exact shows_traverseIntervals hquiet hkind hf visits s

/-- Calm steps keep the spans if visits only move. -/
theorem spans_kept {spans : List Span} (hne : spans ≠ []) (hf : f.Shows t base (· = spans))
    (h : ReflTransGen (Calm (Moving t) t) f g) : g.Shows t base (· = spans) :=
  kept_by_steps (P := fun f => f.Shows t base (· = spans))
    (fun _ _ => shows_of_calm (fun _ _ => .moving) (fun _ _ => shows_of_moving)
      (fun _ _ => shows_of_moving) fun _ h => h ▸ hne) hf h

/-- They keep the nodes and their lengths if visits set marks, too. -/
theorem sizes_kept {sizes : List (NodeId × Size)} (hne : sizes ≠ [])
    (hf : f.Shows t base (·.map Span.size = sizes)) (h : ReflTransGen (Calm (Quiet t) t) f g) :
    g.Shows t base (·.map Span.size = sizes) := by
  have hspans (spans : List Span) (h : spans.map Span.size = sizes) : spans ≠ [] := by
    rintro rfl
    exact hne h.symm
  exact kept_by_steps (P := fun f => f.Shows t base (·.map Span.size = sizes))
    (fun _ _ => shows_of_calm (fun _ _ => id) (fun _ _ => shows_of_quiet)
      (fun _ _ hf h => shows_of_quiet hf (.moving h)) hspans) hf h

end Run

/-! ## Searches elsewhere -/

namespace Forest

variable {f g : Forest} {t u : TextId} {x y : Text} {id : NodeId}

/-- What is done with the tree of another text happens elsewhere. -/
theorem elsewhere_of_text (hut : u ≠ t) (hf : f.Grows (.text t)) (hg : g.Grows (.text u))
    (htexts : ∀ i, i ≠ u → g.texts[i]? = f.texts[i]?) (hloose : g.loose = f.loose)
    (hsettings : g.settings = f.settings) (hnext : f.nextId ≤ g.nextId) : f.Elsewhere t g := by
  have htree (p : Place) (hp : p ≠ .text u) : g.tree p = f.tree p := by
    cases p with
    | text i => simp only [tree, htexts i fun h => hp (h ▸ rfl)]
    | loose slot => simp only [tree, hloose]
  refine ⟨htexts t hut.symm, hsettings, hnext, fun p hp id hid => ?_⟩
  by_cases hpu : p = .text u
  · subst hpu
    have hother := hg.apart (.text t) (by simpa using hut.symm) id hid
    rw [htree _ (by simpa using hut.symm)] at hother
    exact ⟨hg.fresh _ id hid, hother⟩
  · rw [htree p hpu] at hid
    exact ⟨Nat.lt_of_lt_of_le (hf.fresh p id hid) hnext, fun hmem => hf.apart p hp id hmem hid⟩

/-- A text in which searches can be made stays one when another text changes its tracker. -/
theorem Carries.access_of_ne (hut : u ≠ t) (hf : f.Carries u y) (a : Tracker → Tracker) :
    (f.modifyText t fun x => { x with access := a x.access }).Carries u y where
  text := by simp [modifyText, hf.text, hut.symm]
  small := hf.small
  covers := hf.covers
  grows := hf.grows.congr (f.tree_access t a) (Nat.le_refl _)

end Forest

namespace Run

variable {f : Forest} {t u : TextId} {x y : Text}

/-- A search in another text happens elsewhere, and more of them can be made. -/
theorem elsewhere_findInterval (hut : u ≠ t) (hf : f.Grows (.text t)) (hu : f.Carries u y)
    (q : Size) :
    f.Elsewhere t (exec (findInterval u q) f).2 ∧
      ∃ z, (exec (findInterval u q) f).2.Carries u z := by
  rcases idle_or_refused hu.text _ with hidle | ⟨o, hrefused⟩
  · obtain ⟨r, w, a, k, hexec, -, hcarries, -⟩ := exec_findInterval_carries hu hidle q
    rw [hexec]
    have hg := hcarries.noted (a := a) (q := k)
    refine ⟨Forest.elsewhere_of_text hut hf hg.grows (fun i hi => ?_) rfl rfl ?_, _, hg⟩
    · simp [Forest.noted, Forest.plant, Forest.modifyText, hi.symm]
    · change f.nextId ≤ y.nextFrom f.nextId
      unfold Text.nextFrom
      split
      · exact Nat.le_succ _
      · exact Nat.le_refl _
  · rw [findInterval, hrefused]
    exact ⟨⟨rfl, rfl, Nat.le_refl _, fun p hp id hid =>
      ⟨hf.fresh p id hid, fun hmem => hf.apart p hp id hmem hid⟩⟩, y, hu⟩

/-- A split in another text happens elsewhere. -/
theorem elsewhere_split (hut : u ≠ t) (hf : f.Grows (.text t)) (hu : f.Grows (.text u))
    {pre post : List Span} {z : Span} (hcut : (f.tree (.text u)).spans = pre ++ z :: post)
    (s : Side) {offset : Size} (hpos : 0 < offset.toNat) (hlt : offset.toNat < z.length.toNat) :
    f.Elsewhere t (exec (split s z.id offset) f).2 := by
  obtain ⟨w, q, hexec, -, -, -, -, hgrows⟩ := hu.exec_split hcut s hpos hlt
  rw [hexec]
  refine Forest.elsewhere_of_text hut hf hgrows (fun i hi => ?_) rfl rfl (Nat.le_succ _)
  simp [Forest.plant, Forest.modifyText, hi.symm]

/-- **A client that searches another text** at its visits only moves. -/
theorem visitsBy_findInterval {σ : Type} (hut : u ≠ t) (hf : f.Carries t x) (hu : f.Carries u y)
    (q : NodeId → Size) :
    VisitsBy (Moving t) t f fun id =>
      (do let _ ← liftM (findInterval u (q id)) : Client σ Unit) := by
  have hkept {g : Forest} (hg : Underway t
      (fun id => (do let _ ← liftM (findInterval u (q id)) : Client σ Unit)) f g) :
      (∃ z, g.Carries t z) ∧ ∃ z, g.Carries u z := by
    induction hg with
    | opened hopen =>
      obtain ⟨a, rfl⟩ := Forest.access_of_opened hf.text hopen
      exact ⟨⟨_, hf.access a⟩, y, hu.access_of_ne hut a⟩
    | @visited g _ id live s ih =>
      obtain ⟨⟨z, hz⟩, w, hw⟩ := ih
      obtain ⟨helse, hw'⟩ := elsewhere_findInterval hut hz.grows hw (q id)
      rw [exec_bind_pure, exec_liftM]
      exact ⟨⟨z, hz.elsewhere helse⟩, hw'⟩
  intro g hg id live s
  obtain ⟨⟨z, hz⟩, w, hw⟩ := hkept hg
  rw [exec_bind_pure, exec_liftM]
  exact .single (.elsewhere (elsewhere_findInterval hut hz.grows hw (q id)).1)

end Run

/-! ## The parts of a split -/

/-- Spans in the middle are exchanged for others that are laid out from the same position on and
reach as far. -/
theorem laid_exchange {base : Size} {pre mid mid' post : List Span}
    (h : laid base (pre ++ mid ++ post) = pre ++ mid ++ post) (hextent : extent mid' = extent mid)
    (hmid : laid (base + extent pre) mid = mid → laid (base + extent pre) mid' = mid') :
    laid base (pre ++ mid' ++ post) = pre ++ mid' ++ post := by
  rw [laid_append_iff, laid_append_iff, extent_append] at h ⊢
  obtain ⟨⟨hpre, hlaid⟩, hpost⟩ := h
  exact ⟨⟨hpre, hmid hlaid⟩, by rwa [hextent]⟩

/-- The parts of a span start where they have to. -/
theorem laid_cut {base : Size} {pre post : List Span} {x : Span}
    (h : laid base (pre ++ x :: post) = pre ++ x :: post) (s : Side) (piece : NodeId)
    (offset : Size) :
    laid base (pre ++ x.cut s piece offset ++ post) = pre ++ x.cut s piece offset ++ post := by
  have hone : pre ++ x :: post = pre ++ [x] ++ post := by simp
  rw [hone] at h
  refine laid_exchange h ?_ fun hx => ?_
  · cases s <;> simp only [Span.cut, extent_cons, extent_nil] <;> grind
  · have hposition := (laid_cons_iff.mp hx).1
    cases s <;> exact laid_cons_iff.mpr ⟨hposition, laid_cons_iff.mpr
      ⟨congrArg (· + offset) hposition, rfl⟩⟩

/-- So does the whole, when the piece is back in its neighbour. -/
theorem laid_absorb {base : Size} {pre post : List Span} {p x : Span} (s : Side)
    (h : laid base (pre ++ s.pick [p, x] [x, p] ++ post) =
      pre ++ s.pick [p, x] [x, p] ++ post) :
    laid base (pre ++ x.absorb s.other p.length p.position :: post) =
      pre ++ x.absorb s.other p.length p.position :: post := by
  have hone (y : Span) : pre ++ y :: post = pre ++ [y] ++ post := by simp
  rw [hone]
  refine laid_exchange h ?_ fun hparts => laid_cons_iff.mpr ⟨?_, rfl⟩
  · cases s <;>
      simp only [Span.absorb, Side.pick_left, Side.pick_right, extent_cons, extent_nil] <;> grind
  · cases s with
    | left => exact (laid_cons_iff.mp hparts).1
    | right =>
      obtain ⟨hx, hrest⟩ := laid_cons_iff.mp hparts
      have hp := (laid_cons_iff.mp hrest).1
      change p.position - x.length = _
      rw [hp]
      grind

/-- Spans with the nodes and lengths of the parts of a split are cut like
them. -/
theorem exists_parts {s : Side} {spans pre post : List Span} {p x : Span}
    (h : spans.map Span.size = (pre ++ s.pick [p, x] [x, p] ++ post).map Span.size) :
    ∃ pre' post' p' x', spans = pre' ++ s.pick [p', x'] [x', p'] ++ post' ∧
      pre'.map Span.size = pre.map Span.size ∧ post'.map Span.size = post.map Span.size ∧
      p'.size = p.size ∧ x'.size = x.size := by
  rw [List.map_append, List.map_append, List.map_eq_append_iff] at h
  obtain ⟨front, post', rfl, hfront, hpost⟩ := h
  rw [List.map_eq_append_iff] at hfront
  obtain ⟨pre', mid, rfl, hpre, hmid⟩ := hfront
  cases s with
  | left =>
    obtain ⟨p', rest, rfl, hp, hrest⟩ := List.map_eq_cons_iff.mp hmid
    obtain ⟨x', rest, rfl, hx, hnil⟩ := List.map_eq_cons_iff.mp hrest
    obtain rfl := List.map_eq_nil_iff.mp hnil
    exact ⟨pre', post', p', x', rfl, hpre, hpost, hp, hx⟩
  | right =>
    obtain ⟨x', rest, rfl, hx, hrest⟩ := List.map_eq_cons_iff.mp hmid
    obtain ⟨p', rest, rfl, hp, hnil⟩ := List.map_eq_cons_iff.mp hrest
    obtain rfl := List.map_eq_nil_iff.mp hnil
    exact ⟨pre', post', p', x', rfl, hpre, hpost, hp, hx⟩

/-- The nodes, lengths and caches of one list of spans are back in
another, with the marks that the nodes have in a third. -/
def Restored (before between after : List Span) : Prop :=
  after.map Span.place = before.map Span.place ∧
    ∀ y ∈ after, ∃ z ∈ between, z.id = y.id ∧ z.flags = y.flags ∧ z.plist = y.plist

/-- What the merge that takes a split back makes of spans with the nodes
and lengths of the parts, on exact caches. -/
theorem restored_of_size {base : Size} {pre post pre' post' : List Span} {x x' p' : Span}
    (hbefore : laid base (pre ++ x :: post) = pre ++ x :: post) (s : Side) {piece : NodeId}
    {offset : Size} (hpre : pre'.map Span.size = pre.map Span.size)
    (hpost : post'.map Span.size = post.map Span.size)
    (hp : p'.size = (x.piece s piece offset).size) (hx : x'.size = (x.rest s offset).size)
    (hbetween : laid base (pre' ++ s.pick [p', x'] [x', p'] ++ post') =
      pre' ++ s.pick [p', x'] [x', p'] ++ post') :
    Restored (pre ++ x :: post) (pre' ++ s.pick [p', x'] [x', p'] ++ post')
      (pre' ++ x'.absorb s.other p'.length p'.position :: post') := by
  refine ⟨place_of_size (laid_absorb s hbetween) hbefore ?_, fun y hy => ?_⟩
  · have hback := congrArg Span.size (Span.absorb_rest s piece offset x)
    have hplen : p'.length = (x.piece s piece offset).length := congrArg Prod.snd hp
    have hxlen : x'.length = (x.rest s offset).length := congrArg Prod.snd hx
    have hxid : x'.id = (x.rest s offset).id := congrArg Prod.fst hx
    have hwhole : (x'.absorb s.other p'.length p'.position).size = x.size := by
      rw [← hback]
      simp only [Span.size, Span.absorb, hplen, hxlen, hxid]
    rw [List.map_append, List.map_append, List.map_cons, List.map_cons, hpre, hpost, hwhole]
  · rw [List.mem_append, List.mem_cons] at hy
    rcases hy with hy | rfl | hy
    · exact ⟨y, by simp [hy], rfl, rfl, rfl⟩
    · exact ⟨x', by cases s <;> simp, rfl, rfl, rfl⟩
    · exact ⟨y, by simp [hy], rfl, rfl, rfl⟩

/-! ## Taking a split back -/

namespace Run

variable {f g : Forest} {t : TextId} {x : Text} {pre post : List Span} {y p : Span}

/-- A split of a text with exact caches shows the parts. -/
theorem exec_split_shows (hf : f.Carries t x) (htimed : x.root.Timed x.beginOffset)
    (hcut : x.root.spans = pre ++ y :: post) (s : Side) {offset : Size} (hpos : 0 < offset.toNat)
    (hlt : offset.toNat < y.length.toNat) :
    ∃ g, exec (split s y.id offset) f = (.ok f.nextId, g) ∧
      g.Shows t x.beginOffset (· = pre ++ y.cut s f.nextId offset ++ post) := by
  have htree := Forest.tree_text hf.text
  obtain ⟨u, q, hexec, -, hspans, htotal, -, hgrows⟩ :=
    hf.grows.exec_split (htree ▸ hcut) s hpos hlt
  have hid : y.id ∈ x.root.ids := by simp [Tree.ids, hcut]
  rw [htree] at htotal
  refine ⟨_, hexec, { x with root := u }, ⟨Forest.texts_plant u x hf.text, hf.small,
    fun _ => htotal.trans (hf.covers (Tree.isNil_of_mem_ids hid)), hgrows⟩, rfl, ?_, hspans⟩
  rw [Tree.Timed, hcut] at htimed
  rw [Tree.Timed, hspans]
  exact laid_cut htimed s f.nextId offset

/-- A piece beside a node is handed to the node. -/
theorem exec_undo (hg : g.Carries t x) (s : Side)
    (hcut : x.root.spans = pre ++ s.pick [p, y] [y, p] ++ post) :
    (∃ g', exec (merge s.other p.id) g = (.ok y.id, g') ∧
      (g'.tree (.text t)).spans = pre ++ y.absorb s.other p.length p.position :: post) ∧
    (s = .left → ∃ g', exec (remove p.id) g = (.ok ⟨⟩, g') ∧
      (g'.tree (.text t)).spans = pre ++ y.absorb s.other p.length p.position :: post) := by
  have hholds := hg.grows.toHolds
  have hheld {id : NodeId} : Place.home? (.text t) = none → (g.tree (.text t)).id? ≠ some id :=
    nofun
  have hplant (u : Tree) : (g.plant u (.text t)).tree (.text t) = u :=
    Forest.tree_text (Forest.texts_plant u x hg.text)
  rw [← Forest.tree_text hg.text] at hcut
  cases s with
  | left =>
    have hcut' : (g.tree (.text t)).spans = pre ++ p :: y :: post := by simpa using hcut
    obtain ⟨u, hexec, hu⟩ := hholds.merge_right hcut' hheld
    have hremove := hholds.remove_right hcut' hheld (by simp)
    rw [hexec] at hremove
    have hspans : ((g.plant u (.text t)).tree (.text t)).spans = _ := (hplant u).symm ▸ hu.spans
    exact ⟨⟨_, hexec, hspans⟩, fun _ => ⟨_, hremove, hspans⟩⟩
  | right =>
    have hcut' : (g.tree (.text t)).spans = pre ++ y :: p :: post := by simpa using hcut
    obtain ⟨u, hexec, hu⟩ := hholds.merge_left hcut' hheld
    exact ⟨⟨_, hexec, (hplant u).symm ▸ hu.spans⟩, nofun⟩

/-- The parts of a split are put together again. -/
theorem undo_of_cut {base offset : Size} {s : Side} {piece : NodeId}
    (hg : g.Shows t base (· = pre ++ y.cut s piece offset ++ post)) :
    (∃ g', exec (merge s.other piece) g = (.ok y.id, g') ∧
      (g'.tree (.text t)).spans = pre ++ y :: post) ∧
    (s = .left → ∃ g', exec (remove piece) g = (.ok ⟨⟩, g') ∧
      (g'.tree (.text t)).spans = pre ++ y :: post) := by
  obtain ⟨x, hx, -, -, hspans⟩ := hg
  rw [Span.cut_eq] at hspans
  have hundo := exec_undo hx s hspans
  rw [Span.absorb_rest] at hundo
  exact hundo

/-- So are nodes with the lengths of the parts, and keep their marks. -/
theorem undo_of_sizes {base offset : Size} {s : Side} {piece : NodeId}
    (hbefore : laid base (pre ++ y :: post) = pre ++ y :: post)
    (hg : g.Shows t base
      (·.map Span.size = (pre ++ y.cut s piece offset ++ post).map Span.size)) :
    (∃ g', exec (merge s.other piece) g = (.ok y.id, g') ∧
      Restored (pre ++ y :: post) (g.tree (.text t)).spans (g'.tree (.text t)).spans) ∧
    (s = .left → ∃ g', exec (remove piece) g = (.ok ⟨⟩, g') ∧
      Restored (pre ++ y :: post) (g.tree (.text t)).spans (g'.tree (.text t)).spans) := by
  obtain ⟨x, hx, -, hlaid, hsizes⟩ := hg
  rw [Span.cut_eq] at hsizes
  obtain ⟨pre', post', p', y', hspans, hpre, hpost, hp, hy⟩ := exists_parts hsizes
  have hpid : p'.id = piece := congrArg Prod.fst hp
  have hyid : y'.id = y.id := congrArg Prod.fst hy
  have hback := restored_of_size hbefore s hpre hpost hp hy (hspans ▸ hlaid)
  rw [← hspans, ← Forest.tree_text hx.text] at hback
  obtain ⟨hmerge, hremove⟩ := exec_undo hx s hspans
  rw [hpid, hyid] at hmerge
  rw [hpid] at hremove
  refine ⟨?_, fun hs => ?_⟩
  · obtain ⟨g', hexec, hg'⟩ := hmerge
    exact ⟨g', hexec, hg'.symm ▸ hback⟩
  · obtain ⟨g', hexec, hg'⟩ := hremove hs
    exact ⟨g', hexec, hg'.symm ▸ hback⟩

end Run

/-- **A split can be taken back**, whatever calm steps come between. The
merge of the piece gives back the node that was split, and the removal of
a piece on the left does the same without giving it. The spans are those
from before the split. Where visits of traversals set marks, the nodes
keep the marks that were set. The text may begin anywhere. -/
theorem split_undone {f : Forest} {t : TextId} {x : Text} (hf : f.Carries t x)
    (htimed : x.root.Timed x.beginOffset) {pre post : List Span} {y : Span}
    (hcut : x.root.spans = pre ++ y :: post) (s : Side) {offset : Size}
    (hpos : 0 < offset.toNat) (hlt : offset.toNat < y.length.toNat) :
    ∃ piece f', exec (Run.split s y.id offset) f = (.ok piece, f') ∧
      ∀ g,
        (ReflTransGen (Calm (Moving t) t) f' g →
          (∃ g', exec (Run.merge s.other piece) g = (.ok y.id, g') ∧
            (g'.tree (.text t)).spans = x.root.spans) ∧
          (s = .left → ∃ g', exec (Run.remove piece) g = (.ok ⟨⟩, g') ∧
            (g'.tree (.text t)).spans = x.root.spans)) ∧
        (ReflTransGen (Calm (Quiet t) t) f' g →
          (∃ g', exec (Run.merge s.other piece) g = (.ok y.id, g') ∧
            Restored x.root.spans (g.tree (.text t)).spans (g'.tree (.text t)).spans) ∧
          (s = .left → ∃ g', exec (Run.remove piece) g = (.ok ⟨⟩, g') ∧
            Restored x.root.spans (g.tree (.text t)).spans (g'.tree (.text t)).spans)) := by
  obtain ⟨f', hsplit, hf'⟩ := Run.exec_split_shows hf htimed hcut s hpos hlt
  rw [Tree.Timed, hcut] at htimed
  rw [hcut]
  have hne : pre ++ y.cut s f.nextId offset ++ post ≠ [] := by cases s <;> simp [Span.cut]
  refine ⟨f.nextId, f', hsplit, fun g => ⟨fun hrun => ?_, fun hrun => ?_⟩⟩
  · exact Run.undo_of_cut (Run.spans_kept hne hf' hrun)
  · obtain ⟨z, hz, hbegin, hlaid, hspans⟩ := hf'
    have hsizes : f'.Shows t x.beginOffset
        (·.map Span.size = (pre ++ y.cut s f.nextId offset ++ post).map Span.size) :=
      ⟨z, hz, hbegin, hlaid, congrArg (List.map Span.size) hspans⟩
    exact Run.undo_of_sizes htimed (Run.sizes_kept (by simpa using hne) hsizes hrun)

namespace Forest

/-- Two texts. The first has one node and ends where positions wrap; the
second has no tree yet. -/
def late : Forest where
  nextId := 1
  texts := [
    { name := "a", beginOffset := 18446744073709551610, content := "abcdef"
      root := .node
        { id := 0, link := .owner 0, data := { total := 6, position := 18446744073709551610 } }
        .nil .nil },
    { name := "b", beginOffset := 1, content := "xyz" }]

theorem tree_late (p : Place) (hp : p ≠ .text 0) : late.tree p = .nil := by
  match p, hp with
  | .text 1, _ => rfl
  | .text (_ + 2), _ => rfl
  | .loose _, _ => rfl

theorem grows_late : late.Grows (.text 0) := by
  refine grows_of_only tree_late ⟨?_, ?_, by decide⟩ (by rintro link ⟨⟩; rfl) (by decide)
    (by decide)
  · change Tree.Weighed (.node _ _ _)
    simp only [Tree.Weighed]
    decide
  · change Tree.Linked (.node _ _ _)
    simp only [Tree.Linked]
    decide

end Forest

/-- At the visits of a traversal the other text is searched, and grows a
tree. Then the text is balanced, and the piece removed. -/
theorem split_undone_after_balancing :
    let search : NodeId → Client Unit Unit := fun _ => do let _ ← liftM (Run.findInterval 1 2)
    ∃ piece f', exec (Run.split .left 0 2) Forest.late = (.ok piece, f') ∧
      let g := (exec (Run.traverseIntervals 0 search) ((), f')).2.2
      ∃ g', exec (Run.remove piece) (exec (Run.balanceIntervals 0) g).2 = (.ok ⟨⟩, g') ∧
        (g'.tree (.text 0)).spans = [⟨0, 6, 18446744073709551610, {}, {}⟩] := by
  intro search
  have hf : Forest.late.Carries 0 _ := ⟨rfl, by decide, fun _ => rfl, Forest.grows_late⟩
  have hother : Forest.late.Carries 1 _ :=
    ⟨rfl, by decide, fun h => absurd h (by decide), Forest.grows_late.of_nil rfl⟩
  let y : Span := ⟨0, 6, 18446744073709551610, {}, {}⟩
  have hcut : (Forest.late.tree (.text 0)).spans = [] ++ y :: [] := rfl
  have hpos : 0 < (2 : Size).toNat := by decide
  have hlt : (2 : Size).toNat < y.length.toNat := by decide
  obtain ⟨piece, g, hsplit, hundo⟩ := split_undone hf rfl hcut .left hpos hlt
  -- the split leaves a text with exact caches, and the other text as it was
  obtain ⟨f', hexec, x, hx, -⟩ := Run.exec_split_shows hf rfl hcut .left hpos hlt
  obtain ⟨rfl, rfl⟩ : piece = Forest.late.nextId ∧ g = f' := by
    simpa using hsplit.symm.trans hexec
  have hother' := hother.elsewhere
    (Run.elsewhere_split (by decide) hother.grows hf.grows hcut .left hpos hlt)
  rw [hexec] at hother'
  have hsearch : Calm (Moving 0) 0 g (exec (Run.traverseIntervals 0 search) ((), g)).2.2 :=
    .traverseIntervals (Run.visitsBy_findInterval (by decide) hx hother' fun _ => 2) ()
  exact ⟨_, g, hsplit, ((hundo _).1 (.tail (.single hsearch) .balanceIntervals)).2 rfl⟩

end SpanTree
