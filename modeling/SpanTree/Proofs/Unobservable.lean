/-
SpanTree.Proofs.Unobservable — no request tells one shape of a tree from
another.

`Twins` relates two forests in which a text each has the same start, the
same size and the same faces; the shapes of the trees, the identities of
the nodes and the other texts may differ. One request after another gives
the same answers from both and leaves twins (`Agree`). The specifications
of the operations are functions of the spans, so each case cuts the one
list of spans where the request says, cuts the other list at the same
index, and compares the two outcomes.

A visit of a traversal is a script, and two scripts stay in step because
each reply is the same (`agree_follow`); so do two traversals, node by
node (`agree_visits`). An action that is not a request changes the shape
on one side only (`twins_balance`, `twins_rotate`).

Walks compare positions, which are words. So the text has to end before
positions wrap; otherwise a walk that succeeds in one shape fails in
another (`shape_observed_at_the_brim`).
-/
import SpanTree.Proofs.Requests
import SpanTree.Proofs.Timings

namespace SpanTree

/-- Two forests with texts that look the same, whatever the shapes of
their trees. What is not in the spans is given by two readings. -/
def Twins (t u : TextId) (v w : Reading) (f g : Forest) : Prop :=
  ∃ n a m b, f.Reads t { v with nextId := n, spans := a } ∧
    g.Reads u { w with nextId := m, spans := b } ∧ a.map Span.face = b.map Span.face

/-- Two outcomes are the same result, and leave twins. -/
def Agree {α : Type} (t u : TextId) (v w : Reading) (x y : Except Fault α × Forest) : Prop :=
  x.1 = y.1 ∧ Twins t u v w x.2 y.2

/-- Two outcomes for a client are the same result and the same state of the
client, and leave twins. -/
def InStep {ρ σ : Type} (t u : TextId) (v w : Reading) (x y : ρ × (σ × Forest)) : Prop :=
  x.1 = y.1 ∧ x.2.1 = y.2.1 ∧ Twins t u v w x.2.2 y.2.2

/-- Lists of spans with the same faces are cut at the same index. -/
theorem cut_like {a b pre post : List Span} {x : Span} (h : a.map Span.face = b.map Span.face)
    (hcut : a = pre ++ x :: post) :
    ∃ pre' y post', b = pre' ++ y :: post' ∧ pre.map Span.face = pre'.map Span.face ∧
      x.face = y.face ∧ post.map Span.face = post'.map Span.face := by
  rw [hcut, List.map_append, List.map_cons] at h
  obtain ⟨pre', rest, rfl, hpre, hrest⟩ := List.map_eq_append_iff.mp h.symm
  obtain ⟨y, post', rfl, hy, hpost⟩ := List.map_eq_cons_iff.mp hrest
  exact ⟨pre', y, post', rfl, hpre.symm, hy.symm, hpost.symm⟩

theorem length_like {a b : List Span} (h : a.map Span.face = b.map Span.face) :
    a.length = b.length := by
  simpa using congrArg List.length h

theorem isEmpty_like {a b : List Span} (h : a.map Span.face = b.map Span.face) :
    a = [] ↔ b = [] := by
  rw [← List.length_eq_zero_iff, ← List.length_eq_zero_iff, length_like h]

/-- A face says where its span is, and what marks it has. -/
theorem Span.face_eq {x y : Span} (h : x.face = y.face) :
    x.length = y.length ∧ x.position = y.position ∧ x.flags = y.flags ∧ x.plist = y.plist :=
  ⟨congrArg Face.length h, congrArg Face.position h, congrArg Face.flags h, congrArg Face.plist h⟩

theorem Span.Owns.like {x y : Span} (h : x.face = y.face) {p : Size} (hx : x.Owns p) :
    y.Owns p := by
  obtain ⟨hlength, hposition, -, -⟩ := Span.face_eq h
  rw [Span.Owns, ← hlength, ← hposition]
  exact hx

theorem Span.marked_like {x y : Span} (h : x.face = y.face) (e : Marking) :
    (x.marked e).face = (y.marked e).face := by
  obtain ⟨hlength, hposition, hflags, hplist⟩ := Span.face_eq h
  simp only [Span.face, Span.marked, hlength, hposition, hflags, hplist]

theorem Span.cut_like {x y : Span} (h : x.face = y.face) (s : Side) (p q : NodeId)
    (offset : Size) : (x.cut s p offset).map Span.face = (y.cut s q offset).map Span.face := by
  obtain ⟨hlength, hposition, hflags, hplist⟩ := Span.face_eq h
  cases s <;>
    simp only [Span.cut, Span.face, List.map_cons, List.map_nil, hlength, hposition, hflags, hplist]

theorem Span.absorb_like {x y x' y' : Span} (h : x.face = y.face) (h' : x'.face = y'.face)
    (s : Side) :
    (x.absorb s x'.length x'.position).face = (y.absorb s y'.length y'.position).face := by
  obtain ⟨hlength, -, hflags, hplist⟩ := Span.face_eq h
  obtain ⟨hlength', hposition', -, -⟩ := Span.face_eq h'
  simp only [Span.absorb, Span.face, hlength, hflags, hplist, hlength', hposition']

/-- Texts with the same start and size have the same end. -/
theorem finish_like {v w : Reading} (hstart : v.start = w.start) (hsize : v.size = w.size) :
    v.finish = w.finish := by
  rw [Reading.finish, Reading.finish, hstart,
    show v.content.utf8ByteSize = w.content.utf8ByteSize from hsize]

/-- The same result, and nothing happened. -/
theorem Twins.agree {α : Type} {t u : TextId} {v w : Reading} {f g : Forest}
    (h : Twins t u v w f g) (r : Except Fault α) : Agree t u v w (r, f) (r, g) := ⟨rfl, h⟩

/-- What stays in step goes on in step. -/
theorem InStep.bind {α β σ : Type} {t u : TextId} {v w : Reading} {f g : Forest}
    {x y : Client σ α} {k k' : α → Client σ β} {s : σ}
    (h : InStep t u v w (exec x (s, f)) (exec y (s, g)))
    (hk : ∀ a s' f' g', exec x (s, f) = (.ok a, (s', f')) → exec y (s, g) = (.ok a, (s', g')) →
      Twins t u v w f' g' → InStep t u v w (exec (k a) (s', f')) (exec (k' a) (s', g'))) :
    InStep t u v w (exec (x >>= k) (s, f)) (exec (y >>= k') (s, g)) := by
  rw [exec_bind, exec_bind]
  rcases hx : exec x (s, f) with ⟨r, s₁, f₁⟩
  rcases hy : exec y (s, g) with ⟨r', s₂, g₁⟩
  rw [hx, hy] at h
  obtain ⟨hr, hs, htwins⟩ := h
  dsimp only at hr hs htwins
  subst hr hs
  cases r with
  | error e => exact ⟨rfl, rfl, htwins⟩
  | ok a => exact hk a s₁ f₁ g₁ hx hy htwins

namespace Run

variable {t u : TextId} {v w : Reading} {f g : Forest}

/-- The first node of a text looks the same in both. -/
theorem rooted_like (hstart : v.start = w.start) (hsize : v.size = w.size)
    (h : v.spans.map Span.face = w.spans.map Span.face) :
    (rooted v).spans.map Span.face = (rooted w).spans.map Span.face := by
  have hlength : v.content.utf8ByteSize = w.content.utf8ByteSize := hsize
  have hnew : v.spans = [] ∧ 0 < v.size ↔ w.spans = [] ∧ 0 < w.size := by
    rw [isEmpty_like h, hsize]
  unfold rooted
  simp only [hnew]
  split
  · simp only [covering, List.map_cons, List.map_nil, Span.face, hstart, hlength]
  · exact h

theorem Finds.like {p : Size} {x y : Span} {post post' : List Span}
    (hfinish : v.finish = w.finish) (hxy : x.face = y.face)
    (hpost : post.map Span.face = post'.map Span.face) (h : Finds v p x post) :
    Finds w p y post' := by
  rcases h with hown | ⟨hp, hlast⟩
  · exact .inl (hown.like hxy)
  · exact .inr ⟨hp.trans hfinish, (isEmpty_like hpost).mp hlast⟩

/-! ## Queries -/

/-- Two operations on the nodes at one index agree if they do wherever the
index is in the lists. -/
theorem agree_nodeAt {α : Type} {op op' : NodeId → Run α} (h : Twins t u v w f g) (i : Nat)
    (hop : ∀ n pre x post m pre' y post',
      f.Reads t { v with nextId := n, spans := pre ++ x :: post } →
      g.Reads u { w with nextId := m, spans := pre' ++ y :: post' } →
      pre.map Span.face = pre'.map Span.face → x.face = y.face →
      post.map Span.face = post'.map Span.face →
      Agree t u v w (exec (op x.id) f) (exec (op' y.id) g)) :
    Agree t u v w (exec (nodeAt t i >>= op) f) (exec (nodeAt u i >>= op') g) := by
  have hkeep := h
  obtain ⟨n, a, m, b, hf, hg, hab⟩ := h
  rcases index_cases a i with ⟨pre, x, post, rfl, rfl⟩ | hnone
  · obtain ⟨pre', y, post', rfl, hpre, hxy, hpost⟩ := cut_like hab rfl
    rw [exec_bind_ok (exec_nodeAt hf rfl), length_like hpre, exec_bind_ok (exec_nodeAt hg rfl)]
    exact hop n pre x post m pre' y post' hf hg hpre hxy hpost
  · rw [exec_bind_error (exec_nodeAt_none hf hnone),
      exec_bind_error (exec_nodeAt_none hg (length_like hab ▸ hnone))]
    exact hkeep.agree _

/-- Nodes at the same index look the same. -/
theorem agree_describe {n m : NodeId} {a b pre post pre' post' : List Span} {x y : Span}
    (hf : f.Reads t { v with nextId := n, spans := a })
    (hg : g.Reads u { w with nextId := m, spans := b }) (ha : a = pre ++ x :: post)
    (hb : b = pre' ++ y :: post') (hpre : pre.map Span.face = pre'.map Span.face)
    (hxy : x.face = y.face) (hpost : post.map Span.face = post'.map Span.face) :
    Agree t u v w (exec (describe t x.id) f) (exec (describe u y.id) g) := by
  obtain ⟨hlength, hposition, -, -⟩ := Span.face_eq hxy
  rw [exec_describe hf ha, exec_describe hg hb, length_like hpre, hxy, hlength, hposition]
  refine ⟨rfl, n, a, m, b, hf, hg, ?_⟩
  rw [ha, hb, List.map_append, List.map_append, List.map_cons, List.map_cons, hpre, hxy, hpost]

section Moves

variable {n m : NodeId} {pre post pre' post' : List Span} {x y : Span}
  (hf : f.Reads t { v with nextId := n, spans := pre ++ x :: post })
  (hg : g.Reads u { w with nextId := m, spans := pre' ++ y :: post' })
  (hpre : pre.map Span.face = pre'.map Span.face) (hxy : x.face = y.face)
  (hpost : post.map Span.face = post'.map Span.face)

include hf hg hpre hxy hpost

theorem twins_of_cut : Twins t u v w f g := by
  refine ⟨_, _, _, _, hf, hg, ?_⟩
  rw [List.map_append, List.map_append, List.map_cons, List.map_cons, hpre, hxy, hpost]

theorem agree_next :
    Agree t u v w (exec (next x.id >>= describe? t) f) (exec (next y.id >>= describe? u) g) := by
  rw [exec_bind_ok (exec_next hf rfl), exec_bind_ok (exec_next hg rfl)]
  cases post with
  | nil =>
    obtain rfl : post' = [] := (isEmpty_like hpost).mp rfl
    exact (twins_of_cut hf hg hpre hxy hpost).agree _
  | cons z rest =>
    obtain ⟨front, z', rest', rfl, hfront, hz, hrest⟩ := cut_like hpost (List.nil_append _).symm
    obtain rfl : front = [] := (isEmpty_like hfront).mp rfl
    exact agree_describe hf hg (show _ = (pre ++ [x]) ++ z :: rest by simp)
      (show _ = (pre' ++ [y]) ++ z' :: rest' by simp) (by simp [hpre, hxy]) hz hrest

theorem agree_prev :
    Agree t u v w (exec (prev x.id >>= describe? t) f) (exec (prev y.id >>= describe? u) g) := by
  rw [exec_bind_ok (exec_prev hf rfl), exec_bind_ok (exec_prev hg rfl)]
  rcases List.eq_nil_or_concat pre with rfl | ⟨rest, z, rfl⟩
  · obtain rfl : pre' = [] := (isEmpty_like hpre).mp rfl
    exact (twins_of_cut hf hg hpre hxy hpost).agree _
  · obtain ⟨rest', z', back, rfl, hrest, hz, hback⟩ :=
      cut_like hpre (show _ = rest ++ [z] by simp)
    obtain rfl : back = [] := (isEmpty_like hback).mp rfl
    have hdescribe := agree_describe hf hg (show _ = rest ++ z :: x :: post by simp)
      (show _ = rest' ++ z' :: y :: post' by simp) hrest hz (by simp [hxy, hpost])
    simpa [describe?] using hdescribe

/-- A walk to a position ends at the same index, or is refused with the
same bounds. -/
theorem agree_update (hstart : v.start = w.start) (hsize : v.size = w.size) (p : Size) :
    Agree t u v w (exec (update x.id p >>= describe t) f)
      (exec (update y.id p >>= describe u) g) := by
  have hfaces : (pre ++ x :: post).map Span.face = (pre' ++ y :: post').map Span.face := by
    rw [List.map_append, List.map_append, List.map_cons, List.map_cons, hpre, hxy, hpost]
  by_cases hin : v.start.toNat ≤ p.toNat ∧ p.toNat < v.start.toNat + v.size
  · obtain ⟨front, z, back, hz, hown⟩ := exists_owner hf.valid.placed hin.1
      (by rw [hf.valid.covers (by simp)]; exact hin.2)
    obtain ⟨front', z', back', hz', hfront, hlike, hback⟩ := cut_like hfaces hz
    rw [exec_bind_ok (exec_update hf rfl hz hown),
      exec_bind_ok (exec_update hg rfl hz' (hown.like hlike))]
    exact agree_describe hf hg hz hz' hfront hlike hback
  · have hin' : ¬ (w.start.toNat ≤ p.toNat ∧ p.toNat < w.start.toNat + w.size) := by
      rwa [← hstart, ← hsize]
    rw [exec_bind_error (exec_update_outside hf rfl hin),
      exec_bind_error (exec_update_outside hg rfl hin')]
    have hfault : (Fault.range ⟨"interval::update", p, v.start, v.finish - 1⟩) =
        .range ⟨"interval::update", p, w.start, w.finish - 1⟩ := by
      rw [hstart, finish_like hstart hsize]
    exact hfault ▸ (twins_of_cut hf hg hpre hxy hpost).agree _

/-- Setting marks agrees. -/
theorem agree_marks {α : Type} {op op' : Run α} {r : Except Fault α} (e : Marking)
    (hop : Does op t { v with nextId := n, spans := pre ++ x :: post } r
      { v with nextId := n, spans := pre ++ x.marked e :: post })
    (hop' : Does op' u { w with nextId := m, spans := pre' ++ y :: post' } r
      { w with nextId := m, spans := pre' ++ y.marked e :: post' }) :
    Agree t u v w (exec op f) (exec op' g) := by
  obtain ⟨f', hexec, hf'⟩ := hop f hf
  obtain ⟨g', hexec', hg'⟩ := hop' g hg
  rw [hexec, hexec']
  exact ⟨rfl, twins_of_cut hf' hg' hpre (Span.marked_like hxy e) hpost⟩

theorem agree_modifyData (e : Marking) :
    Agree t u v w (exec (do modifyData x.id (·.marked e); pure Reply.done) f)
      (exec (do modifyData y.id (·.marked e); pure Reply.done) g) :=
  agree_marks hf hg hpre hxy hpost e
    ((does_modifyData hf.valid rfl e).bind (does_pure Reply.done))
    ((does_modifyData hg.valid rfl e).bind (does_pure Reply.done))

theorem agree_removeProperty (key : String) :
    Agree t u v w (exec (do pure (Reply.found (← removeProperty x.id key))) f)
      (exec (do pure (Reply.found (← removeProperty y.id key))) g) := by
  have hplist := (Span.face_eq hxy).2.2.2
  refine agree_marks hf hg hpre hxy hpost _
    ((does_removeProperty hf.valid rfl key).bind (does_pure _)) ?_
  rw [hplist]
  exact (does_removeProperty hg.valid rfl key).bind (does_pure _)

/-- Copying takes marks from the nodes at one index. -/
theorem agree_copyProperties (i : Nat) :
    Agree t u v w
      (exec (nodeAt t i >>= fun source => do copyProperties x.id source; pure Reply.done) f)
      (exec (nodeAt u i >>= fun source => do copyProperties y.id source; pure Reply.done) g) := by
  have hfaces : (pre ++ x :: post).map Span.face = (pre' ++ y :: post').map Span.face := by
    rw [List.map_append, List.map_append, List.map_cons, List.map_cons, hpre, hxy, hpost]
  rcases index_cases (pre ++ x :: post) i with ⟨front, z, back, hz, rfl⟩ | hnone
  · obtain ⟨front', z', back', hz', hfront, hlike, -⟩ := cut_like hfaces hz
    obtain ⟨-, -, hflags, hplist⟩ := Span.face_eq hlike
    have hempty := (Span.face_eq hxy).2.2.2
    rw [exec_bind_ok (exec_nodeAt hf hz), length_like hfront, exec_bind_ok (exec_nodeAt hg hz')]
    obtain ⟨f', hexec, hf'⟩ := does_copyProperties (y := z) hf.valid rfl (by simp [hz]) f hf
    obtain ⟨g', hexec', hg'⟩ := does_copyProperties (y := z') hg.valid rfl (by simp [hz']) g hg
    rw [exec_bind_ok hexec, exec_bind_ok hexec']
    refine ⟨rfl, _, _, _, _, hf', hg', ?_⟩
    dsimp only
    rw [hempty, hflags, hplist]
    split
    · exact hfaces
    · rw [List.map_append, List.map_append, List.map_cons, List.map_cons, hpre, hpost,
        Span.marked_like hxy]
  · rw [exec_bind_error (exec_nodeAt_none hf hnone),
      exec_bind_error (exec_nodeAt_none hg (length_like hfaces ▸ hnone))]
    exact (twins_of_cut hf hg hpre hxy hpost).agree _

end Moves

/-- The outermost nodes of the root have the same index. -/
theorem agree_outermost (h : Twins t u v w f g) (s : Side) :
    Agree t u v w (exec (query t (.outermost s)) f) (exec (query u (.outermost s)) g) := by
  have hkeep := h
  obtain ⟨n, a, m, b, hf, hg, hab⟩ := h
  rw [query, exec_bind_ok (exec_get f), query, exec_bind_ok (exec_get g)]
  have root {t : TextId} {f : Forest} {v : Reading} (hf : f.Reads t v) :
      (f.tree (.text t)).id? = none ↔ v.spans = [] := by
    rw [← hf.shape.spans, Tree.spans_eq_nil]
    cases f.tree (.text t) <;> simp [Tree.id?, Tree.head?]
  cases hroot : (f.tree (.text t)).id? with
  | none =>
    have hroot' := (root hg).mpr ((isEmpty_like hab).mp ((root hf).mp hroot))
    rw [hroot']
    exact hkeep.agree _
  | some id =>
    have hne : ¬ a = [] := fun hnil => by simp [(root hf).mpr hnil] at hroot
    obtain ⟨id', hroot'⟩ : ∃ id', (g.tree (.text u)).id? = some id' :=
      Option.ne_none_iff_exists'.mp fun hnil => hne ((isEmpty_like hab).mpr ((root hg).mp hnil))
    rw [hroot']
    obtain ⟨x, hx, hexec⟩ := exec_outermost_root hf hroot s
    obtain ⟨y, hy, hexec'⟩ := exec_outermost_root hg hroot' s
    dsimp only
    rw [exec_bind_ok hexec, exec_bind_ok hexec']
    cases s with
    | left =>
      obtain ⟨rest, rfl⟩ := List.head?_eq_some_iff.mp hx
      obtain ⟨rest', rfl⟩ := List.head?_eq_some_iff.mp hy
      rw [List.map_cons, List.map_cons, List.cons.injEq] at hab
      exact agree_describe hf hg (List.nil_append _).symm (List.nil_append _).symm rfl hab.1 hab.2
    | right =>
      obtain ⟨rest, rfl⟩ := List.getLast?_eq_some_iff.mp hx
      obtain ⟨rest', rfl⟩ := List.getLast?_eq_some_iff.mp hy
      rw [List.map_append, List.map_append] at hab
      obtain ⟨hrest, hlast⟩ := List.append_inj' hab rfl
      exact agree_describe hf hg rfl rfl hrest (by simpa using hlast) rfl

/-! ## Edits -/

/-- Cutting a node agrees, and so do the pieces. -/
theorem agree_split (h : Twins t u v w f g) (s : Side) (i : Nat) (offset : Size) :
    Agree t u v w (exec (do describe t (← split s (← nodeAt t i) offset)) f)
      (exec (do describe u (← split s (← nodeAt u i) offset)) g) := by
  refine agree_nodeAt h i fun n pre x post m pre' y post' hf hg hpre hxy hpost => ?_
  have hlength := (Span.face_eq hxy).1
  by_cases hin : 0 < offset.toNat ∧ offset.toNat < x.length.toNat
  · obtain ⟨f', hexec, hf'⟩ := does_split hf.valid rfl s hin.1 hin.2 f hf
    obtain ⟨g', hexec', hg'⟩ := does_split hg.valid rfl s hin.1 (hlength ▸ hin.2) g hg
    rw [exec_bind_ok hexec, exec_bind_ok hexec']
    have hcut := Span.cut_like hxy s n m offset
    dsimp only at hf' hg'
    rw [Span.cut_eq] at hf' hg'
    rw [Span.cut_eq, Span.cut_eq] at hcut
    cases s with
    | left =>
      simp only [Side.pick_left, List.map_cons, List.map_nil, List.cons.injEq] at hcut
      have hpiece := agree_describe hf' hg'
        (show _ = pre ++ x.piece .left n offset :: x.rest .left offset :: post by simp)
        (show _ = pre' ++ y.piece .left m offset :: y.rest .left offset :: post' by simp)
        hpre hcut.1 (by simp [hcut.2.1, hpost])
      exact hpiece
    | right =>
      simp only [Side.pick_right, List.map_cons, List.map_nil, List.cons.injEq] at hcut
      have hpiece := agree_describe hf' hg'
        (show _ = (pre ++ [x.rest .right offset]) ++ x.piece .right n offset :: post by simp)
        (show _ = (pre' ++ [y.rest .right offset]) ++ y.piece .right m offset :: post' by simp)
        (by simp [hpre, hcut.1]) hcut.2.1 hpost
      exact hpiece
  · have hin' : ¬ (0 < offset.toNat ∧ offset.toNat < y.length.toNat) := by rwa [← hlength]
    obtain ⟨f', hexec, hf'⟩ := does_split_outside rfl s hin f hf
    obtain ⟨g', hexec', hg'⟩ := does_split_outside rfl s hin' g hg
    rw [exec_bind_error hexec, exec_bind_error hexec']
    exact (twins_of_cut hf' hg' hpre hxy hpost).agree _

/-- Merging a node agrees, and so do the nodes that take over. -/
theorem agree_merge (h : Twins t u v w f g) (s : Side) (i : Nat) :
    Agree t u v w (exec (do describe t (← merge s (← nodeAt t i))) f)
      (exec (do describe u (← merge s (← nodeAt u i))) g) := by
  refine agree_nodeAt h i fun n pre x post m pre' y post' hf hg hpre hxy hpost => ?_
  cases s with
  | left =>
    rcases List.eq_nil_or_concat pre with hnil | ⟨rest, z, rfl⟩
    · have hnil' := (isEmpty_like hpre).mp hnil
      obtain ⟨f', hexec, hf'⟩ := does_merge_left_first (show _ = x :: post by simp [hnil]) f hf
      obtain ⟨g', hexec', hg'⟩ := does_merge_left_first (show _ = y :: post' by simp [hnil']) g hg
      rw [exec_bind_error hexec, exec_bind_error hexec']
      exact (twins_of_cut hf' hg' hpre hxy hpost).agree _
    · obtain ⟨rest', z', back, rfl, hrest, hz, hback⟩ :=
        cut_like hpre (show _ = rest ++ [z] by simp)
      obtain rfl : back = [] := (isEmpty_like hback).mp rfl
      obtain ⟨f', hexec, hf'⟩ :=
        does_merge_left hf.valid (show _ = rest ++ z :: x :: post by simp) f hf
      obtain ⟨g', hexec', hg'⟩ :=
        does_merge_left hg.valid (show _ = rest' ++ z' :: y :: post' by simp) g hg
      rw [exec_bind_ok hexec, exec_bind_ok hexec']
      exact agree_describe hf' hg' (x := z.absorb .left x.length x.position)
        (y := z'.absorb .left y.length y.position) rfl rfl hrest (Span.absorb_like hz hxy .left)
        hpost
  | right =>
    cases post with
    | nil =>
      obtain rfl : post' = [] := (isEmpty_like hpost).mp rfl
      obtain ⟨f', hexec, hf'⟩ := does_merge_right_last rfl f hf
      obtain ⟨g', hexec', hg'⟩ := does_merge_right_last rfl g hg
      rw [exec_bind_error hexec, exec_bind_error hexec']
      exact (twins_of_cut hf' hg' hpre hxy hpost).agree _
    | cons z rest =>
      obtain ⟨front, z', rest', rfl, hfront, hz, hrest⟩ := cut_like hpost (List.nil_append _).symm
      obtain rfl : front = [] := (isEmpty_like hfront).mp rfl
      obtain ⟨f', hexec, hf'⟩ := does_merge_right hf.valid rfl f hf
      obtain ⟨g', hexec', hg'⟩ := does_merge_right hg.valid rfl g hg
      rw [exec_bind_ok hexec, exec_bind_ok hexec']
      exact agree_describe hf' hg' (x := z.absorb .right x.length x.position)
        (y := z'.absorb .right y.length y.position) rfl rfl hpre (Span.absorb_like hz hxy .right)
        hrest

/-- Removing a node agrees. -/
theorem agree_remove (h : Twins t u v w f g) (i : Nat) :
    Agree t u v w (exec (do remove (← nodeAt t i); pure Reply.done) f)
      (exec (do remove (← nodeAt u i); pure Reply.done) g) := by
  refine agree_nodeAt h i fun n pre x post m pre' y post' hf hg hpre hxy hpost => ?_
  cases post with
  | cons z rest =>
    obtain ⟨front, z', rest', rfl, hfront, hz, hrest⟩ := cut_like hpost (List.nil_append _).symm
    obtain rfl : front = [] := (isEmpty_like hfront).mp rfl
    obtain ⟨f', hexec, hf'⟩ := does_remove_right hf.valid rfl f hf
    obtain ⟨g', hexec', hg'⟩ := does_remove_right hg.valid rfl g hg
    rw [exec_bind_ok hexec, exec_bind_ok hexec']
    exact (twins_of_cut hf' hg' hpre (Span.absorb_like hz hxy .right) hrest).agree _
  | nil =>
    obtain rfl : post' = [] := (isEmpty_like hpost).mp rfl
    rcases List.eq_nil_or_concat pre with rfl | ⟨rest, z, rfl⟩
    · obtain rfl : pre' = [] := (isEmpty_like hpre).mp rfl
      obtain ⟨f', hexec, hf'⟩ := does_remove_only hf.valid rfl f hf
      obtain ⟨g', hexec', hg'⟩ := does_remove_only hg.valid rfl g hg
      rw [exec_bind_ok hexec, exec_bind_ok hexec']
      exact ⟨rfl, _, _, _, _, hf', hg', rfl⟩
    · obtain ⟨rest', z', back, rfl, hrest, hz, hback⟩ :=
        cut_like hpre (show _ = rest ++ [z] by simp)
      obtain rfl : back = [] := (isEmpty_like hback).mp rfl
      obtain ⟨f', hexec, hf'⟩ := does_remove_left hf.valid (show _ = rest ++ [z, x] by simp) f hf
      obtain ⟨g', hexec', hg'⟩ := does_remove_left hg.valid (show _ = rest' ++ [z', y] by simp) g hg
      rw [exec_bind_ok hexec, exec_bind_ok hexec']
      exact (twins_of_cut hf' hg' hrest (Span.absorb_like hz hxy .left) rfl).agree _

/-! ## Changes of shape -/

/-- To balance one of the texts leaves twins. -/
theorem twins_balance (h : Twins t u v w f g) :
    Twins t u v w (exec (balanceIntervals t) f).2 g := by
  obtain ⟨n, a, m, b, hf, hg, hab⟩ := h
  exact ⟨n, a, m, b, reads_balanceIntervals hf, hg, hab⟩

/-- To raise a child in place in one of the texts leaves twins. -/
theorem twins_rotate (h : Twins t u v w f g) (s : Side) (i : Nat) :
    Twins t u v w (exec (nodeAt t i >>= rotateInPlace s) f).2 g := by
  have hkeep := h
  obtain ⟨n, a, m, b, hf, hg, hab⟩ := h
  rcases index_cases a i with ⟨pre, x, post, rfl, rfl⟩ | hnone
  · obtain ⟨r, f', spans, hexec, hf', hfaces, -⟩ := exec_rotateInPlace hf rfl s
    rw [exec_bind_ok (exec_nodeAt hf rfl), hexec]
    exact ⟨n, spans, m, b, hf', hg, hfaces.trans hab⟩
  · rw [exec_bind_error (exec_nodeAt_none hf hnone)]
    exact hkeep

/-! ## Requests -/

variable (hstart : v.start = w.start) (hsize : v.size = w.size)

include hstart hsize

/-- **A query** agrees on twins. -/
theorem agree_query (h : Twins t u v w f g) (q : Query) :
    Agree t u v w (exec (query t q) f) (exec (query u q) g) := by
  cases q with
  | look i =>
    exact agree_nodeAt h i fun _ _ _ _ _ _ _ _ hf hg hpre hxy hpost =>
      agree_describe hf hg rfl rfl hpre hxy hpost
  | next i =>
    exact agree_nodeAt h i fun _ _ _ _ _ _ _ _ hf hg hpre hxy hpost =>
      agree_next hf hg hpre hxy hpost
  | prev i =>
    exact agree_nodeAt h i fun _ _ _ _ _ _ _ _ hf hg hpre hxy hpost =>
      agree_prev hf hg hpre hxy hpost
  | update i p =>
    exact agree_nodeAt h i fun _ _ _ _ _ _ _ _ hf hg hpre hxy hpost =>
      agree_update hf hg hpre hxy hpost hstart hsize p
  | outermost s => exact agree_outermost h s
  | setFlags i flags =>
    exact agree_nodeAt h i fun _ _ _ _ _ _ _ _ hf hg hpre hxy hpost =>
      agree_modifyData hf hg hpre hxy hpost fun _ plist => (flags, plist)
  | setPlist i plist =>
    exact agree_nodeAt h i fun _ _ _ _ _ _ _ _ hf hg hpre hxy hpost =>
      agree_modifyData hf hg hpre hxy hpost fun flags _ => (flags, plist)
  | put i key value =>
    exact agree_nodeAt h i fun _ _ _ _ _ _ _ _ hf hg hpre hxy hpost =>
      agree_modifyData hf hg hpre hxy hpost fun flags plist => (flags, plist.put key value)
  | removeProperty i key =>
    exact agree_nodeAt h i fun _ _ _ _ _ _ _ _ hf hg hpre hxy hpost =>
      agree_removeProperty hf hg hpre hxy hpost key
  | copyProperties i source =>
    exact agree_nodeAt h i fun _ _ _ _ _ _ _ _ hf hg hpre hxy hpost =>
      agree_copyProperties hf hg hpre hxy hpost source

variable {σ : Type}

/-- A script stays in step on twins. -/
theorem agree_follow (script : Script σ) (h : Twins t u v w f g) (s : σ) :
    InStep t u v w (exec (follow t script) (s, f)) (exec (follow u script) (s, g)) := by
  induction script generalizing s f g with
  | done s' => exact ⟨rfl, rfl, h⟩
  | fail e => exact ⟨rfl, rfl, h⟩
  | ask q next ih =>
    have hask (t : TextId) (f : Forest) : exec (attempt (query t q) : Client σ _) (s, f) =
        (.ok (exec (query t q) f).1, (s, (exec (query t q) f).2)) := rfl
    obtain ⟨hreply, htwins⟩ := agree_query hstart hsize h q
    rw [follow, follow, exec_bind_ok (hask t f), exec_bind_ok (hask u g), ← hreply]
    exact ih _ htwins s

/-- The visits to the nodes of two trees, from one index on, stay in step.
The induction is on the nodes that are left. -/
theorem agree_visits (visit : Nat → σ → Script σ) {frame frame' : Tree} (hd : frame.ids.Nodup)
    (hd' : frame'.ids.Nodup) {done todo done' todo' : List NodeId}
    (hids : frame.ids = done ++ todo) (hids' : frame'.ids = done' ++ todo')
    (hdone : done.length = done'.length) (htodo : todo.length = todo'.length)
    (h : Twins t u v w f g) (hf : (f.tree (.text t)).frame = frame)
    (hg : (g.tree (.text u)).frame = frame') (s : σ) :
    InStep t u v w (exec (forM todo (visiting t visit)) (s, f))
      (exec (forM todo' (visiting u visit)) (s, g)) := by
  induction todo generalizing todo' done done' f g s with
  | nil =>
    obtain rfl : todo' = [] := List.length_eq_zero_iff.mp htodo.symm
    exact ⟨rfl, rfl, h⟩
  | cons id rest ih =>
    cases todo' with
    | nil => simp at htodo
    | cons id' rest' =>
      have index {t : TextId} {f : Forest} {frame : Tree} {done rest : List NodeId} {id : NodeId}
          (hd : frame.ids.Nodup) (hids : frame.ids = done ++ id :: rest)
          (hf : (f.tree (.text t)).frame = frame) :
          exec (visiting t visit id) (s, f) = exec (follow t (visit done.length s)) (s, f) := by
        have hnot : id ∉ done := fun hmem => by
          rw [hids, List.nodup_append] at hd
          exact hd.2.2 id hmem id List.mem_cons_self rfl
        have hindex : (f.tree (.text t)).ids.idxOf id = done.length := by
          rw [← Tree.ids_frame, hf, hids, List.idxOf_append, if_neg hnot, List.idxOf_cons_self,
            Nat.zero_add]
        rw [← hindex]
        rfl
      have hhosts : f.Hosts t v ∧ g.Hosts u w := by
        obtain ⟨n, a, m, b, hr, hr', -⟩ := h
        exact ⟨⟨n, a, hr⟩, m, b, hr'⟩
      have hleft := index hd hids hf
      have hright := index hd' hids' hg
      rw [← hdone] at hright
      have hstep := agree_follow hstart hsize (visit done.length s) h s
      rw [← hleft, ← hright] at hstep
      rw [List.forM_cons, List.forM_cons]
      refine hstep.bind fun _ s₁ f₁ g₁ hx hy htwins => ?_
      have hframe := frame_follow (visit done.length s) hhosts.1 s
      have hframe' := frame_follow (visit done.length s) hhosts.2 s
      rw [← hleft, hx] at hframe
      rw [← hright, hy] at hframe'
      exact ih (show _ = (done ++ [id]) ++ rest by simp [hids])
        (show _ = (done' ++ [id']) ++ rest' by simp [hids']) (by simp [hdone])
        (by simpa using htodo) htwins (hframe.trans hf) (hframe'.trans hg) s₁

/-- Two traversals stay in step. -/
theorem agree_traverseIntervals (hv : v.Admits .write) (hw : w.Admits .write)
    (visit : Nat → σ → Script σ) (h : Twins t u v w f g) (s : σ) :
    InStep t u v w (exec (traverseIntervals t (visiting t visit)) (s, f))
      (exec (traverseIntervals u (visiting u visit)) (s, g)) := by
  obtain ⟨n, a, m, b, hf, hg, hab⟩ := h
  obtain ⟨word, f₁, hf₁, htree, hdone⟩ := exec_traverseIntervals hf hv
    (fun _ => considerate_visiting _ visit) s
  obtain ⟨word', g₁, hg₁, htree', hdone'⟩ := exec_traverseIntervals hg hw
    (fun _ => considerate_visiting _ visit) s
  have hsame : (a.map (·.id)).length = (b.map (·.id)).length := by
    simpa using length_like hab
  obtain ⟨hr, hs, n₂, a₂, m₂, b₂, hf₂, hg₂, hab₂⟩ :=
    agree_visits (v := { v with word }) (w := { w with word := word' }) hstart hsize visit
      (hf₁.ids_frame ▸ hf₁.valid.distinct) (hg₁.ids_frame ▸ hg₁.valid.distinct)
      (show _ = [] ++ _ from hf₁.ids_frame) (show _ = [] ++ _ from hg₁.ids_frame) rfl hsame
      ⟨n, a, m, b, hf₁, hg₁, hab⟩ rfl rfl s
  obtain ⟨f₃, hexec, hf₃, -⟩ := hdone _ _ _ { v with nextId := n₂, spans := a₂ } rfl hf₂ rfl rfl
  obtain ⟨g₃, hexec', hg₃, -⟩ := hdone' _ _ _ { w with nextId := m₂, spans := b₂ } rfl hg₂ rfl rfl
  rw [hexec, hexec']
  exact ⟨hr, hs, n₂, a₂, m₂, b₂, hf₃, hg₃, hab₂⟩

/-- A search of the text agrees: it ends at the same index, or is refused
with the same bounds. -/
theorem agree_findInterval (hv : v.Admits .write) (hw : w.Admits .write) (hf : f.Reads t v)
    (hg : g.Reads u w) (h : v.spans.map Span.face = w.spans.map Span.face) (p : Size) :
    Agree t u v w (exec (findInterval t p >>= describe t) f)
      (exec (findInterval u p >>= describe u) g) := by
  have hfinish := finish_like hstart hsize
  rcases Nat.eq_zero_or_pos v.size with hzero | hpos
  · obtain ⟨f', hexec, hf'⟩ := does_findInterval_empty hv hzero p f hf
    obtain ⟨g', hexec', hg'⟩ := does_findInterval_empty hw (hsize ▸ hzero) p g hg
    rw [exec_bind_error hexec, exec_bind_error hexec', hstart]
    exact ⟨rfl, _, _, _, _, hf', hg', h⟩
  · have hpos' : 0 < w.size := hsize ▸ hpos
    have hlike := rooted_like hstart hsize h
    obtain ⟨n, a, hr⟩ := rooted_eq v
    obtain ⟨m, b, hr'⟩ := rooted_eq w
    by_cases hin : v.start.toNat ≤ p.toNat ∧ p.toNat ≤ v.finish.toNat
    · have hvalid := valid_rooted hf.valid
      have hne := spans_rooted hpos
      rw [hr] at hvalid hne
      obtain ⟨pre, y, post, hy, hfinds⟩ := exists_finds hvalid hne hin.1 hin.2
      rw [hr, hr'] at hlike
      obtain ⟨pre', y', post', hy', hpre, hyy, hpost⟩ := cut_like hlike hy
      have hfinds' : Finds { w with nextId := m, spans := b } p y' post' :=
        hfinds.like hfinish hyy hpost
      obtain ⟨f', hexec, hf'⟩ := does_findInterval hv hpos (hr ▸ hy) (hr ▸ hfinds) f hf
      obtain ⟨g', hexec', hg'⟩ := does_findInterval hw hpos' (hr' ▸ hy') (hr' ▸ hfinds') g hg
      rw [exec_bind_ok hexec, exec_bind_ok hexec']
      exact agree_describe (hr ▸ hf') (hr' ▸ hg') hy hy' hpre hyy hpost
    · have hin' : ¬ (w.start.toNat ≤ p.toNat ∧ p.toNat ≤ w.finish.toNat) := by
        rwa [← hstart, ← hfinish]
      obtain ⟨f', hexec, hf'⟩ := does_findInterval_outside hv hpos hin f hf
      obtain ⟨g', hexec', hg'⟩ := does_findInterval_outside hw hpos' hin' g hg
      rw [exec_bind_error hexec, exec_bind_error hexec', hstart, hfinish]
      rw [hr, hr'] at hlike
      exact ⟨rfl, n, a, m, b, hr ▸ hf', hr' ▸ hg', hlike⟩

/-- **A request** stays in step on twins. -/
theorem agree_perform (hv : v.Admits .write) (hw : w.Admits .write)
    (h : Twins t u v w f g) (r : Request σ) (s : σ) :
    InStep t u v w (exec (perform t r) (s, f)) (exec (perform u r) (s, g)) := by
  have lift {α : Type} {op op' : Run α} (h : Agree t u v w (exec op f) (exec op' g)) :
      InStep t u v w (exec (liftM op : Client σ α) (s, f))
        (exec (liftM op' : Client σ α) (s, g)) := ⟨h.1, rfl, h.2⟩
  cases r with
  | query q => exact lift (agree_query hstart hsize h q)
  | findInterval p =>
    obtain ⟨n, a, m, b, hf, hg, hab⟩ := h
    exact lift (agree_findInterval (v := { v with nextId := n, spans := a })
      (w := { w with nextId := m, spans := b }) hstart hsize hv hw hf hg hab p)
  | split side i offset => exact lift (agree_split h side i offset)
  | merge side i => exact lift (agree_merge h side i)
  | remove i => exact lift (agree_remove h i)
  | traverse visit =>
    exact (agree_traverseIntervals hstart hsize hv hw visit h s).bind
      fun _ _ _ _ _ _ htwins => ⟨rfl, rfl, htwins⟩

/-- A run stays in step with the run of its requests alone. -/
theorem agree_runActions (hv : v.Admits .write) (hw : w.Admits .write)
    (as : List (Action σ)) (h : Twins t u v w f g) (s : σ) :
    InStep t u v w (runActions t as (s, f))
      (runActions u ((as.filterMap Action.request?).map .request) (s, g)) := by
  induction as generalizing f g s with
  | nil => exact ⟨rfl, rfl, h⟩
  | cons a rest ih =>
    cases a with
    | request r =>
      have hstep := agree_perform hstart hsize hv hw h r s
      rw [List.filterMap_cons_some (by rfl), List.map_cons, runActions, runActions]
      generalize exec (perform t r) (s, f) = x at hstep ⊢
      generalize exec (perform u r) (s, g) = y at hstep ⊢
      obtain ⟨answer, s₁, f₁⟩ := x
      obtain ⟨answer', s₂, g₁⟩ := y
      obtain ⟨hanswer, hs, htwins⟩ := hstep
      dsimp only at hanswer hs htwins
      subst hanswer hs
      obtain ⟨hanswers, hstate, hrest⟩ := ih htwins s₁
      exact ⟨congrArg (answer :: ·) hanswers, hstate, hrest⟩
    | balance => exact ih (twins_balance h) s
    | rotate side i => exact ih (twins_rotate h side i) s

end Run

/-! ## The shape of a tree -/

/-- What a span says apart from where it is. -/
def Span.look (x : Span) : Size × Flags × PropertyList := (x.length, x.flags, x.plist)

/-- Where spans start depends on their lengths alone. -/
theorem face_of_look {start : Nat} {a b : List Span} (ha : Placed start a) (hb : Placed start b)
    (h : a.map Span.look = b.map Span.look) : a.map Span.face = b.map Span.face := by
  refine map_eq_of_placed ha hb (fun _ _ hlook => congrArg Prod.fst hlook) ?_ h
  intro x y hlook hposition
  simp only [Span.look, Prod.mk.injEq] at hlook
  obtain ⟨hlength, hflags, hplist⟩ := hlook
  simp only [Span.face, hlength, hposition, hflags, hplist]

/-- **The shape of a tree is not observable.** Two texts with the same
start and size, whose nodes have the same lengths and marks from left to
right, answer the same requests alike, however their trees are shaped,
and their nodes are alike afterwards. What changes the shape may be put
anywhere into either run.

The end of the text has to be a word: the sum of its start and its size
is below 2⁶⁴ (`Reading.Valid.fits`, in `Forest.Reads`). Beyond that a walk
tells shapes apart (`shape_observed_at_the_brim`). -/
theorem shape_unobservable {σ : Type} {f g : Forest} {t u : TextId} {v w : Reading}
    (hf : f.Reads t v) (hg : g.Reads u w) (hv : v.Admits .write) (hw : w.Admits .write)
    (hstart : v.start = w.start) (hsize : v.size = w.size)
    (hlook : v.spans.map Span.look = w.spans.map Span.look) (as bs : List (Action σ))
    (hrequests : as.filterMap Action.request? = bs.filterMap Action.request?) (s : σ) :
    let (answers, s', f') := Run.runActions t as (s, f)
    let (answers', s'', g') := Run.runActions u bs (s, g)
    answers = answers' ∧ s' = s'' ∧
      (f'.tree (.text t)).spans.map Span.face = (g'.tree (.text u)).spans.map Span.face := by
  have hface := face_of_look hf.valid.placed (hstart ▸ hg.valid.placed) hlook
  -- both runs are compared with the requests alone, on the second forest
  obtain ⟨h₁, h₂, n, a, m, b, hf', hm, hab⟩ := Run.agree_runActions hstart hsize hv hw as
    ⟨_, _, _, _, hf, hg, hface⟩ s
  obtain ⟨h₁', h₂', n', a', m', b', hg', hm', hab'⟩ := Run.agree_runActions rfl rfl hw hw bs
    ⟨_, _, _, _, hg, hg, rfl⟩ s
  rw [hrequests] at h₁ h₂ hm
  have hspans := hm.shape.spans.symm.trans hm'.shape.spans
  dsimp only at hspans
  subst hspans
  refine ⟨h₁.trans h₁'.symm, h₂.trans h₂'.symm, ?_⟩
  rw [hf'.shape.spans, hg'.shape.spans]
  exact hab.trans hab'.symm

/-- A cut and the merge that takes it back, in the two trees with two
nodes. One is balanced in between, the other rotated before. -/
theorem shape_unobservable_of_two_nodes :
    let text (root : Tree) : Forest :=
      { nextId := 2, texts := [{ name := "a", beginOffset := 5, content := "abcdefgh", root }] }
    let f := text (.node { id := 0, link := .owner 0, data := { total := 8, position := 5 } } .nil
      (.node { id := 1, link := .node 0, data := { total := 5, position := 8 } } .nil .nil))
    let g := text (.node { id := 1, link := .owner 0, data := { total := 8, position := 8 } }
      (.node { id := 0, link := .node 1, data := { total := 3, position := 5 } } .nil .nil) .nil)
    let cut : Action Unit := .request (.split .right 1 2)
    let back : Action Unit := .request (.merge .left 2)
    (Run.runActions 0 [cut, .balance, back] ((), f)).1 =
      (Run.runActions 0 [.rotate .left 1, cut, back] ((), g)).1 := by
  intro text f g cut back
  have hreads {root : Tree} (hspans : root.spans = [⟨0, 3, 5, {}, {}⟩, ⟨1, 5, 8, {}, {}⟩])
      (hweighed : root.Weighed) (hlinked : root.Linked) (hlink : root.link? = some (.owner 0)) :
      (text root).Reads 0
        ⟨{}, 5, "abcdefgh", 0, 2, [⟨0, 3, 5, {}, {}⟩, ⟨1, 5, 8, {}, {}⟩]⟩ := by
    refine Forest.reads_of_single rfl rfl
      ⟨by decide, by decide, ⟨rfl, rfl, trivial⟩, fun _ => rfl, by decide, by decide⟩
      rfl rfl rfl rfl rfl ⟨hspans, hweighed, hlinked, fun link h => ⟨0, ?_, rfl⟩⟩
    simpa [hlink, eq_comm] using h
  have hf : f.Reads 0 _ := hreads rfl ⟨by decide, trivial, by decide, trivial, trivial⟩
    ⟨rfl, rfl, trivial, rfl, rfl, trivial, trivial⟩ rfl
  have hg : g.Reads 0 _ := hreads rfl ⟨by decide, ⟨by decide, trivial, trivial⟩, trivial⟩
    ⟨rfl, rfl, ⟨rfl, rfl, trivial, trivial⟩, trivial⟩ rfl
  exact (shape_unobservable hf hg (fun _ => rfl) (fun _ => rfl) rfl rfl rfl [cut, .balance, back]
    [.rotate .left 1, cut, back] rfl ()).1

/-- A text of six characters whose end wraps to 0. -/
def Text.brim (root : Tree) : Text where
  name := "a"
  beginOffset := 18446744073709551610
  content := "abcdef"
  root

/-- The text alone. -/
def Forest.brim (root : Tree) : Forest where
  nextId := 3
  texts := [.brim root]

/-- Three nodes of two characters each, with the first one as the root. -/
def Tree.steep : Tree :=
  .node { id := 0, link := .owner 0, data := { total := 6, position := 18446744073709551610 } } .nil
    (.node { id := 2, link := .node 0, data := { total := 4, position := 18446744073709551614 } }
      (.node { id := 1, link := .node 2, data := { total := 2, position := 18446744073709551612 } }
        .nil .nil) .nil)

/-- The same nodes, with the second one as the root. -/
def Tree.level : Tree :=
  .node { id := 1, link := .owner 0, data := { total := 6, position := 18446744073709551612 } }
    (.node { id := 0, link := .node 1, data := { total := 2, position := 18446744073709551610 } }
      .nil .nil)
    (.node { id := 2, link := .node 1, data := { total := 2, position := 18446744073709551614 } }
      .nil .nil)

/-- The trees cover the text, and their caches are exact. -/
theorem Forest.carries_brim {root : Tree} (h : root = .steep ∨ root = .level) :
    (Forest.brim root).Carries 0 (.brim root) ∧ root.Timed (Text.brim root).beginOffset := by
  have hwell : root.WellFormed := by
    rcases h with rfl | rfl <;> refine ⟨?_, ?_, by decide⟩ <;>
      simp only [Tree.steep, Tree.level, Tree.Weighed, Tree.Linked] <;> decide
  have hlink : root.link? = some (.owner 0) := by rcases h with rfl | rfl <;> rfl
  have htotal : root.total = 6 := by rcases h with rfl | rfl <;> rfl
  have hids : ∀ id ∈ root.ids, id < 3 := by rcases h with rfl | rfl <;> decide
  have hgrows : (Forest.brim root).Grows (.text 0) := by
    refine Forest.grows_of_single rfl rfl hwell (fun link hmem => ?_) ?_ hids
    · exact Option.some.inj (hmem.symm.trans hlink)
    · change root.total.toNat < 2 ^ 63
      rw [htotal]
      decide
  have hsmall : "abcdef".utf8ByteSize < 2 ^ 63 := by decide
  refine ⟨⟨rfl, hsmall, fun _ => htotal, hgrows⟩, ?_⟩
  rcases h with rfl | rfl <;> rfl

/-- **Where the end of a text wraps, the shape shows.** A walk goes from
the first node to where the second one starts. If the other nodes are
below the first, their end wraps to 0, so that the walk takes the position
to be outside and fails. If the second is the root, the walk finds it. -/
theorem shape_observed_at_the_brim :
    let walk : Action Unit := .request (.query (.update 0 18446744073709551612))
    (∀ root ∈ [Tree.steep, .level], (Forest.brim root).Carries 0 (.brim root) ∧
        root.Timed (Text.brim root).beginOffset) ∧
      Tree.steep.spans.map Span.look = Tree.level.spans.map Span.look ∧
      (Run.runActions 0 [walk] ((), .brim .steep)).1 ≠
        (Run.runActions 0 [walk] ((), .brim .level)).1 := by
  intro walk
  have hsteep : (Run.runActions 0 [walk] ((), .brim .steep)).1 = [.error (.range
      ⟨"interval::update", 18446744073709551612, 18446744073709551610, 18446744073709551615⟩)] := by
    rfl
  have hlevel : (Run.runActions 0 [walk] ((), .brim .level)).1 =
      [.ok (.node 1 ⟨2, 18446744073709551612, {}, {}⟩ 18446744073709551614)] := by
    rfl
  refine ⟨fun root hroot => Forest.carries_brim (by simpa using hroot), rfl, ?_⟩
  rw [hsteep, hlevel]
  simp

end SpanTree
