/-
SpanTree.Proofs.Errands — what a caller does with texts, traversals in
traversals included, and a log of it.

An `Errand` is the program of a caller. It makes tasks one after another
and sees what each of them gives, the failures among it, so that it can
catch them and go on; and it traverses texts, with an errand of its own
for every node that is visited. Which tasks there are is left open.

`Errand.follow` carries an errand out. It keeps a `Log` of every task and
every traversal that was made: with the forests before and after it, with
the texts that were being traversed around it, and for a traversal with
the nodes that it visited, the caches that the nodes had then, and how the
visits ended. The log does not change what is done. A theorem about all errands is a statement
about all entries of the log.
-/
import SpanTree.Proofs.Runs

namespace SpanTree

/-! ## Errands and their logs -/

/-- The program of a caller with a state, who makes tasks that give replies. -/
inductive Errand (ω ρ σ : Type) where
  /-- It is done, in a state. -/
  | done (s : σ)
  /-- It fails, in a state. -/
  | fail (s : σ) (e : Fault)
  /-- It makes a task and goes on by the reply or the failure. -/
  | ask (task : ω) (next : Except Fault ρ → Errand ω ρ σ)
  /-- It traverses a text. A visit gets the node and the state that the visit before left. -/
  | traverse (t : TextId) (s : σ) (visit : NodeId → σ → Errand ω ρ σ)
    (next : Except Fault Unit → σ → Errand ω ρ σ)

/-- A visit to a node that had a cache, and how it ended. -/
structure Visit where
  id : NodeId
  position : Size
  result : Except Fault Unit

/-- The course of a traversal that has nodes to visit at positions. It visits them one after
another, up to the first visit that fails, and it ends like the last visit. -/
inductive Course : List (NodeId × Size) → List Visit → Except Fault Unit → Prop where
  | done : Course [] [] (.ok ⟨⟩)
  | failed (x : NodeId × Size) (todo : List (NodeId × Size)) (e : Fault) :
    Course (x :: todo) [⟨x.1, x.2, .error e⟩] (.error e)
  | next {todo : List (NodeId × Size)} {visits : List Visit} {result : Except Fault Unit}
    (x : NodeId × Size) (rest : Course todo visits result) :
    Course (x :: todo) (⟨x.1, x.2, .ok ⟨⟩⟩ :: visits) result

namespace Course

variable {todo : List (NodeId × Size)} {visits : List Visit} {result : Except Fault Unit}

/-- What is visited comes first among what there was to visit, and at its positions. -/
theorem isPrefix (h : Course todo visits result) :
    visits.map (fun v => (v.id, v.position)) <+: todo := by
  induction h with
  | done => exact List.prefix_refl []
  | failed x todo e => exact ⟨todo, rfl⟩
  | next x _ ih => exact (List.prefix_cons_inj x).mpr ih

/-- All of it is visited if no visit fails, and then the traversal does not fail. -/
theorem all (h : Course todo visits result) (hok : ∀ v ∈ visits, v.result = .ok ⟨⟩) :
    visits.map (fun v => (v.id, v.position)) = todo ∧ result = .ok ⟨⟩ := by
  induction h with
  | done => exact ⟨rfl, rfl⟩
  | failed x todo e => cases hok _ List.mem_cons_self
  | next x _ ih =>
    obtain ⟨hmap, hresult⟩ := ih fun v hv => hok v (List.mem_cons_of_mem _ hv)
    exact ⟨by rw [List.map_cons, hmap], hresult⟩

end Course

/-- Something that was done, while the busy texts were being traversed. -/
inductive Entry (ω ρ : Type) where
  | task (busy : List TextId) (task : ω) (before : Forest) (result : Except Fault ρ)
    (after : Forest)
  | traversal (busy : List TextId) (t : TextId) (before : Forest) (result : Except Fault Unit)
    (after : Forest) (visits : List Visit)

/-- The state of a caller, the visits of the traversal that it is in, and what has been done. -/
structure Log (ω ρ σ : Type) where
  state : σ
  visits : List Visit := []
  entries : List (Entry ω ρ) := []

/-- The cache of a node. -/
def Forest.cache (f : Forest) (id : NodeId) : Size :=
  (((f.subtree? id).bind Tree.span?).map (·.position)).getD 0

/-! ## Tasks -/

/-- What a caller gets back. -/
inductive Response where
  | done
  | content (content : String)
  | size (length : Size)
  | text (t : TextId)
  | node (id : Option NodeId)
  | span (x : Span)
  | rotations (number : Nat)
  | found (there : Bool)

/-- A call of an operation of a text, other than a traversal. -/
inductive TextCall where
  | content (t : TextId)
  | intervals (t : TextId)
  | findInterval (t : TextId) (position : Size)
  | balanceIntervals (t : TextId)
  | checkIntervals (t : TextId)

namespace TextCall

def text : TextCall → TextId
  | content t => t
  | intervals t => t
  | findInterval t _ => t
  | balanceIntervals t => t
  | checkIntervals t => t

/-- The kind of the session that the operation opens. -/
def kind : TextCall → SessionKind
  | content _ => .read
  | intervals _ => .write
  | findInterval _ _ => .write
  | balanceIntervals _ => .write
  | checkIntervals _ => .read

def run : TextCall → Run Response
  | content t => do pure (.content (← Run.content t))
  | intervals t => do pure (.node (← Run.intervals t))
  | findInterval t position => do pure (.node (some (← Run.findInterval t position)))
  | balanceIntervals t => do pure (.rotations (← Run.balanceIntervals t))
  | checkIntervals t => do
    Run.checkIntervals t
    pure .done

end TextCall

/-- An edit of flags or properties. -/
inductive Mark where
  | setFlags (id : NodeId) (flags : Flags)
  | setPlist (id : NodeId) (plist : PropertyList)
  | put (id : NodeId) (key value : String)
  | removeProperty (id : NodeId) (key : String)
  | copyProperties (id source : NodeId)

def Mark.run : Mark → Run Response
  | .setFlags id flags => do
    Run.setFlags id flags
    pure .done
  | .setPlist id plist => do
    Run.setPlist id plist
    pure .done
  | .put id key value => do
    Run.put id key value
    pure .done
  | .removeProperty id key => do pure (.found (← Run.removeProperty id key))
  | .copyProperties id source => do
    Run.copyProperties id source
    pure .done

/-! ## Carrying out an errand -/

namespace Errand

variable {ω ρ σ : Type}

/-- Carries out an errand, given how a task is made, while texts are being traversed. -/
def follow (make : ω → Run ρ) : Errand ω ρ σ → List TextId → Client (Log ω ρ σ) Unit
  | done s, _ => fun (log, f) => (.ok ⟨⟩, ({ log with state := s }, f))
  | fail s e, _ => fun (log, f) => (.error e, ({ log with state := s }, f))
  | ask task next, busy => fun (log, f) =>
    let (result, g) := exec (make task) f
    let entries := log.entries ++ [.task busy task f result g]
    follow make (next result) busy ({ log with entries }, g)
  | traverse t s visit next, busy => fun (log, f) =>
    let visiting (id : NodeId) : Client (Log ω ρ σ) Unit := fun (log, f) =>
      let (result, log', g) := exec (follow make (visit id log.state) (t :: busy)) (log, f)
      (result, ({ log' with visits := log'.visits ++ [⟨id, f.cache id, result⟩] }, g))
    let (result, inner, g) :=
      exec (Run.traverseIntervals t visiting) ({ log with state := s, visits := [] }, f)
    let entries := inner.entries ++ [.traversal busy t f result g inner.visits]
    follow make (next result inner.state) busy ({ inner with visits := log.visits, entries }, g)

/-- The log of an errand that is carried out on a forest. -/
def log (make : ω → Run ρ) (errand : Errand ω ρ σ) (s : σ) (f : Forest) : List (Entry ω ρ) :=
  (exec (errand.follow make []) ({ state := s }, f)).2.1.entries

/-- A visit of a traversal, which notes the node with its cache. -/
def visiting (make : ω → Run ρ) (visit : NodeId → σ → Errand ω ρ σ) (busy : List TextId)
    (id : NodeId) : Client (Log ω ρ σ) Unit := fun (log, f) =>
  let (result, log', g) := exec (follow make (visit id log.state) busy) (log, f)
  (result, ({ log' with visits := log'.visits ++ [⟨id, f.cache id, result⟩] }, g))

variable {make : ω → Run ρ} {f g : Forest} {busy : List TextId} {log : Log ω ρ σ}

/-- A task is made and logged. -/
theorem exec_ask {task : ω} {next : Except Fault ρ → Errand ω ρ σ} {r : Except Fault ρ}
    (h : exec (make task) f = (r, g)) :
    exec ((ask task next).follow make busy) (log, f) =
      exec ((next r).follow make busy)
        ({ log with entries := log.entries ++ [.task busy task f r g] }, g) := by
  obtain ⟨rfl, rfl⟩ := Prod.ext_iff.mp h
  rfl

/-- A visit is made and noted. -/
theorem exec_visiting {visit : NodeId → σ → Errand ω ρ σ} {id : NodeId} {log' : Log ω ρ σ}
    {r : Except Fault Unit}
    (h : exec ((visit id log.state).follow make busy) (log, f) = (r, log', g)) :
    exec (visiting make visit busy id) (log, f) =
      (r, ({ log' with visits := log'.visits ++ [⟨id, f.cache id, r⟩] }, g)) := by
  obtain ⟨rfl, hrest⟩ := Prod.ext_iff.mp h
  obtain ⟨rfl, rfl⟩ := Prod.ext_iff.mp hrest
  rfl

/-- A traversal is made and logged, after all that its visits log. -/
theorem exec_traverse {t : TextId} {s : σ} {visit : NodeId → σ → Errand ω ρ σ}
    {next : Except Fault Unit → σ → Errand ω ρ σ} {r : Except Fault Unit} {inner : Log ω ρ σ}
    (h : exec (Run.traverseIntervals t (visiting make visit (t :: busy)))
      ({ log with state := s, visits := [] }, f) = (r, inner, g)) :
    exec ((traverse t s visit next).follow make busy) (log, f) =
      exec ((next r inner.state).follow make busy)
        ({ inner with
            visits := log.visits
            entries := inner.entries ++ [.traversal busy t f r g inner.visits] }, g) := by
  obtain ⟨rfl, hrest⟩ := Prod.ext_iff.mp h
  obtain ⟨rfl, rfl⟩ := Prod.ext_iff.mp hrest
  rfl

/-! ## Growth of the log -/

/-- What was logged stays logged. -/
def Grows {α : Type} (x : Client (Log ω ρ σ) α) : Prop :=
  ∀ log f, log.entries <+: (exec x (log, f)).2.1.entries

namespace Grows

variable {α β : Type} {x : Client (Log ω ρ σ) α}

protected theorem pure (a : α) : Grows (pure a : Client (Log ω ρ σ) α) :=
  fun log _ => List.prefix_refl log.entries

protected theorem liftM (y : Run α) : Grows (liftM y : Client (Log ω ρ σ) α) :=
  fun log _ => List.prefix_refl log.entries

protected theorem bind {k : α → Client (Log ω ρ σ) β} (hx : Grows x) (hk : ∀ a, Grows (k a)) :
    Grows (x >>= k) := by
  intro log f
  have hfirst := hx log f
  rw [exec_bind]
  generalize exec x (log, f) = y at hfirst
  obtain ⟨r, log', g⟩ := y
  cases r with
  | error e => exact hfirst
  | ok a => exact hfirst.trans (hk a log' g)

theorem traverseLoop {visit : NodeId → Client (Log ω ρ σ) Unit} (hvisit : ∀ id, Grows (visit id))
    (fuel : Nat) (stack : List NodeId) (position : Size) :
    Grows (Run.traverseLoop visit fuel stack position) := by
  induction fuel generalizing stack position with
  | zero =>
    cases stack with
    | nil => exact .pure _
    | cons id rest => exact .liftM _
  | succ fuel ih =>
    cases stack with
    | nil => exact .pure _
    | cons id rest =>
      have hafter (length : Size) := (Grows.liftM (Run.subtree id)).bind fun after =>
        ih (((after.child .right).spine .left).reverse ++ rest) (position + length)
      have hcall (length : Size) := (hvisit id).bind fun _ => hafter length
      exact (Grows.liftM _).bind fun length => (Grows.liftM _).bind fun _ => hcall length

theorem withSession (hx : Grows x) (t : TextId) (kind : SessionKind) :
    Grows (Run.withSession t kind x) := by
  intro log f
  rcases hopen : exec (Run.openSession t kind) f with ⟨r, g⟩
  cases r with
  | error e =>
    have hrefused : exec (Run.withSession t kind x) (log, f) = (.error e, (log, g)) :=
      exec_liftM_bind_error hopen
    exact hrefused ▸ List.prefix_refl log.entries
  | ok _ =>
    rw [Run.exec_withSession_client hopen]
    exact hx log g

theorem traverseIntervals {visit : NodeId → Client (Log ω ρ σ) Unit}
    (hvisit : ∀ id, Grows (visit id)) (t : TextId) : Grows (Run.traverseIntervals t visit) := by
  refine Grows.withSession ((Grows.liftM _).bind fun x => ?_) t .write
  cases x.root.id? with
  | none => exact .pure _
  | some root => exact (Grows.liftM _).bind fun site => traverseLoop hvisit _ _ _

end Grows

/-- A visit grows the log as its errand does. -/
theorem grows_visiting {visit : NodeId → σ → Errand ω ρ σ}
    (h : ∀ id s, Grows ((visit id s).follow make busy)) (id : NodeId) :
    Grows (visiting make visit busy id) := by
  intro log f
  have hgrows := h id log.state log f
  generalize hmade : exec ((visit id log.state).follow make busy) (log, f) = made at hgrows
  obtain ⟨r, log', g⟩ := made
  rw [exec_visiting hmade]
  exact hgrows

/-- **The log** of an errand grows. -/
theorem grows_follow (errand : Errand ω ρ σ) (busy : List TextId) :
    Grows (errand.follow make busy) := by
  induction errand generalizing busy with
  | done s => exact fun log _ => List.prefix_refl log.entries
  | fail s e => exact fun log _ => List.prefix_refl log.entries
  | ask task next ih =>
    intro log f
    generalize hmade : exec (make task) f = made
    obtain ⟨r, g⟩ := made
    have hrest := ih r busy { log with entries := log.entries ++ [.task busy task f r g] } g
    rw [exec_ask hmade]
    exact (List.prefix_append _ _).trans hrest
  | traverse t s visit next ihvisit ihnext =>
    intro log f
    have hvisiting := grows_visiting fun id s => ihvisit id s (t :: busy)
    have hgrows := Grows.traverseIntervals hvisiting t { log with state := s, visits := [] } f
    generalize hmade : exec (Run.traverseIntervals t (visiting make visit (t :: busy)))
      ({ log with state := s, visits := [] }, f) = made at hgrows
    obtain ⟨r, inner, g⟩ := made
    have hrest := ihnext r inner.state busy
      { inner with
          visits := log.visits
          entries := inner.entries ++ [.traversal busy t f r g inner.visits] } g
    rw [exec_traverse hmade]
    exact (hgrows.trans (List.prefix_append _ _)).trans hrest

end Errand

end SpanTree
