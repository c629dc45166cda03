/-
SpanTree.Proofs.Requests — a client who addresses nodes by their index.

What a client sees of a tree from outside is the order of its nodes. A
`Request` names a node by its index from left to right, and a `Reply`
does the same. A `Query` is a request that a traversal may make while it
visits a node; what a visit does is a `Script`, whose next query may
depend on the replies, the failures among them.

Beside its requests a run may balance the text and rotate nodes in place
(`Action`). Nothing is replied to these.
-/
import SpanTree.Forest.Edits
import SpanTree.Proofs.Clients

namespace SpanTree

/-! ## Requests and replies -/

/-- A request that restructures nothing. Nodes are named by their index. -/
inductive Query where
  /-- To look at a node. -/
  | look (i : Nat)
  | next (i : Nat)
  | prev (i : Nat)
  | update (i : Nat) (position : Size)
  /-- The outermost node on a side of the root. -/
  | outermost (s : Side)
  | setFlags (i : Nat) (flags : Flags)
  | setPlist (i : Nat) (plist : PropertyList)
  | put (i : Nat) (key value : String)
  | removeProperty (i : Nat) (key : String)
  | copyProperties (i source : Nat)

/-- What a client gets back. -/
inductive Reply where
  /-- A node: its index, what its span says, and the end of the span. -/
  | node (index : Nat) (face : Face) (ending : Size)
  /-- There is no such node. -/
  | none
  /-- Whether something was there. -/
  | found (there : Bool)
  | done
deriving DecidableEq, Repr

/-- What a client does at a visit: it is done, it fails, or it makes a
query and goes on by the reply or the failure. -/
inductive Script (σ : Type) where
  | done (s : σ)
  | fail (e : Fault)
  | ask (q : Query) (next : Except Fault Reply → Script σ)

/-- A request to a text. -/
inductive Request (σ : Type) where
  | query (q : Query)
  | findInterval (position : Size)
  | split (s : Side) (i : Nat) (offset : Size)
  | merge (s : Side) (i : Nat)
  | remove (i : Nat)
  /-- A traversal; a visit gets the index of the node and the state of the client. -/
  | traverse (visit : Nat → σ → Script σ)

/-- A step of a run: a request, or a change of shape that is not replied to. -/
inductive Action (σ : Type) where
  | request (r : Request σ)
  | balance
  | rotate (s : Side) (i : Nat)

/-- The request of an action, if it is one. -/
def Action.request? {σ : Type} : Action σ → Option (Request σ)
  | .request r => some r
  | _ => none

namespace Run

/-! ## Performing them -/

/-- The node at an index. -/
def nodeAt (t : TextId) (i : Nat) : Run NodeId := do
  match ((← get).tree (.text t)).ids[i]? with
  | some id => pure id
  | none => throw (.breach .lostNode)

/-- What a client sees of a node. -/
def describe (t : TextId) (id : NodeId) : Run Reply := do
  let spans := ((← get).tree (.text t)).spans
  let i := spans.findIdx (·.id == id)
  match spans[i]? with
  | some x => pure (.node i x.face (x.position + x.length))
  | none => throw (.breach .lostNode)

/-- What a client sees of a node, if there is one. -/
def describe? (t : TextId) : Option NodeId → Run Reply
  | some id => describe t id
  | none => pure .none

/-- Answers a query. -/
def query (t : TextId) : Query → Run Reply
  | .look i => do describe t (← nodeAt t i)
  | .next i => do describe? t (← next (← nodeAt t i))
  | .prev i => do describe? t (← prev (← nodeAt t i))
  | .update i position => do describe t (← update (← nodeAt t i) position)
  | .outermost s => do
    match ((← get).tree (.text t)).id? with
    | some root => describe t (← outermost s root)
    | none => pure .none
  | .setFlags i flags => do
    setFlags (← nodeAt t i) flags
    pure .done
  | .setPlist i plist => do
    setPlist (← nodeAt t i) plist
    pure .done
  | .put i key value => do
    put (← nodeAt t i) key value
    pure .done
  | .removeProperty i key => do pure (.found (← removeProperty (← nodeAt t i) key))
  | .copyProperties i source => do
    copyProperties (← nodeAt t i) (← nodeAt t source)
    pure .done

variable {σ : Type}

/-- Runs an operation whose failure the client catches. -/
def attempt {α : Type} (x : Run α) : Client σ (Except Fault α) :=
  fun (s, f) => (.ok (exec x f).1, (s, (exec x f).2))

/-- Leaves the client in another state. -/
def become (s : σ) : Client σ Unit := fun (_, f) => (.ok ⟨⟩, (s, f))

/-- Follows a script. -/
def follow (t : TextId) : Script σ → Client σ Unit
  | .done s => become s
  | .fail e => throw e
  | .ask q next => do follow t (next (← attempt (query t q)))

/-- A visit to a node. -/
def visiting (t : TextId) (visit : Nat → σ → Script σ) (id : NodeId) : Client σ Unit :=
  fun (s, f) => follow t (visit ((f.tree (.text t)).ids.idxOf id) s) (s, f)

/-- Answers a request. -/
def perform (t : TextId) : Request σ → Client σ Reply
  | .query q => liftM (query t q)
  | .findInterval position => liftM do describe t (← findInterval t position)
  | .split s i offset => liftM do describe t (← split s (← nodeAt t i) offset)
  | .merge s i => liftM do describe t (← merge s (← nodeAt t i))
  | .remove i => liftM do
    remove (← nodeAt t i)
    pure .done
  | .traverse visit => do
    traverseIntervals t (visiting t visit)
    pure .done

/-- Runs actions one after another, whether or not they fail. Gives the
answers to the requests among them. -/
def runActions (t : TextId) : List (Action σ) → σ × Forest →
    List (Except Fault Reply) × (σ × Forest)
  | [], x => ([], x)
  | .request r :: rest, x =>
    let (answer, x) := exec (perform t r) x
    let (answers, x) := runActions t rest x
    (answer :: answers, x)
  | .balance :: rest, (s, f) => runActions t rest (s, (exec (balanceIntervals t) f).2)
  | .rotate side i :: rest, (s, f) =>
    runActions t rest (s, (exec (do rotateInPlace side (← nodeAt t i)) f).2)

/-! ## What they do -/

variable {t : TextId} {v : Reading} {f : Forest} {pre post : List Span} {x : Span}

theorem findIdx_cut (hd : ((pre ++ x :: post).map (·.id)).Nodup) :
    (pre ++ x :: post).findIdx (·.id == x.id) = pre.length := by
  induction pre with
  | nil => simp [List.findIdx_cons]
  | cons y rest ih =>
    rw [List.cons_append, List.map_cons, List.nodup_cons] at hd
    have hne : (y.id == x.id) = false := beq_false_of_ne fun h => hd.1 (by simp [h])
    rw [List.cons_append, List.findIdx_cons, hne, ih hd.2]
    rfl

/-- The node at the index of a span. -/
theorem exec_nodeAt (hf : f.Reads t v) (hcut : v.spans = pre ++ x :: post) :
    exec (nodeAt t pre.length) f = (.ok x.id, f) := by
  rw [nodeAt, exec_bind_ok (exec_get f), hf.ids, Reading.ids, hcut]
  simp

/-- Beyond the last span there is no node. -/
theorem exec_nodeAt_none (hf : f.Reads t v) {i : Nat} (h : v.spans.length ≤ i) :
    exec (nodeAt t i) f = (.error (.breach .lostNode), f) := by
  rw [nodeAt, exec_bind_ok (exec_get f), hf.ids,
    List.getElem?_eq_none (by simpa [Reading.ids] using h), exec_throw]

/-- What a client sees of the node of a span. -/
theorem exec_describe (hf : f.Reads t v) (hcut : v.spans = pre ++ x :: post) :
    exec (describe t x.id) f = (.ok (.node pre.length x.face (x.position + x.length)), f) := by
  have hd := hf.valid.distinct
  rw [Reading.ids, hcut] at hd
  rw [describe, exec_bind_ok (exec_get f), hf.shape.spans, hcut]
  dsimp only
  rw [findIdx_cut hd, List.getElem?_append_right (Nat.le_refl _), Nat.sub_self]
  rfl

/-- An index names a span, or lies beyond the last one. -/
theorem index_cases (spans : List Span) (i : Nat) :
    (∃ pre x post, spans = pre ++ x :: post ∧ pre.length = i) ∨ spans.length ≤ i := by
  rcases Nat.lt_or_ge i spans.length with h | h
  · refine .inl ⟨spans.take i, spans[i], spans.drop (i + 1), ?_, by simp; omega⟩
    rw [List.getElem_cons_drop, List.take_append_drop]
  · exact .inr h

/-! ## Scripts are quiet -/

theorem describe_same (t : TextId) (id : NodeId) (f : Forest) : (exec (describe t id) f).2 = f := by
  rw [describe, exec_bind_ok (exec_get f)]
  dsimp only
  split <;> rfl

theorem describe?_same (t : TextId) (id : Option NodeId) (f : Forest) :
    (exec (describe? t id) f).2 = f := by
  cases id with
  | none => rfl
  | some id => exact describe_same t id f

theorem outermost_same (s : Side) (id : NodeId) (f : Forest) :
    (exec (outermost s id) f).2 = f := by
  rcases exec_locate_cases id f with ⟨site, h⟩ | ⟨e, h⟩
  · rw [outermost, exec_bind_ok h, exec_pure]
  · rw [outermost, exec_bind_error h]

/-- An operation on a live node, looked up by its index, is quiet if the
operation is. -/
theorem quiet_nodeAt {α : Type} (i : Nat) {op : NodeId → Run α}
    (h : ∀ id ∈ (f.tree (.text t)).ids,
      (exec (op id) f).2 = f ∨ Quiet t f (exec (op id) f).2) :
    (exec (nodeAt t i >>= op) f).2 = f ∨ Quiet t f (exec (nodeAt t i >>= op) f).2 := by
  cases hi : (f.tree (.text t)).ids[i]? with
  | none =>
    rw [exec_bind_error (by rw [nodeAt, exec_bind_ok (exec_get f), hi, exec_throw])]
    exact .inl rfl
  | some id =>
    rw [exec_bind_ok (by rw [nodeAt, exec_bind_ok (exec_get f), hi, exec_pure])]
    exact h id (List.mem_of_getElem? hi)

/-- **A query** is a quiet step, or changes nothing. -/
theorem quiet_query (t : TextId) (q : Query) (f : Forest) :
    (exec (query t q) f).2 = f ∨ Quiet t f (exec (query t q) f).2 := by
  have same {α β : Type} {x : Run α} {k : α → Run β} (hk : ∀ a s, (exec (k a) s).2 = s)
      (hx : Quiet t f (exec x f).2) : Quiet t f (exec (x >>= k) f).2 := by
    rwa [exec_bind_same hk]
  cases q with
  | look i => exact quiet_nodeAt i fun id _ => .inl (describe_same t id f)
  | next i =>
    exact quiet_nodeAt i fun id live => .inr (same (describe?_same t) (.moving (.next live)))
  | prev i =>
    exact quiet_nodeAt i fun id live => .inr (same (describe?_same t) (.moving (.prev live)))
  | update i p =>
    exact quiet_nodeAt i fun id live => .inr (same (describe_same t) (.moving (.update live p)))
  | outermost s =>
    refine .inl ?_
    rw [query, exec_bind_ok (exec_get f)]
    split
    · rw [exec_bind_same (describe_same t), outermost_same]
    · rfl
  | setFlags i flags =>
    exact quiet_nodeAt i fun id live => .inr (same (fun _ _ => rfl) (.setFlags live flags))
  | setPlist i plist =>
    exact quiet_nodeAt i fun id live => .inr (same (fun _ _ => rfl) (.setPlist live plist))
  | put i key value =>
    exact quiet_nodeAt i fun id live => .inr (same (fun _ _ => rfl) (.put live key value))
  | removeProperty i key =>
    exact quiet_nodeAt i fun id live => .inr (same (fun _ _ => rfl) (.removeProperty live key))
  | copyProperties i source =>
    exact quiet_nodeAt i fun id live => quiet_nodeAt source fun from' _ =>
      .inr (same (fun _ _ => rfl) (.copyProperties live from'))

/-- A script is a finite sequence of quiet steps. -/
theorem quiet_follow (t : TextId) (script : Script σ) (s : σ) (f : Forest) :
    Relation.ReflTransGen (Quiet t) f (exec (follow t script) (s, f)).2.2 := by
  induction script generalizing s f with
  | done s' => exact .refl
  | fail e => exact .refl
  | ask q next ih =>
    have hnext := ih (exec (query t q) f).1 s (exec (query t q) f).2
    have hask : exec (attempt (query t q) : Client σ _) (s, f) =
        (.ok (exec (query t q) f).1, (s, (exec (query t q) f).2)) := rfl
    rw [follow, exec_bind_ok hask]
    rcases quiet_query t q f with h | h
    · rwa [h] at hnext ⊢
    · exact .head h hnext

/-- A script keeps the frame of the tree. -/
theorem frame_follow (script : Script σ) (hf : f.Hosts t v) (s : σ) :
    ((exec (follow t script) (s, f)).2.2.tree (.text t)).frame = (f.tree (.text t)).frame :=
  (kept_by_steps (P := fun f' => f'.Framed t v (f.tree (.text t)).frame)
    (fun _ _ => framed_of_quiet) ⟨hf, rfl⟩ (quiet_follow t script s f)).frame

/-- A client who follows scripts is considerate. -/
theorem considerate_visiting (frame : Tree) (visit : Nat → σ → Script σ) :
    Considerate t v frame (visiting t visit) := fun _ _ s f hf =>
  kept_by_steps (P := fun f => f.Framed t v frame) (fun _ _ => framed_of_quiet) hf
    (quiet_follow t (visit _ s) s f)

end Run

end SpanTree
