/-
SpanTree.Forest.Texts — the operations of a text.

Each operation of a text is one access to its tree as a whole and opens
a session on the text's tracker for as long as it lasts. A refused
session is a failure, and nothing else happens. A session is closed
however the operation ends. The operations on single nodes open none.

A traversal calls back for every node it visits. `traverse` keeps the
nodes still to be visited on a stack, as identities: what a node holds
on its right is looked up after the call for the node, when the call may
have rebalanced the tree. Nodes may then be visited again, at most the
whole tree for every node on the stack, and the fuel leaves room for
this. The call may be made in any monad that the operations on the
forest lift to, so that the caller's own state and failures go along.
-/
import SpanTree.Forest.Moves
import SpanTree.Forest.Nodes

namespace SpanTree

namespace Run

/-! ## Sessions -/

/-- Opens a session on the tracker of a text. -/
def openSession (t : TextId) (kind : SessionKind) : Run Unit := do
  let x ← text t
  if (← get).settings.tracking then
    match x.access.openSession kind with
    | .ok access => modifyText t fun x => { x with access }
    | .error o => throw (.overlap o)

/-- Closes a session on the tracker of a text. -/
def closeSession (t : TextId) (kind : SessionKind) : Run Unit := do
  if (← get).settings.tracking then
    modifyText t fun x => { x with access := x.access.close kind }

/-- Runs in a session on the tracker of a text. -/
def withSession {m : Type → Type} [Monad m] [MonadFinally m] [MonadLiftT Run m] {α : Type}
    (t : TextId) (kind : SessionKind) (body : m α) : m α := do
  liftM (openSession t kind)
  tryFinally body (liftM (closeSession t kind))

/-! ## Operations of a text -/

/-- Makes a text with a first position and characters, and without a tree. -/
def newText (name : String) (beginOffset : Size) (content : String) : Run TextId := do
  let f ← get
  let x : Text := { name, beginOffset, content, access := .idle f.settings.history }
  set { f with texts := f.texts ++ [x] }
  pure f.texts.length

/-- The structural check of a text: its tree is linked to it, covers it, and passes. -/
def checkText (t : TextId) : Run Unit := do
  let x ← text t
  match x.root with
  | .nil => pure ()
  | .node n _ _ =>
    require (n.link = .owner t) .rootUnlinked
    require (n.data.total = x.length) .textUncovered
    match x.root.check with
    | .ok _ => pure ()
    | .error v => violate v

/-- The structural check, where it is switched on. -/
def verify (t : TextId) : Run Unit := do
  if (← get).settings.verifying then checkText t

/-- The root of a text, made if the text has characters and no tree. -/
def ensureRoot (t : TextId) : Run (Option NodeId) := do
  let x ← text t
  if x.root.isNil && 0 < x.length then
    pure (some (← createRoot t))
  else pure x.root.id?

/-- The characters of a text. -/
def content (t : TextId) : Run String :=
  withSession t .read do pure (← text t).content

/-- The root of a text, made on first use. -/
def intervals (t : TextId) : Run (Option NodeId) :=
  withSession t .write (ensureRoot t)

/-- The node that contains an absolute position of a text. -/
def findInterval (t : TextId) (position : Size) : Run NodeId :=
  withSession t .write do
    match ← ensureRoot t with
    | none =>
      let start := (← text t).beginOffset
      throw (.range
        { operation := "basic_text::find_interval", position, first := start, last := start })
    | some root =>
      let found ← find root position
      verify t
      pure found

/-- Balances the whole tree of a text. Gives the number of rotations. -/
def balanceIntervals (t : TextId) : Run Nat :=
  withSession t .write do
    if (← text t).root.isNil then pure 0
    else
      profiled "basic_text::balance_intervals" do
        let rotations ← conclude (.text t) (← text t).root.balance
        addRotations rotations
        verify t
        pure rotations

/-- The structural check of a text. -/
def checkIntervals (t : TextId) : Run Unit := withSession t .read (checkText t)

/-! ## Traversals -/

variable {m : Type → Type} [Monad m] [MonadLiftT Run m]

/-- Visits what a stack of nodes stands for: each node, and then what is on its right.
The fuel bounds the number of visits. -/
def traverseLoop (visit : NodeId → m Unit) : Nat → List NodeId → Size → m Unit
  | _, [], _ => pure ()
  | 0, _ :: _, _ => liftM (throw (.breach .unending) : Run Unit)
  | fuel + 1, id :: rest, position => do
    let length ← liftM (do pure (← span id).length : Run Size)
    liftM (modifyNode id (·.withPosition position))
    visit id
    let after ← liftM (subtree id)
    traverseLoop visit fuel (((after.child .right).spine .left).reverse ++ rest)
      (position + length)

/-- Visits the subtree of a node from left to right and sets the caches from a position on. -/
def traverse (id : NodeId) (position : Size) (visit : NodeId → m Unit) : m Unit := do
  let site ← liftM (locate id)
  let nodes := site.cursor.toTree.size + 1
  traverseLoop visit (nodes * nodes * nodes) (site.cursor.subtree.spine .left).reverse position

/-- Visits what a stack of nodes stands for: each node, then its left and its right subtree. -/
def traverseUnorderedLoop (visit : NodeId → m Unit) : Nat → List NodeId → m Unit
  | _, [] => pure ()
  | 0, _ :: _ => liftM (throw (.breach .unending) : Run Unit)
  | fuel + 1, id :: rest => do
    let here ← liftM (subtree id)
    visit id
    traverseUnorderedLoop visit fuel
      ((here.child .left).id?.toList ++ (here.child .right).id?.toList ++ rest)

/-- Visits the subtree of a node, each node before its subtrees. The caches stay. -/
def traverseUnordered (id : NodeId) (visit : NodeId → m Unit) : m Unit := do
  let site ← liftM (locate id)
  let nodes := site.cursor.toTree.size + 1
  traverseUnorderedLoop visit (nodes * nodes * nodes) [id]

/-- Visits the whole tree of a text from left to right, in one write session. -/
def traverseIntervals [MonadFinally m] (t : TextId) (visit : NodeId → m Unit) : m Unit :=
  withSession t .write do
    let x ← liftM (text t)
    match x.root.id? with
    | some root => traverse root x.beginOffset visit
    | none => pure ()

end Run

end SpanTree
