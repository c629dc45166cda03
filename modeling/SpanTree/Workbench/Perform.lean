/-
SpanTree.Workbench.Perform — carrying out a script.

Each step starts with an empty profile. A failed step leaves what it had
already changed, and the script goes on. The step that a traversal makes
at its visits runs with the visited node as the current one.
-/
import SpanTree.Forest.Edits
import SpanTree.Workbench.Bench

namespace SpanTree.Workbench

/-- A caller's label, which ends at its first NUL. -/
def label (s : String) : String := String.ofList (s.toList.takeWhile (· ≠ '\x00'))

namespace Script

/-- The fault of a part of a step as a value. -/
def attempt {α : Type} (x : Script α) : Script (Except Fault α) :=
  tryCatch (do pure (.ok (← x))) fun
    | .fault f => pure (.error f)
    | .refusal r => refuse r

/-- What a script says, if it can be read. -/
def readable {α : Type} : Except Refusal α → Script α
  | .ok a => pure a
  | .error r => refuse r

/-! ## Trees to be built -/

/-- Builds a tree of new nodes. -/
def grow : Sprout → Run Tree
  | .none => pure .nil
  | .leaf total => do pure (.node (Node.fresh (← Run.freshId) total) .nil .nil)
  | .branch measure left right properties flags => do
    let id ← Run.freshId
    let l ← grow left
    let r ← grow right
    let plist := properties.foldl (fun p e => PropertyList.put p e.1 e.2) {}
    pure (.node { id, data := { total := measure.weigh l r, flags, plist } }
      (l.setLink (.node id)) (r.setLink (.node id)))

/-- Adds new nodes on top of a chain, from the node with number `k` on. -/
def growChain (shape : Shape) (own : Size) : Nat → Nat → Tree → Run Tree
  | 0, _, t => pure t
  | more + 1, k, t => do
    let id ← Run.freshId
    let n := Node.fresh id (own * k.toUInt64)
    growChain shape own more (k + 1) (.join (shape.side k) n (t.setLink (.node id)) .nil)

/-! ## Texts -/

/-- As many copies of a string as a number says, one after the other. The copies of the empty
string need not be counted out. -/
def copies (s : String) (times : Nat) : String :=
  if s.isEmpty then "" else Nat.repeat (· ++ s) times ""

/-- Makes a text. Without content it is empty, however often that is to be taken. -/
def newText (name : String) (kind : Except Refusal TextKind) (content : Option String)
    (times : Nat) : Script Result := do
  if ((← bench).forest.textNamed? name).isSome then refuse .nameInUse
  let kind ← readable kind
  let _ ← liftM (Run.newText name kind.beginOffset (copies (content.getD "") times))
  pure .nothing

/-- Does something with a text. -/
def text (t : TextId) : TextAction → Script Result
  | .content => do pure (.content (← Run.content t))
  | .size => do
    let x ← liftM (Run.text t)
    pure (.extent x.length x.content.isEmpty x.beginOffset)
  | .root => do giveNode? (← liftM (Run.text t)).root.id?
  | .intervals => do giveNode? (← Run.intervals t)
  | .findInterval position => do giveNode (← Run.findInterval t position)
  | .findMany positions => do
    pure (.located (← positions.mapM fun p => attempt do spanOf (← Run.findInterval t p)))
  | .balanceIntervals => do pure (.rotations (← Run.balanceIntervals t))
  | .checkIntervals => do
    Run.checkIntervals t
    pure .nothing
  | .createRoot => do giveNode (← Run.createRoot t)
  | .detachRoot into => do
    let root ← liftM (Run.detachRoot t)
    liftM (Run.storeLoose into root)
    giveNode? root.id?
  | .attachRoot slot => do
    let _ ← slotNamed slot
    liftM (do Run.attachRoot t (← Run.takeLoose slot) : Run Unit)
    pure .nothing
  | .incomplete missing => refuse (.missingField missing)

/-! ## Slots -/

/-- Puts a tree into a slot and gives its top. -/
def store (slot : String) (t : Tree) : Script Result := do
  liftM (Run.storeLoose slot t)
  giveNode? t.id?

/-- Does something with a slot. -/
def slot (name : String) : SlotAction → Script Result
  | .new total => do
    let id ← liftM Run.freshId
    store name (.node (Node.fresh id (total.getD 0)) .nil .nil)
  | .build sprout => do store name (← liftM (grow sprout))
  | .chain count shape own => do store name (← liftM (growChain shape own count 1 .nil))
  | .drop => do
    let _ ← slotNamed name
    liftM (Run.storeLoose name .nil)
    pure .nothing
  | .balance => do
    let _ ← slotNamed name
    pure (.rotations (← Run.balance (.loose name)))
  | .balanceSelf => do
    let _ ← slotNamed name
    pure (.rotations (← Run.balanceSelf (.loose name)))
  | .rotateOwned raised => do
    let _ ← slotNamed name
    giveNode? (← Run.rotateLoose raised name)

/-! ## Nodes -/

/-- Installs the content of a slot, or nothing, on a side of a node. -/
def setChild (s : Side) (id : NodeId) (slot into : Option String) : Script Result := do
  let t ← match slot with
    | none => pure .nil
    | some name => do
      if (← slotNamed name).hasNode id then refuse .wouldMakeCycle
      liftM (Run.takeLoose name)
  let former ← liftM (Run.setChild s id t)
  match into with
  | none => pure (.node none)
  | some name => store name former

/-- Walks to one position after the other, each time from the node last reached. -/
def updateMany (id : NodeId) : List Size → Script (List (Except Fault SpanReport))
  | [] => pure []
  | p :: rest => do
    match ← attempt (liftM (Run.update id p)) with
    | .error f => do pure (.error f :: (← updateMany id rest))
    | .ok found => do
      let here ← spanOf found
      pure (.ok here :: (← updateMany found rest))

/-- Does something with a node. -/
def node (id : NodeId) : NodeAction → Script Result
  | .info => do
    let site ← liftM (Run.locate id)
    enrol
    pure (.info ((← bench).nodeInfo site.cursor))
  | .setChild s slot into => setChild s id slot into
  | .takeChild s into => do store into (← liftM (Run.takeChild s id))
  | .setOwner name => do
    let owner ← name.mapM textNamed
    liftM (Run.setOwner id owner)
    pure .nothing
  | .setFlags flags => do
    liftM (Run.setFlags id flags)
    pure .nothing
  | .put key value => do
    liftM (Run.put id key value)
    pure .nothing
  | .get key => do
    pure (.property ((← liftM (Run.locate id)).cursor.node.data.plist.get? key))
  | .plist => do pure (.properties (← liftM (Run.locate id)).cursor.node.data.plist.entries)
  | .plistEq other => do
    let other ← resolve other
    let a := (← liftM (Run.locate id)).cursor.node.data.plist
    let b := (← liftM (Run.locate other)).cursor.node.data.plist
    pure (.truth (a = b))
  | .plistClear => do
    let plist := (← liftM (Run.locate id)).cursor.node.data.plist
    liftM (Run.setPlist id plist.clear)
    pure .nothing
  | .plistRemove key => do pure (.truth (← Run.removeProperty id key))
  | .setPlist pairs => do
    if 4 < pairs.length then refuse .tooManyPairs
    liftM (Run.setPlist id (.ofPairs pairs))
    pure .nothing
  | .copyProperties source => do
    let source ← resolve source
    liftM (Run.copyProperties id source)
    pure .nothing
  | .reset => do
    liftM (Run.reset id)
    pure .nothing
  | .find position => do giveNode (← Run.find id position)
  | .next => do giveNode? (← Run.next id)
  | .prev => do giveNode? (← Run.prev id)
  | .outermost s => do giveNode (← Run.outermost s id)
  | .update position => do giveNode (← Run.update id position)
  | .updateMany positions => do pure (.located (← updateMany id positions))
  | .walk s => do
    let spans ← liftM (Run.walk s id)
    enrol
    pure (.spans (spans.map (← bench).spanReport))
  | .balancePossibleRoot => do giveNode (← Run.balancePossibleRoot id)
  | .rotate raised => do
    liftM (Run.rotateInPlace raised id)
    pure .nothing
  | .split s offset => do giveNode (← Run.split s id offset)
  | .merge s => do giveNode (← Run.merge s id)
  | .remove => do
    liftM (Run.remove id)
    pure .nothing
  | .checkInvariants => do
    liftM (Run.checkInvariants id)
    pure .nothing
  | .incomplete missing => refuse (.missingField missing)

/-! ## Trackers -/

/-- Changes the trackers and sessions. -/
def modifyDesk (f : Desk → Desk) : Script Unit :=
  modifyThe Bench fun b => { b with desk := f b.desk }

/-- A name no session may have. -/
def requireFreeSession (name : String) : Script Unit := do
  if (← bench).desk.sessions.contains name then refuse .nameInUse

/-- Makes a tracker. -/
def newTracker (name : String) : Script Result := do
  let b ← bench
  if b.desk.trackers.contains name then refuse .nameInUse
  modifyDesk (·.addTracker name b.forest.settings.history)
  pure .nothing

/-- Does something with a tracker. -/
def tracker (name : String) : TrackerAction → Script Result
  | .openSession session kind => do
    requireFreeSession session
    let kind ← readable kind
    let b ← bench
    if b.forest.settings.tracking then
      match b.desk.openSession session name kind with
      | .ok desk => modifyDesk fun _ => desk
      | .error o => throw (.fault (.overlap o))
    else modifyDesk (·.openUntracked session)
    pure .nothing
  | .incomplete missing => refuse (.missingField missing)

/-- Does something with a session. -/
def session (name : String) : SessionAction → Script Result
  | .close => do
    modifyDesk (·.closeSession name)
    pure .nothing
  | .moveTo target => do
    requireFreeSession target
    modifyDesk (·.moveSession name target)
    pure .nothing
  | .incomplete missing => refuse (.missingField missing)

/-! ## Steps -/

/-- The fold of the totals that a summary shows. -/
def totalsFold (t : Tree) : Size := t.foldPre (fun sum n => sum * 31 + n.data.total) 0

/-- Makes a step that is no traversal. -/
def command : Command → Script Result
  | .version => pure (.version "1.0.0" 1 0 0)
  | .throwRange operation position first last =>
    throw (.fault (.range { operation := label operation, position, first, last }))
  | .throwInvariant holds what =>
    if holds then pure .nothing else throw (.fault (.violation (.stated (label what))))
  | .newText name kind content times => newText name kind content times
  | .text name action => do text (← textNamed name) action
  | .slot name action => slot name action
  | .node ref action => do node (← resolve ref) action
  | .newTracker name => newTracker name
  | .tracker name action => do
    if !(← bench).desk.trackers.contains name then refuse .noSuchTracker
    tracker name action
  | .session name action => do
    if !(← bench).desk.sessions.contains name then refuse .noSuchSession
    session name action
  | .nameOfKind code => do
    if !(← bench).forest.settings.tracking then refuse .unknownOp
    pure (.name (SessionKind.nameOfCode (← orRefuse (.missingField "kind") code)))
  | .summary name => do
    let t ← treeNamed name
    pure (.summary t.size t.height (totalsFold t))
  | .dump => do
    enrol
    pure (.state (← bench).stateReport)
  | .refused refusal => refuse refusal

/-- A part of a traversal: it collects the visits, the last first. -/
abbrev Visiting := StateT (List Visit) Script

/-- One visit of a traversal. -/
def visit (outermost : Bool) (body : Option (Script Result × Bool)) (id : NodeId) :
    Visiting Unit := do
  if outermost then modifyThe Bench fun b => { b with visited := b.visited + 1 }
  let span ← spanOf id
  let v ← match body with
    | none => pure (.plain span)
    | some (step, catching) => do
      modifyThe Bench fun b => { b with current := some id }
      if catching then
        tryCatchThe Failure (do pure (.returned span (← step))) fun f => pure (.failed span f)
      else do pure (.gave span (← step))
  modify (v :: ·)

/-- The traversal of what a script names, which must be there. What else it lacks is noticed
when it starts. -/
def traversalOf (extent : Traversal) : Script ((NodeId → Visiting Unit) → Visiting Unit) := do
  match extent with
  | .text name => do
    let t ← textNamed name
    pure (Run.traverseIntervals t)
  | .ordered ref position => do
    let id ← resolve ref
    pure (Run.traverse id position)
  | .unordered ref => do
    let id ← resolve ref
    pure (Run.traverseUnordered id)
  | .incomplete ref missing => do
    let _ ← resolve ref
    pure fun _ => liftM (refuse (.missingField missing) : Script Unit)

/-- Makes a step. What a traversal is to do at its visits is judged before the first visit,
by the word it opens with. -/
def perform (outermost : Bool) : Step → Script Result
  | .command c => command c
  | .each extent => do
    let go ← traversalOf extent
    let (_, visits) ← (go (visit outermost none)).run []
    pure (.visits visits.reverse)
  | .eachDo extent word body catching => do
    let go ← traversalOf extent
    if let some r := Step.refusalInside word then refuse r
    let (_, visits) ← (go (visit outermost (some (perform false body, catching)))).run []
    pure (.visits visits.reverse)

end Script

/-- A script with what its answers are to show. -/
structure Request where
  settings : Settings := {}
  steps : List Step
  trace : Bool := true
  profile : Bool := false

/-- The state to be shown, if it has changed since it was last shown. -/
def Bench.newState (b : Bench) : Option StateReport :=
  let state := b.stateReport
  if state = b.shown then none else some state

/-- Makes a step of a script and answers. -/
def answer (trace profile : Bool) (s : Step) (b : Bench) : Answer × Bench :=
  let fresh := { b with forest := { b.forest with profile := {} }, visited := 0 }
  let (outcome, b) := (Script.perform true s).run fresh
  let b := { b with registry := b.registry.enrolAll b.forest }
  let state := if trace then b.newState else none
  let visited := match outcome with
    | .ok _ => 0
    | .error _ => b.visited
  let profile := if profile then some (b.forest.profile.lines.map (·.text)) else none
  ({ outcome, visited, profile, state }, { b with shown := state.getD b.shown })

/-- The answers to the steps of a script, on a bench. -/
def answers (trace profile : Bool) : List Step → Bench → List Answer
  | [], _ => []
  | s :: rest, b =>
    let (a, b) := answer trace profile s b
    a :: answers trace profile rest b

/-- The answers to a script, which starts without texts and trees. -/
def Request.answers (r : Request) : List Answer :=
  Workbench.answers r.trace r.profile r.steps { forest := { settings := r.settings } }

end SpanTree.Workbench
