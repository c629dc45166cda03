/-
SpanTree.Workbench.Bench — the state of a script.

Nodes get their numbers in the order in which they are first seen: the
trees are gone through in the order of the places, each node before its
subtrees. A number stays with its node and is not given again. A node
that no tree holds any more cannot be referred to.
-/
import SpanTree.Forest.Texts
import SpanTree.Workbench.Answer
import Std.Data.HashMap

namespace SpanTree.Workbench

/-- The numbers given to nodes so far. -/
structure Registry where
  numbers : Std.HashMap NodeId Nat := {}
  ids : Array NodeId := #[]
  /-- The identities below this bound have been gone through. -/
  seenBelow : NodeId := 0

namespace Registry

/-- Gives a node the next number, if it has none. -/
def enrol (r : Registry) (id : NodeId) : Registry :=
  if r.numbers.contains id then r
  else { r with numbers := r.numbers.insert id r.ids.size, ids := r.ids.push id }

/-- Gives the nodes of all trees their numbers. Where no node was made since the last time,
there is none without a number. -/
def enrolAll (r : Registry) (f : Forest) : Registry :=
  if r.seenBelow = f.nextId then r
  else
    let r := f.places.foldl (fun r p => (f.tree p).foldPre (fun r n => r.enrol n.id) r) r
    { r with seenBelow := f.nextId }

/-- The number of a node. -/
def number (r : Registry) (id : NodeId) : Nat := r.numbers.getD id 0

end Registry

/-- What a script works on. -/
structure Bench where
  forest : Forest := {}
  desk : Desk := {}
  registry : Registry := {}
  /-- The node most recently given or visited. -/
  current : Option NodeId := none
  /-- The state as it was last shown. -/
  shown : StateReport := []
  /-- How many nodes the outermost traversal of this step has come to. -/
  visited : Nat := 0

/-- A part of a step. What it did before it failed stays done. -/
abbrev Script := ExceptT Failure (StateM Bench)

/-- An operation on the forest is part of a step. -/
def Script.ofRun {α : Type} (x : Run α) : Script α := fun b =>
  match x b.forest with
  | (.ok a, forest) => (.ok a, { b with forest })
  | (.error f, forest) => (.error (.fault f), { b with forest })

instance : MonadLift Run Script where
  monadLift := Script.ofRun

namespace Bench

/-- The report on a link. -/
def linkReport (b : Bench) : Link → LinkReport
  | .unset => .unset
  | .node holder => .node (b.registry.number holder)
  | .owner t => .text ((b.forest.texts[t]?.map (·.name)).getD "")

/-- The number of the top of a tree. -/
def topNumber (b : Bench) (t : Tree) : Option Nat := t.id?.map b.registry.number

/-- The rows of a tree, in front of others. -/
def rowsOnto (b : Bench) : Tree → List NodeRow → List NodeRow
  | .nil, rest => rest
  | .node n l r, rest =>
    { number := b.registry.number n.id
      left := b.topNumber l
      right := b.topNumber r
      link := b.linkReport n.link
      total := n.data.total
      position := n.data.position
      flags := n.data.flags
      properties := n.data.plist.entries } :: b.rowsOnto l (b.rowsOnto r rest)

/-- The report on a tree. -/
def placeReport (b : Bench) (name : String) (t : Tree) : PlaceReport :=
  { name, rows := if t.isNil then none else some (b.rowsOnto t []) }

/-- The state of the forest: the texts, then the slots in the order of their names. -/
def stateReport (b : Bench) : StateReport :=
  b.forest.texts.map (fun t => b.placeReport t.name t.root) ++
    b.forest.loose.entries.map fun e => b.placeReport e.1 e.2

/-- The report on a node with where it stands. -/
def nodeReport (b : Bench) (c : Cursor) : NodeReport :=
  { number := b.registry.number c.node.id
    position := c.position
    ending := c.ending
    length := c.length
    total := c.node.data.total }

/-- The report on the own span of a node. -/
def spanReport (b : Bench) (s : Span) : SpanReport :=
  { number := b.registry.number s.id, position := s.position, length := s.length }

/-- The answers to all questions about a node. -/
def nodeInfo (b : Bench) (c : Cursor) : NodeInfo :=
  { number := b.registry.number c.node.id
    total := c.node.data.total
    leftTotal := c.left.total
    rightTotal := c.right.total
    length := c.length
    position := c.position
    ending := c.ending
    hasLeft := !c.left.isNil
    hasRight := !c.right.isNil
    hasChildren := c.hasChildren
    hasBothChildren := !c.left.isNil && !c.right.isNil
    hasParent := c.hasParent
    isRoot := c.isRoot
    isOnly := c.isOnly
    isLeftChild := c.linkedSide? = some .left
    isRightChild := c.linkedSide? = some .right
    isDefault := c.isDefault
    left := b.topNumber c.left
    right := b.topNumber c.right
    parent := c.node.link.holder?.map b.registry.number
    owner := c.node.link.owner?.map fun t => (b.forest.texts[t]?.map (·.name)).getD ""
    flags := c.node.data.flags
    properties := c.node.data.plist.entries }

end Bench

namespace Script

/-- All that the script works on. -/
def bench : Script Bench := getThe Bench

/-- Ends the step: the script cannot be followed. -/
def refuse {α : Type} (r : Refusal) : Script α := throw (.refusal r)

/-- The value there must be. -/
def orRefuse {α : Type} (r : Refusal) : Option α → Script α
  | some a => pure a
  | none => refuse r

/-- Gives the nodes of all trees their numbers. -/
def enrol : Script Unit :=
  modifyThe Bench fun b => { b with registry := b.registry.enrolAll b.forest }

/-- The text with a name. -/
def textNamed (name : String) : Script TextId := do
  orRefuse .noSuchText ((← bench).forest.textNamed? name)

/-- The slot with a name, which must have been stored into. -/
def slotNamed (name : String) : Script Tree := do
  orRefuse .noSuchSlot ((← bench).forest.loose.get? name)

/-- The tree of a slot, or else of a text. -/
def treeNamed (name : String) : Script Tree := do
  let f := (← bench).forest
  match f.loose.get? name with
  | some t => pure t
  | none => do pure (f.tree (.text (← textNamed name)))

/-- The node a reference names, which a tree must hold. -/
def resolve (ref : NodeRef) : Script NodeId := do
  let b ← bench
  match ref with
  | .number n => orRefuse .noSuchNode (b.registry.ids[n]?.filter b.forest.hasNode)
  | .current => orRefuse .noSuchNode (b.current.filter b.forest.hasNode)
  | .path name way => do orRefuse .noSuchNode (NodeRef.follow? way (← treeNamed name))
  | .nowhere => refuse .noSuchNode

/-- A node as a result: it becomes the current one. -/
def giveNode (id : NodeId) : Script Result := do
  let site ← liftM (Run.locate id)
  enrol
  modifyThe Bench fun b => { b with current := some id }
  pure (.node (some ((← bench).nodeReport site.cursor)))

/-- A node, or its absence, as a result. -/
def giveNode? : Option NodeId → Script Result
  | some id => giveNode id
  | none => pure (.node none)

/-- The own span of a node, for a result. -/
def spanOf (id : NodeId) : Script SpanReport := do
  let span ← liftM (Run.span id)
  enrol
  pure ((← bench).spanReport span)

end Script

end SpanTree.Workbench
