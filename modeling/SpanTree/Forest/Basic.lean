/-
SpanTree.Forest.Basic — texts with their trees, and loose trees.

A `Forest` holds the texts in the order in which they were made and the
loose trees under the names of their slots. Every node belongs to one of
these places. An operation names a node by its identity: the forest
locates it, which gives the place of its tree and a cursor in it, and
afterwards plants the changed tree back.

`Run` is an operation on the forest that may fail. What it did before it
failed stays done.
-/
import SpanTree.Profile
import SpanTree.Tree.Edit
import SpanTree.Tree.WorkList

namespace SpanTree

/-- What of the library's diagnostics is switched on. -/
structure Settings where
  /-- Whether sessions are tracked. -/
  tracking : Bool := false
  /-- How many admitted sessions a tracker remembers. -/
  history : Nat := 0
  /-- Whether a text is checked after the operations that may rotate its tree. -/
  verifying : Bool := false
  /-- Whether scopes are profiled. -/
  profiling : Bool := false
deriving DecidableEq, Repr

namespace Settings

/-- Everything off. -/
def plain : Settings := {}

/-- Sessions are tracked without a history. -/
def tracked : Settings := { tracking := true, profiling := true }

/-- Everything on. -/
def debug : Settings := { tracking := true, history := 16, verifying := true, profiling := true }

end Settings

/-- A text: its characters and the tree that describes their properties. -/
structure Text where
  name : String
  /-- The position of the first character. -/
  beginOffset : Size
  content : String := ""
  root : Tree := .nil
  access : Tracker := {}

/-- The length in bytes. -/
def Text.length (t : Text) : Size := t.content.utf8ByteSize.toUInt64

/-- Where a tree is. -/
inductive Place where
  /-- It is the tree of a text. -/
  | text (text : TextId)
  /-- It is a loose tree. -/
  | loose (slot : String)
deriving DecidableEq, Repr

/-- The text that has the tree of a place as its own. -/
def Place.home? : Place → Option TextId
  | .text t => some t
  | .loose _ => none

/-- All texts and all loose trees. -/
structure Forest where
  settings : Settings := {}
  texts : List Text := []
  /-- The loose trees by the names of their slots. -/
  loose : Table Tree := {}
  /-- The identity of the next new node. -/
  nextId : NodeId := 0
  profile : Profile := {}

/-- A node with the place of its tree. -/
structure Site where
  place : Place
  cursor : Cursor

namespace Forest

/-- The number of the text with a name. -/
def textNamed? (f : Forest) (name : String) : Option TextId :=
  f.texts.findIdx? fun t => t.name == name

/-- The tree at a place. -/
def tree (f : Forest) : Place → Tree
  | .text t => (f.texts[t]?.map (·.root)).getD .nil
  | .loose slot => (f.loose.get? slot).getD .nil

/-- The forest with a text changed. -/
def modifyText (f : Forest) (t : TextId) (g : Text → Text) : Forest :=
  { f with texts := f.texts.modify t g }

/-- The forest with another tree at a place. -/
def plant (f : Forest) (t : Tree) : Place → Forest
  | .text i => f.modifyText i fun x => { x with root := t }
  | .loose slot => { f with loose := f.loose.insert slot t }

/-- The places of all trees: the texts, then the slots in the order of their names. -/
def places (f : Forest) : List Place :=
  (List.range f.texts.length).map .text ++ f.loose.entries.map fun e => .loose e.1

/-- The node with an identity. -/
def locate? (f : Forest) (id : NodeId) : Option Site :=
  f.places.findSome? fun p => ((f.tree p).locate? id).map fun c => ⟨p, c⟩

/-- The subtree that the node with an identity tops. -/
def subtree? (f : Forest) (id : NodeId) : Option Tree :=
  f.places.findSome? fun p => (f.tree p).subtree? id

/-- Whether a tree of the forest has the node. -/
def hasNode (f : Forest) (id : NodeId) : Bool := (f.subtree? id).isSome

end Forest

/-- An operation on the forest that may fail. -/
abbrev Run := ExceptT Fault (StateM Forest)

namespace Run

/-- Fails with a violation. -/
def violate {α : Type} (v : Violation) : Run α := throw (.violation v)

/-- A structural check. -/
def require (condition : Bool) (v : Violation) : Run Unit :=
  if condition then pure () else violate v

/-- The text with a number. -/
def text (t : TextId) : Run Text := do
  match (← get).texts[t]? with
  | some x => pure x
  | none => throw (.breach .lostText)

/-- Changes a text. -/
def modifyText (t : TextId) (g : Text → Text) : Run Unit := modify (·.modifyText t g)

/-- The node with an identity. -/
def locate (id : NodeId) : Run Site := do
  match (← get).locate? id with
  | some site => pure site
  | none => throw (.breach .lostNode)

/-- The subtree that the node with an identity tops, where nothing but that is of interest. -/
def subtree (id : NodeId) : Run Tree := do
  match (← get).subtree? id with
  | some t => pure t
  | none => throw (.breach .lostNode)

/-- The own span of the node with an identity. -/
def span (id : NodeId) : Run Span := do
  match (← subtree id).span? with
  | some s => pure s
  | none => throw (.breach .lostNode)

/-- Puts a tree at a place. -/
def plant (place : Place) (t : Tree) : Run Unit := modify (·.plant t place)

/-- Puts a tree at a place and goes on with what became of the work on it. -/
def conclude {α : Type} (place : Place) (edited : Edited α) : Run α := do
  plant place edited.1
  ofExcept edited.2

/-- Puts the tree of a cursor back to its place. -/
def putBack (site : Site) : Run Unit := plant site.place site.cursor.toTree

/-- An identity that no node has had. -/
def freshId : Run NodeId := do
  let id := (← get).nextId
  modify fun f => { f with nextId := f.nextId + 1 }
  pure id

/-- Runs in a profiled scope. -/
def profiled {α : Type} (label : String) (body : Run α) : Run α := do
  if (← get).settings.profiling then
    modify fun f => { f with profile := f.profile.enter label }
    tryFinally body (modify fun f => { f with profile := f.profile.leave })
  else body

/-- Counts rotations in the innermost profiled scope. -/
def addRotations (rotations : Nat) : Run Unit :=
  modify fun f => { f with profile := f.profile.add rotations }

end Run

end SpanTree
