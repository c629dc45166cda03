/-
SpanTree.Forest.Nodes — children, links and properties of single nodes.

None of these operations looks at weights. `setChild` and `takeChild`
keep links true: a child that comes in is linked to its new holder, and
one that goes out is linked to nothing. `setOwner` and `reset` are the
two operations that can leave a child with a link that does not name its
holder.
-/
import SpanTree.Forest.Basic

namespace SpanTree

namespace Run

/-- Changes a node where it stands. -/
def modifyNode (id : NodeId) (f : Cursor → Cursor) : Run Unit := do
  let site ← locate id
  plant site.place (f site.cursor).toTree

/-- Changes the payload of a node. -/
def modifyData (id : NodeId) (f : Payload → Payload) : Run Unit := modifyNode id (·.mapData f)

/-- The content of a slot, which is left empty. -/
def takeLoose (slot : String) : Run Tree := do
  let t := (← get).tree (.loose slot)
  plant (.loose slot) .nil
  pure t

/-- Puts a tree into a slot, in the place of what it held. -/
def storeLoose (slot : String) (t : Tree) : Run Unit := plant (.loose slot) t

/-- Installs a subtree on a side of a node and gives the one that was there. -/
def setChild (s : Side) (id : NodeId) (t : Tree) : Run Tree := do
  let site ← locate id
  let former := site.cursor.child s
  plant site.place (site.cursor.withChild s (t.setLink (.node id))).toTree
  pure (former.setLink .unset)

/-- Takes the subtree on a side of a node. -/
def takeChild (s : Side) (id : NodeId) : Run Tree := setChild s id .nil

/-- Links a node to a text, or to nothing. -/
def setOwner (id : NodeId) (owner : Option TextId) : Run Unit :=
  modifyNode id fun c =>
    { c with node := c.node.withLink (match owner with
      | some t => .owner t
      | none => .unset) }

/-- Sets the four flags. -/
def setFlags (id : NodeId) (flags : Flags) : Run Unit := modifyData id ({ · with flags })

/-- Sets the property list. -/
def setPlist (id : NodeId) (plist : PropertyList) : Run Unit := modifyData id ({ · with plist })

/-- Gives a property a value. -/
def put (id : NodeId) (key value : String) : Run Unit :=
  modifyData id fun d => { d with plist := d.plist.put key value }

/-- Drops a property and says whether it was there. -/
def removeProperty (id : NodeId) (key : String) : Run Bool := do
  let site ← locate id
  let (plist, found) := site.cursor.node.data.plist.remove key
  setPlist id plist
  pure found

/-- Copies flags and properties from one node to another, unless both are default. -/
def copyProperties (id source : NodeId) : Run Unit := do
  let site ← locate id
  let from' ← locate source
  if site.cursor.isDefault && from'.cursor.isDefault then pure ()
  else
    let data := from'.cursor.node.data
    modifyData id ({ · with flags := data.flags, plist := data.plist })

/-- Makes a node default, without length, children and link. -/
def reset (id : NodeId) : Run Unit :=
  modifyNode id fun c =>
    { c with node := { id := c.node.id }, left := .nil, right := .nil }

end Run

end SpanTree
