/-
SpanTree.Workbench.Command — the steps of a script.

A script names texts, slots, trackers and sessions, and refers to nodes
by their numbers, by the mark for the current node, or by a way down
from a slot or a text. A step is a command or a traversal; a traversal
may carry a step to be made at every node it visits, which may again be
a traversal.

A step may lack what it needs. What it is about comes first: an action
that is `incomplete` is refused only after its text, node, tracker or
session has been found.
-/
import SpanTree.Forest.Basic

namespace SpanTree.Workbench

/-- What a script says about itself that cannot be followed. -/
inductive Refusal where
  | noSuchText
  | noSuchSlot
  | noSuchNode
  | noSuchTracker
  | noSuchSession
  | nameInUse
  | unknownOp
  | unknownKind
  | tooManyPairs
  | wouldMakeCycle
  | notAllowedInside
  | missingField (field : String)
deriving DecidableEq, Repr

/-- The refusal in words. -/
def Refusal.message : Refusal → String
  | .noSuchText => "no such text"
  | .noSuchSlot => "no such slot"
  | .noSuchNode => "no such node"
  | .noSuchTracker => "no such tracker"
  | .noSuchSession => "no such session"
  | .nameInUse => "name in use"
  | .unknownOp => "unknown op"
  | .unknownKind => "unknown kind"
  | .tooManyPairs => "too many pairs"
  | .wouldMakeCycle => "would make a cycle"
  | .notAllowedInside => "op not allowed in do"
  | .missingField field => "missing field " ++ field

/-- A reference to a node. -/
inductive NodeRef where
  /-- The node with a number. -/
  | number (n : Nat)
  /-- The node most recently given or visited. -/
  | current
  /-- The way down from the top of a slot, or else of a text. -/
  | path (name : String) (way : List Char)
  /-- Nothing that refers to a node. -/
  | nowhere
deriving DecidableEq, Repr

namespace NodeRef

/-- The side that a letter of a way down turns to. -/
def turn? : Char → Option Side
  | 'L' => some .left
  | 'R' => some .right
  | _ => none

/-- The top of the tree that a way leads down to. -/
def follow? : List Char → Tree → Option NodeId
  | [], t => t.id?
  | c :: rest, t => (turn? c).bind fun s => follow? rest (t.child s)

/-- The reference a string stands for: the mark of the current node, or a name, a colon and
a way down. -/
def ofString (s : String) : NodeRef :=
  if s = "@" then .current
  else
    match s.toList.span (· ≠ ':') with
    | (name, ':' :: way) => .path (String.ofList name) way
    | _ => .nowhere

end NodeRef

/-- What decides the weight of a node to be built. -/
inductive Measure where
  /-- The weight itself. -/
  | total (weight : Size)
  /-- The length of the own span, to which the weights below are added. -/
  | own (length : Size)
deriving DecidableEq, Repr

/-- The weight of a node over two subtrees. -/
def Measure.weigh (l r : Tree) : Measure → Size
  | .total w => w
  | .own n => n + l.total + r.total

/-- A tree to be built. -/
inductive Sprout where
  | none
  /-- One node of a weight. -/
  | leaf (total : Size)
  /-- A node over two subtrees. -/
  | branch (measure : Measure) (left right : Sprout)
      (properties : List (String × String)) (flags : Flags)
deriving Inhabited, Repr

/-- The kinds of texts. -/
inductive TextKind where
  | buffer
  | string
  | base100
deriving DecidableEq, Repr

namespace TextKind

/-- The position of the first character. -/
def beginOffset : TextKind → Size
  | .buffer => 1
  | .string => 0
  | .base100 => 100

/-- The kind a script names. -/
def ofName? : String → Option TextKind
  | "buffer" => some .buffer
  | "string" => some .string
  | "base100" => some .base100
  | _ => none

end TextKind

/-- The shapes of a chain of nodes. -/
inductive Shape where
  /-- Every node but the first has the one before on this side. -/
  | leaning (s : Side)
  /-- The sides alternate; even nodes have the one before on the left. -/
  | zigzag
deriving DecidableEq, Repr

namespace Shape

/-- The side on which the node with a number, counted from one, has the one before. -/
def side : Shape → Nat → Side
  | .leaning s, _ => s
  | .zigzag, k => if k % 2 = 0 then .left else .right

/-- The shape a script names. -/
def ofName? : String → Option Shape
  | "left" => some (.leaning .left)
  | "right" => some (.leaning .right)
  | "zigzag" => some .zigzag
  | _ => none

end Shape

/-- What can be done with a text. -/
inductive TextAction where
  | content
  | size
  | root
  | intervals
  | findInterval (position : Size)
  | findMany (positions : List Size)
  | balanceIntervals
  | checkIntervals
  | createRoot
  | detachRoot (into : String)
  | attachRoot (slot : String)
  /-- An action that lacks a field. -/
  | incomplete (missing : String)
deriving Repr

/-- What can be done with a slot. -/
inductive SlotAction where
  | new (total : Option Size)
  | build (sprout : Sprout)
  | chain (count : Nat) (shape : Shape) (own : Size)
  | drop
  | balance
  | balanceSelf
  | rotateOwned (raised : Side)
deriving Repr

/-- What can be done with a node. -/
inductive NodeAction where
  | info
  | setChild (s : Side) (slot into : Option String)
  | takeChild (s : Side) (into : String)
  | setOwner (text : Option String)
  | setFlags (flags : Flags)
  | put (key value : String)
  | get (key : String)
  | plist
  | plistEq (other : NodeRef)
  | plistClear
  | plistRemove (key : String)
  | setPlist (pairs : List (String × String))
  | copyProperties (source : NodeRef)
  | reset
  | find (position : Size)
  | next
  | prev
  | outermost (s : Side)
  | update (position : Size)
  | updateMany (positions : List Size)
  | walk (s : Side)
  | balancePossibleRoot
  | rotate (raised : Side)
  | split (s : Side) (offset : Size)
  | merge (s : Side)
  | remove
  | checkInvariants
  /-- An action that lacks a field. -/
  | incomplete (missing : String)
deriving Repr

/-- What can be done with a tracker. -/
inductive TrackerAction where
  /-- Opens a session of a kind, or of what is no kind. -/
  | openSession (session : String) (kind : Except Refusal SessionKind)
  /-- An action that lacks a field. -/
  | incomplete (missing : String)

/-- What can be done with a session. -/
inductive SessionAction where
  | close
  | moveTo (target : String)
  /-- An action that lacks a field. -/
  | incomplete (missing : String)
deriving Repr

/-- A step that is no traversal. -/
inductive Command where
  | version
  | throwRange (operation : String) (position first last : Size)
  | throwInvariant (holds : Bool) (what : String)
  | newText (name : String) (kind : Except Refusal TextKind) (content : Option String)
      (times : Nat)
  | text (name : String) (action : TextAction)
  | slot (name : String) (action : SlotAction)
  | node (ref : NodeRef) (action : NodeAction)
  | newTracker (name : String)
  | tracker (name : String) (action : TrackerAction)
  | session (name : String) (action : SessionAction)
  /-- The name of the session kind with a code; only where sessions are tracked. -/
  | nameOfKind (code : Option Nat)
  | summary (name : String)
  | dump
  /-- A step that cannot be read. -/
  | refused (refusal : Refusal)
deriving Inhabited

/-- What a traversal goes over. -/
inductive Traversal where
  /-- The tree of a text, from left to right. -/
  | text (name : String)
  /-- The subtree of a node, from left to right, with caches from a position on. -/
  | ordered (ref : NodeRef) (position : Size)
  /-- The subtree of a node, each node before its subtrees. -/
  | unordered (ref : NodeRef)
  /-- The subtree of a node, with a field lacking. -/
  | incomplete (ref : NodeRef) (missing : String)
deriving Repr

/-- A step of a script. -/
inductive Step where
  | command (command : Command)
  | each (extent : Traversal)
  /-- A traversal with a step at every visit, whose failures may be caught. The word is the
  one that the step to be made opens with. -/
  | eachDo (extent : Traversal) (word : Option String) (body : Step) (catching : Bool)
deriving Inhabited

namespace Step

/-- The words of the steps that may be made inside a traversal. -/
def wordsInside : List String :=
  ["text", "intervals", "find_interval", "balance_intervals", "traverse_intervals",
    "check_intervals", "put", "get", "dump", "plist_remove", "set_flags", "info",
    "copy_properties"]

/-- Why a step that opens with a word may not be made inside a traversal, if it may not. -/
def refusalInside : Option String → Option Refusal
  | none => some (.missingField "op")
  | some word => if wordsInside.contains word then none else some .notAllowedInside

end Step

end SpanTree.Workbench
