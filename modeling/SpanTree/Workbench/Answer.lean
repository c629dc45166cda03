/-
SpanTree.Workbench.Answer — what a script reports.

Reports speak of nodes by their numbers and of texts by their names. An
answer has the result of a step or its failure, and where they are asked
for the profiled lines and the state.
-/
import SpanTree.Workbench.Command

namespace SpanTree.Workbench

/-- A failure of a step. -/
inductive Failure where
  | fault (fault : Fault)
  | refusal (refusal : Refusal)
deriving DecidableEq, Repr

/-- A node with where it stands and what it weighs. -/
structure NodeReport where
  number : Nat
  position : Size
  ending : Size
  length : Size
  total : Size
deriving DecidableEq, Repr

/-- A node with its own span. -/
structure SpanReport where
  number : Nat
  position : Size
  length : Size
deriving DecidableEq, Repr

/-- The holder of a node. -/
inductive LinkReport where
  | unset
  | node (number : Nat)
  | text (name : String)
deriving DecidableEq, Repr

/-- A node of a state. -/
structure NodeRow where
  number : Nat
  left : Option Nat
  right : Option Nat
  link : LinkReport
  total : Size
  position : Size
  flags : Flags
  properties : List (String × String)
deriving DecidableEq, Repr

/-- A text or a slot with the nodes of its tree, each before its subtrees. -/
structure PlaceReport where
  name : String
  rows : Option (List NodeRow)
deriving DecidableEq, Repr

/-- All trees of the forest. -/
abbrev StateReport := List PlaceReport

/-- The answers to all questions about a node. -/
structure NodeInfo where
  number : Nat
  total : Size
  leftTotal : Size
  rightTotal : Size
  length : Size
  position : Size
  ending : Size
  hasLeft : Bool
  hasRight : Bool
  hasChildren : Bool
  hasBothChildren : Bool
  hasParent : Bool
  isRoot : Bool
  isOnly : Bool
  isLeftChild : Bool
  isRightChild : Bool
  isDefault : Bool
  left : Option Nat
  right : Option Nat
  parent : Option Nat
  owner : Option String
  flags : Flags
  properties : List (String × String)
deriving DecidableEq, Repr

mutual

/-- The result of a step. -/
inductive Result where
  | nothing
  | version (text : String) (major minor patch : Nat)
  | content (text : String)
  | extent (length : Size) (empty : Bool) (beginOffset : Size)
  | node (report : Option NodeReport)
  | rotations (count : Nat)
  | located (found : List (Except Fault SpanReport))
  | spans (spans : List SpanReport)
  | summary (count height : Nat) (sum : Size)
  | state (report : StateReport)
  | info (info : NodeInfo)
  | property (value : Option String)
  | truth (value : Bool)
  | properties (pairs : List (String × String))
  | name (name : String)
  | visits (visits : List Visit)

/-- A visit of a traversal. -/
inductive Visit where
  /-- Nothing was to be done. -/
  | plain (span : SpanReport)
  /-- A step was made and gave a result. -/
  | gave (span : SpanReport) (result : Result)
  /-- A step whose failures are caught was made and gave a result. -/
  | returned (span : SpanReport) (result : Result)
  /-- A step whose failures are caught was made and failed. -/
  | failed (span : SpanReport) (failure : Failure)

end

/-- The answer to a step. -/
structure Answer where
  outcome : Except Failure Result
  /-- How many nodes the outermost traversal had come to, if the step failed in one. -/
  visited : Nat
  /-- The profiled lines, where they are asked for. -/
  profile : Option (List String)
  /-- The state, where it is asked for and has changed since it was last shown. -/
  state : Option StateReport

end SpanTree.Workbench
