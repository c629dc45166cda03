import SpanTree.Tree.Balance
import SpanTree.Tree.WorkList
import SpanTree.Tree.Check
import SpanTree.Tree.Edit
import SpanTree.Forest.Nodes
import SpanTree.Forest.Edits
import SpanTree.Forest.Texts
import SpanTree.Workbench.Bench
import SpanTree.Workbench.Perform
import SpanTree.Proofs.Links
import SpanTree.Proofs.Rotations
import SpanTree.Proofs.Balancing
import SpanTree.Proofs.Paths
import SpanTree.Proofs.Neighbours
import SpanTree.Proofs.Positions
import SpanTree.Proofs.WorkLists
import SpanTree.Proofs.Merges
import SpanTree.Proofs.Tables
import SpanTree.Proofs.Places
import SpanTree.Proofs.Splits
import SpanTree.Proofs.Checks
import SpanTree.Proofs.Readings
import SpanTree.Proofs.Moves
import SpanTree.Proofs.Edits
import SpanTree.Proofs.Texts
import SpanTree.Proofs.Traversals
import SpanTree.Proofs.Fixpoint
import SpanTree.Proofs.Clients
import SpanTree.Proofs.Invariant
import SpanTree.Proofs.Undo
import SpanTree.Proofs.Requests
import SpanTree.Proofs.Unobservable
import SpanTree.Proofs.Sessions
import SpanTree.Proofs.Heights
import SpanTree.Proofs.Chains
import SpanTree.Proofs.Rejections
import SpanTree.Proofs.Acceptance
import SpanTree.Proofs.Handovers
import SpanTree.Proofs.Outlines
import SpanTree.Proofs.Reworks
import SpanTree.Proofs.Handling
import SpanTree.Proofs.Errands
import SpanTree.Proofs.Reentrance
import SpanTree.Proofs.Erasure
import SpanTree.Proofs.Diagnostics
import SpanTree.Proofs.Convergence
import SpanTree.Proofs.Cuts
import SpanTree.Proofs.Searches
import SpanTree.Proofs.Relocations
import SpanTree.Proofs.Mirrors
import SpanTree.Proofs.Strolls
import SpanTree.Proofs.Turns
import SpanTree.Proofs.Schedules
import SpanTree.Proofs.Halvings
import SpanTree.Proofs.Histories
import SpanTree.Proofs.Orders
import SpanTree.Proofs.Lookups
import SpanTree.Proofs.Properties
