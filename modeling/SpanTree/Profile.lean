/-
SpanTree.Profile — what the profiler notes.

A scope has a label and counts the rotations made in it. When it ends,
by return or by a failure, it leaves a line; inner scopes therefore come
before the scopes around them.
-/

namespace SpanTree

/-- A label with the number of rotations counted under it. -/
structure ProfileLine where
  label : String
  rotations : Nat := 0
deriving DecidableEq, Repr

/-- The line in words; rotations are named where there are some. -/
def ProfileLine.text (l : ProfileLine) : String :=
  if l.rotations = 0 then l.label
  else l.label ++ " (" ++ toString l.rotations ++ " rotations)"

/-- The lines written so far and the scopes still open, innermost first. -/
structure Profile where
  lines : List ProfileLine := []
  scopes : List ProfileLine := []
deriving DecidableEq, Repr

namespace Profile

/-- Opens a scope. -/
def enter (p : Profile) (label : String) : Profile :=
  { p with scopes := { label } :: p.scopes }

/-- Counts rotations in the innermost scope. -/
def add (p : Profile) (rotations : Nat) : Profile :=
  match p.scopes with
  | [] => p
  | s :: rest => { p with scopes := { s with rotations := s.rotations + rotations } :: rest }

/-- Ends the innermost scope and writes its line. -/
def leave (p : Profile) : Profile :=
  match p.scopes with
  | [] => p
  | s :: rest => { lines := p.lines ++ [s], scopes := rest }

/-- Forgets the lines. -/
def clear (p : Profile) : Profile := { p with lines := [] }

end Profile

end SpanTree
