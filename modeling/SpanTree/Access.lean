/-
SpanTree.Access — the detector of overlapping access to one resource.

Every operation on a tree may read or write far up the tree, so a tree
is one resource: a writer must not overlap any other access. A
`Tracker` counts the open sessions in one 32-bit word, two for each
session and the lowest bit for a writer. A read session is admitted
while the writer bit is clear, a write session only while the word is
zero. With a history, the tracker also keeps the kinds of the sessions
it admitted most recently in a ring indexed by a running counter.

A `Desk` holds named trackers and named sessions on them. A session that
was moved away keeps its name but closes nothing.
-/
import SpanTree.Table

namespace SpanTree

/-- The kind of a session; `none` marks a ring entry not yet written. -/
inductive SessionKind where
  | none
  | read
  | write
deriving DecidableEq, Repr

namespace SessionKind

/-- The kind in words. -/
def name : SessionKind → String
  | .none => "none"
  | .read => "read"
  | .write => "write"

/-- The kind with this code. -/
def ofCode? : Nat → Option SessionKind
  | 0 => some .none
  | 1 => some .read
  | 2 => some .write
  | _ => Option.none

/-- The words for a code; a code that names no kind is unknown. -/
def nameOfCode (code : Nat) : String :=
  match ofCode? code with
  | some kind => kind.name
  | Option.none => "unknown"

end SessionKind

/-- What a tracker reports about a session it refuses. -/
structure Overlap where
  /-- The kind of the refused session. -/
  attempted : SessionKind
  /-- The number of sessions that are open. -/
  sessions : UInt32
  /-- Whether one of them is a writer. -/
  writerOpen : Bool
  /-- The kinds of the sessions admitted most recently, oldest first. -/
  recent : List SessionKind
deriving DecidableEq, Repr

/-- A detector of overlapping sessions. -/
structure Tracker where
  /-- Twice the number of open sessions, with the writer bit lowest. -/
  word : UInt32 := 0
  /-- The ring of admitted kinds; its size is the capacity. -/
  ring : Array SessionKind := #[]
  /-- The number of sessions recorded so far. -/
  recorded : UInt64 := 0
deriving DecidableEq, Repr

namespace Tracker

/-- The bit of the word that an open writer sets. -/
def writerBit : UInt32 := 1

/-- What one open session adds to the word. -/
def sessionUnit : UInt32 := 2

/-- An idle tracker that remembers as many admitted sessions as the capacity says. -/
def idle (capacity : Nat) : Tracker := { ring := Array.replicate capacity .none }

/-- Whether the writer bit is set. -/
def writerOpen (t : Tracker) : Bool := t.word &&& writerBit != 0

/-- Writes an admitted kind over the oldest entry of the ring. -/
def record (t : Tracker) (kind : SessionKind) : Tracker :=
  if t.ring.size = 0 then t
  else
    { t with
      ring := t.ring.setIfInBounds (t.recorded.toNat % t.ring.size) kind
      recorded := t.recorded + 1 }

@[simp] theorem word_record (t : Tracker) (kind : SessionKind) :
    (t.record kind).word = t.word := by
  unfold record
  split <;> rfl

/-- The kinds in the ring, oldest first. -/
def recent (t : Tracker) : List SessionKind :=
  let count := min t.recorded.toNat t.ring.size
  (List.range count).map fun k =>
    t.ring.getD ((t.recorded.toNat - count + k) % t.ring.size) .none

/-- The report on a refused session. -/
def refusal (t : Tracker) (attempted : SessionKind) : Overlap :=
  { attempted, sessions := t.word / sessionUnit, writerOpen := t.writerOpen, recent := t.recent }

/-- Admits a reader unless a writer is open. -/
def openRead (t : Tracker) : Except Overlap Tracker :=
  if t.writerOpen then .error (t.refusal .read)
  else .ok ({ t with word := t.word + sessionUnit }.record .read)

/-- Admits a writer only when no session is open. -/
def openWrite (t : Tracker) : Except Overlap Tracker :=
  if t.word = 0 then .ok ({ t with word := sessionUnit ||| writerBit }.record .write)
  else .error (t.refusal .write)

/-- Opens a session of either kind. -/
def openSession (t : Tracker) : SessionKind → Except Overlap Tracker
  | .write => t.openWrite
  | _ => t.openRead

/-- Closes a session: a writer leaves the tracker idle, a reader gives back its unit. -/
def close (t : Tracker) : SessionKind → Tracker
  | .write => { t with word := 0 }
  | _ => { t with word := t.word - sessionUnit }

end Tracker

/-- What a session closes: a tracker, and the kind it was opened with. -/
structure Ticket where
  /-- The name of the tracker. -/
  tracker : String
  /-- The kind of the session. -/
  kind : SessionKind
deriving DecidableEq, Repr

/-- Named trackers and named sessions on them. -/
structure Desk where
  trackers : Table Tracker := {}
  /-- A session that was moved away holds no ticket. -/
  sessions : Table (Option Ticket) := {}

namespace Desk

/-- Adds an idle tracker. -/
def addTracker (d : Desk) (name : String) (capacity : Nat) : Desk :=
  { d with trackers := d.trackers.insert name (.idle capacity) }

/-- Opens a session on a tracker; a refused one leaves the desk as it is. -/
def openSession (d : Desk) (name tracker : String) (kind : SessionKind) : Except Overlap Desk :=
  match d.trackers.get? tracker with
  | none => .ok d
  | some t =>
    match t.openSession kind with
    | .error o => .error o
    | .ok t' =>
      .ok
        { trackers := d.trackers.insert tracker t'
          sessions := d.sessions.insert name (some ⟨tracker, kind⟩) }

/-- Notes a session that no tracker watches. -/
def openUntracked (d : Desk) (name : String) : Desk :=
  { d with sessions := d.sessions.insert name none }

/-- Moves a session to a new name; the old name stays, without its ticket. -/
def moveSession (d : Desk) (name target : String) : Desk :=
  match d.sessions.get? name with
  | none => d
  | some ticket =>
    { d with sessions := (d.sessions.insert name none).insert target ticket }

/-- Ends a session and closes what its ticket names. -/
def closeSession (d : Desk) (name : String) : Desk :=
  let closed := { d with sessions := d.sessions.erase name }
  match d.sessions.get? name with
  | some (some ticket) =>
    match d.trackers.get? ticket.tracker with
    | some t => { closed with trackers := d.trackers.insert ticket.tracker (t.close ticket.kind) }
    | none => closed
  | _ => closed

end Desk

end SpanTree
