/-
SpanTree.Proofs.Sessions — the word of a tracker counts its sessions.

A tracker sees openings and closings only; which sessions are open is
known to the desk, whose sessions hold the tickets. `Tracker.Tallies`
ties the two: the word is twice the number of readers while there is no
writer, and 3 while a writer is open, which is then alone. Admission and
refusal are decided by the word, so that on a word that tallies they are
decided by the sessions that are open.

The numbers of readers and writers are counts over the table of sessions
(`Desk.readers`, `Desk.writers`), so that every operation of the desk
changes them by what it puts into the table or takes from it. A session
that was moved away has no ticket and is not counted.

The bound on the number of sessions is asked for in one place, where a
reader is admitted: with `2 ^ 31` readers the word would be 0 again.
-/
import Mathlib.Algebra.Ring.Nat
import SpanTree.Workbench.Perform
import SpanTree.Proofs.Tables

namespace SpanTree

/-! ## One tracker -/

namespace Tracker

/-- The word says how many readers and writers there are. -/
def Tallies (t : Tracker) (readers writers : Nat) : Prop :=
  (writers = 0 ∧ t.word.toNat = 2 * readers) ∨ (writers = 1 ∧ readers = 0 ∧ t.word = 3)

variable {t : Tracker} {readers writers : Nat}

theorem tallies_idle (capacity : Nat) : (idle capacity).Tallies 0 0 := .inl ⟨rfl, rfl⟩

/-- The lowest bit of a word says whether it is odd. -/
theorem and_writerBit_eq_zero_iff (word : UInt32) :
    word &&& writerBit = 0 ↔ word.toNat % 2 = 0 := by
  rw [← UInt32.toNat_inj, UInt32.toNat_and, show writerBit.toNat = 1 from rfl, Nat.and_one_is_mod]
  rfl

/-- The writer bit is set where a writer is open. -/
theorem Tallies.writerOpen (h : t.Tallies readers writers) :
    t.writerOpen = decide (writers ≠ 0) := by
  unfold Tracker.writerOpen
  rcases h with ⟨rfl, hword⟩ | ⟨rfl, -, hword⟩
  · have heven : t.word &&& writerBit = 0 := by
      rw [and_writerBit_eq_zero_iff, hword]
      omega
    simp [heven]
  · rw [hword]
    rfl

/-- The word is zero where no session is open. -/
theorem Tallies.word_eq_zero_iff (h : t.Tallies readers writers) :
    t.word = 0 ↔ readers = 0 ∧ writers = 0 := by
  rcases h with ⟨rfl, hword⟩ | ⟨rfl, rfl, hword⟩
  · rw [← UInt32.toNat_inj, hword, show (0 : UInt32).toNat = 0 from rfl]
    omega
  · simp [hword]

/-- A refusal tells how many sessions are open, and whether one is a writer. -/
theorem Tallies.refusal (h : t.Tallies readers writers) (attempted : SessionKind) :
    t.refusal attempted =
      { attempted
        sessions := UInt32.ofNat (readers + writers)
        writerOpen := decide (writers ≠ 0)
        recent := t.recent } := by
  have hsessions : t.word / sessionUnit = UInt32.ofNat (readers + writers) := by
    have hbound := t.word.toNat_lt
    rw [← UInt32.toNat_inj, UInt32.toNat_div, show sessionUnit.toNat = 2 from rfl]
    rcases h with ⟨rfl, hword⟩ | ⟨rfl, rfl, hword⟩
    · rw [hword, UInt32.toNat_ofNat']
      omega
    · rw [hword]
      rfl
  rw [Tracker.refusal, hsessions, h.writerOpen]

/-- A reader is admitted while no writer is open. -/
theorem Tallies.openRead (h : t.Tallies readers writers) :
    t.openRead =
      if writers = 0 then .ok ({ t with word := t.word + sessionUnit }.record .read)
      else .error (t.refusal .read) := by
  unfold Tracker.openRead
  rw [h.writerOpen]
  by_cases hw : writers = 0 <;> simp [hw]

/-- A writer is admitted while no session is open. -/
theorem Tallies.openWrite (h : t.Tallies readers writers) :
    t.openWrite =
      if readers = 0 ∧ writers = 0 then
        .ok ({ t with word := sessionUnit ||| writerBit }.record .write)
      else .error (t.refusal .write) := by
  unfold Tracker.openWrite
  simp only [h.word_eq_zero_iff]

theorem Tallies.with_reader (h : t.Tallies readers 0) (hbound : readers + 1 < 2 ^ 31) :
    ({ t with word := t.word + sessionUnit }.record .read).Tallies (readers + 1) 0 := by
  have hword : t.word.toNat = 2 * readers := by
    rcases h with ⟨-, hword⟩ | ⟨hwriter, -⟩
    · exact hword
    · omega
  refine .inl ⟨rfl, ?_⟩
  rw [word_record, UInt32.toNat_add, hword, show sessionUnit.toNat = 2 from rfl]
  omega

theorem tallies_with_writer (t : Tracker) :
    ({ t with word := sessionUnit ||| writerBit }.record .write).Tallies 0 1 := by
  refine .inr ⟨rfl, rfl, ?_⟩
  rw [word_record]
  rfl

/-- A session that is admitted leaves the word saying that there is one more. -/
theorem Tallies.openSession (h : t.Tallies readers writers) {kind : SessionKind} {t' : Tracker}
    (hadm : t.openSession kind = .ok t') {readers' writers' : Nat}
    (hreaders : readers' = readers + if kind ≠ .write then 1 else 0)
    (hwriters : writers' = writers + if kind = .write then 1 else 0)
    (hbound : readers' < 2 ^ 31) : t'.Tallies readers' writers' := by
  have read (hkind : kind ≠ .write) (hopen : t.openSession kind = t.openRead) :
      t'.Tallies readers' writers' := by
    rw [hopen, h.openRead] at hadm
    rw [if_pos hkind] at hreaders
    rw [if_neg hkind] at hwriters
    subst hreaders hwriters
    split at hadm
    · next hnone =>
      cases hadm
      subst hnone
      exact h.with_reader hbound
    · cases hadm
  cases kind with
  | read => exact read (by decide) rfl
  | none => exact read (by decide) rfl
  | write =>
    rw [show t.openSession .write = t.openWrite from rfl, h.openWrite] at hadm
    subst hreaders hwriters
    split at hadm
    · next hnone =>
      cases hadm
      rw [hnone.1, hnone.2]
      exact tallies_with_writer t
    · cases hadm

/-- A reader that closes gives back its unit. -/
theorem Tallies.without_reader (h : t.Tallies (readers + 1) writers) {kind : SessionKind}
    (hkind : kind ≠ .write) : (t.close kind).Tallies readers writers := by
  rcases h with ⟨rfl, hword⟩ | ⟨-, hreaders, -⟩
  · have hclose : (t.close kind).word = t.word - sessionUnit := by
      cases kind with
      | write => exact absurd rfl hkind
      | read => rfl
      | none => rfl
    have hunit : sessionUnit.toNat = 2 := rfl
    refine .inl ⟨rfl, ?_⟩
    rw [hclose, UInt32.toNat_sub_of_le _ _ (by rw [UInt32.le_iff_toNat_le]; omega), hword, hunit]
    omega
  · omega

/-- A writer that closes leaves no session open. -/
theorem Tallies.without_writer (h : t.Tallies readers (writers + 1)) :
    (t.close .write).Tallies readers writers := by
  rcases h with ⟨hwriters, -⟩ | ⟨hwriters, rfl, -⟩
  · omega
  · exact .inl ⟨by omega, rfl⟩

end Tracker

/-! ## The sessions of a desk -/

namespace Desk

/-- Whether a session, if it has a ticket, reads on a tracker. -/
def readsOn (tracker : String) : Option Ticket → Bool
  | some ticket => tracker = ticket.tracker ∧ ticket.kind ≠ .write
  | none => false

/-- Whether a session, if it has a ticket, writes on a tracker. -/
def writesOn (tracker : String) : Option Ticket → Bool
  | some ticket => tracker = ticket.tracker ∧ ticket.kind = .write
  | none => false

/-- The number of read sessions that are open on a tracker. -/
def readers (d : Desk) (tracker : String) : Nat := d.sessions.count (readsOn tracker)

/-- The number of write sessions that are open on a tracker. -/
def writers (d : Desk) (tracker : String) : Nat := d.sessions.count (writesOn tracker)

/-- The number of sessions that are open on a tracker. -/
def openOn (d : Desk) (tracker : String) : Nat := d.readers tracker + d.writers tracker

/-- The tracker with a name, if the desk has one, tallies with its sessions. -/
structure Keeps (d : Desk) (tracker : String) : Prop where
  trackers : d.trackers.Ordered
  sessions : d.sessions.Ordered
  tallies : ∀ t, d.trackers.get? tracker = some t →
    t.Tallies (d.readers tracker) (d.writers tracker)
  idle : d.trackers.get? tracker = none → d.openOn tracker = 0

variable {d d' : Desk} {name target tracker other : String} {t : Tracker}

/-- A desk without trackers and sessions. -/
theorem keeps_new (tracker : String) : ({} : Desk).Keeps tracker where
  trackers := Table.ordered_empty
  sessions := Table.ordered_empty
  tallies t h := by simp [Table.get?] at h
  idle _ := rfl

/-- A tracker is made under a new name. -/
theorem Keeps.addTracker (h : d.Keeps tracker) (hfree : d.trackers.get? name = none)
    (capacity : Nat) : (d.addTracker name capacity).Keeps tracker where
  trackers := h.trackers.insert name (.idle capacity)
  sessions := h.sessions
  tallies t ht := by
    change (d.trackers.insert name (.idle capacity)).get? tracker = some t at ht
    rw [Table.get?_insert] at ht
    split at ht
    · next heq =>
      subst heq
      cases ht
      have hidle : d.readers tracker + d.writers tracker = 0 := h.idle hfree
      change (Tracker.idle capacity).Tallies (d.readers tracker) (d.writers tracker)
      rw [show d.readers tracker = 0 by omega, show d.writers tracker = 0 by omega]
      exact Tracker.tallies_idle capacity
    · exact h.tallies t ht
  idle hnone := by
    change (d.trackers.insert name (.idle capacity)).get? tracker = none at hnone
    rw [Table.get?_insert] at hnone
    split at hnone
    · cases hnone
    · exact h.idle hnone

/-- The tables of a desk change, and nothing that concerns the tracker does. -/
theorem Keeps.of_other (h : d.Keeps tracker) (htrackers : d'.trackers.Ordered)
    (hsessions : d'.sessions.Ordered)
    (hget : d'.trackers.get? tracker = d.trackers.get? tracker)
    (hreaders : d'.readers tracker = d.readers tracker)
    (hwriters : d'.writers tracker = d.writers tracker) : d'.Keeps tracker where
  trackers := htrackers
  sessions := hsessions
  tallies t ht := by
    rw [hreaders, hwriters]
    exact h.tallies t (hget ▸ ht)
  idle hnone := by
    rw [openOn, hreaders, hwriters]
    exact h.idle (hget ▸ hnone)

/-- One tracker of the desk changes together with the sessions. If it is another one, the
sessions on this one must be as many as before; otherwise it must tally with the new ones. -/
theorem Keeps.change (h : d.Keeps tracker) {sessions : Table (Option Ticket)}
    (hsessions : sessions.Ordered)
    (hother : tracker ≠ other → sessions.count (readsOn tracker) = d.readers tracker ∧
      sessions.count (writesOn tracker) = d.writers tracker)
    (htallies : tracker = other →
      t.Tallies (sessions.count (readsOn tracker)) (sessions.count (writesOn tracker))) :
    Keeps ⟨d.trackers.insert other t, sessions⟩ tracker := by
  have htrackers := h.trackers.insert other t
  have hget := d.trackers.get?_insert other tracker t
  by_cases heq : tracker = other
  · rw [if_pos heq] at hget
    refine ⟨htrackers, hsessions, fun u hu => ?_, fun hnone => ?_⟩
    · change (d.trackers.insert other t).get? tracker = some u at hu
      rw [hget, Option.some.injEq] at hu
      exact hu ▸ htallies heq
    · change (d.trackers.insert other t).get? tracker = none at hnone
      rw [hget] at hnone
      cases hnone
  · rw [if_neg heq] at hget
    obtain ⟨hreaders, hwriters⟩ := hother heq
    exact h.of_other htrackers hsessions hget hreaders hwriters

/-! ## What a session counts -/

theorem share_readsOn (tracker other : String) (kind : SessionKind) :
    Table.share (readsOn tracker) (some (some ⟨other, kind⟩)) =
      if tracker = other ∧ kind ≠ .write then 1 else 0 := by
  simp [Table.share, readsOn]

theorem share_writesOn (tracker other : String) (kind : SessionKind) :
    Table.share (writesOn tracker) (some (some ⟨other, kind⟩)) =
      if tracker = other ∧ kind = .write then 1 else 0 := by
  simp [Table.share, writesOn]

theorem share_none {p : Option Ticket → Bool} (hp : p none = false) :
    Table.share p (some none) = 0 := by
  simp [Table.share, hp]

/-! ## Opening -/

/-- A new session is counted as what its ticket says. -/
theorem count_opened (h : d.sessions.Ordered) (hfree : d.sessions.get? name = none)
    (p : Option Ticket → Bool) (session : Option Ticket) :
    (d.sessions.insert name session).count p =
      d.sessions.count p + Table.share p (some session) := by
  have hcount := h.count_insert p name session
  rw [hfree] at hcount
  exact hcount

/-- A session is admitted, and the desk notes it. -/
theorem openSession_eq_ok {kind : SessionKind} {t' : Tracker} (ht : d.trackers.get? other = some t)
    (hopen : t.openSession kind = .ok t') :
    d.openSession name other kind =
      .ok ⟨d.trackers.insert other t', d.sessions.insert name (some ⟨other, kind⟩)⟩ := by
  simp only [openSession, ht, hopen]

/-- A session is refused. -/
theorem openSession_eq_error {kind : SessionKind} {o : Overlap}
    (ht : d.trackers.get? other = some t) (hopen : t.openSession kind = .error o) :
    d.openSession name other kind = .error o := by
  simp only [openSession, ht, hopen]

/-- A session that is admitted under a new name leaves the tracker tallying, as long as the
readers fit into the word. -/
theorem Keeps.openSession (h : d.Keeps tracker) (hfree : d.sessions.get? name = none)
    {kind : SessionKind} (hopen : d.openSession name other kind = .ok d')
    (hbound : d'.openOn tracker < 2 ^ 31) : d'.Keeps tracker := by
  cases ht : d.trackers.get? other with
  | none =>
    simp only [Desk.openSession, ht, Except.ok.injEq] at hopen
    exact hopen ▸ h
  | some t =>
    cases hadm : t.openSession kind with
    | error o =>
      rw [openSession_eq_error ht hadm] at hopen
      cases hopen
    | ok t' =>
      rw [openSession_eq_ok ht hadm, Except.ok.injEq] at hopen
      subst hopen
      have hreaders := count_opened h.sessions hfree (readsOn tracker) (some ⟨other, kind⟩)
      have hwriters := count_opened h.sessions hfree (writesOn tracker) (some ⟨other, kind⟩)
      rw [share_readsOn] at hreaders
      rw [share_writesOn] at hwriters
      refine h.change (h.sessions.insert name _) (fun hne => ?_) fun heq => ?_
      · rw [hreaders, hwriters, if_neg (fun hc => hne hc.1), if_neg (fun hc => hne hc.1)]
        exact ⟨rfl, rfl⟩
      · subst heq
        have hfits : (d.sessions.insert name (some ⟨tracker, kind⟩)).count (readsOn tracker) <
            2 ^ 31 := Nat.lt_of_le_of_lt (Nat.le_add_right _ _) hbound
        exact (h.tallies t ht).openSession hadm
          (by rw [hreaders]; simp [readers]) (by rw [hwriters]; simp [writers]) hfits

/-! ## Moving -/

/-- A move changes the names of sessions, and nothing that is counted. -/
theorem count_moved (h : d.sessions.Ordered) (htarget : d.sessions.get? target = none)
    {p : Option Ticket → Bool} (hp : p none = false) :
    (d.moveSession name target).sessions.count p = d.sessions.count p := by
  cases hname : d.sessions.get? name with
  | none => simp only [moveSession, hname]
  | some session =>
    have hne : target ≠ name := by
      rintro rfl
      rw [htarget] at hname
      cases hname
    have hleft := h.count_insert p name none
    have hput := (h.insert name none).count_insert p target session
    rw [Table.get?_insert, if_neg hne, htarget] at hput
    rw [hname, share_none hp] at hleft
    simp only [moveSession, hname]
    simp only [Table.share] at hleft hput
    omega

theorem trackers_moveSession (d : Desk) (name target : String) :
    (d.moveSession name target).trackers = d.trackers := by
  unfold moveSession
  split <;> rfl

/-- A session that moves leaves the tracker tallying. -/
theorem Keeps.moveSession (h : d.Keeps tracker) (htarget : d.sessions.get? target = none) :
    (d.moveSession name target).Keeps tracker := by
  have htrackers := trackers_moveSession d name target
  have hsessions : (d.moveSession name target).sessions.Ordered := by
    unfold Desk.moveSession
    split
    · exact h.sessions
    · exact (h.sessions.insert name none).insert target _
  refine h.of_other (htrackers ▸ h.trackers) hsessions (by rw [htrackers]) ?_ ?_
  · exact count_moved h.sessions htarget rfl
  · exact count_moved h.sessions htarget rfl

/-! ## Closing -/

/-- A session that ends is no longer counted. -/
theorem count_closed (h : d.sessions.Ordered) {session : Option Ticket}
    (hname : d.sessions.get? name = some session) (p : Option Ticket → Bool) :
    (d.sessions.erase name).count p + Table.share p (some session) = d.sessions.count p :=
  h.count_erase p hname

/-- Closing a session without a ticket closes nothing. -/
theorem closeSession_of_moved (hname : d.sessions.get? name = some none) :
    d.closeSession name = { d with sessions := d.sessions.erase name } := by
  simp only [closeSession, hname]

/-- Closing a session with a ticket closes a session of its tracker. -/
theorem closeSession_of_ticket {kind : SessionKind}
    (hname : d.sessions.get? name = some (some ⟨other, kind⟩))
    (ht : d.trackers.get? other = some t) :
    d.closeSession name =
      ⟨d.trackers.insert other (t.close kind), d.sessions.erase name⟩ := by
  simp only [closeSession, hname, ht]

theorem sessions_closeSession (d : Desk) (name : String) :
    (d.closeSession name).sessions = d.sessions.erase name := by
  unfold closeSession
  dsimp only
  repeat' split
  all_goals rfl

/-- A session that is closed is gone, and the other ones stay. -/
theorem get?_sessions_closeSession (d : Desk) (name other : String) :
    (d.closeSession name).sessions.get? other =
      if other = name then none else d.sessions.get? other := by
  rw [sessions_closeSession, Table.get?_erase]

/-- A tracker changes when a session on it is closed, and only then. -/
theorem get?_trackers_closeSession (ht : d.trackers.get? tracker = some t) (name : String) :
    (d.closeSession name).trackers.get? tracker =
      match d.sessions.get? name with
      | some (some ticket) => some (if tracker = ticket.tracker then t.close ticket.kind else t)
      | _ => some t := by
  cases hname : d.sessions.get? name with
  | none => simpa only [closeSession, hname]
  | some session =>
    cases session with
    | none => simpa only [closeSession, hname]
    | some ticket =>
      obtain ⟨other, kind⟩ := ticket
      cases hother : d.trackers.get? other with
      | none =>
        have hne : tracker ≠ other := by
          rintro rfl
          rw [hother] at ht
          cases ht
        simpa only [closeSession, hname, hother, if_neg hne]
      | some u =>
        rw [closeSession_of_ticket hname hother]
        dsimp only
        rw [Table.get?_insert]
        split
        · next heq =>
          subst heq
          rw [ht, Option.some.injEq] at hother
          rw [hother]
        · exact ht

/-- No session is open on a tracker if no session has a ticket of it. -/
theorem count_eq_zero (h : d.sessions.Ordered)
    (hnone : ∀ name ticket, d.sessions.get? name = some (some ticket) → ticket.tracker ≠ tracker) :
    d.readers tracker = 0 ∧ d.writers tracker = 0 := by
  refine ⟨h.count_eq_zero fun name session hname => ?_,
    h.count_eq_zero fun name session hname => ?_⟩ <;> cases session with
  | none => rfl
  | some ticket => simp [readsOn, writesOn, Ne.symm (hnone name ticket hname)]

/-- A session that ends leaves the tracker tallying. -/
theorem Keeps.closeSession (h : d.Keeps tracker) {session : Option Ticket}
    (hname : d.sessions.get? name = some session) : (d.closeSession name).Keeps tracker := by
  have hsessions : (d.sessions.erase name).Ordered := h.sessions.erase name
  have hreaders := count_closed h.sessions hname (readsOn tracker)
  have hwriters := count_closed h.sessions hname (writesOn tracker)
  cases session with
  | none =>
    rw [share_none rfl] at hreaders hwriters
    rw [closeSession_of_moved hname]
    exact h.of_other h.trackers hsessions rfl hreaders hwriters
  | some ticket =>
    obtain ⟨other, kind⟩ := ticket
    rw [share_readsOn] at hreaders
    rw [share_writesOn] at hwriters
    cases ht : d.trackers.get? other with
    | none =>
      have hclose : d.closeSession name = { d with sessions := d.sessions.erase name } := by
        simp only [Desk.closeSession, hname, ht]
      have hne : tracker ≠ other := by
        -- a tracker that the desk does not have has no sessions
        rintro rfl
        have hzero : d.sessions.count (readsOn tracker) + d.sessions.count (writesOn tracker) = 0 :=
          h.idle ht
        by_cases hkind : kind = .write <;> simp [hkind] at hreaders hwriters <;> omega
      rw [if_neg (fun hc => hne hc.1)] at hreaders hwriters
      rw [hclose]
      exact h.of_other h.trackers hsessions rfl hreaders hwriters
    | some t =>
      rw [closeSession_of_ticket hname ht]
      refine h.change hsessions (fun hne => ?_) fun heq => ?_
      · rw [if_neg (fun hc => hne hc.1)] at hreaders hwriters
        exact ⟨hreaders, hwriters⟩
      · subst heq
        have hnow : t.Tallies (d.sessions.count (readsOn tracker))
            (d.sessions.count (writesOn tracker)) := h.tallies t ht
        rw [← hreaders, ← hwriters] at hnow
        by_cases hkind : kind = .write
        · subst hkind
          exact Tracker.Tallies.without_writer (by simpa using hnow)
        · exact Tracker.Tallies.without_reader (by simpa [hkind] using hnow) hkind

end Desk

/-! ## Scripts -/

namespace Workbench

/-- The result of a part of a script on a bench, and the bench after it. -/
def outcome {α : Type} (x : Script α) (b : Bench) : Except Failure α × Bench := x.run.run b

section Outcome

variable {α β : Type} {x : Script α} {b b' : Bench}

theorem outcome_bind_ok {a : α} (h : outcome x b = (.ok a, b')) (k : α → Script β) :
    outcome (x >>= k) b = outcome (k a) b' := by
  have hx : x b = (.ok a, b') := h
  simp [outcome, StateT.run, ExceptT.run, bind, ExceptT.bind, ExceptT.mk, StateT.bind, hx,
    ExceptT.bindCont]

theorem outcome_bind_error {e : Failure} (h : outcome x b = (.error e, b')) (k : α → Script β) :
    outcome (x >>= k) b = (.error e, b') := by
  have hx : x b = (.error e, b') := h
  simp [outcome, StateT.run, ExceptT.run, bind, ExceptT.bind, ExceptT.mk, StateT.bind, hx,
    ExceptT.bindCont]
  rfl

theorem outcome_pure (a : α) : outcome (pure a) b = (.ok a, b) := rfl

theorem outcome_bench : outcome Script.bench b = (.ok b, b) := rfl

theorem outcome_refuse (r : Refusal) :
    outcome (Script.refuse r : Script α) b = (.error (.refusal r), b) := rfl

end Outcome

/-- What a script may ask of trackers and sessions. -/
inductive DeskCommand where
  | newTracker (name : String)
  | openRead (session tracker : String)
  | openWrite (session tracker : String)
  | move (session target : String)
  | close (session : String)
deriving DecidableEq, Repr

/-- The command of a script. -/
def DeskCommand.command : DeskCommand → Command
  | .newTracker name => .newTracker name
  | .openRead session tracker => .tracker tracker (.openSession session (.ok .read))
  | .openWrite session tracker => .tracker tracker (.openSession session (.ok .write))
  | .move session target => .session session (.moveTo target)
  | .close session => .session session .close

namespace Bench

/-- The result of a command on a bench, and the bench after it. -/
def obey (b : Bench) (c : DeskCommand) : Except Failure Result × Bench :=
  outcome (Script.command c.command) b

/-- The bench after some commands, whether or not each of them could be carried out. -/
def after (b : Bench) (cs : List DeskCommand) : Bench := cs.foldl (fun b c => (b.obey c).2) b

variable {b : Bench} {name session target tracker : String} {kind : SessionKind}

/-! ### One command -/

theorem outcome_requireFreeSession (b : Bench) (name : String) :
    outcome (Script.requireFreeSession name) b =
      if b.desk.sessions.contains name then (.error (.refusal .nameInUse), b) else (.ok ⟨⟩, b) := by
  rw [Script.requireFreeSession, outcome_bind_ok outcome_bench]
  split
  · exact outcome_refuse _
  · exact outcome_pure _

/-- A session is opened on a tracker that there is, under a name that is free. -/
theorem outcome_openSession (htracking : b.forest.settings.tracking = true) (session : String)
    (tracker : String) (kind : SessionKind) :
    outcome (Script.command (.tracker tracker (.openSession session (.ok kind)))) b =
      if !b.desk.trackers.contains tracker then (.error (.refusal .noSuchTracker), b)
      else if b.desk.sessions.contains session then (.error (.refusal .nameInUse), b)
      else
        match b.desk.openSession session tracker kind with
        | .ok desk => (.ok .nothing, { b with desk })
        | .error o => (.error (.fault (.overlap o)), b) := by
  rw [Script.command, outcome_bind_ok outcome_bench]
  cases htracker : b.desk.trackers.contains tracker with
  | false => exact outcome_bind_error (outcome_refuse _) _
  | true =>
    have hfree := outcome_requireFreeSession b session
    simp only [Bool.not_true, Bool.false_eq_true, if_false] at hfree ⊢
    rw [Script.tracker]
    cases hsession : b.desk.sessions.contains session with
    | true =>
      rw [hsession] at hfree
      exact outcome_bind_error hfree _
    | false =>
      rw [hsession] at hfree
      rw [outcome_bind_ok hfree, Script.readable, outcome_bind_ok (outcome_pure _),
        outcome_bind_ok outcome_bench, htracking]
      simp only [if_true, Bool.false_eq_true, if_false]
      cases b.desk.openSession session tracker kind with
      | ok desk => rfl
      | error o => rfl

theorem outcome_newTracker (b : Bench) (name : String) :
    outcome (Script.command (.newTracker name)) b =
      if b.desk.trackers.contains name then (.error (.refusal .nameInUse), b)
      else (.ok .nothing,
        { b with desk := b.desk.addTracker name b.forest.settings.history }) := by
  rw [Script.command, Script.newTracker, outcome_bind_ok outcome_bench]
  split
  · exact outcome_bind_error (outcome_refuse _) _
  · rfl

theorem outcome_moveSession (b : Bench) (session target : String) :
    outcome (Script.command (.session session (.moveTo target))) b =
      if !b.desk.sessions.contains session then (.error (.refusal .noSuchSession), b)
      else if b.desk.sessions.contains target then (.error (.refusal .nameInUse), b)
      else (.ok .nothing, { b with desk := b.desk.moveSession session target }) := by
  rw [Script.command, outcome_bind_ok outcome_bench]
  cases b.desk.sessions.contains session with
  | false => exact outcome_bind_error (outcome_refuse _) _
  | true =>
    have hfree := outcome_requireFreeSession b target
    simp only [Bool.not_true, Bool.false_eq_true, if_false]
    rw [Script.session]
    cases htarget : b.desk.sessions.contains target with
    | true =>
      rw [htarget] at hfree
      exact outcome_bind_error hfree _
    | false =>
      rw [htarget] at hfree
      rw [outcome_bind_ok hfree]
      rfl

theorem outcome_closeSession (b : Bench) (session : String) :
    outcome (Script.command (.session session .close)) b =
      if !b.desk.sessions.contains session then (.error (.refusal .noSuchSession), b)
      else (.ok .nothing, { b with desk := b.desk.closeSession session }) := by
  rw [Script.command, outcome_bind_ok outcome_bench]
  split
  · exact outcome_bind_error (outcome_refuse _) _
  · rfl

/-! ### A run of commands -/

/-- A name that a table does not contain has no value there. -/
theorem get?_of_not_contains {α : Type} {t : Table α} (h : t.contains name = false) :
    t.get? name = none := by
  rwa [Table.contains_eq_isSome, Option.isSome_eq_false_iff, Option.isNone_iff_eq_none] at h

/-- The commands leave the forest alone. -/
theorem forest_obey (htracking : b.forest.settings.tracking = true) (c : DeskCommand) :
    (b.obey c).2.forest = b.forest := by
  have opening (session tracker : String) (kind : SessionKind) : (outcome (Script.command
      (.tracker tracker (.openSession session (.ok kind)))) b).2.forest = b.forest := by
    rw [outcome_openSession htracking]
    repeat' split
    all_goals rfl
  unfold obey DeskCommand.command
  cases c with
  | newTracker name =>
    dsimp only
    rw [outcome_newTracker]
    split <;> rfl
  | openRead session tracker => exact opening session tracker .read
  | openWrite session tracker => exact opening session tracker .write
  | move session target =>
    dsimp only
    rw [outcome_moveSession]
    repeat' split
    all_goals rfl
  | close session =>
    dsimp only
    rw [outcome_closeSession]
    split <;> rfl

/-- **Every command** leaves a tracker tallying with the sessions of the desk. -/
theorem keeps_obey (htracking : b.forest.settings.tracking = true) {k : String}
    (h : b.desk.Keeps k) (c : DeskCommand) (hbound : (b.obey c).2.desk.openOn k < 2 ^ 31) :
    (b.obey c).2.desk.Keeps k := by
  have opening (session tracker : String) (kind : SessionKind)
      (hbound : (outcome (Script.command
        (.tracker tracker (.openSession session (.ok kind)))) b).2.desk.openOn k < 2 ^ 31) :
      (outcome (Script.command
        (.tracker tracker (.openSession session (.ok kind)))) b).2.desk.Keeps k := by
    rw [outcome_openSession htracking] at hbound ⊢
    split
    · exact h
    · split
      · exact h
      · next htracker hfree =>
        rw [if_neg htracker, if_neg hfree] at hbound
        cases hopen : b.desk.openSession session tracker kind with
        | error o => exact h
        | ok desk =>
          rw [hopen] at hbound
          exact h.openSession (get?_of_not_contains (by simpa using hfree)) hopen hbound
  unfold obey DeskCommand.command at hbound ⊢
  cases c with
  | newTracker name =>
    dsimp only
    rw [outcome_newTracker]
    split
    · exact h
    · next hfree => exact h.addTracker (get?_of_not_contains (by simpa using hfree)) _
  | openRead session tracker => exact opening session tracker .read hbound
  | openWrite session tracker => exact opening session tracker .write hbound
  | move session target =>
    dsimp only
    rw [outcome_moveSession]
    split
    · exact h
    · split
      · exact h
      · next hfree => exact h.moveSession (get?_of_not_contains (by simpa using hfree))
  | close session =>
    dsimp only
    rw [outcome_closeSession]
    split
    · exact h
    · next hlive =>
      rw [Bool.not_eq_true, Bool.not_eq_false', Table.contains_eq_isSome,
        Option.isSome_iff_exists] at hlive
      obtain ⟨ticket, hticket⟩ := hlive
      exact h.closeSession hticket

/-- A run of commands leaves a tracker tallying, if the sessions on it always fit into the
word. The induction is on the commands, with the bench they start from. -/
theorem keeps_after (cs : List DeskCommand) (htracking : b.forest.settings.tracking = true)
    {k : String} (h : b.desk.Keeps k)
    (hbound : ∀ n, (b.after (cs.take n)).desk.openOn k < 2 ^ 31) :
    (b.after cs).forest = b.forest ∧ (b.after cs).desk.Keeps k := by
  induction cs generalizing b with
  | nil => exact ⟨rfl, h⟩
  | cons c cs ih =>
    have hforest := forest_obey htracking c
    have hnow : (b.obey c).2.desk.Keeps k := keeps_obey htracking h c (hbound 1)
    obtain ⟨hsame, hlast⟩ :=
      ih (b := (b.obey c).2) (hforest ▸ htracking) hnow fun n => hbound (n + 1)
    exact ⟨hsame.trans hforest, hlast⟩

/-! ### Asking for a session -/

section Asking

variable {k : String} {t t' : Tracker} {o : Overlap}

/-- A session is asked for under a free name on a tracker that there is. -/
theorem outcome_asked (htracking : b.forest.settings.tracking = true)
    (ht : b.desk.trackers.get? k = some t) (hfree : b.desk.sessions.get? session = none) :
    outcome (Script.command (.tracker k (.openSession session (.ok kind)))) b =
      match b.desk.openSession session k kind with
      | .ok desk => (.ok .nothing, { b with desk })
      | .error o => (.error (.fault (.overlap o)), b) := by
  have htracker : b.desk.trackers.contains k = true := by
    rw [Table.contains_eq_isSome, ht]
    rfl
  have hsession : b.desk.sessions.contains session = false := by
    rw [Table.contains_eq_isSome, hfree]
    rfl
  rw [outcome_openSession htracking, htracker, hsession]
  rfl

/-- A session that the tracker admits is one more. -/
theorem outcome_admitted (htracking : b.forest.settings.tracking = true) (h : b.desk.Keeps k)
    (ht : b.desk.trackers.get? k = some t) (hfree : b.desk.sessions.get? session = none)
    (hopen : t.openSession kind = .ok t') :
    ∃ next,
      outcome (Script.command (.tracker k (.openSession session (.ok kind)))) b =
        (.ok .nothing, next) ∧
      next.desk.readers k = b.desk.readers k + (if kind ≠ .write then 1 else 0) ∧
      next.desk.writers k = b.desk.writers k + (if kind = .write then 1 else 0) := by
  have hreaders := Desk.count_opened h.sessions hfree (Desk.readsOn k) (some ⟨k, kind⟩)
  have hwriters := Desk.count_opened h.sessions hfree (Desk.writesOn k) (some ⟨k, kind⟩)
  rw [Desk.share_readsOn] at hreaders
  rw [Desk.share_writesOn] at hwriters
  rw [outcome_asked htracking ht hfree, Desk.openSession_eq_ok ht hopen]
  refine ⟨_, rfl, ?_, ?_⟩
  · simpa [Desk.readers] using hreaders
  · simpa [Desk.writers] using hwriters

/-- A session that the tracker refuses changes nothing. -/
theorem outcome_refused (htracking : b.forest.settings.tracking = true)
    (ht : b.desk.trackers.get? k = some t) (hfree : b.desk.sessions.get? session = none)
    (hopen : t.openSession kind = .error o) :
    outcome (Script.command (.tracker k (.openSession session (.ok kind)))) b =
      (.error (.fault (.overlap o)), b) := by
  rw [outcome_asked htracking ht hfree, Desk.openSession_eq_error ht hopen]

/-- A writer is admitted where no session is open. -/
theorem outcome_writer (htracking : b.forest.settings.tracking = true) (h : b.desk.Keeps k)
    (ht : b.desk.trackers.get? k = some t) (hfree : b.desk.sessions.get? session = none)
    (hnone : b.desk.readers k = 0 ∧ b.desk.writers k = 0) :
    ∃ next, b.obey (.openWrite session k) = (.ok .nothing, next) ∧
      next.desk.readers k = 0 ∧ next.desk.writers k = 1 := by
  have hopen : t.openSession .write = _ := (h.tallies t ht).openWrite
  rw [if_pos hnone] at hopen
  obtain ⟨next, hnext, hreaders, hwriters⟩ := outcome_admitted htracking h ht hfree hopen
  refine ⟨next, hnext, hreaders.trans hnone.1, hwriters.trans ?_⟩
  rw [hnone.2]
  rfl

end Asking

/-! ### Moving and closing -/

/-- A session that moves leaves its name without a ticket, and what is open open. -/
theorem outcome_moved (h : b.desk.sessions.Ordered) {ticket : Option Ticket}
    (hsession : b.desk.sessions.get? session = some ticket)
    (htarget : b.desk.sessions.get? target = none) (k : String) :
    ∃ next,
      outcome (Script.command (.session session (.moveTo target))) b = (.ok .nothing, next) ∧
      next.desk.trackers = b.desk.trackers ∧
      next.desk.sessions.get? session = some none ∧
      next.desk.sessions.get? target = some ticket ∧
      next.desk.readers k = b.desk.readers k ∧ next.desk.writers k = b.desk.writers k := by
  have hne : session ≠ target := by
    rintro rfl
    rw [htarget] at hsession
    cases hsession
  have hmove : (b.desk.moveSession session target).sessions =
      (b.desk.sessions.insert session none).insert target ticket := by
    simp only [Desk.moveSession, hsession]
  refine ⟨{ b with desk := b.desk.moveSession session target }, ?_,
    Desk.trackers_moveSession _ _ _, ?_, ?_, Desk.count_moved h htarget rfl,
    Desk.count_moved h htarget rfl⟩
  · rw [outcome_moveSession, Table.contains_eq_isSome, Table.contains_eq_isSome, hsession, htarget]
    rfl
  · dsimp only
    rw [hmove, Table.get?_insert, if_neg hne, Table.get?_insert, if_pos rfl]
  · dsimp only
    rw [hmove, Table.get?_insert, if_pos rfl]

/-- A session that was moved away closes nothing. -/
theorem outcome_forgotten (h : b.desk.sessions.Ordered)
    (hsession : b.desk.sessions.get? session = some none) (k : String) :
    ∃ next, outcome (Script.command (.session session .close)) b = (.ok .nothing, next) ∧
      next.desk.trackers = b.desk.trackers ∧
      next.desk.readers k = b.desk.readers k ∧ next.desk.writers k = b.desk.writers k := by
  have hcount (p : Option Ticket → Bool) (hp : p none = false) :
      (b.desk.sessions.erase session).count p = b.desk.sessions.count p := by
    have hclosed := Desk.count_closed h hsession p
    rwa [Desk.share_none hp] at hclosed
  refine ⟨{ b with desk := { b.desk with sessions := b.desk.sessions.erase session } }, ?_, rfl,
    hcount (Desk.readsOn k) rfl, hcount (Desk.writesOn k) rfl⟩
  rw [outcome_closeSession, Desk.closeSession_of_moved hsession, Table.contains_eq_isSome, hsession]
  rfl

/-- A session that holds a ticket closes one session of its tracker: a reader leaves one reader
less, a writer leaves no session. Another tracker stays as it is. -/
theorem outcome_closed {k : String} {t : Tracker} {ticket : Ticket} (h : b.desk.Keeps k)
    (ht : b.desk.trackers.get? k = some t)
    (hsession : b.desk.sessions.get? session = some (some ticket)) :
    ∃ next t', outcome (Script.command (.session session .close)) b = (.ok .nothing, next) ∧
      (∀ other, next.desk.sessions.get? other =
        if other = session then none else b.desk.sessions.get? other) ∧
      next.desk.trackers.get? k = some t' ∧
      (ticket.tracker ≠ k → t' = t ∧
        next.desk.readers k = b.desk.readers k ∧ next.desk.writers k = b.desk.writers k) ∧
      (ticket.tracker = k → ticket.kind ≠ .write →
        next.desk.readers k + 1 = b.desk.readers k ∧ next.desk.writers k = 0 ∧
        t'.word.toNat = 2 * next.desk.readers k) ∧
      (ticket.tracker = k → ticket.kind = .write →
        b.desk.readers k = 0 ∧ b.desk.writers k = 1 ∧
        next.desk.readers k = 0 ∧ next.desk.writers k = 0 ∧ t'.word = 0) := by
  obtain ⟨other, kind⟩ := ticket
  have hget := Desk.get?_trackers_closeSession ht session
  rw [hsession] at hget
  have htallies := (h.closeSession hsession).tallies _ hget
  have hreaders := Desk.count_closed h.sessions hsession (Desk.readsOn k)
  have hwriters := Desk.count_closed h.sessions hsession (Desk.writesOn k)
  rw [Desk.share_readsOn, ← Desk.sessions_closeSession] at hreaders
  rw [Desk.share_writesOn, ← Desk.sessions_closeSession] at hwriters
  change (b.desk.closeSession session).readers k + _ = b.desk.readers k at hreaders
  change (b.desk.closeSession session).writers k + _ = b.desk.writers k at hwriters
  refine ⟨{ b with desk := b.desk.closeSession session }, _, ?_,
    b.desk.get?_sessions_closeSession session, hget, fun hne => ?_, fun heq hkind => ?_,
    fun heq hkind => ?_⟩
  · rw [outcome_closeSession, Table.contains_eq_isSome, hsession]
    rfl
  · have hne' : k ≠ other := Ne.symm hne
    rw [if_neg fun hc => hne' hc.1] at hreaders hwriters
    exact ⟨if_neg hne', hreaders, hwriters⟩
  · obtain rfl : other = k := heq
    rw [if_pos ⟨rfl, hkind⟩] at hreaders
    rw [if_neg fun hc => hkind hc.2] at hwriters
    -- there was a reader, so that no writer was open
    have hnone : b.desk.writers other = 0 := by
      rcases h.tallies t ht with ⟨hnone, -⟩ | ⟨-, hno, -⟩ <;> omega
    have hnone' : (b.desk.closeSession session).writers other = 0 := by omega
    refine ⟨hreaders, hnone', ?_⟩
    rcases htallies with ⟨-, hword⟩ | ⟨hsome, -⟩
    · exact hword
    · omega
  · obtain rfl : other = k := heq
    rw [if_neg fun hc => hc.2 hkind] at hreaders
    rw [if_pos ⟨rfl, hkind⟩] at hwriters
    have hnow : b.desk.readers other = 0 ∧ b.desk.writers other = 1 := by
      rcases h.tallies t ht with ⟨hno, -⟩ | ⟨hone, hno, -⟩ <;> omega
    have hnext : (b.desk.closeSession session).readers other = 0 ∧
        (b.desk.closeSession session).writers other = 0 := by omega
    exact ⟨hnow.1, hnow.2, hnext.1, hnext.2, htallies.word_eq_zero_iff.mpr hnext⟩

/-- A session is closed, if there is one. -/
theorem obey_close {k : String} {t : Tracker} (h : b.desk.Keeps k)
    (ht : b.desk.trackers.get? k = some t) (session : String) :
    let next := (b.obey (.close session)).2
    next.forest = b.forest ∧ next.desk.Keeps k ∧ (∃ t', next.desk.trackers.get? k = some t') ∧
      ∀ other, next.desk.sessions.get? other =
        if other = session then none else b.desk.sessions.get? other := by
  intro next
  have hclose := outcome_closeSession b session
  rw [Table.contains_eq_isSome] at hclose
  cases hsession : b.desk.sessions.get? session with
  | none =>
    rw [hsession] at hclose
    have hnext : next = b := congrArg Prod.snd hclose
    rw [hnext]
    refine ⟨rfl, h, ⟨t, ht⟩, fun other => ?_⟩
    split
    · next heq => rw [heq, hsession]
    · rfl
  | some ticket =>
    rw [hsession] at hclose
    have hnext : next = { b with desk := b.desk.closeSession session } := congrArg Prod.snd hclose
    rw [hnext]
    refine ⟨rfl, h.closeSession hsession, ?_, b.desk.get?_sessions_closeSession session⟩
    dsimp only
    rw [Desk.get?_trackers_closeSession ht session]
    split
    · exact ⟨_, rfl⟩
    · exact ⟨t, rfl⟩

/-- Sessions are closed one after another. The induction is on their names, with the bench. -/
theorem after_closing {k : String} {t : Tracker} (names : List String) (h : b.desk.Keeps k)
    (ht : b.desk.trackers.get? k = some t) :
    let later := b.after (names.map .close)
    later.forest = b.forest ∧ later.desk.Keeps k ∧ (∃ t', later.desk.trackers.get? k = some t') ∧
      ∀ session, later.desk.sessions.get? session =
        if session ∈ names then none else b.desk.sessions.get? session := by
  induction names generalizing b t with
  | nil => exact ⟨rfl, h, ⟨t, ht⟩, fun session => by simp [after]⟩
  | cons name names ih =>
    obtain ⟨hforest, hkeeps, ⟨t', ht'⟩, hsessions⟩ := obey_close h ht name
    obtain ⟨hforest', hkeeps', hsome, hlater⟩ := ih hkeeps ht'
    refine ⟨hforest'.trans hforest, hkeeps', hsome, fun session => ?_⟩
    refine (hlater session).trans ?_
    rw [hsessions session]
    by_cases hname : session = name <;> simp [hname]

/-- Once every session on a tracker is closed, in whatever order, the tracker is idle and admits
a writer. -/
theorem idle_after_closing {k : String} {t : Tracker} {names : List String}
    (htracking : b.forest.settings.tracking = true) (h : b.desk.Keeps k)
    (ht : b.desk.trackers.get? k = some t)
    (hall : ∀ session ticket, b.desk.sessions.get? session = some (some ticket) →
      ticket.tracker = k → session ∈ names) :
    let later := b.after (names.map .close)
    ∃ t', later.desk.trackers.get? k = some t' ∧ t'.word = 0 ∧
      later.desk.readers k = 0 ∧ later.desk.writers k = 0 ∧
      ∀ session, later.desk.sessions.get? session = none →
        ∃ next, later.obey (.openWrite session k) = (.ok .nothing, next) ∧
          next.desk.readers k = 0 ∧ next.desk.writers k = 1 := by
  intro later
  obtain ⟨hforest, hkeeps, ⟨t', ht'⟩, hsessions⟩ := after_closing names h ht
  have hnone : later.desk.readers k = 0 ∧ later.desk.writers k = 0 := by
    refine Desk.count_eq_zero hkeeps.sessions fun session ticket hsession htracker => ?_
    rw [hsessions session] at hsession
    split at hsession
    · cases hsession
    · next hmem => exact hmem (hall session ticket hsession htracker)
  exact ⟨t', ht', (hkeeps.tallies t' ht').word_eq_zero_iff.mpr hnone, hnone.1, hnone.2,
    fun session hfree => outcome_writer (hforest ▸ htracking) hkeeps ht' hfree hnone⟩

end Bench

/-! ### The word and the sessions -/

/-- **Sessions never conflict.** After any commands on a new desk, with fewer than `2 ^ 31`
sessions open on the tracker at any time, its word is twice the number of readers, or 3 with
one writer open and nothing else. A reader is admitted exactly while no writer is open, a
writer exactly while no session is; a session that is refused reports how many sessions are
open and whether one is a writer, and the bench stays as it is, with the tracker's word and
history. A session that is moved closes nothing and leaves what is open open, and the name it
had closes nothing afterwards. A session that holds a ticket is closed and gone, with one reader
less on its tracker, or without the writer. Once all sessions are closed, in whatever order, the
word is 0 and a writer is admitted. -/
theorem sessions_never_conflict {b : Bench} (htracking : b.forest.settings.tracking = true)
    (hnew : b.desk = {}) (cs : List DeskCommand) {k : String}
    (hbound : ∀ n, (b.after (cs.take n)).desk.openOn k < 2 ^ 31) {t : Tracker}
    (ht : (b.after cs).desk.trackers.get? k = some t) :
    let now := b.after cs
    let readers := now.desk.readers k
    let writers := now.desk.writers k
    (writers = 0 ∧ t.word.toNat = 2 * readers ∨ writers = 1 ∧ readers = 0 ∧ t.word = 3) ∧
    (∀ session, now.desk.sessions.get? session = none →
      (writers = 0 → ∃ next, now.obey (.openRead session k) = (.ok .nothing, next) ∧
        next.desk.readers k = readers + 1 ∧ next.desk.writers k = 0) ∧
      (writers ≠ 0 → ∃ o : Overlap, now.obey (.openRead session k) =
          (.error (.fault (.overlap o)), now) ∧
        o.attempted = .read ∧ o.sessions.toNat = readers + writers ∧ o.writerOpen = true) ∧
      (readers = 0 ∧ writers = 0 → ∃ next,
        now.obey (.openWrite session k) = (.ok .nothing, next) ∧
        next.desk.readers k = 0 ∧ next.desk.writers k = 1) ∧
      (¬ (readers = 0 ∧ writers = 0) → ∃ o : Overlap, now.obey (.openWrite session k) =
          (.error (.fault (.overlap o)), now) ∧
        o.attempted = .write ∧ o.sessions.toNat = readers + writers ∧
        o.writerOpen = decide (writers ≠ 0))) ∧
    (∀ session target ticket, now.desk.sessions.get? session = some ticket →
      now.desk.sessions.get? target = none →
      ∃ next, now.obey (.move session target) = (.ok .nothing, next) ∧
        next.desk.trackers = now.desk.trackers ∧
        next.desk.sessions.get? session = some none ∧
        next.desk.sessions.get? target = some ticket ∧
        next.desk.readers k = readers ∧ next.desk.writers k = writers) ∧
    (∀ session, now.desk.sessions.get? session = some none →
      ∃ next, now.obey (.close session) = (.ok .nothing, next) ∧
        next.desk.trackers = now.desk.trackers ∧
        next.desk.readers k = readers ∧ next.desk.writers k = writers) ∧
    (∀ session ticket, now.desk.sessions.get? session = some (some ticket) →
      ∃ next t', now.obey (.close session) = (.ok .nothing, next) ∧
        (∀ other, next.desk.sessions.get? other =
          if other = session then none else now.desk.sessions.get? other) ∧
        next.desk.trackers.get? k = some t' ∧
        (ticket.tracker ≠ k → t' = t ∧
          next.desk.readers k = readers ∧ next.desk.writers k = writers) ∧
        (ticket.tracker = k → ticket.kind ≠ .write →
          next.desk.readers k + 1 = readers ∧ next.desk.writers k = 0 ∧
          t'.word.toNat = 2 * next.desk.readers k) ∧
        (ticket.tracker = k → ticket.kind = .write → readers = 0 ∧ writers = 1 ∧
          next.desk.readers k = 0 ∧ next.desk.writers k = 0 ∧ t'.word = 0)) ∧
    (∀ names : List String,
      (∀ session ticket, now.desk.sessions.get? session = some (some ticket) →
        ticket.tracker = k → session ∈ names) →
      let later := now.after (names.map .close)
      ∃ t', later.desk.trackers.get? k = some t' ∧ t'.word = 0 ∧
        later.desk.readers k = 0 ∧ later.desk.writers k = 0 ∧
        ∀ session, later.desk.sessions.get? session = none →
          ∃ next, later.obey (.openWrite session k) = (.ok .nothing, next) ∧
            next.desk.readers k = 0 ∧ next.desk.writers k = 1) ∧
    (readers = 0 ∧ writers = 0 → t.word = 0) := by
  intro now readers writers
  obtain ⟨hforest, hkeeps⟩ := Bench.keeps_after cs htracking (hnew ▸ Desk.keeps_new k) hbound
  have hnow : now.forest.settings.tracking = true := hforest ▸ htracking
  have htallies : t.Tallies readers writers := hkeeps.tallies t ht
  have hfew : readers + writers < 2 ^ 31 := by
    have hlast := hbound cs.length
    rwa [List.take_length] at hlast
  have hreport (kind : SessionKind) : (t.refusal kind).sessions.toNat = readers + writers := by
    rw [htallies.refusal]
    exact UInt32.toNat_ofNat_of_lt' (Nat.lt_trans hfew (by decide))
  refine ⟨htallies, fun session hfree => ⟨fun hnone => ?_, fun hsome => ?_, fun hnone => ?_,
    fun hsome => ?_⟩, fun session target ticket hsession htarget =>
      Bench.outcome_moved hkeeps.sessions hsession htarget k,
    fun session hsession => Bench.outcome_forgotten hkeeps.sessions hsession k,
    fun session ticket hsession => Bench.outcome_closed hkeeps ht hsession,
    fun names hall => Bench.idle_after_closing hnow hkeeps ht hall,
    htallies.word_eq_zero_iff.mpr⟩
  · have hopen : t.openSession .read = _ := htallies.openRead
    rw [if_pos hnone] at hopen
    obtain ⟨next, hnext, hreaders, hwriters⟩ :=
      Bench.outcome_admitted hnow hkeeps ht hfree hopen
    exact ⟨next, hnext, hreaders, hwriters.trans hnone⟩
  · have hopen : t.openSession .read = _ := htallies.openRead
    rw [if_neg hsome] at hopen
    refine ⟨_, Bench.outcome_refused hnow ht hfree hopen, rfl, hreport .read, ?_⟩
    rw [htallies.refusal]
    exact decide_eq_true hsome
  · exact Bench.outcome_writer hnow hkeeps ht hfree hnone
  · have hopen : t.openSession .write = _ := htallies.openWrite
    rw [if_neg hsome] at hopen
    refine ⟨_, Bench.outcome_refused hnow ht hfree hopen, rfl, hreport .write, ?_⟩
    rw [htallies.refusal]

/-- Two readers, one of them moved and its old name closed: a writer is refused. One of the
readers is closed and the other one is left, and once both are closed a writer is admitted. -/
theorem sessions_never_conflict_of_two_readers :
    let b : Bench := { forest := { settings := .debug } }
    let cs : List DeskCommand :=
      [.newTracker "t", .openRead "a" "t", .openRead "b" "t", .move "a" "c", .close "a"]
    b.forest.settings.tracking = true ∧ b.desk = {} ∧
      (∀ n, (b.after (cs.take n)).desk.openOn "t" < 2 ^ 31) ∧
      ∃ t, (b.after cs).desk.trackers.get? "t" = some t ∧ t.word.toNat = 4 ∧
        (∃ o : Overlap, (b.after cs).obey (.openWrite "d" "t") =
            (.error (.fault (.overlap o)), b.after cs) ∧
          o.attempted = .write ∧ o.sessions.toNat = 2 ∧ o.writerOpen = false) ∧
        (∃ next t', (b.after cs).obey (.close "b") = (.ok .nothing, next) ∧
          next.desk.sessions.get? "b" = none ∧ next.desk.trackers.get? "t" = some t' ∧
          next.desk.readers "t" = 1 ∧ t'.word.toNat = 2) ∧
        ∃ next, ((b.after cs).after [.close "c", .close "b"]).obey (.openWrite "d" "t") =
            (.ok .nothing, next) ∧
          next.desk.writers "t" = 1 := by
  intro b cs
  have hreaders : (b.after cs).desk.readers "t" = 2 := by decide
  have hwriters : (b.after cs).desk.writers "t" = 0 := by decide
  have hbound (n : Nat) : (b.after (cs.take n)).desk.openOn "t" < 2 ^ 31 := by
    rcases Nat.lt_or_ge n 5 with hn | hn
    · revert n
      decide
    · rw [List.take_of_length_le hn]
      decide
  obtain ⟨t, ht⟩ := Option.isSome_iff_exists.1
    (show ((b.after cs).desk.trackers.get? "t").isSome = true by decide)
  obtain ⟨hword, hopen, -, -, hclose, hall, -⟩ :=
    sessions_never_conflict (b := b) rfl rfl cs hbound ht
  obtain ⟨-, -, -, hrefused⟩ := hopen "d" (by decide)
  rw [hreaders, hwriters] at hword hrefused
  refine ⟨rfl, rfl, hbound, t, ht, ?_, hrefused (by decide), ?_, ?_⟩
  · rcases hword with ⟨-, hword⟩ | ⟨hword, -⟩
    · exact hword
    · cases hword
  · obtain ⟨next, t', hnext, hgone, ht', -, hread, -⟩ := hclose "b" ⟨"t", .read⟩ (by decide)
    obtain ⟨hone, -, htwo⟩ := hread rfl (by decide)
    have hleft : next.desk.readers "t" = 1 := by omega
    exact ⟨next, t', hnext, hgone "b", ht', hleft, by omega⟩
  · have hnames : ∀ session ticket, (b.after cs).desk.sessions.get? session = some (some ticket) →
        ticket.tracker = "t" → session ∈ ["c", "b"] := by
      intro session ticket hsession _
      have hmem := Table.mem_of_get? hsession
      rw [show (b.after cs).desk.sessions.entries =
        [("b", some ⟨"t", .read⟩), ("c", some ⟨"t", .read⟩)] by decide] at hmem
      simp only [List.mem_cons, Prod.mk.injEq, List.not_mem_nil, or_false] at hmem
      rcases hmem with ⟨rfl, -⟩ | ⟨rfl, -⟩ <;> simp
    obtain ⟨t', -, -, -, -, hwrite⟩ := hall ["c", "b"] hnames
    obtain ⟨next, hnext, -, hone⟩ := hwrite "d" (by decide)
    exact ⟨next, hnext, hone⟩

end Workbench

end SpanTree
