/-
SpanTree.Proofs.Histories — the ring of a tracker holds its recent past.

A tracker writes the kind of each session it admits into its ring, at
the number of the session modulo the capacity, and counts on. A report
reads the ring back from a start that it computes from the counter.
`Tracker.Remembers` says what the ring holds after some admissions: of
the last of them, as many as the capacity, each stands at its own
number modulo the capacity. Two numbers less than the capacity apart
never share an index, so that the next admission overwrites the one that
falls out of this range and no other, whether or not the ring has been
filled before. The report walks over the same numbers
(`Tracker.Remembers.recent_eq`).

The rest is bookkeeping. Of what happens to a tracker only an admission
records anything, and this is followed along a list of events on one
tracker, and along the commands to a desk, where the answers say what
was admitted. The counter has 64 bits, hence the bound on the number of
admissions.
-/
import SpanTree.Proofs.Weights
import SpanTree.Proofs.Sessions

namespace SpanTree

/-! ## The ring -/

namespace Tracker

/-- Of these admissions, the ring holds as many of the last ones as the capacity says. -/
structure Remembers (t : Tracker) (capacity : Nat) (kinds : List SessionKind) : Prop where
  size : t.ring.size = capacity
  recorded : 0 < capacity → t.recorded.toNat = kinds.length
  entry : ∀ j (h : j < kinds.length), kinds.length ≤ j + capacity →
    t.ring[j % capacity]? = some kinds[j]

variable {t t' : Tracker} {capacity : Nat} {kinds : List SessionKind} {kind : SessionKind}
  {o : Overlap}

theorem remembers_idle (capacity : Nat) : (idle capacity).Remembers capacity [] where
  size := Array.size_replicate
  recorded _ := rfl
  entry j h := absurd h (Nat.not_lt_zero j)

/-- Only the ring and the counter matter. -/
theorem Remembers.withWord (h : t.Remembers capacity kinds) (word : UInt32) :
    { t with word }.Remembers capacity kinds :=
  ⟨h.size, h.recorded, h.entry⟩

/-- Two numbers less than the capacity apart do not share an index. -/
theorem index_ne {j m capacity : Nat} (hlt : j < m) (hnear : m < j + capacity) :
    j % capacity ≠ m % capacity := by
  intro heq
  have hzero := Nat.sub_mod_eq_zero_of_mod_eq heq.symm
  rw [Nat.mod_eq_of_lt (by omega)] at hzero
  omega

/-- **One more admission** takes the place of the one that is now too old. -/
theorem Remembers.record (h : t.Remembers capacity kinds) (hfew : kinds.length + 1 < 2 ^ 64)
    (kind : SessionKind) : (t.record kind).Remembers capacity (kinds ++ [kind]) := by
  have hsize := h.size
  rcases Nat.eq_zero_or_pos capacity with rfl | hpos
  · -- without a ring nothing is remembered
    rw [Tracker.record, if_pos hsize]
    refine ⟨hsize, fun hpos => absurd hpos (Nat.lt_irrefl 0), fun j hj hnew => ?_⟩
    omega
  have hcount := h.recorded hpos
  rw [Tracker.record, if_neg (by omega)]
  refine ⟨?_, fun _ => ?_, fun j hj hnew => ?_⟩
  · rw [Array.size_setIfInBounds, hsize]
  · dsimp only
    rw [Size.toNat_add_of_lt (by rw [hcount]; exact hfew), hcount, List.length_append]
    rfl
  · dsimp only
    rw [List.length_append, List.length_singleton] at hj hnew
    rw [hsize, hcount]
    rcases Nat.lt_or_eq_of_le (Nat.le_of_lt_succ hj) with hold | rfl
    · rw [Array.getElem?_setIfInBounds_ne (index_ne hold (by omega)).symm,
        h.entry j hold (by omega), List.getElem_append_left hold]
    · rw [Array.getElem?_setIfInBounds_self_of_lt (by rw [hsize]; exact Nat.mod_lt _ hpos),
        List.getElem_append_right (Nat.le_refl _)]
      simp

/-- What is read back is the end of the list of admissions. -/
theorem Remembers.recent_eq (h : t.Remembers capacity kinds) :
    t.recent = kinds.drop (kinds.length - capacity) := by
  have hsize := h.size
  rcases Nat.eq_zero_or_pos capacity with rfl | hpos
  · simp [recent, hsize]
  have hcount := h.recorded hpos
  refine List.ext_getElem ?_ fun i hi hi' => ?_
  · simp only [recent, hsize, hcount, List.length_map, List.length_range, List.length_drop]
    omega
  · rw [List.length_drop] at hi'
    have hindex : kinds.length - min kinds.length capacity + i = kinds.length - capacity + i := by
      omega
    have hentry := h.entry (kinds.length - capacity + i) (by omega) (by omega)
    simp only [recent, hsize, hcount, hindex, List.getElem_map, List.getElem_range,
      List.getElem_drop, Array.getD_eq_getD_getElem?, hentry, Option.getD_some]

/-- The history in the words of a report: the last admissions, oldest first, and as many as
there are and the ring can hold. -/
theorem Remembers.recent (h : t.Remembers capacity kinds) :
    t.recent <:+ kinds ∧ t.recent.length = min capacity kinds.length := by
  rw [h.recent_eq, List.length_drop]
  exact ⟨List.drop_suffix _ _, by omega⟩

/-! ## What is recorded -/

/-- A session that is admitted is recorded with its kind. -/
theorem Remembers.openSession (h : t.Remembers capacity kinds) (hkind : kind ≠ .none)
    (hfew : kinds.length + 1 < 2 ^ 64) (hopen : t.openSession kind = .ok t') :
    t'.Remembers capacity (kinds ++ [kind]) := by
  cases kind with
  | none => exact absurd rfl hkind
  | read =>
    simp only [Tracker.openSession, openRead] at hopen
    split at hopen
    · cases hopen
    · exact Except.ok.inj hopen ▸ (h.withWord _).record hfew .read
  | write =>
    simp only [Tracker.openSession, openWrite] at hopen
    split at hopen
    · exact Except.ok.inj hopen ▸ (h.withWord _).record hfew .write
    · cases hopen

/-- A session that is refused is reported with its kind. -/
theorem refusal_of_openSession (hkind : kind ≠ .none) (hopen : t.openSession kind = .error o) :
    o = t.refusal kind := by
  cases kind with
  | none => exact absurd rfl hkind
  | read =>
    simp only [openSession, openRead] at hopen
    split at hopen
    · exact (Except.error.inj hopen).symm
    · cases hopen
  | write =>
    simp only [openSession, openWrite] at hopen
    split at hopen
    · cases hopen
    · exact (Except.error.inj hopen).symm

/-- A session that ends is not recorded. -/
theorem Remembers.close (h : t.Remembers capacity kinds) (kind : SessionKind) :
    (t.close kind).Remembers capacity kinds := by
  cases kind <;> exact h.withWord _

/-! ## Events on one tracker -/

/-- What can happen to a tracker. -/
inductive Event where
  | openRead
  | openWrite
  | close (kind : SessionKind)
deriving DecidableEq, Repr

/-- What a tracker makes of an event. -/
def meet (t : Tracker) : Event → Except Overlap Tracker
  | .openRead => t.openRead
  | .openWrite => t.openWrite
  | .close kind => .ok (t.close kind)

/-- The kind that is admitted where an event is met without a refusal. -/
def Event.admits : Event → List SessionKind
  | .openRead => [.read]
  | .openWrite => [.write]
  | .close _ => []

/-- The tracker after some events; a session that is refused leaves it as it was. -/
def after (t : Tracker) : List Event → Tracker
  | [] => t
  | e :: es =>
    match t.meet e with
    | .ok t' => t'.after es
    | .error _ => t.after es

/-- The kinds of the sessions that are admitted in the course of some events. -/
def admitted (t : Tracker) : List Event → List SessionKind
  | [] => []
  | e :: es =>
    match t.meet e with
    | .ok t' => e.admits ++ t'.admitted es
    | .error _ => t.admitted es

/-- An event that is met adds its admission. -/
theorem Remembers.meet (h : t.Remembers capacity kinds) {e : Event}
    (hfew : (kinds ++ e.admits).length < 2 ^ 64) (hmeet : t.meet e = .ok t') :
    t'.Remembers capacity (kinds ++ e.admits) := by
  rw [List.length_append] at hfew
  cases e with
  | openRead =>
    have hopen : t.openSession .read = .ok t' := hmeet
    exact h.openSession (by decide) hfew hopen
  | openWrite =>
    have hopen : t.openSession .write = .ok t' := hmeet
    exact h.openSession (by decide) hfew hopen
  | close kind =>
    rw [Event.admits, List.append_nil]
    exact Except.ok.inj hmeet ▸ h.close kind

/-- A session that is refused is refused with the history. -/
theorem recent_of_meet {e : Event} (hmeet : t.meet e = .error o) : o.recent = t.recent := by
  cases e with
  | openRead =>
    have hopen : t.openSession .read = .error o := hmeet
    rw [refusal_of_openSession (by decide) hopen, refusal]
  | openWrite =>
    have hopen : t.openSession .write = .error o := hmeet
    rw [refusal_of_openSession (by decide) hopen, refusal]
  | close kind => cases hmeet

/-- A tracker remembers what it admitted in the course of some events. The induction is on the
events, with what was admitted before them. -/
theorem Remembers.after (h : t.Remembers capacity kinds) (es : List Event)
    (hfew : (kinds ++ t.admitted es).length < 2 ^ 64) :
    (t.after es).Remembers capacity (kinds ++ t.admitted es) := by
  induction es generalizing t kinds with
  | nil => rwa [admitted, List.append_nil]
  | cons e es ih =>
    rw [admitted] at hfew ⊢
    rw [Tracker.after]
    cases hmeet : t.meet e with
    | error o =>
      rw [hmeet] at hfew
      exact ih h hfew
    | ok t' =>
      rw [hmeet] at hfew
      dsimp only at hfew ⊢
      rw [← List.append_assoc] at hfew ⊢
      rw [List.length_append] at hfew
      exact ih (h.meet (by omega) hmeet) (by rwa [List.length_append])

end Tracker

/-! ## Commands to a desk -/

namespace Desk

/-- The tracker of a name remembers these admissions; there were none as long as there is no
such tracker. -/
def Remembers (d : Desk) (k : String) (capacity : Nat) (kinds : List SessionKind) : Prop :=
  match d.trackers.get? k with
  | none => kinds = []
  | some t => t.Remembers capacity kinds

variable {d : Desk} {k tracker : String} {capacity : Nat} {kinds : List SessionKind}

theorem Remembers.of_get? (h : d.Remembers k capacity kinds) {t : Tracker}
    (ht : d.trackers.get? k = some t) : t.Remembers capacity kinds := by
  rwa [Remembers, ht] at h

/-- Only the trackers matter. -/
theorem Remembers.congr {d' : Desk} (h : d.Remembers k capacity kinds)
    (htrackers : d'.trackers = d.trackers) : d'.Remembers k capacity kinds := by
  rwa [Remembers, htrackers]

/-- Where one tracker is exchanged, it is that one that has to remember what is new. -/
theorem Remembers.insert (h : d.Remembers k capacity kinds) {t' : Tracker}
    {sessions : Table (Option Ticket)} {more : List SessionKind}
    (hother : k ≠ tracker → more = [])
    (hnew : k = tracker → t'.Remembers capacity (kinds ++ more)) :
    Remembers ⟨d.trackers.insert tracker t', sessions⟩ k capacity (kinds ++ more) := by
  rw [Remembers, Table.get?_insert]
  by_cases heq : k = tracker
  · rw [if_pos heq]
    exact hnew heq
  · rw [if_neg heq, hother heq, List.append_nil]
    exact h

/-- A session that ends leaves the histories alone. -/
theorem Remembers.closeSession (h : d.Remembers k capacity kinds) (name : String) :
    (d.closeSession name).Remembers k capacity kinds := by
  have hplain : Remembers { d with sessions := d.sessions.erase name } k capacity kinds :=
    h.congr rfl
  unfold Desk.closeSession
  split
  · next ticket hticket =>
    split
    · next t ht =>
      rw [← List.append_nil kinds]
      refine h.insert (fun _ => rfl) fun heq => ?_
      subst heq
      rw [List.append_nil]
      exact (h.of_get? ht).close ticket.kind
    · exact hplain
  · exact hplain

end Desk

namespace Workbench

/-- The tracker that a command asks for a session, and the kind of the session. -/
def DeskCommand.opening? : DeskCommand → Option (String × SessionKind)
  | .openRead _ tracker => some (tracker, .read)
  | .openWrite _ tracker => some (tracker, .write)
  | _ => none

theorem DeskCommand.command_of_opening {c : DeskCommand} {tracker : String} {kind : SessionKind}
    (h : c.opening? = some (tracker, kind)) :
    kind ≠ .none ∧ ∃ session, c.command = .tracker tracker (.openSession session (.ok kind)) := by
  cases c with
  | openRead session tracker =>
    cases h
    exact ⟨by decide, session, rfl⟩
  | openWrite session tracker =>
    cases h
    exact ⟨by decide, session, rfl⟩
  | newTracker name => cases h
  | move session target => cases h
  | close session => cases h

namespace Bench

/-- The kind of the session that a command opens on a tracker, by its answer. -/
def admits (b : Bench) (k : String) (c : DeskCommand) : List SessionKind :=
  match c.opening?, (b.obey c).1 with
  | some (tracker, kind), .ok _ => if k = tracker then [kind] else []
  | _, _ => []

/-- The kinds of the sessions that some commands open on a tracker. -/
def admitted (b : Bench) (k : String) : List DeskCommand → List SessionKind
  | [] => []
  | c :: cs => b.admits k c ++ (b.obey c).2.admitted k cs

variable {b : Bench} {k : String} {kinds : List SessionKind}

theorem admits_of_error {c : DeskCommand} {e : Failure} (h : (b.obey c).1 = .error e) :
    b.admits k c = [] := by
  unfold admits
  rw [h]
  cases c.opening? <;> rfl

theorem admits_of_ok {c : DeskCommand} {tracker : String} {kind : SessionKind} {r : Result}
    (hopening : c.opening? = some (tracker, kind)) (h : (b.obey c).1 = .ok r) :
    b.admits k c = if k = tracker then [kind] else [] := by
  unfold admits
  rw [hopening, h]

theorem admits_of_opening_none {c : DeskCommand} (hopening : c.opening? = none) :
    b.admits k c = [] := by
  unfold admits
  rw [hopening]

/-- What comes of asking for a session: the script is at fault, the tracker refuses, or it
admits the session. -/
theorem obey_opening (htracking : b.forest.settings.tracking = true) {c : DeskCommand}
    {tracker : String} {kind : SessionKind} (hopening : c.opening? = some (tracker, kind)) :
    (∃ r, b.obey c = (.error (.refusal r), b)) ∨
      ∃ t, b.desk.trackers.get? tracker = some t ∧
        ((∃ o, t.openSession kind = .error o ∧
            b.obey c = (.error (.fault (.overlap o)), b)) ∨
          ∃ t' sessions, t.openSession kind = .ok t' ∧
            b.obey c = (.ok .nothing,
              { b with desk := ⟨b.desk.trackers.insert tracker t', sessions⟩ })) := by
  obtain ⟨-, session, hcommand⟩ := DeskCommand.command_of_opening hopening
  have hobey := outcome_openSession htracking session tracker kind
  rw [← hcommand] at hobey
  change b.obey c = _ at hobey
  split at hobey
  · exact .inl ⟨_, hobey⟩
  · next hlive =>
    split at hobey
    · exact .inl ⟨_, hobey⟩
    · obtain ⟨t, ht⟩ : ∃ t, b.desk.trackers.get? tracker = some t := by
        rw [← Option.isSome_iff_exists, ← Table.contains_eq_isSome]
        simpa using hlive
      refine .inr ⟨t, ht, ?_⟩
      cases hopen : t.openSession kind with
      | error o =>
        rw [Desk.openSession_eq_error ht hopen] at hobey
        exact .inl ⟨o, rfl, hobey⟩
      | ok t' =>
        rw [Desk.openSession_eq_ok ht hopen] at hobey
        exact .inr ⟨t', _, rfl, hobey⟩

/-- A session that is asked for is recorded by its tracker, if it is admitted. -/
theorem remembers_opening (htracking : b.forest.settings.tracking = true)
    (h : b.desk.Remembers k b.forest.settings.history kinds) {c : DeskCommand}
    {tracker : String} {kind : SessionKind} (hopening : c.opening? = some (tracker, kind))
    (hfew : (kinds ++ b.admits k c).length < 2 ^ 64) :
    (b.obey c).2.desk.Remembers k b.forest.settings.history (kinds ++ b.admits k c) := by
  obtain ⟨hkind, -⟩ := DeskCommand.command_of_opening hopening
  have refused {e : Failure} (hsame : b.obey c = (.error e, b)) :
      (b.obey c).2.desk.Remembers k b.forest.settings.history (kinds ++ b.admits k c) := by
    rw [admits_of_error (congrArg Prod.fst hsame), List.append_nil, hsame]
    exact h
  rcases obey_opening htracking hopening with
    ⟨r, hobey⟩ | ⟨t, ht, ⟨o, -, hobey⟩ | ⟨t', sessions, hopen, hobey⟩⟩
  · exact refused hobey
  · exact refused hobey
  · rw [admits_of_ok hopening (congrArg Prod.fst hobey)] at hfew ⊢
    rw [hobey]
    refine h.insert (fun hne => if_neg hne) fun heq => ?_
    subst heq
    rw [if_pos rfl] at hfew ⊢
    rw [List.length_append, List.length_singleton] at hfew
    exact (h.of_get? ht).openSession hkind hfew hopen

/-- **Every command** adds to the history of a tracker what its answer says was admitted. -/
theorem remembers_obey (htracking : b.forest.settings.tracking = true)
    (h : b.desk.Remembers k b.forest.settings.history kinds) (c : DeskCommand)
    (hfew : (kinds ++ b.admits k c).length < 2 ^ 64) :
    (b.obey c).2.desk.Remembers k b.forest.settings.history (kinds ++ b.admits k c) := by
  cases c with
  | openRead session tracker => exact remembers_opening htracking h rfl hfew
  | openWrite session tracker => exact remembers_opening htracking h rfl hfew
  | newTracker name =>
    rw [admits_of_opening_none rfl, List.append_nil, obey, DeskCommand.command, outcome_newTracker]
    split
    · exact h
    · next hfree =>
      rw [← List.append_nil kinds]
      refine Desk.Remembers.insert h (fun _ => rfl) fun heq => ?_
      subst heq
      have hnone : kinds = [] := by
        rwa [Desk.Remembers, get?_of_not_contains (by simpa using hfree)] at h
      rw [hnone]
      exact Tracker.remembers_idle _
  | move session target =>
    rw [admits_of_opening_none rfl, List.append_nil, obey, DeskCommand.command, outcome_moveSession]
    repeat' split
    all_goals first | exact h | exact h.congr (Desk.trackers_moveSession _ _ _)
  | close session =>
    rw [admits_of_opening_none rfl, List.append_nil, obey, DeskCommand.command,
      outcome_closeSession]
    split
    · exact h
    · exact h.closeSession session

/-- A run of commands adds to the history of a tracker all that was admitted. The induction is on
the commands, with what was admitted before them. -/
theorem remembers_after (cs : List DeskCommand) (htracking : b.forest.settings.tracking = true)
    (h : b.desk.Remembers k b.forest.settings.history kinds)
    (hfew : (kinds ++ b.admitted k cs).length < 2 ^ 64) :
    (b.after cs).forest = b.forest ∧
      (b.after cs).desk.Remembers k b.forest.settings.history (kinds ++ b.admitted k cs) := by
  induction cs generalizing b kinds with
  | nil => exact ⟨rfl, by rwa [admitted, List.append_nil]⟩
  | cons c cs ih =>
    rw [admitted, ← List.append_assoc] at hfew ⊢
    have hforest := forest_obey htracking c
    have hnow := remembers_obey htracking h c (by rw [List.length_append] at hfew; omega)
    obtain ⟨hsame, hlast⟩ := ih (b := (b.obey c).2) (hforest ▸ htracking) (hforest ▸ hnow) hfew
    exact ⟨hsame.trans hforest, hforest ▸ hlast⟩

/-- A session that a tracker refuses is refused with its history, and nothing changes. -/
theorem refusal_of_obey (htracking : b.forest.settings.tracking = true) {c : DeskCommand}
    {kind : SessionKind} (hopening : c.opening? = some (k, kind)) {o : Overlap} {next : Bench}
    (hobey : b.obey c = (.error (.fault (.overlap o)), next)) :
    next = b ∧ o.attempted = kind ∧
      ∃ t, b.desk.trackers.get? k = some t ∧ o.recent = t.recent := by
  obtain ⟨hkind, -⟩ := DeskCommand.command_of_opening hopening
  rcases obey_opening htracking hopening with
    ⟨r, hsame⟩ | ⟨t, ht, ⟨o', hopen, hsame⟩ | ⟨t', sessions, -, hsame⟩⟩
  · rw [hsame] at hobey
    cases hobey
  · rw [hsame] at hobey
    cases hobey
    rw [Tracker.refusal_of_openSession hkind hopen]
    exact ⟨rfl, rfl, t, ht, rfl⟩
  · rw [hsame] at hobey
    cases hobey

end Bench

/-! ## The history in a report -/

/-- **The history is the true recent past.** In a report on a refused session a tracker lists
the kinds of the last sessions it admitted, oldest first, as many as there were and its capacity
allows; what it refused and what was closed is not among them and displaces nothing. This holds
of a tracker after any events, and of the tracker of any name after any commands to a new desk,
where the answers say which sessions were admitted. There, a refused session also leaves
everything as it was. The counter of a tracker bounds the number of admissions. -/
theorem history_is_recent_past (capacity : Nat) :
    (∀ es : List Tracker.Event,
      let t := (Tracker.idle capacity).after es
      let kinds := (Tracker.idle capacity).admitted es
      kinds.length < 2 ^ 64 → ∀ e o, t.meet e = .error o →
        o.recent <:+ kinds ∧ o.recent.length = min capacity kinds.length) ∧
    ∀ b : Bench, b.forest.settings.tracking = true → b.forest.settings.history = capacity →
      b.desk = {} → ∀ (cs : List DeskCommand) (k : String),
      let kinds := b.admitted k cs
      kinds.length < 2 ^ 64 → ∀ c kind o next, c.opening? = some (k, kind) →
        (b.after cs).obey c = (.error (.fault (.overlap o)), next) →
        next = b.after cs ∧ o.attempted = kind ∧
          o.recent <:+ kinds ∧ o.recent.length = min capacity kinds.length := by
  constructor
  · intro es t kinds hfew e o hmeet
    rw [Tracker.recent_of_meet hmeet]
    exact ((Tracker.remembers_idle capacity).after es hfew).recent
  · rintro b htracking rfl hnew cs k kinds hfew c kind o next hopening hobey
    have hstart : b.desk.Remembers k b.forest.settings.history [] := by rw [hnew]; rfl
    obtain ⟨hforest, h⟩ := Bench.remembers_after cs htracking hstart hfew
    obtain ⟨hnext, hattempted, t, ht, hrecent⟩ :=
      Bench.refusal_of_obey (hforest ▸ htracking) hopening hobey
    have hreport := (h.of_get? ht).recent
    rw [← hrecent] at hreport
    exact ⟨hnext, hattempted, hreport⟩

/-- A ring of two entries that has been filled more than once: the first admission is gone, and
the refused writer is not listed. The same happens to the tracker of a desk. -/
theorem history_is_recent_past_of_two :
    let es : List Tracker.Event :=
      [.openRead, .close .read, .openWrite, .close .write, .openRead, .openWrite]
    let b : Bench := { forest := { settings := { tracking := true, history := 2 } } }
    let cs : List DeskCommand :=
      [.newTracker "t", .openRead "a" "t", .close "a", .openWrite "b" "t", .close "b",
        .openRead "c" "t", .openWrite "d" "t"]
    (Tracker.idle 2).admitted es = [.read, .write, .read] ∧
    (∃ o, ((Tracker.idle 2).after es).meet .openWrite = .error o ∧ o.recent = [.write, .read]) ∧
    b.admitted "t" cs = [.read, .write, .read] ∧
    ∃ o next, (b.after cs).obey (.openWrite "d" "t") = (.error (.fault (.overlap o)), next) ∧
      o.recent = [.write, .read] := by
  intro es b cs
  have last_two {kinds recent : List SessionKind} (hkinds : kinds = [.read, .write, .read])
      (h : recent <:+ kinds ∧ recent.length = min 2 kinds.length) : recent = [.write, .read] := by
    subst hkinds
    exact (List.suffix_iff_eq_drop.mp h.1).trans (by rw [h.2]; rfl)
  obtain ⟨htracker, hdesk⟩ := history_is_recent_past 2
  have hevents : (Tracker.idle 2).admitted es = [.read, .write, .read] := by decide
  have hkinds : b.admitted "t" cs = [.read, .write, .read] := by decide
  -- a reader is open, so that the writer is refused
  have htracking : (b.after cs).forest.settings.tracking = true := by decide
  have hfree : (b.after cs).desk.sessions.get? "d" = none := by decide
  have hword : ((b.after cs).desk.trackers.get? "t").map (·.word) = some 2 := by decide
  obtain ⟨t, ht, hopened⟩ := Option.map_eq_some_iff.mp hword
  have hopen : t.openSession .write = .error (t.refusal .write) :=
    if_neg (by rw [hopened]; decide)
  have hobey := Bench.outcome_refused htracking ht hfree hopen
  obtain ⟨-, -, hreport⟩ :=
    hdesk b rfl rfl rfl cs "t" (by rw [hkinds]; decide) (.openWrite "d" "t") .write _ _ rfl hobey
  exact ⟨hevents,
    ⟨_, rfl, last_two hevents (htracker es (by rw [hevents]; decide) .openWrite _ rfl)⟩,
    hkinds, _, _, hobey, last_two hkinds hreport⟩

end Workbench

end SpanTree
