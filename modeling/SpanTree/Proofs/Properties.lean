/-
SpanTree.Proofs.Properties — a property list is a finite map, whatever
its history.

A property list is made from some initial pairs and then changed: values
are put, keys are removed, the list is cleared. The last change that
concerns a key alone decides what the key has (`get?_apply` for a single
change, `get?_after_of_last` for a run), and where no change concerns it,
the first initial pair does. `Recalls` says this of the history, without
a list. Every change leaves the keys in byte order (`ordered_after`), and
an ordered list of entries is determined by the values it gives
(`Table.Ordered.ext`): two histories that agree on every key have led to
the same list.

Keys are of any kind that stands for its bytes, all lists of bytes among
them.
-/
import Mathlib.Data.Set.Card
import SpanTree.Proofs.Tables

namespace SpanTree

variable {κ : Type} [DecidableEq κ] [Key κ]

/-- There are as many entries as keys with a value. -/
theorem Table.Ordered.encard_keys {α : Type} {t : Table α κ} (h : t.Ordered) :
    Set.encard {key | (t.get? key).isSome} = t.size := by
  have hkeys : {key | (t.get? key).isSome} = ((t.entries.map (·.1)).toFinset : Set κ) := by
    ext key
    rw [Set.mem_ofPred_eq, ← contains_eq_isSome, contains, List.any_eq_true]
    simp
  have hnodup : (t.entries.map (·.1)).Nodup :=
    List.pairwise_map.mpr (List.Pairwise.imp ne_of_keyBefore h)
  rw [hkeys, Set.encard_coe_eq_coe_finsetCard, List.toFinset_card_of_nodup hnodup, List.length_map,
    size]

namespace PropertyList

/-! ## Changes -/

/-- A change of a property list. -/
inductive Change (κ : Type) where
  | put (key value : κ)
  | remove (key : κ)
  | clear
deriving Repr

namespace Change

/-- The list after a change. -/
def apply (p : PropertyList κ) : Change κ → PropertyList κ
  | .put key value => p.put key value
  | .remove key => (p.remove key).1
  | .clear => p.clear

/-- Whether a change decides what a key has: a clear does so for all keys. -/
def Concerns (key : κ) : Change κ → Prop
  | .put k _ => key = k
  | .remove k => key = k
  | .clear => True

/-- What a key that it concerns has after a change. -/
def leaves : Change κ → Option κ
  | .put _ value => some value
  | .remove _ => none
  | .clear => none

end Change

/-- The list after some changes. -/
def after (p : PropertyList κ) (changes : List (Change κ)) : PropertyList κ :=
  changes.foldl Change.apply p

/-- What a history says the value of a key is: that of the last put of the key, where no later
change concerns the key; that of the first initial pair with the key, where no change at all
does; and otherwise none. -/
inductive Recalls (pairs : List (κ × κ)) (changes : List (Change κ)) (key value : κ) : Prop where
  | put (earlier later : List (Change κ)) (split : changes = earlier ++ .put key value :: later)
      (quiet : ∀ c ∈ later, ¬ c.Concerns key)
  | initial (quiet : ∀ c ∈ changes, ¬ c.Concerns key) (front back : List (κ × κ))
      (split : pairs = front ++ (key, value) :: back) (first : ∀ e ∈ front, e.1 ≠ key)

variable {p : PropertyList κ} {pairs : List (κ × κ)} {changes earlier later : List (Change κ)}
  {c : Change κ} {key value : κ}

/-! ## One change -/

theorem ordered_apply (h : p.Ordered) (c : Change κ) : (c.apply p).Ordered := by
  cases c with
  | put key value => exact h.insert key value
  | remove key => exact h.erase key
  | clear => exact Table.ordered_empty

theorem get?_apply_of_concerns (p : PropertyList κ) (h : c.Concerns key) :
    (c.apply p).get? key = c.leaves := by
  cases c with
  | put k value => exact (Table.get?_insert p k key value).trans (if_pos h)
  | remove k => exact (Table.get?_erase p k key).trans (if_pos h)
  | clear => rfl

theorem get?_apply_of_not_concerns (p : PropertyList κ) (h : ¬ c.Concerns key) :
    (c.apply p).get? key = p.get? key := by
  cases c with
  | put k value => exact (Table.get?_insert p k key value).trans (if_neg h)
  | remove k => exact (Table.get?_erase p k key).trans (if_neg h)
  | clear => exact absurd trivial h

/-! ## A run of changes -/

theorem ordered_after (h : p.Ordered) (changes : List (Change κ)) : (p.after changes).Ordered :=
  List.foldlRecOn changes _ h fun _ hq c _ => ordered_apply hq c

/-- Changes that do not concern a key leave its value. -/
theorem get?_after_of_quiet (p : PropertyList κ) (quiet : ∀ c ∈ changes, ¬ c.Concerns key) :
    (p.after changes).get? key = p.get? key := by
  induction changes generalizing p with
  | nil => rfl
  | cons c rest ih =>
    obtain ⟨hc, hrest⟩ := List.forall_mem_cons.mp quiet
    exact (ih (c.apply p) hrest).trans (get?_apply_of_not_concerns p hc)

/-- **The last change that concerns a key** decides what the key has. -/
theorem get?_after_of_last (p : PropertyList κ) (hc : c.Concerns key)
    (quiet : ∀ c ∈ later, ¬ c.Concerns key) :
    (p.after (earlier ++ c :: later)).get? key = c.leaves := by
  have hsplit : p.after (earlier ++ c :: later) = (c.apply (p.after earlier)).after later := by
    unfold after
    rw [List.foldl_append, List.foldl_cons]
  rw [hsplit, get?_after_of_quiet _ quiet, get?_apply_of_concerns _ hc]

omit [DecidableEq κ] [Key κ] in
/-- Either no change concerns a key or one of them is the last that does. -/
theorem quiet_or_last (key : κ) (changes : List (Change κ)) :
    (∀ c ∈ changes, ¬ c.Concerns key) ∨ ∃ earlier c later, changes = earlier ++ c :: later ∧
      c.Concerns key ∧ ∀ c ∈ later, ¬ c.Concerns key := by
  induction changes with
  | nil => exact .inl (by simp)
  | cons c rest ih =>
    obtain hquiet | ⟨earlier, d, later, rfl, hd, hlater⟩ := ih
    · by_cases hc : c.Concerns key
      · exact .inr ⟨[], c, rest, rfl, hc, hquiet⟩
      · exact .inl (List.forall_mem_cons.mpr ⟨hc, hquiet⟩)
    · exact .inr ⟨c :: earlier, d, later, rfl, hd, hlater⟩

/-! ## The list and its history -/

theorem get?_ofPairs_eq_some_iff : (Table.ofPairs pairs).get? key = some value ↔
    ∃ front back, pairs = front ++ (key, value) :: back ∧ ∀ e ∈ front, e.1 ≠ key := by
  rw [Table.get?_ofPairs, Option.map_eq_some_iff]
  constructor
  · rintro ⟨⟨k, v⟩, hfind, rfl⟩
    obtain ⟨hk, front, back, hpairs, hfront⟩ := List.find?_eq_some_iff_append.mp hfind
    obtain rfl : k = key := by simpa using hk
    exact ⟨front, back, hpairs, by simpa using hfront⟩
  · rintro ⟨front, back, hpairs, hfront⟩
    refine ⟨(key, value), List.find?_eq_some_iff_append.mpr ?_, rfl⟩
    exact ⟨beq_self_eq_true key, front, back, hpairs, by simpa using hfront⟩

/-- A key has the value that the history recalls, and none where it recalls none. -/
theorem get?_after_iff :
    (after (.ofPairs pairs) changes).get? key = some value ↔ Recalls pairs changes key value := by
  constructor
  · intro hget
    obtain hquiet | ⟨earlier, c, later, rfl, hc, hlater⟩ := quiet_or_last key changes
    · rw [get?_after_of_quiet _ hquiet] at hget
      obtain ⟨front, back, hpairs, hfront⟩ := get?_ofPairs_eq_some_iff.mp hget
      exact .initial hquiet front back hpairs hfront
    · rw [get?_after_of_last _ hc hlater] at hget
      cases c with
      | put k v =>
        obtain rfl : key = k := hc
        obtain rfl : v = value := Option.some.inj hget
        exact .put earlier later rfl hlater
      | remove k => exact nomatch hget
      | clear => exact nomatch hget
  · intro h
    cases h with
    | put earlier later hchanges hlater =>
      rw [hchanges]
      exact get?_after_of_last _ rfl hlater
    | initial hquiet front back hpairs hfront =>
      rw [get?_after_of_quiet _ hquiet]
      exact get?_ofPairs_eq_some_iff.mpr ⟨front, back, hpairs, hfront⟩

/-- **A property list is a finite map with its keys in byte order**, after any changes to a list
made from any pairs. Going through it yields keys whose bytes increase strictly, each with the
value that look-up gives it, which is the value its history recalls. Membership, size, emptiness
and the answer of a removal agree with look-up. Two lists are equal exactly when they give every
key the same value, however each of them came about. -/
theorem finite_map_in_order (pairs : List (κ × κ)) (changes : List (Change κ)) :
    let p := after (.ofPairs pairs) changes
    ((p.entries.map (·.1)).Pairwise fun a b => Key.bytes a < Key.bytes b) ∧
    (∀ key value, (key, value) ∈ p.entries ↔ p.get? key = some value) ∧
    (∀ key value, p.get? key = some value ↔ Recalls pairs changes key value) ∧
    (∀ key, p.contains key = (p.get? key).isSome) ∧
    Set.encard {key | (p.get? key).isSome} = p.size ∧
    (p.isEmpty = true ↔ ∀ key, p.get? key = none) ∧
    (∀ key, (p.remove key).2 = (p.get? key).isSome) ∧
    ∀ (pairs' : List (κ × κ)) (changes' : List (Change κ)),
      let q := after (.ofPairs pairs') changes'
      p = q ↔ ∀ key, p.get? key = q.get? key := by
  intro p
  have hp : p.Ordered := ordered_after (Table.ordered_ofPairs pairs) changes
  refine ⟨?_, fun _ _ => hp.mem_iff, fun _ _ => get?_after_iff, Table.contains_eq_isSome p,
    hp.encard_keys, Table.isEmpty_iff p, Table.contains_eq_isSome p, fun pairs' changes' => ?_⟩
  · exact List.pairwise_map.mpr (List.Pairwise.imp keyBefore_iff.mp hp)
  · intro q
    have hq : q.Ordered := ordered_after (Table.ordered_ofPairs pairs') changes'
    exact ⟨fun heq key => by rw [heq], hp.ext hq⟩

/-- The empty key comes first and a proper initial part before what it begins; NUL and the
greatest byte are bytes like any other. -/
example :
    (after (.ofPairs [([97, 98], [1]), ([97], [2]), ([97], [3])])
      [.put [255] [4], .put [97, 0] [5], .remove [97, 98], .put [] [6], .put [255] [7]]).entries =
    ([([], [6]), ([97], [2]), ([97, 0], [5]), ([255], [7])] :
      List (List UInt8 × List UInt8)) := by
  decide

end PropertyList

end SpanTree
