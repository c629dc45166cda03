/-
SpanTree.Proofs.Tables — a table whose keys increase is a finite map.

The one fact about insertion is `insertEntry_cut`: an ordered list of
entries is cut in two at a key, what stands before the key and what
stands after it, and the key itself is between them at most once.
Insertion puts its entry there. Order and the number of entries of some
kind are then read off the cut. Look-up needs no order, except that only
an ordered table has nothing but what look-up finds, and is therefore
determined by the values that it gives (`Ordered.ext`).
-/
import SpanTree.Table

namespace SpanTree

/-! ## The order of keys -/

variable {κ : Type} [Key κ]

theorem keyBefore_iff {a b : κ} : keyBefore a b = true ↔ Key.bytes a < Key.bytes b := by
  simp [keyBefore]

theorem keyBefore_trans {a b c : κ} (hab : keyBefore a b = true)
    (hbc : keyBefore b c = true) : keyBefore a c = true := by
  rw [keyBefore_iff] at hab hbc ⊢
  exact List.lt_trans hab hbc

/-- No key comes before itself. -/
theorem ne_of_keyBefore {a b : κ} (h : keyBefore a b = true) : a ≠ b := by
  rintro rfl
  rw [keyBefore_iff] at h
  exact List.lt_irrefl _ h

/-- Of two keys one comes before the other. -/
theorem keyBefore_of_not {a b : κ} (hne : a ≠ b) (h : keyBefore a b = false) :
    keyBefore b a = true := by
  rw [keyBefore_iff]
  refine Decidable.byContradiction fun hba => ?_
  have hab : ¬ Key.bytes a < Key.bytes b := by
    intro hlt
    rw [keyBefore_iff.mpr hlt] at h
    exact Bool.noConfusion h
  exact hne (Key.bytes_injective (List.le_antisymm hba hab))

namespace Table

variable {α : Type} {t : Table α κ} {key k : κ} {value : α}

/-- The keys increase strictly. -/
def Ordered (t : Table α κ) : Prop :=
  t.entries.Pairwise fun a b => keyBefore a.1 b.1 = true

theorem ordered_empty : (empty : Table α κ).Ordered := List.Pairwise.nil

theorem Ordered.nodup (h : t.Ordered) : t.entries.Nodup :=
  List.Pairwise.imp (fun hlt heq => ne_of_keyBefore hlt (congrArg Prod.fst heq)) h

variable [DecidableEq κ]

/-! ## The cut at a key -/

/-- An ordered list of entries is cut in two at a key. Between the two parts is the
entry of the key, if there is one, and there insertion puts its own. -/
theorem insertEntry_cut (key : κ) (value : α) {es : List (κ × α)}
    (h : es.Pairwise fun a b => keyBefore a.1 b.1 = true) :
    ∃ pre mid post, es = pre ++ mid ++ post ∧
      insertEntry key value es = pre ++ (key, value) :: post ∧
      (mid = [] ∨ ∃ v, mid = [(key, v)]) ∧
      (∀ e ∈ pre, keyBefore e.1 key = true) ∧ ∀ e ∈ post, keyBefore key e.1 = true := by
  induction es with
  | nil => exact ⟨[], [], [], rfl, rfl, .inl rfl, by simp, by simp⟩
  | cons e rest ih =>
    obtain ⟨hfirst, hrest⟩ := List.pairwise_cons.mp h
    unfold insertEntry
    by_cases heq : e.1 = key
    · subst heq
      exact ⟨[], [e], rest, rfl, if_pos rfl, .inr ⟨e.2, rfl⟩, by simp, hfirst⟩
    · rw [if_neg heq]
      cases hb : keyBefore key e.1 with
      | true =>
        refine ⟨[], [], e :: rest, rfl, if_pos rfl, .inl rfl, by simp, fun x hx => ?_⟩
        rcases List.mem_cons.mp hx with rfl | hx
        · exact hb
        · exact keyBefore_trans hb (hfirst x hx)
      | false =>
        obtain ⟨pre, mid, post, hes, hins, hmid, hpre, hpost⟩ := ih hrest
        refine ⟨e :: pre, mid, post, by simp [hes], ?_, hmid, fun x hx => ?_, hpost⟩
        · rw [if_neg Bool.false_ne_true, hins]
          rfl
        · rcases List.mem_cons.mp hx with rfl | hx
          · exact keyBefore_of_not (Ne.symm heq) hb
          · exact hpre x hx

/-- A table cut at a key, with the table that insertion makes of it. -/
structure Cut (t : Table α κ) (key : κ) (value : α) where
  pre : List (κ × α)
  mid : List (κ × α)
  post : List (κ × α)
  entries : t.entries = pre ++ mid ++ post
  inserted : (t.insert key value).entries = pre ++ (key, value) :: post
  middle : mid = (t.get? key).toList.map (key, ·)
  before : ∀ e ∈ pre, keyBefore e.1 key = true
  after : ∀ e ∈ post, keyBefore key e.1 = true

omit [Key κ] in
theorem find?_eq_none_of_ne {es : List (κ × α)} (h : ∀ e ∈ es, e.1 ≠ key) :
    es.find? (fun e => e.1 == key) = none := by
  rw [List.find?_eq_none]
  intro e he
  simp [h e he]

theorem Ordered.exists_cut (h : t.Ordered) (key : κ) (value : α) :
    Nonempty (Cut t key value) := by
  obtain ⟨pre, mid, post, hes, hins, hmid, hpre, hpost⟩ := insertEntry_cut key value h
  have hnone : pre.find? (fun e => e.1 == key) = none :=
    find?_eq_none_of_ne fun e he => ne_of_keyBefore (hpre e he)
  have hnone' : post.find? (fun e => e.1 == key) = none :=
    find?_eq_none_of_ne fun e he => (ne_of_keyBefore (hpost e he)).symm
  refine ⟨⟨pre, mid, post, hes, hins, ?_, hpre, hpost⟩⟩
  rcases hmid with rfl | ⟨v, rfl⟩
  · simp [get?, hes, hnone, hnone']
  · simp [get?, hes, List.find?_append, hnone]

/-! ## Order -/

theorem Ordered.insert (h : t.Ordered) (key : κ) (value : α) :
    (t.insert key value).Ordered := by
  obtain ⟨c⟩ := h.exists_cut key value
  unfold Ordered at h ⊢
  rw [c.entries, List.append_assoc, List.pairwise_append, List.pairwise_append] at h
  rw [c.inserted, List.pairwise_append, List.pairwise_cons]
  obtain ⟨hpre, ⟨-, hpost, -⟩, -⟩ := h
  refine ⟨hpre, ⟨c.after, hpost⟩, fun a ha b hb => ?_⟩
  rcases List.mem_cons.mp hb with rfl | hb
  · exact c.before a ha
  · exact keyBefore_trans (c.before a ha) (c.after b hb)

theorem Ordered.erase (h : t.Ordered) (key : κ) : (t.erase key).Ordered :=
  List.Pairwise.filter _ h

/-! ## Look-up -/

theorem get?_insert (t : Table α κ) (key k : κ) (value : α) :
    (t.insert key value).get? k = if k = key then some value else t.get? k := by
  simp only [get?, insert]
  induction t.entries with
  | nil =>
    by_cases hk : k = key
    · simp [insertEntry, hk]
    · simp [insertEntry, hk, Ne.symm hk]
  | cons e rest ih =>
    rw [insertEntry]
    by_cases hk : k = key
    · subst hk
      rw [if_pos rfl] at ih ⊢
      split
      · simp
      · next hne =>
        split
        · simp
        · simpa [List.find?_cons, hne] using ih
    · rw [if_neg hk] at ih ⊢
      split
      · next heq => simp [heq, Ne.symm hk]
      · split
        · simp [Ne.symm hk]
        · by_cases he : e.1 = k
          · simp [he]
          · simpa [List.find?_cons, he] using ih

omit [Key κ] in
theorem get?_erase (t : Table α κ) (key k : κ) :
    (t.erase key).get? k = if k = key then none else t.get? k := by
  unfold get? erase
  rw [List.find?_filter]
  by_cases hk : k = key
  · subst hk
    simp
  · rw [if_neg hk]
    congr 2
    funext e
    by_cases he : e.1 = k
    · simp [he, hk]
    · simp [he]

omit [Key κ] in
/-- A table contains the keys that it has a value for. -/
theorem contains_eq_isSome (t : Table α κ) (key : κ) :
    t.contains key = (t.get? key).isSome := by
  unfold contains get?
  rw [Option.isSome_map, Bool.eq_iff_iff, List.find?_isSome, List.any_eq_true]

/-- Giving a key the value that it has changes nothing. -/
theorem Ordered.insert_self (h : t.Ordered) (hget : t.get? key = some value) :
    t.insert key value = t := by
  obtain ⟨c⟩ := h.exists_cut key value
  have hentries := c.entries
  have hins := c.inserted
  rw [c.middle, hget] at hentries
  obtain ⟨entries⟩ := t
  rw [Table.mk.injEq]
  simp_all

omit [Key κ] in
/-- A table has an entry for each key with a value. -/
theorem mem_of_get? (h : t.get? key = some value) : (key, value) ∈ t.entries := by
  obtain ⟨e, hfind, rfl⟩ := Option.map_eq_some_iff.mp h
  have hkey : e.1 = key := by simpa using List.find?_some hfind
  have hmem := List.mem_of_find?_eq_some hfind
  rwa [← hkey]

/-- An ordered table has no other entry for a key. -/
theorem Ordered.mem_iff (h : t.Ordered) : (key, value) ∈ t.entries ↔ t.get? key = some value := by
  refine ⟨fun hmem => ?_, mem_of_get?⟩
  obtain ⟨pre, post, hes⟩ := List.append_of_mem hmem
  have hpre : ∀ e ∈ pre, e.1 ≠ key := by
    intro e he
    unfold Ordered at h
    rw [hes, List.pairwise_append] at h
    exact ne_of_keyBefore (h.2.2 e he (key, value) List.mem_cons_self)
  rw [get?, hes, List.find?_append, find?_eq_none_of_ne hpre]
  simp

omit [Key κ] in
/-- A table without a value for any key is empty. -/
theorem isEmpty_iff (t : Table α κ) : t.isEmpty = true ↔ ∀ key, t.get? key = none := by
  rw [isEmpty, List.isEmpty_iff]
  constructor
  · intro hnil key
    rw [get?, hnil]
    rfl
  · intro hnone
    refine List.eq_nil_iff_forall_not_mem.mpr fun e he => ?_
    have hfound : t.contains e.1 = true := List.any_eq_true.mpr ⟨e, he, beq_self_eq_true e.1⟩
    rw [contains_eq_isSome, hnone] at hfound
    exact Bool.noConfusion hfound

/-! ## Equality -/

/-- **Two ordered tables that give every key the same value** are the same list of entries. -/
theorem Ordered.ext {u : Table α κ} (ht : t.Ordered) (hu : u.Ordered)
    (h : ∀ key, t.get? key = u.get? key) : t = u := by
  have hmem : ∀ e, e ∈ t.entries ↔ e ∈ u.entries := by
    rintro ⟨key, value⟩
    rw [ht.mem_iff, hu.mem_iff, h key]
  have hperm := (List.perm_ext_iff_of_nodup ht.nodup hu.nodup).mpr hmem
  have hentries : t.entries = u.entries := by
    refine hperm.eq_of_pairwise (fun a b _ _ hab hba => ?_) ht hu
    exact absurd rfl (ne_of_keyBefore (keyBefore_trans hab hba))
  cases t
  cases u
  exact congrArg Table.mk hentries

/-! ## Lists of pairs -/

theorem get?_insertIfNew (t : Table α κ) (key k : κ) (value : α) :
    (t.insertIfNew key value).get? k =
      (t.get? k).or (if k = key then some value else none) := by
  unfold insertIfNew
  rw [contains_eq_isSome]
  by_cases hk : k = key
  · subst hk
    cases hget : t.get? k with
    | none => simp [get?_insert]
    | some v => simp [hget]
  · split
    · simp
    · simp [get?_insert, hk]

theorem ordered_ofPairs (pairs : List (κ × α)) : (ofPairs pairs).Ordered := by
  refine List.foldlRecOn pairs _ ordered_empty fun t ht e _ => ?_
  unfold insertIfNew
  split
  · exact ht
  · exact ht.insert e.1 e.2

/-- The first pair with a key gives it its value. -/
theorem get?_ofPairs (pairs : List (κ × α)) (key : κ) :
    (ofPairs pairs).get? key = (pairs.find? fun e => e.1 == key).map (·.2) := by
  suffices hfrom : ∀ t : Table α κ,
      (pairs.foldl (fun t e => t.insertIfNew e.1 e.2) t).get? key =
        (t.get? key).or ((pairs.find? fun e => e.1 == key).map (·.2)) from hfrom empty
  induction pairs with
  | nil => simp
  | cons e rest ih =>
    intro t
    rw [List.foldl_cons, ih, get?_insertIfNew, Option.or_assoc]
    by_cases he : key = e.1
    · simp [he]
    · simp [he, Ne.symm he]

/-! ## Counting -/

/-- The number of entries with a value of some kind. -/
def count (p : α → Bool) (t : Table α κ) : Nat := t.entries.countP fun e => p e.2

/-- What the value of a key, if it has one, contributes to a count. -/
def share (p : α → Bool) : Option α → Nat
  | none => 0
  | some v => if p v then 1 else 0

theorem Cut.count_eq (c : Cut t key value) (p : α → Bool) :
    t.count p = c.pre.countP (fun e => p e.2) + share p (t.get? key) +
      c.post.countP (fun e => p e.2) := by
  have hmid : c.mid.countP (fun e => p e.2) = share p (t.get? key) := by
    rw [c.middle]
    cases t.get? key with
    | none => rfl
    | some v => simp [share, List.countP_cons]
  rw [count, c.entries, List.countP_append, List.countP_append, hmid]

/-- Nothing is counted where no key has a value of the kind. -/
theorem Ordered.count_eq_zero (h : t.Ordered) {p : α → Bool}
    (hnone : ∀ key value, t.get? key = some value → p value = false) : t.count p = 0 := by
  refine List.countP_eq_zero.mpr fun e he => ?_
  simp [hnone e.1 e.2 (h.mem_iff.mp he)]

/-- The value of a key is exchanged for another. -/
theorem Ordered.count_insert (h : t.Ordered) (p : α → Bool) (key : κ) (value : α) :
    (t.insert key value).count p + share p (t.get? key) = t.count p + share p (some value) := by
  obtain ⟨c⟩ := h.exists_cut key value
  have hvalue : share p (some value) = if p value then 1 else 0 := rfl
  rw [c.count_eq p, count, c.inserted, List.countP_append, List.countP_cons, hvalue]
  dsimp only
  omega

/-- The value of a key is taken away. -/
theorem Ordered.count_erase (h : t.Ordered) (p : α → Bool) {key : κ} {value : α}
    (hget : t.get? key = some value) :
    (t.erase key).count p + share p (some value) = t.count p := by
  obtain ⟨c⟩ := h.exists_cut key value
  have hpre : c.pre.filter (fun e => e.1 != key) = c.pre :=
    List.filter_eq_self.mpr fun e he => by simp [ne_of_keyBefore (c.before e he)]
  have hpost : c.post.filter (fun e => e.1 != key) = c.post :=
    List.filter_eq_self.mpr fun e he => by simp [(ne_of_keyBefore (c.after e he)).symm]
  have hmid : c.mid.filter (fun e => e.1 != key) = [] := by simp [c.middle, hget]
  have herase : (t.erase key).entries = c.pre ++ c.post := by
    rw [Table.erase, c.entries, List.filter_append, List.filter_append, hpre, hmid, hpost,
      List.append_nil]
  rw [c.count_eq p, count, herase, List.countP_append, hget]
  omega

end Table

end SpanTree
