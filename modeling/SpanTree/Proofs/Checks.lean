/-
SpanTree.Proofs.Checks — what the structural check accepts.

The check compares words: at every node the sum of the totals below, as
words add, is less than the total (`Tree.Outweighs`). That every node owns
characters is more, because the sum of two totals below may wrap. Where no
sum does (`Tree.Unwrapped`) the two are the same (`weighed_iff`).

The walk of the check keeps a stack of subtrees. Every tree on the stack
is the whole tree or hangs below a node, and its link says which; this is
what `Exempt` asks of it, and a tree that is linked hands it down to both
children. So the check passes exactly on the trees that are linked and
whose words compare (`check_eq_ok_iff`).
-/
import SpanTree.Tree.Check
import SpanTree.Proofs.Links

namespace SpanTree

namespace Tree

/-! ## Weights as the check compares them -/

/-- Every total is above the sum of the totals below it, as words add and compare. -/
def Outweighs : Tree → Prop
  | .nil => True
  | .node n l r => l.total + r.total < n.data.total ∧ l.Outweighs ∧ r.Outweighs

/-- At no node the sum of the totals below wraps. -/
def Unwrapped : Tree → Prop
  | .nil => True
  | .node _ l r => l.total.toNat + r.total.toNat < 2 ^ 64 ∧ l.Unwrapped ∧ r.Unwrapped

/-- Every node owns characters exactly where the words compare and no sum wraps. -/
theorem weighed_iff {t : Tree} : t.Weighed ↔ t.Outweighs ∧ t.Unwrapped := by
  induction t with
  | nil => simp [Outweighs, Unwrapped]
  | node n l r ihl ihr =>
    have hbound := n.data.total.toNat_lt
    have hnode : l.total.toNat + r.total.toNat < n.data.total.toNat ↔
        l.total + r.total < n.data.total ∧ l.total.toNat + r.total.toNat < 2 ^ 64 := by
      constructor
      · intro h
        have hfits : l.total.toNat + r.total.toNat < 2 ^ 64 := by omega
        rw [UInt64.lt_iff_toNat_lt, Size.toNat_add_of_lt hfits]
        exact ⟨h, hfits⟩
      · rintro ⟨h, hfits⟩
        rwa [UInt64.lt_iff_toNat_lt, Size.toNat_add_of_lt hfits] at h
    simp only [Weighed, Outweighs, Unwrapped, hnode, ihl, ihr]
    constructor
    · rintro ⟨⟨ha, hb⟩, ⟨hc, hd⟩, he, hf⟩
      exact ⟨⟨ha, hc, he⟩, hb, hd, hf⟩
    · rintro ⟨⟨ha, hc, he⟩, hb, hd, hf⟩
      exact ⟨⟨ha, hb⟩, ⟨hc, hd⟩, he, hf⟩

/-! ## The check -/

/-- A subtree on the stack of the check: only the top of the whole tree
may be linked to a text. -/
def Exempt (top : NodeId) (t : Tree) : Prop :=
  t.id? = some top ∨ ∀ link ∈ t.link?, link.owner? = none

/-- A child that is linked to its holder is not linked to a text. -/
theorem exempt_of_linkedTo {top holder : NodeId} {t : Tree} (h : t.linkedTo holder = true) :
    t.Exempt top :=
  .inr fun link hlink => by rw [linkedTo_iff.mp h link hlink]; rfl

/-- What the check asks of one node. -/
theorem checkNode_eq_ok_iff {top : NodeId} {n : Node} {l r : Tree}
    (h : Exempt top (.node n l r)) :
    checkNode top n l r = .ok () ↔
      l.total + r.total < n.data.total ∧ l.linkedTo n.id = true ∧ r.linkedTo n.id = true := by
  have htop : ¬ (n.id ≠ top ∧ n.link.owner?.isSome = true) := by
    rintro ⟨hne, howner⟩
    rcases h with hid | hlink
    · exact hne (by simpa [id?, head?] using hid)
    · simp [hlink n.link rfl] at howner
  rw [checkNode, if_neg htop]
  by_cases hw : l.total + r.total < n.data.total
  · rw [if_neg (not_not_intro hw)]
    cases l.linkedTo n.id <;> cases r.linkedTo n.id <;> simp [hw]
  · simp [hw]

/-- The check of a stack passes where all trees on it would. -/
theorem checkStack_eq_ok_iff {top : NodeId} {stack : List Tree} (h : ∀ t ∈ stack, t.Exempt top) :
    checkStack top stack = .ok () ↔ ∀ t ∈ stack, t.Linked ∧ t.Outweighs := by
  fun_induction checkStack top stack with
  | case1 => simp
  | case2 rest ih =>
    rw [ih fun t ht => h t (List.mem_cons_of_mem _ ht)]
    simp [Outweighs]
  | case3 n l r rest v hv =>
    have hnode := checkNode_eq_ok_iff (h _ List.mem_cons_self)
    rw [hv] at hnode
    simp only [reduceCtorEq, false_iff, List.forall_mem_cons] at hnode ⊢
    rintro ⟨⟨⟨hl, hr, -, -⟩, hw, -, -⟩, -⟩
    exact hnode ⟨hw, hl, hr⟩
  | case4 n l r rest _ hv ih =>
    obtain ⟨hw, hl, hr⟩ := (checkNode_eq_ok_iff (h _ List.mem_cons_self)).mp hv
    have hrest : ∀ t ∈ r :: l :: rest, t.Exempt top := by
      intro t ht
      simp only [List.mem_cons] at ht
      rcases ht with rfl | rfl | ht
      · exact exempt_of_linkedTo hr
      · exact exempt_of_linkedTo hl
      · exact h t (List.mem_cons_of_mem _ ht)
    rw [ih hrest]
    simp only [List.forall_mem_cons, Linked, Outweighs, hw, hl, hr, true_and]
    constructor
    · rintro ⟨⟨hlr, hwr⟩, ⟨hll, hwl⟩, hs⟩
      exact ⟨⟨⟨hll, hlr⟩, hwl, hwr⟩, hs⟩
    · rintro ⟨⟨⟨hll, hlr⟩, hwl, hwr⟩, hs⟩
      exact ⟨⟨hlr, hwr⟩, ⟨hll, hwl⟩, hs⟩

/-- Of a linked node the check can only report the weights. -/
theorem eq_of_checkNode_error {top : NodeId} {n : Node} {l r : Tree} {v : Violation}
    (hexempt : Exempt top (.node n l r)) (hlinked : (node n l r).Linked)
    (h : checkNode top n l r = .error v) : v = .emptyOwnRange := by
  by_cases hw : l.total + r.total < n.data.total
  · rw [(checkNode_eq_ok_iff hexempt).mpr ⟨hw, hlinked.1, hlinked.2.1⟩] at h
    cases h
  · rw [checkNode, if_pos hw] at h
    cases h
    rfl

/-- Of linked trees the check can only report the weights. -/
theorem eq_of_checkStack_error {top : NodeId} {stack : List Tree} {v : Violation}
    (hexempt : ∀ t ∈ stack, t.Exempt top) (hlinked : ∀ t ∈ stack, t.Linked)
    (h : checkStack top stack = .error v) : v = .emptyOwnRange := by
  fun_induction checkStack top stack with
  | case1 => cases h
  | case2 rest ih =>
    exact ih (fun t ht => hexempt t (List.mem_cons_of_mem _ ht))
      (fun t ht => hlinked t (List.mem_cons_of_mem _ ht)) h
  | case3 n l r rest w hw =>
    cases h
    exact eq_of_checkNode_error (hexempt _ List.mem_cons_self) (hlinked _ List.mem_cons_self) hw
  | case4 n l r rest _ hv ih =>
    obtain ⟨hl, hr, hll, hlr⟩ := hlinked _ List.mem_cons_self
    refine ih ?_ ?_ h
    · exact List.forall_mem_cons.mpr ⟨exempt_of_linkedTo hr,
        List.forall_mem_cons.mpr ⟨exempt_of_linkedTo hl, (List.forall_mem_cons.mp hexempt).2⟩⟩
    · exact List.forall_mem_cons.mpr ⟨hlr,
        List.forall_mem_cons.mpr ⟨hll, (List.forall_mem_cons.mp hlinked).2⟩⟩

/-- The check of a linked tree can only report the weights. -/
theorem eq_of_check_error {t : Tree} {v : Violation} (hlinked : t.Linked)
    (h : t.check = .error v) : v = .emptyOwnRange := by
  cases t with
  | nil => cases h
  | node n l r =>
    exact eq_of_checkStack_error (List.forall_mem_singleton.mpr (.inl rfl))
      (List.forall_mem_singleton.mpr hlinked) h

/-- **The structural check** accepts exactly the linked trees whose words compare. -/
theorem check_eq_ok_iff (t : Tree) : t.check = .ok () ↔ t.Linked ∧ t.Outweighs := by
  cases t with
  | nil => simp [check, Outweighs]
  | node n l r =>
    rw [check, checkStack_eq_ok_iff (List.forall_mem_singleton.mpr (.inl rfl)),
      List.forall_mem_singleton]

end Tree

end SpanTree
