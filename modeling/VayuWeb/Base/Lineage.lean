import Mathlib.Data.Set.Function
import Mathlib.Data.Set.Insert
import Mathlib.Order.Defs.LinearOrder

/-!
# Lineages

Candidates for numbered slots, each with an identity and the identity of its parent. In a lineage
every slot is taken by the least of the candidates whose parent took the slot below.

* `Linked.eq_of_tip`: a list in which each member follows those below it is known by its tip.
* `Complete.unique`: a set of candidates has one lineage that cannot be continued.
* `Complete.extend`: a candidate that follows the lineage becomes its tip.
* `Complete.reopen`, `Complete.keep`: a new candidate for the bottom slot starts a lineage of its
  own, or changes nothing.
-/

namespace Lineage

/-- How candidates are read. -/
structure Kind (α β : Type) where
  slot : α → ℕ
  id : α → β
  parent : α → β

variable {α β : Type} {K : Kind α β}

/-- `d` may take the next slot; lineages stand newest first. -/
def Follows (K : Kind α β) (chain : List α) (d : α) : Prop :=
  K.slot d = chain.length ∧ ∀ tip ∈ chain.head?, K.parent d = K.id tip

/-- To follow a chain is to name its length and its tip. -/
theorem follows_cons {tip d : α} {chain : List α} :
    Follows K (tip :: chain) d ↔ K.slot d = chain.length + 1 ∧ K.parent d = K.id tip := by
  simp [Follows]

theorem follows_nil {d : α} : Follows K [] d ↔ K.slot d = 0 := by
  simp [Follows]

/-- Every member of a list follows those below it. -/
inductive Linked (K : Kind α β) : List α → Prop
  | nil : Linked K []
  | cons {c : α} {chain : List α} (rest : Linked K chain) (follows : Follows K chain c) :
      Linked K (c :: chain)

/-- **The tip of a linked list tells what is below it**, where identities tell the members apart. -/
theorem Linked.eq_of_tip {tip : α} {chain chain' : List α} (h : Linked K (tip :: chain))
    (h' : Linked K (tip :: chain')) (hid : ∀ c ∈ chain, ∀ c' ∈ chain', K.id c = K.id c' → c = c') :
    chain = chain' := by
  induction chain generalizing tip chain' with
  | nil =>
    cases h with
    | cons _ follows =>
      cases h' with
      | cons _ follows' =>
        -- the slot of the tip counts what is below it
        exact (List.length_eq_zero_iff.1 (follows'.1.symm.trans follows.1)).symm
  | cons c chain ih =>
    cases h with
    | cons rest follows =>
      cases h' with
      | cons rest' follows' =>
        cases chain' with
        | nil =>
          have hlen := follows.1.symm.trans follows'.1
          simp at hlen
        | cons c' chain' =>
          have hparent : K.id c = K.id c' :=
            (follows_cons.1 follows).2.symm.trans (follows_cons.1 follows').2
          obtain rfl := hid c List.mem_cons_self c' List.mem_cons_self hparent
          have hbelow : chain = chain' := ih rest rest' fun d hd d' hd' =>
            hid d (List.mem_cons_of_mem _ hd) d' (List.mem_cons_of_mem _ hd')
          rw [hbelow]

section Order

variable [LE β] {S : Set α} {chain chain' : List α} {c d : α}

/-- The lineages of a set of candidates. -/
inductive Chain (K : Kind α β) (S : Set α) : List α → Prop
  | nil : Chain K S []
  | cons {c : α} {chain : List α} (rest : Chain K S chain) (mem : c ∈ S) (follows : Follows K chain c)
      (least : ∀ d ∈ S, Follows K chain d → K.id c ≤ K.id d) : Chain K S (c :: chain)

/-- A lineage that nothing continues. -/
structure Complete (K : Kind α β) (S : Set α) (chain : List α) : Prop where
  lineage : Chain K S chain
  last : ∀ d ∈ S, ¬ Follows K chain d

theorem Chain.mem (h : Chain K S chain) (hc : c ∈ chain) : c ∈ S := by
  induction h with
  | nil => simp at hc
  | cons _ mem _ _ ih =>
    rcases List.mem_cons.1 hc with rfl | hc
    · exact mem
    · exact ih hc

/-- A chain without its tip is a chain. -/
theorem Chain.tail (h : Chain K S (c :: chain)) : Chain K S chain := by
  cases h with
  | cons rest => exact rest

/-- Every suffix of a chain is a chain. -/
theorem Chain.suffix (h : Chain K S chain) (hsuffix : chain' <:+ chain) : Chain K S chain' := by
  induction h with
  | nil =>
    rw [List.suffix_nil.1 hsuffix]
    exact .nil
  | cons rest mem follows least ih =>
    rcases List.suffix_cons_iff.1 hsuffix with rfl | hsuffix
    · exact .cons rest mem follows least
    · exact ih hsuffix

theorem Chain.head_mem (h : Chain K S (c :: chain)) : c ∈ S := h.mem List.mem_cons_self

theorem Chain.head_follows (h : Chain K S (c :: chain)) : Follows K chain c := by
  cases h with
  | cons _ _ follows => exact follows

/-- The tip is the least of those that could stand there. -/
theorem Chain.head_least (h : Chain K S (c :: chain)) (hd : d ∈ S) (hfollows : Follows K chain d) :
    K.id c ≤ K.id d := by
  cases h with
  | cons _ _ _ least => exact least d hd hfollows

/-- Two lineages of one length are the same, when identities tell candidates apart. -/
theorem Chain.eq_of_length [Std.Antisymm fun a b : β => a ≤ b] (hid : Set.InjOn K.id S) (h : Chain K S chain)
    (h' : Chain K S chain') (hlen : chain.length = chain'.length) : chain = chain' := by
  induction h generalizing chain' with
  | nil => exact (List.length_eq_zero_iff.1 hlen.symm).symm
  | @cons c chain _ mem follows least ih =>
    cases h' with
    | nil => simp at hlen
    | @cons c' chain' rest' mem' follows' least' =>
      obtain rfl : chain = chain' := ih rest' (Nat.succ.inj hlen)
      have heq : K.id c = K.id c' := Std.le_antisymm (least c' mem' follows') (least' c mem follows)
      rw [hid mem mem' heq]

/-- Of two lineages the shorter one is continued by the longer. -/
theorem Chain.exists_drop (h : Chain K S chain) {n : ℕ} (hn : n < chain.length) :
    ∃ c below, Chain K S (c :: below) ∧ below.length = n := by
  induction h with
  | nil => simp at hn
  | @cons c chain rest mem follows least ih =>
    by_cases heq : n = chain.length
    · exact ⟨c, chain, .cons rest mem follows least, heq.symm⟩
    · rw [List.length_cons] at hn
      exact ih (by omega)

/-- No chain is longer than a complete one. -/
theorem Complete.length_le [Std.Antisymm fun a b : β => a ≤ b] (hid : Set.InjOn K.id S) (h : Complete K S chain)
    (h' : Chain K S chain') : chain'.length ≤ chain.length := by
  by_contra hlt
  obtain ⟨c, below, hbelow, hlen⟩ := h'.exists_drop (Nat.lt_of_not_le hlt)
  obtain rfl : below = chain := hbelow.tail.eq_of_length hid h.lineage hlen
  exact h.last c hbelow.head_mem hbelow.head_follows

/-- **A set of candidates has one complete lineage.** -/
theorem Complete.unique [Std.Antisymm fun a b : β => a ≤ b] (hid : Set.InjOn K.id S) (h : Complete K S chain)
    (h' : Complete K S chain') : chain = chain' :=
  h.lineage.eq_of_length hid h'.lineage
    (Nat.le_antisymm (h'.length_le hid h.lineage) (h.length_le hid h'.lineage))

/-- A link's slot is below the length of its chain. -/
theorem Chain.slot_lt (h : Chain K S chain) (hd : d ∈ chain) : K.slot d < chain.length := by
  induction h with
  | nil => simp at hd
  | cons rest mem follows least ih =>
    rw [List.length_cons]
    rcases List.mem_cons.1 hd with rfl | hd
    · have hslot := follows.1
      omega
    · have hslot := ih hd
      omega

/-- Two links of a chain never share a slot. -/
theorem Chain.slot_inj (h : Chain K S chain) (hc : c ∈ chain) (hd : d ∈ chain) (hslot : K.slot c = K.slot d) :
    c = d := by
  induction h with
  | nil => simp at hc
  | @cons tip chain rest mem follows least ih =>
    have hhead := follows.1
    rcases List.mem_cons.1 hc with hc | hc
    · rcases List.mem_cons.1 hd with hd | hd
      · rw [hc, hd]
      · have hlt := rest.slot_lt hd
        rw [hc] at hslot
        omega
    · rcases List.mem_cons.1 hd with hd | hd
      · have hlt := rest.slot_lt hc
        rw [hd] at hslot
        omega
      · exact ih hc hd

theorem suffix_eq_or_cons (hsuffix : chain' <:+ chain) : chain' = chain ∨ ∃ c, c :: chain' <:+ chain := by
  obtain ⟨above, rfl⟩ := hsuffix
  rcases List.eq_nil_or_concat above with rfl | ⟨above, c, rfl⟩
  · exact Or.inl rfl
  · exact Or.inr ⟨c, above, by rw [List.concat_eq_append, List.append_assoc, List.singleton_append]⟩

/-- What is missing of a complete lineage starts with a candidate that follows. -/
theorem Complete.exists_next (h : Complete K S chain) (hsuffix : chain' <:+ chain) (hd : d ∈ S)
    (hfollows : Follows K chain' d) : ∃ c, c :: chain' <:+ chain := by
  rcases suffix_eq_or_cons hsuffix with rfl | hnext
  · exact absurd hfollows (h.last d hd)
  · exact hnext

/-! ## A new candidate -/

variable {b : α}

/-- A lineage stays one with a candidate that beats none of its members. -/
theorem Chain.insert (h : Chain K S chain)
    (hkeep : ∀ c below, c :: below <:+ chain → Follows K below b → K.id c ≤ K.id b) :
    Chain K (insert b S) chain := by
  induction h with
  | nil => exact .nil
  | @cons c chain rest mem follows least ih =>
    refine .cons (ih ?_) (Set.mem_insert_of_mem _ mem) follows ?_
    · intro c' below hsuffix
      exact hkeep c' below (hsuffix.trans (List.suffix_cons _ _))
    · intro d hd hfollows
      rcases Set.mem_insert_iff.1 hd with rfl | hd
      · exact hkeep c chain List.suffix_rfl hfollows
      · exact least d hd hfollows

/-- **A candidate that follows the lineage becomes its tip**, when nothing follows it yet. -/
theorem Complete.extend (h : Complete K S chain) (hrefl : K.id b ≤ K.id b) (hb : Follows K chain b)
    (hchild : ∀ d ∈ insert b S, ¬ Follows K (b :: chain) d) : Complete K (insert b S) (b :: chain) := by
  refine ⟨.cons (h.lineage.insert ?_) (Set.mem_insert _ _) hb ?_, hchild⟩
  · intro c below hsuffix hfollows
    have hlen := hsuffix.length_le
    have hslot := hb.1.symm.trans hfollows.1
    rw [List.length_cons] at hlen
    omega
  · intro d hd hfollows
    rcases Set.mem_insert_iff.1 hd with rfl | hd
    · exact hrefl
    · exact absurd hfollows (h.last d hd)

/-- A least candidate for the bottom slot, which nothing follows, is a lineage of its own. -/
theorem Complete.reopen (hslot : K.slot b = 0) (hleast : ∀ d ∈ insert b S, K.slot d = 0 → K.id b ≤ K.id d)
    (hchild : ∀ d ∈ insert b S, ¬ Follows K [b] d) : Complete K (insert b S) [b] := by
  refine ⟨.cons .nil (Set.mem_insert _ _) (follows_nil.2 hslot) ?_, hchild⟩
  intro d hd hfollows
  exact hleast d hd (follows_nil.1 hfollows)

/-- One for the bottom slot that is not the least changes nothing. -/
theorem Complete.keep [Std.Total fun a b : β => a ≤ b]
    [Trans (fun a b : β => a ≤ b) (fun a b => a ≤ b) fun a b => a ≤ b]
    (h : Complete K S chain) (hslot : K.slot b = 0) (hd : d ∈ S) (hdslot : K.slot d = 0)
    (hle : K.id d ≤ K.id b) : Complete K (insert b S) chain := by
  constructor
  · apply h.lineage.insert
    intro c below hsuffix hfollows
    obtain rfl : below = [] := List.length_eq_zero_iff.1 (hfollows.1.symm.trans hslot)
    have hbottom : ∀ {l : List α}, Chain K S l → [c] <:+ l → K.id c ≤ K.id d := by
      intro l hl hl'
      induction hl with
      | nil => simp at hl'
      | @cons c' chain rest mem follows least ih =>
        rcases List.suffix_cons_iff.1 hl' with heq | hrest
        · obtain ⟨rfl, rfl⟩ := List.cons.inj heq
          exact least d hd (follows_nil.2 hdslot)
        · exact ih hrest
    exact Std.le_trans (hbottom h.lineage hsuffix) hle
  · intro d' hd' hfollows
    rcases Set.mem_insert_iff.1 hd' with rfl | hd'
    · cases chain with
      | nil => exact h.last d hd (follows_nil.2 hdslot)
      | cons tip chain =>
        have hnext := (follows_cons.1 hfollows).1
        omega
    · exact h.last d' hd' hfollows

end Order

end Lineage
