import Mathlib.Data.List.Basic

/-!
# Maps in insertion order

`OrdMap κ ν` is the list of a map's entries in the order their keys were first set.
Setting a key that is there keeps its place.
-/

/-- A map in insertion order. -/
abbrev OrdMap (κ ν : Type) := List (κ × ν)

namespace OrdMap

variable {κ ν : Type} [DecidableEq κ]

/-- The value under a key. -/
def get? : OrdMap κ ν → κ → Option ν
  | [], _ => none
  | (k', v) :: m, k => if k' = k then some v else get? m k

/-- Sets a value: a new key goes to the end, an old one keeps its place. -/
def set : OrdMap κ ν → κ → ν → OrdMap κ ν
  | [], k, v => [(k, v)]
  | (k', v') :: m, k, v => if k' = k then (k', v) :: m else (k', v') :: set m k v

/-- The map without a key. -/
def erase (m : OrdMap κ ν) (k : κ) : OrdMap κ ν := m.filter fun e => e.1 ≠ k

/-- Make room for a key: the oldest entry goes when the map is at its bound. -/
def evict (m : OrdMap κ ν) (k : κ) (limit : ℕ) : OrdMap κ ν :=
  if m.length < limit ∨ (get? m k).isSome then m else m.tail

/-- The map down to a bound: the oldest entries go. -/
def trim (m : OrdMap κ ν) (limit : ℕ) : OrdMap κ ν := m.drop (m.length - limit)

@[simp] theorem get?_nil (k : κ) : get? ([] : OrdMap κ ν) k = none := rfl

@[simp] theorem get?_set_self (m : OrdMap κ ν) (k : κ) (v : ν) : (m.set k v).get? k = some v := by
  induction m with
  | nil => simp [set, get?]
  | cons e m ih =>
    obtain ⟨k', v'⟩ := e
    simp only [set]
    split_ifs with h <;> simp [get?, h, ih]

@[simp] theorem get?_set_ne (m : OrdMap κ ν) {k k' : κ} (v : ν) (h : k' ≠ k) :
    (m.set k v).get? k' = m.get? k' := by
  induction m with
  | nil => simp [set, get?, h.symm]
  | cons e m ih =>
    obtain ⟨k'', v''⟩ := e
    simp only [set]
    split_ifs with h' <;> simp only [get?, ih]
    subst h'; simp [h.symm]

/-- What is read after a value was set. -/
theorem get?_set (m : OrdMap κ ν) (k k' : κ) (v : ν) :
    (m.set k v).get? k' = if k' = k then some v else m.get? k' := by
  split_ifs with h
  · subst h; exact get?_set_self m k' v
  · exact get?_set_ne m v h

/-- The keys after a value was set. -/
theorem mem_keys_set (m : OrdMap κ ν) (k : κ) (v : ν) (x : κ) :
    x ∈ (m.set k v).map Prod.fst ↔ x = k ∨ x ∈ m.map Prod.fst := by
  induction m with
  | nil => simp [set]
  | cons e m ih =>
    obtain ⟨k', v'⟩ := e
    unfold set
    split_ifs with h
    · subst h
      simp
    · rw [List.map_cons, List.mem_cons, ih, List.map_cons, List.mem_cons]
      exact or_left_comm

theorem mem_set {m : OrdMap κ ν} {k : κ} {v : ν} {e : κ × ν} (h : e ∈ m.set k v) : e = (k, v) ∨ e ∈ m := by
  induction m with
  | nil => simpa [set] using h
  | cons e' m ih =>
    obtain ⟨k', v'⟩ := e'
    unfold set at h
    split_ifs at h with hk
    · subst hk
      rcases List.mem_cons.mp h with h | h
      · exact Or.inl h
      · exact Or.inr (List.mem_cons_of_mem _ h)
    · rcases List.mem_cons.mp h with h | h
      · exact Or.inr (by rw [h]; exact List.mem_cons_self)
      · exact (ih h).imp_right (List.mem_cons_of_mem _)

/-- What is read is in the map. -/
theorem mem_of_get? {m : OrdMap κ ν} {k : κ} {v : ν} (h : m.get? k = some v) : (k, v) ∈ m := by
  induction m with
  | nil => cases h
  | cons e m ih =>
    obtain ⟨k', v'⟩ := e
    unfold get? at h
    split_ifs at h with hk
    · cases hk
      cases h
      exact List.mem_cons_self
    · exact List.mem_cons_of_mem _ (ih h)

/-- In a map without repeated keys, what is in it is read. -/
theorem get?_of_mem {m : OrdMap κ ν} (hnodup : (m.map Prod.fst).Nodup) {k : κ} {v : ν} (h : (k, v) ∈ m) :
    m.get? k = some v := by
  induction m with
  | nil => cases h
  | cons e m ih =>
    obtain ⟨k', v'⟩ := e
    rw [List.map_cons, List.nodup_cons] at hnodup
    unfold get?
    rcases List.mem_cons.mp h with heq | hmem
    · cases heq
      rw [if_pos rfl]
    · have hne : k' ≠ k := by
        rintro rfl
        exact hnodup.1 (List.mem_map.mpr ⟨_, hmem, rfl⟩)
      rw [if_neg hne]
      exact ih hnodup.2 hmem

theorem notMem_of_get? {m : OrdMap κ ν} {k : κ} (h : m.get? k = none) : k ∉ m.map Prod.fst := by
  induction m with
  | nil => exact List.not_mem_nil
  | cons e m ih =>
    obtain ⟨k', v'⟩ := e
    unfold get? at h
    split_ifs at h with hk
    rw [List.map_cons, List.mem_cons, not_or]
    exact ⟨fun heq => hk heq.symm, ih h⟩

/-- A new key goes to the end. -/
theorem set_of_notMem {m : OrdMap κ ν} {k : κ} (h : k ∉ m.map Prod.fst) (v : ν) : m.set k v = m ++ [(k, v)] := by
  induction m with
  | nil => rfl
  | cons e m ih =>
    obtain ⟨k', v'⟩ := e
    rw [List.map_cons, List.mem_cons, not_or] at h
    unfold set
    rw [if_neg fun heq => h.1 heq.symm, ih h.2]
    rfl

theorem mem_of_mem_evict {m : OrdMap κ ν} {k : κ} {limit : ℕ} {e : κ × ν} (h : e ∈ m.evict k limit) : e ∈ m := by
  unfold evict at h
  split_ifs at h with hm
  · exact h
  · exact List.mem_of_mem_tail h

theorem mem_of_mem_erase {m : OrdMap κ ν} {k : κ} {e : κ × ν} (h : e ∈ m.erase k) : e ∈ m := (List.mem_filter.1 h).1

omit [DecidableEq κ] in
theorem mem_of_mem_trim {m : OrdMap κ ν} {limit : ℕ} {e : κ × ν} (h : e ∈ m.trim limit) : e ∈ m :=
  List.mem_of_mem_drop h

/-! ## Keys that tell apart -/

/-- Among elements that a key tells apart one has the key of a given one. -/
theorem filter_eq_singleton {α : Type} {key : α → String} {as : List α} (hnodup : (as.map key).Nodup) {a : α}
    (ha : a ∈ as) : as.filter (fun x => key x = key a) = [a] := by
  induction as with
  | nil => simp at ha
  | cons x as ih =>
    rw [List.map_cons, List.nodup_cons] at hnodup
    rcases List.mem_cons.1 ha with rfl | ha
    · have hrest : as.filter (fun x => key x = key a) = [] := by
        rw [List.filter_eq_nil_iff]
        intro y hy
        rw [decide_eq_true_iff]
        intro heq
        exact hnodup.1 (heq ▸ List.mem_map_of_mem hy)
      rw [List.filter_cons_of_pos (by simp), hrest]
    · have hne : key x ≠ key a := by
        intro heq
        exact hnodup.1 (heq ▸ List.mem_map_of_mem ha)
      rw [List.filter_cons_of_neg (by simpa using hne), ih hnodup.2 ha]

/-- And it is found. -/
theorem find?_of_nodup {α : Type} {key : α → String} {as : List α} (hnodup : (as.map key).Nodup) {a : α}
    (ha : a ∈ as) : as.find? (fun x => key x = key a) = some a := by
  rw [← List.head?_filter, filter_eq_singleton hnodup ha, List.head?_cons]

/-! ## Memos -/

/-- Every entry is a value of `f`. -/
def MemoOf (m : OrdMap κ ν) (f : κ → ν) : Prop := ∀ e ∈ m, e.2 = f e.1

/-- A memo says nothing, or what the function says. -/
theorem MemoOf.get? {m : OrdMap κ ν} {f : κ → ν} (h : m.MemoOf f) (k : κ) :
    m.get? k = none ∨ m.get? k = some (f k) := by
  cases hk : m.get? k with
  | none => exact Or.inl rfl
  | some v =>
    have hv : v = f k := h _ (mem_of_get? hk)
    exact Or.inr (congrArg some hv)

/-- A value that is remembered keeps a memo, whatever goes for it. -/
theorem MemoOf.remember {m : OrdMap κ ν} {f : κ → ν} (h : m.MemoOf f) (k : κ) (limit : ℕ) :
    ((m.evict k limit).set k (f k)).MemoOf f := by
  intro e he
  rcases mem_set he with rfl | he
  · rfl
  · exact h e (mem_of_mem_evict he)

end OrdMap
