import VayuWeb.Proof.Store

/-!
# The log behind the index

`Indexed` relates a store's index to its log: the current record of a name is the last one the
log holds for it, and its root is the last registration.

* `Run.indexed`: it holds along every run.
* `Run.entries_eq`: the log is what the steps of the run entered.
* `Run.succeeds`: every other record follows the entry of its name before it.
* `Run.seq_lt`: within one registration `seq` rises.
-/

namespace VayuWeb

variable {C : Crypto} {s : Store} {b : Bytes} {r : RegistryRecord} {key : String}

/-- The log entries of a name. -/
def Store.history (s : Store) (key : String) : List LogEntry :=
  s.entries.filter fun e => keyOf e.record = key

/-- The registrations of a name. -/
def Store.registrations (s : Store) (key : String) : List LogEntry :=
  s.entries.filter fun e => keyOf e.record = key ∧ e.record.op = .register

/-! ## Entering a record -/

/-- The history of a name once a record is appended. -/
theorem history_extend : (s.extend C b r).history key =
    s.history key ++ if keyOf r = key then [s.nextLogEntry C b r] else [] := by
  simp only [Store.history, extend_entries, List.filter_append]
  by_cases h : keyOf r = key <;> simp [Store.nextLogEntry, h]

/-- The registrations of a name once a record is appended. -/
theorem registrations_extend : (s.extend C b r).registrations key =
    s.registrations key ++
      if keyOf r = key ∧ r.op = .register then [s.nextLogEntry C b r] else [] := by
  simp only [Store.registrations, extend_entries, List.filter_append]
  by_cases h : keyOf r = key ∧ r.op = .register
  · simp [Store.nextLogEntry, h]
  · rw [if_neg h, List.filter_cons_of_neg (by rw [decide_eq_true_eq]; exact h), List.filter_nil]

/-- Only a name that is held takes a successor. -/
theorem Step.OK.held_of_successor {st : Step} (h : st.OK C) (hop : st.record.op ≠ .register) :
    ∃ held, st.before.names.get? (keyOf st.record) = some held := by
  obtain ⟨ignore, input, -, ⟨hr, -⟩ | ⟨-, p, hp, -⟩⟩ := h.judged
  · exact absurd hr hop
  · change (st.before.names.get? (keyOf st.record)).map (·.current) = some p at hp
    cases hn : st.before.names.get? (keyOf st.record) with
    | none => rw [hn] at hp; simp at hp
    | some held => exact ⟨held, rfl⟩

/-- A registration that enters the log starts a chain. -/
theorem Step.OK.seq_of_register {st : Step} (h : st.OK C) (hop : st.record.op = .register) :
    st.record.seq = 0 := by
  obtain ⟨ignore, input, -, ⟨-, hr⟩ | ⟨hn, -⟩⟩ := h.judged
  · exact hr.seq
  · exact absurd hop hn

/-! ## The index -/

/-- The index is what the log says. -/
structure Indexed (C : Crypto) (s : Store) : Prop where
  seen : s.seen = s.entries.map (·.hash)
  nodup : (s.entries.map (·.hash)).Nodup
  entry : ∀ e ∈ s.entries, admitBytes e.bytes = .ok e.record ∧ e.hash = recordHashFromBytes C e.bytes
  current : ∀ key, (s.names.get? key).map (fun h => (h.current.record, h.current.hash)) =
    (s.history key).getLast?.map fun e => (e.record, e.hash)
  root : ∀ key, (s.names.get? key).map (·.rootHash) = (s.registrations key).getLast?.map (·.hash)
  seq : ∀ e ∈ s.entries, e.record.op = .register → e.record.seq = 0

/-- An empty store is indexed. -/
theorem indexed_empty : Indexed C .empty := by
  constructor <;> simp [Store.empty, Store.history, Store.registrations]

/-- A step keeps the store indexed. -/
theorem Indexed.extend {st : Step} (hs : Indexed C st.before) (h : st.OK C) : Indexed C (st.after C) := by
  unfold Step.after
  have hnew : recordHashFromBytes C st.bytes ∉ st.before.entries.map (·.hash) := by
    have hf := h.fresh
    unfold Store.has at hf
    rw [← hs.seen]
    simpa using hf
  constructor
  case seen => simp [hs.seen, Store.nextLogEntry]
  case nodup =>
    rw [extend_entries, List.map_append, List.nodup_append]
    refine ⟨hs.nodup, by simp, ?_⟩
    rintro x hx y hy rfl
    simp only [List.map_cons, List.map_nil, List.mem_singleton, Store.nextLogEntry] at hy
    exact hnew (hy ▸ hx)
  case entry =>
    intro e he
    rw [extend_entries, List.mem_append, List.mem_singleton] at he
    rcases he with he | rfl
    · exact hs.entry e he
    · exact ⟨h.admitted, rfl⟩
  case current =>
    intro key
    rw [extend_names, OrdMap.get?_set, history_extend]
    by_cases hk : keyOf st.record = key
    · rw [if_pos hk.symm, if_pos hk, List.getLast?_concat]; rfl
    · rw [if_neg (Ne.symm hk), if_neg hk, List.append_nil, hs.current]
  -- the root moves with a REGISTER only
  case root =>
    intro key
    rw [extend_names, OrdMap.get?_set, registrations_extend]
    by_cases hk : keyOf st.record = key
    · subst hk
      rw [if_pos rfl]
      by_cases hop : st.record.op = .register
      · rw [if_pos ⟨rfl, hop⟩, List.getLast?_concat]
        simp [Store.nextNameEntry, Store.nextLogEntry, hop]
      · obtain ⟨held, hheld⟩ := h.held_of_successor hop
        rw [if_neg (by simp [hop]), List.append_nil, ← hs.root, hheld]
        simp [Store.nextNameEntry, hop, hheld]
    · rw [if_neg (Ne.symm hk), if_neg (by simp [hk]), List.append_nil, hs.root]
  case seq =>
    intro e he hop
    rw [extend_entries, List.mem_append, List.mem_singleton] at he
    rcases he with he | rfl
    · exact hs.seq e he hop
    · exact h.seq_of_register hop

/-- **The index is what the log says, along every run.** -/
theorem Run.indexed {steps : List Step} (h : Run C steps s) : Indexed C s :=
  h.store_induction indexed_empty fun _ hok h => hok.extend h

/-- The log is what the steps entered, in their order. -/
theorem Run.entries_eq {steps : List Step} (h : Run C steps s) :
    s.entries.map (fun e => (e.bytes, e.record)) = steps.map fun st => (st.bytes, st.record) :=
  Run.induction (P := fun steps s => s.entries.map (fun e => (e.bytes, e.record)) =
      steps.map fun st => (st.bytes, st.record)) rfl
    (fun steps st _ ih _ => by simp [Step.after, ih, Store.nextLogEntry]) h

/-! ## Chains -/

/-- The last element a filter keeps, and where it stands. -/
theorem getLast?_filter_position {α : Type} {p : α → Bool} {l : List α} {a : α}
    (h : (l.filter p).getLast? = some a) :
    ∃ m : ℕ, l[m]? = some a ∧ p a = true ∧ ∀ (k : ℕ) (x : α), m < k → l[k]? = some x → p x = false := by
  induction l using List.reverseRecOn with
  | nil => simp at h
  | append_singleton l y ih =>
    rw [List.filter_append] at h
    cases hy : p y with
    | true =>
      simp only [List.filter_cons, hy, if_true, List.filter_nil, List.getLast?_concat,
        Option.some.injEq] at h
      subst h
      refine ⟨l.length, List.getElem?_concat_length, hy, fun k x hk hx => ?_⟩
      rw [List.getElem?_eq_none (by simp; omega)] at hx
      simp at hx
    | false =>
      simp only [List.filter_cons, hy, Bool.false_eq_true, if_false, List.filter_nil,
        List.append_nil] at h
      obtain ⟨m, hm, ha, hafter⟩ := ih h
      have hlt := (List.getElem?_eq_some_iff.1 hm).1
      refine ⟨m, by rw [List.getElem?_append_left hlt, hm], ha, fun k x hk hx => ?_⟩
      rcases lt_trichotomy k l.length with hkl | rfl | hkl
      · rw [List.getElem?_append_left hkl] at hx; exact hafter k x hk hx
      · rw [List.getElem?_concat_length, Option.some.injEq] at hx; rw [← hx]; exact hy
      · rw [List.getElem?_eq_none (by simp; omega)] at hx; simp at hx

/-- `p` is the last entry of its name before `e`, and `e` succeeds it. -/
structure Succeeds (s : Store) (m : ℕ) (p : LogEntry) (j : ℕ) (e : LogEntry) : Prop where
  lt : m < j
  stands : s.entries[m]? = some p
  key : keyOf p.record = keyOf e.record
  seq : e.record.seq = p.record.seq + 1
  prevHash : e.record.prevHash = p.hash
  between : ∀ k x, m < k → k < j → s.entries[k]? = some x → keyOf x.record ≠ keyOf e.record

theorem getElem?_extend {j : ℕ} (h : j < s.entries.length) :
    (s.extend C b r).entries[j]? = s.entries[j]? := by
  rw [extend_entries, List.getElem?_append_left h]

/-- The entries of a log once a record is appended. -/
theorem getElem?_extend_eq_some {j : ℕ} {e : LogEntry} :
    (s.extend C b r).entries[j]? = some e ↔
      s.entries[j]? = some e ∨ (j = s.entries.length ∧ e = s.nextLogEntry C b r) := by
  rw [extend_entries]
  rcases lt_trichotomy j s.entries.length with h | rfl | h
  · rw [List.getElem?_append_left h]; simp; omega
  · rw [List.getElem?_concat_length, List.getElem?_eq_none le_rfl]; simp [eq_comm]
  · rw [List.getElem?_eq_none (by simp; omega), List.getElem?_eq_none (by omega)]; simp; omega

/-- Who succeeds whom stays when a record is appended. -/
theorem Succeeds.extend {m j : ℕ} {p e : LogEntry} (h : Succeeds s m p j e)
    (hj : j < s.entries.length) : Succeeds (s.extend C b r) m p j e :=
  { h with
    stands := by rw [getElem?_extend (by have := h.lt; omega)]; exact h.stands
    between := fun k x hm hk hx => h.between k x hm hk (by rwa [getElem?_extend (by omega)] at hx) }

/-- The record a step enters as a successor follows the last entry of its name. -/
theorem Step.OK.succeeds {st : Step} (h : st.OK C) (hs : Indexed C st.before)
    (hop : st.record.op ≠ .register) : ∃ m p, Succeeds (st.after C) m p st.before.entries.length
      (st.before.nextLogEntry C st.bytes st.record) := by
  obtain ⟨held, hheld⟩ := h.held_of_successor hop
  obtain ⟨ignore, input, -, ⟨hr, -⟩ | ⟨-, p, hp, hok⟩⟩ := h.judged
  · exact absurd hr hop
  change (st.before.names.get? (keyOf st.record)).map (·.current) = some p at hp
  have hcur := hs.current (keyOf st.record)
  rw [hheld, Option.map_some] at hcur hp
  rw [Option.some.injEq] at hp; subst hp
  obtain ⟨last, hlast, heq⟩ := Option.map_eq_some_iff.1 hcur.symm
  rw [Prod.mk.injEq] at heq
  obtain ⟨m, hm, hkey, hafter⟩ := getLast?_filter_position hlast
  have hlt := (List.getElem?_eq_some_iff.1 hm).1
  refine ⟨m, last, hlt, (getElem?_extend hlt).trans hm, of_decide_eq_true hkey, ?_, ?_, ?_⟩
  · rw [heq.1]; exact hok.seq
  · rw [heq.2]; exact hok.prevHash
  · intro k x hmk hk hx
    rw [Step.after, getElem?_extend hk] at hx
    exact of_decide_eq_false (hafter k x hmk hx)

/-- **Every record but a registration follows the entry of its name before it**, along every
run. -/
theorem Run.succeeds {steps : List Step} (h : Run C steps s) {j : ℕ} {e : LogEntry}
    (he : s.entries[j]? = some e) (hop : e.record.op ≠ .register) : ∃ m p, Succeeds s m p j e := by
  refine Run.induction (P := fun _ s => ∀ j e, s.entries[j]? = some e → e.record.op ≠ .register →
    ∃ m p, Succeeds s m p j e) (fun j e he => by simp [Store.empty] at he) ?_ h j e he hop
  intro steps st hs ih hok j e he hop
  rcases getElem?_extend_eq_some.1 he with he | ⟨rfl, rfl⟩
  · obtain ⟨m, p, hsucc⟩ := ih j e he hop
    exact ⟨m, p, hsucc.extend (List.getElem?_eq_some_iff.1 he).1⟩
  · exact hok.succeeds hs.indexed hop

/-- **Within one registration `seq` rises**: of two entries of a name with no registration of it
after the first, the second has the larger `seq`. -/
theorem Run.seq_lt {steps : List Step} (h : Run C steps s) {i : ℕ} {a : LogEntry}
    (ha : s.entries[i]? = some a) : ∀ (j : ℕ) (e : LogEntry), i < j → s.entries[j]? = some e →
      keyOf e.record = keyOf a.record →
      (∀ k x, i < k → k ≤ j → s.entries[k]? = some x → keyOf x.record = keyOf a.record →
        x.record.op ≠ .register) →
      a.record.seq < e.record.seq := by
  intro j
  induction j using Nat.strong_induction_on with
  | _ j ih =>
    intro e hij he hkey hno
    obtain ⟨m, p, hsucc⟩ := h.succeeds he (hno j e hij le_rfl he hkey)
    have hpkey : keyOf p.record = keyOf a.record := hsucc.key.trans hkey
    have hseq := hsucc.seq
    rcases lt_trichotomy i m with him | rfl | him
    · have := ih m hsucc.lt p him hsucc.stands hpkey fun k x hk hkm =>
        hno k x hk (by have := hsucc.lt; omega)
      omega
    · rw [hsucc.stands, Option.some.injEq] at ha; subst ha; omega
    · exact absurd hkey.symm (hsucc.between i a him hij ha)

end VayuWeb
