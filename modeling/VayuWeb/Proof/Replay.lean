import VayuWeb.Proof.Log
import VayuWeb.Proof.Sample

/-!
# Replay

What `open` makes of the file a run wrote.

* `unframe_framed`: framing and its inverse.
* `Step.OK.judged_again`: a step's record is accepted again, at its own `notBefore`, when the
  name is then free for it or its predecessor then takes it.
* `Run.replay`: replay of a run, step by step.
* `reopens_iff`: the log reopens as the store that wrote it exactly when that holds of every step.
-/

namespace VayuWeb

open Bytes

variable {C : Crypto} {s : Store} {b : Bytes} {r : RegistryRecord}

/-! ## Framing -/

/-- Frames come back from the file they were written to. -/
theorem unframeLoop_framed (xs : List Bytes) (h : ∀ x ∈ xs, x ≠ [] ∧ x.length ≤ maxEntryBytes) :
    ∀ fuel at_, (xs.flatMap framed).length ≤ fuel → unframeLoop fuel at_ (xs.flatMap framed) = .ok xs := by
  induction xs with
  | nil => intro fuel at_ _; simp [unframeLoop]
  | cons x xs ih =>
    intro fuel at_ hfuel
    obtain ⟨hne, hle⟩ := h x List.mem_cons_self
    have hpos : 0 < x.length := List.length_pos_iff.2 hne
    have hprefix : (beBytes lengthPrefixBytes x.length).length = lengthPrefixBytes := length_beBytes _ _
    rw [List.flatMap_cons] at hfuel ⊢
    have hlen : (framed x ++ xs.flatMap framed).length =
        lengthPrefixBytes + x.length + (xs.flatMap framed).length := by
      simp [framed]; omega
    cases fuel with
    | zero => unfold lengthPrefixBytes at hlen; omega
    | succ fuel =>
      have hsplit : splitAt? lengthPrefixBytes (framed x ++ xs.flatMap framed) =
          some (beBytes lengthPrefixBytes x.length, x ++ xs.flatMap framed) := by
        unfold framed
        rw [List.append_assoc]
        exact splitAt?_eq_some.2 ⟨rfl, hprefix⟩
      have hvalue : beNat (beBytes lengthPrefixBytes x.length) = x.length :=
        beNat_beBytes (lt_of_le_of_lt hle (by decide))
      -- the file is not at its end, so one entry more is read
      obtain ⟨y, ys, hcons⟩ : ∃ y ys, framed x ++ xs.flatMap framed = y :: ys :=
        List.exists_cons_of_length_pos (by omega)
      rw [hcons] at hsplit ⊢
      simp only [unframeLoop, hsplit, hvalue]
      rw [if_neg (by omega), if_neg (by omega), splitAt?_append]
      simp only
      rw [ih (fun y hy => h y (List.mem_cons_of_mem _ hy)) _ _ (by unfold lengthPrefixBytes at hlen; omega)]
      rfl

/-- A file of framed entries splits into them. -/
theorem unframe_framed {xs : List Bytes} (h : ∀ x ∈ xs, x ≠ [] ∧ x.length ≤ maxEntryBytes) :
    unframe (xs.flatMap framed) = .ok xs :=
  unframeLoop_framed xs h _ 0 le_rfl

theorem admit_ne_nil (h : admitBytes b = .ok r) : b ≠ [] := by
  rintro rfl
  have : (admitBytes []).isOk = false := by decide +kernel
  rw [h] at this
  simp [Except.isOk, Except.toBool] at this

/-- The file holds the framed entries of the log. -/
theorem Run.file_eq {steps : List Step} (h : Run C steps s) :
    s.file = (steps.map (·.bytes)).flatMap framed :=
  Run.induction (P := fun steps s => s.file = (steps.map (·.bytes)).flatMap framed) rfl
    (fun steps st _ ih _ => by simp [Step.after, ih]) h

/-! ## A record at its own time -/

/-- At the record's own `notBefore` the name is free for it, or its predecessor takes it. -/
def Step.HoldsAtOwnTime (st : Step) : Prop :=
  ∀ held, st.before.names.get? (keyOf st.record) = some held →
    if st.record.op = .register then
      isFullyReleased held.current.record st.record.notBefore = true
    else acceptsSuccessor held.current.record st.record.notBefore st.record.op = true

section OwnTime

variable {input : Bytes} {previous : Option Predecessor} {p : Predecessor} {state : RegistryView}
  {now : ℕ} {ignore : Bool}

/-- A REGISTER is accepted again at its own time where the name is not held then. -/
theorem RegisterOK.again (h : RegisterOK C r input previous state now ignore) :
    RegisterOK C r input previous state r.notBefore false ↔ isHeld previous state r.notBefore = false := by
  constructor
  · intro h'
    by_contra hheld
    simpa using h'.free (by simpa using hheld)
  · intro hfree
    exact { h with free := by simp [hfree], skew := by omega, backdate := by omega }

/-- A successor is accepted again at its own time where its predecessor takes it then. -/
theorem SuccessorOK.again (h : SuccessorOK C r input p state now) :
    SuccessorOK C r input p state r.notBefore ↔ acceptsSuccessor p.record r.notBefore r.op = true :=
  ⟨fun h' => h'.live, fun hlive => { h with live := hlive, skew := by omega, backdate := by omega }⟩

end OwnTime

/-- A step is judged again as it holds at its own time. -/
theorem Step.OK.judged_again {st : Step} (h : st.OK C) :
    JudgedOK C st.record (st.before.view C) st.record.notBefore false ↔ st.HoldsAtOwnTime := by
  have hcurrent : (st.before.view C).current st.record.name st.record.tld =
      (st.before.names.get? (keyOf st.record)).map (·.current) := rfl
  obtain ⟨ignore, input, hinput, ⟨hop, hr⟩ | ⟨hop, p, hp, hr⟩⟩ := h.judged
  -- a REGISTER is judged once more by whether the name was free at its own time
  · have hiff : JudgedOK C st.record (st.before.view C) st.record.notBefore false ↔
        RegisterOK C st.record input ((st.before.view C).current st.record.name st.record.tld)
          (st.before.view C) st.record.notBefore false := by
      constructor
      · rintro ⟨input', hinput', ⟨-, hr'⟩ | ⟨hne, -⟩⟩
        · rw [hinput, Except.ok.injEq] at hinput'; subst hinput'; exact hr'
        · exact absurd hop hne
      · intro hr'; exact ⟨input, hinput, Or.inl ⟨hop, hr'⟩⟩
    rw [hiff, hr.again, hcurrent]
    unfold Step.HoldsAtOwnTime
    cases hn : st.before.names.get? (keyOf st.record) with
    | none => simp [isHeld]
    | some held => simp [isHeld, hop, Store.view, Store.fullyReleased]
  -- a successor is judged once more by whether the name accepted it at its own time
  · have hiff : JudgedOK C st.record (st.before.view C) st.record.notBefore false ↔
        SuccessorOK C st.record input p (st.before.view C) st.record.notBefore := by
      constructor
      · rintro ⟨input', hinput', ⟨heq, -⟩ | ⟨-, p', hp', hr'⟩⟩
        · exact absurd heq hop
        · rw [hinput, Except.ok.injEq] at hinput'; subst hinput'
          rw [hp, Option.some.injEq] at hp'; subst hp'; exact hr'
      · intro hr'; exact ⟨input, hinput, Or.inr ⟨hop, p, hp, hr'⟩⟩
    rw [hiff, hr.again]
    rw [hcurrent] at hp
    unfold Step.HoldsAtOwnTime
    cases hn : st.before.names.get? (keyOf st.record) with
    | none => rw [hn] at hp; simp at hp
    | some held =>
      rw [hn, Option.map_some, Option.some.injEq] at hp
      simp [hop, ← hp]

/-! ## Replay -/

/-- A store over another file. -/
def Store.withFile (s : Store) (file : Bytes) : Store := { s with file := file }

/-- A replay goes on from where another ended. -/
theorem replay_append (s : Store) (position : ℕ) (xs ys : List Bytes) :
    s.replay C position (xs ++ ys) =
      (s.replay C position xs >>= fun s' => s'.replay C (position + xs.length) ys) := by
  induction xs generalizing s position with
  | nil => simp [Store.replay]
  | cons x xs ih =>
    simp only [List.cons_append, Store.replay, List.length_cons]
    cases s.replayStep C position x with
    | error e => rfl
    | ok s' =>
      simp only [Except.ok_bind, ih]
      rw [show position + 1 + xs.length = position + (xs.length + 1) by omega]

/-- One entry replays exactly when it holds at its own time. -/
theorem Step.OK.replayStep {st : Step} (h : st.OK C) (file : Bytes) (position : ℕ) :
    (st.HoldsAtOwnTime →
      (st.before.withFile file).replayStep C position st.bytes = .ok ((st.after C).withFile file)) ∧
    (¬ st.HoldsAtOwnTime →
      ∃ e, (st.before.withFile file).replayStep C position st.bytes = .error e) := by
  have hverify : (st.before.withFile file).verifyAt C st.bytes st.record.notBefore =
      verify C st.bytes (st.before.view C) st.record.notBefore false := rfl
  have hparse : Store.parseOrThrow st.bytes = .ok st.record := by
    unfold Store.parseOrThrow
    rw [parseRecordBytes_eq_ok.2 h.admitted]
  rw [← h.judged_again]
  unfold Store.replayStep
  rw [hparse]
  simp only [Except.ok_bind, hverify]
  constructor
  · intro hj
    rw [verify_accept.2 ⟨h.admitted, hj, rfl, rfl⟩]
    simp only [Except.ok_bind, apply_eq]
    rfl
  -- an error of the verifier stops the replay too
  · intro hj
    cases hv : verify C st.bytes (st.before.view C) st.record.notBefore false with
    | error e => exact ⟨e, rfl⟩
    | ok verdict =>
      simp only [Except.ok_bind]
      split
      · obtain ⟨hr', hj', -, -⟩ := verify_accept.1 hv
        rw [h.admitted, Except.ok.injEq] at hr'
        exact absurd (hr' ▸ hj') hj
      · exact ⟨_, rfl⟩

/-- **Replay of a run**: it rebuilds the store while every step holds at its own time, and throws
at the first that does not. -/
theorem Run.replay {steps : List Step} (h : Run C steps s) (file : Bytes) :
    ((∀ st ∈ steps, st.HoldsAtOwnTime) →
      (Store.empty.withFile file).replay C 0 (steps.map (·.bytes)) = .ok (s.withFile file)) ∧
    (¬ (∀ st ∈ steps, st.HoldsAtOwnTime) →
      ∃ e, (Store.empty.withFile file).replay C 0 (steps.map (·.bytes)) = .error e) := by
  refine Run.induction (P := fun steps s => ((∀ st ∈ steps, st.HoldsAtOwnTime) →
      (Store.empty.withFile file).replay C 0 (steps.map (·.bytes)) = .ok (s.withFile file)) ∧
    (¬ (∀ st ∈ steps, st.HoldsAtOwnTime) →
      ∃ e, (Store.empty.withFile file).replay C 0 (steps.map (·.bytes)) = .error e))
    ⟨fun _ => rfl, fun h => absurd (by simp) h⟩ ?_ h
  intro steps st _ ih hok
  obtain ⟨hstep, hthrow⟩ := hok.replayStep file (0 + (steps.map (·.bytes)).length)
  simp only [List.forall_mem_append, List.forall_mem_singleton, List.map_append, List.map_cons,
    List.map_nil, replay_append]
  constructor
  · rintro ⟨hall, hlast⟩
    rw [ih.1 hall, Except.ok_bind, Store.replay, hstep hlast]
    rfl
  · intro hnot
    by_cases hall : ∀ st ∈ steps, st.HoldsAtOwnTime
    · obtain ⟨e, he⟩ := hthrow fun hlast => hnot ⟨hall, hlast⟩
      exact ⟨e, by rw [ih.1 hall, Except.ok_bind, Store.replay, he]; rfl⟩
    · obtain ⟨e, he⟩ := ih.2 hall
      exact ⟨e, by rw [he]; rfl⟩

/-- The log of a store opens, as the entries and the index the store had. -/
def Reopens (C : Crypto) (s : Store) : Prop :=
  ∃ s', Store.open_ C (some s.file) = .ok s' ∧ s'.entries = s.entries ∧
    ∀ name tld, s'.names.get? (nameKey name tld) = s.names.get? (nameKey name tld)

/-- Opening the file of a run replays its steps. -/
theorem Run.open_eq {steps : List Step} (h : Run C steps s) : Store.open_ C (some s.file) =
    (Store.empty.withFile s.file).replay C 0 (steps.map (·.bytes)) := by
  have hframes : ∀ x ∈ steps.map (·.bytes), x ≠ [] ∧ x.length ≤ maxEntryBytes := by
    intro x hx
    obtain ⟨st, hst, rfl⟩ := List.mem_map.1 hx
    have hadm := (h.steps_ok st hst).admitted
    exact ⟨admit_ne_nil hadm, admit_length hadm⟩
  have hunframe := unframe_framed hframes
  rw [← h.file_eq] at hunframe
  simp only [Store.open_, hunframe, Except.ok_bind]
  rfl

/-- **Replay reproduces the live store exactly when every record that was entered holds at its
own `notBefore`**: for a registration the name is then free, for a successor its predecessor then
takes it. -/
theorem reopens_iff {steps : List Step} (h : Run C steps s) :
    Reopens C s ↔ ∀ st ∈ steps, st.HoldsAtOwnTime := by
  obtain ⟨hok, hthrow⟩ := h.replay s.file
  unfold Reopens
  rw [h.open_eq]
  constructor
  · rintro ⟨s', hs', -⟩
    by_contra hnot
    obtain ⟨e, he⟩ := hthrow hnot
    rw [hs'] at he
    exact absurd he (by simp)
  · intro hall
    exact ⟨_, hok hall, rfl, fun _ _ => rfl⟩

/-- The store holding one registration reopens. -/
theorem reopens_first : Reopens Sample.crypto (Sample.enter .empty Sample.first) ↔
    ∀ st ∈ ([] ++ stepsOf .empty Sample.first.bytes 1700000000 (.accept Sample.first.record none false)),
      st.HoldsAtOwnTime :=
  reopens_iff (.append .empty Sample.append_first)

/-- The file of a run in which `rival` displaced `first` does not open. -/
theorem race_does_not_reopen : ¬ ∀ (C : Crypto) (calls : List (Bytes × ℕ)),
    (calls.map Prod.snd).Pairwise (· ≤ ·) → Reopens C (appendAll C [] .empty calls).2 := by
  intro h
  obtain ⟨s', hs', -⟩ := h Sample.crypto
    [(Sample.first.bytes, 1700000000), (Sample.rival.bytes, 1700000000)] (by simp)
  simp only [appendAll, Sample.append_first, Sample.append_rival] at hs'
  have hrun := Run.append (.append .empty Sample.append_first) Sample.append_rival
  rw [hrun.open_eq] at hs'
  -- `first` still holds the name at the time `rival` gives
  have hnot : ¬ ∀ st ∈ [] ++ stepsOf .empty Sample.first.bytes 1700000000
      (.accept Sample.first.record none false) ++ stepsOf (Sample.enter .empty Sample.first)
        Sample.rival.bytes 1700000000 (.accept Sample.rival.record (some [Sample.first.bytes]) false),
      st.HoldsAtOwnTime := by
    intro hall
    have hrival := hall ⟨Sample.enter .empty Sample.first, Sample.rival.bytes, 1700000000,
      Sample.rival.record, .merge⟩ (by simp [stepsOf])
    have hreleased := hrival _ (by
      rw [Sample.enter, extend_names, show keyOf Sample.rival.record = keyOf Sample.first.record from rfl,
        OrdMap.get?_set_self])
    exact absurd hreleased (by decide)
  obtain ⟨e, he⟩ := (hrun.replay _).2 hnot
  rw [he] at hs'
  simp at hs'

end VayuWeb
