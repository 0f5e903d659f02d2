import VayuWeb.Client.Exchange
import VayuWeb.Proof.Sample

/-!
# A view after interrupted writes

`put` is not atomic: interrupted, it leaves a part of the record in the file. That the file is there is all
that the next `put` and `holds` ask.

* `mem_left`: what every run of `put`, interrupted or not, leaves in the directory.
* `stored_iff`: when the view can be believed about a record.
-/

namespace VayuWeb.Client.View

open Bytes

/-- A call of `put`, or one that is interrupted after it has written so many bytes. -/
inductive Attempt where
  | whole (record : Bytes)
  | torn (record : Bytes) (count : ℕ)
  deriving DecidableEq, Repr

namespace Attempt

/-- The record that is put. -/
def record : Attempt → Bytes
  | whole record => record
  | torn record _ => record

/-- What is in the file that it writes. -/
def written : Attempt → Bytes
  | whole record => record
  | torn record count => record.take count

end Attempt

variable (C : Crypto)

/-- What an attempt makes of the directory: a file that is there already is left as it is. -/
def attempt (view : View) (step : Attempt) : View :=
  match step with
  | .whole record => view.put C record
  | .torn record count =>
    if view.holds C record then view
    else { files := view.files ++ [{ hash := recordHashFromBytes C record, bytes := record.take count }] }

/-- What a run of attempts leaves in an empty directory. -/
def left (steps : List Attempt) : View := steps.foldl (attempt C) View.empty

/-- The attempt that wrote the file of this name. -/
def firstAt (steps : List Attempt) (hash : Bytes) : Option Attempt :=
  steps.find? fun step => recordHashFromBytes C step.record = hash

variable {C} {view : View} {steps : List Attempt} {record : Bytes}

/-- What an attempt leaves on the disk. -/
theorem attempt_files (step : Attempt) : (view.attempt C step).files =
    if view.holds C step.record then view.files
    else view.files ++ [{ hash := recordHashFromBytes C step.record, bytes := step.written }] := by
  have hform : view.attempt C step = if view.holds C step.record then view
      else { files := view.files ++ [{ hash := recordHashFromBytes C step.record, bytes := step.written }] } := by
    cases step <;> rfl
  rw [hform]
  by_cases h : view.holds C step.record
  · rw [if_pos h, if_pos h]
  · rw [if_neg h, if_neg h]

/-- What a sequence of attempts leaves, once one more is made. -/
theorem left_concat (steps : List Attempt) (step : Attempt) :
    left C (steps ++ [step]) = (left C steps).attempt C step := by
  rw [left, left, List.foldl_append, List.foldl_cons, List.foldl_nil]

/-- The first attempt under a hash, once one more is made. -/
theorem firstAt_concat (steps : List Attempt) (step : Attempt) (hash : Bytes) : firstAt C (steps ++ [step]) hash =
    (firstAt C steps hash).or (if recordHashFromBytes C step.record = hash then some step else none) := by
  rw [firstAt, firstAt, List.find?_append]
  by_cases h : recordHashFromBytes C step.record = hash
  · simp [h]
  · simp [h]

/-- **The directory after a run**: a file of each name, as the first attempt at it left it. -/
theorem mem_left {e : Entry} : e ∈ (left C steps).files ↔
    ∃ step, firstAt C steps e.hash = some step ∧ e.bytes = step.written := by
  induction steps using List.reverseRecOn generalizing e with
  | nil => simp [left, View.empty, firstAt]
  | append_singleton steps step ih =>
    rw [left_concat, attempt_files, firstAt_concat]
    by_cases hholds : (left C steps).holds C step.record
    · -- the file of this name is there, and stays
      rw [if_pos hholds, ih]
      obtain ⟨f, hf, hhash⟩ := holds_iff.1 hholds
      obtain ⟨first, hfirst, -⟩ := ih.1 hf
      by_cases hname : recordHashFromBytes C step.record = e.hash
      · rw [← hname, ← hhash, hfirst, Option.some_or]
      · rw [if_neg hname, Option.or_none]
    · rw [if_neg hholds, List.mem_append, List.mem_singleton, ih]
      by_cases hname : recordHashFromBytes C step.record = e.hash
      · have hnone : firstAt C steps e.hash = none := by
          rw [← Option.not_isSome_iff_eq_none, Option.isSome_iff_exists]
          rintro ⟨first, hfirst⟩
          have hfile : { hash := e.hash, bytes := first.written } ∈ (left C steps).files := ih.2 ⟨first, hfirst, rfl⟩
          exact hholds (holds_iff.2 ⟨_, hfile, hname.symm⟩)
        rw [hnone, if_pos hname, Option.none_or]
        constructor
        · rintro (⟨first, hfirst, -⟩ | heq)
          · cases hfirst
          · exact ⟨step, rfl, by rw [heq]⟩
        · rintro ⟨first, hfirst, hbytes⟩
          rw [Option.some.injEq] at hfirst
          right
          rw [hname, hfirst, ← hbytes]
      · rw [if_neg hname, Option.or_none]
        constructor
        · rintro (hold | heq)
          · exact hold
          · exact absurd (by rw [heq]) hname
        · exact Or.inl

/-- A record is held exactly where it was attempted. -/
theorem holds_left : (left C steps).holds C record = true ↔
    ∃ step, firstAt C steps (recordHashFromBytes C record) = some step := by
  rw [holds_iff]
  constructor
  · rintro ⟨e, he, hhash⟩
    obtain ⟨step, hstep, -⟩ := mem_left.1 he
    exact ⟨step, hhash ▸ hstep⟩
  · rintro ⟨step, hstep⟩
    exact ⟨{ hash := recordHashFromBytes C record, bytes := step.written }, mem_left.2 ⟨step, hstep, rfl⟩, rfl⟩

/-- An entry is a file that can be peeked at. -/
theorem mem_entries_iff {e : Entry} : e ∈ view.entries ↔ e ∈ view.files ∧ ∃ peeked, peek e.bytes = .ok peeked := by
  rw [entries, List.mem_insertionSort, List.mem_filter]
  simp only [Option.isSome_iff_exists, Except.toOption_eq_some]

/-! ## What the view says -/

/-- The entry that a record is read back as. -/
def entryOf (C : Crypto) (record : Bytes) : Entry := { hash := recordHashFromBytes C record, bytes := record }

/-- What the view says it stored is readable, and so is what it says it holds. -/
structure Believable (C : Crypto) (view : View) (record : Bytes) : Prop where
  put : (∃ peeked, peek record = .ok peeked) →
    entryOf C record ∈ (view.put C record).entries ∧ (view.put C record).holds C record = true
  holds : view.holds C record = true → entryOf C record ∈ view.entries

/-- The record that an attempt at this name left whole is read back. -/
theorem entryOf_mem_left : entryOf C record ∈ (left C steps).entries ↔
    (∃ step, firstAt C steps (recordHashFromBytes C record) = some step ∧ record = step.written) ∧
      ∃ peeked, peek record = .ok peeked := by
  rw [mem_entries_iff, mem_left]
  exact Iff.rfl

/-- A `put` is one more attempt. -/
theorem put_left (steps : List Attempt) (record : Bytes) :
    (left C steps).put C record = left C (steps ++ [.whole record]) := by
  rw [left_concat]
  rfl

/-- A record that is believed was written whole. -/
theorem whole_of_believable (h : Believable C (left C steps) record) {step : Attempt}
    (hstep : firstAt C steps (recordHashFromBytes C record) = some step) :
    step.written = record ∧ ∃ peeked, peek record = .ok peeked := by
  obtain ⟨⟨step', hstep', hwritten⟩, hpeek⟩ := entryOf_mem_left.1 (h.holds (holds_left.2 ⟨step, hstep⟩))
  rw [hstep, Option.some.injEq] at hstep'
  rw [hstep']
  exact ⟨hwritten.symm, hpeek⟩

/-- **The view is to be believed about a record** exactly when the first attempt at its file, if there was
any, left this very record, and one that can be read. -/
theorem stored_iff (C : Crypto) (steps : List Attempt) (record : Bytes) : Believable C (left C steps) record ↔
    ∀ step, firstAt C steps (recordHashFromBytes C record) = some step →
      step.written = record ∧ ∃ peeked, peek record = .ok peeked := by
  constructor
  · intro h step hstep
    exact whole_of_believable h hstep
  · intro h
    constructor
    case put =>
      intro hpeek
      rw [put_left, entryOf_mem_left, holds_left, firstAt_concat, if_pos (by rfl)]
      cases hfirst : firstAt C steps (recordHashFromBytes C record) with
      | none =>
        rw [Option.none_or]
        exact ⟨⟨⟨_, rfl, rfl⟩, hpeek⟩, _, rfl⟩
      | some step =>
        rw [Option.some_or]
        exact ⟨⟨⟨step, rfl, (h step hfirst).1.symm⟩, hpeek⟩, _, rfl⟩
    case holds =>
      intro hholds
      obtain ⟨step, hstep⟩ := holds_left.1 hholds
      obtain ⟨hwritten, hpeek⟩ := h step hstep
      exact entryOf_mem_left.2 ⟨⟨step, hstep, hwritten.symm⟩, hpeek⟩

/-- A `put` that was interrupted is never made good: the next one finds the file and leaves it. -/
theorem torn_stays : ¬ ∀ (C : Crypto) (steps : List Attempt) (record : Bytes), Believable C (left C steps) record := by
  intro h
  have hfirst : firstAt Sample.crypto [.torn Sample.first.bytes 100]
      (recordHashFromBytes Sample.crypto Sample.first.bytes) =
      some (.torn Sample.first.bytes 100) := by
    unfold firstAt
    rw [List.find?_cons_of_pos]
    exact decide_eq_true rfl
  obtain ⟨hwritten, -⟩ := whole_of_believable (h Sample.crypto _ Sample.first.bytes) hfirst
  have hlength := congrArg List.length hwritten
  have htorn : (Attempt.torn Sample.first.bytes 100).written.length ≤ 100 := by
    rw [Attempt.written, List.length_take]
    exact Nat.min_le_left _ _
  have hwhole : 100 < Sample.first.bytes.length := by decide +kernel
  omega

end VayuWeb.Client.View
