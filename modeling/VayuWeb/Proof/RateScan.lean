import VayuWeb.Proof.Rates
import VayuWeb.Proof.Sample

/-!
# The rate index and the scan

`registrationsInWindow` answers from sorted arrays with two searches, and
`registrationsInWindowNaive` reads the whole log.

* `Reached.ratesIndexed`: the index is what the log says in every store that can be reached, by
  opening a log file and by appending.
* `rate_index_eq_scan`: both counts are one, for every TLD at every instant.
-/

namespace VayuWeb

variable {C : Crypto} {s : Store} {b : Bytes} {r : RegistryRecord} {tld : String}

/-! ## Stores that can be reached -/

/-- A store opened on any log file, or none, and appended to in any way. -/
inductive Store.Reached (C : Crypto) : Store → Prop
  | opened {file : Option Bytes} {s : Store} : Store.open_ C file = .ok s → Reached C s
  | appended {s s' : Store} {b : Bytes} {now : ℕ} {v : Verdict} :
      Reached C s → s.append C b now = .ok (v, s') → Reached C s'

/-- An entry of a replayed log is entered like one that is appended. -/
theorem ratesIndexed_replayStep {s' : Store} {position : ℕ} (h : RatesIndexed s)
    (hstep : s.replayStep C position b = .ok s') : RatesIndexed s' := by
  unfold Store.replayStep at hstep
  obtain ⟨record, -, hstep⟩ := Except.bind_eq_ok.1 hstep
  obtain ⟨verdict, -, hstep⟩ := Except.bind_eq_ok.1 hstep
  cases verdict with
  | accept r voided duplicate =>
    simp only [apply_eq, Except.ok.injEq] at hstep
    have hextend : RatesIndexed (s.extend C b record) := h.extend
    rw [← hstep]
    exact hextend
  | defer | reject => simp at hstep

/-- A replay keeps the rate index in step with the log. -/
theorem ratesIndexed_replay {raw : List Bytes} {s' : Store} {position : ℕ} (h : RatesIndexed s)
    (hreplay : s.replay C position raw = .ok s') : RatesIndexed s' := by
  induction raw generalizing s position with
  | nil =>
    simp only [Store.replay, Except.ok.injEq] at hreplay
    rw [← hreplay]
    exact h
  | cons bytes raw ih =>
    obtain ⟨next, hstep, hrest⟩ := Except.bind_eq_ok.1 hreplay
    exact ih (ratesIndexed_replayStep h hstep) hrest

theorem ratesIndexed_empty : RatesIndexed .empty := by
  intro tld
  simp [Store.empty, Store.rated]

/-- A store that was opened has its rate index in step. -/
theorem ratesIndexed_open {file : Option Bytes} (h : Store.open_ C file = .ok s) : RatesIndexed s := by
  cases file with
  | none =>
    simp only [Store.open_, Except.ok.injEq] at h
    rw [← h]
    exact ratesIndexed_empty
  | some file =>
    obtain ⟨raw, -, hreplay⟩ := Except.bind_eq_ok.1 h
    have hstart : RatesIndexed { Store.empty with file := file } := ratesIndexed_empty
    exact ratesIndexed_replay hstart hreplay

/-- **The rate index is what the log says in every store that can be reached.** -/
theorem Store.Reached.ratesIndexed (h : s.Reached C) : RatesIndexed s := by
  induction h with
  | opened hopen => exact ratesIndexed_open hopen
  | appended _ happend ih =>
    rcases append_cases happend with ⟨rfl, -⟩ | ⟨r, -, -, rfl⟩ | ⟨r, held, root, -, -, rfl⟩
    · exact ih
    · exact ih.extend
    · exact ih.extend

/-! ## Two counts -/

/-- The scan counts among the times the log holds. -/
theorem naive_eq_rated (s : Store) (tld : String) (at_ : ℤ) : s.registrationsInWindowNaive tld at_ =
    (s.rated tld).countP fun x : ℕ =>
      decide ((rateWindow at_).1 ≤ (x : ℤ)) && decide ((x : ℤ) < (rateWindow at_).2) := by
  unfold Store.registrationsInWindowNaive Store.rated
  rw [List.countP_map, List.countP_filter]
  apply List.countP_congr
  intro entry _
  simp only [Function.comp_apply, Bool.and_eq_true, Bool.or_eq_true, decide_eq_true_eq]
  constructor
  · intro ⟨⟨htld, hop⟩, hin⟩
    exact ⟨hin, hop, htld⟩
  · intro ⟨hin, hop, htld⟩
    exact ⟨⟨htld, hop⟩, hin⟩

/-- **The rate index equals the scan**, in every store that can be reached, for every TLD and at
every instant. -/
theorem rate_index_eq_scan (h : s.Reached C) (tld : String) (at_ : ℤ) :
    s.registrationsInWindow tld at_ = s.registrationsInWindowNaive tld at_ := by
  rw [naive_eq_rated, h.ratesIndexed.registrationsInWindow_eq]

/-- Seen from an hour later, the log of `first` counts one registration of its TLD. -/
theorem rate_index_eq_scan_first :
    (Sample.enter .empty Sample.first).registrationsInWindow "abacus" 1699920000 = 1 ∧
      (Sample.enter .empty Sample.first).registrationsInWindow "abacus" 1699920000 =
        (Sample.enter .empty Sample.first).registrationsInWindowNaive "abacus" 1699920000 := by
  have hopened : Store.open_ Sample.crypto none = .ok .empty := rfl
  refine ⟨by decide +kernel, rate_index_eq_scan (C := Sample.crypto) ?_ "abacus" 1699920000⟩
  exact .appended (.opened hopened) Sample.append_first

end VayuWeb
