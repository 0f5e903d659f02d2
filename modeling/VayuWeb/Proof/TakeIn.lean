import VayuWeb.Client.Exchange
import VayuWeb.Proof.View

/-!
# The judging loop of an import

* `judgeRecords_eq`: over records that parse the loop never fails, and takes in one record after
  the other.
* `Run.takeIn`: it keeps a run a run.
* `acceptVerdict_register_iff`, `acceptVerdict_successor_iff`: what it takes in.
-/

namespace VayuWeb.Client

open Bytes
open DetCbor (Value)

namespace View

variable {C : Crypto} {view : View} {bytes : Bytes} {p : ParsedRecord} {now windowCount : ℕ} {log : List Acceptance}
  {label tld : String}

/-- What the loop does with one record. -/
def takeIn (C : Crypto) (now windowCount : ℕ) (view : View) (bytes : Bytes) : View :=
  if view.holds C bytes then view
  else if view.acceptVerdict C bytes now windowCount = .ok .accept then view.put C bytes
  else view

/-- The view after a list of records. -/
def takeAll (C : Crypto) (now windowCount : ℕ) (view : View) (records : List Bytes) : View :=
  records.foldl (takeIn C now windowCount) view

/-- The record that a view has as the tip of a name. -/
def tipBytes (C : Crypto) (view : View) (label tld : String) : Except String (Option Bytes) :=
  (view.chainTip C label tld).map (Option.map fun tip => tip.entry.bytes)

theorem takeAll_nil : view.takeAll C now windowCount [] = view := rfl

theorem takeAll_cons (records : List Bytes) :
    view.takeAll C now windowCount (bytes :: records) =
      (view.takeIn C now windowCount bytes).takeAll C now windowCount records := rfl

/-- A record that is held is not taken in again. -/
theorem takeIn_of_holds (h : view.holds C bytes = true) : view.takeIn C now windowCount bytes = view := if_pos h

/-- A record that is not accepted is not taken in. -/
theorem takeIn_of_not_accept (h : view.acceptVerdict C bytes now windowCount ≠ .ok .accept) :
    view.takeIn C now windowCount bytes = view := by
  rw [takeIn, if_neg h, ite_self]

/-- The three things that can happen to a record. -/
theorem takeIn_cases (C : Crypto) (now windowCount : ℕ) (view : View) (bytes : Bytes) :
    (view.holds C bytes = true ∧ view.takeIn C now windowCount bytes = view) ∨
    (view.holds C bytes = false ∧ view.acceptVerdict C bytes now windowCount ≠ .ok .accept ∧
      view.takeIn C now windowCount bytes = view) ∨
    (view.holds C bytes = false ∧ view.acceptVerdict C bytes now windowCount = .ok .accept ∧
      view.takeIn C now windowCount bytes = view.put C bytes ∧
      (view.put C bytes).files = view.files ++ [{ hash := recordHashFromBytes C bytes, bytes := bytes }]) := by
  cases hheld : view.holds C bytes with
  | true => exact Or.inl ⟨rfl, takeIn_of_holds hheld⟩
  | false =>
    right
    by_cases haccept : view.acceptVerdict C bytes now windowCount = .ok .accept
    · right
      have hnew : ¬ ∃ e ∈ view.files, e.hash = recordHashFromBytes C bytes := by
        rw [← holds_iff, hheld]
        simp
      refine ⟨rfl, haccept, ?_, ?_⟩
      · rw [takeIn, if_neg (by rw [hheld]; simp), if_pos haccept]
      · exact ((put_cases C view bytes).resolve_left fun h => hnew h.1).2
    · exact Or.inl ⟨rfl, haccept, takeIn_of_not_accept haccept⟩

theorem files_takeIn_subset (C : Crypto) (now windowCount : ℕ) (view : View) (bytes : Bytes) :
    view.files ⊆ (view.takeIn C now windowCount bytes).files := by
  rcases takeIn_cases C now windowCount view bytes with ⟨-, heq⟩ | ⟨-, -, heq⟩ | ⟨-, -, heq, -⟩
  · rw [heq]
    exact List.Subset.refl _
  · rw [heq]
    exact List.Subset.refl _
  · rw [heq]
    exact files_put_subset C view bytes

/-- Taking in records takes no file away. -/
theorem files_takeAll_subset (C : Crypto) (now windowCount : ℕ) (view : View) (records : List Bytes) :
    view.files ⊆ (view.takeAll C now windowCount records).files := by
  induction records generalizing view with
  | nil => exact List.Subset.refl _
  | cons record records ih => exact List.Subset.trans (files_takeIn_subset C now windowCount view record) (ih _)

/-- What a view holds after one record more. -/
theorem mem_takeIn {e : Entry} (h : e ∈ (view.takeIn C now windowCount bytes).files) :
    e ∈ view.files ∨ e = { hash := recordHashFromBytes C bytes, bytes := bytes } := by
  rcases takeIn_cases C now windowCount view bytes with ⟨-, heq⟩ | ⟨-, -, heq⟩ | ⟨-, -, heq, hfiles⟩
  · exact Or.inl (heq ▸ h)
  · exact Or.inl (heq ▸ h)
  · rw [heq, hfiles] at h
    rcases List.mem_append.1 h with h | h
    · exact Or.inl h
    · exact Or.inr (List.mem_singleton.1 h)

/-- A record taken in keeps a run a run. -/
theorem Run.takeIn (h : Run C view log) (now windowCount : ℕ) (bytes : Bytes) :
    ∃ log', Run C (view.takeIn C now windowCount bytes) log' := by
  rcases takeIn_cases C now windowCount view bytes with ⟨-, heq⟩ | ⟨-, -, heq⟩ | ⟨-, haccept, heq, -⟩
  · rw [heq]
    exact ⟨log, h⟩
  · rw [heq]
    exact ⟨log, h⟩
  · rw [heq]
    exact ⟨_, h.step haccept⟩

/-- **So does a list of records.** -/
theorem Run.takeAll (h : Run C view log) (now windowCount : ℕ) (records : List Bytes) :
    ∃ log', Run C (view.takeAll C now windowCount records) log' := by
  induction records generalizing view log with
  | nil => exact ⟨log, h⟩
  | cons record records ih =>
    obtain ⟨log', hstep⟩ := h.takeIn now windowCount record
    exact ih hstep

/-! ## What is accepted -/

/-- A chain's tip is always read. -/
theorem exists_chainTip (h : view.Holds C log) (label tld : String) :
    ∃ tip, view.chainTip C label tld = .ok tip := by
  cases hchain : view.chain C label tld with
  | nil => exact ⟨none, chainTip_nil hchain⟩
  | cons tip below =>
    obtain ⟨_, _, htip, -⟩ := chainTip_eq h hchain
    exact ⟨_, htip⟩

/-- A view of a run has a verdict on every record that parses. -/
theorem acceptVerdict_eq (h : view.Holds C log) (hp : parseBytes bytes = .ok p) :
    ∃ verdict, view.acceptVerdict C bytes now windowCount = .ok verdict := by
  obtain ⟨tip, htip⟩ := exists_chainTip h p.label p.tld
  unfold acceptVerdict
  rw [peek_eq hp, Except.ok_bind]
  simp only [htip, Except.ok_bind]
  split_ifs
  · cases tip with
    | none => exact ⟨_, rfl⟩
    | some tip =>
      simp only
      split_ifs
      · exact ⟨_, rfl⟩
      · exact ⟨_, rfl⟩
  · cases tip with
    | none => exact ⟨_, rfl⟩
    | some tip => exact ⟨_, rfl⟩

/-- **When a registration is accepted**: by itself, and where the name is free or held by it. -/
theorem acceptVerdict_register_iff (h : view.Holds C log) (hp : parseBytes bytes = .ok p) (hop : p.op = "REGISTER") :
    view.acceptVerdict C bytes now windowCount = .ok .accept ↔ verify C bytes none now windowCount = .accept ∧
      ∀ tip, view.chainTip C p.label p.tld = .ok (some tip) →
        tip.entry.hash = recordHashFromBytes C bytes ∨ fullyReleased tip.prev now = true := by
  obtain ⟨tip, htip⟩ := exists_chainTip h p.label p.tld
  unfold acceptVerdict
  rw [peek_eq hp, Except.ok_bind]
  simp only [htip, Except.ok_bind, if_pos hop, Except.ok.injEq]
  cases tip with
  | none => simp
  | some tip =>
    simp only [Option.some.injEq, forall_eq']
    split_ifs with hheld
    · simp only [Except.pure_eq_ok, Except.ok.injEq, reduceCtorEq, false_iff, not_and]
      intro _ hfree
      rcases hfree with hsame | hreleased
      · exact hheld.1 hsame
      · exact hheld.2 hreleased
    · simp only [Except.pure_eq_ok, Except.ok.injEq]
      refine ⟨fun haccept => ⟨haccept, ?_⟩, fun haccept => haccept.1⟩
      by_contra hnone
      obtain ⟨hother, hreleased⟩ := not_or.1 hnone
      exact hheld ⟨hother, hreleased⟩

/-- **When a successor is accepted**: against the tip. -/
theorem acceptVerdict_successor_iff (hp : parseBytes bytes = .ok p) (hop : p.op ≠ "REGISTER") :
    view.acceptVerdict C bytes now windowCount = .ok .accept ↔
      ∃ tip, view.chainTip C p.label p.tld = .ok (some tip) ∧ verify C bytes (some tip.prev) now windowCount =
        .accept := by
  constructor
  · intro haccept
    obtain ⟨tip, htip, hverify, -⟩ := acceptVerdict_successor hp hop haccept
    exact ⟨tip, htip, hverify⟩
  · intro ⟨tip, htip, hverify⟩
    unfold acceptVerdict
    rw [peek_eq hp, Except.ok_bind]
    simp only [htip, Except.ok_bind, if_neg hop, hverify, Except.pure_eq_ok]

/-! ## The loop -/

/-- **The loop takes in one record after the other**, and reaches its end. -/
theorem judgeRecords_eq {records : List Bytes} (h : Run C view log) (now windowCount : ℕ)
    (hparse : ∀ record ∈ records, ∃ p, parseBytes record = .ok p) (tally : Tally) :
    ∃ tally', judgeRecords C now windowCount (records.map .bytes) view tally =
      (view.takeAll C now windowCount records, .ok tally') := by
  induction records generalizing view log tally with
  | nil => exact ⟨tally, rfl⟩
  | cons record records ih =>
    obtain ⟨p, hp⟩ := hparse record List.mem_cons_self
    have hrest := fun r hr => hparse r (List.mem_cons_of_mem _ hr)
    obtain ⟨log', hstep⟩ := h.takeIn now windowCount record
    rw [List.map_cons, judgeRecords, takeAll_cons]
    cases hheld : view.holds C record with
    | true =>
      rw [takeIn_of_holds hheld]
      exact ih h hrest _
    | false =>
      obtain ⟨verdict, hverdict⟩ := @acceptVerdict_eq C view record p now windowCount log (holds_of_run h) hp
      rw [if_neg (by simp), hverdict]
      -- only an accepted record changes the view; the tally counts each kind
      cases verdict with
      | accept =>
        have htake : view.takeIn C now windowCount record = view.put C record := by
          rw [takeIn, hheld, if_neg (by simp), if_pos hverdict]
        rw [htake] at hstep ⊢
        exact ih hstep hrest _
      | reject code detail =>
        rw [takeIn_of_not_accept (by rw [hverdict]; simp)]
        exact ih h hrest _
      | defer reason detail =>
        rw [takeIn_of_not_accept (by rw [hverdict]; simp)]
        exact ih h hrest _

end View

end VayuWeb.Client
