import VayuWeb.Base.Pull
import VayuWeb.Proof.Sample
import VayuWeb.Spec.Replicate

/-!
# One connection: what is asked for, and what is taken

The cursors of a session are a pull window: no record it receives, whatever becomes of it, moves
them (`foldl_applyOne_window`), so a step moves the window by its event alone (`step_window`).

* `pull_progresses_iff`: the session comes back to its fetch cursor, at every state of a run, exactly
  when no RECORDS strands it.
* `fetched_covered`: what the fetch cursor has passed was received, and offered to the local log.
-/

namespace VayuWeb

open Bytes

namespace ReplicationSession

variable {σ : Type} {C : Crypto} {sink : ReplicationSink σ} {p : ReplicationSession} {s : σ}

/-! ## The window of a session -/

/-- What a session has of its remote's log. -/
def window (p : ReplicationSession) : Pull.Window :=
  { length := p.remoteLength, fetched := p.fetchedThrough, requested := p.requestedThrough,
    outstanding := p.outstanding }

@[simp] theorem window_holdDeferred (bytes : Bytes) (at_ : ℕ) :
    (p.holdDeferred C bytes at_).window = p.window := by
  unfold holdDeferred
  simp only
  split_ifs
  · rfl
  · split <;> rfl
  · rfl

@[simp] theorem helloReceived_holdDeferred (bytes : Bytes) (at_ : ℕ) :
    (p.holdDeferred C bytes at_).helloReceived = p.helloReceived := by
  unfold holdDeferred
  simp only
  split_ifs
  · rfl
  · split <;> rfl
  · rfl

variable (C sink) in
/-- Taking in a record does not touch the window. -/
theorem applyOne_window (now : ℕ) (b : Batch σ) (encoding : Bytes) :
    (applyOne C sink now b encoding).session.window = b.session.window ∧
      (applyOne C sink now b encoding).session.helloReceived = b.session.helloReceived := by
  unfold applyOne
  by_cases hlong : encoding.length > limitRecordBytes
  · rw [if_pos hlong]
    exact ⟨rfl, rfl⟩
  · rw [if_neg hlong]
    simp only
    split
    · exact ⟨rfl, rfl⟩
    · split_ifs <;> exact ⟨rfl, rfl⟩
    · exact ⟨window_holdDeferred _ _, helloReceived_holdDeferred _ _⟩
    · exact ⟨rfl, rfl⟩

variable (C sink) in
/-- No record of a batch moves the cursors. -/
theorem foldl_applyOne_window (now : ℕ) (recs : List Bytes) (b : Batch σ) :
    (recs.foldl (applyOne C sink now) b).session.window = b.session.window ∧
      (recs.foldl (applyOne C sink now) b).session.helloReceived = b.session.helloReceived := by
  induction recs generalizing b with
  | nil => exact ⟨rfl, rfl⟩
  | cons encoding recs ih =>
    rw [List.foldl_cons]
    have hone := applyOne_window C sink now b encoding
    exact ⟨(ih _).1.trans hone.1, (ih _).2.trans hone.2⟩

variable (C sink) in
theorem foldl_retryOne_window (now : ℕ) (queue : List (Bytes × ℕ)) (b : ReplicationSession × σ × ℕ) :
    (queue.foldl (retryOne C sink now) b).1.window = b.1.window ∧
      (queue.foldl (retryOne C sink now) b).1.helloReceived = b.1.helloReceived := by
  induction queue generalizing b with
  | nil => exact ⟨rfl, rfl⟩
  | cons held queue ih =>
    rw [List.foldl_cons]
    have hone : (retryOne C sink now b held).1.window = b.1.window ∧
        (retryOne C sink now b held).1.helloReceived = b.1.helloReceived := by
      unfold retryOne
      simp only
      split
      · exact ⟨rfl, rfl⟩
      · exact ⟨rfl, rfl⟩
      · exact ⟨window_holdDeferred _ _, helloReceived_holdDeferred _ _⟩
      · exact ⟨rfl, rfl⟩
    exact ⟨(ih _).1.trans hone.1, (ih _).2.trans hone.2⟩

@[simp] theorem window_delivered (from_ n : ℕ) :
    (p.delivered from_ n).window = p.window.deliver from_ n := by
  unfold delivered Pull.Window.deliver
  by_cases hfrom : from_ ≤ p.fetchedThrough
  · rw [if_pos hfrom, if_pos (show from_ ≤ p.window.fetched from hfrom)]
    rfl
  · rw [if_neg hfrom, if_neg (show ¬ from_ ≤ p.window.fetched from hfrom)]
    rfl

@[simp] theorem helloReceived_delivered (from_ n : ℕ) :
    (p.delivered from_ n).helloReceived = p.helloReceived := by
  unfold delivered
  simp only
  split_ifs <;> rfl

variable (C sink) in
/-- A batch moves the window as a delivery does. -/
theorem onRecords_window (from_ : ℕ) (recs : List Bytes) (now : ℕ) :
    (onRecords C sink p s from_ recs now).2.1.window =
        (if recs.length > limitRecordsPerBatch then p.window else p.window.deliver from_ recs.length) ∧
      (onRecords C sink p s from_ recs now).2.1.helloReceived = p.helloReceived := by
  unfold onRecords
  by_cases hlong : recs.length > limitRecordsPerBatch
  · rw [if_pos hlong, if_pos hlong]
    exact ⟨rfl, rfl⟩
  · rw [if_neg hlong, if_neg hlong]
    simp only [window_delivered, helloReceived_delivered]
    have hfold := foldl_applyOne_window C sink now recs
      { session := p, store := s, applied := 0, rejected := 0, deferred := 0, duplicates := 0 }
    exact ⟨by rw [hfold.1], hfold.2⟩

/-- The loop of `expireWants` tests a difference, `Pull.Window.expire` a sum. -/
theorem window_expireWants (now : ℕ) :
    (p.expireWants now).window = p.window.expire limitWantDeadlineSeconds now := by
  have hwhile : (p.outstanding.dropWhile fun (at_ : ℕ) => decide ((now : ℤ) - at_ ≥ limitWantDeadlineSeconds)) =
      p.outstanding.dropWhile fun at_ => decide (at_ + limitWantDeadlineSeconds ≤ now) := by
    congr 1
    funext at_
    apply decide_eq_decide.2
    omega
  unfold expireWants Pull.Window.expire
  simp only [hwhile]
  by_cases hshort : (p.outstanding.dropWhile fun at_ =>
      decide (at_ + limitWantDeadlineSeconds ≤ now)).length < p.outstanding.length
  · rw [if_pos hshort]
    exact (if_pos (show _ < p.window.outstanding.length from hshort)).symm
  · rw [if_neg hshort]
    exact (if_neg (show ¬ _ < p.window.outstanding.length from hshort)).symm

@[simp] theorem helloReceived_expireWants (now : ℕ) :
    (p.expireWants now).helloReceived = p.helloReceived := by
  unfold expireWants
  simp only
  split_ifs <;> rfl

/-- A session that has been greeted asks as its window does. -/
theorem nextWant_window (h : p.helloReceived = true) (now : ℕ) :
    (p.nextWant now).1 = ((p.window.ask limitOutstandingWants limitWantCount limitWantDeadlineSeconds
        now).1.map fun range => Message.want range.1 range.2) ∧
      (p.nextWant now).2.window =
        (p.window.ask limitOutstandingWants limitWantCount limitWantDeadlineSeconds now).2 ∧
      (p.nextWant now).2.helloReceived = true := by
  have hwindow := window_expireWants (p := p) now
  have hlen : (p.expireWants now).outstanding = (p.window.expire limitWantDeadlineSeconds now).outstanding :=
    congrArg Pull.Window.outstanding hwindow
  have hreq : (p.expireWants now).requestedThrough =
      (p.window.expire limitWantDeadlineSeconds now).requested := congrArg Pull.Window.requested hwindow
  have hrem : (p.expireWants now).remoteLength = (p.window.expire limitWantDeadlineSeconds now).length :=
    congrArg Pull.Window.length hwindow
  unfold nextWant Pull.Window.ask
  rw [if_neg (not_not.2 h)]
  simp only [hlen, hreq, hrem]
  split_ifs
  · exact ⟨rfl, hwindow, (helloReceived_expireWants now).trans h⟩
  · exact ⟨rfl, hwindow, (helloReceived_expireWants now).trans h⟩
  · refine ⟨rfl, ?_, (helloReceived_expireWants now).trans h⟩
    rw [← hwindow]
    rfl

/-! ## What one event does -/

/-- How an event moves the window of a session that has been greeted. -/
def moved (w : Pull.Window) : Event → Pull.Window
  | .receive (.records from_ recs) _ =>
    if recs.length > limitRecordsPerBatch then w else w.deliver from_ recs.length
  | .nextWant now => (w.ask limitOutstandingWants limitWantCount limitWantDeadlineSeconds now).2
  | _ => w

/-- How a batch moves the window. -/
theorem moved_records (w : Pull.Window) (from_ now : ℕ) (recs : List Bytes) :
    moved w (.receive (.records from_ recs) now) =
      if recs.length > limitRecordsPerBatch then w else w.deliver from_ recs.length := rfl

variable (C sink) in
/-- **The window moves by the event alone**, whatever the local log answers. -/
theorem step_window {c : ReplicationSession × σ} (h : c.1.helloReceived = true) (e : Event) :
    (step C sink c e).1.window = moved c.1.window e ∧ (step C sink c e).1.helloReceived = true := by
  cases e with
  | openHello =>
    unfold step open_ moved
    by_cases hsent : c.1.helloSent
    · rw [if_pos hsent]
      exact ⟨rfl, h⟩
    · rw [if_neg hsent]
      exact ⟨rfl, h⟩
  | receive message now =>
    unfold step receive moved
    cases message with
    | hello v len root =>
      simp only [onHello]
      rw [if_pos h]
      exact ⟨rfl, h⟩
    | want from_ count =>
      simp only
      rw [if_pos h]
      exact ⟨rfl, h⟩
    | records from_ recs =>
      simp only [if_pos h]
      have hrecords := onRecords_window C sink (p := c.1) (s := c.2) from_ recs now
      exact ⟨hrecords.1, hrecords.2.trans h⟩
    | checkpoint len treeRoot indexRoot liveNames =>
      simp only
      rw [if_pos h]
      exact ⟨rfl, h⟩
    | equivocation a b =>
      simp only
      rw [if_pos h]
      exact ⟨rfl, h⟩
  | nextWant now => exact (nextWant_window h now).2
  | retryDeferred now =>
    have hretry := foldl_retryOne_window C sink now c.1.deferredQueue
      ({ c.1 with deferredQueue := [], deferredKeys := [] }, c.2, 0)
    exact ⟨hretry.1, hretry.2.trans h⟩

/-- The window before the remote has greeted. -/
def ungreeted : Pull.Window := { length := 0, fetched := 0, requested := 0, outstanding := [] }

variable (C sink) in
/-- Until it is greeted a session neither asks nor takes; the HELLO says how long the remote is. -/
theorem step_ungreeted {c : ReplicationSession × σ} (h : c.1.helloReceived = false)
    (hw : c.1.window = ungreeted) (e : Event) :
    ((step C sink c e).1.helloReceived = false ∧ (step C sink c e).1.window = ungreeted) ∨
      ∃ len, (step C sink c e).1.helloReceived = true ∧
        (step C sink c e).1.window = { ungreeted with length := len } := by
  have hnot : ¬ c.1.helloReceived = true := by simp [h]
  cases e with
  | openHello =>
    left
    unfold step open_
    by_cases hsent : c.1.helloSent
    · simp only [if_pos hsent]
      exact ⟨h, hw⟩
    · simp only [if_neg hsent]
      exact ⟨h, hw⟩
  | receive message now =>
    unfold step receive
    cases message with
    -- only a HELLO of the right version greets, and it sets the length alone
    | hello v len root =>
      simp only [onHello, if_neg hnot]
      by_cases hv : v ≠ protocolVersion
      · rw [if_pos hv]
        exact .inl ⟨h, hw⟩
      · rw [if_neg hv]
        rw [← hw]
        exact .inr ⟨len, rfl, rfl⟩
    | want from_ count =>
      simp only [if_neg hnot]
      exact .inl ⟨h, hw⟩
    | records from_ recs =>
      simp only [if_neg hnot]
      exact .inl ⟨h, hw⟩
    | checkpoint len treeRoot indexRoot liveNames =>
      simp only [if_neg hnot]
      exact .inl ⟨h, hw⟩
    | equivocation a b =>
      simp only [if_neg hnot]
      exact .inl ⟨h, hw⟩
  | nextWant now =>
    left
    change ((c.1.nextWant now).2).helloReceived = false ∧ (c.1.nextWant now).2.window = ungreeted
    unfold nextWant
    rw [if_pos hnot]
    exact ⟨h, hw⟩
  | retryDeferred now =>
    have hretry := foldl_retryOne_window C sink now c.1.deferredQueue
      ({ c.1 with deferredQueue := [], deferredKeys := [] }, c.2, 0)
    exact .inl ⟨hretry.2.trans h, hretry.1.trans hw⟩

/-! ## Runs -/

/-- A run goes on with one more event. -/
theorem run_concat (events : List Event) (e : Event) :
    run C sink s (events ++ [e]) = step C sink (run C sink s events) e := by
  unfold run
  rw [List.foldl_append]
  rfl

/-- Before the greeting the window does not move. -/
theorem run_ungreeted (events : List Event)
    (h : (run C sink s events).1.helloReceived = false) :
    (run C sink s events).1.window = ungreeted := by
  induction events using List.reverseRecOn with
  | nil => rfl
  | append_singleton events e ih =>
    rw [run_concat] at h ⊢
    by_cases hgreeted : (run C sink s events).1.helloReceived = true
    · have hstep := (step_window C sink hgreeted e).2
      rw [hstep] at h
      simp at h
    · have hnot := Bool.eq_false_iff.2 hgreeted
      rcases step_ungreeted C sink hnot (ih hnot) e with hstay | ⟨len, hnow, -⟩
      · exact hstay.2
      · rw [hnow] at h
        simp at h

/-! ## Coming back to the fetch cursor -/

/-- Asked again at clocks from `now` on, the session issues a WANT that starts at or below its fetch
cursor, after `limitOutstandingWants` other calls at most. -/
def ComesBack (p : ReplicationSession) (now : ℕ) : Prop :=
  ∃ calls t, calls.length ≤ limitOutstandingWants ∧ (now :: (calls ++ [t])).Pairwise (· ≤ ·) ∧
    ∃ from_ count, ((calls.foldl (fun p at_ => (p.nextWant at_).2) p).nextWant t).1 =
      some (.want from_ count) ∧ from_ ≤ p.fetchedThrough

/-- A RECORDS that starts past the fetch cursor and releases the last WANT in flight, while requests
have been aimed at everything the remote claims and some of it is missing. -/
def Stranding (p : ReplicationSession) : Event → Prop
  | .receive (.records from_ recs) _ =>
    p.helloReceived = true ∧ recs.length ≤ limitRecordsPerBatch ∧
      p.fetchedThrough < p.remoteLength ∧ p.remoteLength ≤ p.requestedThrough ∧
      p.outstanding.length ≤ 1 ∧ p.fetchedThrough < from_
  | _ => False

/-- Asking again and again moves the window as its own asking does. -/
theorem foldl_nextWant_window (h : p.helloReceived = true) (calls : List ℕ) :
    (calls.foldl (fun p at_ => (p.nextWant at_).2) p).window =
        calls.foldl (fun w at_ => (w.ask limitOutstandingWants limitWantCount limitWantDeadlineSeconds
          at_).2) p.window ∧
      (calls.foldl (fun p at_ => (p.nextWant at_).2) p).helloReceived = true := by
  induction calls generalizing p with
  | nil => exact ⟨rfl, h⟩
  | cons at_ calls ih =>
    obtain ⟨-, hwindow, hgreeted⟩ := nextWant_window h at_
    simp only [List.foldl_cons]
    rw [← hwindow]
    exact ih hgreeted

/-- A session comes back exactly where its window asks. -/
theorem comesBack_iff (h : p.helloReceived = true) (now : ℕ) : p.ComesBack now ↔
    ∃ calls t, calls.length ≤ limitOutstandingWants ∧
      p.window.AsksAt limitOutstandingWants limitWantCount limitWantDeadlineSeconds now calls t := by
  unfold ComesBack Pull.Window.AsksAt
  apply exists_congr
  intro calls
  apply exists_congr
  intro t
  obtain ⟨hwindow, hgreeted⟩ := foldl_nextWant_window h calls
  rw [(nextWant_window hgreeted t).1, hwindow]
  simp only [Option.map_eq_some_iff, Prod.exists, Message.want.injEq]
  constructor
  · rintro ⟨hlen, hclocks, from_, count, ⟨_, _, hask, rfl, rfl⟩, hle⟩
    exact ⟨hlen, hclocks, _, _, hask, hle⟩
  · rintro ⟨hlen, hclocks, from_, count, hask, hle⟩
    exact ⟨hlen, hclocks, from_, count, ⟨from_, count, hask, rfl, rfl⟩, hle⟩

/-- What strands a session, said of one event. -/
theorem not_stuck_step {c : ReplicationSession × σ}
    (hfresh : c.1.helloReceived = false → c.1.window = ungreeted) (h : ¬ c.1.window.Stuck) (e : Event) :
    (step C sink c e).1.window.Stuck ↔ c.1.Stranding e := by
  by_cases hgreeted : c.1.helloReceived = true
  · rw [(step_window C sink hgreeted e).1]
    cases e with
    | openHello => exact iff_of_false h id
    | retryDeferred now => exact iff_of_false h id
    | nextWant now => exact iff_of_false (Pull.not_stuck_ask h) id
    | receive message now =>
      cases message with
      | records from_ recs =>
        rw [moved_records]
        by_cases hlong : recs.length > limitRecordsPerBatch
        · rw [if_pos hlong]
          exact iff_of_false h fun ⟨_, hle, _⟩ => absurd hle (by omega)
        · rw [if_neg hlong, Pull.stuck_deliver_iff]
          unfold Pull.Window.Strands
          exact ⟨fun hs => ⟨hgreeted, by omega, hs⟩, fun hs => hs.2.2⟩
      | hello v len root => exact iff_of_false h id
      | want from_ count => exact iff_of_false h id
      | checkpoint len treeRoot indexRoot liveNames => exact iff_of_false h id
      | equivocation a b => exact iff_of_false h id
  · -- nothing has been asked for yet
    have hnot := Bool.eq_false_iff.2 hgreeted
    have hwindow : ∃ len, (step C sink c e).1.window = { ungreeted with length := len } := by
      rcases step_ungreeted C sink hnot (hfresh hnot) e with hstay | ⟨len, -, hw⟩
      · exact ⟨0, hstay.2⟩
      · exact ⟨len, hw⟩
    obtain ⟨len, hw⟩ := hwindow
    rw [hw]
    apply iff_of_false
    · rintro ⟨hlt, hle, -⟩
      unfold ungreeted at hlt hle
      simp only at hlt hle
      omega
    · unfold Stranding
      split
      · exact fun hs => hgreeted hs.1
      · exact id

/-- A run without a stranding event does not end stuck. -/
theorem run_not_stuck {events : List Event}
    (h : ∀ before e, before ++ [e] <+: events → ¬ (run C sink s before).1.Stranding e) :
    ¬ (run C sink s events).1.window.Stuck := by
  induction events using List.reverseRecOn with
  | nil =>
    rintro ⟨hlt, -⟩
    exact absurd hlt (lt_irrefl 0)
  | append_singleton events e ih =>
    have hprefix : events <+: events ++ [e] := List.prefix_append _ _
    have hbefore := ih fun before e' hle => h before e' (hle.trans hprefix)
    rw [run_concat, not_stuck_step (run_ungreeted events) hbefore]
    exact h events e (List.prefix_refl _)

/-- The clock the driver passes. -/
def Event.clock : Event → Option ℕ
  | .openHello => none
  | .receive _ now => some now
  | .nextWant now => some now
  | .retryDeferred now => some now

/-- Some moment lies behind every event. -/
theorem exists_after (events : List Event) : ∃ now, ∀ e ∈ events, ∀ at_ ∈ e.clock, at_ ≤ now := by
  induction events with
  | nil => exact ⟨0, by simp⟩
  | cons e events ih =>
    obtain ⟨now, hnow⟩ := ih
    refine ⟨max (e.clock.getD 0) now, fun e' he' at_ hat => ?_⟩
    rcases List.mem_cons.1 he' with rfl | hmem
    · rw [Option.mem_def.1 hat]
      exact le_max_left _ _
    · exact (hnow e' hmem at_ hat).trans (le_max_right _ _)

/-- **A session comes back to its fetch cursor, at every state of a run, exactly when no RECORDS
strands it.** -/
theorem pull_progresses_iff (C : Crypto) (sink : ReplicationSink σ) (s : σ) (events : List Event) :
    (∀ before, before <+: events → (run C sink s before).1.helloReceived = true →
      (run C sink s before).1.fetchedThrough < (run C sink s before).1.remoteLength →
      ∀ now, (∀ e ∈ before, ∀ at_ ∈ e.clock, at_ ≤ now) → (run C sink s before).1.ComesBack now) ↔
    ∀ before e, before ++ [e] <+: events → ¬ (run C sink s before).1.Stranding e := by
  constructor
  · -- the first RECORDS that strands the session leaves it stuck
    intro hback
    by_contra hnot
    push Not at hnot
    obtain ⟨before, e, hle, hstranding⟩ := hnot
    have hstuck : (run C sink s (before ++ [e])).1.window.Stuck := by
      by_cases hstuck : (run C sink s before).1.window.Stuck
      · -- it was stuck already, and stays so
        unfold Stranding at hstranding
        split at hstranding
        · next from_ recs now =>
          obtain ⟨hgreeted, hlen, hlt, hle, -, hfrom⟩ := hstranding
          rw [run_concat, (step_window C sink hgreeted _).1, moved_records, if_neg (by omega),
            Pull.stuck_deliver_iff]
          refine ⟨hlt, hle, ?_, hfrom⟩
          rw [hstuck.2.2]
          simp
        · exact hstranding.elim
      · rw [run_concat, not_stuck_step (run_ungreeted before) hstuck]
        exact hstranding
    have hgreeted : (run C sink s (before ++ [e])).1.helloReceived = true := by
      by_contra hnot
      have hwindow := run_ungreeted (before ++ [e]) (Bool.eq_false_iff.2 hnot)
      rw [hwindow] at hstuck
      exact absurd hstuck.1 (by decide)
    obtain ⟨now, hnow⟩ := exists_after (before ++ [e])
    have hcome := hback _ hle hgreeted hstuck.1 now hnow
    rw [comesBack_iff hgreeted] at hcome
    obtain ⟨calls, t, -, hasks⟩ := hcome
    exact Pull.not_asksAt_of_stuck hstuck now calls t hasks
  · intro hstrand before hle hgreeted hlt now _
    have hstuck : ¬ (run C sink s before).1.window.Stuck :=
      run_not_stuck fun before' e hle' => hstrand before' e (hle'.trans hle)
    rw [comesBack_iff hgreeted]
    obtain ⟨calls, t, hlen, hasks⟩ := Pull.asks_of_not_stuck limitOutstandingWants limitWantCount
      limitWantDeadlineSeconds now (by decide) hlt hstuck
    exact ⟨calls, t, hlen.trans (by decide), hasks⟩

/-- A remote of one record is greeted and asked for it; a RECORDS from 1 comes instead. -/
def stranding : List Event :=
  [.receive (.hello protocolVersion 1 (List.replicate 32 0)) 0, .nextWant 0, .receive (.records 1 [[0]]) 0]

/-- The session never asks again for the record it misses. -/
theorem stranded_never_asks : ∃ p, (run Sample.crypto (sinkOver Sample.crypto fun _ => List.replicate 32 0)
      .empty stranding).1 = p ∧ p.helloReceived = true ∧ p.fetchedThrough < p.remoteLength ∧
      (stranding.filterMap Event.clock).Pairwise (· ≤ ·) ∧ ∀ now, ¬ p.ComesBack now := by
  refine ⟨{ new with helloReceived := true, remoteLength := 1, requestedThrough := 1 }, ?_, rfl,
    by decide, by decide, ?_⟩
  · decide
  · intro now hback
    rw [comesBack_iff rfl] at hback
    obtain ⟨calls, t, -, hasks⟩ := hback
    exact Pull.not_asksAt_of_stuck ⟨by decide, by decide, rfl⟩ now calls t hasks

/-! ## What the fetch cursor has passed -/

/-- The sink, with what has been offered to it and when. -/
def recording (sink : ReplicationSink σ) : ReplicationSink (σ × List (Bytes × ℕ)) :=
  { append := fun s bytes now =>
      ((sink.append s.1 bytes now).1, (sink.append s.1 bytes now).2, s.2 ++ [(bytes, now)])
    length := fun s => sink.length s.1
    encodingAt := fun s => sink.encodingAt s.1
    treeRoot := fun s => sink.treeRoot s.1 }

/-- What a run has offered to the local log. -/
def offered (C : Crypto) (sink : ReplicationSink σ) (s : σ) (events : List Event) : List (Bytes × ℕ) :=
  (run C (recording sink) (s, []) events).2.2

/-- A batch without what the store was offered. -/
def Batch.forget (b : Batch (σ × List (Bytes × ℕ))) : Batch σ :=
  { session := b.session, store := b.store.1, applied := b.applied, rejected := b.rejected,
    deferred := b.deferred, duplicates := b.duplicates }

theorem applyOne_forget (now : ℕ) (b : Batch (σ × List (Bytes × ℕ))) (encoding : Bytes) :
    (applyOne C (recording sink) now b encoding).forget = applyOne C sink now b.forget encoding := by
  unfold applyOne
  by_cases hlong : encoding.length > limitRecordBytes
  · rw [if_pos hlong, if_pos hlong]
    rfl
  · rw [if_neg hlong, if_neg hlong]
    have happend : (recording sink).append b.store encoding now =
        ((sink.append b.store.1 encoding now).1, (sink.append b.store.1 encoding now).2,
          b.store.2 ++ [(encoding, now)]) := rfl
    have hforget : sink.append b.forget.store encoding now = sink.append b.store.1 encoding now := rfl
    simp only [happend, hforget]
    rcases (sink.append b.store.1 encoding now).1 with _ | ⟨_, _, duplicate⟩ | _ | _
    · rfl
    · cases duplicate <;> rfl
    · rfl
    · rfl

variable (C sink) in
/-- A batch offers each of its records that is not too long. -/
theorem foldl_applyOne_recording (now : ℕ) (recs : List Bytes) (b : Batch (σ × List (Bytes × ℕ))) :
    (recs.foldl (applyOne C (recording sink) now) b).forget =
        recs.foldl (applyOne C sink now) b.forget ∧
      (recs.foldl (applyOne C (recording sink) now) b).store.2 =
        b.store.2 ++ (recs.filter fun r => decide (r.length ≤ limitRecordBytes)).map fun r => (r, now) := by
  induction recs generalizing b with
  | nil => exact ⟨rfl, by simp⟩
  | cons encoding recs ih =>
    obtain ⟨hforget, hstore⟩ := ih (applyOne C (recording sink) now b encoding)
    rw [List.foldl_cons, List.foldl_cons, hforget, applyOne_forget, hstore]
    refine ⟨rfl, ?_⟩
    unfold applyOne
    by_cases hlong : encoding.length > limitRecordBytes
    · rw [if_pos hlong, List.filter_cons_of_neg (by simpa using hlong)]
    · rw [if_neg hlong, List.filter_cons_of_pos (by simpa using hlong), List.map_cons, List.append_cons]
      congr 1
      simp only
      split
      · rfl
      · split_ifs <;> rfl
      · rfl
      · rfl

variable (C sink) in
theorem foldl_retryOne_recording (now : ℕ) (queue : List (Bytes × ℕ))
    (b : ReplicationSession × (σ × List (Bytes × ℕ)) × ℕ) :
    ((queue.foldl (retryOne C (recording sink) now) b).1,
        (queue.foldl (retryOne C (recording sink) now) b).2.1.1,
        (queue.foldl (retryOne C (recording sink) now) b).2.2) =
        queue.foldl (retryOne C sink now) (b.1, b.2.1.1, b.2.2) ∧
      (queue.foldl (retryOne C (recording sink) now) b).2.1.2 =
        b.2.1.2 ++ queue.map fun held => (held.1, now) := by
  induction queue generalizing b with
  | nil => exact ⟨rfl, by simp⟩
  | cons held queue ih =>
    obtain ⟨hforget, hstore⟩ := ih (retryOne C (recording sink) now b held)
    have hone : retryOne C sink now (b.1, b.2.1.1, b.2.2) held =
        ((retryOne C (recording sink) now b held).1, (retryOne C (recording sink) now b held).2.1.1,
          (retryOne C (recording sink) now b held).2.2) ∧
        (retryOne C (recording sink) now b held).2.1.2 = b.2.1.2 ++ [(held.1, now)] := by
      unfold retryOne
      have happend : (recording sink).append b.2.1 held.1 now =
          ((sink.append b.2.1.1 held.1 now).1, (sink.append b.2.1.1 held.1 now).2,
            b.2.1.2 ++ [(held.1, now)]) := rfl
      simp only [happend]
      rcases (sink.append b.2.1.1 held.1 now).1 with _ | _ | _ | _ <;> exact ⟨rfl, rfl⟩
    rw [List.foldl_cons, List.foldl_cons, hone.1]
    refine ⟨hforget, ?_⟩
    rw [hstore, hone.2, List.map_cons, List.append_assoc, List.singleton_append]

variable (C sink) in
/-- What a batch of a RECORDS offers. -/
theorem onRecords_recording (store : σ × List (Bytes × ℕ)) (from_ : ℕ) (recs : List Bytes) (now : ℕ)
    (hlen : recs.length ≤ limitRecordsPerBatch) :
    (onRecords C (recording sink) p store from_ recs now).2.2.2 =
      store.2 ++ (recs.filter fun r => decide (r.length ≤ limitRecordBytes)).map fun r => (r, now) := by
  unfold onRecords
  rw [if_neg (by omega)]
  exact (foldl_applyOne_recording C sink now recs _).2

variable (C sink) in
/-- Recording what is offered changes nothing else. -/
theorem step_recording (c : ReplicationSession × (σ × List (Bytes × ℕ))) (e : Event) :
    ((step C (recording sink) c e).1, (step C (recording sink) c e).2.1) =
        step C sink (c.1, c.2.1) e ∧
      c.2.2 <+: (step C (recording sink) c e).2.2 := by
  cases e with
  | openHello => exact ⟨rfl, List.prefix_refl _⟩
  | nextWant now => exact ⟨rfl, List.prefix_refl _⟩
  | retryDeferred now =>
    obtain ⟨hforget, hstore⟩ := foldl_retryOne_recording C sink now c.1.deferredQueue
      ({ c.1 with deferredQueue := [], deferredKeys := [] }, c.2, 0)
    refine ⟨?_, ?_⟩
    · have hsession := congrArg Prod.fst hforget
      have hstore' := congrArg (fun b : ReplicationSession × σ × ℕ => b.2.1) hforget
      exact Prod.ext hsession hstore'
    · exact ⟨_, hstore.symm⟩
  | receive message now =>
    unfold step receive
    cases message with
    | hello v len root => exact ⟨rfl, List.prefix_refl _⟩
    | want from_ count =>
      simp only
      split_ifs <;> exact ⟨rfl, List.prefix_refl _⟩
    | checkpoint len treeRoot indexRoot liveNames =>
      simp only
      split_ifs <;> exact ⟨rfl, List.prefix_refl _⟩
    | equivocation a b =>
      simp only
      split_ifs <;> exact ⟨rfl, List.prefix_refl _⟩
    | records from_ recs =>
      simp only
      split_ifs
      · by_cases hlong : recs.length > limitRecordsPerBatch
        · unfold onRecords
          rw [if_pos hlong, if_pos hlong]
          exact ⟨rfl, List.prefix_refl _⟩
        · refine ⟨?_, _, (onRecords_recording C sink _ _ _ _ (not_lt.1 hlong)).symm⟩
          unfold onRecords
          rw [if_neg hlong, if_neg hlong]
          simp only
          have hforget := (foldl_applyOne_recording C sink now recs
            { session := c.1, store := c.2, applied := 0, rejected := 0, deferred := 0, duplicates := 0 }).1
          exact congrArg (fun b : Batch σ => (b.session.delivered from_ recs.length, b.store)) hforget
      · exact ⟨rfl, List.prefix_refl _⟩

/-- Recording what is offered changes nothing else. -/
theorem run_recording (events : List Event) :
    ((run C (recording sink) (s, []) events).1, (run C (recording sink) (s, []) events).2.1) =
      run C sink s events := by
  induction events using List.reverseRecOn with
  | nil => rfl
  | append_singleton events e ih =>
    rw [run_concat, run_concat, (step_recording C sink _ e).1, ih]

theorem run_recording_session (events : List Event) :
    (run C (recording sink) (s, []) events).1 = (run C sink s events).1 :=
  congrArg Prod.fst (run_recording events)

/-- A longer run has offered no less. -/
theorem offered_mono {before events : List Event} (h : before <+: events) :
    offered C sink s before <+: offered C sink s events := by
  obtain ⟨after, rfl⟩ := h
  induction after using List.reverseRecOn with
  | nil => exact (List.append_nil before).symm ▸ List.prefix_refl (offered C sink s before)
  | append_singleton after e ih =>
    unfold offered at *
    rw [← List.append_assoc, run_concat]
    exact ih.trans (step_recording C sink _ e).2

variable (C sink) in
/-- No event takes back what was fetched. -/
theorem fetched_step_le {c : ReplicationSession × σ}
    (hfresh : c.1.helloReceived = false → c.1.window = ungreeted) (e : Event) :
    c.1.fetchedThrough ≤ (step C sink c e).1.fetchedThrough := by
  by_cases hgreeted : c.1.helloReceived = true
  · have hwindow := congrArg Pull.Window.fetched (step_window C sink hgreeted e).1
    change (step C sink c e).1.fetchedThrough = (moved c.1.window e).fetched at hwindow
    rw [hwindow]
    change c.1.window.fetched ≤ _
    unfold moved
    split
    · split_ifs
      · exact le_rfl
      · exact Pull.fetched_le_deliver
    · exact (Pull.fetched_ask).ge
    · exact le_rfl
  · have hfetched : c.1.fetchedThrough = 0 :=
      congrArg Pull.Window.fetched (hfresh (Bool.eq_false_iff.2 hgreeted))
    omega

/-- No run takes back what was fetched. -/
theorem run_fetched_le {before events : List Event} (h : before <+: events) :
    (run C sink s before).1.fetchedThrough ≤ (run C sink s events).1.fetchedThrough := by
  obtain ⟨after, rfl⟩ := h
  induction after using List.reverseRecOn with
  | nil => rw [List.append_nil]
  | append_singleton after e ih =>
    rw [← List.append_assoc, run_concat]
    exact ih.trans (fetched_step_le C sink (run_ungreeted _) e)

variable (C sink) in
/-- The step that moves the fetch cursor past an index is a RECORDS that covers it. -/
theorem fetched_step_covered {c : ReplicationSession × σ}
    (hfresh : c.1.helloReceived = false → c.1.window = ungreeted) {e : Event} {i : ℕ}
    (hi : i < (step C sink c e).1.fetchedThrough) (hc : c.1.fetchedThrough ≤ i) :
    ∃ from_ recs now, e = .receive (.records from_ recs) now ∧ c.1.helloReceived = true ∧
      recs.length ≤ limitRecordsPerBatch ∧ from_ ≤ i ∧ i < from_ + recs.length := by
  by_cases hgreeted : c.1.helloReceived = true
  · have hwindow := congrArg Pull.Window.fetched (step_window C sink hgreeted e).1
    change (step C sink c e).1.fetchedThrough = (moved c.1.window e).fetched at hwindow
    rw [hwindow] at hi
    have hc' : c.1.window.fetched ≤ i := hc
    unfold moved at hi
    split at hi
    · next from_ recs now =>
      split_ifs at hi with hlong
      · omega
      · have hcovered := Pull.deliver_covered hi hc'
        exact ⟨from_, recs, now, rfl, hgreeted, by omega, hcovered.1, hcovered.2⟩
    · rw [Pull.fetched_ask] at hi
      omega
    · omega
  · -- the cursor stays at zero until the remote has greeted
    have hzero : (step C sink c e).1.fetchedThrough = 0 := by
      have hnot := Bool.eq_false_iff.2 hgreeted
      rcases step_ungreeted C sink hnot (hfresh hnot) e with hstay | ⟨len, -, hw⟩
      · exact congrArg Pull.Window.fetched hstay.2
      · exact congrArg Pull.Window.fetched hw
    omega

/-- What counts as fetched came in a batch. -/
theorem run_covered (events : List Event) {i : ℕ} (hi : i < (run C sink s events).1.fetchedThrough) :
    ∃ before from_ recs now, before ++ [.receive (.records from_ recs) now] <+: events ∧
      (run C sink s before).1.helloReceived = true ∧ recs.length ≤ limitRecordsPerBatch ∧
      from_ ≤ i ∧ i < from_ + recs.length := by
  induction events using List.reverseRecOn with
  | nil => exact absurd hi (Nat.not_lt_zero i)
  | append_singleton events e ih =>
    by_cases hbefore : i < (run C sink s events).1.fetchedThrough
    · obtain ⟨before, from_, recs, now, hle, hrest⟩ := ih hbefore
      exact ⟨before, from_, recs, now, hle.trans (List.prefix_append _ _), hrest⟩
    · rw [run_concat] at hi
      obtain ⟨from_, recs, now, rfl, hrest⟩ :=
        fetched_step_covered C sink (run_ungreeted events) hi (not_lt.1 hbefore)
      exact ⟨events, from_, recs, now, List.prefix_refl _, hrest⟩

/-- The window is in order after every run. -/
theorem run_ordered (events : List Event) : (run C sink s events).1.window.Ordered := by
  induction events using List.reverseRecOn with
  | nil => exact le_rfl
  | append_singleton events e ih =>
    rw [run_concat]
    by_cases hgreeted : (run C sink s events).1.helloReceived = true
    · rw [(step_window C sink hgreeted e).1]
      unfold moved
      split
      · split_ifs
        · exact ih
        · exact Pull.ordered_deliver ih
      · exact Pull.ordered_ask ih
      · exact ih
    · have hnot := Bool.eq_false_iff.2 hgreeted
      rcases step_ungreeted C sink hnot (run_ungreeted events hnot) e with hstay | ⟨len, -, hw⟩
      · rw [hstay.2]
        exact le_rfl
      · rw [hw]
        exact le_rfl

/-- **The fetch cursor never skips an index**: what it has passed came in a RECORDS, and every record
of that message was offered to the local log, unless it was too long. It never goes back, and is at
or below the request cursor. -/
theorem fetched_covered (C : Crypto) (sink : ReplicationSink σ) (s : σ) (events : List Event) :
    (∀ i < (run C sink s events).1.fetchedThrough,
      ∃ before from_ recs now, before ++ [.receive (.records from_ recs) now] <+: events ∧
        from_ ≤ i ∧ i < from_ + recs.length ∧
        ∀ r ∈ recs, r.length ≤ limitRecordBytes → (r, now) ∈ offered C sink s events) ∧
    (∀ before, before <+: events →
      (run C sink s before).1.fetchedThrough ≤ (run C sink s events).1.fetchedThrough) ∧
    (run C sink s events).1.fetchedThrough ≤ (run C sink s events).1.requestedThrough := by
  refine ⟨?_, fun before h => run_fetched_le h, run_ordered events⟩
  intro i hi
  obtain ⟨before, from_, recs, now, hle, hgreeted, hlen, hfrom, hlt⟩ := run_covered events hi
  refine ⟨before, from_, recs, now, hle, hfrom, hlt, ?_⟩
  intro r hr hshort
  -- the batch was offered when it came, and nothing offered is taken back
  have hoffered : offered C sink s (before ++ [.receive (.records from_ recs) now]) =
      offered C sink s before ++
        (recs.filter fun r => decide (r.length ≤ limitRecordBytes)).map fun r => (r, now) := by
    unfold offered
    rw [run_concat]
    have hrecording : (run C (recording sink) (s, []) before).1.helloReceived = true := by
      rw [run_recording_session]
      exact hgreeted
    unfold step receive
    simp only
    rw [if_pos hrecording]
    exact onRecords_recording C sink _ _ _ _ hlen
  apply (offered_mono hle).subset
  rw [hoffered]
  apply List.mem_append_right
  exact List.mem_map.2 ⟨r, List.mem_filter.2 ⟨hr, by simpa using hshort⟩, rfl⟩

end ReplicationSession

end VayuWeb
