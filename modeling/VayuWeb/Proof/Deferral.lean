import VayuWeb.Base.Backlog
import VayuWeb.Spec.Replicate

/-!
# The deferred records of a session

The queue of a session and the keys beside it are one backlog (`Backlog`), in whatever order records are
deferred and retried.

* `holdDeferred_eq`: `holdDeferred` is the backlog's `push`.
* `foldl_retryOne`: a retry keeps the records that are deferred again, and only these.
* `deferral_queue`: what holds at every moment of a run, and how a record leaves.
-/

namespace VayuWeb.ReplicationSession

open Bytes

variable {σ : Type} (C : Crypto) (sink : ReplicationSink σ)

/-- What the queue holds one record of. -/
def heldKey (held : Bytes × ℕ) : Bytes := recordHashFromBytes C held.1

/-- The keys are those of the queue, which is bounded and free of duplicates. -/
structure Consistent (p : ReplicationSession) : Prop where
  keys : p.deferredKeys = p.deferredQueue.map (heldKey C)
  ok : Backlog.Ok (heldKey C) limitDeferred p.deferredQueue

/-- The sink answers DEFER. -/
def Defers (verdict : Except Thrown Verdict) : Prop := ∃ reason detail, verdict = .ok (.defer reason detail)

/-! ## Moments -/

/-- The batch after these records. -/
def batchAt (c : ReplicationSession × σ) (now : ℕ) (front : List Bytes) : Batch σ :=
  front.foldl (applyOne C sink now)
    { session := c.1, store := c.2, applied := 0, rejected := 0, deferred := 0, duplicates := 0 }

/-- The retry after these records. -/
def retryAt (c : ReplicationSession × σ) (now : ℕ) (front : List (Bytes × ℕ)) : ReplicationSession × σ × ℕ :=
  front.foldl (retryOne C sink now) ({ c.1 with deferredQueue := [], deferredKeys := [] }, c.2, 0)

/-- The states of the session while an event is handled. -/
inductive During (c : ReplicationSession × σ) : Event → ReplicationSession × σ → Prop where
  | before (e : Event) : During c e c
  | after (e : Event) : During c e (step C sink c e)
  | record (from_ : ℕ) (recs front : List Bytes) (now : ℕ) (greeted : c.1.helloReceived = true)
      (fits : recs.length ≤ limitRecordsPerBatch) (taken : front <+: recs) :
      During c (.receive (.records from_ recs) now)
        ((batchAt C sink c now front).session, (batchAt C sink c now front).store)
  | retry (now : ℕ) (front : List (Bytes × ℕ)) (taken : front <+: c.1.deferredQueue) :
      During c (.retryDeferred now) ((retryAt C sink c now front).1, (retryAt C sink c now front).2.1)

/-- Consecutive states: a batch goes record by record, and a retry is one step. -/
inductive Next (c : ReplicationSession × σ) : Event → ReplicationSession × σ → ReplicationSession × σ → Prop where
  | record (from_ : ℕ) (recs front : List Bytes) (x : Bytes) (now : ℕ) (greeted : c.1.helloReceived = true)
      (fits : recs.length ≤ limitRecordsPerBatch) (taken : front ++ [x] <+: recs) :
      Next c (.receive (.records from_ recs) now)
        ((batchAt C sink c now front).session, (batchAt C sink c now front).store)
        ((batchAt C sink c now (front ++ [x])).session, (batchAt C sink c now (front ++ [x])).store)
  | close (from_ : ℕ) (recs : List Bytes) (now : ℕ) (greeted : c.1.helloReceived = true)
      (fits : recs.length ≤ limitRecordsPerBatch) :
      Next c (.receive (.records from_ recs) now)
        ((batchAt C sink c now recs).session, (batchAt C sink c now recs).store)
        (step C sink c (.receive (.records from_ recs) now))
  | whole (e : Event) (other : ∀ from_ recs now, e = .receive (.records from_ recs) now →
      c.1.helloReceived = false ∨ recs.length > limitRecordsPerBatch) : Next c e c (step C sink c e)

/-- Why a record is gone from one state to the next. -/
inductive Departure (c : ReplicationSession × σ) (e : Event) (c' c'' : ReplicationSession × σ) (held : Bytes × ℕ) :
    Prop where
  /-- Its retry was accepted or rejected, or threw. -/
  | spent (now : ℕ) (front back : List (Bytes × ℕ)) (event : e = .retryDeferred now)
      (place : c.1.deferredQueue = front ++ held :: back)
      (verdict : ¬ Defers (sink.append (retryAt C sink c now front).2.1 held.1 now).1)
  /-- It was the oldest of a full queue when a record of another key was deferred. -/
  | evicted (x : Bytes) (now : ℕ) (full : c'.1.deferredQueue.length = limitDeferred)
      (oldest : c'.1.deferredQueue.head? = some held) (deferral : Defers (sink.append c'.2 x now).1)
      (distinct : heldKey C (x, now) ∉ c'.1.deferredQueue.map (heldKey C))
      (queued : c''.1.deferredQueue = c'.1.deferredQueue.tail ++ [(x, now)])

/-- What holds while an event is handled. -/
structure Orderly (c : ReplicationSession × σ) (e : Event) : Prop where
  consistent : ∀ c', During C sink c e c' → Consistent C c'.1
  once : ∀ c', During C sink c e c' → ∀ bytes at_,
    recordHashFromBytes C bytes ∈ c'.1.deferredQueue.map (heldKey C) → c'.1.holdDeferred C bytes at_ = c'.1
  leaves : ∀ c' c'' held, Next C sink c e c' c'' → held ∈ c'.1.deferredQueue → held ∉ c''.1.deferredQueue →
    Departure C sink c e c' c'' held

variable {C sink} {p : ReplicationSession} {s : σ}

/-! ## One deferral -/

theorem Consistent.congr {q : ReplicationSession} (h : Consistent C p) (hqueue : q.deferredQueue = p.deferredQueue)
    (hkeys : q.deferredKeys = p.deferredKeys) : Consistent C q :=
  ⟨by rw [hkeys, hqueue, h.keys], by rw [hqueue]; exact h.ok⟩

/-- **A deferral is a push** onto the backlog. -/
theorem holdDeferred_eq (h : Consistent C p) (bytes : Bytes) (at_ : ℕ) : p.holdDeferred C bytes at_ =
    { p with
      deferredQueue := Backlog.push (heldKey C) limitDeferred p.deferredQueue (bytes, at_)
      deferredKeys := (Backlog.push (heldKey C) limitDeferred p.deferredQueue (bytes, at_)).map (heldKey C) } := by
  have hkey : recordHashFromBytes C bytes = heldKey C (bytes, at_) := rfl
  have hsame : { p with deferredQueue := p.deferredQueue, deferredKeys := p.deferredQueue.map (heldKey C) } = p := by
    rw [← h.keys]
  unfold holdDeferred
  dsimp only
  rw [hkey, h.keys]
  by_cases hheld : heldKey C (bytes, at_) ∈ p.deferredQueue.map (heldKey C)
  · rw [if_pos (List.contains_iff_mem.2 hheld), Backlog.push_of_mem hheld]
    exact hsame.symm
  · rw [if_neg fun hmem => hheld (List.contains_iff_mem.1 hmem), Backlog.push_of_not_mem hheld]
    by_cases hfull : p.deferredQueue.length ≥ limitDeferred
    · rw [if_pos hfull, if_pos hfull]
      cases hqueue : p.deferredQueue with
      | nil =>
        rw [hqueue] at hfull
        exact absurd hfull (by decide)
      | cons evicted queue =>
        have herase : ((evicted :: queue).map (heldKey C)).erase (recordHashFromBytes C evicted.1) =
            queue.map (heldKey C) := by
          rw [List.map_cons]
          exact List.erase_cons_head _ _
        dsimp only
        rw [herase, List.tail_cons, List.map_append, List.map_singleton]
    · rw [if_neg hfull, if_neg hfull, List.map_append, List.map_singleton, h.keys]

/-- Holding a record back keeps the queue and its keys in step. -/
theorem Consistent.holdDeferred (h : Consistent C p) (bytes : Bytes) (at_ : ℕ) :
    Consistent C (p.holdDeferred C bytes at_) := by
  rw [holdDeferred_eq h]
  exact ⟨rfl, h.ok.push (by decide) _⟩

/-- What is queued is not queued again. -/
theorem holdDeferred_of_mem (h : Consistent C p) {bytes : Bytes}
    (hmem : recordHashFromBytes C bytes ∈ p.deferredQueue.map (heldKey C)) (at_ : ℕ) :
    p.holdDeferred C bytes at_ = p := by
  unfold ReplicationSession.holdDeferred
  dsimp only
  rw [if_pos (List.contains_iff_mem.2 (h.keys ▸ hmem))]

/-! ## Batches -/

/-- One record leaves the session as it is, or is held back. -/
theorem applyOne_cases (now : ℕ) (b : Batch σ) (x : Bytes) : (applyOne C sink now b x).session = b.session ∨
    (Defers (sink.append b.store x now).1 ∧ (applyOne C sink now b x).session = b.session.holdDeferred C x now) := by
  unfold applyOne
  by_cases hlong : x.length > limitRecordBytes
  · rw [if_pos hlong]
    exact Or.inl rfl
  · rw [if_neg hlong]
    dsimp only
    split
    · exact Or.inl rfl
    · split_ifs <;> exact Or.inl rfl
    · rename_i reason detail hdefer
      exact Or.inr ⟨⟨reason, detail, hdefer⟩, rfl⟩
    · exact Or.inl rfl

/-- A batch goes on record by record. -/
theorem batchAt_concat (c : ReplicationSession × σ) (now : ℕ) (front : List Bytes) (x : Bytes) :
    batchAt C sink c now (front ++ [x]) = applyOne C sink now (batchAt C sink c now front) x := by
  rw [batchAt, List.foldl_append]
  rfl

theorem consistent_batchAt {c : ReplicationSession × σ} (h : Consistent C c.1) (now : ℕ) (front : List Bytes) :
    Consistent C (batchAt C sink c now front).session := by
  induction front using List.reverseRecOn with
  | nil => exact h
  | append_singleton front x ih =>
    rw [batchAt_concat]
    rcases @applyOne_cases σ C sink now (batchAt C sink c now front) x with heq | ⟨-, heq⟩
    · rw [heq]
      exact ih
    · rw [heq]
      exact ih.holdDeferred x now

theorem deferred_delivered (p : ReplicationSession) (from_ n : ℕ) :
    (p.delivered from_ n).deferredQueue = p.deferredQueue ∧ (p.delivered from_ n).deferredKeys = p.deferredKeys := by
  unfold delivered
  split_ifs
  · exact ⟨rfl, rfl⟩
  · exact ⟨rfl, rfl⟩

/-- A batch after the greeting is taken in record by record. -/
theorem step_records {c : ReplicationSession × σ} {from_ : ℕ} {recs : List Bytes} {now : ℕ}
    (hgreeted : c.1.helloReceived = true) (hfits : recs.length ≤ limitRecordsPerBatch) :
    step C sink c (.receive (.records from_ recs) now) =
      ((batchAt C sink c now recs).session.delivered from_ recs.length, (batchAt C sink c now recs).store) := by
  unfold step receive onRecords batchAt
  dsimp only
  rw [if_pos hgreeted, if_neg (by omega)]

/-! ## Retries -/

/-- A record that is tried again is taken in, or held back once more. -/
theorem retryOne_cases (now : ℕ) (b : ReplicationSession × σ × ℕ) (held : Bytes × ℕ) :
    (¬ Defers (sink.append b.2.1 held.1 now).1 ∧ (retryOne C sink now b held).1 = b.1) ∨
      (Defers (sink.append b.2.1 held.1 now).1 ∧ (retryOne C sink now b held).1 =
        b.1.holdDeferred C held.1 held.2) := by
  unfold retryOne
  dsimp only
  split
  · rename_i e herror
    refine Or.inl ⟨?_, rfl⟩
    rintro ⟨reason, detail, hdefer⟩
    rw [herror] at hdefer
    cases hdefer
  · rename_i haccept
    refine Or.inl ⟨?_, rfl⟩
    rintro ⟨reason, detail, hdefer⟩
    rw [haccept] at hdefer
    cases hdefer
  · rename_i reason detail hdefer
    exact Or.inr ⟨⟨reason, detail, hdefer⟩, rfl⟩
  · rename_i hreject
    refine Or.inl ⟨?_, rfl⟩
    rintro ⟨reason, detail, hdefer⟩
    rw [hreject] at hdefer
    cases hdefer

/-- **A retry** keeps what was queued before it and every record that is deferred again: together they fit. -/
theorem foldl_retryOne {now : ℕ} {b : ReplicationSession × σ × ℕ} {pending : List (Bytes × ℕ)} (h : Consistent C b.1)
    (hok : Backlog.Ok (heldKey C) limitDeferred (b.1.deferredQueue ++ pending)) :
    Consistent C (pending.foldl (retryOne C sink now) b).1 ∧
      b.1.deferredQueue ⊆ (pending.foldl (retryOne C sink now) b).1.deferredQueue ∧
      ∀ front held back, pending = front ++ held :: back →
        Defers (sink.append (front.foldl (retryOne C sink now) b).2.1 held.1 now).1 →
        held ∈ (pending.foldl (retryOne C sink now) b).1.deferredQueue := by
  induction pending generalizing b with
  | nil =>
    refine ⟨h, List.Subset.refl _, ?_⟩
    intro front held back hpending
    simp at hpending
  | cons first pending ih =>
    rw [List.foldl_cons]
    rcases @retryOne_cases σ C sink now b first with ⟨hnot, hsession⟩ | ⟨hdefers, hsession⟩
    · -- it leaves the queue
      have hrest : Backlog.Ok (heldKey C) limitDeferred ((retryOne C sink now b first).1.deferredQueue ++ pending) := by
        rw [hsession]
        exact hok.sublist (List.Sublist.append_left (List.sublist_cons_self _ _) _)
      obtain ⟨hconsistent, hsubset, hagain⟩ := ih (hsession ▸ h) hrest
      rw [hsession] at hsubset
      refine ⟨hconsistent, hsubset, ?_⟩
      intro front held back hpending hdefers
      cases front with
      | nil =>
        rw [List.nil_append, List.cons.injEq] at hpending
        rw [← hpending.1] at hdefers
        exact absurd hdefers hnot
      | cons first' front =>
        rw [List.cons_append, List.cons.injEq] at hpending
        obtain ⟨rfl, hpending⟩ := hpending
        exact hagain front held back hpending hdefers
    · -- it is queued again, behind those deferred before it
      have hnew : heldKey C first ∉ b.1.deferredQueue.map (heldKey C) := by
        have hdistinct := hok.distinct
        rw [List.map_append, List.map_cons, List.nodup_append] at hdistinct
        intro hmem
        exact hdistinct.2.2 _ hmem _ List.mem_cons_self rfl
      have hroom : b.1.deferredQueue.length < limitDeferred := by
        have hbound := hok.bounded
        rw [List.length_append, List.length_cons] at hbound
        omega
      have hqueue : (retryOne C sink now b first).1.deferredQueue = b.1.deferredQueue ++ [first] := by
        rw [hsession, holdDeferred_eq h]
        exact Backlog.push_of_lt hnew hroom
      have hrest : Backlog.Ok (heldKey C) limitDeferred ((retryOne C sink now b first).1.deferredQueue ++ pending) := by
        rw [hqueue, List.append_assoc, List.singleton_append]
        exact hok
      obtain ⟨hconsistent, hsubset, hagain⟩ := ih (by rw [hsession]; exact h.holdDeferred _ _) hrest
      rw [hqueue] at hsubset
      refine ⟨hconsistent, fun held hheld => hsubset (List.mem_append_left _ hheld), ?_⟩
      intro front held back hpending hdefers'
      cases front with
      | nil =>
        rw [List.nil_append, List.cons.injEq] at hpending
        rw [← hpending.1]
        exact hsubset (List.mem_append_right _ (List.mem_singleton_self _))
      | cons first' front =>
        rw [List.cons_append, List.cons.injEq] at hpending
        obtain ⟨rfl, hpending⟩ := hpending
        exact hagain front held back hpending hdefers'

theorem consistent_cleared (C : Crypto) (p : ReplicationSession) :
    Consistent C { p with deferredQueue := [], deferredKeys := [] } := ⟨rfl, Backlog.ok_nil⟩

/-- Trying the queue again loses no record that is still deferred. -/
theorem retryAt_spec {c : ReplicationSession × σ} (h : Consistent C c.1) {now : ℕ} {taken : List (Bytes × ℕ)}
    (htaken : taken <+: c.1.deferredQueue) : Consistent C (retryAt C sink c now taken).1 ∧
      ∀ front held back, taken = front ++ held :: back →
        Defers (sink.append (retryAt C sink c now front).2.1 held.1 now).1 →
        held ∈ (retryAt C sink c now taken).1.deferredQueue := by
  have hspec := @foldl_retryOne σ C sink now ({ c.1 with deferredQueue := [], deferredKeys := [] }, c.2, 0) taken
    (consistent_cleared C c.1) (h.ok.sublist htaken.sublist)
  exact ⟨hspec.1, hspec.2.2⟩

/-! ## Runs -/

/-- Every other event leaves the deferred records as they are. -/
theorem deferred_step_other {c : ReplicationSession × σ} {e : Event}
    (hrecords : ∀ from_ recs now, e = .receive (.records from_ recs) now →
      c.1.helloReceived = false ∨ recs.length > limitRecordsPerBatch)
    (hretry : ∀ now, e ≠ .retryDeferred now) :
    (step C sink c e).1.deferredQueue = c.1.deferredQueue ∧ (step C sink c e).1.deferredKeys = c.1.deferredKeys := by
  cases e with
  | openHello =>
    unfold step open_
    by_cases hsent : c.1.helloSent
    · simp [hsent]
    · simp [hsent]
  | nextWant now =>
    -- wants that ran out of time are forgotten, and nothing is deferred or taken up
    have hexpire : (c.1.expireWants now).deferredQueue = c.1.deferredQueue ∧
        (c.1.expireWants now).deferredKeys = c.1.deferredKeys := by
      unfold expireWants
      dsimp only
      split_ifs <;> exact ⟨rfl, rfl⟩
    unfold step nextWant
    dsimp only
    split_ifs
    · exact hexpire
    · exact hexpire
    · exact hexpire
    · exact ⟨rfl, rfl⟩
  | retryDeferred now => exact absurd rfl (hretry now)
  | receive message now =>
    unfold step receive
    cases message with
    | hello v len root =>
      dsimp only
      unfold onHello
      split_ifs <;> exact ⟨rfl, rfl⟩
    | want from_ count =>
      dsimp only
      split_ifs <;> exact ⟨rfl, rfl⟩
    | records from_ recs =>
      dsimp only
      -- records reach the queue through `onRecords` only, when greeted and not too many
      rcases hrecords from_ recs now rfl with hnot | hlong
      · rw [if_neg (by simp [hnot])]
        exact ⟨rfl, rfl⟩
      · split_ifs
        · unfold onRecords
          rw [if_pos hlong]
          exact ⟨rfl, rfl⟩
        · exact ⟨rfl, rfl⟩
    | checkpoint len treeRoot indexRoot liveNames =>
      dsimp only
      split_ifs <;> exact ⟨rfl, rfl⟩
    | equivocation a b =>
      dsimp only
      split_ifs <;> exact ⟨rfl, rfl⟩

/-- A retry goes over the whole queue. -/
theorem step_retry (c : ReplicationSession × σ) (now : ℕ) : step C sink c (.retryDeferred now) =
    ((retryAt C sink c now c.1.deferredQueue).1, (retryAt C sink c now c.1.deferredQueue).2.1) := rfl

/-- A batch that is applied, a retry, or neither. -/
theorem event_cases (c : ReplicationSession × σ) (e : Event) :
    (∃ from_ recs now, e = .receive (.records from_ recs) now ∧ c.1.helloReceived = true ∧
      recs.length ≤ limitRecordsPerBatch) ∨ (∃ now, e = .retryDeferred now) ∨
    ((∀ from_ recs now, e = .receive (.records from_ recs) now →
      c.1.helloReceived = false ∨ recs.length > limitRecordsPerBatch) ∧ ∀ now, e ≠ .retryDeferred now) := by
  by_cases hretry : ∃ now, e = .retryDeferred now
  · exact Or.inr (Or.inl hretry)
  by_cases hbatch : ∃ from_ recs now, e = .receive (.records from_ recs) now ∧ c.1.helloReceived = true ∧
      recs.length ≤ limitRecordsPerBatch
  · exact Or.inl hbatch
  refine Or.inr (Or.inr ⟨?_, fun now he => hretry ⟨now, he⟩⟩)
  intro from_ recs now he
  by_contra hnot
  rw [not_or, Bool.not_eq_false, Nat.not_lt] at hnot
  exact hbatch ⟨from_, recs, now, he, hnot⟩

/-- No event puts the queue and its keys out of step. -/
theorem consistent_step {c : ReplicationSession × σ} (h : Consistent C c.1) (e : Event) :
    Consistent C (step C sink c e).1 := by
  rcases event_cases c e with ⟨from_, recs, now, rfl, hgreeted, hfits⟩ | ⟨now, rfl⟩ | ⟨hrecords, hretry⟩
  · rw [step_records hgreeted hfits]
    obtain ⟨hqueue, hkeys⟩ := deferred_delivered (batchAt C sink c now recs).session from_ recs.length
    exact (consistent_batchAt h now recs).congr hqueue hkeys
  · rw [step_retry]
    exact (retryAt_spec h (List.prefix_refl _)).1
  · obtain ⟨hqueue, hkeys⟩ := @deferred_step_other σ C sink c e hrecords hretry
    exact h.congr hqueue hkeys

/-- The queue and its keys are in step after every run. -/
theorem consistent_run (events : List Event) : Consistent C (run C sink s events).1 := by
  induction events using List.reverseRecOn with
  | nil => exact ⟨rfl, Backlog.ok_nil⟩
  | append_singleton events e ih =>
    have hconcat : run C sink s (events ++ [e]) = step C sink (run C sink s events) e := by
      rw [run, List.foldl_append]
      rfl
    rw [hconcat]
    exact consistent_step ih e

/-- They are in step inside an event as well. -/
theorem consistent_during {c c' : ReplicationSession × σ} {e : Event} (h : Consistent C c.1)
    (hduring : During C sink c e c') : Consistent C c'.1 := by
  cases hduring with
  | before => exact h
  | after => exact consistent_step h e
  | record from_ recs front now greeted fits taken => exact consistent_batchAt h now front
  | retry now front taken => exact (retryAt_spec h taken).1

/-- **How a record leaves** the queue. -/
theorem departure {c c' c'' : ReplicationSession × σ} {e : Event} {held : Bytes × ℕ} (h : Consistent C c.1)
    (hnext : Next C sink c e c' c'') (hheld : held ∈ c'.1.deferredQueue) (hgone : held ∉ c''.1.deferredQueue) :
    Departure C sink c e c' c'' held := by
  cases hnext with
  -- a record pushed the oldest one out of a full queue
  | record from_ recs front x now greeted fits taken =>
    have hconsistent := @consistent_batchAt σ C sink c h now front
    rw [batchAt_concat] at hgone ⊢
    rcases @applyOne_cases σ C sink now (batchAt C sink c now front) x with heq | ⟨hdefers, heq⟩
    · rw [heq] at hgone
      exact absurd hheld hgone
    · rw [heq, holdDeferred_eq hconsistent] at hgone
      obtain ⟨hfull, holdest, hdistinct, hpush⟩ := Backlog.leaves_push hconsistent.ok.bounded hheld hgone
      refine .evicted x now hfull holdest hdefers hdistinct ?_
      rw [heq, holdDeferred_eq hconsistent]
      exact hpush
  | close from_ recs now greeted fits =>
    rw [step_records greeted fits] at hgone
    rw [(deferred_delivered _ _ _).1] at hgone
    exact absurd hheld hgone
  | whole e other =>
    rcases event_cases c e with ⟨from_, recs, now, rfl, hgreeted, hfits⟩ | ⟨now, rfl⟩ | ⟨hrecords, hretry⟩
    · rcases other from_ recs now rfl with hnot | hlong
      · rw [hgreeted] at hnot
        cases hnot
      · omega
    -- a retry took it up, and it was not deferred again
    · obtain ⟨front, back, hplace⟩ := List.append_of_mem hheld
      refine .spent now front back rfl hplace ?_
      intro hdefers
      rw [step_retry] at hgone
      exact hgone ((retryAt_spec h (List.prefix_refl _)).2 front held back hplace hdefers)
    · rw [(deferred_step_other hrecords hretry).1] at hgone
      exact absurd hheld hgone

/-- **The deferral queue** is bounded, free of duplicates and in step with its keys at every moment of every run,
and a record leaves it when its retry is settled or as the oldest of a full queue. -/
theorem deferral_queue (C : Crypto) (sink : ReplicationSink σ) (s : σ) (events : List Event) (e : Event) :
    Orderly C sink (run C sink s events) e := by
  have h : Consistent C (run C sink s events).1 := consistent_run events
  constructor
  case consistent =>
    intro c' hduring
    exact consistent_during h hduring
  case once =>
    intro c' hduring bytes at_ hmem
    exact holdDeferred_of_mem (consistent_during h hduring) hmem at_
  case leaves =>
    intro c' c'' held hnext hheld hgone
    exact departure h hnext hheld hgone

end VayuWeb.ReplicationSession
