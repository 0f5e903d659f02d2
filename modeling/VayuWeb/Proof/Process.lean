import VayuWeb.Proof.Deferral
import VayuWeb.Proof.Driver
import VayuWeb.Proof.Framing
import VayuWeb.Proof.Link
import VayuWeb.Spec.Process

/-!
# What peers can do to a process

Any number of peers send any bytes, in any order, and connections come and go. The registry stays a log of appends, the
ledger within its budgets, and what is held for a connection within bounds.

* `DriverOk`: what is held for one connection; `takeAll_ok`: the payloads of a chunk, whatever they are.
* `SharedOk`: what all connections share.
* `ProcessOk.run`: every run of a process; `process_safe`: over a registry.
-/

namespace VayuWeb.Swarm

open Bytes
open ReplicationSession
open Driver (SoundNode)

variable {σ : Type} {C : Crypto} {sink : ReplicationSink σ} {checkpoints : Option (σ → ℕ → Option Checkpoint)}
  {d : Driver} {node : Node σ} {now : ℕ}

/-! ## One connection -/

/-- What is held for a connection is bounded. -/
structure DriverOk (C : Crypto) (d : Driver) : Prop where
  deferred : Consistent C d.session
  slots : d.session.outstanding.length ≤ limitOutstandingWants
  /-- No more is held than the frame that is waited for. -/
  pending : d.stream.destroyed = false → d.deframer.pending < prefixBytes + frameBytes
  unsaid : d.offered = false → d.outcome.forwarded = 0
  forwarded : d.outcome.forwarded ≤ perConnection

theorem destroyed_send (stream : PeerStream) (m : Message) (h : stream.destroyed = true) :
    (stream.send m).destroyed = true := by
  have hwrite : ∀ bytes, (stream.write bytes).destroyed = true := by
    intro bytes
    unfold PeerStream.write
    rw [if_pos h]
    exact h
  unfold PeerStream.send
  split
  · rfl
  · split
    · rfl
    · exact hwrite _

theorem destroyed_sendAll (stream : PeerStream) (ms : List Message) (h : stream.destroyed = true) :
    (stream.sendAll ms).destroyed = true := by
  induction ms generalizing stream with
  | nil => exact h
  | cons m ms ih => exact ih _ (destroyed_send stream m h)

namespace DriverOk

/-- What leaves the session, the de-framer and the counts of evidence alone. -/
theorem congr {d' : Driver} (h : DriverOk C d) (hsession : d'.session = d.session)
    (hdeframer : d'.deframer = d.deframer)
    (hstream : d.stream.destroyed = true → d'.stream.destroyed = true) (hoffered : d'.offered = d.offered)
    (hforwarded : d'.outcome.forwarded = d.outcome.forwarded) : DriverOk C d' := by
  constructor
  case deferred =>
    rw [hsession]
    exact h.deferred
  case slots =>
    rw [hsession]
    exact h.slots
  case pending =>
    intro halive
    rw [hdeframer]
    apply h.pending
    by_contra hdead
    rw [Bool.not_eq_false] at hdead
    rw [hstream hdead] at halive
    cases halive
  case unsaid =>
    rw [hoffered, hforwarded]
    exact h.unsaid
  case forwarded =>
    rw [hforwarded]
    exact h.forwarded

/-- Writing messages leaves a driver in order. -/
theorem sendAll (h : DriverOk C d) (ms : List Message) : DriverOk C (d.sendAll ms) :=
  h.congr rfl rfl (destroyed_sendAll d.stream ms) rfl rfl

/-- A destroyed stream leaves a driver in order. -/
theorem destroy (h : DriverOk C d) : DriverOk C { d with stream := d.stream.destroy } :=
  h.congr rfl rfl (fun _ => rfl) rfl rfl

/-- A request takes a slot, and there are no more than the slots. -/
theorem nextWant_ok {p : ReplicationSession} (hdeferred : Consistent C p)
    (hslots : p.outstanding.length ≤ limitOutstandingWants) (now : ℕ) :
    Consistent C (p.nextWant now).2 ∧ (p.nextWant now).2.outstanding.length ≤ limitOutstandingWants := by
  have hexpire : Consistent C (p.expireWants now) ∧ (p.expireWants now).outstanding.length ≤ p.outstanding.length := by
    have hle := (List.dropWhile_sublist (l := p.outstanding)
      (fun at_ => decide ((now : ℤ) - at_ ≥ limitWantDeadlineSeconds))).length_le
    unfold expireWants
    dsimp only
    split_ifs with hshort
    · exact ⟨hdeferred.congr rfl rfl, hle⟩
    · exact ⟨hdeferred, le_rfl⟩
  unfold nextWant
  dsimp only
  by_cases hgreeted : p.helloReceived = true
  · rw [if_neg (not_not.2 hgreeted)]
    by_cases hfull : (p.expireWants now).outstanding.length ≥ limitOutstandingWants
    · rw [if_pos hfull]
      exact ⟨hexpire.1, hexpire.2.trans hslots⟩
    · rw [if_neg hfull]
      split_ifs with hend
      · exact ⟨hexpire.1, hexpire.2.trans hslots⟩
      · refine ⟨hexpire.1.congr rfl rfl, ?_⟩
        dsimp only
        rw [List.length_append, List.length_singleton]
        omega
  · rw [if_pos hgreeted]
    exact ⟨hdeferred, hslots⟩

/-- Asking keeps the backlog and the slots in order. -/
theorem wants_ok (fuel : ℕ) {p : ReplicationSession} (hdeferred : Consistent C p)
    (hslots : p.outstanding.length ≤ limitOutstandingWants) :
    Consistent C (Driver.wants now fuel p).2 ∧ (Driver.wants now fuel p).2.outstanding.length ≤
      limitOutstandingWants := by
  induction fuel generalizing p with
  | zero => exact ⟨hdeferred, hslots⟩
  | succ fuel ih =>
    obtain ⟨hnext, hbound⟩ := nextWant_ok hdeferred hslots now
    rw [Driver.wants]
    rcases hasked : p.nextWant now with ⟨want, p'⟩
    rw [hasked] at hnext hbound
    cases want with
    | none => exact ⟨hnext, hbound⟩
    | some want => exact ih hnext hbound

/-- Pumping leaves a driver in order. -/
theorem pump (h : DriverOk C d) (now : ℕ) : DriverOk C (d.pump now) := by
  obtain ⟨hdeferred, hslots⟩ : Consistent C (Driver.pumped now d.session).2 ∧
      (Driver.pumped now d.session).2.outstanding.length ≤ limitOutstandingWants := by
    unfold Driver.pumped
    split_ifs with hgreeted
    · exact wants_ok _ h.deferred h.slots
    · exact ⟨h.deferred, h.slots⟩
  rw [Driver.pump_eq]
  have hasked : DriverOk C { d with session := (Driver.pumped now d.session).2 } :=
    ⟨hdeferred, hslots, h.pending, h.unsaid, h.forwarded⟩
  exact hasked.sendAll _

/-- Evidence is offered once, and no more than the budget. -/
theorem offerEvidence (h : DriverOk C d) (ledger : Option EquivocationLedger) :
    DriverOk C (d.offerEvidence ledger) := by
  unfold Driver.offerEvidence
  cases ledger with
  | none => exact h
  | some ledger =>
    dsimp only
    split_ifs with hsaid
    · exact h
    · rw [not_or, Bool.not_eq_true] at hsaid
      have hnone := h.unsaid hsaid.1
      have hsent := h.sendAll ((ledger.held.take (min ledger.held.length perConnection)).map fun entry =>
        Message.equivocation entry.evidence.a entry.evidence.b)
      refine ⟨hsent.deferred, hsent.slots, hsent.pending, fun hno => ?_, ?_⟩
      · cases hno
      · change d.outcome.forwarded + min ledger.held.length perConnection ≤ perConnection
        rw [hnone]
        omega

/-- Stating a checkpoint leaves a driver in order. -/
theorem stateCheckpoint (h : DriverOk C d) (mine : Option (Option Checkpoint)) :
    DriverOk C (d.stateCheckpoint mine) := by
  unfold Driver.stateCheckpoint
  cases mine with
  | none => exact h
  | some mine =>
    dsimp only
    split_ifs with hsaid
    · exact h
    · cases mine with
      | none => exact h.congr rfl rfl id rfl rfl
      | some mine =>
        have hstated : DriverOk C { d with stated := true } := h.congr rfl rfl id rfl rfl
        exact hstated.sendAll _

end DriverOk

/-! ## What all connections share -/

/-- Nothing that was written down is taken back. -/
def Remembers (before after : Option EquivocationLedger) : Prop :=
  ∀ ledger ∈ before, ∃ ledger' ∈ after,
    ledger.held.map EquivocationLedger.reportOf <+: ledger'.held.map EquivocationLedger.reportOf

/-- The first checkpoint at a length stays, and what disagreed with one. -/
def Recalls (before after : Option CheckpointLedger) : Prop :=
  ∀ forks ∈ before, ∃ forks' ∈ after, forks.seen <+: forks'.seen ∧ forks.disagreements <+: forks'.disagreements

/-- What a process shares, since it started: the ledgers within their bounds, over a registry that is as it
should be. -/
structure SharedOk (C : Crypto) (Good : σ → Prop) (since node : Node σ) : Prop where
  good : Good node.store
  sound : SoundNode C node
  remembers : Remembers since.ledger node.ledger
  recalls : Recalls since.forks node.forks
  lengths : ∀ forks ∈ node.forks, forks.seen.length ≤ checkpointLengths
  reports : ∀ forks ∈ node.forks, forks.disagreements.length ≤ checkpointForks

/-- What a ledger recorded it holds after what was recorded before. -/
theorem held_record {ledger after : EquivocationLedger} {evidence : EquivocationEvidence} {origin : EvidenceOrigin}
    {outcome : RecordOutcome} (h : ledger.Sound C) (hrecord : ledger.record C evidence origin = .ok (outcome, after)) :
    ledger.held.map EquivocationLedger.reportOf <+: after.held.map EquivocationLedger.reportOf := by
  obtain ⟨rs, hholds, -⟩ := h
  obtain ⟨outcome', after', hrecord', hafter, -⟩ :=
    EquivocationLedger.record_spec hholds { origin := origin, evidence := evidence }
  obtain ⟨-, rfl⟩ := Prod.mk.inj (Except.ok.inj (hrecord.symm.trans hrecord'))
  rw [hholds.held, hafter.held]
  exact Journal.prefix_offer _ _

/-- Noting reports takes no evidence out. -/
theorem noteReports_held (reports : List Message) {ledger : EquivocationLedger} (h : ledger.Sound C)
    (outcome : PeerOutcome) : ledger.held.map EquivocationLedger.reportOf <+:
      (Driver.noteReports C ledger outcome reports).2.2.held.map EquivocationLedger.reportOf := by
  induction reports generalizing ledger outcome with
  | nil => exact List.prefix_refl _
  | cons report reports ih =>
    cases report with
    | equivocation a b =>
      obtain ⟨verdict, after, hrecord, hsound⟩ := h.record { a := a, b := b } .received
      have hfirst := held_record h hrecord
      rw [Driver.noteReports, hrecord]
      cases verdict <;> exact hfirst.trans (ih hsound _)
    | _ => exact ih h outcome

/-- What is remembered is remembered later. -/
theorem Remembers.trans {a b c : Option EquivocationLedger} (h : Remembers a b) (h' : Remembers b c) :
    Remembers a c := by
  intro ledger hledger
  obtain ⟨ledger', hledger', hheld⟩ := h ledger hledger
  obtain ⟨ledger'', hledger'', hheld'⟩ := h' ledger' hledger'
  exact ⟨ledger'', hledger'', hheld.trans hheld'⟩

/-- What is recalled is recalled later. -/
theorem Recalls.trans {a b c : Option CheckpointLedger} (h : Recalls a b) (h' : Recalls b c) : Recalls a c := by
  intro forks hforks
  obtain ⟨forks', hforks', hseen, hkept⟩ := h forks hforks
  obtain ⟨forks'', hforks'', hseen', hkept'⟩ := h' forks' hforks'
  exact ⟨forks'', hforks'', hseen.trans hseen', hkept.trans hkept'⟩

/-- Noting reports takes nothing out, with a ledger or without. -/
theorem remembers_noteAll {ledger : Option EquivocationLedger} (h : ∀ l ∈ ledger, l.Sound C) (outcome : PeerOutcome)
    (reports : List Message) : Remembers ledger (Driver.noteAll C ledger outcome reports).2.2 := by
  intro held hheld
  cases hheld
  exact ⟨_, rfl, noteReports_held reports (h held rfl) outcome⟩

/-- **A checkpoint that is observed** finds room, or is refused; the first at its length stays. -/
theorem observe_spec {forks : CheckpointLedger} (hlengths : forks.seen.length ≤ checkpointLengths)
    (hreports : forks.disagreements.length ≤ checkpointForks) (c : Checkpoint) :
    (forks.observe c).2.seen.length ≤ checkpointLengths ∧ (forks.observe c).2.disagreements.length ≤ checkpointForks ∧
      forks.seen <+: (forks.observe c).2.seen ∧ forks.disagreements <+: (forks.observe c).2.disagreements := by
  unfold CheckpointLedger.observe
  dsimp only
  -- one statement more for a length that is new, or one report more for a fork, each below its bound
  by_cases hlength : isCheckpointLength c.logLength = true
  · rw [if_neg (not_not.2 hlength)]
    cases hheld : forks.seen.get? c.logLength with
    | none =>
      dsimp only
      by_cases hfull : forks.seen.length ≥ checkpointLengths
      · rw [if_pos hfull]
        exact ⟨hlengths, hreports, List.prefix_refl _, List.prefix_refl _⟩
      · rw [if_neg hfull, OrdMap.set_of_notMem (OrdMap.notMem_of_get? hheld)]
        refine ⟨?_, hreports, List.prefix_append _ _, List.prefix_refl _⟩
        dsimp only
        rw [List.length_append, List.length_singleton]
        omega
    | some held =>
      dsimp only
      split_ifs with hsame hroom
      · exact ⟨hlengths, hreports, List.prefix_refl _, List.prefix_refl _⟩
      · refine ⟨hlengths, ?_, List.prefix_refl _, List.prefix_append _ _⟩
        dsimp only
        rw [List.length_append, List.length_singleton]
        omega
      · exact ⟨hlengths, hreports, List.prefix_refl _, List.prefix_refl _⟩
  · rw [if_pos hlength]
    exact ⟨hlengths, hreports, List.prefix_refl _, List.prefix_refl _⟩

/-- Observing checkpoints keeps the ledger within its bounds. -/
theorem observeEach_spec (rest : List Message) {forks : CheckpointLedger}
    (hlengths : forks.seen.length ≤ checkpointLengths)
    (hreports : forks.disagreements.length ≤ checkpointForks) (outcome : PeerOutcome) :
    ((Driver.observeEach forks outcome rest).2.seen.length ≤ checkpointLengths ∧
      (Driver.observeEach forks outcome rest).2.disagreements.length ≤ checkpointForks) ∧
      (forks.seen <+: (Driver.observeEach forks outcome rest).2.seen ∧
        forks.disagreements <+: (Driver.observeEach forks outcome rest).2.disagreements) ∧
      (Driver.observeEach forks outcome rest).1.forwarded = outcome.forwarded := by
  induction rest generalizing forks outcome with
  | nil => exact ⟨⟨hlengths, hreports⟩, ⟨List.prefix_refl _, List.prefix_refl _⟩, rfl⟩
  | cons m rest ih =>
    cases m with
    | checkpoint len treeRoot indexRoot liveNames =>
      obtain ⟨hlengths', hreports', hseen, hkept⟩ := observe_spec hlengths hreports
        { logLength := len, treeRoot := treeRoot, indexRoot := indexRoot, liveNames := liveNames }
      rw [Driver.observeEach]
      dsimp only
      obtain ⟨hbounds, ⟨hseen', hkept'⟩, hforwarded⟩ := ih hlengths' hreports' (if (forks.observe _).1 = .fork then
        { outcome with forks := outcome.forks + 1 } else outcome)
      refine ⟨hbounds, ⟨hseen.trans hseen', hkept.trans hkept'⟩, hforwarded.trans ?_⟩
      split_ifs <;> rfl
    | _ => exact ih hlengths hreports outcome

theorem forwarded_noteReports (reports : List Message) (ledger : EquivocationLedger) (outcome : PeerOutcome) :
    (Driver.noteReports C ledger outcome reports).2.1.forwarded = outcome.forwarded := by
  induction reports generalizing ledger outcome with
  | nil => rfl
  | cons report reports ih =>
    cases report with
    | equivocation a b =>
      rw [Driver.noteReports]
      split
      · rfl
      · exact ih _ _
      · exact ih _ _
    | _ => exact ih ledger outcome

variable {Good : σ → Prop} {since : Node σ}

/-- **A message that was received is recorded**, whatever it is. -/
theorem record_ok (h : DriverOk C d) (hshared : SharedOk C Good since node) (result : ReceiveOutcome) (now : ℕ) :
    DriverOk C (Driver.record C checkpoints d node result now).2.1 ∧
      SharedOk C Good since (Driver.record C checkpoints d node result now).2.2 := by
  obtain ⟨hwhole, hledger, -⟩ := Driver.noteAll_spec hshared.sound (Driver.count d.outcome result) result.equivocations
  have hforwarded : (Driver.noteAll C node.ledger (Driver.count d.outcome result) result.equivocations).2.1.forwarded =
      d.outcome.forwarded := by
    unfold Driver.noteAll
    cases node.ledger with
    | none => rfl
    | some ledger => exact forwarded_noteReports _ _ _
  unfold Driver.record
  dsimp only
  rw [if_neg (by rw [hwhole]; decide)]
  set noted := Driver.noteAll C node.ledger (Driver.count d.outcome result) result.equivocations with hnoted
  set outcome : PeerOutcome :=
    { noted.2.1 with checkpoints := noted.2.1.checkpoints + result.checkpoints.length } with houtcome
  have hobserved : (∀ forks ∈ (Driver.observeAll node.forks outcome result.checkpoints).2,
      forks.seen.length ≤ checkpointLengths ∧ forks.disagreements.length ≤ checkpointForks) ∧
      Recalls node.forks (Driver.observeAll node.forks outcome result.checkpoints).2 ∧
      (Driver.observeAll node.forks outcome result.checkpoints).1.forwarded = d.outcome.forwarded := by
    unfold Driver.observeAll
    cases hforks : node.forks with
    | none => exact ⟨fun forks hmem => (by cases hmem), fun forks hmem => (by cases hmem), hforwarded⟩
    | some forks =>
      obtain ⟨hbounds, hkept, hsame⟩ := observeEach_spec result.checkpoints (hshared.lengths forks hforks)
        (hshared.reports forks hforks) outcome
      refine ⟨?_, ?_, hsame.trans hforwarded⟩
      · intro after hafter
        cases hafter
        exact hbounds
      · intro before hbefore
        cases hbefore
        exact ⟨_, rfl, hkept⟩
  obtain ⟨hbounds, hrecalls, hsame⟩ := hobserved
  -- each part of the record keeps what the connection promises
  refine ⟨?_, ?_⟩
  · apply DriverOk.pump
    apply DriverOk.stateCheckpoint
    apply DriverOk.offerEvidence
    apply DriverOk.sendAll
    exact h.congr rfl rfl id rfl hsame
  · exact ⟨hshared.good, hledger, hshared.remembers.trans (remembers_noteAll hshared.sound _ _),
      hshared.recalls.trans hrecalls, fun forks hforks => (hbounds forks hforks).1,
      fun forks hforks => (hbounds forks hforks).2⟩

/-! ## Any bytes -/

section Bytes

variable (hgood : ∀ s bytes now, Good s → Good (sink.append s bytes now).2)

include hgood

/-- A batch keeps the store good. -/
theorem good_batch (now : ℕ) (recs : List Bytes) (b : Batch σ) (h : Good b.store) :
    Good (recs.foldl (applyOne C sink now) b).store := by
  induction recs generalizing b with
  | nil => exact h
  | cons encoding recs ih =>
    apply ih
    unfold applyOne
    split_ifs
    · exact h
    · have hafter := hgood b.store encoding now h
      dsimp only
      split
      · exact hafter
      · split_ifs <;> exact hafter
      · exact hafter
      · exact hafter

/-- A message keeps the store good. -/
theorem good_receive (p : ReplicationSession) (s : σ) (m : Message) (h : Good s) :
    Good (p.receive C sink s m now).2.2 := by
  unfold receive
  cases m with
  | records from_ recs =>
    dsimp only
    split_ifs
    · unfold onRecords
      split_ifs
      · exact h
      · exact good_batch hgood now recs _ h
    · exact h
  | hello v len root => exact h
  | want from_ count =>
    dsimp only
    split_ifs <;> exact h
  | checkpoint len treeRoot indexRoot liveNames =>
    dsimp only
    split_ifs <;> exact h
  | equivocation a b =>
    dsimp only
    split_ifs <;> exact h

/-- A retry keeps the store good. -/
theorem good_retry (p : ReplicationSession) (s : σ) (h : Good s) : Good (p.retryDeferred C sink s now).2.1 := by
  unfold retryDeferred
  have hall : ∀ (queue : List (Bytes × ℕ)) (b : ReplicationSession × σ × ℕ), Good b.2.1 →
      Good (queue.foldl (retryOne C sink now) b).2.1 := by
    intro queue
    induction queue with
    | nil => exact fun b hb => hb
    | cons held queue ih =>
      intro b hb
      apply ih
      have hafter := hgood b.2.1 held.1 now hb
      unfold retryOne
      dsimp only
      split <;> exact hafter
  exact hall _ _ h

omit hgood in
/-- The slots are only given back by what is received. -/
theorem slots_receive (p : ReplicationSession) (s : σ) (m : Message) :
    (p.receive C sink s m now).2.1.outstanding.length ≤ p.outstanding.length := by
  by_cases hgreeted : p.helloReceived = true
  · have hwindow := (step_window C sink (c := (p, s)) hgreeted (.receive m now)).1
    have hout := congrArg (fun w => w.outstanding.length) hwindow
    change (p.receive C sink s m now).2.1.outstanding.length =
      (moved p.window (.receive m now)).outstanding.length at hout
    rw [hout]
    -- only records free a slot
    cases m with
    | records from_ recs =>
      rw [moved_records]
      split_ifs
      · exact le_rfl
      · unfold Pull.Window.deliver
        split_ifs
        · change (p.outstanding.drop 1).length ≤ _
          rw [List.length_drop]
          exact Nat.sub_le _ _
        · change (p.outstanding.drop 1).length ≤ _
          rw [List.length_drop]
          exact Nat.sub_le _ _
    | _ => exact le_rfl
  · cases m with
    | hello v len root =>
      change (p.onHello v len).outstanding.length ≤ _
      unfold onHello
      split_ifs <;> exact le_rfl
    | _ =>
      unfold receive
      dsimp only
      rw [if_neg hgreeted]

/-- A message leaves the driver and what it shares in order. -/
theorem receive_ok (h : DriverOk C d) (hshared : SharedOk C Good since node) (m : Message) :
    DriverOk C (d.receive C sink checkpoints node m now).2.1 ∧
      SharedOk C Good since (d.receive C sink checkpoints node m now).2.2 := by
  have hstep : Consistent C (step C sink (d.session, node.store) (.receive m now)).1 := consistent_step h.deferred _
  change Consistent C (d.session.receive C sink node.store m now).2.1 at hstep
  have hslots : (d.session.receive C sink node.store m now).2.1.outstanding.length ≤ d.session.outstanding.length :=
    slots_receive d.session node.store m
  have hstore : Good (d.session.receive C sink node.store m now).2.2 :=
    good_receive hgood d.session node.store m hshared.good
  unfold Driver.receive
  rcases hreceive : d.session.receive C sink node.store m now with ⟨result, p, s⟩
  rw [hreceive] at hstep hslots hstore
  have hmine : DriverOk C { d with session := p } := ⟨hstep, hslots.trans h.slots, h.pending, h.unsaid, h.forwarded⟩
  have hours : SharedOk C Good since { node with store := s } :=
    ⟨hstore, hshared.sound, hshared.remembers, hshared.recalls, hshared.lengths, hshared.reports⟩
  exact record_ok hmine hours result now

/-- **The payloads of a chunk**, whatever they are. -/
theorem takeAll_ok (payloads : List Bytes) (h : DriverOk C d) (hshared : SharedOk C Good since node) :
    DriverOk C (d.takeAll C sink checkpoints now node payloads).1 ∧
      SharedOk C Good since (d.takeAll C sink checkpoints now node payloads).2 := by
  induction payloads generalizing d node with
  | nil => exact ⟨h, hshared⟩
  | cons payload payloads ih =>
    rw [Driver.takeAll]
    split
    · exact ih (h.congr rfl rfl id rfl rfl) hshared
    · exact ⟨h.destroy, hshared⟩
    · rename_i m hm
      obtain ⟨hafter, hshared'⟩ : DriverOk C (d.receive C sink checkpoints node m now).2.1 ∧
          SharedOk C Good since (d.receive C sink checkpoints node m now).2.2 := receive_ok hgood h hshared m
      rcases hreceive : d.receive C sink checkpoints node m now with ⟨whole, d', node'⟩
      rw [hreceive] at hafter hshared'
      cases whole with
      | true => exact ih hafter hshared'
      | false => exact ⟨hafter.destroy, hshared'⟩

omit hgood in
/-- What a de-framer waits for is one frame. -/
theorem pending_push {deframer : Deframer} {chunk : Bytes} {payloads : List Bytes}
    (h : (deframer.push chunk).1 = .ok payloads) : (deframer.push chunk).2.pending < prefixBytes + frameBytes := by
  have hspec := push_spec deframer chunk
  rcases hreads : Stream.reads framing (deframer.chunks.flatten ++ chunk) with ⟨out, rest⟩
  cases rest with
  | error e =>
    have hstop := hspec.1 e (by rw [hreads])
    rw [hstop] at h
    cases h
  | ok waiting =>
    have hwait := Stream.cut_of_reads hreads
    obtain ⟨-, hpending⟩ := hspec.2 waiting (by rw [hreads])
    change (deframer.push chunk).2.held < _
    rw [(deframer.push chunk).2.held_eq, hpending]
    change cutFrame waiting = .wait at hwait
    unfold cutFrame at hwait
    dsimp only at hwait
    split_ifs at hwait with hshort hlarge hzero hpart
    · exact hshort.trans_le (Nat.le_add_right _ _)
    · exact hpart.trans_le (Nat.add_le_add_left (Nat.not_lt.1 hlarge) _)

/-- **A chunk of data**, whatever its bytes. -/
theorem onData_ok (h : DriverOk C d) (hshared : SharedOk C Good since node) (chunk : Bytes) :
    DriverOk C (d.onData C sink checkpoints node chunk now).1 ∧
      SharedOk C Good since (d.onData C sink checkpoints node chunk now).2 := by
  unfold Driver.onData
  split_ifs with hdead
  · exact ⟨h, hshared⟩
  · have hpending : ∀ payloads, (d.deframer.push chunk).1 = .ok payloads →
        (d.deframer.push chunk).2.pending < prefixBytes + frameBytes := fun payloads => pending_push
    rcases hpush : d.deframer.push chunk with ⟨out, deframer⟩
    rw [hpush] at hpending
    cases out with
    | error e =>
      refine ⟨⟨h.deferred, h.slots, fun halive => ?_, h.unsaid, h.forwarded⟩, hshared⟩
      cases halive
    | ok payloads =>
      have hmine : DriverOk C { d with deframer := deframer } :=
        ⟨h.deferred, h.slots, fun _ => hpending payloads rfl, h.unsaid, h.forwarded⟩
      exact takeAll_ok hgood payloads hmine hshared

/-- A heartbeat leaves the driver and what it shares in order. -/
theorem heartbeat_ok (h : DriverOk C d) (hshared : SharedOk C Good since node) :
    DriverOk C (d.heartbeat C sink node now).1 ∧ SharedOk C Good since (d.heartbeat C sink node now).2 := by
  unfold Driver.heartbeat
  split_ifs with hdead
  · exact ⟨h, hshared⟩
  · have hstep : Consistent C (step C sink (d.session, node.store) (.retryDeferred now)).1 :=
      consistent_step h.deferred _
    change Consistent C (d.session.retryDeferred C sink node.store now).1 at hstep
    have hstore : Good (d.session.retryDeferred C sink node.store now).2.1 :=
      good_retry hgood d.session node.store hshared.good
    have hwindow := (foldl_retryOne_window C sink now d.session.deferredQueue
      ({ d.session with deferredQueue := [], deferredKeys := [] }, node.store, 0)).1
    have hslots : (d.session.retryDeferred C sink node.store now).1.outstanding = d.session.outstanding :=
      congrArg (fun w => w.outstanding) hwindow
    rcases hretry : d.session.retryDeferred C sink node.store now with ⟨p, s, applied⟩
    rw [hretry] at hstep hstore hslots
    dsimp only at hslots
    have hmine : DriverOk C { d with session := p, outcome :=
      { d.outcome with applied := d.outcome.applied + applied } } :=
      ⟨hstep, (le_of_eq (congrArg List.length hslots)).trans h.slots, h.pending, h.unsaid, h.forwarded⟩
    exact ⟨hmine.pump now, ⟨hstore, hshared.sound, hshared.remembers, hshared.recalls, hshared.lengths,
      hshared.reports⟩⟩

omit hgood in
/-- A connection that opens. -/
theorem drivePeer_ok (node : Node σ) : DriverOk C (Driver.drivePeer sink node) := by
  have hnew : Consistent C (ReplicationSession.run C sink node.store []).1 := consistent_run []
  unfold Driver.drivePeer open_
  dsimp only
  split
  · exact ⟨hnew, Nat.zero_le _, fun _ => by decide, fun _ => rfl, Nat.zero_le _⟩
  · rename_i hello session hopen
    rw [if_neg (by decide)] at hopen
    obtain ⟨-, rfl⟩ := Prod.mk.inj (Option.some.inj hopen)
    apply DriverOk.sendAll
    exact ⟨hnew.congr rfl rfl, Nat.zero_le _, fun _ => by decide, fun _ => rfl, Nat.zero_le _⟩

/-! ## All connections -/

/-- A process in order, since it started. -/
structure ProcessOk (C : Crypto) (Good : σ → Prop) (since : Node σ) (p : Process σ) : Prop where
  shared : SharedOk C Good since p.node
  driven : ∀ c ∈ p.connections, DriverOk C c.driver
  count : p.connections.countP (fun c => !c.closed) = p.peers
  cap : p.peers ≤ connectionsCap

namespace ProcessOk

variable {p : Process σ}

omit hgood in
/-- The count where one entry is put for another. -/
theorem countP_set {connections : List Connection} {i : ℕ} {c : Connection} (c' : Connection)
    (hi : connections[i]? = some c) :
    (connections.set i c').countP (fun c => !c.closed) + (if c.closed then 0 else 1) =
      connections.countP (fun c => !c.closed) + (if c'.closed then 0 else 1) := by
  induction connections generalizing i with
  | nil => cases hi
  | cons first rest ih =>
    cases i with
    | zero =>
      cases hi
      rw [List.set_cons_zero, List.countP_cons, List.countP_cons]
      cases c.closed <;> cases c'.closed <;> simp
    | succ i =>
      have hrest := ih hi
      rw [List.set_cons_succ, List.countP_cons, List.countP_cons]
      omega

omit hgood in
/-- An event of one connection leaves the process in order. -/
theorem drive (h : ProcessOk C Good since p) (i : ℕ) (act : Driver → Node σ → Driver × Node σ)
    (hact : ∀ d node, DriverOk C d → SharedOk C Good since node →
      DriverOk C (act d node).1 ∧ SharedOk C Good since (act d node).2) : ProcessOk C Good since (p.drive i act) := by
  unfold Process.drive
  cases hi : p.connections[i]? with
  | none => exact h
  | some c =>
    dsimp only
    by_cases hclosed : c.closed = true
    · rw [if_pos hclosed]
      exact h
    · rw [if_neg hclosed]
      obtain ⟨hdriver, hnode⟩ := hact c.driver p.node (h.driven c (List.mem_of_getElem? hi)) h.shared
      have hcount := countP_set { c with driver := (act c.driver p.node).1 } hi
      refine ⟨hnode, ?_, ?_, h.cap⟩
      · intro other hother
        rcases List.mem_or_eq_of_mem_set hother with hold | rfl
        · exact h.driven other hold
        · exact hdriver
      · have hbefore := h.count
        dsimp only at hcount ⊢
        omega

omit hgood in
/-- A new connection leaves the process in order. -/
theorem connection (h : ProcessOk C Good since p) : ProcessOk C Good since (p.connection sink) := by
  unfold Process.connection
  split_ifs with hfull
  · exact h
  · refine ⟨h.shared, ?_, ?_, ?_⟩
    · intro c hc
      rcases List.mem_append.1 hc with hold | hnew
      · exact h.driven c hold
      · rw [List.mem_singleton.1 hnew]
        exact drivePeer_ok p.node
    · have hbefore := h.count
      dsimp only
      rw [List.countP_append, hbefore]
      rfl
    · dsimp only
      omega

omit hgood in
/-- A closed connection leaves the process in order. -/
theorem close (h : ProcessOk C Good since p) (i : ℕ) : ProcessOk C Good since (p.close i) := by
  unfold Process.close
  cases hi : p.connections[i]? with
  | none => exact h
  | some c =>
    dsimp only
    by_cases hclosed : c.closed = true
    · rw [if_pos hclosed]
      exact h
    · rw [if_neg hclosed]
      have hcount := countP_set { c with closed := true } hi
      have hbefore := h.count
      have hcap := h.cap
      rw [if_neg hclosed, if_pos rfl] at hcount
      refine ⟨h.shared, ?_, ?_, ?_⟩
      · intro other hother
        rcases List.mem_or_eq_of_mem_set hother with hold | rfl
        · exact h.driven other hold
        · exact h.driven c (List.mem_of_getElem? hi)
      · dsimp only
        omega
      · dsimp only
        omega

include hgood in
/-- **Whatever happens** leaves a process in order. -/
theorem step (h : ProcessOk C Good since p) (occurrence : Occurrence) :
    ProcessOk C Good since (p.step C sink checkpoints occurrence) := by
  cases occurrence with
  | connection => exact h.connection
  | data i chunk now => exact h.drive i _ fun d node hd hnode => onData_ok hgood hd hnode chunk
  | heartbeat i now => exact h.drive i _ fun d node hd hnode => heartbeat_ok hgood hd hnode
  | error i =>
    exact h.drive i (fun d node => ({ d with stream := d.stream.destroy }, node)) fun d node hd hnode =>
      ⟨hd.destroy, hnode⟩
  | close i => exact h.close i

include hgood in
/-- The process is in order after every run. -/
theorem run (h : SharedOk C Good since node) (events : List Occurrence) :
    ProcessOk C Good since (Process.run C sink checkpoints node events) := by
  have hall : ∀ p, ProcessOk C Good since p →
      ProcessOk C Good since (events.foldl (Process.step C sink checkpoints) p) := by
    induction events with
    | nil => exact fun p hp => hp
    | cons occurrence events ih => exact fun p hp => ih _ (hp.step hgood occurrence)
  apply hall
  exact ⟨h, fun c hc => (by cases hc), rfl, Nat.zero_le _⟩

end ProcessOk

end Bytes

/-! ## A process over a registry -/

/-- What peers cannot undo, and cannot exceed. -/
structure Safe (C : Crypto) (since : Node Store) (p : Process Store) : Prop where
  /-- The registry came to be by appends that were admitted, and its log only grows. -/
  registry : ∃ steps, Run C steps p.node.store
  log : since.encodings <+: p.node.encodings
  /-- Whatever is held as evidence is proven, each fact once, within the budgets, and stays. -/
  proven : ∀ ledger ∈ p.node.ledger, ∀ entry ∈ ledger.held,
    verifyEquivocation C entry.evidence.a entry.evidence.b = .ok true
  facts : ∀ ledger ∈ p.node.ledger, ledger.byKey.length = ledger.held.length ∧ ledger.byKey.Nodup
  budgets : ∀ ledger ∈ p.node.ledger, ∀ origin,
    (ledger.held.countP fun entry => entry.origin = origin) ≤ EquivocationLedger.budget origin
  remembers : Remembers since.ledger p.node.ledger
  /-- So does the first checkpoint at each length. -/
  recalls : Recalls since.forks p.node.forks
  lengths : ∀ forks ∈ p.node.forks, forks.seen.length ≤ checkpointLengths
  reports : ∀ forks ∈ p.node.forks, forks.disagreements.length ≤ checkpointForks
  /-- The peers that are counted are those that have not closed. -/
  count : p.connections.countP (fun c => !c.closed) = p.peers
  cap : p.peers ≤ connectionsCap
  deferred : ∀ c ∈ p.connections, c.driver.session.deferredQueue.length ≤ limitDeferred
  slots : ∀ c ∈ p.connections, c.driver.session.outstanding.length ≤ limitOutstandingWants
  pending : ∀ c ∈ p.connections, c.driver.stream.destroyed = false →
    c.driver.deframer.pending < prefixBytes + frameBytes
  forwarded : ∀ c ∈ p.connections, c.driver.outcome.forwarded ≤ perConnection

/-- A ledger in order holds each fact once, within the budgets. -/
theorem sound_ledger {ledger : EquivocationLedger} (h : ledger.Sound C) :
    (ledger.byKey.length = ledger.held.length ∧ ledger.byKey.Nodup) ∧
      ∀ origin, (ledger.held.countP fun entry => entry.origin = origin) ≤ EquivocationLedger.budget origin := by
  obtain ⟨rs, hholds, hkept⟩ := h
  refine ⟨⟨?_, ?_⟩, ?_⟩
  · have hlength := congrArg List.length hholds.keys
    rw [← hholds.held, List.length_map, List.length_map, List.length_map] at hlength
    exact hlength
  · have hnodup := hkept.nodup
    change (rs.map (EquivocationLedger.fact C)).Nodup at hnodup
    rw [← hholds.keys] at hnodup
    exact hnodup.of_map some
  · intro origin
    have hspent := hkept.spent_le origin
    rw [← hholds.held] at hspent
    unfold Journal.spent at hspent
    rw [List.countP_map] at hspent
    exact hspent

/-- **Nothing that peers send harms a process**: whatever bytes arrive on whichever connection, in whatever order,
while connections come and go. -/
theorem process_safe (C : Crypto) (checkpoints : Option (Store → ℕ → Option Checkpoint)) (node : Node Store)
    (events : List Occurrence) (hrun : ∃ steps, Run C steps node.store) (hsound : SoundNode C node)
    (hforks : ∀ forks ∈ node.forks, forks.seen.length ≤ checkpointLengths ∧
      forks.disagreements.length ≤ checkpointForks) :
    Safe C node (Process.run C (sinkOver C (treeRootOf C)) checkpoints node events) := by
  -- an append keeps the registry one that a run of appends leads to, and only lengthens its log
  have hgood : ∀ s bytes now, (∃ steps, Run C steps s) ∧ node.encodings <+: s.entries.map (·.bytes) →
      (∃ steps, Run C steps ((sinkOver C (treeRootOf C)).append s bytes now).2) ∧
        node.encodings <+: ((sinkOver C (treeRootOf C)).append s bytes now).2.entries.map (·.bytes) := by
    rintro s bytes now ⟨⟨steps, hsteps⟩, hlog⟩
    obtain ⟨hafter, hgrows⟩ := registry_append hsteps bytes now
    exact ⟨hafter, hlog.trans hgrows⟩
  have hshared : SharedOk C (fun s => (∃ steps, Run C steps s) ∧ node.encodings <+: s.entries.map (·.bytes)) node
      node := by
    refine ⟨⟨hrun, List.prefix_refl _⟩, hsound, ?_, ?_, fun f hf => (hforks f hf).1, fun f hf => (hforks f hf).2⟩
    · exact fun ledger hledger => ⟨ledger, hledger, List.prefix_refl _⟩
    · exact fun forks hforks => ⟨forks, hforks, List.prefix_refl _, List.prefix_refl _⟩
  have hok : ProcessOk C _ node (Process.run C (sinkOver C (treeRootOf C)) checkpoints node events) :=
    ProcessOk.run hgood hshared events
  exact {
    registry := hok.shared.good.1
    log := hok.shared.good.2
    proven := fun ledger hledger entry hentry => ((hok.shared.sound ledger hledger).held hentry).1
    facts := fun ledger hledger => (sound_ledger (hok.shared.sound ledger hledger)).1
    budgets := fun ledger hledger => (sound_ledger (hok.shared.sound ledger hledger)).2
    remembers := hok.shared.remembers
    recalls := hok.shared.recalls
    lengths := hok.shared.lengths
    reports := hok.shared.reports
    count := hok.count
    cap := hok.cap
    deferred := fun c hc => (hok.driven c hc).deferred.ok.bounded
    slots := fun c hc => (hok.driven c hc).slots
    pending := fun c hc => (hok.driven c hc).pending
    forwarded := fun c hc => (hok.driven c hc).forwarded }

/-- A node with a record, an evidence ledger, and a checkpoint that it has seen. -/
def seasoned : Node Store where
  store := holder.store
  ledger := some .ephemeral
  forks := some { CheckpointLedger.empty with
    seen := [(checkpointInterval, ⟨checkpointInterval, List.replicate 32 1, List.replicate 32 2, 1⟩)] }

/-- A peer that sends a frame of no message and then fails, and one that sends no frame. -/
theorem seasoned_safe : Safe Sample.crypto seasoned
    (Process.run Sample.crypto (sinkOver Sample.crypto (treeRootOf Sample.crypto)) none seasoned
      [.connection, .connection, .data 0 [0, 0, 0, 1, 0xa0] 1700000000, .data 1 [0, 0, 0, 0] 1700000001,
        .heartbeat 0 1700000015, .error 0, .close 1]) := by
  refine process_safe Sample.crypto none seasoned _ holder_ok.run ?_ ?_
  · intro ledger hledger
    cases hledger
    exact EquivocationLedger.sound_ephemeral
  · intro forks hforks
    cases hforks
    exact ⟨by decide, by decide⟩

end VayuWeb.Swarm
