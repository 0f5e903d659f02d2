import VayuWeb.Base.Traffic
import VayuWeb.Proof.Ledger
import VayuWeb.Proof.Session
import VayuWeb.Proof.Travels

/-!
# What a driver sends

Whatever a peer sends, the ledger of the process does not throw, so a message is recorded whole.

* `wants_spec`: the loop of `pump` asks as the window of the session does.
* `record_spec`: after a message a driver sends the session's replies, what it has to say aside, and its requests.
* `takeAll_messages`: payloads of messages that travel are taken as those messages.
-/

namespace VayuWeb

open Bytes

/-- A message that neither opens a connection nor asks nor answers. -/
def Message.Aside : Message → Prop
  | .checkpoint _ _ _ _ | .equivocation _ _ => True
  | _ => False

/-- The ledger holds what it recorded. -/
def EquivocationLedger.Sound (C : Crypto) (ledger : EquivocationLedger) : Prop :=
  ∃ rs, Holds C ledger rs ∧ Journal.Kept (rules C) rs

namespace EquivocationLedger

variable {C : Crypto} {ledger : EquivocationLedger}

/-- A ledger that holds nothing is sound. -/
theorem sound_ephemeral : Sound C ephemeral :=
  ⟨[], ⟨rfl, rfl, fun o => by cases o <;> rfl⟩, .nil⟩

/-- Recording never throws, and keeps a ledger sound. -/
theorem Sound.record (h : Sound C ledger) (evidence : EquivocationEvidence) (origin : EvidenceOrigin) :
    ∃ outcome after, ledger.record C evidence origin = .ok (outcome, after) ∧ Sound C after := by
  obtain ⟨rs, hholds, hkept⟩ := h
  obtain ⟨outcome, after, hrecord, hafter, -, -⟩ := record_spec hholds { origin := origin, evidence := evidence }
  refine ⟨outcome, after, hrecord, _, hafter, ?_⟩
  by_cases hadmits : Journal.Admits (rules C) rs { origin := origin, evidence := evidence }
  · rw [Journal.offer_of_admits hadmits]
    exact hkept.concat hadmits
  · rw [Journal.offer_of_not hadmits]
    exact hkept

/-- What a sound ledger holds is proven, and within the limit of two records. -/
theorem Sound.held (h : Sound C ledger) {entry : LedgerEntry} (hentry : entry ∈ ledger.held) :
    verifyEquivocation C entry.evidence.a entry.evidence.b = .ok true ∧ entry.evidence.a.length ≤ limitRecordBytes ∧
      entry.evidence.b.length ≤ limitRecordBytes := by
  obtain ⟨rs, hholds, hkept⟩ := h
  have hmem : reportOf entry ∈ rs := by
    rw [← hholds.held]
    exact List.mem_map_of_mem hentry
  obtain ⟨k, hk⟩ := hkept.proves _ hmem
  rcases fact_spec C (reportOf entry) with ⟨-, hnone⟩ | ⟨half, hverdict, -, -, hlimit⟩
  · rw [show (rules C).fact (reportOf entry) = none from hnone] at hk
    cases hk
  · exact ⟨hverdict, hlimit.1, hlimit.2⟩

end EquivocationLedger

namespace Swarm.Driver

open ReplicationSession

variable {σ : Type} {C : Crypto} {sink : ReplicationSink σ} {checkpoints : Option (σ → ℕ → Option Checkpoint)}
  {d : Driver} {node : Node σ} {now : ℕ}

/-! ## Requests -/

/-- The requests of these ranges. -/
def requests (ranges : List (ℕ × ℕ)) : List Message := ranges.map fun range => .want range.1 range.2

/-- The loop of `pump` asks as the window does. -/
theorem wants_spec {p : ReplicationSession} (h : p.helloReceived = true) (fuel : ℕ) :
    (wants now fuel p).1 = requests (p.window.asks limitOutstandingWants limitWantCount limitWantDeadlineSeconds now
      fuel).1 ∧
      (wants now fuel p).2.window =
        (p.window.asks limitOutstandingWants limitWantCount limitWantDeadlineSeconds now fuel).2 ∧
      (wants now fuel p).2.helloReceived = true := by
  induction fuel generalizing p with
  | zero => exact ⟨rfl, rfl, h⟩
  | succ fuel ih =>
    obtain ⟨hwant, hwindow, hgreeted⟩ := nextWant_window h now
    rw [wants, Pull.Window.asks]
    rcases hask : p.window.ask limitOutstandingWants limitWantCount limitWantDeadlineSeconds now with ⟨range, w⟩
    rw [hask] at hwant hwindow
    rcases hnext : p.nextWant now with ⟨want, p'⟩
    rw [hnext] at hwant hwindow hgreeted
    dsimp only at hwant hwindow hgreeted
    rw [hwant]
    cases range with
    | none => exact ⟨rfl, hwindow, hgreeted⟩
    | some range =>
      obtain ⟨hrest, hafter, hstill⟩ := ih hgreeted
      rw [hwindow] at hrest hafter
      dsimp only [Option.map_some]
      rw [hrest, hafter]
      exact ⟨rfl, rfl, hstill⟩

/-- What `pump` asks for, and the session after. -/
def pumped (now : ℕ) (p : ReplicationSession) : List Message × ReplicationSession :=
  if p.helloReceived = true then wants now (limitOutstandingWants + 1) p else ([], p)

theorem pump_eq : d.pump now = { d with session := (pumped now d.session).2 }.sendAll (pumped now d.session).1 := by
  unfold pump pumped
  by_cases h : d.session.helloReceived = true
  · rw [if_neg (not_not.2 h), if_pos h]
  · rw [if_pos h, if_neg h]
    rfl

/-! ## What is said aside -/

/-- There is nothing more to say aside. -/
def Said (checkpoints : Option (σ → ℕ → Option Checkpoint)) (d : Driver) (node : Node σ) : Prop :=
  (d.offered = true ∨ node.ledger = none) ∧ (d.stated = true ∨ checkpoints = none)

/-- The evidence that is offered. -/
def evidence (d : Driver) (ledger : Option EquivocationLedger) : List Message :=
  match ledger with
  | none => []
  | some ledger =>
    if d.offered ∨ ¬ d.session.helloReceived then []
    else (ledger.held.take (min ledger.held.length perConnection)).map fun entry =>
      .equivocation entry.evidence.a entry.evidence.b

/-- The checkpoint that is stated. -/
def statement (d : Driver) (mine : Option (Option Checkpoint)) : List Message :=
  match mine with
  | none => []
  | some mine =>
    if d.stated ∨ ¬ d.session.helloReceived then []
    else mine.toList.map fun mine => .checkpoint mine.logLength mine.treeRoot mine.indexRoot mine.liveNames

/-- A driver that sent messages, and nothing else about it changed but its counts and what it has said. -/
structure Spoke (d d' : Driver) (ms : List Message) : Prop where
  stream : d'.stream = d.stream.sendAll ms
  session : d'.session = d.session
  deframer : d'.deframer = d.deframer

/-- The evidence is offered once, after the greeting, and nothing else changes. -/
theorem offerEvidence_spec (ledger : Option EquivocationLedger) :
    Spoke d (d.offerEvidence ledger) (evidence d ledger) ∧ (d.offerEvidence ledger).stated = d.stated ∧
      (d.offered = true → (d.offerEvidence ledger).offered = true) ∧
      (d.session.helloReceived = true → (d.offerEvidence ledger).offered = true ∨ ledger = none) := by
  unfold offerEvidence evidence
  cases ledger with
  | none => exact ⟨⟨rfl, rfl, rfl⟩, rfl, id, fun _ => Or.inr rfl⟩
  | some ledger =>
    by_cases hstop : d.offered = true ∨ ¬ d.session.helloReceived = true
    · dsimp only
      rw [if_pos hstop, if_pos hstop]
      refine ⟨⟨rfl, rfl, rfl⟩, rfl, id, fun hgreeted => ?_⟩
      rcases hstop with hoffered | hnot
      · exact Or.inl hoffered
      · exact absurd hgreeted hnot
    · dsimp only
      rw [if_neg hstop, if_neg hstop]
      exact ⟨⟨rfl, rfl, rfl⟩, rfl, fun _ => rfl, fun _ => Or.inl rfl⟩

/-- The checkpoint is stated once, after the greeting, and nothing else changes. -/
theorem stateCheckpoint_spec (mine : Option (Option Checkpoint)) :
    Spoke d (d.stateCheckpoint mine) (statement d mine) ∧ (d.stateCheckpoint mine).offered = d.offered ∧
      (d.stated = true → (d.stateCheckpoint mine).stated = true) ∧
      (d.session.helloReceived = true → (d.stateCheckpoint mine).stated = true ∨ mine = none) := by
  unfold stateCheckpoint statement
  cases mine with
  | none => exact ⟨⟨rfl, rfl, rfl⟩, rfl, id, fun _ => Or.inr rfl⟩
  | some mine =>
    by_cases hstop : d.stated = true ∨ ¬ d.session.helloReceived = true
    · dsimp only
      rw [if_pos hstop, if_pos hstop]
      refine ⟨⟨rfl, rfl, rfl⟩, rfl, id, fun hgreeted => ?_⟩
      rcases hstop with hstated | hnot
      · exact Or.inl hstated
      · exact absurd hgreeted hnot
    · dsimp only
      rw [if_neg hstop, if_neg hstop]
      cases mine with
      | none => exact ⟨⟨rfl, rfl, rfl⟩, rfl, fun _ => rfl, fun _ => Or.inl rfl⟩
      | some mine => exact ⟨⟨rfl, rfl, rfl⟩, rfl, fun _ => rfl, fun _ => Or.inl rfl⟩

/-! ## One message -/

/-- Noting reports never throws and keeps the ledger sound. -/
theorem noteReports_spec (reports : List Message) {ledger : EquivocationLedger} (h : ledger.Sound C)
    (outcome : PeerOutcome) :
    ∃ after, noteReports C ledger outcome reports = (true, after) ∧ after.2.Sound C := by
  induction reports generalizing ledger outcome with
  | nil => exact ⟨_, rfl, h⟩
  | cons report reports ih =>
    cases report with
    | equivocation a b =>
      obtain ⟨verdict, after, hrecord, hsound⟩ := h.record { a := a, b := b } .received
      rw [noteReports, hrecord]
      cases verdict <;> exact ih hsound _
    | _ => exact ih h outcome

/-- Noting reports never throws, with a ledger or without. -/
theorem noteAll_spec {ledger : Option EquivocationLedger} (h : ∀ l ∈ ledger, l.Sound C) (outcome : PeerOutcome)
    (reports : List Message) :
    (noteAll C ledger outcome reports).1 = true ∧ (∀ l ∈ (noteAll C ledger outcome reports).2.2, l.Sound C) ∧
      ((noteAll C ledger outcome reports).2.2 = none ↔ ledger = none) := by
  unfold noteAll
  cases ledger with
  | none => exact ⟨rfl, fun l hl => (by cases hl), Iff.rfl⟩
  | some ledger =>
    obtain ⟨after, hnoted, hsound⟩ := noteReports_spec reports (h ledger rfl) outcome
    dsimp only
    rw [hnoted]
    refine ⟨rfl, ?_, by simp⟩
    intro l hl
    cases hl
    exact hsound

/-- The ledger of a process, if it has one, is sound. -/
def SoundNode (C : Crypto) (node : Node σ) : Prop := ∀ ledger ∈ node.ledger, ledger.Sound C

/-- Every checkpoint that would be stated travels. -/
def Statable (checkpoints : Option (σ → ℕ → Option Checkpoint)) : Prop :=
  ∀ mine ∈ checkpoints, ∀ s now, ∀ c ∈ mine s now,
    (Message.checkpoint c.logLength c.treeRoot c.indexRoot c.liveNames).Travels

/-- What is said aside while a message is recorded: a report for each entry the budget allows, and a checkpoint. -/
structure Asides (checkpoints : Option (σ → ℕ → Option Checkpoint)) (d : Driver) (node : Node σ)
    (asides : List Message) :
    Prop where
  aside : ∀ m ∈ asides, m.Aside
  travels : ∀ m ∈ asides, m.Travels
  few : asides.length ≤ perConnection + 1
  silent : d.session.helloReceived = false → asides = []
  said : Said checkpoints d node → asides = []

/-- What an end says besides the records. -/
theorem asides_spec {ledger : Option EquivocationLedger} (hledger : ∀ l ∈ ledger, l.Sound C)
    (hstatable : Statable checkpoints)
    (hnone : node.ledger = none → ledger = none) :
    Asides checkpoints d node (evidence d ledger ++ statement d (checkpoints.map fun mine => mine node.store now)) := by
  have hevidence : ∀ m ∈ evidence d ledger, m.Aside ∧ m.Travels := by
    intro m hm
    unfold evidence at hm
    cases ledger with
    | none => cases hm
    | some ledger =>
      dsimp only at hm
      split_ifs at hm with hstop
      · cases hm
      · obtain ⟨entry, hentry, rfl⟩ := List.mem_map.1 hm
        obtain ⟨-, ha, hb⟩ := (hledger ledger rfl).held (List.mem_of_mem_take hentry)
        exact ⟨trivial, Message.travels_equivocation ha hb⟩
  have hstatement : ∀ m ∈ statement d (checkpoints.map fun mine => mine node.store now), m.Aside ∧ m.Travels := by
    intro m hm
    unfold statement at hm
    cases hmine : checkpoints with
    | none =>
      rw [hmine] at hm
      cases hm
    | some mine =>
      rw [hmine] at hm
      dsimp only [Option.map_some] at hm
      split_ifs at hm with hstop
      · cases hm
      · obtain ⟨c, hc, rfl⟩ := List.mem_map.1 hm
        exact ⟨trivial, hstatable mine hmine node.store now c (Option.mem_toList.1 hc)⟩
  have hfew : (evidence d ledger).length ≤ perConnection := by
    unfold evidence
    cases ledger with
    | none => exact Nat.zero_le _
    | some ledger =>
      dsimp only
      split_ifs
      · exact Nat.zero_le _
      · rw [List.length_map, List.length_take]
        omega
  have hone : (statement d (checkpoints.map fun mine => mine node.store now)).length ≤ 1 := by
    unfold statement
    cases checkpoints with
    | none => exact Nat.zero_le _
    | some mine =>
      dsimp only [Option.map_some]
      split_ifs
      · exact Nat.zero_le _
      · cases mine node.store now with
        | none => exact Nat.zero_le _
        | some c => exact le_rfl
  constructor
  case aside =>
    intro m hm
    rcases List.mem_append.1 hm with hm | hm
    · exact (hevidence m hm).1
    · exact (hstatement m hm).1
  case travels =>
    intro m hm
    rcases List.mem_append.1 hm with hm | hm
    · exact (hevidence m hm).2
    · exact (hstatement m hm).2
  case few =>
    rw [List.length_append]
    omega
  -- neither is said before the greeting
  case silent =>
    intro hsilent
    have hfirst : evidence d ledger = [] := by
      unfold evidence
      cases ledger with
      | none => rfl
      | some ledger => exact if_pos (Or.inr (by rw [hsilent]; decide))
    have hsecond : statement d (checkpoints.map fun mine => mine node.store now) = [] := by
      unfold statement
      cases checkpoints with
      | none => rfl
      | some mine => exact if_pos (Or.inr (by rw [hsilent]; decide))
    rw [hfirst, hsecond]
    rfl
  -- and neither a second time on one connection
  case said =>
    rintro ⟨hoffered, hstated⟩
    have hfirst : evidence d ledger = [] := by
      unfold evidence
      rcases hoffered with hoffered | hno
      · cases ledger with
        | none => rfl
        | some ledger => exact if_pos (Or.inl hoffered)
      · rw [hnone hno]
    have hsecond : statement d (checkpoints.map fun mine => mine node.store now) = [] := by
      unfold statement
      rcases hstated with hstated | hno
      · cases checkpoints with
        | none => rfl
        | some mine => exact if_pos (Or.inl hstated)
      · rw [hno]
        rfl
    rw [hfirst, hsecond]
    rfl

/-- What is left once a result is recorded: the session has asked for all it may, and all is sent. -/
structure Recorded (C : Crypto) (checkpoints : Option (σ → ℕ → Option Checkpoint)) (d : Driver) (node : Node σ)
    (replies : List Message) (now : ℕ) (d' : Driver) (node' : Node σ) (asides : List Message) : Prop where
  store : node'.store = node.store
  sound : SoundNode C node'
  ledger : node'.ledger = none ↔ node.ledger = none
  aside : Asides checkpoints d node asides
  stream : d'.stream = d.stream.sendAll (replies ++ asides ++ (pumped now d.session).1)
  session : d'.session = (pumped now d.session).2
  deframer : d'.deframer = d.deframer
  said : d.session.helloReceived = true ∨ Said checkpoints d node → Said checkpoints d' node'

theorem sendAll_append (stream : PeerStream) (ms more : List Message) :
    stream.sendAll (ms ++ more) = (stream.sendAll ms).sendAll more := List.foldl_append

/-- **A message is recorded whole**, and answered. -/
theorem record_spec (hsound : SoundNode C node) (hstatable : Statable checkpoints) (result : ReceiveOutcome) (now : ℕ) :
    ∃ d' node' asides, record C checkpoints d node result now = (true, d', node') ∧
      Recorded C checkpoints d node result.replies now d' node' asides := by
  obtain ⟨hwhole, hledger, hnone⟩ := noteAll_spec hsound (count d.outcome result) result.equivocations
  unfold record
  dsimp only
  rw [if_neg (by rw [hwhole]; decide)]
  set noted := noteAll C node.ledger (count d.outcome result) result.equivocations with hnoted
  set observed := observeAll node.forks
    { noted.2.1 with checkpoints := noted.2.1.checkpoints + result.checkpoints.length }
    result.checkpoints with hobserved
  -- replies, then evidence, then the checkpoint, then the pump: the order of the source's `record`
  set d₁ : Driver := { d with outcome := observed.1 }.sendAll result.replies with hd₁
  obtain ⟨hoffer, hoffered, hstays, hgreets⟩ := offerEvidence_spec (d := d₁) noted.2.2
  obtain ⟨hstate, hstated, hstays', hgreets'⟩ :=
    stateCheckpoint_spec (d := d₁.offerEvidence noted.2.2) (checkpoints.map fun mine => mine node.store now)
  have hsession : ((d₁.offerEvidence noted.2.2).stateCheckpoint
    (checkpoints.map fun mine => mine node.store now)).session =
      d.session := by
    rw [hstate.session, hoffer.session]
    rfl
  have hevidence : evidence d₁ noted.2.2 = evidence d noted.2.2 := rfl
  have hstatement : statement (d₁.offerEvidence noted.2.2) (checkpoints.map fun mine => mine node.store now) =
      statement d (checkpoints.map fun mine => mine node.store now) := by
    unfold statement
    rw [hoffered, hoffer.session]
    rfl
  rw [pump_eq, hsession]
  refine ⟨_, _, evidence d noted.2.2 ++ statement d (checkpoints.map fun mine => mine node.store now), rfl, ?_⟩
  constructor
  case store => rfl
  case sound => exact hledger
  case ledger => exact hnone
  case aside => exact asides_spec hledger hstatable hnone.2
  case stream =>
    change (PeerStream.sendAll _ _) = _
    rw [hstate.stream, hoffer.stream, hevidence, hstatement]
    change (((d.stream.sendAll result.replies).sendAll _).sendAll _).sendAll _ = _
    rw [sendAll_append, sendAll_append, sendAll_append]
  case session => rfl
  case deframer =>
    change ((d₁.offerEvidence noted.2.2).stateCheckpoint _).deframer = _
    rw [hstate.deframer, hoffer.deframer]
    rfl
  -- each aside was said now, was said before, or there is nothing of the kind to say
  case said =>
    intro hbefore
    have hgreeted : d₁.session.helloReceived = d.session.helloReceived := rfl
    constructor
    · change ((d₁.offerEvidence noted.2.2).stateCheckpoint _).offered = true ∨ noted.2.2 = none
      rw [hstated]
      rcases hbefore with h | ⟨h | h, -⟩
      · exact hgreets h
      · exact Or.inl (hstays h)
      · exact Or.inr (hnone.2 h)
    · change ((d₁.offerEvidence noted.2.2).stateCheckpoint _).stated = true ∨ checkpoints = none
      rcases hbefore with h | ⟨-, h | h⟩
      · rcases hgreets' (by rw [hoffer.session]; exact h) with h | h
        · exact Or.inl h
        · exact Or.inr (Option.map_eq_none_iff.1 h)
      · exact Or.inl (hstays' (by rw [hoffered]; exact h))
      · exact Or.inr h

end Swarm.Driver

end VayuWeb
