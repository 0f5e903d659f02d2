import VayuWeb.Proof.Driver
import VayuWeb.Spec.Link

/-!
# One direction of a connection

What one end has asked of the other, and what it has been sent, read off its session and the messages on their way
(`Pulls`). The session's window and these messages are the traffic of a reader whose requests are answered in order.

* `pulls_greet`, `pulls_deliver`: what the reader's end does with a HELLO and with RECORDS.
* `pulls_answer`: what the other end does with a WANT.
* `Pulls.carry`: all else leaves the direction as it is.
-/

namespace VayuWeb

open Bytes

namespace Message

/-- The range that a request asks for. -/
def asked : Message → Option (ℕ × ℕ)
  | .want from_ count => some (from_, count)
  | _ => none

/-- Where a reply starts, and how many records it brings. -/
def brought : Message → Option (ℕ × ℕ)
  | .records from_ recs => some (from_, recs.length)
  | _ => none

theorem Aside.asked {m : Message} (h : m.Aside) : m.asked = none := by
  cases m with
  | want from_ count => cases h
  | _ => rfl

theorem Aside.brought {m : Message} (h : m.Aside) : m.brought = none := by
  cases m with
  | records from_ recs => cases h
  | _ => rfl

end Message

namespace Swarm

open ReplicationSession
open Driver (requests pumped)

/-- The ranges asked for, in their order. -/
def asks (ms : List Message) : List (ℕ × ℕ) := ms.filterMap Message.asked

/-- What is brought, in its order. -/
def brings (ms : List Message) : List (ℕ × ℕ) := ms.filterMap Message.brought

@[simp] theorem asks_append (ms more : List Message) : asks (ms ++ more) = asks ms ++ asks more := List.filterMap_append

@[simp] theorem brings_append (ms more : List Message) : brings (ms ++ more) = brings ms ++ brings more :=
  List.filterMap_append

@[simp] theorem asks_requests (ranges : List (ℕ × ℕ)) : asks (requests ranges) = ranges := by
  induction ranges with
  | nil => rfl
  | cons range ranges ih =>
    change range :: asks (requests ranges) = _
    rw [ih]

@[simp] theorem brings_requests (ranges : List (ℕ × ℕ)) : brings (requests ranges) = [] := by
  induction ranges with
  | nil => rfl
  | cons range ranges ih => exact ih

/-- Asides ask for nothing. -/
theorem asks_asides {ms : List Message} (h : ∀ m ∈ ms, m.Aside) : asks ms = [] :=
  List.filterMap_eq_nil_iff.2 fun m hm => (h m hm).asked

/-- Asides bring nothing. -/
theorem brings_asides {ms : List Message} (h : ∀ m ∈ ms, m.Aside) : brings ms = [] :=
  List.filterMap_eq_nil_iff.2 fun m hm => (h m hm).brought

/-! ## The registry behind a sink -/

/-- A sink over a log that only grows, with all that was ever offered to it. -/
structure Keeps {σ : Type} (sink : ReplicationSink σ) (Good : σ → Prop) (log offered : σ → List Bytes) : Prop where
  serves : ∀ {s}, Good s → Serves sink s (log s)
  sizes : ∀ {s}, Good s → ∀ e ∈ log s, e.length ≤ limitRecordBytes
  root : ∀ {s}, Good s → (log s).length < 2 ^ 32 → (sink.treeRoot s).length = 32
  good : ∀ {s}, Good s → ∀ bytes now, Good (sink.append s bytes now).2
  grows : ∀ {s}, Good s → ∀ bytes now, log s <+: log (sink.append s bytes now).2
  offers : ∀ s bytes now, offered (sink.append s bytes now).2 = offered s ++ [bytes]

section Batches

variable {σ : Type} {C : Crypto} {sink : ReplicationSink σ} {Good : σ → Prop} {log offered : σ → List Bytes} {now : ℕ}

/-- The batch that a RECORDS starts with. -/
def emptyBatch (p : ReplicationSession) (store : σ) : Batch σ :=
  { session := p, store := store, applied := 0, rejected := 0, deferred := 0, duplicates := 0 }

/-- A record that is not too long reaches the store. -/
theorem store_applyOne {b : Batch σ} {encoding : Bytes} (h : encoding.length ≤ limitRecordBytes) :
    (applyOne C sink now b encoding).store = (sink.append b.store encoding now).2 := by
  unfold applyOne
  rw [if_neg (Nat.not_lt.2 h)]
  dsimp only
  split
  · rfl
  · split_ifs <;> rfl
  · rfl
  · rfl

/-- **A batch is offered record by record**, and the log only grows. -/
theorem batch_offered (hkeeps : Keeps sink Good log offered) (now : ℕ) {recs : List Bytes}
    (hsizes : ∀ r ∈ recs, r.length ≤ limitRecordBytes) (b : Batch σ) (hgood : Good b.store) :
    Good (recs.foldl (applyOne C sink now) b).store ∧
      log b.store <+: log (recs.foldl (applyOne C sink now) b).store ∧
      offered (recs.foldl (applyOne C sink now) b).store = offered b.store ++ recs := by
  induction recs generalizing b with
  | nil => exact ⟨hgood, List.prefix_refl _, (List.append_nil _).symm⟩
  | cons encoding recs ih =>
    have hstore : (applyOne C sink now b encoding).store = (sink.append b.store encoding now).2 :=
      store_applyOne (hsizes encoding List.mem_cons_self)
    have hnext : Good (applyOne C sink now b encoding).store := by
      rw [hstore]
      exact hkeeps.good hgood encoding now
    obtain ⟨hafter, hgrown, hoffered⟩ := ih (fun r hr => hsizes r (List.mem_cons_of_mem encoding hr)) _ hnext
    rw [List.foldl_cons]
    refine ⟨hafter, ?_, ?_⟩
    · rw [hstore] at hgrown
      exact (hkeeps.grows hgood encoding now).trans hgrown
    · rw [hoffered, hstore, hkeeps.offers, List.append_assoc, List.singleton_append]

/-- Records that were held are offered again. -/
theorem retry_offered (hkeeps : Keeps sink Good log offered) (now : ℕ) (queue : List (Bytes × ℕ))
    (b : ReplicationSession × σ × ℕ) (hgood : Good b.2.1) :
    Good (queue.foldl (retryOne C sink now) b).2.1 ∧ log b.2.1 <+: log (queue.foldl (retryOne C sink now) b).2.1 ∧
      offered b.2.1 <+: offered (queue.foldl (retryOne C sink now) b).2.1 := by
  induction queue generalizing b with
  | nil => exact ⟨hgood, List.prefix_refl _, List.prefix_refl _⟩
  | cons held queue ih =>
    have hstore : (retryOne C sink now b held).2.1 = (sink.append b.2.1 held.1 now).2 := by
      unfold retryOne
      dsimp only
      split <;> rfl
    have hnext : Good (retryOne C sink now b held).2.1 := by
      rw [hstore]
      exact hkeeps.good hgood held.1 now
    obtain ⟨hafter, hgrown, hoffered⟩ := ih _ hnext
    rw [hstore] at hgrown hoffered
    rw [List.foldl_cons]
    refine ⟨hafter, (hkeeps.grows hgood held.1 now).trans hgrown, List.IsPrefix.trans ?_ hoffered⟩
    rw [hkeeps.offers]
    exact List.prefix_append _ _

end Batches

/-! ## The direction -/

/-- The window of a session with the messages on their way. -/
def traffic (p : ReplicationSession) (out back : List Message) : Pull.Traffic :=
  { window := p.window, requests := asks out, replies := brings back }

/-- **One end pulls the log of the other.** `start` is that log when the connection opened and `log` what it is now;
`out` is on its way to the other end, `back` from it. -/
structure Pulls (since : ℕ) (start log : List Bytes) (p : ReplicationSession) (offered : List Bytes)
    (out back : List Message) : Prop where
  grown : start <+: log
  /-- Until the greeting has arrived nothing is asked for, and nothing brought. -/
  fresh : p.helloReceived = false → p.window = ungreeted ∧ asks out = [] ∧
    ∃ root rest, back = .hello protocolVersion start.length root :: rest ∧ brings rest = []
  length : p.helloReceived = true → p.window.length = start.length
  traffic : p.helloReceived = true → (traffic p out back).Ok limitOutstandingWants limitWantCount since
  slices : ∀ from_ recs, .records from_ recs ∈ back →
    recs <+: log.drop from_ ∧ recs.length ≤ limitRecordsPerBatch ∧ ∀ r ∈ recs, r.length ≤ limitRecordBytes
  /-- What was fetched has been offered to the log here, in its order. -/
  offered : (start.take p.window.fetched).Sublist offered

/-- What this direction may still cost: three for a request, one for a reply, and what a greeting may lead to. -/
def due (start : List Bytes) (p : ReplicationSession) (out back : List Message) : ℕ :=
  if p.helloReceived = true then
    32 * (traffic p out back).left limitOutstandingWants + 3 * (asks out).length + (brings back).length
  else 256 * start.length + 386

variable {since now : ℕ} {start log log' offered offered' : List Bytes} {p p' : ReplicationSession}
  {out out' back back' sent : List Message}

namespace Pulls

/-- **What leaves the requests and the replies alone leaves the direction as it is.** -/
theorem carry (h : Pulls since start log p offered out back) (p' : ReplicationSession) (out' back' : List Message)
    (hwindow : p'.window = p.window)
    (hgreeted : p'.helloReceived = p.helloReceived) (hlog : log <+: log') (hoffered : offered.Sublist offered')
    (hasks : asks out' = asks out) (hbrings : brings back' = brings back)
    (hback : ∀ m ∈ back', m ∈ back ∨ m.brought = none)
    (hfresh : p.helloReceived = false → ∃ more, back' = back ++ more) :
    Pulls since start log' p' offered' out' back' ∧ due start p' out' back' = due start p out back := by
  have htraffic : Swarm.traffic p' out' back' = Swarm.traffic p out back := by
    unfold Swarm.traffic
    rw [hwindow, hasks, hbrings]
  constructor
  · constructor
    case grown => exact h.grown.trans hlog
    case fresh =>
      intro hnot
      rw [hgreeted] at hnot
      obtain ⟨hw, hnone, root, rest, hhead, hrest⟩ := h.fresh hnot
      obtain ⟨more, hmore⟩ := hfresh hnot
      refine ⟨hwindow.trans hw, hasks.trans hnone, root, rest ++ more, ?_, ?_⟩
      · rw [hmore, hhead, List.cons_append]
      -- every request was made of the greeting, so what came after it brings nothing
      · rw [hmore, brings_append, hhead] at hbrings
        have hmorenil : brings more = [] := by
          have hlength := congrArg List.length hbrings
          rw [List.length_append] at hlength
          exact List.eq_nil_of_length_eq_zero (by omega)
        rw [brings_append, hrest, hmorenil]
        rfl
    case length =>
      intro hyes
      rw [hwindow]
      exact h.length (hgreeted ▸ hyes)
    case traffic =>
      intro hyes
      rw [htraffic]
      exact h.traffic (hgreeted ▸ hyes)
    case slices =>
      intro from_ recs hmem
      rcases hback _ hmem with hold | hnone
      · obtain ⟨hslice, hrest⟩ := h.slices from_ recs hold
        exact ⟨hslice.trans (hlog.drop from_), hrest⟩
      · cases hnone
    case offered =>
      rw [hwindow]
      exact h.offered.trans hoffered
  · unfold due
    rw [hgreeted, htraffic, hasks, hbrings]

/-! ### The end that answers -/

/-- **A request that is answered** with records of the log from where it starts. -/
theorem answer {from_ count : ℕ} {recs : List Bytes}
    (h : Pulls since start log p offered (.want from_ count :: out) back)
    (hgreeted : p.helloReceived = true) (hne : recs ≠ []) (hslice : recs <+: log.drop from_)
    (hcount : recs.length ≤ limitRecordsPerBatch) (hsizes : ∀ r ∈ recs, r.length ≤ limitRecordBytes)
    (hbrings : brings back' = brings back ++ [(from_, recs.length)])
    (hback : ∀ m ∈ back', m ∈ back ∨ m = .records from_ recs ∨ m.brought = none) :
    Pulls since start log p offered out back' ∧ due start p out back' + 2 =
      due start p (.want from_ count :: out) back := by
  have hanswer : Swarm.traffic p out back' = (Swarm.traffic p (.want from_ count :: out) back).answer recs.length := by
    unfold Swarm.traffic Pull.Traffic.answer
    rw [hbrings]
    rfl
  constructor
  · constructor
    case grown => exact h.grown
    case fresh =>
      intro hnot
      rw [hgreeted] at hnot
      cases hnot
    case length => exact h.length
    case traffic =>
      intro _
      rw [hanswer]
      exact Pull.Traffic.ok_answer (h.traffic hgreeted) (List.length_pos_iff.2 hne)
    -- the answer is the slice that was asked for, and the rest was there before
    case slices =>
      intro from' recs' hmem
      rcases hback _ hmem with hold | hnew | hnone
      · exact h.slices from' recs' hold
      · injection hnew with hfrom hrecs
        subst hfrom hrecs
        exact ⟨hslice, hcount, hsizes⟩
      · cases hnone
    case offered => exact h.offered
  · have hasks : (asks (.want from_ count :: out)).length = (asks out).length + 1 := rfl
    unfold due
    rw [if_pos hgreeted, if_pos hgreeted, hanswer, Pull.Traffic.left_answer, hasks, hbrings, List.length_append,
      List.length_singleton]
    omega

/-! ### The end that reads -/

/-- A session asks as its window does. -/
theorem pumped_window (now : ℕ) (hgreeted : p.helloReceived = true) :
    (pumped now p).1 = requests (p.window.asks limitOutstandingWants limitWantCount limitWantDeadlineSeconds now
        (limitOutstandingWants + 1)).1 ∧
      (pumped now p).2.window = (p.window.asks limitOutstandingWants limitWantCount limitWantDeadlineSeconds now
        (limitOutstandingWants + 1)).2 ∧ (pumped now p).2.helloReceived = true := by
  unfold pumped
  rw [if_pos hgreeted]
  exact Driver.wants_spec hgreeted _

/-- A session that has asked for all it may asks for nothing. -/
theorem pumped_sated (now : ℕ) (h : p.helloReceived = true →
      p.window.Timely limitWantDeadlineSeconds now ∧ p.window.Sated limitOutstandingWants) :
    (pumped now p).1 = [] ∧ (pumped now p).2.window = p.window ∧
      (pumped now p).2.helloReceived = p.helloReceived := by
  by_cases hgreeted : p.helloReceived = true
  · obtain ⟨htimely, hsated⟩ := h hgreeted
    obtain ⟨hasked, hwindow, hstill⟩ := pumped_window now hgreeted
    have hnothing : p.window.asks limitOutstandingWants limitWantCount limitWantDeadlineSeconds now
        (limitOutstandingWants + 1) = ([], p.window) := by
      rw [Pull.Window.asks, Pull.ask_of_sated htimely hsated]
    rw [hnothing] at hasked hwindow
    exact ⟨hasked, hwindow, hstill.trans hgreeted.symm⟩
  · unfold pumped
    rw [if_neg hgreeted]
    exact ⟨rfl, rfl, rfl⟩

/-- What is fetched goes on where it stood. -/
theorem take_deliver {from_ : ℕ} {recs : List Bytes} {w : Pull.Window} (hgrown : start <+: log)
    (hslice : recs <+: log.drop from_) (hoffered : (start.take w.fetched).Sublist offered) :
    (start.take (w.deliver from_ recs.length).fetched).Sublist (offered ++ recs) := by
  unfold Pull.Window.deliver
  by_cases hfrom : from_ ≤ w.fetched
  · rw [if_pos hfrom]
    change (start.take (max w.fetched (from_ + recs.length))).Sublist _
    obtain ⟨k, hk⟩ : ∃ k, max w.fetched (from_ + recs.length) = w.fetched + k :=
      ⟨_, (Nat.add_sub_of_le (le_max_left _ _)).symm⟩
    rw [hk, List.take_add]
    apply hoffered.append
    -- what is new of the log at the start is the end of the records
    have hends : recs.drop (w.fetched - from_) <+: log.drop w.fetched := by
      have hdrop := hslice.drop (w.fetched - from_)
      rw [List.drop_drop, Nat.add_sub_of_le hfrom] at hdrop
      exact hdrop
    have hstarts : (start.drop w.fetched).take k <+: log.drop w.fetched :=
      (List.take_prefix _ _).trans (hgrown.drop _)
    have hshort : ((start.drop w.fetched).take k).length ≤ (recs.drop (w.fetched - from_)).length := by
      rw [List.length_take, List.length_drop, List.length_drop]
      omega
    exact (List.prefix_of_prefix_length_le hstarts hends hshort).sublist.trans (List.drop_sublist _ _)
  · rw [if_neg hfrom]
    exact hoffered.trans (List.sublist_append_left _ _)

/-- **Records that arrive** are offered, and what may be asked for is asked for. -/
theorem deliver {from_ : ℕ} {recs : List Bytes} (h : Pulls since start log p offered out (.records from_ recs :: back))
    (hgreeted : p.helloReceived = true) (hwindow : p'.window = p.window.deliver from_ recs.length)
    (hgreeted' : p'.helloReceived = true) (hsince : since ≤ now) (hnow : now < since + limitWantDeadlineSeconds)
    (hasks : asks out' = asks out ++ asks (pumped now p').1) :
    Pulls since start log (pumped now p').2 (offered ++ recs) out' back ∧
      due start (pumped now p').2 out' back + (pumped now p').1.length + 1 ≤
        due start p out (.records from_ recs :: back) := by
  obtain ⟨hasked, hafter, hstill⟩ := pumped_window now hgreeted'
  have hok := h.traffic hgreeted
  have hreplies : (Swarm.traffic p out (.records from_ recs :: back)).replies = (from_, recs.length) :: brings back :=
    rfl
  have htraffic : Swarm.traffic (pumped now p').2 out' back =
      (Swarm.traffic p out (.records from_ recs :: back)).deliver limitOutstandingWants limitWantCount
        limitWantDeadlineSeconds now := by
    unfold Pull.Traffic.deliver
    rw [hreplies]
    unfold Swarm.traffic
    dsimp only
    rw [hasks, hasked, asks_requests, hafter, hwindow]
  have hdelivered := Pull.Traffic.ok_deliver hok (by decide) (by decide) hsince hnow
  have hasksspec := Pull.Traffic.asked_arrived hok (r := (from_, recs.length)) (by decide) hnow (by decide)
  constructor
  · constructor
    case grown => exact h.grown
    case fresh =>
      intro hnot
      rw [hstill] at hnot
      cases hnot
    case length =>
      intro _
      rw [hafter, hwindow]
      exact (hasksspec.length.trans Pull.Traffic.length_arrived).trans (h.length hgreeted)
    case traffic =>
      intro _
      rw [htraffic]
      exact hdelivered
    case slices => exact fun from' recs' hmem => h.slices from' recs' (List.mem_cons_of_mem _ hmem)
    -- what the reply brought lies at the cursor or is put by until the cursor reaches it
    case offered =>
      have hfetched : (pumped now p').2.window.fetched = (p.window.deliver from_ recs.length).fetched := by
        rw [hafter, hwindow]
        exact hasksspec.fetched
      rw [hfetched]
      exact take_deliver h.grown (h.slices from_ recs List.mem_cons_self).1 h.offered
  · have hless := Pull.Traffic.left_deliver_lt hok (by decide) (by decide) hsince hnow hreplies
    have hfree := (Pull.Traffic.length_outstanding_arrived hok hreplies).1
    have hslots := hok.bounded
    have hcount := hasksspec.bounded (by omega)
    rw [hasksspec.outstanding, List.length_append, List.length_replicate] at hcount
    have hlength : (asks (pumped now p').1).length = (pumped now p').1.length := by
      rw [hasked, asks_requests]
      exact (List.length_map _).symm
    have hsame : (asks (pumped now p').1).length = (((Swarm.traffic p out (.records from_ recs :: back)).arrived
        (from_, recs.length)).asks limitOutstandingWants limitWantCount limitWantDeadlineSeconds now
          (limitOutstandingWants + 1)).1.length := by
      rw [hasked, asks_requests, hwindow]
      rfl
    have hbrings : (brings (.records from_ recs :: back)).length = (brings back).length + 1 := rfl
    unfold due
    rw [if_pos hstill, if_pos hgreeted, htraffic, hasks, List.length_append, hbrings]
    unfold limitOutstandingWants at hcount hless hsame ⊢
    omega

/-- **The greeting that arrives** says how long the log is, and what may be asked for is asked for. -/
theorem greet {v len : ℕ} {root : Bytes} (h : Pulls since start log p offered out (.hello v len root :: back))
    (now : ℕ) (out' : List Message) (hnot : p.helloReceived = false) (hsince : since ≤ now)
    (hasks : asks out' = asks out ++ asks (pumped now (p.onHello v len)).1) :
    (p.onHello v len).helloReceived = true ∧ Pulls since start log (pumped now (p.onHello v len)).2 offered out' back ∧
      due start (pumped now (p.onHello v len)).2 out' back + (pumped now (p.onHello v len)).1.length + 66 ≤
        due start p out (.hello v len root :: back) := by
  obtain ⟨hfresh, hnone, root', rest, hhead, hrest⟩ := h.fresh hnot
  injection hhead with hhello hback
  injection hhello with hv hlen hroot
  subst hv hlen hback
  have hhello : p.onHello protocolVersion start.length =
      { p with helloReceived := true, remoteLength := start.length } := by
    unfold onHello
    rw [if_neg (by rw [hnot]; decide), if_neg (not_not.2 rfl)]
  set p' := p.onHello protocolVersion start.length with hp'
  have hgreeted : p'.helloReceived = true := by rw [hhello]
  have hwindow : p'.window = { ungreeted with length := start.length } := by
    rw [hhello, ← hfresh]
    rfl
  -- the whole log is missing, so the window asks as it would at the start
  obtain ⟨hasked, hafter, hstill⟩ := pumped_window now hgreeted
  have htimely : p'.window.Timely limitWantDeadlineSeconds now := by
    intro at_ hat
    rw [hwindow] at hat
    cases hat
  have hasksspec : Pull.Asked limitOutstandingWants limitWantCount now p'.window
      (p'.window.asks limitOutstandingWants limitWantCount limitWantDeadlineSeconds now (limitOutstandingWants + 1)).1
      (p'.window.asks limitOutstandingWants limitWantCount limitWantDeadlineSeconds now
        (limitOutstandingWants + 1)).2 :=
    Pull.asks_spec (by decide) (by decide) htimely (by omega)
  have htraffic : Swarm.traffic (pumped now p').2 out' back =
      { window := (p'.window.asks limitOutstandingWants limitWantCount limitWantDeadlineSeconds now
          (limitOutstandingWants + 1)).2
        requests := (p'.window.asks limitOutstandingWants limitWantCount limitWantDeadlineSeconds now
          (limitOutstandingWants + 1)).1
        replies := [] } := by
    unfold Swarm.traffic
    rw [hasks, hnone, hasked, asks_requests, hafter, hrest, List.nil_append]
  have hstart : (Swarm.traffic (pumped now p').2 out' back).Ok limitOutstandingWants limitWantCount since := by
    rw [htraffic]
    apply Pull.Traffic.ok_start (by decide) (by decide) hsince (by decide)
    · rw [hwindow]
      rfl
    · rw [hwindow]
      rfl
  have hlength : (pumped now p').2.window.length = start.length := by
    rw [hafter, hasksspec.length, hwindow]
  refine ⟨hgreeted, ?_, ?_⟩
  · constructor
    case grown => exact h.grown
    case fresh =>
      intro hstop
      rw [hstill] at hstop
      cases hstop
    case length => exact fun _ => hlength
    case traffic => exact fun _ => hstart
    case slices => exact fun from_ recs hmem => h.slices from_ recs (List.mem_cons_of_mem _ hmem)
    case offered =>
      rw [hafter, hasksspec.fetched, hwindow]
      exact List.nil_sublist _
  -- what is due afterwards, and the requests sent, stay below what the greeting was worth
  · have hleft := Pull.Traffic.left_le hstart
    change _ ≤ (pumped now p').2.window.length * limitOutstandingWants + limitOutstandingWants + 1 at hleft
    rw [hlength] at hleft
    have hbounded := hasksspec.bounded (by rw [hwindow]; exact Nat.zero_le _)
    rw [hasksspec.outstanding, List.length_append, List.length_replicate] at hbounded
    have hcount : (pumped now p').1.length = ((p'.window.asks limitOutstandingWants limitWantCount
        limitWantDeadlineSeconds now (limitOutstandingWants + 1)).1).length := by
      rw [hasked]
      exact List.length_map _
    have hasks' : (asks out').length = (pumped now p').1.length := by
      rw [hasks, hnone, hasked, asks_requests, List.nil_append]
      exact (List.length_map _).symm
    unfold due
    rw [if_pos hstill, if_neg (by rw [hnot]; decide), hasks', hrest, List.length_nil]
    unfold limitOutstandingWants at hleft hbounded hcount ⊢
    omega

end Pulls

end Swarm

end VayuWeb
