import VayuWeb.Proof.Dialogue

/-!
# Two ends, message by message

Each end pulls the log of the other, over one wire (`Talk`). Whatever message an end takes next, it takes whole, answers
with messages that travel, and stays in step with the other end.

* `onWant_spec`: what a request within the log is answered with.
* `talk_receive`: one message.
* `talk_takeAll`: the messages of a chunk.
* `talk_heartbeat`, `talk_elsewhere`: what happens between messages.
-/

namespace VayuWeb.Swarm

open Bytes
open ReplicationSession
open Driver (pumped requests Said SoundNode Statable)

variable {σ : Type} {C : Crypto} {sink : ReplicationSink σ}
  {checkpoints mine theirs : Option (σ → ℕ → Option Checkpoint)}
  {Good : σ → Prop} {log offered : σ → List Bytes} {s : σ}

/-- **A request within the log is answered** with a slice of it, within the limits of a message. -/
theorem onWant_spec (hkeeps : Keeps sink Good log offered) (hgood : Good s) {from_ count : ℕ} (hpos : 0 < count)
    (hle : count ≤ limitWantCount) (hfrom : from_ < (log s).length) :
    ∃ recs, onWant sink s from_ count = { ReceiveOutcome.empty with replies := [.records from_ recs] } ∧ recs ≠ [] ∧
      recs <+: (log s).drop from_ ∧ recs.length ≤ limitRecordsPerBatch ∧ (∀ r ∈ recs, r.length ≤ limitRecordBytes) ∧
      recordsCost recs ≤ limitMessageBytes - recordsEnvelopeBytes := by
  have hfits : ∀ e ∈ log s, e.length + 3 ≤ limitMessageBytes - recordsEnvelopeBytes := by
    intro e he
    have hsize := hkeeps.sizes hgood e he
    unfold limitRecordBytes at hsize
    unfold limitMessageBytes recordsEnvelopeBytes
    omega
  obtain ⟨n, hn, hserve, hcost, hstop⟩ := serve_slice (hkeeps.serves hgood) hfits count from_ [] (Nat.zero_le _)
  rw [List.nil_append] at hserve hcost
  -- the answer is never empty, since the request starts below the end of the log
  have hsome : n ≠ 0 := by
    intro hzero
    rcases hstop hzero with hnil | hzero | hend
    · exact hnil rfl
    · omega
    · omega
  have hlength : 0 < (((log s).drop from_).take n).length := by
    rw [List.length_take, List.length_drop]
    omega
  refine ⟨((log s).drop from_).take n, ?_, List.ne_nil_of_length_pos hlength, List.take_prefix _ _, ?_, ?_, hcost⟩
  · unfold onWant
    rw [if_neg (by omega)]
    have hloop : serve sink s (limitMessageBytes - recordsEnvelopeBytes) count from_ [] 0 =
        ((log s).drop from_).take n :=
      hserve
    dsimp only
    rw [hloop, if_neg (by omega)]
  · rw [List.length_take]
    unfold limitWantCount at hle
    unfold limitRecordsPerBatch
    omega
  · intro r hr
    exact hkeeps.sizes hgood r (List.mem_of_mem_drop (List.mem_of_mem_take hr))

/-- The messages that neither ask nor bring. -/
def others (ms : List Message) : ℕ := ms.countP fun m => m.asked.isNone && m.brought.isNone

theorem others_append (ms more : List Message) : others (ms ++ more) = others ms + others more := List.countP_append

theorem others_requests (ranges : List (ℕ × ℕ)) : others (requests ranges) = 0 := by
  induction ranges with
  | nil => rfl
  | cons range ranges ih => exact ih

theorem others_le (ms : List Message) : others ms ≤ ms.length := List.countP_le_length

section Ends

variable (C checkpoints Good)

/-- An end with a registry and a ledger in order and a stream that is not destroyed; once greeted, it has said what it
has to say. -/
structure EndOk (e : End σ) : Prop where
  good : Good e.node.store
  sound : SoundNode C e.node
  alive : e.driver.stream.destroyed = false
  said : e.driver.session.helloReceived = true → Said checkpoints e.driver e.node

variable (mine theirs log offered)

/-- **Two ends in step**: `out` is on its way from here, `back` to here. -/
structure Talk (since : ℕ) (startHere startThere : List Bytes) (here there : End σ) (out back : List Message) :
    Prop where
  one : EndOk C mine Good here
  other : EndOk C theirs Good there
  pulls : Pulls since startThere (log there.node.store) here.driver.session (offered here.node.store) out back
  pulled : Pulls since startHere (log here.node.store) there.driver.session (offered there.node.store) back out
  travels : ∀ m ∈ out, m.Travels
  arrives : ∀ m ∈ back, m.Travels

end Ends

/-- What the two directions may still cost, and the messages aside of both. -/
def cost (startHere startThere : List Bytes) (here there : End σ) (out back : List Message) : ℕ :=
  due startThere here.driver.session out back + due startHere there.driver.session back out + others out + others back

/-- What a conversation costs does not depend on which end is named first. -/
theorem cost_swap (startHere startThere : List Bytes) (here there : End σ) (out back : List Message) :
    cost startThere startHere there here back out = cost startHere startThere here there out back := by
  unfold cost
  omega

variable {since now : ℕ} {startHere startThere : List Bytes} {here there : End σ} {m : Message}
  {out back : List Message}

namespace Talk

/-- A conversation is one from either end. -/
theorem swap (h : Talk C mine theirs Good log offered since startHere startThere here there out back) :
    Talk C theirs mine Good log offered since startThere startHere there here back out :=
  ⟨h.other, h.one, h.pulled, h.pulls, h.arrives, h.travels⟩

end Talk

/-- What `taken` messages were answered with: the messages that were sent, and what is left to pay for. -/
structure Answered (C : Crypto) (mine theirs : Option (σ → ℕ → Option Checkpoint)) (Good : σ → Prop)
    (log offered : σ → List Bytes) (since : ℕ) (startHere startThere : List Bytes) (here there : End σ)
    (out back : List Message)
    (budget taken : ℕ) (here' : End σ) (sent : List Message) : Prop where
  talk : Talk C mine theirs Good log offered since startHere startThere here' there (out ++ sent) back
  written : here'.driver.stream.written = here.driver.stream.written ++ wire sent
  deframer : here'.driver.deframer = here.driver.deframer
  cost : cost startHere startThere here' there (out ++ sent) back + sent.length + taken ≤ budget

/-- Every request that a session makes is of the log it was greeted with. -/
theorem travels_pumped {p p' : ReplicationSession} {start log offered : List Bytes} {out' : List Message}
    (hlength : start.length < 2 ^ 32) (hpulls : Pulls since start log p' offered out' back) (hp : p' = (pumped now p).2)
    (hasks : ∀ r ∈ asks (pumped now p).1, r ∈ asks out') : ∀ m ∈ (pumped now p).1, m.Travels := by
  intro m hm
  by_cases hgreeted : p.helloReceived = true
  · obtain ⟨hasked, -, hstill⟩ := Pulls.pumped_window now hgreeted
    rw [hasked, asks_requests] at hasks
    rw [hasked] at hm
    obtain ⟨range, hrange, rfl⟩ := List.mem_map.1 hm
    have hgreeted' : p'.helloReceived = true := by rw [hp, hstill]
    have hbound := ((hpulls.traffic hgreeted').asked range (hasks range hrange)).2.2
    change range.1 + range.2 ≤ p'.window.length at hbound
    rw [hpulls.length hgreeted'] at hbound
    apply Message.travels_want
    · unfold maxSafeInteger
      omega
    · unfold maxSafeInteger
      omega
  · unfold pumped at hm
    rw [if_neg hgreeted] at hm
    cases hm

/-- **A message is taken**, given what it does to each direction. -/
theorem talk_of_receive (hstatable : Statable mine) (hthere : startThere.length < 2 ^ 32)
    (h : Talk C mine theirs Good log offered since startHere startThere here there out (m :: back))
    {result : ReceiveOutcome} {p : ReplicationSession} {store : σ}
    (hreceive : here.driver.session.receive C sink here.node.store m now = (result, p, store)) (hgood : Good store)
    (hreplies : ∀ reply ∈ result.replies, reply.Travels) (hnone : asks result.replies = [] ∧ others result.replies = 0)
    {a b : ℕ}
    (hpulls : ∀ out', asks out' = asks out ++ asks (pumped now p).1 →
      Pulls since startThere (log there.node.store) (pumped now p).2 (offered store) out' back ∧
        due startThere (pumped now p).2 out' back + (pumped now p).1.length + a ≤
          due startThere here.driver.session out (m :: back))
    (hpulled : ∀ sent, brings sent = brings result.replies →
      (∀ reply ∈ sent, reply ∈ result.replies ∨ reply.brought = none) →
      Pulls since startHere (log store) there.driver.session (offered there.node.store) back (out ++ sent) ∧
        due startHere there.driver.session back (out ++ sent) + b =
          due startHere there.driver.session (m :: back) out)
    (hbudget : result.replies.length + (if here.driver.session.helloReceived = true then 0 else 66) + 1 ≤
      a + b + others [m]) :
    ∃ d node sent, here.driver.receive C sink mine here.node m now = (true, d, node) ∧
      Answered C mine theirs Good log offered since startHere startThere here there out back
        (cost startHere startThere here there out (m :: back)) 1 { here with driver := d, node := node } sent := by
  obtain ⟨d, node, asides, hrecord, hrecorded⟩ := Driver.record_spec (d := { here.driver with session := p })
    (show SoundNode C { here.node with store := store } from h.one.sound) hstatable result now
  have hstream : (here.driver.stream.sendAll (result.replies ++ asides ++ (pumped now p).1)) = d.stream :=
    hrecorded.stream.symm
  have hasides := hrecorded.aside
  have hasks : asks (out ++ (result.replies ++ asides ++ (pumped now p).1)) = asks out ++ asks (pumped now p).1 := by
    rw [asks_append, asks_append, asks_append, hnone.1, asks_asides hasides.aside, List.nil_append, List.nil_append]
  -- `pump` sends requests only, and none before the greeting
  have hbringspumped : brings (pumped now p).1 = [] ∧ others (pumped now p).1 = 0 := by
    by_cases hyes : p.helloReceived = true
    · rw [(Pulls.pumped_window now hyes).1]
      exact ⟨brings_requests _, others_requests _⟩
    · unfold pumped
      rw [if_neg hyes]
      exact ⟨rfl, rfl⟩
  have hbrings : brings (result.replies ++ asides ++ (pumped now p).1) = brings result.replies := by
    rw [brings_append, brings_append, brings_asides hasides.aside, hbringspumped.1, List.append_nil, List.append_nil]
  obtain ⟨hpull, hdue⟩ := hpulls _ hasks
  obtain ⟨hother, hdue'⟩ := hpulled _ hbrings (by
    intro reply hreply
    rcases List.mem_append.1 hreply with hreply | hpumped
    · rcases List.mem_append.1 hreply with hreply | haside
      · exact Or.inl hreply
      · exact Or.inr (hasides.aside reply haside).brought
    · exact Or.inr (List.filterMap_eq_nil_iff.1 hbringspumped.1 reply hpumped))
  -- what is sent is replies, then asides, then requests, and each kind has its own reason to travel
  have hsent : ∀ x ∈ result.replies ++ asides ++ (pumped now p).1, x.Travels := by
    intro x hx
    rcases List.mem_append.1 hx with hx | hpumped
    · rcases List.mem_append.1 hx with hx | haside
      · exact hreplies x hx
      · exact hasides.travels x haside
    · refine travels_pumped hthere hpull rfl ?_ x hpumped
      intro r hr
      rw [hasks]
      exact List.mem_append_right _ hr
  have hwritten := sendAll_of_travels h.one.alive hsent
  rw [hstream] at hwritten
  have hreceived : here.driver.receive C sink mine here.node m now = (true, d, node) := by
    unfold Driver.receive
    rw [hreceive]
    exact hrecord
  refine ⟨d, node, result.replies ++ asides ++ (pumped now p).1, hreceived, ?_⟩
  constructor
  case talk =>
    constructor
    case one =>
      constructor
      case good =>
        change Good node.store
        rw [hrecorded.store]
        exact hgood
      case sound => exact hrecorded.sound
      case alive =>
        change d.stream.destroyed = false
        rw [hwritten]
      case said =>
        intro hyes
        apply hrecorded.said
        by_cases hp : p.helloReceived = true
        · exact Or.inl hp
        · -- a session that is not greeted is not greeted by its requests
          exfalso
          change d.session.helloReceived = true at hyes
          rw [hrecorded.session] at hyes
          unfold pumped at hyes
          rw [if_neg hp] at hyes
          exact hp hyes
    case other => exact h.other
    case pulls =>
      change Pulls since startThere _ d.session (offered node.store) _ _
      rw [hrecorded.session, hrecorded.store]
      exact hpull
    case pulled =>
      change Pulls since startHere (log node.store) _ _ _ _
      rw [hrecorded.store]
      exact hother
    case travels =>
      intro x hx
      rcases List.mem_append.1 hx with hold | hnew
      · exact h.travels x hold
      · exact hsent x hnew
    case arrives => exact fun x hx => h.arrives x (List.mem_cons_of_mem m hx)
  case written =>
    change d.stream.written = _
    rw [hwritten]
  case deframer => exact hrecorded.deframer
  -- evidence and checkpoint go out once, at the greeting, and are paid for out of the 66 set aside
  case cost =>
    have haside : asides.length ≤ if here.driver.session.helloReceived = true then 0 else 33 := by
      by_cases hyes : here.driver.session.helloReceived = true
      · rw [if_pos hyes, hasides.said (h.one.said hyes)]
        exact le_rfl
      · rw [if_neg hyes]
        have hfew := hasides.few
        unfold perConnection at hfew
        exact hfew
    have hothers := others_le asides
    unfold cost
    change due startThere d.session _ _ + _ + _ + _ + _ + 1 ≤ _
    have hsession : d.session = (pumped now p).2 := hrecorded.session
    rw [hsession, others_append, others_append, others_append, hnone.2, hbringspumped.2, List.length_append,
      List.length_append]
    have hmessage : others (m :: back) = others [m] + others back := others_append [m] back
    rw [hmessage]
    split_ifs at haside hbudget with hyes
    · omega
    · omega

/-- What a message that asks for nothing and brings nothing leaves of the other direction. -/
theorem pulled_carry (h : Talk C mine theirs Good log offered since startHere startThere here there out (m :: back))
    (hm : m.asked = none) {store : σ} (hgrows : log here.node.store <+: log store) (sent : List Message)
    (hbrings : brings sent = []) :
    Pulls since startHere (log store) there.driver.session (offered there.node.store) back (out ++ sent) ∧
      due startHere there.driver.session back (out ++ sent) = due startHere there.driver.session (m :: back) out := by
  have hasks : asks back = asks (m :: back) := by
    unfold asks
    rw [List.filterMap_cons, hm]
  apply h.pulled.carry there.driver.session back (out ++ sent) rfl rfl hgrows (List.Sublist.refl _) hasks
  · rw [brings_append, hbrings, List.append_nil]
  · intro x hx
    rcases List.mem_append.1 hx with hold | hnew
    · exact Or.inl hold
    · exact Or.inr (List.filterMap_eq_nil_iff.1 hbrings x hnew)
  · exact fun _ => ⟨sent, rfl⟩

/-- What a message that brings nothing leaves of this direction, once it is greeted. -/
theorem pulls_carry (h : Talk C mine theirs Good log offered since startHere startThere here there out (m :: back))
    (hm : m.brought = none) (hgreeted : here.driver.session.helloReceived = true)
    (hnow : now < since + limitWantDeadlineSeconds) {out' : List Message}
    (hasks : asks out' = asks out ++ asks (pumped now here.driver.session).1) :
    Pulls since startThere (log there.node.store) (pumped now here.driver.session).2
      (offered here.node.store) out' back ∧
      due startThere (pumped now here.driver.session).2 out' back + (pumped now here.driver.session).1.length =
        due startThere here.driver.session out (m :: back) := by
  have hok := h.pulls.traffic hgreeted
  obtain ⟨hnone, hwindow, hstill⟩ := Pulls.pumped_sated now fun _ => ⟨Pull.Traffic.timely hok hnow, hok.sated⟩
  rw [hnone] at hasks ⊢
  have hbrings : brings back = brings (m :: back) := by
    unfold brings
    rw [List.filterMap_cons, hm]
  have hcarry := h.pulls.carry (pumped now here.driver.session).2 out' back hwindow hstill
    (List.prefix_refl _) (List.Sublist.refl (offered here.node.store)) (hasks.trans (List.append_nil _)) hbrings
    (fun x hx => Or.inl (List.mem_cons_of_mem m hx)) fun hnot => absurd hgreeted (by rw [hnot]; decide)
  exact hcarry

/-- **One message is taken whole**, and answered; the ends stay in step, and come closer to the end. -/
theorem talk_receive (hkeeps : Keeps sink Good log offered) (hstatable : Statable mine)
    (hhere : startHere.length < 2 ^ 32) (hthere : startThere.length < 2 ^ 32)
    (h : Talk C mine theirs Good log offered since startHere startThere here there out (m :: back))
    (hsince : since ≤ now)
    (hnow : now < since + limitWantDeadlineSeconds) :
    ∃ d node sent, here.driver.receive C sink mine here.node m now = (true, d, node) ∧
      Answered C mine theirs Good log offered since startHere startThere here there out back
        (cost startHere startThere here there out (m :: back)) 1 { here with driver := d, node := node } sent := by
  have hgood := h.one.good
  by_cases hgreeted : here.driver.session.helloReceived = true
  · -- a message that neither asks nor brings only sets off what is aside
    have haside : ∀ result : ReceiveOutcome, m.asked = none → m.brought = none → result.replies = [] →
        here.driver.session.receive C sink here.node.store m now = (result, here.driver.session, here.node.store) →
        ∃ d node sent, here.driver.receive C sink mine here.node m now = (true, d, node) ∧
          Answered C mine theirs Good log offered since startHere startThere here there out back
            (cost startHere startThere here there out (m :: back)) 1 { here with driver := d, node := node } sent := by
      intro result hasked hbrought hreplies hreceive
      apply talk_of_receive (a := 0) (b := 0) hstatable hthere h hreceive hgood
      · rw [hreplies]
        exact fun reply hreply => absurd hreply List.not_mem_nil
      · rw [hreplies]
        exact ⟨rfl, rfl⟩
      · intro out' hasks
        obtain ⟨hpulls, hdue⟩ := pulls_carry h hbrought hgreeted hnow hasks
        exact ⟨hpulls, hdue.le⟩
      · intro sent hbrings _
        rw [hreplies] at hbrings
        exact pulled_carry h hasked (List.prefix_refl _) sent hbrings
      · have hone : others [m] = 1 := by
          unfold others
          rw [List.countP_singleton, hasked, hbrought]
          rfl
        rw [hreplies, if_pos hgreeted, hone, List.length_nil]
    cases m with
    | hello v len root =>
      apply haside .empty rfl rfl rfl
      unfold receive onHello
      dsimp only
      rw [if_pos hgreeted]
    | checkpoint len treeRoot indexRoot liveNames =>
      apply haside { ReceiveOutcome.empty with checkpoints := [.checkpoint len treeRoot indexRoot liveNames] } rfl rfl
        rfl
      unfold receive
      dsimp only
      rw [if_pos hgreeted]
    | equivocation a b =>
      apply haside (onEquivocation C a b) rfl rfl
      · unfold onEquivocation
        split <;> rfl
      · unfold receive
        dsimp only
        rw [if_pos hgreeted]
    | records from_ recs =>
      obtain ⟨-, hcount, hsizes⟩ := h.pulls.slices from_ recs List.mem_cons_self
      obtain ⟨hafter, hgrows, hoffers⟩ := batch_offered (C := C) hkeeps now hsizes
        (emptyBatch here.driver.session here.node.store) hgood
      have hwindow := onRecords_window C sink (p := here.driver.session) (s := here.node.store) from_ recs now
      have hreceive : here.driver.session.receive C sink here.node.store (.records from_ recs) now =
          onRecords C sink here.driver.session here.node.store from_ recs now := by
        unfold receive
        dsimp only
        rw [if_pos hgreeted]
      rw [if_neg (Nat.not_lt.2 hcount)] at hwindow
      have hstore : (onRecords C sink here.driver.session here.node.store from_ recs now).2.2 =
          (recs.foldl (applyOne C sink now) (emptyBatch here.driver.session here.node.store)).store := by
        unfold onRecords
        rw [if_neg (Nat.not_lt.2 hcount)]
        rfl
      have hreplies : (onRecords C sink here.driver.session here.node.store from_ recs now).1.replies = [] := by
        unfold onRecords
        rw [if_neg (Nat.not_lt.2 hcount)]
        rfl
      rcases hresult : onRecords C sink here.driver.session here.node.store from_ recs now with ⟨result, p, store⟩
      rw [hresult] at hwindow hreceive hstore hreplies
      dsimp only at hwindow hstore hreplies
      apply talk_of_receive (a := 1) (b := 0) hstatable hthere h hreceive (by rw [hstore]; exact hafter)
      · rw [hreplies]
        exact fun reply hreply => absurd hreply List.not_mem_nil
      · rw [hreplies]
        exact ⟨rfl, rfl⟩
      · intro out' hasks
        rw [hstore, hoffers]
        exact h.pulls.deliver hgreeted hwindow.1 (hwindow.2.trans hgreeted) hsince hnow hasks
      · intro sent hbrings _
        rw [hreplies] at hbrings
        rw [hstore]
        exact pulled_carry h rfl hgrows sent hbrings
      · rw [hreplies, if_pos hgreeted]
        exact Nat.le_add_right _ _
    | want from_ count =>
      -- the other end asks only once it is greeted, and only for what it was told of
      have hother : there.driver.session.helloReceived = true := by
        by_contra hnot
        have hnone := (h.pulled.fresh (Bool.eq_false_iff.2 hnot)).2.1
        cases hnone
      obtain ⟨hpos, hle, hend⟩ := (h.pulled.traffic hother).asked (from_, count) List.mem_cons_self
      change from_ + count ≤ there.driver.session.window.length at hend
      rw [h.pulled.length hother] at hend
      have hgrown := h.pulled.grown.length_le
      obtain ⟨recs, hwant, hne, hslice, hcount, hsizes, hcost⟩ := onWant_spec hkeeps hgood hpos hle
        (show from_ < (log here.node.store).length by omega)
      have hreceive : here.driver.session.receive C sink here.node.store (.want from_ count) now =
          ({ ReceiveOutcome.empty with replies := [.records from_ recs] }, here.driver.session, here.node.store) := by
        unfold receive
        dsimp only
        rw [if_pos hgreeted, hwant]
      apply talk_of_receive (a := 0) (b := 2) hstatable hthere h hreceive hgood
      · intro reply hreply
        rw [List.mem_singleton.1 hreply]
        refine Message.travels_records ?_ hcount hsizes hcost
        unfold maxSafeInteger
        omega
      · exact ⟨rfl, rfl⟩
      · intro out' hasks
        obtain ⟨hpulls, hdue⟩ := pulls_carry h rfl hgreeted hnow hasks
        exact ⟨hpulls, hdue.le⟩
      · intro sent hbrings hmem
        apply h.pulled.answer hother hne hslice hcount hsizes
        · rw [brings_append, hbrings]
          rfl
        · intro x hx
          rcases List.mem_append.1 hx with hold | hnew
          · exact Or.inl hold
          · rcases hmem x hnew with hreply | hnone
            · exact Or.inr (Or.inl (List.mem_singleton.1 hreply))
            · exact Or.inr (Or.inr hnone)
      · rw [if_pos hgreeted]
        exact Nat.le_add_right _ _
  · -- before the greeting nothing else arrives
    rw [Bool.not_eq_true] at hgreeted
    obtain ⟨-, -, root, rest, hhead, -⟩ := h.pulls.fresh hgreeted
    injection hhead with hm hrest
    subst hm hrest
    have hreceive : here.driver.session.receive C sink here.node.store (.hello protocolVersion startThere.length root)
      now =
        (.empty, here.driver.session.onHello protocolVersion startThere.length, here.node.store) := rfl
    have hgreet := fun out' hasks => h.pulls.greet now out' hgreeted hsince hasks
    apply talk_of_receive (a := 66) (b := 0) hstatable hthere h hreceive hgood
    · exact fun reply hreply => absurd hreply List.not_mem_nil
    · exact ⟨rfl, rfl⟩
    · exact fun out' hasks => (hgreet out' hasks).2
    · exact fun sent hbrings _ => pulled_carry h rfl (List.prefix_refl _) sent hbrings
    · rw [if_neg (by rw [hgreeted]; decide)]
      exact le_rfl

/-- **The messages of a chunk are taken in turn.** -/
theorem talk_takeAll (hkeeps : Keeps sink Good log offered) (hstatable : Statable mine)
    (hhere : startHere.length < 2 ^ 32) (hthere : startThere.length < 2 ^ 32) (hsince : since ≤ now)
    (hnow : now < since + limitWantDeadlineSeconds) (ms : List Message)
    (h : Talk C mine theirs Good log offered since startHere startThere here there out (ms ++ back)) :
    ∃ d node sent, here.driver.takeAll C sink mine now here.node (ms.map Message.encoding) = (d, node) ∧
      Answered C mine theirs Good log offered since startHere startThere here there out back
        (cost startHere startThere here there out (ms ++ back)) ms.length
        { here with driver := d, node := node } sent := by
  induction ms generalizing here out with
  | nil =>
    refine ⟨here.driver, here.node, [], rfl, ?_⟩
    constructor
    case talk =>
      rw [List.append_nil]
      exact h
    case written => exact (List.append_nil _).symm
    case deframer => rfl
    case cost =>
      rw [List.append_nil]
      exact le_rfl
  | cons m ms ih =>
    rw [List.cons_append] at h ⊢
    obtain ⟨d, node, sent, hreceive, hanswered⟩ := talk_receive hkeeps hstatable hhere hthere h hsince hnow
    obtain ⟨d', node', more, htake, hrest⟩ := ih hanswered.talk
    have hdecoded := (h.arrives m List.mem_cons_self).decoded
    refine ⟨d', node', sent ++ more, ?_, ?_⟩
    · rw [List.map_cons, Driver.takeAll]
      simp only [hdecoded, hreceive]
      exact htake
    · constructor
      case talk =>
        have htalk := hrest.talk
        rw [List.append_assoc] at htalk
        exact htalk
      case written =>
        have hfirst := hanswered.written
        have hlater := hrest.written
        dsimp only at hfirst hlater ⊢
        rw [hlater, hfirst, wire_append, List.append_assoc]
      case deframer => exact hrest.deframer.trans hanswered.deframer
      case cost =>
        have hfirst := hanswered.cost
        have hlater := hrest.cost
        rw [List.append_assoc] at hlater
        rw [List.length_append, List.length_cons]
        dsimp only at hfirst hlater ⊢
        omega

/-! ## Between messages -/

/-- The heartbeat offers what was held, and asks for nothing. -/
theorem talk_heartbeat (hkeeps : Keeps sink Good log offered)
    (h : Talk C mine theirs Good log offered since startHere startThere here there out back)
    (hnow : now < since + limitWantDeadlineSeconds) :
    ∃ d node, here.driver.heartbeat C sink here.node now = (d, node) ∧ d.stream = here.driver.stream ∧
      d.deframer = here.driver.deframer ∧
      Talk C mine theirs Good log offered since startHere startThere { here with driver := d, node := node } there out
        back ∧
      cost startHere startThere { here with driver := d, node := node } there out back =
        cost startHere startThere here there out back := by
  obtain ⟨hgood, hgrows, hoffers⟩ := retry_offered (C := C) hkeeps now here.driver.session.deferredQueue
    ({ here.driver.session with deferredQueue := [], deferredKeys := [] }, here.node.store, 0) h.one.good
  obtain ⟨hwindow, hgreeted⟩ := foldl_retryOne_window C sink now here.driver.session.deferredQueue
    ({ here.driver.session with deferredQueue := [], deferredKeys := [] }, here.node.store, 0)
  rcases hretry : here.driver.session.retryDeferred C sink here.node.store now with ⟨p, store, applied⟩
  unfold retryDeferred at hretry
  rw [hretry] at hgood hgrows hoffers hwindow hgreeted
  dsimp only at hgood hgrows hoffers hwindow hgreeted
  change p.window = here.driver.session.window at hwindow
  -- a retry does not free a slot, so the pump that follows it asks for nothing
  obtain ⟨hnone, hwindow', hgreeted'⟩ := Pulls.pumped_sated now (p := p) (by
    intro hyes
    have hok := h.pulls.traffic (hgreeted.symm.trans hyes)
    rw [hwindow]
    exact ⟨Pull.Traffic.timely hok hnow, hok.sated⟩)
  obtain ⟨hpulls, hdue⟩ := h.pulls.carry (pumped now p).2 out back (hwindow'.trans hwindow)
    (hgreeted'.trans hgreeted) (List.prefix_refl _) hoffers.sublist rfl rfl (fun x hx => Or.inl hx)
    fun _ => ⟨[], (List.append_nil back).symm⟩
  obtain ⟨hpulled, hdue'⟩ := h.pulled.carry there.driver.session back out rfl rfl hgrows
    (List.Sublist.refl _) rfl rfl (fun x hx => Or.inl hx) fun _ => ⟨[], (List.append_nil out).symm⟩
  set d : Driver := { here.driver with session := p, outcome := { here.driver.outcome with
    applied := here.driver.outcome.applied + applied } } with hd
  have hpump : d.pump now = { d with session := (pumped now p).2 } := by
    rw [Driver.pump_eq, hd]
    dsimp only
    rw [hnone]
    rfl
  refine ⟨d.pump now, { here.node with store := store }, ?_, ?_, ?_, ?_, ?_⟩
  · unfold Driver.heartbeat
    rw [if_neg (by rw [h.one.alive]; decide)]
    unfold retryDeferred
    simp only [hretry]
    rfl
  · rw [hpump]
  · rw [hpump]
  · rw [hpump]
    constructor
    case one => exact ⟨hgood, h.one.sound, h.one.alive, fun hyes =>
      h.one.said (hgreeted.symm.trans (hgreeted'.symm.trans hyes))⟩
    case other => exact h.other
    case pulls => exact hpulls
    case pulled => exact hpulled
    case travels => exact h.travels
    case arrives => exact h.arrives
  · rw [hpump]
    unfold cost
    dsimp only
    rw [hdue, hdue']

/-- What the process does elsewhere keeps its registry and its ledger in order. -/
theorem elsewhere_spec (hkeeps : Keeps sink Good log offered) {before node : Node σ} (hgood : Good before.store)
    (hsound : SoundNode C before) (helse : Link.Elsewhere C sink before node) :
    Good node.store ∧ log before.store <+: log node.store ∧ offered before.store <+: offered node.store ∧
      SoundNode C node ∧ (before.ledger = none → node.ledger = none) := by
  cases helse with
  | append bytes now =>
    refine ⟨hkeeps.good hgood bytes now, hkeeps.grows hgood bytes now, ?_, hsound, id⟩
    rw [hkeeps.offers]
    exact List.prefix_append _ _
  | record ledger after evidence origin outcome hledger hrecord =>
    refine ⟨hgood, List.prefix_refl _, List.prefix_refl _, ?_, fun hnone => ?_⟩
    · intro l hl
      cases hl
      obtain ⟨outcome', after', hrecord', hafter⟩ := (hsound ledger hledger).record evidence origin
      rw [hrecord] at hrecord'
      cases hrecord'
      exact hafter
    · rw [hledger] at hnone
      cases hnone
  | observe forks checkpoint hforks => exact ⟨hgood, List.prefix_refl _, List.prefix_refl _, hsound, id⟩

/-- **What the process does elsewhere** leaves the conversation as it is. -/
theorem talk_elsewhere (hkeeps : Keeps sink Good log offered)
    (h : Talk C mine theirs Good log offered since startHere startThere here there out back) {node : Node σ}
    (helse : Link.Elsewhere C sink here.node node) :
    Talk C mine theirs Good log offered since startHere startThere { here with node := node } there out back := by
  obtain ⟨hgood, hgrows, hoffers, hsound, hnone⟩ := elsewhere_spec hkeeps h.one.good h.one.sound helse
  constructor
  case one =>
    refine ⟨hgood, hsound, h.one.alive, fun hyes => ?_⟩
    obtain ⟨hoffered, hstated⟩ := h.one.said hyes
    exact ⟨hoffered.imp_right hnone, hstated⟩
  case other => exact h.other
  case pulls =>
    exact (h.pulls.carry here.driver.session out back rfl rfl (List.prefix_refl _) hoffers.sublist rfl rfl
      (fun x hx => Or.inl hx) fun _ => ⟨[], (List.append_nil back).symm⟩).1
  case pulled =>
    exact (h.pulled.carry there.driver.session back out rfl rfl hgrows (List.Sublist.refl _) rfl rfl
      (fun x hx => Or.inl hx) fun _ => ⟨[], (List.append_nil out).symm⟩).1
  case travels => exact h.travels
  case arrives => exact h.arrives

end VayuWeb.Swarm
