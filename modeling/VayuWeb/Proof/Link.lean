import Mathlib.Logic.Relation
import VayuWeb.Proof.Conversation
import VayuWeb.Proof.Inclusion

/-!
# Two peers that sync

Two peers over one wire: each end takes the bytes of the other in pieces of any size, its clock ticks, and its process
goes on with whatever else it does, in any order. No deadline passes meanwhile.

**Invariant** (`Joined`). What an end has not taken yet, in its de-framer or under way, is the frames of messages; with
these messages the two ends are in step (`Talk`).

* `link_syncs`: where nothing is under way, each end has been offered the whole log of the other.
* `link_bounded`: the two ends write a number of bytes that the lengths of the two logs bound.
* `link_settles`: from every state reached, delivering what is under way comes to an end.
-/

namespace VayuWeb.Swarm

open Bytes
open ReplicationSession
open Driver (SoundNode Statable)

variable {σ : Type} {C : Crypto} {sink : ReplicationSink σ} {mine theirs : Option (σ → ℕ → Option Checkpoint)}
  {Good : σ → Prop} {log offered : σ → List Bytes}

/-- The bytes that an end has not taken yet are the frames of these messages, and none of them is complete. -/
structure Mail (e : End σ) (underWay : Bytes) (ms : List Message) : Prop where
  wire : e.driver.deframer.chunks.flatten ++ underWay = wire ms
  waits : framing.cut e.driver.deframer.chunks.flatten = .wait

section Joined

variable (C mine theirs Good log offered)

/-- **Two ends in step over a wire.** -/
structure Joined (since : ℕ) (startHere startThere : List Bytes) (l : Link σ) (out back : List Message) : Prop where
  talk : Talk C mine theirs Good log offered since startHere startThere l.here l.there out back
  mail : Mail l.here l.underWay back
  post : Mail l.there l.swap.underWay out
  within : l.here.arrived ≤ l.there.driver.stream.written.length
  within' : l.there.arrived ≤ l.here.driver.stream.written.length

end Joined

variable {since now : ℕ} {startHere startThere : List Bytes} {l l' : Link σ} {out back : List Message}

/-- Two ends are joined, whichever is named first. -/
theorem Joined.swap (h : Joined C mine theirs Good log offered since startHere startThere l out back) :
    Joined C theirs mine Good log offered since startThere startHere l.swap back out :=
  ⟨h.talk.swap, h.post, h.mail, h.within', h.within⟩

/-- What a stage costs the link: every byte written, and what may still be written. -/
def account (startHere startThere : List Bytes) (l : Link σ) (out back : List Message) : ℕ :=
  l.here.driver.stream.written.length + l.there.driver.stream.written.length +
    65540 * cost startHere startThere l.here l.there out back

/-- The account does not depend on which end is named first. -/
theorem account_swap : account startThere startHere l.swap back out = account startHere startThere l out back := by
  unfold account
  change l.there.driver.stream.written.length + l.here.driver.stream.written.length +
    65540 * cost startThere startHere l.there l.here back out = _
  rw [cost_swap]
  omega

/-- A message that travels takes no more than its frame. -/
theorem length_wire_le (ms : List Message) (h : ∀ m ∈ ms, m.Travels) : (wire ms).length ≤ 65540 * ms.length := by
  induction ms with
  | nil => exact Nat.zero_le _
  | cons m ms ih =>
    have hrest := ih fun x hx => h x (List.mem_cons_of_mem m hx)
    have hbound := (h m List.mem_cons_self).bounded
    have hframe : m.framed.length = 4 + m.encoding.length := by
      unfold Message.framed
      rw [List.length_append, length_beBytes]
      rfl
    have hlimit : frameBytes = 65536 := rfl
    rw [wire_cons, List.length_append, List.length_cons, hframe]
    omega

section Steps

variable (hkeeps : Keeps sink Good log offered) (hstatable : Statable mine) (hhere : startHere.length < 2 ^ 32)
  (hthere : startThere.length < 2 ^ 32)

include hkeeps hstatable hhere hthere

/-- **Bytes that arrive** complete some of the messages; what these are answered with goes out. -/
theorem joined_data (h : Joined C mine theirs Good log offered since startHere startThere l out back) (n : ℕ)
    (hsince : since ≤ now) (hnow : now < since + limitWantDeadlineSeconds) :
    ∃ k sent, Joined C mine theirs Good log offered since startHere startThere (l.data C sink mine n now)
        (out ++ sent) (back.drop k) ∧
      account startHere startThere (l.data C sink mine n now) (out ++ sent) (back.drop k) ≤
        account startHere startThere l out back ∧
      cost startHere startThere (l.data C sink mine n now).here (l.data C sink mine n now).there (out ++ sent)
          (back.drop k) + (back.take k).length ≤ cost startHere startThere l.here l.there out back := by
  have hwire : l.here.driver.deframer.chunks.flatten ++ l.underWay.take n ++ l.underWay.drop n = wire back := by
    rw [List.append_assoc, List.take_append_drop]
    exact h.mail.wire
  obtain ⟨k, hpayloads, hpending, hwaits⟩ := push_wire h.talk.arrives hwire
  have hsplit : back = back.take k ++ back.drop k := (List.take_append_drop k back).symm
  have htalk : Talk C mine theirs Good log offered since startHere startThere
      { l.here with driver := { l.here.driver with deframer := (l.here.driver.deframer.push (l.underWay.take n)).2 } }
      l.there out (back.take k ++ back.drop k) := by
    rw [← hsplit]
    exact ⟨⟨h.talk.one.good, h.talk.one.sound, h.talk.one.alive, h.talk.one.said⟩, h.talk.other, h.talk.pulls,
      h.talk.pulled,
      h.talk.travels, h.talk.arrives⟩
  obtain ⟨d, node, sent, htake, hanswered⟩ := talk_takeAll hkeeps hstatable hhere hthere hsince hnow (back.take k) htalk
  have hdata : l.data C sink mine n now =
      { l with here := { driver := d, node := node, arrived := l.here.arrived + (l.underWay.take n).length } } := by
    have hnext : l.here.driver.onData C sink mine l.here.node (l.underWay.take n) now = (d, node) := by
      unfold Driver.onData
      rw [if_neg (by rw [h.talk.one.alive]; decide)]
      rcases hpush : l.here.driver.deframer.push (l.underWay.take n) with ⟨payloads, deframer⟩
      rw [hpush] at hpayloads htake
      dsimp only at hpayloads htake ⊢
      subst hpayloads
      exact htake
    unfold Link.data
    dsimp only
    rw [hnext]
  have hwritten := hanswered.written
  have hdeframer := hanswered.deframer
  -- what is left to pay for is read off the sessions
  have hcost : cost startHere startThere
        { driver := d, node := node, arrived := l.here.arrived + (l.underWay.take n).length } l.there (out ++ sent)
        (back.drop k) + sent.length + (back.take k).length ≤ cost startHere startThere l.here l.there out back := by
    have hpaid := hanswered.cost
    rw [← hsplit] at hpaid
    exact hpaid
  dsimp only at hwritten hdeframer
  have htravels : ∀ m ∈ sent, m.Travels := fun m hm => hanswered.talk.travels m (List.mem_append_right out hm)
  have hbytes := length_wire_le sent htravels
  refine ⟨k, sent, ?_, ?_, ?_⟩
  · rw [hdata]
    constructor
    case talk =>
      have hafter := hanswered.talk
      exact ⟨⟨hafter.one.good, hafter.one.sound, hafter.one.alive, hafter.one.said⟩, hafter.other, hafter.pulls,
        hafter.pulled,
        hafter.travels, hafter.arrives⟩
    case mail =>
      constructor
      case wire =>
        change d.deframer.chunks.flatten ++ l.there.driver.stream.written.drop
          (l.here.arrived + (l.underWay.take n).length) = _
        have hrest : l.there.driver.stream.written.drop (l.here.arrived + (l.underWay.take n).length) =
            l.underWay.drop n := by
          unfold Link.underWay
          rw [List.length_take, List.drop_drop]
          rcases Nat.le_total n (l.there.driver.stream.written.drop l.here.arrived).length with hle | hle
          · rw [Nat.min_eq_left hle]
          · rw [Nat.min_eq_right hle, List.length_drop] at *
            rw [List.drop_of_length_le (by omega), List.drop_of_length_le (by omega)]
        rw [hrest, hdeframer]
        exact hpending
      case waits =>
        change framing.cut d.deframer.chunks.flatten = .wait
        rw [hdeframer]
        exact hwaits
    case post =>
      constructor
      case wire =>
        change l.there.driver.deframer.chunks.flatten ++ d.stream.written.drop l.there.arrived = _
        rw [hwritten, List.drop_append_of_le_length h.within', ← List.append_assoc, wire_append]
        exact congrArg (· ++ wire sent) h.post.wire
      case waits => exact h.post.waits
    case within =>
      change l.here.arrived + (l.underWay.take n).length ≤ l.there.driver.stream.written.length
      have hle := h.within
      unfold Link.underWay
      rw [List.length_take, List.length_drop]
      omega
    case within' =>
      change l.there.arrived ≤ d.stream.written.length
      have hle := h.within'
      rw [hwritten, List.length_append]
      omega
  · rw [hdata]
    unfold account
    dsimp only
    rw [hwritten, List.length_append]
    omega
  · rw [hdata]
    dsimp only
    omega

/-- **What an end does keeps the two in step**, and costs no more than was set aside for it. -/
theorem joined_acts (h : Joined C mine theirs Good log offered since startHere startThere l out back)
    (hacts : Link.Acts C sink mine since (since + limitWantDeadlineSeconds) l l') :
    ∃ out' back', Joined C mine theirs Good log offered since startHere startThere l' out' back' ∧
      account startHere startThere l' out' back' ≤ account startHere startThere l out back := by
  cases hacts with
  | data n now hsince hnow =>
    obtain ⟨k, sent, hjoined, haccount, -⟩ := joined_data hkeeps hstatable hhere hthere h n hsince hnow
    exact ⟨_, _, hjoined, haccount⟩
  -- a heartbeat writes nothing, so both wires hold what they held
  | heartbeat now hsince hnow =>
    obtain ⟨d, node, hbeat, hstream, hdeframer, htalk, hcost⟩ := talk_heartbeat hkeeps h.talk hnow
    have hlink : l.heartbeat C sink now = { l with here := { l.here with driver := d, node := node } } := by
      unfold Link.heartbeat
      rw [hbeat]
    refine ⟨out, back, ?_, ?_⟩
    · rw [hlink]
      constructor
      case talk => exact htalk
      case mail =>
        constructor
        case wire =>
          change d.deframer.chunks.flatten ++ l.underWay = _
          rw [hdeframer]
          exact h.mail.wire
        case waits =>
          change framing.cut d.deframer.chunks.flatten = _
          rw [hdeframer]
          exact h.mail.waits
      case post =>
        constructor
        case wire =>
          change l.there.driver.deframer.chunks.flatten ++ d.stream.written.drop l.there.arrived = _
          rw [hstream]
          exact h.post.wire
        case waits => exact h.post.waits
      case within => exact h.within
      case within' =>
        change l.there.arrived ≤ d.stream.written.length
        rw [hstream]
        exact h.within'
    · rw [hlink]
      unfold account
      dsimp only
      rw [hstream, hcost]
  -- what happens elsewhere moves the node's store on and leaves the connection alone
  | elsewhere node helse =>
    refine ⟨out, back, ?_, le_rfl⟩
    exact ⟨talk_elsewhere hkeeps h.talk helse, ⟨h.mail.wire, h.mail.waits⟩, ⟨h.post.wire, h.post.waits⟩, h.within,
      h.within'⟩

/-- A step of the link keeps its ends joined. -/
theorem joined_step (hstatable' : Statable theirs)
    (h : Joined C mine theirs Good log offered since startHere startThere l out back)
    (hstep : Link.Step C sink mine theirs since (since + limitWantDeadlineSeconds) l l') :
    ∃ out' back', Joined C mine theirs Good log offered since startHere startThere l' out' back' ∧
      account startHere startThere l' out' back' ≤ account startHere startThere l out back := by
  rcases hstep with hacts | hacts
  · exact joined_acts hkeeps hstatable hhere hthere h hacts
  · obtain ⟨back', out', hjoined, haccount⟩ := joined_acts hkeeps hstatable' hthere hhere h.swap hacts
    refine ⟨out', back', hjoined.swap, ?_⟩
    rw [account_swap, account_swap] at haccount
    exact haccount

/-- **Over a whole run.** -/
theorem joined_run (hstatable' : Statable theirs)
    (h : Joined C mine theirs Good log offered since startHere startThere l out back)
    (hrun : Relation.ReflTransGen (Link.Step C sink mine theirs since (since + limitWantDeadlineSeconds)) l l') :
    ∃ out' back', Joined C mine theirs Good log offered since startHere startThere l' out' back' ∧
      account startHere startThere l' out' back' ≤ account startHere startThere l out back := by
  induction hrun with
  | refl => exact ⟨out, back, h, le_rfl⟩
  | tail _ hstep ih =>
    obtain ⟨out', back', hjoined, haccount⟩ := ih
    obtain ⟨out'', back'', hnext, hless⟩ := joined_step hkeeps hstatable hhere hthere hstatable' hjoined hstep
    exact ⟨out'', back'', hnext, hless.trans haccount⟩

end Steps

/-! ## From the opening on -/

/-- What the two ends may write in all. -/
def allowance (here there : List Bytes) : ℕ := 65540 * (256 * (here.length + there.length) + 776)

/-- A connection opens with a greeting each way. -/
theorem joined_connect (mine theirs : Option (σ → ℕ → Option Checkpoint))
    (hkeeps : Keeps sink Good log offered) (here there : Node σ) (hhere : Good here.store)
    (hthere : Good there.store) (hlength : (log here.store).length < 2 ^ 32)
    (hlength' : (log there.store).length < 2 ^ 32)
    (hsound : SoundNode C here) (hsound' : SoundNode C there) (since : ℕ) :
    ∃ out back, Joined C mine theirs Good log offered since (log here.store) (log there.store)
        (Link.connect sink here there) out back ∧
      account (log here.store) (log there.store) (Link.connect sink here there) out back ≤
        allowance (log here.store) (log there.store) := by
  have hello : ∀ {node : Node σ}, Good node.store → (log node.store).length < 2 ^ 32 →
      ∃ m, m.Travels ∧ m = .hello protocolVersion (log node.store).length (sink.treeRoot node.store) ∧
        Driver.drivePeer sink node =
          { stream := { written := wire [m], destroyed := false }
            session := { ReplicationSession.new with helloSent := true }
            deframer := .empty, outcome := .zero, offered := false, stated := false } := by
    intro node hgood hlen
    have htravels : (Message.hello protocolVersion (log node.store).length (sink.treeRoot node.store)).Travels := by
      apply Message.travels_hello
      · unfold maxSafeInteger
        omega
      · exact hkeeps.root hgood hlen
    refine ⟨_, htravels, rfl, ?_⟩
    have hopen : ReplicationSession.new.open_ sink node.store =
        some (.hello protocolVersion (log node.store).length (sink.treeRoot node.store),
          { ReplicationSession.new with helloSent := true }) := by
      unfold open_
      rw [if_neg (by decide), (hkeeps.serves hgood).length]
    have hsent := sendAll_of_travels (show PeerStream.destroyed { written := [], destroyed := false } = false from rfl)
      (fun m hm => by rw [List.mem_singleton.1 hm]; exact htravels :
        ∀ m ∈ [Message.hello protocolVersion (log node.store).length (sink.treeRoot node.store)], m.Travels)
    rw [List.nil_append] at hsent
    unfold Driver.drivePeer
    dsimp only
    rw [hopen]
    unfold Driver.sendAll
    dsimp only
    rw [hsent]
  obtain ⟨m, hm, hhello, hdrive⟩ := hello hhere hlength
  obtain ⟨m', hm', hhello', hdrive'⟩ := hello hthere hlength'
  have hfresh : ({ ReplicationSession.new with helloSent := true } : ReplicationSession).window = ungreeted := rfl
  -- each direction waits for its greeting
  have hpulls : ∀ {start : List Bytes} {p : ReplicationSession} {offered : List Bytes} {x x' : Message} {root : Bytes},
      p = { ReplicationSession.new with helloSent := true } → x.asked = none →
      x' = .hello protocolVersion start.length root →
      Pulls since start start p offered [x] [x'] := by
    intro start p offered x x' root hp hx hx'
    subst hp hx'
    constructor
    case grown => exact List.prefix_refl _
    case fresh =>
      intro _
      refine ⟨rfl, ?_, root, [], rfl, rfl⟩
      unfold asks
      rw [List.filterMap_cons, hx]
      rfl
    case length => exact fun hyes => by cases hyes
    case traffic => exact fun hyes => by cases hyes
    case slices =>
      intro from_ recs hmem
      cases List.mem_singleton.1 hmem
    case offered => exact List.nil_sublist _
  have hnone : m.asked = none ∧ m'.asked = none ∧ m.brought = none ∧ m'.brought = none := by
    rw [hhello, hhello']
    exact ⟨rfl, rfl, rfl, rfl⟩
  refine ⟨[m], [m'], ?_, ?_⟩
  · constructor
    case talk =>
      constructor
      case one =>
        refine ⟨hhere, hsound, ?_, fun hyes => ?_⟩
        · exact congrArg (fun d => d.stream.destroyed) hdrive
        · change (Driver.drivePeer sink here).session.helloReceived = true at hyes
          rw [hdrive] at hyes
          cases hyes
      case other =>
        refine ⟨hthere, hsound', ?_, fun hyes => ?_⟩
        · exact congrArg (fun d => d.stream.destroyed) hdrive'
        · change (Driver.drivePeer sink there).session.helloReceived = true at hyes
          rw [hdrive'] at hyes
          cases hyes
      case pulls => exact hpulls (congrArg Driver.session hdrive) hnone.1 hhello'
      case pulled => exact hpulls (congrArg Driver.session hdrive') hnone.2.1 hhello
      case travels => exact fun x hx => (List.mem_singleton.1 hx).symm ▸ hm
      case arrives => exact fun x hx => (List.mem_singleton.1 hx).symm ▸ hm'
    case mail =>
      constructor
      case wire =>
        change (Driver.drivePeer sink here).deframer.chunks.flatten ++
          (Driver.drivePeer sink there).stream.written.drop 0 = _
        rw [hdrive, hdrive']
        rfl
      case waits =>
        change framing.cut (Driver.drivePeer sink here).deframer.chunks.flatten = _
        rw [hdrive]
        exact cutFrame_nil
    case post =>
      constructor
      case wire =>
        change (Driver.drivePeer sink there).deframer.chunks.flatten ++
          (Driver.drivePeer sink here).stream.written.drop 0 = _
        rw [hdrive, hdrive']
        rfl
      case waits =>
        change framing.cut (Driver.drivePeer sink there).deframer.chunks.flatten = _
        rw [hdrive']
        exact cutFrame_nil
    case within => exact Nat.zero_le _
    case within' => exact Nat.zero_le _
  · have hbytes := length_wire_le [m] fun x hx => (List.mem_singleton.1 hx).symm ▸ hm
    have hbytes' := length_wire_le [m'] fun x hx => (List.mem_singleton.1 hx).symm ▸ hm'
    have hother : ∀ {x : Message}, others [x] ≤ 1 := fun {x} => others_le [x]
    have hone := @hother m
    have hone' := @hother m'
    rw [List.length_singleton] at hbytes hbytes'
    unfold account allowance cost due
    change (Driver.drivePeer sink here).stream.written.length + (Driver.drivePeer sink there).stream.written.length +
      65540 * ((if (Driver.drivePeer sink here).session.helloReceived = true then _ else _) +
        (if (Driver.drivePeer sink there).session.helloReceived = true then _ else _) + _ + _) ≤ _
    have hstart : (Driver.drivePeer sink here).session.helloReceived = false := by
      rw [hdrive]
      rfl
    have hstart' : (Driver.drivePeer sink there).session.helloReceived = false := by
      rw [hdrive']
      rfl
    rw [hstart, hstart', if_neg (by decide), if_neg (by decide), hdrive, hdrive']
    dsimp only
    omega

/-- **Where nothing is under way**, an end has been offered all that the other had at the opening. -/
theorem offered_of_quiet (h : Joined C mine theirs Good log offered since startHere startThere l out back)
    (hquiet : l.Quiet) :
    startThere.Sublist (offered l.here.node.store) ∧ startHere.Sublist (offered l.there.node.store) := by
  have hback : back = [] := by
    have hwire := h.mail.wire
    have hwaits := h.mail.waits
    rw [hquiet.1, List.append_nil] at hwire
    rw [hwire] at hwaits
    exact nil_of_wait h.talk.arrives hwaits
  have hout : out = [] := by
    have hwire := h.post.wire
    have hwaits := h.post.waits
    rw [hquiet.2, List.append_nil] at hwire
    rw [hwire] at hwaits
    exact nil_of_wait h.talk.travels hwaits
  -- a session whose requests are all answered has taken the whole log that it was greeted with
  have hall : ∀ {start now : List Bytes} {p : ReplicationSession} {offered : List Bytes},
      Pulls since start now p offered [] [] → start.Sublist offered := by
    intro start now p offered hpulls
    have hgreeted : p.helloReceived = true := by
      by_contra hnot
      obtain ⟨-, -, root, rest, hhead, -⟩ := hpulls.fresh (Bool.eq_false_iff.2 hnot)
      cases hhead
    have hcomplete := Pull.Traffic.complete_of_quiet (hpulls.traffic hgreeted) rfl
    change p.window.length ≤ p.window.fetched at hcomplete
    rw [hpulls.length hgreeted] at hcomplete
    have hoffered := hpulls.offered
    rw [List.take_of_length_le hcomplete] at hoffered
    exact hoffered
  have hpulls := h.talk.pulls
  have hpulled := h.talk.pulled
  rw [hback, hout] at hpulls hpulled
  exact ⟨hall hpulls, hall hpulled⟩

/-- Deliveries are steps. -/
theorem steps_of_deliveries {till : ℕ}
    (h : Relation.ReflTransGen (Link.Delivery C sink mine theirs since till) l l') :
    Relation.ReflTransGen (Link.Step C sink mine theirs since till) l l' := by
  induction h with
  | refl => exact .refl
  | tail _ hlast ih => exact ih.tail hlast.step

section Settling

variable (hkeeps : Keeps sink Good log offered) (hstatable : Statable mine) (hhere : startHere.length < 2 ^ 32)
  (hthere : startThere.length < 2 ^ 32)

include hkeeps hstatable hhere hthere

/-- Delivering all that is under way brings the end closer. -/
theorem joined_deliver (h : Joined C mine theirs Good log offered since startHere startThere l out back)
    (hsome : l.underWay ≠ []) :
    ∃ out' back', Joined C mine theirs Good log offered since startHere startThere
        (l.data C sink mine l.underWay.length since) out' back' ∧
      cost startHere startThere (l.data C sink mine l.underWay.length since).here
          (l.data C sink mine l.underWay.length since).there out' back' <
        cost startHere startThere l.here l.there out back := by
  obtain ⟨k, sent, hjoined, -, hcost⟩ := joined_data hkeeps hstatable hhere hthere h l.underWay.length le_rfl
    (Nat.lt_add_of_pos_right (by decide))
  refine ⟨_, _, hjoined, ?_⟩
  have hempty : (l.data C sink mine l.underWay.length since).underWay = [] := by
    unfold Link.data Link.underWay
    dsimp only
    rw [List.take_of_length_le le_rfl, List.length_drop]
    exact List.drop_of_length_le (by omega)
  -- everything under way was handed over, so no message is left half read
  have hdrop : back.drop k = [] := by
    have hwire := hjoined.mail.wire
    have hwaits := hjoined.mail.waits
    rw [hempty, List.append_nil] at hwire
    rw [hwire] at hwaits
    exact nil_of_wait hjoined.talk.arrives hwaits
  have hne : back ≠ [] := by
    intro hnil
    have hwire := h.mail.wire
    rw [hnil, wire_nil, List.append_eq_nil_iff] at hwire
    exact hsome hwire.2
  have htake : (back.take k).length = back.length := by
    rw [List.drop_eq_nil_iff] at hdrop
    rw [List.take_of_length_le hdrop]
  have hpos := List.length_pos_iff.2 hne
  omega

/-- **Delivering comes to an end.** By induction on what is left to pay for: while something is under way, delivering
all of it costs something. -/
theorem joined_settles (hstatable' : Statable theirs)
    (h : Joined C mine theirs Good log offered since startHere startThere l out back) :
    ∃ l', Relation.ReflTransGen
        (Link.Delivery C sink mine theirs since (since + limitWantDeadlineSeconds)) l l' ∧ l'.Quiet := by
  have hsoon : since < since + limitWantDeadlineSeconds := Nat.lt_add_of_pos_right (by decide)
  induction hcost : cost startHere startThere l.here l.there out back using Nat.strong_induction_on
    generalizing l out back with
  | h n ih =>
    subst hcost
    by_cases hhome : l.underWay = []
    -- nothing is under way to this end: if there is to the other, it is that one's turn
    · by_cases haway : l.swap.underWay = []
      · exact ⟨l, .refl, hhome, haway⟩
      · obtain ⟨back', out', hjoined, hless⟩ := joined_deliver hkeeps hstatable' hthere hhere h.swap haway
        set next := l.swap.data C sink theirs l.swap.underWay.length since with hnext
        have hafter := cost_swap startThere startHere next.here next.there back' out'
        have hbefore := cost_swap startHere startThere l.here l.there out back
        obtain ⟨l', hrun, hquiet⟩ :=
          ih _ (lt_of_eq_of_lt hafter (lt_of_lt_of_eq hless hbefore)) hjoined.swap rfl
        have hfirst : Link.Delivery C sink mine theirs since (since + limitWantDeadlineSeconds) l next.swap :=
          ⟨_, since, le_rfl, hsoon, Or.inr hnext⟩
        exact ⟨l', .head hfirst hrun, hquiet⟩
    -- all that is under way is delivered at once, and what is left to pay for goes down
    · obtain ⟨out', back', hjoined, hless⟩ := joined_deliver hkeeps hstatable hhere hthere h hhome
      obtain ⟨l', hrun, hquiet⟩ := ih _ hless hjoined rfl
      exact ⟨l', .head ⟨_, since, le_rfl, hsoon, Or.inl rfl⟩ hrun, hquiet⟩

end Settling

/-! ## The registry of a node -/

/-- The registry behind a sink, with all that was offered to it. -/
abbrev Watched := Store × List (Bytes × ℕ)

/-- `sinkOver`, watched. -/
def registrySink (C : Crypto) : ReplicationSink Watched := recording (sinkOver C (treeRootOf C))

/-- A node to which nothing was offered yet. -/
def watch (node : Node Store) : Node Watched :=
  { store := (node.store, []), ledger := node.ledger, forks := node.forks }

/-- The encodings in an end's log. -/
def logOf (s : Watched) : List Bytes := s.1.entries.map (·.bytes)

/-- The encodings an end was offered. -/
def offeredTo (s : Watched) : List Bytes := s.2.map Prod.fst

/-- A log that came to be by appends. -/
def Reached (C : Crypto) (s : Watched) : Prop := ∃ steps, Run C steps s.1

/-- A subtree holds no more bytes than its entries may have. -/
theorem byteSize_le {entries : List Bytes} (h : ∀ e ∈ entries, e.length ≤ limitRecordBytes) (height start : ℕ) :
    byteSize entries start height ≤ 2 ^ height * limitRecordBytes := by
  induction height generalizing start with
  | zero =>
    rw [byteSize, List.getD_eq_getElem?_getD, pow_zero, Nat.one_mul]
    cases hget : entries[start]? with
    | none => exact Nat.zero_le _
    | some e => exact h e (List.mem_of_getElem? hget)
  | succ height ih =>
    have hleft := ih start
    have hright := ih (start + 2 ^ height)
    rw [byteSize, pow_succ, Nat.mul_comm (2 ^ height) 2, Nat.mul_assoc]
    omega

/-- The root of a log that an array holds. -/
theorem length_treeRootOf {s : Store} (hlen : s.entries.length < 2 ^ 32)
    (hsizes : ∀ e ∈ s.entries.map (·.bytes), e.length ≤ limitRecordBytes) : (treeRootOf C s).length = 32 := by
  have hlen' : (s.entries.map (·.bytes)).length < 2 ^ 32 := by
    rw [List.length_map]
    exact hlen
  obtain ⟨tree, htree⟩ : ∃ tree, treeOf C (s.entries.map (·.bytes)) = .ok tree := by
    apply (treeOf_ok_iff (by omega)).2
    intro r hr
    have hsize := byteSize_le hsizes r.height r.start
    -- at most 2^32 records of bounded size stay below 2^53 - 1 in all, so the tree is built
    have hbound := (peakRanges_peaks (by omega : (s.entries.map (·.bytes)).length < 2 ^ 53)).bounds r hr
    have hpeak : 2 ^ r.height ≤ 2 ^ 32 := by
      unfold Mountain.Range.stop Mountain.Range.span at hbound
      omega
    have hmul : 2 ^ r.height * limitRecordBytes ≤ 2 ^ 32 * limitRecordBytes := Nat.mul_le_mul_right _ hpeak
    unfold maxSafeInteger
    unfold limitRecordBytes at hsize hmul
    omega
  obtain ⟨rs, hbuilt⟩ := built_of_treeOf htree
  obtain ⟨hash, hhash⟩ := treeHash_ok (hbuilt.roots (by omega)) hlen'
  have hroot : tree.root C = .ok hash := hhash
  unfold treeRootOf
  rw [htree]
  change ((tree.root C).toOption.getD []).length = 32
  rw [hroot]
  unfold treeHash at hhash
  obtain ⟨input, -, hinput⟩ := Except.bind_eq_ok.1 hhash
  rw [← Except.ok.inj hinput]
  exact C.length_blake2b input

/-- No record in a log is over the limit. -/
theorem run_sizes {steps : List Step} {s : Store} (h : Run C steps s) :
    ∀ e ∈ s.entries.map (·.bytes), e.length ≤ limitRecordBytes := by
  refine Run.store_induction (P := fun s => ∀ e ∈ s.entries.map (·.bytes), e.length ≤ limitRecordBytes)
    (fun e he => by cases he) ?_ h
  intro st ih hok e he
  unfold Step.after at he
  rw [extend_entries, List.map_append] at he
  rcases List.mem_append.1 he with hold | hnew
  · exact ih e hold
  · rw [List.map_singleton, List.mem_singleton] at hnew
    have hlimit := (admit_eq_ok.1 hok.admitted).1
    rw [hnew]
    exact hlimit

/-- What is offered to a registry leaves it a run of appends, and its log where it was. -/
theorem registry_append {steps : List Step} {s : Store} (hrun : Run C steps s) (bytes : Bytes) (now : ℕ) :
    (∃ steps', Run C steps' ((sinkOver C (treeRootOf C)).append s bytes now).2) ∧
      s.entries.map (·.bytes) <+: ((sinkOver C (treeRootOf C)).append s bytes now).2.entries.map (·.bytes) := by
  unfold sinkOver
  dsimp only
  cases happend : s.append C bytes now with
  | error e => exact ⟨⟨steps, hrun⟩, List.prefix_refl _⟩
  | ok result =>
    refine ⟨⟨_, hrun.append happend⟩, ?_⟩
    obtain ⟨verdict, after⟩ := result
    dsimp only
    rcases append_cases happend with ⟨rfl, -⟩ | ⟨r, -, -, rfl⟩ | ⟨r, held, root, -, -, rfl⟩
    · exact List.prefix_refl _
    · rw [extend_entries, List.map_append]
      exact List.prefix_append _ _
    · rw [extend_entries, List.map_append]
      exact List.prefix_append _ _

/-- **The registry keeps its log**, whatever is offered to it. -/
theorem registry_keeps (C : Crypto) : Keeps (registrySink C) (Reached C) logOf offeredTo where
  serves := by
    intro s _
    have hserves := sinkOver_serves C (treeRootOf C) s.1
    exact ⟨hserves.length, hserves.encodingAt⟩
  sizes := by
    rintro s ⟨steps, hrun⟩
    exact run_sizes hrun
  root := by
    rintro s ⟨steps, hrun⟩ hlen
    unfold logOf at hlen
    rw [List.length_map] at hlen
    exact length_treeRootOf hlen (run_sizes hrun)
  good := by
    rintro s ⟨steps, hrun⟩ bytes now
    exact (registry_append hrun bytes now).1
  grows := by
    rintro s ⟨steps, hrun⟩ bytes now
    exact (registry_append hrun bytes now).2
  offers := by
    intro s bytes now
    unfold offeredTo
    change (s.2 ++ [(bytes, now)]).map Prod.fst = _
    rw [List.map_append]
    rfl

/-! ## Results -/

/-- A node with a registry that came to be by appends and a ledger in order. -/
structure NodeOk (C : Crypto) (node : Node Store) : Prop where
  run : ∃ steps, Run C steps node.store
  length : node.store.entries.length < 2 ^ 32
  sound : SoundNode C node

/-- The log of a node. -/
def Node.encodings (node : Node Store) : List Bytes := node.store.entries.map (·.bytes)

/-- What two nodes may come to over one connection, while no deadline passes. -/
def Comes (C : Crypto) (mine theirs : Option (Watched → ℕ → Option Checkpoint)) (here there : Node Store)
    (since : ℕ) (l : Link Watched) : Prop :=
  Relation.ReflTransGen (Link.Step C (registrySink C) mine theirs since (since + limitWantDeadlineSeconds))
    (Link.connect (registrySink C) (watch here) (watch there)) l

/-- The ends of every link that comes from the opening are joined. -/
theorem joined_comes {mine theirs : Option (Watched → ℕ → Option Checkpoint)} {here there : Node Store}
    {l : Link Watched} (hstatable : Statable mine) (hstatable' : Statable theirs) (hhere : NodeOk C here)
    (hthere : NodeOk C there) (hrun : Comes C mine theirs here there since l) :
    ∃ out back, Joined C mine theirs (Reached C) logOf offeredTo since here.encodings there.encodings l out back ∧
      account here.encodings there.encodings l out back ≤ allowance here.encodings there.encodings := by
  have hlength : (logOf (watch here).store).length < 2 ^ 32 := by
    unfold logOf
    rw [List.length_map]
    exact hhere.length
  have hlength' : (logOf (watch there).store).length < 2 ^ 32 := by
    unfold logOf
    rw [List.length_map]
    exact hthere.length
  obtain ⟨out, back, hjoined, haccount⟩ := joined_connect mine theirs (registry_keeps C) (watch here)
    (watch there) hhere.run hthere.run hlength hlength' hhere.sound hthere.sound since
  obtain ⟨out', back', hafter, hless⟩ := joined_run (registry_keeps C) hstatable hlength hlength' hstatable' hjoined
    hrun
  exact ⟨out', back', hafter, hless.trans haccount⟩

/-- **Two peers sync.** However the bytes are cut and whatever comes between, no end drops the connection, and where
nothing is under way each has offered its registry all that the other's log held at the opening, in its order. -/
theorem link_syncs (C : Crypto) (mine theirs : Option (Watched → ℕ → Option Checkpoint)) (here there : Node Store)
    (since : ℕ) (l : Link Watched) (hstatable : Statable mine) (hstatable' : Statable theirs) (hhere : NodeOk C here)
    (hthere : NodeOk C there) (hrun : Comes C mine theirs here there since l) :
    l.here.driver.stream.destroyed = false ∧ l.there.driver.stream.destroyed = false ∧
      (l.Quiet → there.encodings.Sublist (offeredTo l.here.node.store) ∧
        here.encodings.Sublist (offeredTo l.there.node.store)) := by
  obtain ⟨out, back, hjoined, -⟩ := joined_comes hstatable hstatable' hhere hthere hrun
  exact ⟨hjoined.talk.one.alive, hjoined.talk.other.alive, offered_of_quiet hjoined⟩

/-- **A connection costs a bounded number of bytes**, however long it stays open and whatever comes between. -/
theorem link_bounded (C : Crypto) (mine theirs : Option (Watched → ℕ → Option Checkpoint)) (here there : Node Store)
    (since : ℕ) (l : Link Watched) (hstatable : Statable mine) (hstatable' : Statable theirs) (hhere : NodeOk C here)
    (hthere : NodeOk C there) (hrun : Comes C mine theirs here there since l) :
    l.here.driver.stream.written.length + l.there.driver.stream.written.length ≤
      allowance here.encodings there.encodings := by
  obtain ⟨out, back, -, haccount⟩ := joined_comes hstatable hstatable' hhere hthere hrun
  unfold account at haccount
  omega

/-- **Delivering what is under way comes to an end**, from every state that the two come to: bytes that arrive, and
nothing else, lead to a state where nothing is under way. -/
theorem link_settles (C : Crypto) (mine theirs : Option (Watched → ℕ → Option Checkpoint)) (here there : Node Store)
    (since : ℕ) (l : Link Watched) (hstatable : Statable mine) (hstatable' : Statable theirs) (hhere : NodeOk C here)
    (hthere : NodeOk C there) (hrun : Comes C mine theirs here there since l) :
    ∃ l', Relation.ReflTransGen
        (Link.Delivery C (registrySink C) mine theirs since (since + limitWantDeadlineSeconds)) l l' ∧
      Comes C mine theirs here there since l' ∧ l'.Quiet := by
  obtain ⟨out, back, hjoined, -⟩ := joined_comes hstatable hstatable' hhere hthere hrun
  have hlength : here.encodings.length < 2 ^ 32 := by
    unfold Node.encodings
    rw [List.length_map]
    exact hhere.length
  have hlength' : there.encodings.length < 2 ^ 32 := by
    unfold Node.encodings
    rw [List.length_map]
    exact hthere.length
  obtain ⟨l', hrest, hquiet⟩ := joined_settles (registry_keeps C) hstatable hlength hlength' hstatable' hjoined
  exact ⟨l', hrest, Relation.ReflTransGen.trans hrun (steps_of_deliveries hrest), hquiet⟩

/-! ### An empty log and a log of one record -/

/-- A node with nothing. -/
def newcomer : Node Store := { store := .empty, ledger := some .ephemeral, forks := none }

/-- A node with the first sample record. -/
def holder : Node Store :=
  { store := Store.empty.extend Sample.crypto Sample.first.bytes Sample.first.record, ledger := none, forks := none }

theorem newcomer_ok : NodeOk Sample.crypto newcomer where
  run := ⟨[], .empty⟩
  length := by decide
  sound := by
    intro ledger hledger
    cases hledger
    exact EquivocationLedger.sound_ephemeral

theorem holder_ok : NodeOk Sample.crypto holder where
  run := ⟨_, Run.empty.append (append_ordinary Sample.first_ok)⟩
  length := by
    change (Store.extend _ _ _ _).entries.length < _
    rw [extend_entries, List.length_append]
    decide
  sound := fun ledger hledger => by cases hledger

theorem statable_none : Statable (none : Option (Watched → ℕ → Option Checkpoint)) := fun mine hmine => by cases hmine

/-- The two come to a state where nothing is under way. -/
theorem newcomer_settles : ∃ l, Comes Sample.crypto none none newcomer holder 1700000000 l ∧ l.Quiet := by
  obtain ⟨out, back, hjoined, -⟩ := joined_comes statable_none statable_none newcomer_ok holder_ok
    (.refl : Comes Sample.crypto none none newcomer holder 1700000000 _)
  have hlength : holder.encodings.length < 2 ^ 32 := by
    unfold Node.encodings holder
    rw [extend_entries, List.length_map, List.length_append]
    decide
  obtain ⟨l, hrun, hquiet⟩ :=
    joined_settles (registry_keeps Sample.crypto) statable_none (by decide) hlength statable_none hjoined
  exact ⟨l, steps_of_deliveries hrun, hquiet⟩

/-- The newcomer is offered the record. -/
theorem newcomer_syncs : ∃ l, Comes Sample.crypto none none newcomer holder 1700000000 l ∧
    [Sample.first.bytes].Sublist (offeredTo l.here.node.store) := by
  obtain ⟨l, hrun, hquiet⟩ := newcomer_settles
  have hsyncs := link_syncs Sample.crypto none none newcomer holder 1700000000 l statable_none statable_none
    newcomer_ok holder_ok hrun
  exact ⟨l, hrun, (hsyncs.2.2 hquiet).1⟩

theorem newcomer_bounded : ∃ l, Comes Sample.crypto none none newcomer holder 1700000000 l ∧ l.Quiet ∧
    l.here.driver.stream.written.length + l.there.driver.stream.written.length ≤
      allowance newcomer.encodings holder.encodings := by
  obtain ⟨l, hrun, hquiet⟩ := newcomer_settles
  exact ⟨l, hrun, hquiet,
    link_bounded Sample.crypto none none newcomer holder 1700000000 l statable_none statable_none
    newcomer_ok holder_ok hrun⟩

theorem newcomer_settles_from_the_opening : ∃ l l', Comes Sample.crypto none none newcomer holder 1700000000 l ∧
    Relation.ReflTransGen (Link.Delivery Sample.crypto (registrySink Sample.crypto) none none 1700000000
      (1700000000 + limitWantDeadlineSeconds)) l l' ∧ l'.Quiet := by
  -- the newcomer's clock ticks, and then all is delivered
  have hticked : Comes Sample.crypto none none newcomer holder 1700000000
      (Link.heartbeat Sample.crypto (registrySink Sample.crypto)
        (Link.connect (registrySink Sample.crypto) (watch newcomer) (watch holder)) 1700000000) :=
    .single (Or.inl (.heartbeat _ 1700000000 le_rfl (Nat.lt_add_of_pos_right (by decide))))
  obtain ⟨l', hrun, -, hquiet⟩ := link_settles Sample.crypto none none newcomer holder 1700000000 _ statable_none
    statable_none newcomer_ok holder_ok hticked
  exact ⟨_, l', hticked, hrun, hquiet⟩

end VayuWeb.Swarm
