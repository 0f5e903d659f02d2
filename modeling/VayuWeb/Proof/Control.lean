import VayuWeb.Base.Handover
import VayuWeb.Proof.Log
import VayuWeb.Proof.Sample

/-!
# Who controls a name

The records of a name since its last registration hand a title over (`Handover`): a TRANSFER
hands it to the key it names, to take effect when the transfer settles; every other record keeps
it where it is.

* `Chained`: the verifier's `controllingKey` and the index's `signerKey` are what that title says,
  and every record of the chain is signed by who controlled the name at its `notBefore`.
* `control_moves_by_settled_transfer`: control only moves by a countersigned transfer that has
  settled.
-/

namespace VayuWeb

open Handover

variable {C : Crypto} {s : Store} {b : Bytes} {r : RegistryRecord} {key : String} {held : NameEntry}
  {root : LogEntry} {rest : List LogEntry}

/-! ## The current chain -/

/-- The log entries of a name from its last registration on. -/
def Store.chain (s : Store) (key : String) : List LogEntry :=
  (s.history key).foldl (fun chain e => if e.record.op = .register then [e] else chain ++ [e]) []

/-- A record leaves the chains of other names as they are. -/
theorem chain_extend_ne (h : keyOf r ≠ key) : (s.extend C b r).chain key = s.chain key := by
  unfold Store.chain
  rw [history_extend, if_neg h, List.append_nil]

/-- A record goes to the end of its name's chain, or starts it anew. -/
theorem chain_extend : (s.extend C b r).chain (keyOf r) =
    (if r.op = .register then [] else s.chain (keyOf r)) ++ [s.nextLogEntry C b r] := by
  unfold Store.chain
  rw [history_extend, if_pos rfl, List.foldl_append]
  by_cases h : r.op = .register
  · simp [Store.nextLogEntry, h]
  · simp [Store.nextLogEntry, h]

/-! ## The title to a name -/

/-- What a record does with the title to its name. -/
def moveOf (r : RegistryRecord) : Move Bytes :=
  if r.op = .transfer then .hand r.ownerKey r.notBefore else .keep r.notBefore

theorem time_moveOf (r : RegistryRecord) : (moveOf r).time = r.notBefore := by
  unfold moveOf
  split_ifs <;> rfl

/-- The title to a name after the registration `root` and the records `rest`. -/
def titleAfter (root : LogEntry) (rest : List LogEntry) : Title Bytes :=
  (Title.of root.record.ownerKey).run settlementSeconds (rest.map fun e => moveOf e.record)

/-- Who controls a name at a time, after the registration `root` and the records `rest`. -/
def controllerAfter (root : LogEntry) (rest : List LogEntry) (at_ : ℕ) : Bytes :=
  (titleAfter root rest).controller at_

@[simp] theorem controllerAfter_nil (at_ : ℕ) : controllerAfter root [] at_ = root.record.ownerKey := rfl

/-- Who controls a name once one more record is in its chain. -/
theorem controllerAfter_concat (e : LogEntry) (at_ : ℕ) : controllerAfter root (rest ++ [e]) at_ =
    if e.record.op = .transfer ∧ ¬ at_ < e.record.notBefore + settlementSeconds then e.record.ownerKey
    else controllerAfter root rest e.record.notBefore := by
  unfold controllerAfter titleAfter
  rw [List.map_append, List.map_cons, List.map_nil, run_concat, moveOf]
  by_cases hop : e.record.op = .transfer
  · by_cases hat : at_ < e.record.notBefore + settlementSeconds
    · rw [if_pos hop, controller_hand, if_pos hat, if_neg fun h => h.2 hat]
    · rw [if_pos hop, controller_hand, if_neg hat, if_pos ⟨hop, hat⟩]
  · rw [if_neg hop, controller_keep, if_neg fun h => hop h.1]

/-! ## Signatures -/

/-- The record's signature verifies under a key. -/
def SignedBy (C : Crypto) (r : RegistryRecord) (key : Bytes) : Prop :=
  ∃ input, signingInput r.map = .ok input ∧ verifyStrict C key input r.sig = true

/-- The record's countersignature verifies under a key. -/
def CoSignedBy (C : Crypto) (r : RegistryRecord) (key : Bytes) : Prop :=
  ∃ input coSig, signingInput r.map = .ok input ∧ r.coSig = some coSig ∧
    verifyStrict C key input coSig = true

/-- A record of a chain after its registration: signed by who controlled the name, and
countersigned when it hands the name over. -/
structure Link (C : Crypto) (root : LogEntry) (before : List LogEntry) (e : LogEntry) : Prop where
  successor : e.record.op ≠ .register
  signed : SignedBy C e.record (controllerAfter root before e.record.notBefore)
  coSigned : e.record.op = .transfer → CoSignedBy C e.record e.record.ownerKey

/-- The current chain of a held name, as the index sees it. -/
structure Chained (C : Crypto) (s : Store) (key : String) (held : NameEntry) (root : LogEntry)
    (rest : List LogEntry) : Prop where
  chain : s.chain key = root :: rest
  register : root.record.op = .register
  rootHash : root.hash = held.rootHash
  rootSigned : SignedBy C root.record root.record.ownerKey
  links : ∀ before e after, rest = before ++ e :: after → Link C root before e
  ordered : (root :: rest).Pairwise fun e e' => e.record.notBefore ≤ e'.record.notBefore
  latest : ∀ e ∈ root :: rest, e.record.notBefore ≤ held.current.record.notBefore
  last : ∃ e ∈ (root :: rest).getLast?, e.record = held.current.record ∧ e.hash = held.current.hash
  controls : ∀ at_, controllingKey held.current at_ = controllerAfter root rest at_
  signer : held.current.signerKey = controllerAfter root rest.dropLast held.current.record.notBefore
  signed : SignedBy C held.current.record held.current.signerKey

/-- A registration starts a chain. -/
theorem chained_register {input : Bytes} {now : ℕ} {ignore : Bool} (hop : r.op = .register)
    (hinput : signingInput r.map = .ok input)
    (hr : RegisterOK C r input (s.current r.name r.tld) (s.view C) now ignore) :
    Chained C (s.extend C b r) (keyOf r) (s.nextNameEntry C b r) (s.nextLogEntry C b r) [] := by
  have hsigner : s.signerKeyOf r = r.ownerKey := by
    unfold Store.signerKeyOf
    split
    · rw [if_neg (by simp [hop])]
    · rfl
  have hsigned : SignedBy C r r.ownerKey := ⟨input, hinput, hr.sig⟩
  -- a chain of one record, which its own owner controls
  constructor
  case chain => rw [chain_extend, if_pos hop, List.nil_append]
  case register => exact hop
  case rootHash => simp [Store.nextLogEntry, Store.nextNameEntry, hop]
  case rootSigned => exact hsigned
  case links => intro before e after h; simp at h
  case ordered => simp
  case latest =>
    intro e he
    rw [List.mem_singleton.1 he]
    exact le_rfl
  case last => exact ⟨_, rfl, rfl, rfl⟩
  case controls =>
    intro at_
    have hnot : ¬ (r.op = .transfer ∧ at_ < r.notBefore + settlementSeconds) := by simp [hop]
    simp only [controllingKey, Store.nextNameEntry, hnot, if_false]
    rfl
  case signer => exact hsigner
  case signed =>
    change SignedBy C r (s.signerKeyOf r)
    rw [hsigner]
    exact hsigned

/-- Who signs a successor, as the index records it, is who controlled the name. -/
theorem signerKeyOf_successor {input : Bytes} {now : ℕ}
    (hheld : s.names.get? (keyOf r) = some held)
    (hr : SuccessorOK C r input held.current (s.view C) now) :
    s.signerKeyOf r = controllingKey held.current r.notBefore := by
  unfold Store.signerKeyOf
  rw [hheld]
  simp only
  by_cases htr : r.op = .transfer
  · rw [if_pos htr]
  · -- any other record waits until its predecessor has settled
    have hsettled := hr.settled
    unfold isUnsettled at hsettled
    have hnot : ¬ (held.current.record.op = .transfer ∧
        r.notBefore < held.current.record.notBefore + settlementSeconds) := by
      intro h
      simp [h.1, h.2, htr] at hsettled
    unfold controllingKey
    rw [if_neg htr, if_neg hnot]
    exact hr.owner htr

/-- A successor continues the chain. -/
theorem Chained.successor {input : Bytes} {now : ℕ} (h : Chained C s (keyOf r) held root rest)
    (hop : r.op ≠ .register) (hheld : s.names.get? (keyOf r) = some held)
    (hinput : signingInput r.map = .ok input)
    (hr : SuccessorOK C r input held.current (s.view C) now) :
    Chained C (s.extend C b r) (keyOf r) (s.nextNameEntry C b r) root
      (rest ++ [s.nextLogEntry C b r]) := by
  have hsigner := signerKeyOf_successor hheld hr
  have hsigned : SignedBy C r (controllingKey held.current r.notBefore) := ⟨input, hinput, hr.sig⟩
  have hlatest : ∀ e ∈ root :: rest, e.record.notBefore ≤ r.notBefore := by
    intro e he
    have hle := h.latest e he
    have hinterval := hr.interval
    omega
  have hcurrent : (s.nextNameEntry C b r).current.record = r := rfl
  constructor
  case chain => rw [chain_extend, if_neg hop, h.chain, List.cons_append]
  case register => exact h.register
  case rootHash =>
    rw [h.rootHash]
    simp [Store.nextNameEntry, hop, hheld]
  case rootSigned => exact h.rootSigned
  -- a link is either the one just added or one of those before it
  case links =>
    intro before e after hsplit
    rcases List.eq_nil_or_concat after with rfl | ⟨after, x, rfl⟩
    · obtain ⟨rfl, he⟩ := List.append_inj' hsplit rfl
      simp only [List.cons.injEq, and_true] at he
      subst he
      refine ⟨hop, ?_, fun htr => ?_⟩
      · change SignedBy C r (controllerAfter root rest r.notBefore)
        rw [← h.controls]
        exact hsigned
      -- the co-signature of a TRANSFER is what `OperationOK` asked for when it was accepted
      · have hoperation := hr.operation
        change r.op = .transfer at htr
        unfold OperationOK at hoperation
        rw [htr] at hoperation
        obtain ⟨-, -, -, coSig, hcoSig, hverify⟩ := hoperation
        exact ⟨input, coSig, hinput, hcoSig, hverify⟩
    · rw [List.concat_eq_append, ← List.cons_append, ← List.append_assoc] at hsplit
      exact h.links before e after (List.append_inj' hsplit rfl).1
  case ordered =>
    rw [← List.cons_append, List.pairwise_append]
    refine ⟨h.ordered, by simp, fun e he e' he' => ?_⟩
    rw [List.mem_singleton.1 he']
    exact hlatest e he
  case latest =>
    intro e he
    rw [hcurrent]
    rw [← List.cons_append, List.mem_append, List.mem_singleton] at he
    rcases he with he | rfl
    · exact hlatest e he
    · exact le_rfl
  case last =>
    refine ⟨s.nextLogEntry C b r, ?_, rfl, rfl⟩
    rw [← List.cons_append, List.getLast?_concat]
    rfl
  -- a TRANSFER hands the key over only once it has settled, so the time is split there
  case controls =>
    intro at_
    rw [controllerAfter_concat]
    change controllingKey { record := r, hash := _, signerKey := s.signerKeyOf r } at_ =
      if r.op = .transfer ∧ ¬ at_ < r.notBefore + settlementSeconds then r.ownerKey
      else controllerAfter root rest r.notBefore
    rw [← h.controls, ← hsigner]
    unfold controllingKey
    simp only
    by_cases htr : r.op = .transfer
    · by_cases hat : at_ < r.notBefore + settlementSeconds
      · rw [if_pos ⟨htr, hat⟩, if_neg fun h => h.2 hat]
      · rw [if_neg fun h => hat h.2, if_pos ⟨htr, hat⟩]
    · rw [if_neg fun h => htr h.1, if_neg fun h => htr h.1]
      unfold Store.signerKeyOf
      rw [hheld]
      simp only
      rw [if_neg htr]
  case signer =>
    rw [List.dropLast_concat, hcurrent, ← h.controls]
    exact hsigner
  case signed =>
    change SignedBy C r (s.signerKeyOf r)
    rw [hsigner]
    exact hsigned

/-- A name stays chained when another's record is appended. -/
theorem Chained.extend_ne (h : Chained C s key held root rest) (hne : keyOf r ≠ key) :
    Chained C (s.extend C b r) key held root rest :=
  { h with chain := by rw [chain_extend_ne hne]; exact h.chain }

/-- **The index sees the title to every name, along every run.** -/
theorem Run.chained {steps : List Step} (hs : Run C steps s) (hheld : s.names.get? key = some held) :
    ∃ root rest, Chained C s key held root rest := by
  refine hs.store_induction (P := fun s => ∀ key held, s.names.get? key = some held →
    ∃ root rest, Chained C s key held root rest) (by simp [Store.empty]) ?_ key held hheld
  intro st ih hok key held hheld
  unfold Step.after at hheld ⊢
  rw [extend_names, OrdMap.get?_set] at hheld
  by_cases hkey : key = keyOf st.record
  · subst hkey
    rw [if_pos rfl, Option.some.injEq] at hheld
    subst hheld
    obtain ⟨ignore, input, hinput, ⟨hop, hr⟩ | ⟨hop, p, hp, hr⟩⟩ := hok.judged
    · exact ⟨_, _, chained_register hop hinput hr⟩
    · obtain ⟨before, hbefore⟩ := hok.held_of_successor hop
      change (st.before.names.get? (keyOf st.record)).map (·.current) = some p at hp
      rw [hbefore, Option.map_some, Option.some.injEq] at hp
      subst hp
      obtain ⟨root, rest, hchain⟩ := ih _ before hbefore
      exact ⟨root, _, hchain.successor hop hbefore hinput hr⟩
  · rw [if_neg hkey] at hheld
    obtain ⟨root, rest, hchain⟩ := ih key held hheld
    exact ⟨root, rest, hchain.extend_ne (Ne.symm hkey)⟩

/-! ## Control -/

/-- **Control comes by a transfer**: whoever controls the name and did not register it was named by
a transfer of the chain, signed by the controller of that time and countersigned by them, that
has settled. -/
theorem Chained.transferred (h : Chained C s key held root rest) {before after : List LogEntry}
    (hsplit : rest = before ++ after) {at_ : ℕ} (hat : ∀ e ∈ before, e.record.notBefore ≤ at_)
    (hne : controllerAfter root before at_ ≠ root.record.ownerKey) :
    ∃ earlier t later, before = earlier ++ t :: later ∧ t.record.op = .transfer ∧
      t.record.ownerKey = controllerAfter root before at_ ∧
      SignedBy C t.record (controllerAfter root earlier t.record.notBefore) ∧
      CoSignedBy C t.record t.record.ownerKey ∧ t.record.notBefore + settlementSeconds ≤ at_ := by
  have hordered := (List.pairwise_cons.1 h.ordered).2
  rw [hsplit, List.pairwise_append] at hordered
  have hsorted : (before.map fun e => moveOf e.record).Pairwise fun m m' => m.time ≤ m'.time := by
    rw [List.pairwise_map]
    refine hordered.1.imp fun {e e'} hle => ?_
    rw [time_moveOf, time_moveOf]
    exact hle
  have hnow : ∀ m ∈ before.map fun e => moveOf e.record, m.time ≤ at_ := by
    intro m hm
    obtain ⟨e, he, rfl⟩ := List.mem_map.1 hm
    rw [time_moveOf]
    exact hat e he
  -- a key other than the first owner's came by a transfer that has settled
  obtain ⟨moves, handed, moves', hmoves, hsettled⟩ := exists_hand_of_controller hsorted hnow hne
  obtain ⟨earlier, tail, rfl, -, htail⟩ := List.map_eq_append_iff.1 hmoves
  obtain ⟨t, later, rfl, ht, -⟩ := List.map_eq_cons_iff.1 htail
  have hop : t.record.op = .transfer := by
    by_contra hop
    rw [moveOf, if_neg hop] at ht
    simp at ht
  rw [moveOf, if_pos hop, Move.hand.injEq] at ht
  have hlink := h.links earlier t (later ++ after) (by rw [hsplit]; simp)
  exact ⟨earlier, t, later, rfl, hop, ht.1, hlink.signed, hlink.coSigned hop, by rw [ht.2]; exact hsettled⟩

/-- **Until a transfer settles control stays with who made it**, and so it does for as long after
any other record. -/
theorem Chained.unsettled (h : Chained C s key held root rest) {earlier middle after : List LogEntry}
    {t e : LogEntry} (hsplit : rest = earlier ++ t :: middle ++ e :: after)
    (hlt : e.record.notBefore < t.record.notBefore + settlementSeconds) :
    controllerAfter root (earlier ++ t :: middle) e.record.notBefore =
      controllerAfter root earlier t.record.notBefore := by
  have hordered := (List.pairwise_cons.1 h.ordered).2
  rw [hsplit, List.append_assoc, List.pairwise_append, List.cons_append, List.pairwise_cons,
    List.pairwise_append] at hordered
  obtain ⟨-, ⟨ht, -, -, hmiddle⟩, -⟩ := hordered
  have hconcat := @controllerAfter_concat root earlier t
  unfold controllerAfter titleAfter at hconcat ⊢
  rw [show earlier ++ t :: middle = (earlier ++ [t]) ++ middle by simp, List.map_append, run_append]
  refine @controller_run_of_lt _ _ _ t.record.notBefore _ _ _ (fun now hnow => ?_) (fun m hm => ?_) hlt
  · rw [hconcat, if_neg fun hn => hn.2 hnow]
  · obtain ⟨x, hx, rfl⟩ := List.mem_map.1 hm
    rw [time_moveOf]
    have hle := ht x (List.mem_append_left _ hx)
    have hle' := hmiddle x hx e List.mem_cons_self
    omega

/-- Control of a held name, along the records `rest` since its root registration. -/
structure SettledControl (C : Crypto) (s : Store) (key : String) (held : NameEntry) (root : LogEntry)
    (rest : List LogEntry) : Prop where
  chain : s.chain key = root :: rest
  register : root.record.op = .register ∧ root.hash = held.rootHash
  /-- The current record is the last of the chain. -/
  last : ∃ e ∈ (root :: rest).getLast?, e.record = held.current.record ∧ e.hash = held.current.hash
  /-- Every successor is signed by who controlled the name at its `notBefore`. -/
  signed : ∀ before e after, rest = before ++ e :: after →
    SignedBy C e.record (controllerAfter root before e.record.notBefore)
  /-- Who controls the name is the key the verifier asks a successor to be signed by. -/
  controls : ∀ at_, controllingKey held.current at_ = controllerAfter root rest at_
  /-- The indexed key is the one the current record is signed by. -/
  signer : held.current.signerKey = controllerAfter root rest.dropLast held.current.record.notBefore ∧
    SignedBy C held.current.record held.current.signerKey
  /-- Control comes by a settled transfer, which the controller signed and the recipient
  countersigned. -/
  transferred : ∀ before after at_, rest = before ++ after → (∀ e ∈ before, e.record.notBefore ≤ at_) →
    controllerAfter root before at_ ≠ root.record.ownerKey →
    ∃ earlier t later, before = earlier ++ t :: later ∧ t.record.op = .transfer ∧
      t.record.ownerKey = controllerAfter root before at_ ∧
      SignedBy C t.record (controllerAfter root earlier t.record.notBefore) ∧
      CoSignedBy C t.record t.record.ownerKey ∧ t.record.notBefore + settlementSeconds ≤ at_
  /-- No record before a transfer settles is accepted under another key than the transfer's own. -/
  unsettled : ∀ earlier t middle e after, rest = earlier ++ t :: middle ++ e :: after →
    t.record.op = .transfer → e.record.notBefore < t.record.notBefore + settlementSeconds →
    controllerAfter root (earlier ++ t :: middle) e.record.notBefore =
      controllerAfter root earlier t.record.notBefore

/-- **Control of a name only moves by a countersigned transfer that has settled.** -/
theorem control_moves_by_settled_transfer {steps : List Step} (hs : Run C steps s)
    (hheld : s.names.get? key = some held) :
    ∃ root rest, SettledControl C s key held root rest := by
  obtain ⟨root, rest, h⟩ := hs.chained hheld
  refine ⟨root, rest, ?_⟩
  exact { chain := h.chain, register := ⟨h.register, h.rootHash⟩, last := h.last
          signed := fun before e after hsplit => (h.links before e after hsplit).signed
          controls := h.controls, signer := ⟨h.signer, h.signed⟩
          transferred := fun before after at_ hsplit hat hne => h.transferred hsplit hat hne
          unsettled := fun earlier t middle e after hsplit _ hlt => h.unsettled hsplit hlt }

/-- The name of `first`, handed over by `transfer`. -/
theorem control_after_transfer : ∃ root rest, SettledControl Sample.crypto
    (Sample.enter (Sample.enter .empty Sample.first) Sample.transfer) (keyOf Sample.transfer.record)
    (Store.nextNameEntry Sample.crypto (Sample.enter .empty Sample.first) Sample.transfer.bytes
      Sample.transfer.record) root rest :=
  control_moves_by_settled_transfer
    (.append (.append .empty Sample.append_first) Sample.append_transfer)
    (by rw [Sample.enter, extend_names, OrdMap.get?_set_self])

end VayuWeb
