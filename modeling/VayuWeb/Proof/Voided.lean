import VayuWeb.Proof.Conflict

/-!
# What a merge voids

* `Descends`: the records of the chain that a registration starts.
* `descends_iff`: while a name has been registered once, its chain is all the log holds of it.
* `voidedChain_eq`: the pass over a name's records in the order of `seq` takes every successor of
  what it has taken.
* `voided_exact_iff`: the list of voided records is the displaced chain exactly while the name has
  been registered once.
* `voided_displaced_before`: after two merges the list names the registration displaced first.
-/

namespace VayuWeb

open Bytes

variable {C : Crypto} {s s' : Store} {b : Bytes} {now : ℕ} {r : RegistryRecord} {key : String} {rootHash : Bytes}
  {e root : LogEntry} {held : NameEntry} {steps : List Step}

/-! ## The chain of a registration -/

/-- The entries of the log that descend from a registration: the registration itself, and what
links to one of them through `prevHash`. -/
inductive Descends (s : Store) (rootHash : Bytes) : LogEntry → Prop
  | root {e : LogEntry} (mem : e ∈ s.entries) (op : e.record.op = .register) (hash : e.hash = rootHash) :
      Descends s rootHash e
  | link {e p : LogEntry} (mem : e ∈ s.entries) (op : e.record.op ≠ .register) (previous : Descends s rootHash p)
      (prevHash : e.record.prevHash = p.hash) : Descends s rootHash e

theorem Descends.mem (h : Descends s rootHash e) : e ∈ s.entries := by
  cases h with
  | root mem _ _ => exact mem
  | link mem _ _ _ => exact mem

/-- Entries of one hash are one entry. -/
theorem Indexed.eq_of_hash (hs : Indexed C s) {e e' : LogEntry} (he : e ∈ s.entries) (he' : e' ∈ s.entries)
    (h : e.hash = e'.hash) : e = e' :=
  List.inj_on_of_nodup_map hs.nodup he he' h

/-- The history of a name is its records in the log. -/
theorem mem_history : e ∈ s.history key ↔ e ∈ s.entries ∧ keyOf e.record = key := by
  simp [Store.history]

/-- The registrations of a name are the REGISTERs in its history. -/
theorem mem_registrations : e ∈ s.registrations key ↔ e ∈ s.history key ∧ e.record.op = .register := by
  simp [Store.registrations, Store.history, and_assoc]

/-- **The chain of a name registered once** is all the log holds of the name. -/
theorem descends_iff (run : Run C steps s) (hone : s.registrations key = [root]) :
    Descends s root.hash e ↔ e ∈ s.history key := by
  have hs := run.indexed
  have hroot : root ∈ s.registrations key := by simp [hone]
  obtain ⟨hrootMem, hrootOp⟩ := mem_registrations.1 hroot
  constructor
  · intro h
    induction h with
    | root mem op hash => exact hs.eq_of_hash mem (mem_history.1 hrootMem).1 hash ▸ hrootMem
    | link mem op previous prevHash ih =>
      obtain ⟨j, hj⟩ := List.mem_iff_getElem?.1 mem
      obtain ⟨m, p, hsucceeds⟩ := run.succeeds hj op
      have hp := hs.eq_of_hash (List.mem_of_getElem? hsucceeds.stands) previous.mem
        (hsucceeds.prevHash.symm.trans prevHash)
      rw [← hp] at ih
      exact mem_history.2 ⟨mem, hsucceeds.key.symm.trans (mem_history.1 ih).2⟩
  · intro h
    obtain ⟨hmem, hkey⟩ := mem_history.1 h
    obtain ⟨j, hj⟩ := List.mem_iff_getElem?.1 hmem
    -- by the position in the log
    induction j using Nat.strong_induction_on generalizing e with
    | _ j ih =>
      by_cases hop : e.record.op = .register
      · have hreg : e ∈ s.registrations key := mem_registrations.2 ⟨h, hop⟩
        rw [hone, List.mem_singleton] at hreg
        exact .root hmem hop (by rw [hreg])
      · obtain ⟨m, p, hsucceeds⟩ := run.succeeds hj hop
        have hpmem := List.mem_of_getElem? hsucceeds.stands
        have hpkey : keyOf p.record = key := hsucceeds.key.trans hkey
        have hprevious := ih m hsucceeds.lt (mem_history.2 ⟨hpmem, hpkey⟩) hpmem hpkey hsucceeds.stands
        exact .link hmem hop hprevious hsucceeds.prevHash

/-! ## The pass over the records -/

/-- One round of `voidedChain`, where no candidate is the losing object. -/
def voidStep (s : List Candidate × List Bytes) (candidate : Candidate) : List Candidate × List Bytes :=
  if s.2.any fun h => candidate.record.prevHash = h then (s.1 ++ [candidate], s.2 ++ [candidate.hash]) else s

/-- The chain that is voided, as one pass in sequence. -/
theorem voidedChain_eq_foldl (loser : Candidate) (chain : List Candidate) :
    voidedChain (fun _ => false) loser chain =
      ((chain.insertionSort fun a b => a.record.seq ≤ b.record.seq).foldl voidStep ([loser], [loser.hash])).1 := rfl

/-- What has been taken stays taken. -/
theorem mem_foldl_voidStep {c : Candidate} (l : List Candidate) : ∀ st : List Candidate × List Bytes,
    c ∈ st.1 → c ∈ (l.foldl voidStep st).1 := by
  induction l with
  | nil =>
    intro st h
    exact h
  | cons d l ih =>
    intro st h
    apply ih
    unfold voidStep
    split_ifs
    · exact List.mem_append_left _ h
    · exact h

/-- Where every record links to one before it, every record is taken. -/
theorem foldl_voidStep_eq (l : List Candidate) : ∀ (taken : List Candidate) (hashes : List Bytes),
    (∀ as c bs, l = as ++ c :: bs → c.record.prevHash ∈ hashes ∨ ∃ d ∈ as, c.record.prevHash = d.hash) →
      (l.foldl voidStep (taken, hashes)).1 = taken ++ l := by
  induction l with
  | nil =>
    intro taken hashes _
    exact (List.append_nil _).symm
  | cons c l ih =>
    intro taken hashes hlinks
    have hc : c.record.prevHash ∈ hashes := by
      rcases hlinks [] c l rfl with h | ⟨d, hd, -⟩
      · exact h
      · exact absurd hd List.not_mem_nil
    have hstep : voidStep (taken, hashes) c = (taken ++ [c], hashes ++ [c.hash]) := by
      rw [voidStep, if_pos]
      rw [List.any_eq_true]
      exact ⟨_, hc, by simp⟩
    rw [List.foldl_cons, hstep, ih, List.append_assoc, List.singleton_append]
    intro as d bs hsplit
    rcases hlinks (c :: as) d bs (by rw [hsplit, List.cons_append]) with h | ⟨d', hd', hprev⟩
    · exact Or.inl (List.mem_append_left _ h)
    · rcases List.mem_cons.1 hd' with rfl | hd'
      · exact Or.inl (List.mem_append_right _ (by rw [hprev]; exact List.mem_singleton_self _))
      · exact Or.inr ⟨d', hd', hprev⟩

/-! ## The voided list -/

/-- A REGISTER in a log follows nothing. -/
theorem Run.prevHash_register (run : Run C steps s) (he : e ∈ s.entries) (hop : e.record.op = .register) :
    e.record.prevHash = zeroHash := by
  have hall : ∀ e ∈ s.entries, e.record.op = .register → e.record.prevHash = zeroHash := by
    refine run.store_induction (P := fun s => ∀ e ∈ s.entries, e.record.op = .register → e.record.prevHash = zeroHash)
      (fun e he => absurd he List.not_mem_nil) ?_
    intro st ih hok e he hop
    rw [Step.after, extend_entries, List.mem_append, List.mem_singleton] at he
    rcases he with he | rfl
    · exact ih e he hop
    · obtain ⟨ignore, input, -, ⟨-, hr⟩ | ⟨hn, -⟩⟩ := hok.judged
      · exact hr.prevHash
      · exact absurd hop hn
  exact hall e he hop

theorem not_lt_zeros {a : Bytes} {n : ℕ} (hlen : a.length = n) : ¬ a < List.replicate n 0 := by
  induction a generalizing n with
  | nil =>
    subst hlen
    exact List.not_lt_nil _
  | cons x a ih =>
    subst hlen
    rw [List.length_cons, List.replicate_succ, List.cons_lt_cons_iff]
    rintro (hx | ⟨-, hrest⟩)
    · exact absurd hx (UInt8.not_lt.2 UInt8.zero_le)
    · exact ih rfl hrest

/-- The registration that a merge displaces does not hash to zeros. -/
theorem MergeOK.rootHash_ne_zero (h : MergeOK C s b now r held root) : held.rootHash ≠ zeroHash := by
  intro hzero
  have hlower := h.smaller
  rw [hzero] at hlower
  exact not_lt_zeros (C.length_blake2b _) hlower

/-- A name's records in the order of `seq`. -/
def Store.inSequence (s : Store) (key : String) : List LogEntry :=
  (s.history key).insertionSort fun a b => a.record.seq ≤ b.record.seq

/-- The records in sequence are the history. -/
theorem inSequence_perm (s : Store) (key : String) : (s.inSequence key).Perm (s.history key) :=
  List.perm_insertionSort _ _

theorem mem_inSequence : e ∈ s.inSequence key ↔ e ∈ s.history key := (inSequence_perm s key).mem_iff

theorem inSequence_nodup (run : Run C steps s) (key : String) : (s.inSequence key).Nodup := by
  rw [(inSequence_perm s key).nodup_iff]
  exact (List.Nodup.of_map _ run.indexed.nodup).filter _

/-- The records in sequence are in sequence. -/
theorem inSequence_pairwise (s : Store) (key : String) :
    (s.inSequence key).Pairwise fun a b => a.record.seq ≤ b.record.seq := by
  have htotal : Std.Total fun a b : LogEntry => a.record.seq ≤ b.record.seq := ⟨fun a b => Nat.le_total _ _⟩
  have htrans : IsTrans LogEntry fun a b => a.record.seq ≤ b.record.seq := ⟨fun a b c => Nat.le_trans⟩
  exact List.pairwise_insertionSort _ _

/-- A successor is in the history of its predecessor's name, one `seq` later. -/
theorem Run.predecessor (run : Run C steps s) (he : e ∈ s.history key) (hop : e.record.op ≠ .register) :
    ∃ p ∈ s.history key, e.record.seq = p.record.seq + 1 ∧ e.record.prevHash = p.hash := by
  obtain ⟨hmem, hkey⟩ := mem_history.1 he
  obtain ⟨j, hj⟩ := List.mem_iff_getElem?.1 hmem
  obtain ⟨m, p, hsucceeds⟩ := run.succeeds hj hop
  exact ⟨p, mem_history.2 ⟨List.mem_of_getElem? hsucceeds.stands, hsucceeds.key.trans hkey⟩, hsucceeds.seq,
    hsucceeds.prevHash⟩

/-- In the order of `seq` the registration comes first, and successors follow it. -/
theorem inSequence_eq_cons (run : Run C steps s) (hone : s.registrations key = [root]) :
    ∃ rest, s.inSequence key = root :: rest ∧ ∀ e ∈ rest, e.record.op ≠ .register := by
  have hroot : root ∈ s.registrations key := by simp [hone]
  obtain ⟨hrootMem, hrootOp⟩ := mem_registrations.1 hroot
  have hrootSeq := run.indexed.seq root (mem_history.1 hrootMem).1 hrootOp
  have honly : ∀ e ∈ s.history key, e.record.op = .register → e = root := by
    intro e he hop
    have hmem : e ∈ s.registrations key := mem_registrations.2 ⟨he, hop⟩
    rwa [hone, List.mem_singleton] at hmem
  have hmem := mem_inSequence.2 hrootMem
  have hpairs := inSequence_pairwise s key
  have hnodup := inSequence_nodup run key
  cases hsorted : s.inSequence key with
  | nil =>
    rw [hsorted] at hmem
    exact absurd hmem List.not_mem_nil
  | cons c rest =>
    have hc : c ∈ s.history key := mem_inSequence.1 (by rw [hsorted]; exact List.mem_cons_self)
    rw [hsorted] at hmem hpairs hnodup
    -- a REGISTER has the least `seq`, and any other record one before it
    have hle : c.record.seq ≤ root.record.seq := by
      rcases List.mem_cons.1 hmem with rfl | hrest
      · exact le_refl _
      · exact (List.pairwise_cons.1 hpairs).1 root hrest
    have hop : c.record.op = .register := by
      by_contra hop
      obtain ⟨p, -, hseq, -⟩ := run.predecessor hc hop
      omega
    obtain rfl := honly c hc hop
    refine ⟨rest, rfl, ?_⟩
    intro e he hop
    have hmemE : e ∈ s.history key := mem_inSequence.1 (by rw [hsorted]; exact List.mem_cons_of_mem _ he)
    exact (List.nodup_cons.1 hnodup).1 (honly e hmemE hop ▸ he)

/-- **The chain of a name registered once is voided whole.** -/
theorem voidedChain_eq (run : Run C steps s) (hone : s.registrations key = [root]) (hzero : root.hash ≠ zeroHash) :
    voidedChain (fun _ => false) (Store.candidateOf root) ((s.history key).map Store.candidateOf) =
      (s.inSequence key).map Store.candidateOf := by
  have hsort : ((s.history key).map Store.candidateOf).insertionSort (fun a b => a.record.seq ≤ b.record.seq) =
      (s.inSequence key).map Store.candidateOf := by
    symm
    apply List.map_insertionSort
    intro a _ b _
    exact Iff.rfl
  obtain ⟨rest, hseq, hsuccessors⟩ := inSequence_eq_cons run hone
  have hroot : root ∈ s.registrations key := by simp [hone]
  obtain ⟨hrootMem, hrootOp⟩ := mem_registrations.1 hroot
  have hprev := run.prevHash_register (mem_history.1 hrootMem).1 hrootOp
  have hpairs := inSequence_pairwise s key
  -- a REGISTER names no predecessor, so the root voids nothing of its own
  have hself : voidStep ([Store.candidateOf root], [root.hash]) (Store.candidateOf root) =
      ([Store.candidateOf root], [root.hash]) := by
    rw [voidStep, if_neg]
    simp only [List.any_cons, List.any_nil, Bool.or_false, decide_eq_true_eq]
    change root.record.prevHash ≠ root.hash
    rw [hprev]
    exact Ne.symm hzero
  rw [voidedChain_eq_foldl, hsort, hseq, List.map_cons, List.foldl_cons]
  change (List.foldl voidStep (voidStep ([Store.candidateOf root], [root.hash]) _) _).1 = _
  rw [hself, foldl_voidStep_eq, List.singleton_append]
  intro as c bs hsplit
  obtain ⟨before, tail, rfl, rfl, htail⟩ := List.map_eq_append_iff.1 hsplit
  obtain ⟨e, after, rfl, rfl, rfl⟩ := List.map_eq_cons_iff.1 htail
  have he : e ∈ s.history key := mem_inSequence.1 (by rw [hseq]; simp)
  obtain ⟨p, hp, hpseq, hplink⟩ := run.predecessor he (hsuccessors e (by simp))
  have hpmem := mem_inSequence.2 hp
  rw [hseq] at hpmem hpairs
  rcases List.mem_cons.1 hpmem with rfl | hrest
  · exact Or.inl (by rw [List.mem_singleton]; exact hplink)
  · right
    rcases List.mem_append.1 hrest with hbefore | hafter
    · exact ⟨Store.candidateOf p, List.mem_map_of_mem hbefore, hplink⟩
    · -- what stands later has no smaller `seq`
      exfalso
      rcases List.mem_cons.1 hafter with rfl | hafter
      · omega
      · have hrestPairs := (List.pairwise_append.1 (List.pairwise_cons.1 hpairs).2).2.1
        have hle := (List.pairwise_cons.1 hrestPairs).1 p hafter
        omega

/-- A held record keeps its encoding. -/
theorem encodingOf_extend (run : Run C steps s) (he : e ∈ s.entries) :
    (s.extend C b r).encodingOf e.hash = some e.bytes := by
  have hfind : s.entries.find? (fun entry => entry.hash = e.hash) = some e := by
    cases hf : s.entries.find? (fun entry => entry.hash = e.hash) with
    | none => exact absurd (List.find?_eq_none.1 hf e he) (by simp)
    | some entry =>
      have hhash : entry.hash = e.hash := by simpa using List.find?_some hf
      rw [run.indexed.eq_of_hash (List.mem_of_find?_eq_some hf) he hhash]
  rw [Store.encodingOf, extend_entries, List.find?_append, hfind]
  rfl

/-- The voided list of a name registered once: the encodings of all the log holds of it. -/
theorem voidedBy_eq (run : Run C steps s) (hone : s.registrations (keyOf r) = [root]) (hzero : root.hash ≠ zeroHash) :
    s.voidedBy C b r root = (s.inSequence (keyOf r)).map (·.bytes) := by
  have hchain : s.voidedBy C b r root = ((s.inSequence (keyOf r)).map Store.candidateOf).filterMap
      fun c => (s.extend C b r).encodingOf c.hash := by
    rw [← voidedChain_eq run hone hzero]
    rfl
  have hencodings : ∀ e ∈ s.inSequence (keyOf r), (s.extend C b r).encodingOf e.hash = some e.bytes := by
    intro e he
    exact encodingOf_extend run (mem_history.1 (mem_inSequence.1 he)).1
  rw [hchain, List.filterMap_map]
  change (s.inSequence (keyOf r)).filterMap (fun e => (s.extend C b r).encodingOf e.hash) = _
  rw [List.filterMap_congr hencodings, ← List.filterMap_eq_map]
  rfl

/-- Entries of one encoding are one entry. -/
theorem Indexed.eq_of_bytes (hs : Indexed C s) {e e' : LogEntry} (he : e ∈ s.entries) (he' : e' ∈ s.entries)
    (h : e.bytes = e'.bytes) : e = e' := by
  apply hs.eq_of_hash he he'
  rw [(hs.entry e he).2, (hs.entry e' he').2, h]

/-- The list names each record of the displaced chain once, and nothing else. -/
structure VoidsExactly (s : Store) (rootHash : Bytes) (voided : List Bytes) : Prop where
  once : voided.Nodup
  mem : ∀ b, b ∈ voided ↔ ∃ e, Descends s rootHash e ∧ e.bytes = b

/-- The registration found first is always named. -/
theorem root_mem_voidedBy (run : Run C steps s) (hroot : s.rootEntryFor (keyOf r) = some root) :
    root.bytes ∈ s.voidedBy C b r root := by
  have hmem : root ∈ s.entries := List.mem_of_find?_eq_some hroot
  unfold Store.voidedBy
  rw [List.mem_filterMap]
  refine ⟨Store.candidateOf root, ?_, encodingOf_extend run hmem⟩
  rw [voidedChain_eq_foldl]
  exact mem_foldl_voidStep _ _ List.mem_cons_self

/-- Only a merge lists what it voids. -/
theorem merge_of_voided {voided : List Bytes} {duplicate : Bool}
    (h : s.append C b now = .ok (.accept r (some voided) duplicate, s')) :
    ∃ held root, MergeOK C s b now r held root ∧ voided = s.voidedBy C b r root := by
  cases duplicate with
  | true =>
    obtain ⟨hhas, -⟩ := append_duplicate h
    rw [Store.append, if_pos hhas] at h
    obtain ⟨record, -, h⟩ := Except.bind_eq_ok.1 h
    simp at h
  | false =>
    rcases append_cases h with ⟨-, hnot⟩ | ⟨r', -, hv, -⟩ | ⟨r', held, root, hok, hv, -⟩
    · exact absurd rfl (hnot r (some voided))
    · simp at hv
    · simp only [Verdict.accept.injEq, Option.some.injEq, and_true] at hv
      obtain ⟨rfl, rfl⟩ := hv
      exact ⟨held, root, hok, rfl⟩

/-- **The voided list is the displaced chain exactly while the name has been registered once.** -/
theorem voided_exact_iff {voided : List Bytes} {duplicate : Bool} (run : Run C steps s)
    (h : s.append C b now = .ok (.accept r (some voided) duplicate, s')) :
    ∃ held, s.names.get? (keyOf r) = some held ∧
      (VoidsExactly s held.rootHash voided ↔ (s.registrations (keyOf r)).length = 1) := by
  have hs := run.indexed
  obtain ⟨held, root, hmerge, hvoided⟩ := merge_of_voided h
  obtain ⟨first, last, hfirst, hlast, hlastHash⟩ := hs.registrations_of_held hmerge.heldAt
  have hroot := hmerge.rootAt
  rw [hs.rootEntryFor_eq, hfirst, Option.some.injEq] at hroot
  subst hroot
  have hfirstMem := mem_registrations.1 (List.mem_of_head? hfirst)
  have hiff := head_hash_eq_getLast_hash_iff (hs.nodup.sublist ((List.filter_sublist).map _)) hfirst hlast
  refine ⟨held, hmerge.heldAt, ?_⟩
  constructor
  · intro hexact
    -- the first registration is named, so it starts the chain
    have hnamed := (hexact.mem first.bytes).1 (by rw [hvoided]; exact root_mem_voidedBy run hmerge.rootAt)
    obtain ⟨e, hdescends, hbytes⟩ := hnamed
    obtain rfl := hs.eq_of_bytes hdescends.mem (mem_history.1 hfirstMem.1).1 hbytes
    cases hdescends with
    | root mem op hash => exact hiff.1 (hash.trans hlastHash.symm)
    | link mem op previous prevHash => exact absurd hfirstMem.2 op
  · intro hone
    have honly : s.registrations (keyOf r) = [first] := by
      obtain ⟨only, honly⟩ := List.length_eq_one_iff.1 hone
      rw [honly, List.head?_cons, Option.some.injEq] at hfirst
      rw [honly, hfirst]
    have hhash : first.hash = held.rootHash := (hiff.2 hone).trans hlastHash
    have hzero : first.hash ≠ zeroHash := hhash ▸ hmerge.rootHash_ne_zero
    rw [hvoided, voidedBy_eq run honly hzero, ← hhash]
    constructor
    · apply List.Nodup.map_on _ (inSequence_nodup run _)
      intro e he e' he' hbytes
      exact hs.eq_of_bytes (mem_history.1 (mem_inSequence.1 he)).1 (mem_history.1 (mem_inSequence.1 he')).1 hbytes
    · intro bytes
      rw [List.mem_map]
      apply exists_congr
      intro e
      rw [mem_inSequence, descends_iff run honly]

/-- When `rival` displaces `first`, that is what is voided. -/
theorem voided_exact_rival : ∃ held,
    (Sample.enter .empty Sample.first).names.get? (keyOf Sample.rival.record) = some held ∧
      (VoidsExactly (Sample.enter .empty Sample.first) held.rootHash [Sample.first.bytes] ↔
        ((Sample.enter .empty Sample.first).registrations (keyOf Sample.rival.record)).length = 1) :=
  voided_exact_iff (.append .empty Sample.append_first) Sample.append_rival

/-! ## Two merges -/

/-- A third registration of the name, as late as `rival`, with a smaller hash. -/
def thirdClaim : Sample.SampleRecord :=
  { op := .register, owner := Sample.ownerB, seq := 0, notBefore := 1700000000, notAfter := 1731536000,
    nonce := some (Sample.literal 16 0x00000000000000000000000000000050),
    prevHash := zeroHash,
    sig :=
      Sample.literal 32 0x26573f9e129a7481f788af75a9c286c527768f5624f4ee1a524e018ba36ea89b ++
        Sample.literal 32 0x4012d030cdaf1ad616b213f98d73b3da11036d5828fbc821863f93fa6844f60f,
    coSigNull := false }

/-- The primitives, on this record too. -/
def thirdCrypto : Crypto :=
  { ed25519Verify := fun signature message publicKey =>
      Sample.crypto.ed25519Verify signature message publicKey ||
        thirdClaim.sig = signature && thirdClaim.signer = publicKey && thirdClaim.message = message
    blake2b := fun b => (Sample.find
      ((withDomain recordHashPrefix thirdClaim.bytes [],
        Sample.literal 32 0x40b5fc829d56f1ebf9f5f33ff18a200d9fada2727806edb4f7dba2c845775269) ::
        Sample.digests) b).takeD 32 0
    sha256 := Sample.find
      ((thirdClaim.saltPreimage,
        Sample.literal 32 0xc7bc102e21d82ac5a4c0d504245d15ff82214ee7ec687e613549f9c57bbe2369) ::
        Sample.saltDigests)
    argon2id := fun nonce salt => Sample.find
      ((Sample.literal 16 0x00000000000000000000000000000050 ++ Sample.literal 16 0xc7bc102e21d82ac5a4c0d504245d15ff,
        Sample.literal 32 0x0644422589956adc5c1ba6fae04c22d40a700809a5860399a56334c2ea854151) ::
        Sample.tags) (nonce ++ salt)
    length_blake2b := fun _ => List.takeD_length _ _ _ }

/-- A store of one contender. -/
def firstHeld : Store := Store.empty.extend thirdCrypto Sample.first.bytes Sample.first.record

/-- The store with a second one behind it. -/
def rivalHeld : Store := firstHeld.extend thirdCrypto Sample.rival.bytes Sample.rival.record

theorem third_appends :
    Store.append thirdCrypto .empty Sample.first.bytes 1700000000 =
        .ok (.accept Sample.first.record none false, firstHeld) ∧
      firstHeld.append thirdCrypto Sample.rival.bytes 1700000000 =
        .ok (.accept Sample.rival.record (some [Sample.first.bytes]) false, rivalHeld) ∧
      rivalHeld.append thirdCrypto thirdClaim.bytes 1700000000 =
        .ok (.accept thirdClaim.record (some [Sample.first.bytes]) false,
          rivalHeld.extend thirdCrypto thirdClaim.bytes thirdClaim.record) := by
  decide +kernel

/-- After two merges the list names the registration displaced first, and not the one that the
merge displaces. -/
theorem voided_displaced_before : ¬ ∀ (C : Crypto) (steps : List Step) (s s' : Store) (b : Bytes) (now : ℕ)
    (r : RegistryRecord) (voided : List Bytes) (duplicate : Bool) (held : NameEntry), Run C steps s →
      s.append C b now = .ok (.accept r (some voided) duplicate, s') → s.names.get? (keyOf r) = some held →
        VoidsExactly s held.rootHash voided := by
  intro h
  obtain ⟨hfirst, hrival, hthird⟩ := third_appends
  have hheld : rivalHeld.names.get? (keyOf thirdClaim.record) =
      some (firstHeld.nextNameEntry thirdCrypto Sample.rival.bytes Sample.rival.record) := by
    rw [show keyOf thirdClaim.record = keyOf Sample.rival.record from rfl, rivalHeld, extend_names,
      OrdMap.get?_set_self]
  have hexact := h thirdCrypto _ rivalHeld _ _ _ _ _ _ _ (.append (.append .empty hfirst) hrival) hthird hheld
  have hmem : firstHeld.nextLogEntry thirdCrypto Sample.rival.bytes Sample.rival.record ∈ rivalHeld.entries :=
    List.mem_append_right _ List.mem_cons_self
  have hnamed := (hexact.mem Sample.rival.bytes).2 ⟨_, .root hmem rfl rfl, rfl⟩
  have hne : Sample.rival.bytes ≠ Sample.first.bytes := by decide +kernel
  exact hne (List.mem_singleton.1 hnamed)

end VayuWeb
