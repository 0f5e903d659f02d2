import VayuWeb.Base.Lineage
import VayuWeb.Proof.Race

/-!
# Deliveries

Encodings appended to an empty store, one after another and at one clock.

* `Run.registered_once`: at one clock a name whose holder is never displaced is registered once.
* `Run.not_displaced`: it is never displaced where no registration comes before one that would
  displace it (`Overtaken`).
* `Run.linked`: the records of a name that is registered once follow each other.
* `lineage_eq`: two logs that end with the same record of such a name hold the same records of it.
-/

namespace VayuWeb

open Lineage

variable {C : Crypto} {s s' : Store} {b : Bytes} {r : RegistryRecord} {now : ℕ} {key : String}

/-- The store after encodings have been delivered to an empty one, in the order given and at one
clock. -/
def deliveredStore (C : Crypto) (now : ℕ) (bs : List Bytes) : Store :=
  (appendAll C [] .empty (bs.map fun b => (b, now))).2

/-! ## The steps of a delivery -/

/-- The steps of a delivery are part of what was delivered. -/
theorem stepsOf_sublist (s : Store) (b : Bytes) (now : ℕ) (v : Verdict) :
    ((stepsOf s b now v).map fun st => (st.bytes, st.now)).Sublist [(b, now)] := by
  unfold stepsOf
  split <;> simp

/-- The steps of a list of appends stand in the order of the calls. -/
theorem appendAll_steps (calls : List (Bytes × ℕ)) : ∀ (steps : List Step) (s : Store),
    ∃ entered, (appendAll C steps s calls).1 = steps ++ entered ∧
      (entered.map fun st => (st.bytes, st.now)).Sublist calls := by
  induction calls with
  | nil => exact fun steps s => ⟨[], (List.append_nil _).symm, List.Sublist.refl _⟩
  | cons call calls ih =>
    intro steps s
    obtain ⟨b, now⟩ := call
    unfold appendAll
    split
    · rename_i v s' _
      obtain ⟨entered, heq, hsub⟩ := ih (steps ++ stepsOf s b now v) s'
      refine ⟨stepsOf s b now v ++ entered, by rw [heq, List.append_assoc], ?_⟩
      rw [List.map_append]
      exact (stepsOf_sublist s b now v).append hsub
    · obtain ⟨entered, heq, hsub⟩ := ih steps s
      exact ⟨entered, heq, hsub.cons _⟩

/-- A delivery is a run, whose steps stand in its order and at its clock. -/
theorem run_delivered (C : Crypto) (now : ℕ) (bs : List Bytes) :
    ∃ steps, Run C steps (deliveredStore C now bs) ∧ (steps.map (·.bytes)).Sublist bs ∧
      ∀ st ∈ steps, st.now = now := by
  obtain ⟨steps, heq, hsub⟩ := appendAll_steps (C := C) (bs.map fun b => (b, now)) [] .empty
  rw [List.nil_append] at heq
  refine ⟨steps, heq ▸ run_appendAll .empty _, ?_, ?_⟩
  · have hmap := hsub.map Prod.fst
    rw [List.map_map, List.map_map] at hmap
    exact (List.map_id bs) ▸ hmap
  · intro st hst
    obtain ⟨b, -, heq⟩ := List.mem_map.1 (hsub.subset (List.mem_map_of_mem hst))
    exact (congrArg Prod.snd heq).symm

/-- What a log holds, a step of the run entered. -/
theorem Run.exists_step {steps : List Step} (hs : Run C steps s) {e : LogEntry} (he : e ∈ s.entries) :
    ∃ st ∈ steps, st.bytes = e.bytes ∧ st.record = e.record := by
  have hmem : (e.bytes, e.record) ∈ s.entries.map fun e => (e.bytes, e.record) :=
    List.mem_map_of_mem he
  rw [hs.entries_eq] at hmem
  obtain ⟨st, hst, heq⟩ := List.mem_map.1 hmem
  exact ⟨st, hst, congrArg Prod.fst heq, congrArg Prod.snd heq⟩

/-- A record still holds its name at the clock it is accepted at. -/
theorem Step.OK.not_released {st : Step} (h : st.OK C) : isFullyReleased st.record st.now = false := by
  obtain ⟨es, hes⟩ := admission_of_admit h.admitted
  obtain ⟨ignore, input, -, ⟨-, hr⟩ | ⟨-, p, -, hr⟩⟩ := h.judged
  · exact not_released_of_backdate hes.parsed.term hr.backdate
  · exact not_released_of_backdate hes.parsed.term hr.backdate

/-- A registration that a store accepts is one that an empty store accepts. -/
theorem Step.OK.alone {st : Step} (h : st.OK C) (hop : st.record.op = .register) :
    OrdinaryOK C .empty st.bytes st.now st.record := by
  obtain ⟨ignore, input, hinput, ⟨-, hr⟩ | ⟨hnot, -⟩⟩ := h.judged
  · refine ⟨rfl, h.admitted, input, hinput, Or.inl ⟨hop, ?_⟩⟩
    exact { hr with
      free := fun hheld => by simp [isHeld, Store.empty, Store.view, Store.current] at hheld
      pow := powVerified_empty hr.pow }
  · exact absurd hop hnot

/-! ## Overtaken names -/

/-- A registration of a name that an empty store accepts. -/
structure Registers (C : Crypto) (now : ℕ) (key : String) (x : Contender) : Prop where
  accepted : ∃ s', Store.empty.append C x.1 now = .ok (.accept x.2 none false, s')
  register : x.2.op = .register
  key : keyOf x.2 = key

/-- **A name is overtaken** in an order of delivery when a registration of it comes before one by
another owner that is not late against it and has the smaller hash. -/
def Overtaken (C : Crypto) (now : ℕ) (bs : List Bytes) (key : String) : Prop :=
  ∃ x y : Contender, [x.1, y.1].Sublist bs ∧ Registers C now key x ∧ Registers C now key y ∧
    y.2.ownerKey ≠ x.2.ownerKey ∧ ¬ LateAgainst x y ∧ Below C y x

/-- A name overtaken in a delivery is overtaken in every longer one. -/
theorem Overtaken.mono {bs bs' : List Bytes} (h : Overtaken C now bs key) (hsub : bs.Sublist bs') :
    Overtaken C now bs' key := by
  obtain ⟨x, y, hpair, hrest⟩ := h
  exact ⟨x, y, hpair.trans hsub, hrest⟩

theorem Step.OK.registers {st : Step} (h : st.OK C) (hop : st.record.op = .register) :
    Registers C st.now (keyOf st.record) (st.bytes, st.record) :=
  { accepted := ⟨_, append_ordinary (h.alone hop)⟩, register := hop, key := rfl }

/-- The holder of a name is in the log. -/
theorem Indexed.exists_current (hs : Indexed C s) {held : NameEntry}
    (hheld : s.names.get? key = some held) :
    ∃ e ∈ s.history key, e.record = held.current.record ∧ e.hash = held.current.hash := by
  have hcurrent := hs.current key
  rw [hheld, Option.map_some] at hcurrent
  obtain ⟨e, he, heq⟩ := Option.map_eq_some_iff.1 hcurrent.symm
  exact ⟨e, List.mem_of_getLast? he, congrArg Prod.fst heq, congrArg Prod.snd heq⟩

/-- **A second registration comes by the merge**, at one clock: the name is held. -/
theorem merge_of_registered {steps : List Step} {st : Step} (hs : Run C steps st.before) (hok : st.OK C)
    (hnow : ∀ st' ∈ steps, st'.now = st.now) (hop : st.record.op = .register)
    (hne : st.before.registrations (keyOf st.record) ≠ []) : st.path = .merge := by
  have hi := hs.indexed
  cases hpath : st.path with
  | merge => rfl
  -- a registration that was not merged found the name free, but one stands there since the same clock
  | ordinary =>
    exfalso
    have hroot := hi.root (keyOf st.record)
    rw [List.getLast?_eq_some_getLast hne, Option.map_some] at hroot
    obtain ⟨held, hheld, -⟩ := Option.map_eq_some_iff.1 hroot
    obtain ⟨e, he, hcurrent, -⟩ := hi.exists_current hheld
    obtain ⟨st', hst', -, hrecord⟩ := hs.exists_step (List.mem_of_mem_filter he)
    have hreleased := (hs.steps_ok st' hst').not_released
    rw [hrecord, hcurrent, hnow st' hst'] at hreleased
    obtain ⟨input, -, ⟨-, hr⟩ | ⟨hnot, -⟩⟩ := (hok.ordinary hpath).judged
    · have hcur : st.before.current st.record.name st.record.tld = some held.current := by
        change (st.before.names.get? (keyOf st.record)).map (·.current) = _
        rw [hheld]
        rfl
      have hheldAt : isHeld (st.before.current st.record.name st.record.tld) (st.before.view C) st.now
          = true := by
        rw [hcur]
        simp [isHeld, Store.view, Store.fullyReleased, hreleased]
      exact absurd (hr.free hheldAt) (by simp)
    · exact hnot hop

/-- **A name whose holder is never displaced is registered once**, in a run at one clock. -/
theorem Run.registered_once {steps : List Step} (hs : Run C steps s) (hnow : ∀ st ∈ steps, st.now = now)
    (hmerge : ∀ st ∈ steps, keyOf st.record = key → st.path ≠ .merge) :
    (s.registrations key).length ≤ 1 := by
  refine Run.induction (P := fun steps s => (∀ st ∈ steps, st.now = now) →
    (∀ st ∈ steps, keyOf st.record = key → st.path ≠ .merge) → (s.registrations key).length ≤ 1)
    ?_ ?_ hs hnow hmerge
  · intro _ _
    simp [Store.registrations, Store.empty]
  intro steps st hs ih hok hnow hmerge
  have hbefore := ih (fun st' hst' => hnow st' (List.mem_append_left _ hst')) fun st' hst' =>
    hmerge st' (List.mem_append_left _ hst')
  rw [Step.after, registrations_extend]
  by_cases hreg : keyOf st.record = key ∧ st.record.op = .register
  · obtain ⟨rfl, hop⟩ := hreg
    rw [if_pos ⟨rfl, hop⟩]
    by_cases hnil : st.before.registrations (keyOf st.record) = []
    · rw [hnil]
      rfl
    · have hclock : ∀ st' ∈ steps, st'.now = st.now := fun st' hst' =>
        (hnow st' (List.mem_append_left _ hst')).trans (hnow st (by simp)).symm
      exact absurd (merge_of_registered hs hok hclock hop hnil) (hmerge st (by simp) rfl)
  · rw [if_neg hreg, List.append_nil]
    exact hbefore

/-- **What displaces the only registration of a name overtakes it.** -/
theorem overtakes {steps : List Step} {st : Step} (hs : Run C steps st.before) (hok : st.OK C)
    (hnow : ∀ st' ∈ steps ++ [st], st'.now = now) (hpath : st.path = .merge)
    (hone : (st.before.registrations (keyOf st.record)).length ≤ 1) :
    Overtaken C now ((steps ++ [st]).map (·.bytes)) (keyOf st.record) := by
  have hi := hs.indexed
  obtain ⟨held, root, h⟩ := hok.merge hpath
  obtain ⟨first, last, hfirst, hlast, hrootHash⟩ := hi.registrations_of_held h.heldAt
  -- the registration the guards read is the one that holds the name
  obtain rfl : first = last := by
    cases hregs : st.before.registrations (keyOf st.record) with
    | nil =>
      rw [hregs] at hfirst
      simp at hfirst
    | cons x rest =>
      rw [hregs, List.length_cons] at hone
      obtain rfl : rest = [] := List.length_eq_zero_iff.1 (by omega)
      rw [hregs] at hfirst hlast
      simp only [List.head?_cons, List.getLast?_singleton, Option.some.injEq] at hfirst hlast
      rw [← hfirst, ← hlast]
  have hrootAt := h.rootAt
  rw [hi.rootEntryFor_eq, hfirst, Option.some.injEq] at hrootAt
  subst hrootAt
  have hmem := List.mem_of_mem_head? hfirst
  simp only [Store.registrations, List.mem_filter, decide_eq_true_eq] at hmem
  obtain ⟨hmem, hkey, hregister⟩ := hmem
  obtain ⟨st', hst', hbytes, hrecord⟩ := hs.exists_step hmem
  have hfirst := (hs.steps_ok st' hst').registers (by rw [hrecord]; exact hregister)
  rw [hbytes, hrecord, hkey, hnow st' (List.mem_append_left _ hst')] at hfirst
  have hsecond := hok.registers h.op
  rw [hnow st (by simp)] at hsecond
  have hpair : [first.bytes, st.bytes].Sublist ((steps ++ [st]).map (·.bytes)) := by
    rw [List.map_append]
    exact (List.singleton_sublist.2 (hbytes ▸ List.mem_map_of_mem hst')).append (List.Sublist.refl _)
  have hlower := h.smaller
  rw [← hrootHash, (hi.entry first hmem).2] at hlower
  have hconcurrent := h.concurrent
  refine ⟨(first.bytes, first.record), (st.bytes, st.record), hpair, hfirst, hsecond, h.stranger, ?_, hlower⟩
  unfold LateAgainst
  simp only
  omega

/-- **The holder of a name that is not overtaken is never displaced**, in a run at one clock. -/
theorem Run.not_displaced {steps : List Step} (hs : Run C steps s) (hnow : ∀ st ∈ steps, st.now = now)
    (hnot : ¬ Overtaken C now (steps.map (·.bytes)) key) :
    ∀ st ∈ steps, keyOf st.record = key → st.path ≠ .merge := by
  refine Run.induction (P := fun steps _ => (∀ st ∈ steps, st.now = now) →
    ¬ Overtaken C now (steps.map (·.bytes)) key →
      ∀ st ∈ steps, keyOf st.record = key → st.path ≠ .merge) (by simp) ?_ hs hnow hnot
  intro steps st hs ih hok hnow hnot
  have hbefore := ih (fun st' hst' => hnow st' (List.mem_append_left _ hst')) fun hover => by
    apply hnot
    rw [List.map_append]
    exact hover.mono (List.sublist_append_left _ _)
  intro st' hst' hkey hpath
  rcases List.mem_append.1 hst' with hst' | hst'
  · exact hbefore st' hst' hkey hpath
  · rw [List.mem_singleton.1 hst'] at hkey hpath
    subst hkey
    have hone := hs.registered_once (fun st' hst' => hnow st' (List.mem_append_left _ hst')) hbefore
    exact hnot (overtakes hs hok hnow hpath hone)

/-! ## The records of a name that is registered once -/

/-- Contenders as the nodes of a chain: their sequence number, their hash and the hash they follow. -/
def contenderKind (C : Crypto) : Kind Contender Bytes :=
  { slot := fun x => x.2.seq, id := hashOf C, parent := fun x => x.2.prevHash }

/-- The records a log holds of a name, the newest first. -/
def Store.lineage (s : Store) (key : String) : List Contender :=
  ((s.history key).map fun e => (e.bytes, e.record)).reverse

/-- The lineage of a name is its records in the log. -/
theorem mem_lineage {x : Contender} : x ∈ s.lineage key ↔
    ∃ e ∈ s.entries, keyOf e.record = key ∧ (e.bytes, e.record) = x := by
  simp [Store.lineage, Store.history, and_assoc]

/-- The lineage of a name once a record is appended. -/
theorem lineage_extend : (s.extend C b r).lineage key =
    if keyOf r = key then (b, r) :: s.lineage key else s.lineage key := by
  unfold Store.lineage
  rw [history_extend]
  by_cases hkey : keyOf r = key
  · rw [if_pos hkey, if_pos hkey, List.map_append, List.reverse_append]
    rfl
  · rw [if_neg hkey, if_neg hkey, List.append_nil]

/-- The tip of the records of a name is its holder. -/
theorem Indexed.tip (hs : Indexed C s) (key : String) :
    (s.names.get? key).map (fun held => (held.current.record, held.current.hash)) =
      (s.lineage key).head?.map fun x => (x.2, hashOf C x) := by
  rw [hs.current, Store.lineage, List.head?_reverse, List.getLast?_map, Option.map_map]
  cases hlast : (s.history key).getLast? with
  | none => rfl
  | some e =>
    have he : e ∈ s.entries := List.mem_of_mem_filter (List.mem_of_getLast? hlast)
    rw [Option.map_some, Option.map_some, (hs.entry e he).2]
    rfl

/-- A name without a registration has no records. -/
theorem Indexed.lineage_eq_nil (hs : Indexed C s) (h : s.registrations key = []) : s.lineage key = [] := by
  have hroot := hs.root key
  rw [h, List.getLast?_nil, Option.map_none, Option.map_eq_none_iff] at hroot
  have htip := hs.tip key
  rw [hroot, Option.map_none] at htip
  cases hlineage : s.lineage key with
  | nil => rfl
  | cons x below =>
    rw [hlineage] at htip
    simp at htip

/-- **The records of a name that is registered once follow each other**, along every run. -/
theorem Run.linked {steps : List Step} (hs : Run C steps s) (hone : (s.registrations key).length ≤ 1) :
    Linked (contenderKind C) (s.lineage key) := by
  refine Run.induction (P := fun _ s => (s.registrations key).length ≤ 1 →
    Linked (contenderKind C) (s.lineage key)) (fun _ => .nil) ?_ hs hone
  intro steps st hs ih hok hone
  rw [Step.after, registrations_extend, List.length_append] at hone
  have hbefore := ih (by omega)
  rw [Step.after, lineage_extend]
  by_cases hkey : keyOf st.record = key
  swap
  · rw [if_neg hkey]
    exact hbefore
  subst hkey
  rw [if_pos rfl]
  have hi := hs.indexed
  refine .cons hbefore ?_
  obtain ⟨ignore, input, -, ⟨hop, hr⟩ | ⟨hop, p, hp, hr⟩⟩ := hok.judged
  -- the only REGISTER of the name, so the lineage was empty before it
  · rw [if_pos ⟨rfl, hop⟩, List.length_singleton] at hone
    rw [hi.lineage_eq_nil (List.length_eq_zero_iff.1 (by omega))]
    exact follows_nil.2 hr.seq
  · obtain ⟨held, hheld⟩ := hok.held_of_successor hop
    change (st.before.names.get? (keyOf st.record)).map (·.current) = some p at hp
    rw [hheld, Option.map_some, Option.some.injEq] at hp
    subst hp
    have htip := hi.tip (keyOf st.record)
    rw [hheld, Option.map_some] at htip
    -- a successor links to the tip, which is the record that the name holds
    cases hlineage : st.before.lineage (keyOf st.record) with
    | nil =>
      rw [hlineage] at htip
      simp at htip
    | cons tip below =>
      rw [hlineage] at htip hbefore
      simp only [List.head?_cons, Option.map_some, Option.some.injEq, Prod.mk.injEq] at htip
      have hseq := hr.seq
      have hprev := hr.prevHash
      rw [htip.1] at hseq
      rw [htip.2] at hprev
      cases hbefore with
      | cons _ follows =>
        have hslot : tip.2.seq = below.length := follows.1
        exact follows_cons.2 ⟨by rw [← hslot]; exact hseq, hprev⟩

/-- **Two logs that end with the same record of a name hold the same records of it**, where it is
registered once in each and no two records share a hash. -/
theorem lineage_eq {steps steps' : List Step} (hs : Run C steps s) (hs' : Run C steps' s')
    (hone : (s.registrations key).length ≤ 1) (hone' : (s'.registrations key).length ≤ 1)
    (hsame : (s.names.get? key).map (·.current.record) = (s'.names.get? key).map (·.current.record))
    (hhash : ∀ e ∈ s.entries, ∀ e' ∈ s'.entries, e.hash = e'.hash → e.bytes = e'.bytes) :
    s.lineage key = s'.lineage key := by
  have htip := congrArg (Option.map Prod.fst) (hs.indexed.tip key)
  have htip' := congrArg (Option.map Prod.fst) (hs'.indexed.tip key)
  rw [Option.map_map, Option.map_map] at htip htip'
  have hrecords : (s.lineage key).head?.map Prod.snd = (s'.lineage key).head?.map Prod.snd :=
    htip.symm.trans (hsame.trans htip')
  have hlinked := hs.linked hone
  have hlinked' := hs'.linked hone'
  have hmem := fun x => @mem_lineage s key x
  have hmem' := fun x => @mem_lineage s' key x
  -- a record has one encoding
  have hadmitted : ∀ x ∈ s.lineage key, admitBytes x.1 = .ok x.2 := by
    intro x hx
    obtain ⟨e, he, -, rfl⟩ := (hmem x).1 hx
    exact (hs.indexed.entry e he).1
  have hadmitted' : ∀ x ∈ s'.lineage key, admitBytes x.1 = .ok x.2 := by
    intro x hx
    obtain ⟨e, he, -, rfl⟩ := (hmem' x).1 hx
    exact (hs'.indexed.entry e he).1
  have hid : ∀ x ∈ s.lineage key, ∀ y ∈ s'.lineage key, hashOf C x = hashOf C y → x = y := by
    intro x hx y hy heq
    have hax := hadmitted x hx
    have hay := hadmitted' y hy
    obtain ⟨e, he, -, rfl⟩ := (hmem x).1 hx
    obtain ⟨e', he', -, rfl⟩ := (hmem' y).1 hy
    have hhashes : e.hash = e'.hash := by
      rw [(hs.indexed.entry e he).2, (hs'.indexed.entry e' he').2]
      exact heq
    have hbytes := hhash e he e' he' hhashes
    simp only at hax hay
    rw [hbytes, hay, Except.ok.injEq] at hax
    rw [hbytes, hax]
  cases hx : s.lineage key with
  | nil =>
    cases hy : s'.lineage key with
    | nil => rfl
    | cons y below =>
      rw [hx, hy] at hrecords
      simp at hrecords
  | cons x below =>
    cases hy : s'.lineage key with
    | nil =>
      rw [hx, hy] at hrecords
      simp at hrecords
    | cons y below' =>
      rw [hx] at hlinked hadmitted hid hrecords
      rw [hy] at hlinked' hadmitted' hid hrecords
      simp only [List.head?_cons, Option.map_some, Option.some.injEq] at hrecords
      have hax := hadmitted x List.mem_cons_self
      have hay := hadmitted' y List.mem_cons_self
      rw [hrecords] at hax
      obtain rfl : x = y := Prod.ext ( bytes_eq_of_admit hax hay) hrecords
      rw [hlinked.eq_of_tip hlinked' fun c hc c' hc' =>
        hid c (List.mem_cons_of_mem _ hc) c' (List.mem_cons_of_mem _ hc')]

end VayuWeb
