import VayuWeb.Proof.Ledger

/-!
# The registry's ledger after a torn write

A ledger is killed while it records a report, and a later run records another one. `survives_iff`: what the
later run recorded is held by every run after it when nothing was written of the torn entry, and else only
where the new entry happens to complete the torn one to an entry of its own.
-/

namespace VayuWeb.EquivocationLedger

open Bytes

variable {C : Crypto} {ledger : EquivocationLedger} {rs : List Report} {r x : Report} {tail lost file : Bytes}

/-! ## Runs -/

/-- A ledger and what was recorded since its file was new, in the runs so far. -/
inductive Session (C : Crypto) : EquivocationLedger → List Report → Prop where
  | opened {ledger : EquivocationLedger} : open_ C [] = .ok ledger → Session C ledger []
  | offered {ledger after : EquivocationLedger} {rs : List Report} {outcome : RecordOutcome} (r : Report) :
      Session C ledger rs →
      ledger.record C r.evidence r.origin = .ok (outcome, after) →
      Session C after (if outcome = .recorded then rs ++ [r] else rs)
  | reopened {ledger again : EquivocationLedger} {rs : List Report} {file : Bytes} : Session C ledger rs →
      ledger.file = some file → open_ C file = .ok again → Session C again rs

theorem inLimit_of_kept (h : Journal.Kept (rules C) rs) : ∀ r ∈ rs, InLimit r := by
  intro r hr
  obtain ⟨k, hk⟩ := h.proves r hr
  exact inLimit_of_fact hk

/-- Entries that were kept are read again, and reading goes on behind them. -/
theorem readEntries_kept (h : Journal.Kept (rules C) rs) (more : Bytes) :
    Journal.offerAll (rules C) [] (readEntries (rs.flatMap entryBytes ++ more)).1 =
      Journal.offerAll (rules C) rs (Stream.reads entries more).1 := by
  rw [readEntries_eq, reads_entries (inLimit_of_kept h), Journal.offerAll_append, Journal.offerAll_of_kept h]

/-- **The file holds the entries recorded, and the ledger holds them too.** -/
theorem Session.spec (h : Session C ledger rs) :
    Holds C ledger rs ∧ ledger.file = some (rs.flatMap entryBytes) ∧ Journal.Kept (rules C) rs := by
  induction h with
  | opened hopen =>
    obtain ⟨ledger', hopen', hholds, hfile⟩ := open_spec C []
    have heq := Except.ok.inj (hopen.symm.trans hopen')
    rw [heq]
    exact ⟨hholds, hfile, .nil⟩
  | @offered _ _ _ outcome r _ hrecord ih =>
    obtain ⟨hholds, hfile, hkept⟩ := ih
    obtain ⟨outcome', after', hrecord', hafter, hadmits, hfile'⟩ := record_spec hholds r
    obtain ⟨rfl, rfl⟩ := Prod.mk.inj (Except.ok.inj (hrecord.symm.trans hrecord'))
    by_cases houtcome : outcome = .recorded
    · rw [if_pos houtcome] at hfile' ⊢
      have hnew := hadmits.1 houtcome
      rw [Journal.offer_of_admits hnew] at hafter
      refine ⟨hafter, ?_, hkept.concat hnew⟩
      rw [hfile', hfile, Option.map_some, List.flatMap_append, List.flatMap_singleton]
    · rw [if_neg houtcome] at hfile' ⊢
      rw [Journal.offer_of_not fun hnew => houtcome (hadmits.2 hnew)] at hafter
      exact ⟨hafter, hfile'.trans hfile, hkept⟩
  -- the file is whole, so the reopened ledger holds what the old one held
  | reopened _ hwhole hopen ih =>
    obtain ⟨-, hfile, hkept⟩ := ih
    obtain ⟨again', hopen', hholds, hagain⟩ := open_spec C _
    have heq := Except.ok.inj (hopen.symm.trans hopen')
    have hsame := Option.some.inj (hwhole.symm.trans hfile)
    have hread := readEntries_kept hkept []
    rw [List.append_nil, ← hsame, Stream.reads_wait rfl, Journal.offerAll_nil] at hread
    rw [hread] at hholds
    rw [heq]
    exact ⟨hholds, hagain.trans (congrArg some hsame), hkept⟩

/-- Earlier runs recorded `rs`, and the last was killed while it recorded one report more, when `tail` of its
entry was written and `lost` was not. The next run opened the file, recorded `r` and left this file. -/
inductive Resumed (C : Crypto) (rs : List Report) (tail lost : Bytes) (r : Report) : Bytes → Prop where
  | intro {ledger killed opened after : EquivocationLedger} {whole file : Bytes} {torn : Report} :
      Session C ledger rs → ledger.file = some whole →
      ledger.record C torn.evidence torn.origin = .ok (.recorded, killed) →
      killed.file = some (whole ++ (tail ++ lost)) → lost ≠ [] → open_ C (whole ++ tail) = .ok opened →
      opened.record C r.evidence r.origin = .ok (.recorded, after) → after.file = some file →
      Resumed C rs tail lost r file

/-- The `n`th of the runs that open the file after. -/
def reopen (C : Crypto) : ℕ → Bytes → Except Thrown EquivocationLedger
  | 0, file => open_ C file
  | n + 1, file => do
    let ledger ← open_ C file
    reopen C n (ledger.file.getD file)

/-- Every later run holds the pair and all the entries before it. -/
def Survives (C : Crypto) (file : Bytes) (r : Report) (rs : List Report) : Prop :=
  ∀ n, ∃ ledger, reopen C n file = .ok ledger ∧ (∃ entry ∈ ledger.held, entry.evidence = r.evidence) ∧
    ∀ x ∈ rs, ∃ entry ∈ ledger.held, reportOf entry = x

/-- The front of the new entry completes the torn one to an entry with the same pair, which its budget has
room for. -/
def Completes (rs : List Report) (tail lost : Bytes) (r : Report) : Prop :=
  lengthPrefixBytes ≤ tail.length ∧ lost.length ≤ (entryBytes r).length ∧
    ∃ x, parseEntry ((tail ++ (entryBytes r).take lost.length).drop lengthPrefixBytes) = some x ∧
      x.evidence = r.evidence ∧ rs.countP (fun y => y.origin = x.origin) < budget x.origin

/-- Opening a file offers each of its entries. -/
theorem reopen_spec (C : Crypto) (n : ℕ) (file : Bytes) : ∃ ledger, reopen C n file = .ok ledger ∧
    Holds C ledger (Journal.offerAll (rules C) [] (readEntries file).1) := by
  obtain ⟨ledger, hopen, hholds, hfile⟩ := open_spec C file
  induction n with
  | zero => exact ⟨ledger, hopen, hholds⟩
  | succ n ih =>
    rw [reopen, hopen, Except.ok_bind, hfile]
    exact ih

/-- The file that is left, and what was admitted to it. -/
theorem Resumed.spec (h : Resumed C rs tail lost r file) :
    Journal.Kept (rules C) rs ∧ Journal.Admits (rules C) rs r ∧ lost ≠ [] ∧
      (∃ torn, InLimit torn ∧ tail ++ lost = entryBytes torn) ∧
      file = rs.flatMap entryBytes ++ (tail ++ entryBytes r) := by
  obtain ⟨hsession, hwhole, htorn, hkilled, hlost, hopen, hrecord, hfile⟩ := h
  rename_i ledger killed opened after whole torn
  obtain ⟨hholds, hledger, hkept⟩ := hsession.spec
  have hentries : whole = rs.flatMap entryBytes := Option.some.inj (hwhole.symm.trans hledger)
  obtain ⟨outcome, killed', htorn', -, hadmits, hafter⟩ := record_spec hholds torn
  obtain ⟨rfl, rfl⟩ := Prod.mk.inj (Except.ok.inj (htorn.symm.trans htorn'))
  obtain ⟨k, hk, -⟩ := (hadmits.1 rfl).proves
  have hlimit : InLimit torn := inLimit_of_fact hk
  rw [if_pos rfl, hwhole, Option.map_some, hkilled, Option.some.injEq, List.append_cancel_left_eq] at hafter
  -- what the next run opens is what was recorded before
  obtain ⟨opened', hopen', hopened, hopenedFile⟩ := open_spec C (whole ++ tail)
  obtain rfl := Except.ok.inj (hopen.symm.trans hopen')
  rw [hentries, readEntries_kept hkept, reads_torn hlimit hafter hlost, Journal.offerAll_nil] at hopened
  obtain ⟨outcome, after', hrecord', -, hadmitsR, hafterR⟩ := record_spec hopened r
  obtain ⟨rfl, rfl⟩ := Prod.mk.inj (Except.ok.inj (hrecord.symm.trans hrecord'))
  rw [if_pos rfl, hopenedFile, Option.map_some, hfile, Option.some.injEq] at hafterR
  refine ⟨hkept, hadmitsR.1 rfl, hlost, ⟨torn, hlimit, hafter⟩, ?_⟩
  rw [hafterR, hentries, List.append_assoc]

/-- Every cut of an entry, and every report that is admitted after it. -/
theorem Session.resumed {torn : Report} (h : Session C ledger rs) (htorn : Journal.Admits (rules C) rs torn)
    (hr : Journal.Admits (rules C) rs r) (hentry : tail ++ lost = entryBytes torn) (hlost : lost ≠ []) :
    ∃ file, Resumed C rs tail lost r file := by
  obtain ⟨hholds, hfile, hkept⟩ := h.spec
  obtain ⟨k, hk, -⟩ := htorn.proves
  obtain ⟨outcome, killed, hkill, -, hadmits, hkilled⟩ := record_spec hholds torn
  rw [hadmits.2 htorn] at hkill
  rw [if_pos (hadmits.2 htorn), hfile, Option.map_some, ← hentry] at hkilled
  obtain ⟨opened, hopen, hopened, hopenedFile⟩ := open_spec C (rs.flatMap entryBytes ++ tail)
  rw [readEntries_kept hkept, reads_torn (inLimit_of_fact hk) hentry hlost, Journal.offerAll_nil] at hopened
  obtain ⟨outcome', after, hrecord, -, hadmits', hafter⟩ := record_spec hopened r
  rw [hadmits'.2 hr] at hrecord
  rw [if_pos (hadmits'.2 hr), hopenedFile, Option.map_some] at hafter
  exact ⟨_, .intro h hfile hkill hkilled hlost hopen hrecord hafter⟩

/-! ## The torn entry and the new one -/

/-- What is read takes at least its own entry. -/
theorem length_of_mem_reads (h : x ∈ (Stream.reads entries file).1) :
    lengthPrefixBytes + entrySize x.evidence ≤ file.length := by
  generalize hn : file.length = n
  induction n using Nat.strongRecOn generalizing file with
  | ind n ih =>
    cases hcut : entries.cut file with
    | wait =>
      rw [Stream.reads_wait hcut] at h
      cases h
    | stop e =>
      rw [Stream.reads_stop hcut] at h
      cases h
    | item y rest =>
      rw [Stream.reads_item hcut, List.mem_cons] at h
      have hshort := entries.shorter hcut
      obtain ⟨lengthBytes, entry, rfl, hpre, -, -, -, hparse⟩ := cutEntry_eq_item.1 hcut
      rcases h with rfl | h
      · have hsize := entrySize_le_of_parseEntry hparse
        rw [List.length_append, List.length_append] at hn
        omega
      · have hrest := ih rest.length (by omega) h rfl
        omega

/-- The size of an entry, as it stands before it. -/
theorem prefix_bytes {n : ℕ} (h : n < 65536) :
    beBytes lengthPrefixBytes n = [0, 0, UInt8.ofNat (n / 256), UInt8.ofNat n] := by
  have hhigh : n / 256 / 256 = 0 := by omega
  have hhigher : n / 256 / 256 / 256 = 0 := by omega
  simp [lengthPrefixBytes, beBytes, hhigh]

/-- No entry begins with a zero. -/
theorem parseEntry_zero (bytes : Bytes) : parseEntry (0 :: bytes) = none := by
  unfold parseEntry
  cases hdecode : decode (0 :: bytes) with
  | error e => rfl
  | ok value =>
    obtain ⟨w, hw, rfl⟩ := decode_eq_ok.1 hdecode
    cases w with
    | map es =>
      obtain ⟨hcanonical, hbytes⟩ := DetCbor.parse_eq_some.1 hw
      have hfits := (DetCbor.canonical_map.1 hcanonical).1
      obtain ⟨initial, bs, hhead, hmajor, -⟩ := DetCbor.head_cons (show 5 < 8 by decide) hfits
        (DetCbor.encodeEntries es)
      rw [DetCbor.Value.encode, hhead, List.cons.injEq] at hbytes
      rw [← hbytes.1] at hmajor
      exact absurd hmajor (by decide)
    | uint n =>
      rw [ofWire]
      split_ifs <;> rfl
    | bytes b => rfl
    | text s => rfl
    | array xs => rfl
    | null => rfl

/-- Fewer bytes than a size takes leave no entry as large as the new one. -/
theorem short_torn {torn : Report} {lengthBytes entry rest : Bytes} (htorn : InLimit torn) (hr : InLimit r)
    (hentry : tail ++ lost = entryBytes torn) (htail : tail ≠ []) (hshort : tail.length < lengthPrefixBytes)
    (hcut : tail ++ entryBytes r = lengthBytes ++ (entry ++ rest)) (hpre : lengthBytes.length = lengthPrefixBytes)
    (hlength : beNat lengthBytes = entry.length) (hpos : 0 < entry.length) (hparse : parseEntry entry = some x)
    (hsize : entrySize r.evidence ≤ entry.length) : False := by
  have hsizeTorn := (length_payload_le htorn).2
  have hsizeR := (length_payload_le hr).2
  unfold maxLedgerEntryBytes limitRecordBytes lengthPrefixBytes at hsizeTorn hsizeR
  rw [← length_payload hr] at hsize
  rw [entryBytes, prefix_bytes (show (payload torn).length < 65536 by omega)] at hentry
  rw [entryBytes, prefix_bytes (show (payload r).length < 65536 by omega)] at hcut
  obtain ⟨b₀, b₁, b₂, b₃, rfl⟩ := List.length_eq_four.1 hpre
  unfold lengthPrefixBytes at hshort
  match tail with
  | [] => exact htail rfl
  | [t₀] =>
    -- the size is the high byte of the new entry's
    simp only [List.cons_append, List.nil_append, List.cons.injEq] at hentry hcut
    obtain ⟨rfl, -⟩ := hentry
    obtain ⟨rfl, rfl, rfl, rfl, -⟩ := hcut
    simp only [beNat, List.foldl_cons, List.foldl_nil, UInt8.toNat_ofNat'] at hlength
    simp at hlength
    omega
  | [t₀, t₁] =>
    simp only [List.cons_append, List.nil_append, List.cons.injEq] at hentry hcut
    obtain ⟨rfl, rfl, -⟩ := hentry
    obtain ⟨rfl, rfl, rfl, rfl, -⟩ := hcut
    simp [beNat] at hlength
    omega
  | [t₀, t₁, t₂] =>
    -- the entry begins with a zero of the new entry's size
    simp only [List.cons_append, List.nil_append, List.cons.injEq] at hcut
    obtain ⟨-, -, -, -, hbody⟩ := hcut
    cases entry with
    | nil => exact absurd hpos (Nat.lt_irrefl 0)
    | cons first entry =>
      rw [List.cons_append, List.cons.injEq] at hbody
      rw [← hbody.1, parseEntry_zero] at hparse
      cases hparse
  | _ :: _ :: _ :: _ :: _ =>
    simp only [List.length_cons] at hshort
    omega

/-- A torn entry states the size of the whole. -/
theorem take_torn {torn : Report} (hentry : tail ++ lost = entryBytes torn) (h : lengthPrefixBytes ≤ tail.length) :
    tail.take lengthPrefixBytes = beBytes lengthPrefixBytes (payload torn).length := by
  have hpre : (beBytes lengthPrefixBytes (payload torn).length).length = lengthPrefixBytes := length_beBytes _ _
  have htake := congrArg (List.take lengthPrefixBytes) hentry
  rw [List.take_append_of_le_length h, entryBytes, List.take_left' hpre] at htake
  exact htake

/-- A torn entry declares more than there is of it. -/
theorem beNat_take_torn {torn : Report} (htorn : InLimit torn) (hentry : tail ++ lost = entryBytes torn)
    (h : lengthPrefixBytes ≤ tail.length) :
    lengthPrefixBytes + beNat (tail.take lengthPrefixBytes) = tail.length + lost.length := by
  have hlimit := (length_payload_le htorn).2
  have hfits : (payload torn).length < 256 ^ lengthPrefixBytes := by
    unfold maxLedgerEntryBytes limitRecordBytes lengthPrefixBytes at *
    omega
  rw [take_torn hentry h, beNat_beBytes hfits, ← List.length_append, hentry, entryBytes, List.length_append,
    length_beBytes]

/-- **What is read behind a torn entry**, where it has the pair of the new one. -/
theorem completes_of_mem {torn : Report} (htorn : InLimit torn) (hr : InLimit r)
    (hentry : tail ++ lost = entryBytes torn)
    (hlost : lost ≠ []) (htail : tail ≠ []) (hx : x ∈ (Stream.reads entries (tail ++ entryBytes r)).1)
    (hpair : x.evidence = r.evidence) : lengthPrefixBytes ≤ tail.length ∧ lost.length ≤ (entryBytes r).length ∧
      parseEntry ((tail ++ (entryBytes r).take lost.length).drop lengthPrefixBytes) = some x := by
  cases hcut : entries.cut (tail ++ entryBytes r) with
  | wait =>
    rw [Stream.reads_wait hcut] at hx
    cases hx
  | stop e =>
    rw [Stream.reads_stop hcut] at hx
    cases hx
  | item y rest =>
    rw [Stream.reads_item hcut, List.mem_cons] at hx
    obtain ⟨lengthBytes, entry, heq, hpre, hlength, hpos, hlimit, hparse⟩ := cutEntry_eq_item.1 hcut
    have hsizes := congrArg List.length heq
    have hsizeR : (entryBytes r).length = lengthPrefixBytes + entrySize r.evidence := by
      rw [entryBytes, List.length_append, length_beBytes, length_payload hr]
    simp only [List.length_append] at hsizes
    rcases hx with rfl | hx
    swap
    · -- too little is left for the pair, unless the torn entry was whole
      exfalso
      have hrest := length_of_mem_reads hx
      rw [hpair] at hrest
      have hfront : lengthBytes ++ entry <+: tail := by
        have hwhole : lengthBytes ++ entry <+: tail ++ entryBytes r := by
          rw [heq, ← List.append_assoc]
          exact List.prefix_append _ _
        refine List.prefix_of_prefix_length_le hwhole (List.prefix_append _ _) ?_
        rw [List.length_append]
        omega
      obtain ⟨more, rfl⟩ := hfront
      exact cut_torn htorn hentry hlost (cutEntry_eq_item.2
        ⟨lengthBytes, entry, List.append_assoc _ _ _, hpre, hlength, hpos, hlimit, hparse⟩)
    have hsize := entrySize_le_of_parseEntry hparse
    rw [hpair] at hsize
    by_cases hshort : tail.length < lengthPrefixBytes
    · exact absurd hparse fun h => short_torn htorn hr hentry htail hshort heq hpre hlength hpos h hsize
    rw [Nat.not_lt] at hshort
    -- the sizes of the torn entry and of the one that is read are the same bytes
    have hfront : lengthBytes = tail.take lengthPrefixBytes := by
      have htake := congrArg (List.take lengthPrefixBytes) heq
      rw [List.take_append_of_le_length hshort, List.take_left' hpre] at htake
      exact htake.symm
    have hwhole := beNat_take_torn htorn hentry hshort
    rw [← hfront, hlength] at hwhole
    refine ⟨hshort, by omega, ?_⟩
    have htake : tail ++ (entryBytes r).take lost.length = lengthBytes ++ entry := by
      have htotal : tail.length + lost.length = (lengthBytes ++ entry).length := by
        rw [List.length_append]
        omega
      rw [← List.take_length_add_append, heq, ← List.append_assoc, htotal, List.take_left]
    rw [htake, ← hpre, List.drop_left]
    exact hparse

/-! ## Later runs -/

theorem mem_iff_of_holds {held : List Report} (h : Holds C ledger held) {P : Report → Prop} :
    (∃ entry ∈ ledger.held, P (reportOf entry)) ↔ ∃ x ∈ held, P x := by
  rw [← h.held]
  simp

theorem fact_congr (h : x.evidence = r.evidence) : fact C x = fact C r := by
  unfold fact
  rw [h]

/-- **The pair is held by every later run**, with all the entries before it, exactly where nothing was written
of the torn entry or the new one completes it. -/
theorem survives_iff (h : Resumed C rs tail lost r file) : Survives C file r rs ↔
    tail = [] ∨ Completes rs tail lost r := by
  obtain ⟨hkept, hadmits, hlost, ⟨torn, htorn, hentry⟩, rfl⟩ := h.spec
  obtain ⟨k, hk, hnew⟩ := hadmits.proves
  have hr : InLimit r := inLimit_of_fact hk
  set held := Journal.offerAll (rules C) rs (Stream.reads entries (tail ++ entryBytes r)).1 with hheld
  have hread := readEntries_kept hkept (tail ++ entryBytes r)
  have hbefore : ∀ x ∈ rs, x ∈ held := fun x hx => (Journal.prefix_offerAll rs _).subset hx
  have hsurvives : Survives C (rs.flatMap entryBytes ++ (tail ++ entryBytes r)) r rs ↔
      ∃ x ∈ held, x.evidence = r.evidence := by
    constructor
    · intro hall
      obtain ⟨ledger, hreopen, hpair, -⟩ := hall 0
      obtain ⟨ledger', hreopen', hholds⟩ := reopen_spec C 0 (rs.flatMap entryBytes ++ (tail ++ entryBytes r))
      obtain rfl := Except.ok.inj (hreopen.symm.trans hreopen')
      rw [hread] at hholds
      exact (mem_iff_of_holds (P := fun x => x.evidence = r.evidence) hholds).1 hpair
    · intro hpair n
      obtain ⟨ledger, hreopen, hholds⟩ := reopen_spec C n (rs.flatMap entryBytes ++ (tail ++ entryBytes r))
      rw [hread] at hholds
      refine ⟨ledger, hreopen, (mem_iff_of_holds (P := fun x => x.evidence = r.evidence) hholds).2 hpair, ?_⟩
      intro x hx
      exact (mem_iff_of_holds (P := fun y => y = x) hholds).2 ⟨x, hbefore x hx, rfl⟩
  rw [hsurvives]
  constructor
  · rintro ⟨x, hx, hpair⟩
    by_cases htail : tail = []
    · exact Or.inl htail
    rcases Journal.mem_offerAll hx with hx' | hx'
    · exact absurd ((fact_congr hpair).trans hk) (hnew x hx')
    · obtain ⟨hpre, hfits, hparse⟩ := completes_of_mem htorn hr hentry hlost htail hx' hpair
      exact Or.inr ⟨hpre, hfits, x, hparse, hpair, Journal.room_of_mem_offerAll hx fun hmem =>
        hnew x hmem ((fact_congr hpair).trans hk)⟩
  -- the entry that is read first is admitted
  have hfirst : ∀ x more, entries.cut (tail ++ entryBytes r) = .item x more → x.evidence = r.evidence →
      rs.countP (fun y => y.origin = x.origin) < budget x.origin → ∃ x ∈ held, x.evidence = r.evidence := by
    intro x more hcut hpair hroom
    have hx : Journal.Admits (rules C) rs x := ⟨⟨k, (fact_congr hpair).trans hk, hnew⟩, hroom⟩
    refine ⟨x, ?_, hpair⟩
    rw [hheld, Stream.reads_item hcut, Journal.offerAll_cons, Journal.offer_of_admits hx]
    exact (Journal.prefix_offerAll _ _).subset (List.mem_append_right rs (List.mem_singleton_self x))
  rintro (rfl | ⟨hpre, hfits, x, hparse, hpair, hroom⟩)
  · have hcut := cut_entryBytes hr []
    rw [List.append_nil] at hcut
    exact hfirst r [] hcut rfl hadmits.room
  · have hsize := beNat_take_torn htorn hentry hpre
    have hlength : ((tail ++ (entryBytes r).take lost.length).drop lengthPrefixBytes).length =
        beNat (tail.take lengthPrefixBytes) := by
      rw [List.length_drop, List.length_append, List.length_take_of_le hfits]
      omega
    have hwhole : tail ++ entryBytes r = tail.take lengthPrefixBytes ++
        ((tail ++ (entryBytes r).take lost.length).drop lengthPrefixBytes ++ (entryBytes r).drop lost.length) := by
      rw [List.drop_append_of_le_length hpre, List.append_assoc, List.take_append_drop, ← List.append_assoc,
        List.take_append_drop]
    have hlimit := length_payload_le htorn
    have htorn := congrArg List.length hentry
    rw [List.length_append, entryBytes, List.length_append, length_beBytes] at htorn
    refine hfirst x _ (cutEntry_eq_item.2 ⟨_, _, hwhole, List.length_take_of_le hpre, hlength.symm, ?_, ?_, hparse⟩)
      hpair hroom
    · rw [hlength]
      omega
    · rw [hlength]
      omega

end VayuWeb.EquivocationLedger
