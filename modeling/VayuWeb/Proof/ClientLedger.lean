import VayuWeb.Base.Journal
import VayuWeb.Proof.Lines

/-!
# The client's ledger after a torn write

The client repairs its file when a line does not parse, so a torn line is mended by the next open. A line that
lost nothing but its end still parses: it is taken for a report, nothing is repaired, and the next report is
appended to the same line. `survives_iff`: a report is held by every later run exactly where more than the end
of the torn line was lost.
-/

namespace VayuWeb.Client.Evidence

open Bytes

variable {C : Crypto} {limits : Limits} {ledger : EvidenceLedger} {rs : List Report} {r x torn : Report}
  {tail lost file : List Char}

/-! ## Admission -/

/-- The fact a report proves. -/
def fact (C : Crypto) (r : Report) : Option (List Char) :=
  if isEquivocationEvidence C r.evidence.a r.evidence.b then equivocationKey r.evidence.a else none

/-- What the ledger records. -/
def rules (C : Crypto) (limits : Limits) : Journal.Rules Report (List Char) EvidenceOrigin :=
  { fact := fact C, charge := Report.origin, budget := limits.get }

/-- A report as the ledger holds it. -/
def entryOf (r : Report) : LedgerEntry :=
  { origin := r.origin, key := (equivocationKey r.evidence.a).getD [], a := r.evidence.a, b := r.evidence.b }

/-- The line of a report in the client's file. -/
def lineOf (r : Report) : List Char := renderEntry (entryOf r) ++ ['\n']

/-- A pair that is evidence has an identity. -/
theorem fact_spec (C : Crypto) (r : Report) :
    (isEquivocationEvidence C r.evidence.a r.evidence.b = false ∧ fact C r = none) ∨
    (isEquivocationEvidence C r.evidence.a r.evidence.b = true ∧ equivocationKey r.evidence.a = some (entryOf r).key ∧
      fact C r = some (entryOf r).key) := by
  unfold fact
  cases hverdict : isEquivocationEvidence C r.evidence.a r.evidence.b with
  | false => exact Or.inl ⟨rfl, rfl⟩
  | true =>
    obtain ⟨p, q, hpair, -, -⟩ := isEquivocationEvidence_eq_true.1 hverdict
    obtain ⟨-, es, hcanonical, hbytes, hp⟩ := parseBytes_eq_ok.1 hpair.parseLeft
    have hkey : ∃ key, equivocationKey r.evidence.a = some key := by
      unfold equivocationKey
      rw [decode_eq_ok.2 ⟨hcanonical, hbytes⟩, Except.toOption_ok, Option.bind_eq_bind, Option.bind_some,
        parseRecord_eq_ok.2 ⟨es, rfl, hp⟩]
      exact ⟨_, rfl⟩
    obtain ⟨key, hkey⟩ := hkey
    have hsame : (entryOf r).key = key := by
      rw [entryOf, hkey, Option.getD_some]
    rw [hsame]
    exact Or.inr ⟨rfl, hkey, by rw [if_pos rfl, hkey]⟩

theorem fact_eq_some {k : List Char} (h : fact C r = some k) : k = (entryOf r).key ∧ Plain (entryOf r).key := by
  rcases fact_spec C r with ⟨-, hnone⟩ | ⟨-, hkey, hfact⟩
  · rw [hnone] at h
    cases h
  · exact ⟨Option.some.inj (h.symm.trans hfact), plain_equivocationKey hkey⟩

/-- A report is admitted after others if its identity is another one and the budget has room. -/
theorem admits_of_fact {k : List Char} (h : fact C r = some k) (hnew : ∀ x ∈ rs, fact C x ≠ some k)
    (hroom : rs.length < limits.get r.origin) : Journal.Admits (rules C limits) rs r :=
  ⟨⟨k, h, hnew⟩, Nat.lt_of_le_of_lt List.countP_le_length hroom⟩

/-- The ledger holds these reports, under these budgets. -/
structure Holds (C : Crypto) (limits : Limits) (ledger : EvidenceLedger) (rs : List Report) : Prop where
  entries : ledger.entries = rs.map entryOf
  limits : ledger.limits = limits
  proves : ∀ r ∈ rs, fact C r = some (entryOf r).key

/-- **The ledger records what is admitted**, and nothing else. -/
theorem admit_spec (h : Holds C limits ledger rs) (r : Report) (persist : Bool) : ∃ outcome after,
    ledger.admit_ C r.evidence.a r.evidence.b r.origin persist = .ok (outcome, after) ∧
      Holds C limits after (Journal.offer (rules C limits) rs r) ∧
      (outcome = .recorded ↔ Journal.Admits (rules C limits) rs r) ∧
      after.file = (if outcome = .recorded ∧ persist = true then ledger.file ++ lineOf r else ledger.file) ∧
      after.refusals.unreadable = ledger.refusals.unreadable := by
  unfold EvidenceLedger.admit_
  -- the checks in the source's order: the proof itself, a key held already, the origin's share
  rcases fact_spec C r with ⟨hverdict, hfact⟩ | ⟨hverdict, hkey, hfact⟩
  · have hnot : ¬ Journal.Admits (rules C limits) rs r := by
      rintro ⟨⟨k, hk, -⟩, -⟩
      rw [show (rules C limits).fact r = none from hfact] at hk
      cases hk
    rw [hverdict, if_pos (by decide)]
    refine ⟨.unverified, ledger.refuseUnverified, rfl, ?_, iff_of_false (by decide) hnot, rfl, rfl⟩
    rw [Journal.offer_of_not hnot]
    exact ⟨h.entries, h.limits, h.proves⟩
  rw [hverdict, if_neg (by decide), hkey]
  dsimp only
  -- each kept report carries a fact, so equal keys are equal facts
  have hheld : (ledger.entries.any fun entry => entry.key = (entryOf r).key) = true ↔
      ∃ x ∈ rs, fact C x = fact C r := by
    rw [h.entries, List.any_map, List.any_eq_true, hfact]
    constructor
    · rintro ⟨x, hx, hsame⟩
      exact ⟨x, hx, by rw [h.proves x hx, of_decide_eq_true hsame]⟩
    · rintro ⟨x, hx, hsame⟩
      rw [h.proves x hx, Option.some.injEq] at hsame
      exact ⟨x, hx, decide_eq_true hsame⟩
  have hcount : ledger.count r.origin = Journal.spent (rules C limits) rs r.origin := by
    rw [EvidenceLedger.count, h.entries, List.countP_map]
    rfl
  by_cases hduplicate : (ledger.entries.any fun entry => entry.key = (entryOf r).key) = true
  · obtain ⟨x, hx, hsame⟩ := hheld.1 hduplicate
    have hnot : ¬ Journal.Admits (rules C limits) rs r := Journal.not_admits_of_mem hx hsame
    rw [if_pos hduplicate]
    refine ⟨.duplicate, ledger, rfl, ?_, iff_of_false (by decide) hnot, rfl, rfl⟩
    rw [Journal.offer_of_not hnot]
    exact h
  rw [if_neg hduplicate]
  by_cases hfull : ledger.count r.origin ≥ ledger.limits.get r.origin
  · have hnot : ¬ Journal.Admits (rules C limits) rs r := by
      intro hadmits
      have hroom := hadmits.room
      rw [show (rules C limits).charge r = r.origin from rfl, ← hcount] at hroom
      rw [h.limits] at hfull
      exact absurd hroom (Nat.not_lt.2 hfull)
    rw [if_pos hfull]
    refine ⟨.full, ledger.refuseFull, rfl, ?_, iff_of_false (by decide) hnot, rfl, rfl⟩
    rw [Journal.offer_of_not hnot]
    exact ⟨h.entries, h.limits, h.proves⟩
  -- none of the three refused, which is just what admitting asks for
  have hadmits : Journal.Admits (rules C limits) rs r := by
    refine ⟨⟨(entryOf r).key, hfact, fun x hx hsame => ?_⟩, ?_⟩
    · exact hduplicate (hheld.2 ⟨x, hx, hsame.trans hfact.symm⟩)
    · rw [show (rules C limits).charge r = r.origin from rfl, ← hcount]
      rw [h.limits] at hfull
      exact Nat.not_le.1 hfull
  rw [if_neg hfull]
  refine ⟨.recorded, _, rfl, ?_, iff_of_true rfl hadmits, ?_, ?_⟩
  · rw [Journal.offer_of_admits hadmits]
    refine ⟨?_, ?_, ?_⟩
    · rw [List.map_append, ← h.entries]
      cases persist <;> rfl
    · rw [← h.limits]
      cases persist <;> rfl
    · intro x hx
      rw [List.mem_append, List.mem_singleton] at hx
      rcases hx with hx | rfl
      · exact h.proves x hx
      · exact hfact
  · cases persist with
    | false =>
      rw [if_neg (by decide)]
      rfl
    | true =>
      have hwritten : (if RecordOutcome.recorded = .recorded ∧ true = true then ledger.file ++ lineOf r
          else ledger.file) = ledger.file ++ lineOf r := if_pos ⟨rfl, rfl⟩
      rw [hwritten, lineOf, ← List.append_assoc]
      rfl
  · cases persist <;> rfl

/-! ## Opening -/

/-- The budgets that a ledger is opened with. -/
def clamp (limits : Limits) : Limits :=
  { detected := min limits.detected detectedLimit, received := min limits.received receivedLimit }

/-- A ledger before its lines are read. -/
def opened (limits : Limits) (file : List Char) : EvidenceLedger :=
  { entries := []
    refusals := { unverified := 0, full := 0, unreadable := 0 }
    limits := clamp limits
    file := file }

/-- A line that parses is offered, and counted where it is not recorded. -/
theorem readLine_spec {line : List Char} (h : Holds C limits ledger rs) (hparse : parseEntry line = some (entryOf r)) :
    ∃ after, ledger.readLine C line = .ok after ∧ Holds C limits after (Journal.offer (rules C limits) rs r) ∧
      after.file = ledger.file ∧
      (Journal.Admits (rules C limits) rs r → after.refusals.unreadable = ledger.refusals.unreadable) := by
  obtain ⟨outcome, after, hadmitted, hholds, hadmits, hfile, hunreadable⟩ := admit_spec h r false
  rw [if_neg (by simp)] at hfile
  unfold EvidenceLedger.readLine
  rw [hparse]
  dsimp only [entryOf]
  rw [hadmitted]
  simp only [Except.ok_bind, Except.pure_eq_ok]
  by_cases houtcome : outcome ≠ .recorded
  · rw [if_pos houtcome]
    refine ⟨after.refuseUnreadable, rfl, ⟨hholds.entries, hholds.limits, hholds.proves⟩, hfile, fun hnew => ?_⟩
    exact absurd (hadmits.2 hnew) houtcome
  · rw [if_neg houtcome]
    exact ⟨after, rfl, hholds, hfile, fun _ => hunreadable⟩

/-- A line of the file begins and ends with a brace. -/
theorem trim_renderEntry (entry : LedgerEntry) : trim (renderEntry entry) = renderEntry entry := by
  obtain ⟨cs, hcs⟩ := opening_eq entry ((hexBytes entry.b).toList ++ ['"'])
  rw [renderEntry_eq, front, hcs]
  exact trim_eq (by decide) (by decide)

/-- No line has a newline inside. -/
theorem newline_renderEntry {entry : LedgerEntry} (hkey : Plain entry.key) : '\n' ∉ renderEntry entry := by
  have hb := (plain_hexBytes entry.b).2
  rw [renderEntry_eq, front, ← opening_append]
  exact newline_opening hkey _ (by simp [hb])

theorem renderEntry_ne_nil (entry : LedgerEntry) : renderEntry entry ≠ [] := by
  rw [renderEntry_eq]
  simp

/-- **Complete lines are read one by one, whatever follows.** -/
theorem lines_complete (h : ∀ r ∈ rs, Plain (entryOf r).key) (more : List Char) :
    lines (rs.flatMap lineOf ++ more) = rs.map (fun r => renderEntry (entryOf r)) ++ lines more := by
  induction rs with
  | nil => rfl
  | cons r rs ih =>
    have hrest := ih fun x hx => h x (List.mem_cons_of_mem r hx)
    have hplain := h r List.mem_cons_self
    have htrim := trim_renderEntry (entryOf r)
    have hline := lines_cons (newline_renderEntry hplain) (by rw [htrim]; exact renderEntry_ne_nil _)
      (rs.flatMap lineOf ++ more)
    rw [htrim] at hline
    rw [List.flatMap_cons, lineOf, List.append_assoc, List.append_assoc, List.singleton_append, hline, hrest,
      List.map_cons, List.cons_append]

/-- A line is read back as the entry it was written for. -/
theorem parseEntry_renderEntry {entry : LedgerEntry} (hkey : Plain entry.key) :
    parseEntry (renderEntry entry) = some entry := by
  rw [renderEntry_eq]
  exact parseEntry_front hkey _

theorem plain_of_kept (h : Journal.Kept (rules C limits) rs) : ∀ r ∈ rs, Plain (entryOf r).key := by
  intro r hr
  obtain ⟨k, hk⟩ := h.proves r hr
  exact (fact_eq_some hk).2

/-- Lines that were kept are recorded again, and none of them is counted. -/
theorem readLines_kept (h : Holds C limits ledger []) (hkept : Journal.Kept (rules C limits) rs) :
    ∃ after, (rs.map fun r => renderEntry (entryOf r)).foldlM (EvidenceLedger.readLine C) ledger = .ok after ∧
      Holds C limits after rs ∧ after.file = ledger.file ∧
      after.refusals.unreadable = ledger.refusals.unreadable := by
  induction hkept with
  | nil => exact ⟨ledger, rfl, h, rfl, rfl⟩
  | @concat rs r hkept hadmits ih =>
    obtain ⟨after, hread, hholds, hfile, hunreadable⟩ := ih
    obtain ⟨k, hk, -⟩ := hadmits.proves
    obtain ⟨last, hlast, hlastHolds, hlastFile, hlastUnreadable⟩ :=
      readLine_spec hholds (parseEntry_renderEntry (fact_eq_some hk).2)
    rw [Journal.offer_of_admits hadmits] at hlastHolds
    refine ⟨last, ?_, hlastHolds, hlastFile.trans hfile, (hlastUnreadable hadmits).trans hunreadable⟩
    rw [List.map_append, List.foldlM_append, hread, Except.ok_bind, List.map_singleton, List.foldlM_cons, hlast]
    rfl

/-- What is left of a line that was not written whole: nothing that parses, or the line but for its end. -/
theorem torn_cases (hlost : lost ≠ []) (h : tail ++ lost = lineOf torn) :
    (2 < lost.length ∧ tail <+: opening (entryOf torn) (hexBytes torn.evidence.b).toList) ∨
    (lost.length ≤ 2 ∧ ∃ more, (more = [] ∨ more = ['\x7d']) ∧ tail = front (entryOf torn) ++ more) := by
  have hline : lineOf torn = opening (entryOf torn) (hexBytes torn.evidence.b).toList ++ ['"', '\x7d', '\n'] := by
    rw [lineOf, renderEntry_eq, front, opening_append]
    simp [entryOf]
  rw [hline] at h
  -- more is lost than the closing brace and the break, so the last mark is gone
  by_cases hend : 2 < lost.length
  · refine Or.inl ⟨hend, ?_⟩
    have hlength := congrArg List.length h
    simp only [List.length_append, List.length_cons, List.length_nil] at hlength
    refine List.prefix_of_prefix_length_le ⟨lost, h⟩ (List.prefix_append _ _) ?_
    omega
  · refine Or.inr ⟨Nat.not_lt.1 hend, ?_⟩
    have hfront : front (entryOf torn) = opening (entryOf torn) (hexBytes torn.evidence.b).toList ++ ['"'] := by
      rw [front, opening_append]
      rfl
    cases lost with
    | nil => exact absurd rfl hlost
    | cons a lost =>
      cases lost with
      | nil =>
        refine ⟨['\x7d'], Or.inr rfl, ?_⟩
        rw [show ['"', '\x7d', '\n'] = ['"', '\x7d'] ++ ['\n'] from rfl, ← List.append_assoc] at h
        rw [(List.append_inj' h rfl).1, hfront, List.append_assoc]
        rfl
      | cons b lost =>
        cases lost with
        | nil =>
          refine ⟨[], Or.inl rfl, ?_⟩
          rw [show ['"', '\x7d', '\n'] = ['"'] ++ ['\x7d', '\n'] from rfl, ← List.append_assoc] at h
          rw [(List.append_inj' h rfl).1, hfront, List.append_nil]
        | cons c lost =>
          simp only [List.length_cons] at hend
          omega

/-- The file is the lines of what is held. -/
theorem write_file (h : Holds C limits ledger rs) : ledger.write.file = rs.flatMap lineOf := by
  rw [EvidenceLedger.write, h.entries, List.flatMap_map]
  rfl

/-- Opening a file with complete lines goes on with what follows them. -/
theorem open_complete (hkept : Journal.Kept (rules C (clamp limits)) rs) (more : List Char) : ∃ after,
    Holds C (clamp limits) after rs ∧ after.file = rs.flatMap lineOf ++ more ∧ after.refusals.unreadable = 0 ∧
      EvidenceLedger.openWithLimits C (rs.flatMap lineOf ++ more) limits = (do
        let ledger ← (lines more).foldlM (EvidenceLedger.readLine C) after
        return if ledger.refusals.unreadable > 0 then ledger.write else ledger) := by
  have hempty : Holds C (clamp limits) (opened limits (rs.flatMap lineOf ++ more)) [] :=
    ⟨rfl, rfl, fun r hr => absurd hr List.not_mem_nil⟩
  obtain ⟨after, hread, hholds, hfile, hunreadable⟩ := readLines_kept hempty hkept
  refine ⟨after, hholds, hfile, hunreadable, ?_⟩
  unfold EvidenceLedger.openWithLimits
  dsimp only
  rw [lines_complete (plain_of_kept hkept), List.foldlM_append]
  unfold opened clamp at hread
  rw [hread, Except.ok_bind]

/-- Complete lines are all held, and the file stays. -/
theorem open_nothing (hkept : Journal.Kept (rules C (clamp limits)) rs) : ∃ opened,
    EvidenceLedger.openWithLimits C (rs.flatMap lineOf) limits = .ok opened ∧ Holds C (clamp limits) opened rs ∧
      opened.file = rs.flatMap lineOf := by
  obtain ⟨after, hholds, hfile, hunreadable, hopen⟩ := open_complete hkept []
  rw [List.append_nil] at hfile hopen
  rw [lines_nil, List.foldlM_nil, Except.pure_eq_ok, Except.ok_bind, hunreadable, if_neg (by decide)] at hopen
  exact ⟨after, hopen, hholds, hfile⟩

/-- **A line that does not parse is dropped**, and the file is written without it. -/
theorem open_unreadable {more line : List Char} (hkept : Journal.Kept (rules C (clamp limits)) rs)
    (hlines : lines more = [line]) (hparse : parseEntry line = none) : ∃ opened,
    EvidenceLedger.openWithLimits C (rs.flatMap lineOf ++ more) limits = .ok opened ∧ Holds C (clamp limits) opened rs ∧
      opened.file = rs.flatMap lineOf := by
  obtain ⟨after, hholds, -, hunreadable, hopen⟩ := open_complete hkept more
  have hread : after.readLine C line = .ok after.refuseUnreadable := by
    unfold EvidenceLedger.readLine
    rw [hparse]
  have hcounted : after.refuseUnreadable.refusals.unreadable > 0 := Nat.succ_pos _
  have hrefused : Holds C (clamp limits) after.refuseUnreadable rs := ⟨hholds.entries, hholds.limits, hholds.proves⟩
  rw [hlines, List.foldlM_cons, hread, Except.ok_bind, List.foldlM_nil, Except.pure_eq_ok, Except.ok_bind,
    if_pos hcounted] at hopen
  exact ⟨after.refuseUnreadable.write, hopen, ⟨hrefused.entries, hrefused.limits, hrefused.proves⟩, write_file hrefused⟩

/-- **A line that parses is a report**, and the file stays. -/
theorem open_report {more line : List Char} (hkept : Journal.Kept (rules C (clamp limits)) rs)
    (hadmits : Journal.Admits (rules C (clamp limits)) rs x) (hlines : lines more = [line])
    (hparse : parseEntry line = some (entryOf x)) : ∃ opened,
    EvidenceLedger.openWithLimits C (rs.flatMap lineOf ++ more) limits = .ok opened ∧
      Holds C (clamp limits) opened (rs ++ [x]) ∧ opened.file = rs.flatMap lineOf ++ more := by
  obtain ⟨after, hholds, hfile, hunreadable, hopen⟩ := open_complete hkept more
  obtain ⟨last, hlast, hlastHolds, hlastFile, hlastUnreadable⟩ := readLine_spec hholds hparse
  rw [Journal.offer_of_admits hadmits] at hlastHolds
  have hnone : ¬ last.refusals.unreadable > 0 := by
    rw [hlastUnreadable hadmits, hunreadable]
    exact Nat.lt_irrefl 0
  rw [hlines, List.foldlM_cons, hlast, Except.ok_bind, List.foldlM_nil, Except.pure_eq_ok, Except.ok_bind,
    if_neg hnone] at hopen
  exact ⟨last, hopen, hlastHolds, hlastFile.trans hfile⟩

/-! ## The torn line -/

theorem plain_torn (hadmits : Journal.Admits (rules C limits) rs torn) : Plain (entryOf torn).key := by
  obtain ⟨k, hk, -⟩ := hadmits.proves
  exact (fact_eq_some hk).2

/-- A line that begins with a brace and ends with another character stands alone. -/
theorem lines_single {rest : List Char} {d : Char} (entry : LedgerEntry) (hline : '\n' ∉ opening entry (rest ++ [d]))
    (hd : isWhitespace d = false) : lines (opening entry (rest ++ [d])) = [opening entry (rest ++ [d])] ∧
      lines (opening entry (rest ++ [d]) ++ ['\n']) = [opening entry (rest ++ [d])] := by
  have htrim : trim (opening entry (rest ++ [d])) = opening entry (rest ++ [d]) := by
    obtain ⟨cs, hcs⟩ := opening_eq entry rest
    rw [opening_append, hcs]
    exact trim_eq (by decide) hd
  have hne : trim (opening entry (rest ++ [d])) ≠ [] := by
    obtain ⟨cs, hcs⟩ := opening_eq entry (rest ++ [d])
    rw [htrim, hcs]
    exact List.cons_ne_nil _ _
  have hnext := lines_cons hline hne []
  rw [lines_nil, htrim] at hnext
  have hlast := lines_last hline hne
  rw [htrim] at hlast
  exact ⟨hlast, hnext⟩

/-- **What a run finds that opens a torn file.** -/
theorem open_torn (hkept : Journal.Kept (rules C (clamp limits)) rs)
    (hadmits : Journal.Admits (rules C (clamp limits)) rs torn) (hlost : lost ≠ []) (h : tail ++ lost = lineOf torn) :
    ∃ opened, EvidenceLedger.openWithLimits C (rs.flatMap lineOf ++ tail) limits = .ok opened ∧
      (2 < lost.length → Holds C (clamp limits) opened rs ∧ opened.file = rs.flatMap lineOf) ∧
      (lost.length ≤ 2 → Holds C (clamp limits) opened (rs ++ [torn]) ∧ opened.file = rs.flatMap lineOf ++ tail) := by
  have hkey := plain_torn hadmits
  have hb := (plain_hexBytes torn.evidence.b).2
  rcases torn_cases hlost h with ⟨hlength, hpre⟩ | ⟨hlength, more, hmore, rfl⟩
  · -- the line was cut before its last mark
    have hline : '\n' ∉ tail := fun hmem => newline_opening hkey _ hb (hpre.subset hmem)
    -- a cut this early loses the report, and the open mends the file
    have hdone : ∀ opened : EvidenceLedger, Holds C (clamp limits) opened rs ∧ opened.file = rs.flatMap lineOf →
        (2 < lost.length → Holds C (clamp limits) opened rs ∧ opened.file = rs.flatMap lineOf) ∧
        (lost.length ≤ 2 → Holds C (clamp limits) opened (rs ++ [torn]) ∧ opened.file = rs.flatMap lineOf ++ tail) :=
      fun opened hopened => ⟨fun _ => hopened, fun hle => absurd hlength (Nat.not_lt.2 hle)⟩
    cases tail with
    | nil =>
      obtain ⟨opened, hopen, hopened⟩ := open_nothing hkept
      rw [List.append_nil]
      rw [List.append_nil] at hdone
      exact ⟨opened, hopen, hdone opened hopened⟩
    | cons c cs =>
      have hc : c = '\x7b' := by
        obtain ⟨rest, hrest⟩ := opening_eq (entryOf torn) (hexBytes torn.evidence.b).toList
        rw [hrest, List.cons_prefix_cons] at hpre
        exact hpre.1
      have hbrace : isWhitespace c = false := by
        rw [hc]
        decide
      obtain ⟨htrimmed, hne⟩ := trim_prefix hbrace cs
      obtain ⟨opened, hopen, hopened⟩ := open_unreadable hkept (lines_last hline hne)
        (parseEntry_torn hkey (htrimmed.trans hpre))
      exact ⟨opened, hopen, hdone opened hopened⟩
  · -- the line still parses
    have hline : lines (front (entryOf torn) ++ more) = [front (entryOf torn) ++ more] := by
      have hquote : '\n' ∉ (hexBytes torn.evidence.b).toList ++ ['"'] ++ ['\x7d'] := by simp [hb]
      rcases hmore with rfl | rfl
      · rw [List.append_nil]
        refine (lines_single (entryOf torn) (newline_opening hkey _ fun hmem => ?_) (by decide)).1
        exact hquote (List.mem_append_left _ hmem)
      · rw [front, ← opening_append]
        exact (lines_single (entryOf torn) (newline_opening hkey _ hquote) (by decide)).1
    obtain ⟨opened, hopen, hopened⟩ := open_report hkept hadmits hline (parseEntry_front hkey more)
    exact ⟨opened, hopen, fun hlt => absurd hlength (Nat.not_le.2 hlt), fun _ => hopened⟩

/-- **A report appended to a line that still parses is not read.** -/
theorem open_glued {more : List Char} (hkept : Journal.Kept (rules C (clamp limits)) rs)
    (hadmits : Journal.Admits (rules C (clamp limits)) rs torn) (hmore : '\n' ∉ more) (hr : Plain (entryOf r).key) :
    ∃ opened, EvidenceLedger.openWithLimits C
        (rs.flatMap lineOf ++ (front (entryOf torn) ++ more ++ lineOf r)) limits = .ok opened ∧
      Holds C (clamp limits) opened (rs ++ [torn]) := by
  have hkey := plain_torn hadmits
  have hb := (plain_hexBytes torn.evidence.b).2
  have hnew := newline_renderEntry hr
  have hglued : front (entryOf torn) ++ more ++ renderEntry (entryOf r) =
      opening (entryOf torn) ((hexBytes torn.evidence.b).toList ++ ['"'] ++ more ++ front (entryOf r) ++ ['\x7d']) := by
    rw [renderEntry_eq, front]
    simp only [opening_append, entryOf, List.append_assoc]
  have hline : '\n' ∉ (hexBytes torn.evidence.b).toList ++ ['"'] ++ more ++ front (entryOf r) ++ ['\x7d'] := by
    rw [renderEntry_eq] at hnew
    simp only [List.mem_append, not_or] at hnew ⊢
    exact ⟨⟨⟨⟨hb, by decide⟩, hmore⟩, hnew.1⟩, hnew.2⟩
  have hlines := (lines_single (entryOf torn) (newline_opening hkey _ hline) (by decide)).2
  rw [← hglued] at hlines
  have hparse := parseEntry_front hkey (more ++ renderEntry (entryOf r))
  rw [← List.append_assoc] at hparse
  obtain ⟨opened, hopen, hopened, -⟩ := open_report hkept hadmits hlines hparse
  refine ⟨opened, ?_, hopened⟩
  rw [lineOf, ← List.append_assoc (front (entryOf torn) ++ more)]
  exact hopen

/-! ## Runs -/

/-- A ledger and what was recorded since its file was new, in the runs so far. -/
inductive Session (C : Crypto) (limits : Limits) : EvidenceLedger → List Report → Prop where
  | opened {ledger : EvidenceLedger} : EvidenceLedger.openWithLimits C [] limits = .ok ledger →
      Session C limits ledger []
  | offered {ledger after : EvidenceLedger} {rs : List Report} {outcome : RecordOutcome} (r : Report) :
      Session C limits ledger rs → ledger.record C r.evidence.a r.evidence.b r.origin = .ok (outcome, after) →
      Session C limits after (if outcome = .recorded then rs ++ [r] else rs)
  | reopened {ledger again : EvidenceLedger} {rs : List Report} : Session C limits ledger rs →
      EvidenceLedger.openWithLimits C ledger.file limits = .ok again → Session C limits again rs

/-- **The file holds the lines recorded, and the ledger holds them too.** -/
theorem Session.spec (h : Session C limits ledger rs) :
    Holds C (clamp limits) ledger rs ∧ ledger.file = rs.flatMap lineOf ∧ Journal.Kept (rules C (clamp limits)) rs := by
  induction h with
  | opened hopen =>
    obtain ⟨opened, hopen', hholds, hfile⟩ := open_nothing (Journal.Kept.nil : Journal.Kept (rules C (clamp limits)) [])
    obtain rfl := Except.ok.inj (hopen.symm.trans hopen')
    exact ⟨hholds, hfile, .nil⟩
  | @offered _ _ _ outcome r _ hrecord ih =>
    obtain ⟨hholds, hfile, hkept⟩ := ih
    obtain ⟨outcome', after', hrecord', hafter, hadmits, hfile', -⟩ := admit_spec hholds r true
    obtain ⟨rfl, rfl⟩ := Prod.mk.inj (Except.ok.inj (hrecord.symm.trans hrecord'))
    by_cases houtcome : outcome = .recorded
    · have hnew := hadmits.1 houtcome
      rw [if_pos ⟨houtcome, rfl⟩, hfile] at hfile'
      rw [Journal.offer_of_admits hnew] at hafter
      rw [if_pos houtcome]
      refine ⟨hafter, ?_, hkept.concat hnew⟩
      rw [hfile', List.flatMap_append, List.flatMap_singleton]
    · rw [if_neg fun hboth => houtcome hboth.1] at hfile'
      rw [Journal.offer_of_not fun hnew => houtcome (hadmits.2 hnew)] at hafter
      rw [if_neg houtcome]
      exact ⟨hafter, hfile'.trans hfile, hkept⟩
  | reopened _ hopen ih =>
    obtain ⟨-, hfile, hkept⟩ := ih
    obtain ⟨opened, hopen', hholds, hfile'⟩ := open_nothing hkept
    rw [hfile] at hopen
    obtain rfl := Except.ok.inj (hopen.symm.trans hopen')
    exact ⟨hholds, hfile', hkept⟩

/-- Earlier runs recorded `rs`, and the last was killed while it recorded one report more, when `tail` of its
line was written and `lost` was not. The next run opened the file, recorded `r` and left this file. -/
inductive Resumed (C : Crypto) (limits : Limits) (rs : List Report) (tail lost : List Char) (r : Report) :
    List Char → Prop where
  | intro {ledger killed opened after : EvidenceLedger} {torn : Report} : Session C limits ledger rs →
      ledger.record C torn.evidence.a torn.evidence.b torn.origin = .ok (.recorded, killed) →
      killed.file = ledger.file ++ (tail ++ lost) → lost ≠ [] →
      EvidenceLedger.openWithLimits C (ledger.file ++ tail) limits = .ok opened →
      opened.record C r.evidence.a r.evidence.b r.origin = .ok (.recorded, after) →
      Resumed C limits rs tail lost r after.file

/-- Every cut of a line, and every report that is admitted after it. -/
theorem Session.resumed (h : Session C limits ledger rs) (htorn : Journal.Admits (rules C (clamp limits)) rs torn)
    (hlost : lost ≠ []) (hline : tail ++ lost = lineOf torn)
    (hr : Journal.Admits (rules C (clamp limits)) (if 2 < lost.length then rs else rs ++ [torn]) r) :
    ∃ file, Resumed C limits rs tail lost r file := by
  obtain ⟨hholds, hfile, hkept⟩ := h.spec
  obtain ⟨outcome, killed, hkill, -, hadmits, hkilled, -⟩ := admit_spec hholds torn true
  rw [hadmits.2 htorn] at hkill
  rw [if_pos ⟨hadmits.2 htorn, rfl⟩, ← hline] at hkilled
  obtain ⟨opened, hopen, hmended, hparsed⟩ := open_torn hkept htorn hlost hline
  rw [← hfile] at hopen
  have hopened : Holds C (clamp limits) opened (if 2 < lost.length then rs else rs ++ [torn]) := by
    by_cases hlength : 2 < lost.length
    · rw [if_pos hlength]
      exact (hmended hlength).1
    · rw [if_neg hlength]
      exact (hparsed (Nat.not_lt.1 hlength)).1
  obtain ⟨outcome', after, hrecord, -, hadmits', -⟩ := admit_spec hopened r true
  rw [hadmits'.2 hr] at hrecord
  exact ⟨_, .intro h hkill hkilled hlost hopen hrecord⟩

/-- The `n`th of the runs that open the file after. -/
def reopen (C : Crypto) (limits : Limits) : ℕ → List Char → Except EvidenceError EvidenceLedger
  | 0, file => EvidenceLedger.openWithLimits C file limits
  | n + 1, file => do
    let ledger ← EvidenceLedger.openWithLimits C file limits
    reopen C limits n ledger.file

/-- Every later run holds the pair and all the entries before it. -/
def Survives (C : Crypto) (limits : Limits) (file : List Char) (r : Report) (rs : List Report) : Prop :=
  ∀ n, ∃ ledger, reopen C limits n file = .ok ledger ∧
    (∃ entry ∈ ledger.entries, entry.a = r.evidence.a ∧ entry.b = r.evidence.b) ∧
    ∀ x ∈ rs, ∃ entry ∈ ledger.entries, entry.origin = x.origin ∧ entry.a = x.evidence.a ∧ entry.b = x.evidence.b

theorem evidence_eq {e f : EquivocationEvidence} (ha : e.a = f.a) (hb : e.b = f.b) : e = f := by
  cases e
  cases f
  cases ha
  cases hb
  rfl

/-- A ledger that is opened again holds what its file was written for. -/
theorem reopen_spec (hkept : Journal.Kept (rules C (clamp limits)) rs) (n : ℕ) : ∃ ledger,
    reopen C limits n (rs.flatMap lineOf) = .ok ledger ∧ Holds C (clamp limits) ledger rs := by
  obtain ⟨opened, hopen, hholds, hfile⟩ := open_nothing hkept
  induction n with
  | zero => exact ⟨opened, hopen, hholds⟩
  | succ n ih =>
    rw [reopen, hopen, Except.ok_bind, hfile]
    exact ih

/-- **The pair is held by every later run**, with all the entries before it, exactly where more was lost of
the torn line than what follows its last value. -/
theorem survives_iff (h : Resumed C limits rs tail lost r file) : Survives C limits file r rs ↔ 2 < lost.length := by
  obtain ⟨hsession, htorn, hkilled, hlost, hopen, hrecord⟩ := h
  rename_i ledger killed opened after torn
  obtain ⟨hholds, hfile, hkept⟩ := hsession.spec
  obtain ⟨outcome, killed', htorn', -, hadmits, hkilledFile, -⟩ := admit_spec hholds torn true
  obtain ⟨rfl, rfl⟩ := Prod.mk.inj (Except.ok.inj (htorn.symm.trans htorn'))
  have hnew := hadmits.1 rfl
  rw [if_pos ⟨rfl, rfl⟩, hkilled, List.append_cancel_left_eq] at hkilledFile
  obtain ⟨opened', hopen', hmended, hparsed⟩ := open_torn hkept hnew hlost hkilledFile
  rw [hfile] at hopen
  obtain rfl := Except.ok.inj (hopen.symm.trans hopen')
  by_cases hlength : 2 < lost.length
  · -- the torn line is mended by the open
    obtain ⟨hopened, hopenedFile⟩ := hmended hlength
    obtain ⟨outcome, after', hrecord', -, hadmitsR, hafterFile, -⟩ := admit_spec hopened r true
    obtain ⟨rfl, rfl⟩ := Prod.mk.inj (Except.ok.inj (hrecord.symm.trans hrecord'))
    have hall := hkept.concat (hadmitsR.1 rfl)
    rw [if_pos ⟨rfl, rfl⟩, hopenedFile, ← List.flatMap_singleton (f := lineOf), ← List.flatMap_append] at hafterFile
    refine iff_of_true (fun n => ?_) hlength
    obtain ⟨last, hreopen, hlast⟩ := reopen_spec hall n
    rw [hafterFile]
    refine ⟨last, hreopen, ⟨entryOf r, ?_, rfl, rfl⟩, fun x hx => ⟨entryOf x, ?_, rfl, rfl, rfl⟩⟩
    · rw [hlast.entries]
      exact List.mem_map_of_mem (List.mem_append_right rs (List.mem_singleton_self r))
    · rw [hlast.entries]
      exact List.mem_map_of_mem (List.mem_append_left [r] hx)
  · -- the report is appended to the line before it
    obtain ⟨hopened, hopenedFile⟩ := hparsed (Nat.not_lt.1 hlength)
    obtain ⟨outcome, after', hrecord', -, hadmitsR, hafterFile, -⟩ := admit_spec hopened r true
    obtain ⟨rfl, rfl⟩ := Prod.mk.inj (Except.ok.inj (hrecord.symm.trans hrecord'))
    have hadmitted := hadmitsR.1 rfl
    obtain ⟨k, hk, hother⟩ := hadmitted.proves
    rw [if_pos ⟨rfl, rfl⟩, hopenedFile, List.append_assoc] at hafterFile
    refine iff_of_false (fun hall => ?_) hlength
    obtain ⟨last, hreopen, ⟨entry, hentry, ha, hb⟩, -⟩ := hall 0
    rcases torn_cases hlost hkilledFile with ⟨hlt, -⟩ | ⟨-, more, hmore, rfl⟩
    · exact hlength hlt
    have hmoreLine : '\n' ∉ more := by
      rcases hmore with rfl | rfl
      · exact List.not_mem_nil
      · decide
    obtain ⟨last', hreopen', hlast⟩ := open_glued hkept hnew hmoreLine (fact_eq_some hk).2
    rw [hafterFile] at hreopen
    obtain rfl := Except.ok.inj (hreopen.symm.trans hreopen')
    rw [hlast.entries, List.mem_map] at hentry
    obtain ⟨x, hx, rfl⟩ := hentry
    refine hother x hx ?_
    have hevidence : x.evidence = r.evidence := evidence_eq ha hb
    rw [← hk]
    change fact C x = fact C r
    rw [fact, fact, hevidence]

end VayuWeb.Client.Evidence
