import VayuWeb.Proof.ClientLedger
import VayuWeb.Proof.Resumed

/-!
# Recorded equivocations after a crash

`recorded_survives_iff`: after a torn write, what the next run records is held by every later run of the
registry's ledger where nothing of the torn entry was written, and of the client's where more than the end of
the torn line was lost. `report_lost`: elsewhere the report is lost at the next open.
-/

namespace VayuWeb

/-- **When a report that was recorded after a torn write is held by every later run**, with all the entries
that were complete before it. -/
theorem recorded_survives_iff (C : Crypto) :
    (∀ rs tail lost r file, EquivocationLedger.Resumed C rs tail lost r file →
      (EquivocationLedger.Survives C file r rs ↔ tail = [] ∨ EquivocationLedger.Completes rs tail lost r)) ∧
    (∀ limits rs tail lost r file, Client.Evidence.Resumed C limits rs tail lost r file →
      (Client.Evidence.Survives C limits file r rs ↔ 2 < lost.length)) := by
  constructor
  · intro rs tail lost r file h
    exact EquivocationLedger.survives_iff h
  · intro limits rs tail lost r file h
    exact Client.Evidence.survives_iff h

/-! ## A crash in the first report -/

/-- Two registrations of one name by one owner. -/
def registered : Report :=
  { origin := .detected, evidence := { a := Sample.first.bytes, b := Sample.again.bytes } }

/-- An UPDATE and a REVOKE by the same owner at one `seq`. -/
def revoked : Report :=
  { origin := .detected, evidence := { a := Sample.update.bytes, b := Sample.revoke.bytes } }

theorem registry_admits_registered : Journal.Admits (EquivocationLedger.rules Sample.crypto) [] registered := by
  have hverified : verifyEquivocation Sample.crypto registered.evidence.a registered.evidence.b = .ok true := by
    decide +kernel
  rcases EquivocationLedger.fact_spec Sample.crypto registered with ⟨hnone, -⟩ | ⟨half, -, -, hfact, -⟩
  · rw [hverified] at hnone
    cases hnone
  · exact EquivocationLedger.admits_first hfact

/-- What the client makes of a pair that is evidence. -/
theorem client_fact {C : Crypto} {r : Report} (h : Client.isEquivocationEvidence C r.evidence.a r.evidence.b = true) :
    Client.Evidence.fact C r = some (Client.Evidence.entryOf r).key ∧
      Client.Evidence.equivocationKey r.evidence.a = some (Client.Evidence.entryOf r).key := by
  rcases Client.Evidence.fact_spec C r with ⟨hnone, -⟩ | ⟨-, hkey, hfact⟩
  · rw [h] at hnone
    cases hnone
  · exact ⟨hfact, hkey⟩

theorem client_registered :
    Client.isEquivocationEvidence Sample.crypto registered.evidence.a registered.evidence.b = true := by
  decide +kernel

theorem client_admits_registered :
    Journal.Admits (Client.Evidence.rules Sample.crypto (Client.Evidence.clamp .protocol)) [] registered :=
  Client.Evidence.admits_of_fact (client_fact client_registered).1 (fun x hx => absurd hx List.not_mem_nil) (by decide)

/-- The two pairs are two facts. -/
theorem client_admits_revoked :
    Journal.Admits (Client.Evidence.rules Sample.crypto (Client.Evidence.clamp .protocol)) [registered] revoked := by
  have hverified : Client.isEquivocationEvidence Sample.crypto revoked.evidence.a revoked.evidence.b = true := by
    decide +kernel
  have hkeys : Client.Evidence.equivocationKey registered.evidence.a ≠
      Client.Evidence.equivocationKey revoked.evidence.a := by
    decide +kernel
  obtain ⟨hfact, hkey⟩ := client_fact hverified
  obtain ⟨hfactFirst, hkeyFirst⟩ := client_fact client_registered
  refine Client.Evidence.admits_of_fact hfact (fun x hx hsame => ?_) (by decide)
  rw [List.mem_singleton] at hx
  rw [hx, hfactFirst, ← hkeyFirst, ← hkey] at hsame
  exact hkeys hsame

/-- The first byte of an entry was written, the rest was not. -/
theorem registry_resumed : ∃ file, EquivocationLedger.Resumed Sample.crypto []
    ((EquivocationLedger.entryBytes registered).take 1) ((EquivocationLedger.entryBytes registered).drop 1) registered
    file := by
  obtain ⟨ledger, hopen, -⟩ := EquivocationLedger.open_spec Sample.crypto []
  refine (EquivocationLedger.Session.opened hopen).resumed registry_admits_registered registry_admits_registered
    (List.take_append_drop _ _) fun hnil => ?_
  have hlength := congrArg List.length hnil
  simp [EquivocationLedger.entryBytes, lengthPrefixBytes] at hlength

/-- A whole line but for its new line was written. -/
theorem client_resumed : ∃ file, Client.Evidence.Resumed Sample.crypto .protocol []
    (Client.Evidence.renderEntry (Client.Evidence.entryOf registered)) ['\n'] revoked file := by
  obtain ⟨ledger, hopen, -⟩ := Client.Evidence.open_nothing
    (Journal.Kept.nil : Journal.Kept (Client.Evidence.rules Sample.crypto (Client.Evidence.clamp .protocol)) [])
  exact (Client.Evidence.Session.opened hopen).resumed client_admits_registered (List.cons_ne_nil _ _) rfl
    client_admits_revoked

/-- On these files the two ledgers lose what is recorded next. -/
theorem recorded_survives_iff_registered : ∃ file file',
    (EquivocationLedger.Survives Sample.crypto file registered [] ↔
      (EquivocationLedger.entryBytes registered).take 1 = [] ∨ EquivocationLedger.Completes []
        ((EquivocationLedger.entryBytes registered).take 1) ((EquivocationLedger.entryBytes registered).drop 1)
        registered) ∧
    (Client.Evidence.Survives Sample.crypto .protocol file' revoked [] ↔ 2 < ['\n'].length) := by
  obtain ⟨file, hregistry⟩ := registry_resumed
  obtain ⟨file', hclient⟩ := client_resumed
  exact ⟨file, file', (recorded_survives_iff Sample.crypto).1 _ _ _ _ _ hregistry,
    (recorded_survives_iff Sample.crypto).2 _ _ _ _ _ _ hclient⟩

/-- **A report that either ledger records after a torn write may be lost at the next open.** -/
theorem report_lost :
    (¬ ∀ (C : Crypto) (rs : List Report) (tail lost : Bytes) (r : Report) (file : Bytes),
      EquivocationLedger.Resumed C rs tail lost r file → EquivocationLedger.Survives C file r rs) ∧
    (¬ ∀ (C : Crypto) (limits : Client.Evidence.Limits) (rs : List Report) (tail lost : List Char) (r : Report)
      (file : List Char), Client.Evidence.Resumed C limits rs tail lost r file →
        Client.Evidence.Survives C limits file r rs) := by
  constructor
  · intro h
    obtain ⟨file, hresumed⟩ := registry_resumed
    have htail : ((EquivocationLedger.entryBytes registered).take 1).length = 1 := by
      simp [EquivocationLedger.entryBytes, lengthPrefixBytes]
      omega
    rcases (EquivocationLedger.survives_iff hresumed).1 (h _ _ _ _ _ _ hresumed) with hnil | ⟨hpre, -⟩
    · rw [hnil] at htail
      cases htail
    · rw [htail] at hpre
      exact absurd hpre (by decide)
  · intro h
    obtain ⟨file, hresumed⟩ := client_resumed
    exact absurd ((Client.Evidence.survives_iff hresumed).1 (h _ _ _ _ _ _ _ hresumed)) (by decide)

end VayuWeb
