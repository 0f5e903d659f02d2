import VayuWeb.Proof.Log
import VayuWeb.Proof.Sample

/-!
# Which registration a conflict is judged against

`mergeConflict` evaluates its guards against the first registration of the name in the log,
while the chain that holds the name descends from the last one.

* `taken_held`: a registration refused as taken finds a held name and a first registration.
* `guards_read_chain_root_iff`: the two registrations are one exactly while the name has been
  registered once.
* `guards_read_displaced_root`: a third contender is refused for being late against a
  registration that was displaced.
-/

namespace VayuWeb

open Bytes

variable {C : Crypto} {s : Store} {b : Bytes} {now : ℕ} {r : RegistryRecord}

/-! ## The guards -/

/-- One of the two guards refuses a claim against `root`: it comes too late to be concurrent, or
from the same owner. -/
def GuardRefuses (r : RegistryRecord) (root : LogEntry) : Prop :=
  root.record.notBefore + maxBackdateSeconds < r.notBefore ∨ r.ownerKey = root.record.ownerKey

/-- The entry the guards are evaluated against. -/
theorem mergeConflict_guarded {held : NameEntry} {root : LogEntry} (taken : Verdict)
    (hp : admitBytes b = .ok r) (hheld : s.names.get? (keyOf r) = some held)
    (hroot : s.rootEntryFor (keyOf r) = some root) (hg : GuardRefuses r root) :
    s.mergeConflict C b now taken = .ok (taken, s) := by
  unfold Store.mergeConflict
  rw [parseRecordBytes_eq_ok.2 hp]
  simp only
  split
  · rfl
  rw [show s.names.get? (nameKey r.name r.tld) = some held from hheld,
    show s.rootEntryFor (nameKey r.name r.tld) = some root from hroot]
  simp only
  rcases hg with hlate | howner
  · rw [if_pos (by omega)]
  · split
    · rfl
    · rw [if_pos (compareBytes_eq.2 howner)]

/-- A pair of valid candidates for one name at one `seq` is resolved, by their hashes. -/
theorem resolveConflict_pair {x y : Candidate} (hx : x.valid = true) (hy : y.valid = true)
    (hname : y.record.name = x.record.name) (htld : y.record.tld = x.record.tld)
    (hseq : y.record.seq = x.record.seq) (hlength : y.hash.length = x.hash.length) :
    ∃ resolution, resolveConflict [x, y] = .ok resolution ∧
      resolution.winner = if compareBytes x.hash y.hash = .gt then y else x := by
  unfold resolveConflict
  simp only [List.find?_cons, List.find?_nil, hname, htld, hseq, ne_eq, not_true_eq_false, or_self,
    decide_false, List.zipIdx_cons, List.zipIdx_nil, List.filter_cons, hx, hy, if_true, List.filter_nil,
    hlength, Nat.zero_add, List.insertionSort_cons, List.insertionSort_nil, List.orderedInsert]
  by_cases horder : compareBytes x.hash y.hash = .gt
  · rw [if_neg (not_not.2 horder), if_pos horder]
    exact ⟨_, rfl, rfl⟩
  · rw [if_pos horder, if_neg horder]
    exact ⟨_, rfl, rfl⟩

/-! ## The two registrations -/

/-- The scan of `rootEntryFor` stops at the first registration. -/
theorem Indexed.rootEntryFor_eq (hs : Indexed C s) (key : String) :
    s.rootEntryFor key = (s.registrations key).head? := by
  rw [Store.rootEntryFor, ← List.head?_filter, Store.registrations]
  congr 1
  refine List.filter_congr fun e he => ?_
  rw [Bool.eq_iff_iff]
  simp only [Bool.and_eq_true, decide_eq_true_eq]
  exact ⟨fun h => h.1, fun h => ⟨h, hs.seq e he h.2⟩⟩

/-- A held name has been registered, and its chain descends from the last registration. -/
theorem Indexed.registrations_of_held (hs : Indexed C s) {key : String} {held : NameEntry}
    (h : s.names.get? key = some held) : ∃ first last, (s.registrations key).head? = some first ∧
      (s.registrations key).getLast? = some last ∧ last.hash = held.rootHash := by
  have hroot := hs.root key
  rw [h, Option.map_some] at hroot
  obtain ⟨last, hlast, hhash⟩ := Option.map_eq_some_iff.1 hroot.symm
  cases hr : s.registrations key with
  | nil => rw [hr] at hlast; simp at hlast
  | cons first rest => exact ⟨first, last, rfl, by rw [← hr]; exact hlast, hhash⟩

/-- Of entries with distinct hashes, the first and the last share theirs when there is one. -/
theorem head_hash_eq_getLast_hash_iff {l : List LogEntry} (hn : (l.map (·.hash)).Nodup)
    {first last : LogEntry} (hfirst : l.head? = some first) (hlast : l.getLast? = some last) :
    first.hash = last.hash ↔ l.length = 1 := by
  cases l with
  | nil => simp at hfirst
  | cons a rest =>
    simp only [List.head?_cons, Option.some.injEq] at hfirst
    subst hfirst
    cases rest with
    | nil => simp only [List.getLast?_singleton, Option.some.injEq] at hlast; simp [hlast]
    | cons c rest =>
      have hmem : last ∈ c :: rest := by
        rw [List.getLast?_cons_cons] at hlast
        exact List.mem_of_getLast? hlast
      have hne : a.hash ≠ last.hash := by
        rw [List.map_cons, List.nodup_cons] at hn
        exact fun he => hn.1 (he ▸ List.mem_map_of_mem hmem)
      simp [hne]

/-- **What a registration refused as taken meets**: a name that is held, and registered before. -/
theorem taken_held {steps : List Step} {detail : String} (hs : Run C steps s) (hb : admitBytes b = .ok r)
    (htaken : verify C b (s.view C) now false = .ok (.reject .nameTaken detail)) :
    ∃ held root, s.names.get? (keyOf r) = some held ∧ s.rootEntryFor (keyOf r) = some root ∧
      (root.hash = held.rootHash ↔ (s.registrations (keyOf r)).length = 1) := by
  unfold verify at htaken
  rw [hb] at htaken
  obtain ⟨-, -, hheld⟩ := judge_nameTaken htaken
  change isHeld ((s.names.get? (keyOf r)).map (·.current)) (s.view C) now = true at hheld
  cases hn : s.names.get? (keyOf r) with
  | none => rw [hn] at hheld; simp [isHeld] at hheld
  | some held =>
    have hi := hs.indexed
    obtain ⟨root, last, hroot, hlast, hhash⟩ := hi.registrations_of_held hn
    refine ⟨held, root, rfl, by rw [hi.rootEntryFor_eq, hroot], ?_⟩
    rw [← hhash]
    exact head_hash_eq_getLast_hash_iff
      (hi.nodup.sublist ((List.filter_sublist).map _)) hroot hlast

/-- The guards on a registration of `r`'s name are evaluated against the entry its current chain
descends from. -/
def GuardsReadChainRoot (C : Crypto) (s : Store) (b : Bytes) (now : ℕ) (r : RegistryRecord) : Prop :=
  ∃ held root, s.names.get? (keyOf r) = some held ∧ s.rootEntryFor (keyOf r) = some root ∧
    (∀ taken, GuardRefuses r root → s.mergeConflict C b now taken = .ok (taken, s)) ∧
    root.hash = held.rootHash

/-- **A conflicting registration is judged against the chain that holds the name exactly while the
name has been registered once.** -/
theorem guards_read_chain_root_iff {steps : List Step} {detail : String} (hs : Run C steps s)
    (hb : admitBytes b = .ok r)
    (htaken : verify C b (s.view C) now false = .ok (.reject .nameTaken detail)) :
    GuardsReadChainRoot C s b now r ↔ (s.registrations (keyOf r)).length = 1 := by
  obtain ⟨held, root, hheld, hroot, hiff⟩ := taken_held hs hb htaken
  constructor
  · rintro ⟨held', root', hheld', hroot', -, hhash⟩
    rw [hheld, Option.some.injEq] at hheld'
    rw [hroot, Option.some.injEq] at hroot'
    subst hheld' hroot'
    exact hiff.1 hhash
  · intro hone
    exact ⟨held, root, hheld, hroot, fun taken hg => mergeConflict_guarded taken hb hheld hroot hg,
      hiff.2 hone⟩

/-- A claim for a name registered once is judged against that registration. -/
theorem guards_read_first_root :
    GuardsReadChainRoot Sample.crypto (Sample.enter .empty Sample.first) Sample.rival.bytes 1700000000
        Sample.rival.record ↔
      ((Sample.enter .empty Sample.first).registrations (keyOf Sample.rival.record)).length = 1 := by
  obtain ⟨held, root, hrival⟩ := Sample.rival_ok
  obtain ⟨detail, htaken⟩ := hrival.taken
  exact guards_read_chain_root_iff (.append .empty Sample.append_first) hrival.admitted htaken

/-- The store in which `rival` has displaced `first`. -/
def raced : Store := Sample.enter (Sample.enter .empty Sample.first) Sample.rival

theorem run_raced : ∃ steps, Run Sample.crypto steps raced :=
  ⟨_, .append (.append .empty Sample.append_first) Sample.append_rival⟩

theorem late_taken : verify Sample.crypto Sample.late.bytes (raced.view Sample.crypto) 1700000300 false =
    .ok (.reject .nameTaken "observatory-lantern.abacus is held") := by
  refine verify_taken Sample.late_ok.admitted rfl rfl rfl ?_
  have hcurrent : (raced.view Sample.crypto).current Sample.late.record.name Sample.late.record.tld =
      some (Store.nextNameEntry Sample.crypto (Sample.enter .empty Sample.first) Sample.rival.bytes
        Sample.rival.record).current := by
    change (raced.names.get? (keyOf Sample.rival.record)).map (·.current) = _
    rw [raced, Sample.enter, extend_names, OrdMap.get?_set_self]
    rfl
  rw [hcurrent]
  rfl

/-- Once `rival` has displaced `first`, a third claim is measured against `first`: it is refused
for being a day later than that, though it is 300 seconds later than `rival`. -/
theorem guards_read_displaced_root : ¬ ∀ (C : Crypto) (steps : List Step) (s : Store) (b : Bytes)
    (now : ℕ) (r : RegistryRecord) (detail : String), Run C steps s → admitBytes b = .ok r →
      verify C b (s.view C) now false = .ok (.reject .nameTaken detail) →
        GuardsReadChainRoot C s b now r := by
  intro h
  obtain ⟨steps, hrun⟩ := run_raced
  obtain ⟨held, root, hheld, hroot, -, hhash⟩ := h Sample.crypto steps raced Sample.late.bytes 1700000300
    Sample.late.record _ hrun Sample.late_ok.admitted late_taken
  have hlast : held.rootHash = recordHashFromBytes Sample.crypto Sample.rival.bytes := by
    rw [raced, Sample.enter, extend_names, show keyOf Sample.late.record = keyOf Sample.rival.record from rfl,
      OrdMap.get?_set_self, Option.some.injEq] at hheld
    rw [← hheld]; rfl
  have hfirst : root.hash = recordHashFromBytes Sample.crypto Sample.first.bytes := by
    have hfind : raced.rootEntryFor (keyOf Sample.first.record) =
        some (Store.nextLogEntry Sample.crypto .empty Sample.first.bytes Sample.first.record) := by
      simp [Store.rootEntryFor, raced, Sample.enter, Store.empty, Store.nextLogEntry, keyOf, Sample.first,
        Sample.SampleRecord.record]
    rw [show keyOf Sample.late.record = keyOf Sample.first.record from rfl, hfind, Option.some.injEq] at hroot
    rw [← hroot]; rfl
  obtain ⟨held', root', hrival⟩ := Sample.rival_ok
  have hfresh := hrival.fresh
  rw [hlast, hfirst] at hhash
  simp [Store.has, Sample.enter, Store.empty, hhash] at hfresh

end VayuWeb
