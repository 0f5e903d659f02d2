import VayuWeb.Client.Blocks

/-!
# The block store over any directory

* `get_eq_ok_some`: when a block is read, and what is read.
* `put_keeps`, `putAll_keeps`: a file under the text of a CID is never changed, whatever becomes of
  the writes.
* `putAll_eq_ok`: what a run that succeeds leaves.
* `putAll_succeeds`: and when a run succeeds.
-/

namespace VayuWeb.Client.BlockStore

open Bytes

variable {H : ContentHash} {fate : String → Fate} {disk disk' : Disk} {cid : Cid} {bytes : Bytes}

/-! ## Names -/

theorem dot_notMem_toText (cid : Cid) : '.' ∉ cid.toText.toList := by
  rw [Cid.toText, String.toList_append, List.mem_append, not_or]
  refine ⟨by decide, ?_⟩
  intro hdot
  have hindex := Base32.indexOf_of_mem_encode '.' hdot
  have hnone : (Base32.indexOf '.').isSome = false := by decide
  rw [hnone] at hindex
  exact Bool.false_ne_true hindex

/-- A temporary file is not the file of a block. -/
theorem toText_ne_temporary (cid : Cid) (target : String) : cid.toText ≠ temporary target := by
  intro h
  apply dot_notMem_toText cid
  rw [h, temporary, String.toList_append]
  exact List.mem_append_right _ (by decide)

/-! ## One block -/

/-- The comparison in constant time finds every difference. -/
theorem foldl_or_eq_zero {pairs : List (UInt8 × UInt8)} {start : UInt8} :
    pairs.foldl (fun diff pair => diff ||| (pair.1 ^^^ pair.2)) start = 0 ↔
      start = 0 ∧ ∀ pair ∈ pairs, pair.1 = pair.2 := by
  induction pairs generalizing start with
  | nil => simp
  | cons pair pairs ih =>
    rw [List.foldl_cons, ih, UInt8.or_eq_zero_iff, UInt8.xor_eq_zero_iff, List.forall_mem_cons, and_assoc]

theorem eq_of_zip {xs ys : Bytes} (hlength : xs.length = ys.length) (h : ∀ pair ∈ xs.zip ys, pair.1 = pair.2) :
    xs = ys := by
  apply List.ext_getElem hlength
  intro i hi hi'
  have hpair : (xs[i], ys[i]) ∈ xs.zip ys := by
    rw [List.mem_iff_getElem]
    exact ⟨i, by rw [List.length_zip]; omega, List.getElem_zip⟩
  exact h _ hpair

/-- **The comparison in constant time is equality.** -/
theorem verify_iff : verify H cid bytes = true ↔ H.sha256 bytes = cid.digest := by
  have hlength : (H.sha256 bytes).1.length = cid.digest.1.length := by
    rw [(H.sha256 bytes).2, cid.digest.2]
  rw [verify, Bool.and_eq_true, beq_iff_eq, beq_iff_eq, foldl_or_eq_zero]
  constructor
  · rintro ⟨⟨-, hpairs⟩, -⟩
    exact Subtype.ext (eq_of_zip hlength hpairs)
  · intro h
    refine ⟨⟨rfl, ?_⟩, hlength.symm⟩
    rw [h]
    intro pair hpair
    obtain ⟨i, hi, rfl⟩ := List.mem_iff_getElem.1 hpair
    rw [List.getElem_zip]

/-- **When a block is read**, and what is read. -/
theorem get_eq_ok_some : get H disk cid = .ok (some bytes) ↔
    disk cid.toText = some bytes ∧ bytes.length ≤ maxBlockBytes ∧ H.sha256 bytes = cid.digest := by
  rw [get]
  cases hfile : disk cid.toText with
  | none => simp
  | some found =>
    simp only [Option.some.injEq]
    by_cases hlarge : found.length > maxBlockBytes
    · rw [if_pos hlarge]
      simp only [reduceCtorEq, false_iff]
      rintro ⟨rfl, hle, -⟩
      omega
    rw [if_neg hlarge]
    by_cases hverify : verify H cid found = true
    · rw [if_neg (not_not.2 hverify)]
      simp only [Except.ok.injEq, Option.some.injEq]
      constructor
      · rintro rfl
        exact ⟨rfl, by omega, verify_iff.1 hverify⟩
      · rintro ⟨h, -⟩
        exact h
    · rw [if_pos hverify]
      simp only [reduceCtorEq, false_iff]
      rintro ⟨rfl, -, hdigest⟩
      exact hverify (verify_iff.2 hdigest)

/-- A block is put where its file is, and the files of other blocks stay. -/
theorem write_rename (target : String) :
    ((disk.write (temporary target) bytes).rename (temporary target) target) cid.toText =
      if cid.toText = target then some bytes else disk cid.toText := by
  have hne := toText_ne_temporary cid target
  rw [Disk.rename, Disk.write, if_pos rfl, if_neg hne, Disk.write, if_neg hne]

/-- A write leaves every other file as it is. -/
theorem writeInto_keeps {fate : Fate} {target : String} (h : cid.toText ≠ target) :
    (writeInto fate disk target bytes).2 cid.toText = disk cid.toText := by
  have hne := toText_ne_temporary cid target
  cases fate with
  | done => exact (write_rename target).trans (if_neg h)
  | writeFails written detail => exact if_neg hne
  | renameFails detail => exact if_neg hne

/-- A file under the text of a CID is not changed by a put. -/
theorem put_keeps (other : Cid) (h : (disk other.toText).isSome) :
    (put H fate disk cid bytes).2 other.toText = disk other.toText := by
  rw [put]
  by_cases hlarge : bytes.length > maxBlockBytes
  · rw [if_pos hlarge]
  rw [if_neg hlarge]
  by_cases hverify : verify H cid bytes = true
  · rw [if_neg (not_not.2 hverify)]
    by_cases hpresent : (disk cid.toText).isSome = true
    · rw [if_pos hpresent]
    · rw [if_neg hpresent]
      apply writeInto_keeps
      intro heq
      rw [heq] at h
      exact hpresent h
  · rw [if_pos hverify]

/-- What a successful put of an absent block leaves. -/
theorem put_eq_ok (habsent : disk cid.toText = none) : put H fate disk cid bytes = (.ok (), disk') ↔
    bytes.length ≤ maxBlockBytes ∧ H.sha256 bytes = cid.digest ∧ fate cid.toText = .done ∧
      disk' = (disk.write (temporary cid.toText) bytes).rename (temporary cid.toText) cid.toText := by
  have hpresent : ¬ (disk cid.toText).isSome = true := by
    rw [habsent]
    exact Bool.false_ne_true
  rw [put]
  by_cases hlarge : bytes.length > maxBlockBytes
  · rw [if_pos hlarge]
    simp only [Prod.mk.injEq, reduceCtorEq, false_and, false_iff, not_and]
    intro hle
    omega
  rw [if_neg hlarge]
  by_cases hverify : verify H cid bytes = true
  · rw [if_neg (not_not.2 hverify), if_neg hpresent]
    have hdigest := verify_iff.1 hverify
    have hle : bytes.length ≤ maxBlockBytes := Nat.not_lt.1 hlarge
    cases hfate : fate cid.toText with
    | done => simp [writeInto, hle, hdigest, eq_comm]
    | writeFails written detail => simp [writeInto]
    | renameFails detail => simp [writeInto]
  · rw [if_pos hverify]
    simp only [Prod.mk.injEq, reduceCtorEq, false_and, false_iff, not_and]
    intro _ hdigest
    exact absurd (verify_iff.2 hdigest) hverify

/-! ## All blocks -/

variable {blocks : List (Cid × Bytes)}

/-- A block that is there is passed over. -/
theorem putAll_of_present {cid : Cid} {bytes : Bytes} (h : (disk cid.toText).isSome) :
    putAll H fate disk ((cid, bytes) :: blocks) = putAll H fate disk blocks := by
  rw [putAll, if_pos h]

/-- The first block that is not stored ends the batch. -/
theorem putAll_of_error {error : StoreError} (habsent : ¬ (disk cid.toText).isSome)
    (h : put H fate disk cid bytes = (.error error, disk')) :
    putAll H fate disk ((cid, bytes) :: blocks) = (.error error, disk') := by
  rw [putAll, if_neg habsent, h]

/-- A block that is stored is counted. -/
theorem putAll_of_ok (habsent : ¬ (disk cid.toText).isSome) (h : put H fate disk cid bytes = (.ok (), disk')) :
    putAll H fate disk ((cid, bytes) :: blocks) =
      ((putAll H fate disk' blocks).1.map (· + 1), (putAll H fate disk' blocks).2) := by
  rw [putAll, if_neg habsent, h]
  simp only
  rcases putAll H fate disk' blocks with ⟨error | written, disk''⟩
  · rfl
  · rfl

/-- **A file under the text of a CID is never changed**, whatever becomes of the writes. -/
theorem putAll_keeps (other : Cid) (h : (disk other.toText).isSome) :
    (putAll H fate disk blocks).2 other.toText = disk other.toText := by
  induction blocks generalizing disk with
  | nil => rfl
  | cons block blocks ih =>
    obtain ⟨cid, bytes⟩ := block
    by_cases hpresent : (disk cid.toText).isSome = true
    · rw [putAll_of_present hpresent]
      exact ih h
    · have hkeeps := @put_keeps H fate disk cid bytes other h
      rcases hput : put H fate disk cid bytes with ⟨error | ⟨⟩, disk₁⟩
      · rw [hput] at hkeeps
        rw [putAll_of_error hpresent hput]
        exact hkeeps
      · rw [hput] at hkeeps
        simp only at hkeeps
        rw [putAll_of_ok hpresent hput, ← hkeeps]
        apply ih
        rw [hkeeps]
        exact h

/-- No two blocks of different bytes have one file. -/
def Consistent (blocks : List (Cid × Bytes)) : Prop :=
  ∀ block ∈ blocks, ∀ block' ∈ blocks, block.1.toText = block'.1.toText → block.2 = block'.2

theorem Consistent.tail {block : Cid × Bytes} (h : Consistent (block :: blocks)) : Consistent blocks :=
  fun b hb b' hb' => h b (List.mem_cons_of_mem _ hb) b' (List.mem_cons_of_mem _ hb')

/-- **What a run that succeeds leaves**: the file of a block is as it was, and where there was none
it is the block, which is small enough. -/
theorem putAll_eq_ok (hconsistent : Consistent blocks) {written : ℕ}
    (h : putAll H fate disk blocks = (.ok written, disk')) {cid : Cid} {bytes : Bytes} (hmem : (cid, bytes) ∈ blocks)
    (habsent : disk cid.toText = none) :
    disk' cid.toText = some bytes ∧ bytes.length ≤ maxBlockBytes := by
  induction blocks generalizing disk written with
  | nil => simp at hmem
  | cons block blocks ih =>
    obtain ⟨cid₁, bytes₁⟩ := block
    -- a file of the name is there: nothing is written, and it is not this block's
    by_cases hpresent : (disk cid₁.toText).isSome = true
    · rw [putAll_of_present hpresent] at h
      rcases List.mem_cons.1 hmem with heq | hmem
      · rw [Prod.mk.injEq] at heq
        rw [← heq.1, habsent] at hpresent
        exact absurd hpresent Bool.false_ne_true
      · exact ih hconsistent.tail h hmem habsent
    · rcases hput : put H fate disk cid₁ bytes₁ with ⟨error | ⟨⟩, disk₁⟩
      · rw [putAll_of_error hpresent hput] at h
        simp at h
      · obtain ⟨hle, -, -, hdisk⟩ := (put_eq_ok (by simpa using hpresent)).1 hput
        rw [putAll_of_ok hpresent hput] at h
        have hall : putAll H fate disk₁ blocks = (.ok (written - 1), disk') := by
          rcases hrest : putAll H fate disk₁ blocks with ⟨error | rest, disk₂⟩
          · simp [hrest, Except.map] at h
          · simp only [hrest, Except.map, Prod.mk.injEq, Except.ok.injEq] at h
            rw [← h.1, h.2, Nat.add_sub_cancel]
        by_cases htext : cid.toText = cid₁.toText
        · -- the file of the block is the one that was just written
          have hbytes : bytes = bytes₁ := hconsistent _ hmem _ List.mem_cons_self htext
          have hfile : disk₁ cid.toText = some bytes := by
            rw [hdisk, write_rename, if_pos htext, hbytes]
          have hkept := @putAll_keeps H fate disk₁ blocks cid (by rw [hfile]; rfl)
          rw [hall, hfile] at hkept
          rw [← hbytes] at hle
          exact ⟨hkept, hle⟩
        · have habsent₁ : disk₁ cid.toText = none := by
            rw [hdisk, write_rename, if_neg htext, habsent]
          rcases List.mem_cons.1 hmem with heq | hmem
          · rw [Prod.mk.injEq] at heq
            exact absurd (congrArg Cid.toText heq.1) htext
          · exact ih hconsistent.tail hall hmem habsent₁

/-- **When a run succeeds**: a file system that works, and blocks that are small enough and hash to
their CIDs. -/
theorem putAll_succeeds (hfate : ∀ target, fate target = .done)
    (h : ∀ block ∈ blocks, block.2.length ≤ maxBlockBytes ∧ H.sha256 block.2 = block.1.digest) :
    ∃ written disk', putAll H fate disk blocks = (.ok written, disk') := by
  induction blocks generalizing disk with
  | nil => exact ⟨0, disk, rfl⟩
  | cons block blocks ih =>
    obtain ⟨cid, bytes⟩ := block
    have htail := fun disk => @ih disk fun b hb => h b (List.mem_cons_of_mem _ hb)
    by_cases hpresent : (disk cid.toText).isSome = true
    · rw [putAll_of_present hpresent]
      exact htail disk
    · obtain ⟨hle, hdigest⟩ := h (cid, bytes) List.mem_cons_self
      have habsent : disk cid.toText = none := by simpa using hpresent
      have hput : put H fate disk cid bytes =
          (.ok (), (disk.write (temporary cid.toText) bytes).rename (temporary cid.toText) cid.toText) :=
        (put_eq_ok habsent).2 ⟨hle, hdigest, hfate _, rfl⟩
      rw [putAll_of_ok hpresent hput]
      obtain ⟨written, disk', hrest⟩ := htail
          ((disk.write (temporary cid.toText) bytes).rename (temporary cid.toText) cid.toText)
      rw [hrest]
      exact ⟨written + 1, disk', rfl⟩

end VayuWeb.Client.BlockStore
