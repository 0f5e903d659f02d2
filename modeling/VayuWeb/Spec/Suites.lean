import Mathlib.Data.Nat.Notation

/-!
# The suite registry (`registry/src/suites.ts`)

The key, signature and record sizes a verifier reads from a record's suite.
-/

namespace VayuWeb

/-- A signature suite and the sizes it fixes. -/
structure Suite where
  id : ℕ
  signature : String
  hash : String
  publicKeyLength : ℕ
  signatureLength : ℕ
  maxRecordBytes : ℕ
  /-- False for a reserved suite, which no record may name. -/
  active : Bool
  deriving DecidableEq, Repr

/-- `TABLE`: the suites there are, one of them active. -/
def suiteTable : List Suite :=
  [{ id := 1, signature := "Ed25519", hash := "BLAKE2b-256", publicKeyLength := 32,
     signatureLength := 64, maxRecordBytes := 4096, active := true },
   { id := 2, signature := "Ed25519 + ML-DSA-65 (hybrid)", hash := "BLAKE2b-256",
     publicKeyLength := 32 + 1952, signatureLength := 64 + 3309, maxRecordBytes := 10240,
     active := false },
   { id := 3, signature := "ML-DSA-65", hash := "SHA3-256", publicKeyLength := 1952,
     signatureLength := 3309, maxRecordBytes := 10240, active := false },
   { id := 4, signature := "SLH-DSA-SHAKE-128s", hash := "SHAKE-256", publicKeyLength := 32,
     signatureLength := 7856, maxRecordBytes := 12288, active := false }]

/-- The suite a record may name: a known one that is active. -/
def suiteOf (id : ℕ) : Option Suite :=
  match suiteTable.find? (·.id = id) with
  | some suite => if suite.active then some suite else none
  | none => none

/-- The largest record any active suite admits, the bound applied before decoding. -/
def maxActiveRecordBytes : ℕ :=
  (suiteTable.filter (·.active)).foldl (fun m s => max m s.maxRecordBytes) 0

theorem maxActiveRecordBytes_eq : maxActiveRecordBytes = 4096 := by decide

/-- Only the launch suite is active. -/
theorem suiteOf_eq_some {id : ℕ} {suite : Suite} (h : suiteOf id = some suite) :
    id = 1 ∧ suite.publicKeyLength = 32 ∧ suite.signatureLength = 64 ∧
      suite.maxRecordBytes = 4096 ∧ suite.signature = "Ed25519" := by
  unfold suiteOf at h
  split at h
  · rename_i s hs
    have hm := List.mem_of_find?_eq_some hs
    have hid := List.find?_some hs
    split at h
    · rename_i hactive
      simp only [Option.some.injEq] at h; subst h
      simp only [suiteTable, List.mem_cons, List.not_mem_nil, or_false] at hm
      rcases hm with rfl | rfl | rfl | rfl
      · simp only [decide_eq_true_eq] at hid; exact ⟨hid.symm, rfl, rfl, rfl, rfl⟩
      all_goals simp at hactive
    · simp at h
  · simp at h

end VayuWeb
