import VayuWeb.Proof.InclusionSound
import VayuWeb.Proof.Log
import VayuWeb.Spec.Checkpoint

/-!
# What a light client's answer is about

* `verifyNameInclusion_verified`: a verified answer rests on the inclusion proof alone.
* `light_client_answer`: it is about the name asked exactly when the record is of that name.
* `light_client_unnamed`: the record of one name verifies for another.
-/

namespace VayuWeb

open Bytes

variable {C : Crypto} {name : String} {recordBytes treeRoot : Bytes} {proof : Proof}
  {logLength observedAt peersAgreeing : ℤ} {answer : LightClientAnswer}

/-- Bytes that parse as a record are a record of this name. -/
def Named (name : String) (recordBytes : Bytes) : Prop :=
  ∀ r, admitBytes recordBytes = .ok r → r.name ++ "." ++ r.tld = name

/-- What a verified answer should mean. -/
structure AnswersFor (name : String) (recordBytes : Bytes) (log : List Bytes) : Prop where
  named : ∃ r, admitBytes recordBytes = .ok r ∧ r.name ++ "." ++ r.tld = name
  included : recordBytes ∈ log

/-- A verified answer has a proof that verifies. -/
theorem verifyNameInclusion_verified
    (h : verifyNameInclusion C name recordBytes proof treeRoot logLength observedAt peersAgreeing = .ok answer)
    (hverified : answer.verified = true) : verifyInclusion C recordBytes proof treeRoot = .ok true := by
  unfold verifyNameInclusion at h
  simp only at h
  by_cases hpeers : peersAgreeing < 1
  · rw [if_pos hpeers, Except.ok.injEq] at h
    subst h
    exact absurd hverified Bool.false_ne_true
  by_cases hpast : proof.leafIndex ≥ logLength
  · rw [if_neg hpeers, if_pos hpast, Except.ok.injEq] at h
    subst h
    exact absurd hverified Bool.false_ne_true
  · rw [if_neg hpeers, if_neg hpast] at h
    obtain ⟨included, hincluded, h⟩ := Except.bind_eq_ok.1 h
    cases included with
    | true => exact hincluded
    | false =>
      simp only [Bool.false_eq_true, not_false_eq_true, if_true, Except.pure_eq_ok, Except.ok.injEq] at h
      subst h
      exact absurd hverified Bool.false_ne_true

/-- The entries of a log parse. -/
theorem Run.admits {steps : List Step} {s : Store} (run : Run C steps s)
    (h : recordBytes ∈ s.entries.map (·.bytes)) : ∃ r, admitBytes recordBytes = .ok r := by
  obtain ⟨e, he, rfl⟩ := List.mem_map.1 h
  exact ⟨e.record, (run.indexed.entry e he).1⟩

/-- **A light client's answer** is about the name asked exactly when the record presented is one of
that name, for proofs whose claimed peak starts at a multiple of 48 bytes among the proof's peaks. -/
theorem light_client_answer (C : Crypto) {steps : List Step} {s : Store} {tree : MerkleTree} (run : Run C steps s)
    (hlen : s.entries.length < 2 ^ 32) (htree : treeOf C (s.entries.map (·.bytes)) = .ok tree)
    (hroot : tree.root C = .ok treeRoot) (name : String) (recordBytes : Bytes) (proof : Proof)
    (logLength observedAt peersAgreeing : ℤ)
    (hfree : NoCollision C (treeInputs C (s.entries.map (·.bytes)) ++ proofInputs C recordBytes proof))
    (hanswer : verifyNameInclusion C name recordBytes proof treeRoot logLength observedAt peersAgreeing =
      .ok answer) (hverified : answer.verified = true) :
    (AnswersFor name recordBytes (s.entries.map (·.bytes)) → Named name recordBytes) ∧
      (Named name recordBytes → 48 ∣ peakOffset proof.roots proof.rootIndex.toNat →
        AnswersFor name recordBytes (s.entries.map (·.bytes))) := by
  constructor
  · intro hfor r hr
    obtain ⟨r', hr', hname⟩ := hfor.named
    rw [hr, Except.ok.injEq] at hr'
    rw [hr']
    exact hname
  · intro hnamed haligned
    have hlog : (s.entries.map (·.bytes)).length < 2 ^ 32 := by rwa [List.length_map]
    have hincluded := mem_of_verifyInclusion hlog htree hroot hfree haligned
      (verifyNameInclusion_verified hanswer hverified)
    obtain ⟨r, hr⟩ := run.admits hincluded
    exact ⟨⟨r, hr, hnamed r hr⟩, hincluded⟩

/-! ## A log of one record -/

/-- BLAKE2b-256 of what the tree over the first sample record hashes. -/
def firstDigests : List (Bytes × Bytes) :=
  let leaf := Sample.literal 32 0xc55f83998c3459948bde8d8a3cd5106baebf7bd61dcc02c5fb2e3a10c8e4cc04
  [([leafType] ++ beBytes 8 334 ++ Sample.first.bytes, leaf),
   ([rootType] ++ leaf ++ beBytes 8 0 ++ beBytes 8 334,
    Sample.literal 32 0xdea5c3b1353a54b24174c0740622cb95f6c80fa6e546e551cfcd8bc5e2820be2)]

/-- Primitives that know the hashes of a log of one record. -/
def firstCrypto : Crypto :=
  { Sample.crypto with
    blake2b := fun b => (Sample.find (firstDigests ++ Sample.digests) b).takeD 32 0
    length_blake2b := fun _ => List.takeD_length _ _ _ }

/-- The inclusion proof of that record. -/
def firstProof : Proof :=
  { leafIndex := 0, leafSize := 334, siblings := [], siblingIsLeft := []
    roots := [⟨Sample.literal 32 0xc55f83998c3459948bde8d8a3cd5106baebf7bd61dcc02c5fb2e3a10c8e4cc04, 0, 334⟩]
    rootIndex := 0 }

/-- The root of that log. -/
def firstRoot : Bytes := Sample.literal 32 0xdea5c3b1353a54b24174c0740622cb95f6c80fa6e546e551cfcd8bc5e2820be2

/-- The log holds the first sample record alone. -/
theorem first_run : ∃ steps s, Run firstCrypto steps s ∧ s.entries.map (·.bytes) = [Sample.first.bytes] := by
  have happend : Store.append firstCrypto .empty Sample.first.bytes 1700000000 =
      .ok (.accept Sample.first.record none false,
        Store.empty.extend firstCrypto Sample.first.bytes Sample.first.record) := by
    decide +kernel
  exact ⟨_, _, Run.empty.append happend, rfl⟩

theorem first_tree : ∃ tree, treeOf firstCrypto [Sample.first.bytes] = .ok tree ∧
    tree.root firstCrypto = .ok firstRoot := by
  have htree : ((treeOf firstCrypto [Sample.first.bytes]).bind fun tree => tree.root firstCrypto) =
      .ok firstRoot := by decide +kernel
  exact Except.bind_eq_ok.1 htree

theorem first_noCollision :
    NoCollision firstCrypto (treeInputs firstCrypto [Sample.first.bytes] ++
      proofInputs firstCrypto Sample.first.bytes firstProof) := by decide +kernel

theorem first_verifies (name : String) :
    ∃ answer, verifyNameInclusion firstCrypto name Sample.first.bytes firstProof firstRoot 1 1700000000 2 =
      .ok answer ∧ answer.verified = true := by
  have hincluded : verifyInclusion firstCrypto Sample.first.bytes firstProof firstRoot = .ok true := by
    decide +kernel
  unfold verifyNameInclusion
  rw [hincluded]
  exact ⟨_, rfl, rfl⟩

theorem light_client_answer_first : Named "observatory-lantern.abacus" Sample.first.bytes ∧
    AnswersFor "observatory-lantern.abacus" Sample.first.bytes [Sample.first.bytes] := by
  obtain ⟨steps, s, hrun, hentries⟩ := first_run
  obtain ⟨tree, htree, hroot⟩ := first_tree
  obtain ⟨answer, hanswer, hverified⟩ := first_verifies "observatory-lantern.abacus"
  have hnamed : Named "observatory-lantern.abacus" Sample.first.bytes := by
    intro r hr
    have hfirst : admitBytes Sample.first.bytes = .ok Sample.first.record := Sample.first_ok.admitted
    rw [hfirst, Except.ok.injEq] at hr
    rw [← hr]
    decide
  have hlen : s.entries.length < 2 ^ 32 := by
    rw [← List.length_map (·.bytes), hentries]
    decide
  have hanswers := light_client_answer firstCrypto hrun hlen (by rw [hentries]; exact htree) hroot
    "observatory-lantern.abacus" Sample.first.bytes firstProof 1 1700000000 2
    (by rw [hentries]; exact first_noCollision) hanswer hverified
  rw [hentries] at hanswers
  exact ⟨hnamed, hanswers.2 hnamed (by decide)⟩

/-- **The record of one name verifies for another.** -/
theorem light_client_unnamed : ¬ ∀ (C : Crypto) (steps : List Step) (s : Store) (tree : MerkleTree)
    (treeRoot : Bytes) (name : String) (recordBytes : Bytes) (proof : Proof)
    (logLength observedAt peersAgreeing : ℤ) (answer : LightClientAnswer), Run C steps s →
      treeOf C (s.entries.map (·.bytes)) = .ok tree → tree.root C = .ok treeRoot →
      NoCollision C (treeInputs C (s.entries.map (·.bytes)) ++ proofInputs C recordBytes proof) →
      verifyNameInclusion C name recordBytes proof treeRoot logLength observedAt peersAgreeing = .ok answer →
      answer.verified = true → AnswersFor name recordBytes (s.entries.map (·.bytes)) := by
  intro h
  obtain ⟨steps, s, hrun, hentries⟩ := first_run
  obtain ⟨tree, htree, hroot⟩ := first_tree
  obtain ⟨answer, hanswer, hverified⟩ := first_verifies "atlas.vayu"
  have hanswers := h firstCrypto steps s tree firstRoot "atlas.vayu" Sample.first.bytes firstProof 1 1700000000 2
    answer hrun (by rw [hentries]; exact htree) hroot (by rw [hentries]; exact first_noCollision) hanswer hverified
  obtain ⟨r, hr, hname⟩ := hanswers.named
  have hfirst : admitBytes Sample.first.bytes = .ok Sample.first.record := Sample.first_ok.admitted
  rw [hfirst, Except.ok.injEq] at hr
  subst hr
  exact absurd hname (by decide)

end VayuWeb
