import VayuWeb.Proof.CborBuild
import VayuWeb.Base.Words
import VayuWeb.Proof.Voided
import VayuWeb.Proof.Honest

/-!
# An append answers

No step of `append` throws on a record that parses.

* `powSaltPreimage_salted`: what the salt of an admitted record is taken over.
* `judge_answers`: the verifier gives a verdict.
* `append_answers`: so does the store, in every run.
-/

namespace VayuWeb

open Bytes
open DetCbor (Key Value Canonical)

variable {C : Crypto} {s s' : Store} {b : Bytes} {now : ℕ} {r : RegistryRecord} {es : List (Key × Value)}
  {ignore : Bool} {steps : List Step}

/-! ## The salt -/

/-- A field of a map that is given another value. -/
def replaced (es : List (Key × Value)) (k : String) (w : Value) : List (Key × Value) :=
  es.map fun e => if e.1 = .text k then (e.1, w) else e

theorem sortedKeys_iff : DetCbor.SortedKeys es ↔ (es.map Prod.fst).Pairwise fun a b => a.encode < b.encode := by
  rw [List.pairwise_map]
  exact Iff.rfl

/-- Setting a field that is there replaces it. -/
theorem set_built {k : String} {w : Value} (hnodup : (es.map Prod.fst).Nodup) (hmem : Key.text k ∈ es.map Prod.fst) :
    (built es).set (.text k) (ofWire w) = built (replaced es k w) := by
  induction es with
  | nil => exact absurd hmem List.not_mem_nil
  | cons e es ih =>
    obtain ⟨k', v⟩ := e
    rw [List.map_cons, List.nodup_cons] at hnodup
    by_cases hk : k' = .text k
    · subst hk
      -- the key stands here, so nowhere behind
      have hrest : replaced es k w = es := by
        rw [replaced]
        conv_rhs => rw [← List.map_id es]
        apply List.map_congr_left
        intro e he
        have hne : e.1 ≠ .text k := by
          intro heq
          have hkey := List.mem_map_of_mem (f := Prod.fst) he
          exact hnodup.1 (heq ▸ hkey)
        rw [if_neg hne, id_eq]
      have hfirst : replaced ((.text k, v) :: es) k w = (.text k, w) :: es := by
        conv_rhs => rw [← hrest]
        rw [replaced, List.map_cons, if_pos rfl]
        rfl
      rw [hfirst]
      simp [built, CborMap.set, CborMap.sameKey]
    · have hmem : Key.text k ∈ es.map Prod.fst := by
        rcases List.mem_cons.1 hmem with heq | hmem
        · exact absurd heq.symm hk
        · exact hmem
      have hset := ih hnodup.2 hmem
      simp only [built, replaced, List.map_cons, CborMap.set, CborMap.sameKey, hk, decide_false, Bool.false_eq_true,
        if_false] at hset ⊢
      rw [hset]

theorem delete_built (es : List (Key × Value)) (k : String) :
    (built es).delete k = built (es.filter fun e => e.1 ≠ .text k) := by
  rw [CborMap.delete, built, List.filter_map]
  rfl

/-- No key of a canonical map is repeated. -/
theorem nodup_of_canonical {lv : ℕ} (h : Canonical lv (.map es)) : (es.map Prod.fst).Nodup := by
  cases lv with
  | zero => exact h.elim
  | succ lv => exact sortedKeys_nodup (DetCbor.canonical_map.1 h).2.1

/-- A map of a decoded value was a map on the wire. -/
theorem eq_map_of_ofWire {lv : ℕ} {w : Value} {m : CborMap} (hc : Canonical lv w) (hbom : w.hasBom = false)
    (h : ofWire w = .map m) : ∃ inner, w = .map inner ∧ m = built inner := by
  cases w with
  | map inner =>
    rw [ofWire_map hbom (nodup_of_canonical hc), CborValue.map.injEq] at h
    exact ⟨inner, rfl, h.symm⟩
  | uint n =>
    rw [ofWire] at h
    split_ifs at h
  | _ => simp [ofWire] at h

/-- A proof of work without its nonce. -/
def nonceFree : Value → Value
  | .map proof => .map (proof.filter fun e => e.1 ≠ .text "nonce")
  | v => v

/-- An entry of a record, a proof of work without its nonce. -/
def saltEntry (e : Key × Value) : Key × Value := if e.1 = .text "powProof" then (e.1, nonceFree e.2) else e

/-- The entries of a record that its salt is taken over. -/
def salted (es : List (Key × Value)) : List (Key × Value) :=
  (es.filter fun e => e.1 ≠ .text "sig").map saltEntry

theorem saltEntry_fst (e : Key × Value) : (saltEntry e).1 = e.1 := by
  unfold saltEntry
  split_ifs <;> rfl

theorem saltEntry_of_ne {e : Key × Value} (h : e.1 ≠ .text "powProof") : saltEntry e = e := if_neg h

/-- A canonical value stays so without its nonce. -/
theorem canonical_nonceFree {lv : ℕ} {v : Value} (h : Canonical lv v) : Canonical lv (nonceFree v) := by
  cases v with
  | map proof => exact canonical_filter _ h
  | _ => exact h

theorem hasBom_nonceFree {v : Value} (h : v.hasBom = false) : (nonceFree v).hasBom = false := by
  cases v with
  | map proof => exact hasBom_filter _ h
  | _ => exact h

theorem keys_saltEntry (es : List (Key × Value)) : (es.map saltEntry).map Prod.fst = es.map Prod.fst := by
  rw [List.map_map]
  exact List.map_congr_left fun e _ => saltEntry_fst e

theorem saltEntry_snd (e : Key × Value) : (saltEntry e).2 = e.2 ∨ (saltEntry e).2 = nonceFree e.2 := by
  unfold saltEntry
  by_cases hk : e.1 = .text "powProof"
  · rw [if_pos hk]
    exact Or.inr rfl
  · rw [if_neg hk]
    exact Or.inl rfl

/-- A canonical record stays so when it is salted. -/
theorem canonical_salted {lv : ℕ} (h : Canonical (lv + 1) (.map es)) : Canonical (lv + 1) (.map (salted es)) := by
  have hunsigned := canonical_filter (fun e => e.1 ≠ .text "sig") h
  obtain ⟨hlength, hsorted, hall⟩ := DetCbor.canonical_map.1 hunsigned
  refine DetCbor.canonical_map.2 ⟨by rw [salted, List.length_map]; exact hlength, ?_, ?_⟩
  · rw [sortedKeys_iff, salted, keys_saltEntry, ← sortedKeys_iff]
    exact hsorted
  · intro e he
    obtain ⟨e', he', rfl⟩ := List.mem_map.1 he
    obtain ⟨hkey, hvalue⟩ := hall e' he'
    refine ⟨by rw [saltEntry_fst]; exact hkey, ?_⟩
    rcases saltEntry_snd e' with heq | heq
    · rw [heq]
      exact hvalue
    · rw [heq]
      exact canonical_nonceFree hvalue

theorem hasBom_salted (h : (Value.map es).hasBom = false) : (Value.map (salted es)).hasBom = false := by
  have hunsigned := hasBom_filter (fun e => e.1 ≠ .text "sig") h
  rw [hasBom_map] at hunsigned ⊢
  intro e he
  obtain ⟨e', he', rfl⟩ := List.mem_map.1 he
  obtain ⟨hkey, hvalue⟩ := hunsigned e' he'
  refine ⟨by rw [saltEntry_fst]; exact hkey, ?_⟩
  rcases saltEntry_snd e' with heq | heq
  · rw [heq]
    exact hvalue
  · rw [heq]
    exact hasBom_nonceFree hvalue

/-- Where the proof of work is a map, it is written without its nonce. -/
theorem replaced_eq_salted {unsigned proof : List (Key × Value)} (hnodup : (unsigned.map Prod.fst).Nodup)
    (hproof : (Key.text "powProof", Value.map proof) ∈ unsigned) :
    replaced unsigned "powProof" (nonceFree (.map proof)) = unsigned.map saltEntry := by
  apply List.map_congr_left
  intro e he
  unfold saltEntry
  by_cases hk : e.1 = .text "powProof"
  · have hvalue : e = (Key.text "powProof", Value.map proof) :=
      List.inj_on_of_nodup_map hnodup he hproof hk
    rw [if_pos hk, if_pos hk, hvalue]
  · rw [if_neg hk, if_neg hk]

/-- Where it is none, nothing of it is left out. -/
theorem saltEntry_id {unsigned : List (Key × Value)}
    (hproof : ∀ proof, (Key.text "powProof", Value.map proof) ∉ unsigned) : unsigned.map saltEntry = unsigned := by
  conv_rhs => rw [← List.map_id unsigned]
  apply List.map_congr_left
  rintro ⟨k, v⟩ he
  by_cases hk : k = .text "powProof"
  · subst hk
    cases v with
    | map proof => exact absurd he (hproof proof)
    | _ => rfl
  · exact saltEntry_of_ne hk

/-- **The registry's preimage** of an admitted record. -/
theorem powSaltPreimage_salted (h : Admission b r es) :
    powSaltPreimage r.map = .ok (utf8Encode powSaltPrefix ++ (Value.map (salted es)).encode) := by
  have hmap : r.map = built es := h.map
  have hcanonical := canonical_filter (fun e => e.1 ≠ .text "sig") h.canonical
  have hbom := hasBom_filter (fun e => e.1 ≠ .text "sig") h.bomFree
  have hencode := encode_map_ofWire (canonical_salted h.canonical) (hasBom_salted h.bomFree)
  unfold powSaltPreimage
  simp only [hmap, delete_built]
  rw [salted] at hencode ⊢
  set unsigned := es.filter fun e => decide (e.1 ≠ .text "sig") with hunsigned
  have hnodup := nodup_of_canonical hcanonical
  have hkeys : ((built unsigned).map Prod.fst).Nodup := by
    rw [built, List.map_map]
    exact hnodup
  -- the proof of work as the registry reads it
  cases hproof : (built unsigned).get? "powProof" with
  | none =>
    have hnone : ∀ proof, (Key.text "powProof", Value.map proof) ∉ unsigned := by
      intro proof hmem
      have hget := (get?_eq_some_iff hkeys).2 (List.mem_map_of_mem (f := fun e => (e.1, ofWire e.2)) hmem)
      rw [hproof] at hget
      cases hget
    rw [saltEntry_id hnone] at hencode ⊢
    simp only [built, hencode]
    rfl
  | some value =>
    obtain ⟨⟨k, w⟩, he, heq⟩ := List.mem_map.1 ((get?_eq_some_iff hkeys).1 hproof)
    simp only [Prod.mk.injEq] at heq
    obtain ⟨rfl, hw⟩ := heq
    have hall := (DetCbor.canonical_map.1 hcanonical).2.2 _ he
    have hentry := hasBom_map.1 hbom _ he
    by_cases hkind : ∃ proof, value = .map proof
    · obtain ⟨proof, rfl⟩ := hkind
      obtain ⟨inner, rfl, rfl⟩ := eq_map_of_ofWire hall.2 hentry.2 hw
      have hset := set_built (w := nonceFree (.map inner)) hnodup (List.mem_map_of_mem (f := Prod.fst) he)
      rw [nonceFree, ofWire_map (hasBom_filter _ hentry.2) (nodup_of_canonical (canonical_filter _ hall.2)),
        ← nonceFree, replaced_eq_salted hnodup he] at hset
      simp only [delete_built, hset]
      simp only [built, hencode]
      rfl
    · have hnone : ∀ proof, (Key.text "powProof", Value.map proof) ∉ unsigned := by
        intro proof hmem
        have hsame := List.inj_on_of_nodup_map hnodup he hmem rfl
        rw [Prod.mk.injEq] at hsame
        rw [hsame.2] at hw hentry hall
        rw [ofWire_map hentry.2 (nodup_of_canonical hall.2)] at hw
        exact hkind ⟨_, hw.symm⟩
      rw [saltEntry_id hnone] at hencode ⊢
      cases value with
      | map proof => exact absurd ⟨proof, rfl⟩ hkind
      | _ =>
        simp only [built, hencode]
        rfl

/-- **The salt of an admitted record** can always be written. -/
theorem powSalt_answers (h : Admission b r es) : ∃ salt, powSalt C r.map = .ok salt := by
  unfold powSalt
  rw [powSaltPreimage_salted h]
  exact ⟨_, rfl⟩

/-! ## The verifier -/

/-- The check of a proof answers where the salt is made. -/
theorem verifyPow_answers {m : CborMap} (hsalt : ∃ salt, powSalt C m = .ok salt) (bits : ℕ) :
    ∃ rejection, verifyPow C m bits = .ok rejection := by
  obtain ⟨salt, hsalt⟩ := hsalt
  unfold verifyPow
  repeat' split
  all_goals first
    | exact ⟨_, rfl⟩
    | simp only [hsalt, Except.ok_bind]
  split_ifs <;> exact ⟨_, rfl⟩

/-- A store answers on the proof of every admitted record. -/
theorem powVerified_answers (h : Admission b r es) (s : Store) : ∃ verified, s.powVerified C r = .ok verified := by
  obtain ⟨rejection, hrejection⟩ := verifyPow_answers (powSalt_answers (C := C) h) (s.requiredBitsFor r)
  exact ⟨rejection.isNone, by rw [Store.powVerified, hrejection]; rfl⟩

/-- A check answers when its branches do. -/
theorem ite_answers {ε α : Type} {p : Prop} [Decidable p] {x y : Except ε α} (hx : ∃ v, x = .ok v)
    (hy : ∃ v, y = .ok v) : ∃ v, (if p then x else y) = .ok v := by
  by_cases h : p
  · rw [if_pos h]
    exact hx
  · rw [if_neg h]
    exact hy

section Verifier

variable {state : RegistryView} (hpow : ∃ verified, state.powVerified r = .ok verified)
include hpow

/-- The rules of an operation never throw. -/
theorem verifyOperation_answers (p : RegistryRecord) (input : Bytes) :
    ∃ v, verifyOperation C r p input state = .ok v := by
  obtain ⟨verified, hverified⟩ := hpow
  unfold verifyOperation
  cases r.op with
  | renew =>
    simp only [hverified]
    split_ifs
    · exact ⟨_, rfl⟩
    · exact ⟨_, rfl⟩
    · exact ⟨_, rfl⟩
    · cases verified <;> exact ⟨_, rfl⟩
  | transfer =>
    simp only
    split_ifs
    · exact ⟨_, rfl⟩
    · exact ⟨_, rfl⟩
    · exact ⟨_, rfl⟩
    · cases r.coSig with
      | none => exact ⟨_, rfl⟩
      | some coSig =>
        simp only
        split_ifs <;> exact ⟨_, rfl⟩
  | register => exact ⟨_, rfl⟩
  | _ =>
    simp only
    split_ifs <;> exact ⟨_, rfl⟩

/-- The rules of a successor never throw. -/
theorem verifySuccessor_answers (input : Bytes) (previous : Option Predecessor) :
    ∃ v, verifySuccessor C r input previous state now = .ok v := by
  unfold verifySuccessor
  cases previous with
  | none => exact ⟨_, rfl⟩
  | some p =>
    apply ite_answers ⟨_, rfl⟩
    apply ite_answers ⟨_, rfl⟩
    apply ite_answers ⟨_, rfl⟩
    apply ite_answers ⟨_, rfl⟩
    apply ite_answers ⟨_, rfl⟩
    apply ite_answers ⟨_, rfl⟩
    apply ite_answers ⟨_, rfl⟩
    apply ite_answers ⟨_, rfl⟩
    -- the chain and the signature are in order
    cases clockVerdict r.notBefore now with
    | some clock => exact ⟨_, rfl⟩
    | none => exact ite_answers ⟨_, rfl⟩ (ite_answers ⟨_, rfl⟩ (verifyOperation_answers hpow p.record input))

/-- The rules of a REGISTER throw only where the store does. -/
theorem verifyRegister_answers (input : Bytes) (previous : Option Predecessor) :
    ∃ v, verifyRegister C r input previous state now ignore = .ok v := by
  obtain ⟨verified, hverified⟩ := hpow
  unfold verifyRegister
  simp only [hverified]
  apply ite_answers ⟨_, rfl⟩
  apply ite_answers ⟨_, rfl⟩
  apply ite_answers ⟨_, rfl⟩
  apply ite_answers ⟨_, rfl⟩
  cases verified with
  | false => exact ⟨_, rfl⟩
  | true =>
    simp only
    cases clockVerdict r.notBefore now <;> exact ⟨_, rfl⟩

end Verifier

/-- **The verifier gives a verdict** on every admitted record. -/
theorem judge_answers (C : Crypto) (now : ℕ) (ignore : Bool) (h : Admission b r es) (s : Store) :
    ∃ v, judge C r (s.view C) now ignore = .ok v := by
  have hpow : ∃ verified, (s.view C).powVerified r = .ok verified := powVerified_answers h s
  unfold judge
  rw [signingInput_eq h, Except.ok_bind]
  simp only
  split_ifs
  · exact verifyRegister_answers hpow _ _
  · exact verifySuccessor_answers hpow _ _

/-- Verifying an admitted record against a store never throws. -/
theorem verify_answers (C : Crypto) (now : ℕ) (ignore : Bool) (hb : admitBytes b = .ok r) (s : Store) :
    ∃ v, verify C b (s.view C) now ignore = .ok v := by
  obtain ⟨es, h⟩ := admission_of_admit hb
  obtain ⟨v, hv⟩ := judge_answers C now ignore h s
  exact ⟨v, by rw [verify, hb]; exact hv⟩

/-! ## The conflict -/

theorem space_notMem (hb : admitBytes b = .ok r) : ' ' ∉ r.name.toList := by
  have hlabel := (admit_eq_ok.1 hb).2.2.1.label
  intro hspace
  have hnot : r.name.toList.all isLabelCharacter = false := List.all_eq_false.2 ⟨' ', hspace, by decide⟩
  unfold labelRejection at hlabel
  simp only at hlabel
  split_ifs at hlabel with hempty hlong hall
  simp [hnot] at hall

/-- An index key spells its name. -/
theorem names_of_keyOf {a : Bytes} {r' : RegistryRecord} (ha : admitBytes a = .ok r') (hb : admitBytes b = .ok r)
    (h : keyOf r' = keyOf r) : r'.name = r.name ∧ r'.tld = r.tld := by
  have hchars : ∀ x : RegistryRecord, (keyOf x).toList = x.tld.toList ++ ' ' :: x.name.toList := by
    intro x
    simp [keyOf, nameKey, ToString.toString]
  have hlists := congrArg String.toList h
  rw [hchars, hchars] at hlists
  obtain ⟨htld, hname⟩ := Words.append_separator_inj (space_notMem ha) (space_notMem hb) hlists
  exact ⟨String.toList_inj.1 hname, String.toList_inj.1 htld⟩

/-- Merging an admitted record along a run never throws. -/
theorem mergeConflict_answers (run : Run C steps s) (hb : admitBytes b = .ok r) (taken : Verdict) :
    ∃ v s', s.mergeConflict C b now taken = .ok (v, s') := by
  unfold Store.mergeConflict
  rw [parseRecordBytes_eq_ok.2 hb]
  simp only
  split
  · exact ⟨_, _, rfl⟩
  rename_i hop
  split
  swap
  · exact ⟨_, _, rfl⟩
  rename_i held root hheld hroot
  split
  · exact ⟨_, _, rfl⟩
  split
  · exact ⟨_, _, rfl⟩
  have hs := run.indexed
  obtain ⟨-, last, -, hlast, hlastHash⟩ := hs.registrations_of_held hheld
  have hlastMem := (mem_registrations.1 (List.mem_of_getLast? hlast)).1
  have hlength : held.rootHash.length = 32 := by
    rw [← hlastHash, (hs.entry last (mem_history.1 hlastMem).1).2]
    exact C.length_blake2b _
  rw [compareHashes_of_length (by rw [hlength]; exact C.length_blake2b _), Except.ok_bind]
  split
  · exact ⟨_, _, rfl⟩
  obtain ⟨merits, hmerits⟩ := verify_answers C now true hb s
  rw [hmerits, Except.ok_bind]
  cases merits with
  | reject => exact ⟨_, _, rfl⟩
  | defer => exact ⟨_, _, rfl⟩
  | accept =>
    -- the registration found first is of the same name, at `seq` 0 too
    have hrootMem : root ∈ s.entries := List.mem_of_find?_eq_some hroot
    have hrootIs := List.find?_some hroot
    simp only [Bool.and_eq_true, decide_eq_true_eq] at hrootIs
    obtain ⟨hname, htld⟩ := names_of_keyOf (hs.entry root hrootMem).1 hb hrootIs.1.1
    have hrootLength : root.hash.length = 32 := by
      rw [(hs.entry root hrootMem).2]
      exact C.length_blake2b _
    have hbLength : (recordHashFromBytes C b).length = 32 := C.length_blake2b _
    simp only [ne_eq, not_or, Decidable.not_not] at hop
    obtain ⟨resolution, hresolution, hwinner⟩ := resolveConflict_pair (x := incomingCandidate C b r)
      (y := Store.candidateOf root) rfl rfl hname htld (hrootIs.2.trans hop.2.symm)
      (hrootLength.trans hbLength.symm)
    have hwinnerLength : resolution.winner.hash.length = 32 := by
      rw [hwinner]
      split
      · exact hrootLength
      · exact hbLength
    unfold incomingCandidate at hresolution
    simp only [hresolution, Except.ok_bind, compareHashes_of_length (hwinnerLength.trans hbLength.symm)]
    split
    · exact ⟨_, _, rfl⟩
    · rw [write_eq s (admit_length hb)]
      simp only [Except.ok_bind, apply_eq]
      exact ⟨_, _, rfl⟩

/-- **An append answers** for every record that parses, in every run. -/
theorem append_answers (now : ℕ) (run : Run C steps s) (hb : admitBytes b = .ok r) :
    ∃ v s', s.append C b now = .ok (v, s') := by
  unfold Store.append
  split
  · rw [Store.parseOrThrow, parseRecordBytes_eq_ok.2 hb]
    exact ⟨_, _, rfl⟩
  obtain ⟨v, hv⟩ := verify_answers C now false hb s
  rw [Store.verifyAt, hv, Except.ok_bind]
  split
  · exact mergeConflict_answers run hb _
  · rw [write_eq s (admit_length hb)]
    simp only [Except.ok_bind, apply_eq]
    exact ⟨_, _, rfl⟩
  · exact ⟨_, _, rfl⟩

end VayuWeb
