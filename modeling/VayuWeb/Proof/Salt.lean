import VayuWeb.Proof.CborHost
import VayuWeb.Proof.Answers
import VayuWeb.Proof.ClientVerdict

/-!
# What a proof of work is bound to

The salt is taken over the record less its signature and its nonce.

* `sameButNonce_of_salt`: records of the registry with one preimage agree in everything else.
* `Client.sameButNonce_of_salt`: so do the client's, whose preimage leaves the countersignature out too.
* `salt_bound_iff`: when both implementations take the salt of a record over the same bytes.
-/

namespace VayuWeb

open Bytes
open DetCbor (Key Value Canonical sortByKey)

/-! ## What a map holds at a key -/

section Members

variable {α β : Type}

/-- The value under a key. -/
def memberAt (es : List (Key × α)) (k : Key) : Option α := (es.find? fun e => e.1 = k).map Prod.snd

theorem memberAt_nil (k : Key) : memberAt ([] : List (Key × α)) k = none := rfl

theorem memberAt_cons (e : Key × α) (es : List (Key × α)) (k : Key) :
    memberAt (e :: es) k = if e.1 = k then some e.2 else memberAt es k := by
  unfold memberAt
  rw [List.find?_cons]
  by_cases hk : e.1 = k
  · simp [hk]
  · simp [hk]

theorem memberAt_map (f : α → β) (es : List (Key × α)) (k : Key) :
    memberAt (es.map fun e => (e.1, f e.2)) k = (memberAt es k).map f := by
  induction es with
  | nil => rfl
  | cons e es ih =>
    rw [List.map_cons, memberAt_cons, memberAt_cons, ih]
    split_ifs <;> rfl

theorem memberAt_filter {es : List (Key × α)} {p : Key × α → Bool} {k : Key} (h : ∀ e, e.1 = k → p e = true) :
    memberAt (es.filter p) k = memberAt es k := by
  induction es with
  | nil => rfl
  | cons e es ih =>
    by_cases hp : p e = true
    · rw [List.filter_cons_of_pos hp, memberAt_cons, memberAt_cons, ih]
    · rw [List.filter_cons_of_neg hp, ih, memberAt_cons, if_neg fun hk => hp (h e hk)]

/-- What a map without repeated keys has under a key. -/
theorem memberAt_eq_some {es : List (Key × α)} (hnodup : (es.map Prod.fst).Nodup) {k : Key} {v : α} :
    memberAt es k = some v ↔ (k, v) ∈ es := by
  induction es with
  | nil => simp [memberAt_nil]
  | cons e es ih =>
    rw [List.map_cons, List.nodup_cons] at hnodup
    rw [memberAt_cons, List.mem_cons]
    by_cases hk : e.1 = k
    · rw [if_pos hk, Option.some.injEq]
      constructor
      · intro hv
        exact Or.inl (Prod.ext hk.symm hv.symm)
      · intro hmem
        rcases hmem with heq | hmem
        · rw [← heq]
        · have hkey : k ∈ es.map Prod.fst := List.mem_map_of_mem (f := Prod.fst) hmem
          rw [hk] at hnodup
          exact absurd hkey hnodup.1
    · rw [if_neg hk, ih hnodup.2]
      constructor
      · exact Or.inr
      · intro hmem
        rcases hmem with heq | hmem
        · exact absurd (congrArg Prod.fst heq).symm hk
        · exact hmem

/-- What a map has under a key does not depend on its order. -/
theorem memberAt_perm {es fs : List (Key × α)} (hperm : es.Perm fs) (hnodup : (es.map Prod.fst).Nodup) (k : Key) :
    memberAt es k = memberAt fs k := by
  have hnodup' : (fs.map Prod.fst).Nodup := (hperm.map Prod.fst).nodup_iff.1 hnodup
  apply Option.ext
  intro v
  rw [memberAt_eq_some hnodup, memberAt_eq_some hnodup', hperm.mem_iff]

end Members

/-- `map.get(k)` is the member at a text key. -/
theorem get?_eq_memberAt (m : CborMap) (k : String) : CborMap.get? m k = memberAt m (.text k) := by
  induction m with
  | nil => rfl
  | cons e m ih => rw [CborMap.get?, memberAt_cons, ih]

/-- Deleting a key leaves every other as it is. -/
theorem memberAt_delete {m : CborMap} {s : String} {k : Key} (hk : k ≠ .text s) :
    memberAt (CborMap.delete m s) k = memberAt m k :=
  memberAt_filter fun e he => by simpa [he] using hk

/-- What a map has once a key is set. -/
theorem memberAt_set (m : CborMap) (s : String) (v : CborValue) (k : Key) :
    memberAt (CborMap.set m (.text s) v) k = if k = .text s then some v else memberAt m k := by
  induction m with
  | nil =>
    rw [CborMap.set, memberAt_cons, memberAt_nil]
    by_cases hk : k = .text s
    · rw [if_pos hk, if_pos hk.symm]
    · rw [if_neg hk, if_neg fun h => hk h.symm]
  | cons e m ih =>
    rw [CborMap.set]
    by_cases hsame : e.1 = .text s
    · rw [if_pos (by simpa [CborMap.sameKey] using hsame), memberAt_cons, memberAt_cons, hsame]
      by_cases hk : k = .text s
      · rw [if_pos hk, if_pos hk.symm]
      · rw [if_neg hk, if_neg fun h => hk h.symm, if_neg fun h => hk h.symm]
    · rw [if_neg (by simpa [CborMap.sameKey] using hsame), memberAt_cons, memberAt_cons, ih]
      by_cases hk : e.1 = k
      · rw [if_pos hk, if_pos hk, if_neg fun h => hsame (hk.trans h)]
      · rw [if_neg hk, if_neg hk]

/-! ## Records that differ in their nonces -/

/-- Two maps hold the same at every key but these. -/
def AgreeBut (keys : List Key) (es fs : List (Key × Value)) : Prop :=
  ∀ k, k ∉ keys → memberAt es k = memberAt fs k

/-- Two proofs of work agree but for their nonces. -/
def ProofsAgree : Option Value → Option Value → Prop
  | some (.map proof), some (.map proof') => AgreeBut [.text "nonce"] proof proof'
  | v, w => v = w

/-- Two records agree but for these members and the nonces of their proofs of work. -/
structure SameButNonce (keys : List Key) (es fs : List (Key × Value)) : Prop where
  members : AgreeBut (.text "powProof" :: keys) es fs
  proofs : ProofsAgree (memberAt es (.text "powProof")) (memberAt fs (.text "powProof"))

/-- A proof without its nonce comes from a proof. -/
theorem nonceFree_eq_map {v : Value} {es : List (Key × Value)} (h : nonceFree v = .map es) :
    ∃ proof, v = .map proof ∧ es = proof.filter fun e => e.1 ≠ .text "nonce" := by
  cases v with
  | map proof =>
    rw [nonceFree, Value.map.injEq] at h
    exact ⟨proof, rfl, h.symm⟩
  | _ => simp [nonceFree] at h

/-- Maps that agree without a key agree but for it. -/
theorem agreeBut_of_filter {es fs : List (Key × Value)} {s : String}
    (h : (es.filter fun e => e.1 ≠ .text s) = fs.filter fun e => e.1 ≠ .text s) : AgreeBut [.text s] es fs := by
  intro k hk
  have hne : ∀ e : Key × Value, e.1 = k → decide (e.1 ≠ .text s) = true := by
    intro e he
    rw [he]
    simpa using hk
  rw [← memberAt_filter hne, h, memberAt_filter hne]

theorem proofsAgree_of_nonceFree {v w : Option Value} (h : v.map nonceFree = w.map nonceFree) : ProofsAgree v w := by
  cases v with
  | none =>
    cases w with
    | none => rfl
    | some w => cases h
  | some v =>
    cases w with
    | none => cases h
    | some w =>
      rw [Option.map_some, Option.map_some, Option.some.injEq] at h
      cases v with
      | map proof =>
        obtain ⟨proof', rfl, hproof⟩ := nonceFree_eq_map (h.symm.trans rfl)
        exact agreeBut_of_filter hproof
      | _ =>
        cases w with
        | map proof' =>
          obtain ⟨proof, hv, -⟩ := nonceFree_eq_map (h.trans rfl)
          cases hv
        | _ => exact congrArg some h

/-- What a salted record has under a key. -/
theorem memberAt_saltEntry (es : List (Key × Value)) (k : Key) :
    memberAt (es.map saltEntry) k = if k = .text "powProof" then (memberAt es k).map nonceFree else memberAt es k := by
  induction es with
  | nil => simp [memberAt_nil]
  | cons e es ih =>
    rw [List.map_cons, memberAt_cons, memberAt_cons, ih, saltEntry_fst]
    by_cases hk : e.1 = k
    · rw [if_pos hk, if_pos hk, saltEntry, hk]
      split_ifs <;> rfl
    · rw [if_neg hk, if_neg hk]

/-- Records that are one under the salt agree in what the salt is taken over. -/
theorem sameButNonce_of_salted {keys : List Key} {es fs : List (Key × Value)} {p : Key × Value → Bool}
    (hp : ∀ e, e.1 ∉ keys → p e = true) (hkeys : Key.text "sig" ∈ keys) (hproof : Key.text "powProof" ∉ keys)
    (h : salted (es.filter p) = salted (fs.filter p)) : SameButNonce keys es fs := by
  have hmember : ∀ es : List (Key × Value), ∀ k, k ∉ keys → memberAt (salted (es.filter p)) k =
      if k = .text "powProof" then (memberAt es k).map nonceFree else memberAt es k := by
    intro es k hk
    have hsig : k ≠ .text "sig" := fun heq => hk (heq ▸ hkeys)
    rw [salted, memberAt_saltEntry, memberAt_filter fun e he => by simpa [he] using hsig,
      memberAt_filter fun e he => hp e (he ▸ hk)]
  refine ⟨?_, ?_⟩
  · intro k hk
    rw [List.mem_cons, not_or] at hk
    have hsame := hmember es k hk.2
    rw [h, hmember fs k hk.2, if_neg hk.1, if_neg hk.1] at hsame
    exact hsame.symm
  · have hsame := hmember es _ hproof
    rw [h, hmember fs _ hproof, if_pos rfl, if_pos rfl] at hsame
    exact proofsAgree_of_nonceFree hsame.symm

/-! ## The registry's preimage -/

/-- A map in memory as its entries are on the wire. -/
def wireMembers (m : CborMap) : List (Key × Value) := m.map fun e => (e.1, wireOf e.2)

/-- The wire form of a map has its keys in order. -/
theorem wireOf_map (m : CborMap) : wireOf (.map m) = .map (sortByKey (wireMembers m)) := by
  have hsorted : ∀ es : List (Key × Value), DetCbor.sortedEntries es = es.map fun e => (e.1, e.2.sorted) := by
    intro es
    induction es with
    | nil => rfl
    | cons e es ih => rw [DetCbor.sortedEntries, ih, List.map_cons]
  rw [wireOf, toWire, Value.sorted, hsorted, toWireEntries_eq_map, List.map_map]
  rfl

theorem wireMembers_keys (m : CborMap) : (wireMembers m).map Prod.fst = m.map Prod.fst := by
  rw [wireMembers, List.map_map]
  rfl

/-- What the wire form of a map has under a key. -/
theorem memberAt_wireMembers (m : CborMap) (k : Key) : memberAt (wireMembers m) k = (memberAt m k).map wireOf :=
  memberAt_map wireOf m k

theorem keys_nodup_of_distinct {m : CborMap} (h : (toWire (.map m)).KeysDistinct) : (m.map Prod.fst).Nodup := by
  rw [toWire, toWireEntries_eq_map, Value.KeysDistinct, List.map_map] at h
  exact h.1

/-- Maps that are one on the wire hold the same. -/
theorem memberAt_of_wireOf {m m' : CborMap} (hnodup : (m.map Prod.fst).Nodup) (hnodup' : (m'.map Prod.fst).Nodup)
    (h : wireOf (.map m) = wireOf (.map m')) (k : Key) :
    memberAt (wireMembers m) k = memberAt (wireMembers m') k := by
  rw [wireOf_map, wireOf_map, Value.map.injEq] at h
  rw [← wireMembers_keys] at hnodup hnodup'
  rw [memberAt_perm (DetCbor.sortByKey_perm _).symm hnodup, h, memberAt_perm (DetCbor.sortByKey_perm _).symm hnodup']

/-- A proof of work in memory without its nonce. -/
def hostNonceFree : CborValue → CborValue
  | .map proof => .map (CborMap.delete proof "nonce")
  | v => v

/-- What the registry encodes for the salt. -/
def saltMap (record : CborMap) : CborMap :=
  match CborMap.get? (CborMap.delete record "sig") "powProof" with
  | some (.map proof) =>
    CborMap.set (CborMap.delete record "sig") (.text "powProof") (.map (CborMap.delete proof "nonce"))
  | _ => CborMap.delete record "sig"

/-- When the registry makes a salt, and from what. -/
theorem powSaltPreimage_eq_ok {m : CborMap} {x : Bytes} : powSaltPreimage m = .ok x ↔
    ∃ body, encode (.map (saltMap m)) = .ok body ∧ x = utf8Encode powSaltPrefix ++ body := by
  have hform : powSaltPreimage m = (do
      let body ← encode (.map (saltMap m))
      return utf8Encode powSaltPrefix ++ body) := rfl
  rw [hform, Except.bind_eq_ok]
  simp only [Except.pure_eq_ok, Except.ok.injEq]
  constructor
  · rintro ⟨body, hbody, rfl⟩
    exact ⟨body, hbody, rfl⟩
  · rintro ⟨body, hbody, rfl⟩
    exact ⟨body, hbody, rfl⟩

/-- What is left of a record for its salt. -/
theorem memberAt_saltMap {m : CborMap} {k : Key} (hk : k ≠ .text "sig") : memberAt (saltMap m) k =
    if k = .text "powProof" then (memberAt m k).map hostNonceFree else memberAt m k := by
  have hget : CborMap.get? (CborMap.delete m "sig") "powProof" = memberAt m (.text "powProof") := by
    rw [get?_eq_memberAt, memberAt_delete (by decide)]
  unfold saltMap
  rw [hget]
  by_cases hmap : ∃ proof, memberAt m (.text "powProof") = some (.map proof)
  · obtain ⟨proof, hproof⟩ := hmap
    rw [hproof]
    dsimp only
    rw [memberAt_set]
    by_cases hpow : k = .text "powProof"
    · rw [if_pos hpow, if_pos hpow, hpow, hproof]
      rfl
    · rw [if_neg hpow, if_neg hpow, memberAt_delete hk]
  -- with no map there the salt map only leaves the signature out
  · have hsame : (memberAt m (.text "powProof")).map hostNonceFree = memberAt m (.text "powProof") := by
      cases hmember : memberAt m (.text "powProof") with
      | none => rfl
      | some v =>
        cases v with
        | map proof => exact absurd ⟨proof, hmember⟩ hmap
        | _ => rfl
    split
    · rename_i proof hproof
      exact absurd ⟨proof, hproof⟩ hmap
    · rw [memberAt_delete hk]
      by_cases hpow : k = .text "powProof"
      · rw [if_pos hpow, hpow, hsame]
      · rw [if_neg hpow]

/-- Values that are one on the wire once their nonces are gone. -/
theorem proofsAgree_of_host {v w : Option CborValue}
    (hv : ∀ proof, v = some (.map proof) → ((CborMap.delete proof "nonce").map Prod.fst).Nodup)
    (hw : ∀ proof, w = some (.map proof) → ((CborMap.delete proof "nonce").map Prod.fst).Nodup)
    (h : (v.map hostNonceFree).map wireOf = (w.map hostNonceFree).map wireOf) :
    ProofsAgree (v.map wireOf) (w.map wireOf) := by
  have hfree : ∀ v : Option CborValue,
      (∀ proof, v = some (.map proof) → ((CborMap.delete proof "nonce").map Prod.fst).Nodup) →
      ∀ proof, v = some (.map proof) → ∀ k, k ∉ [Key.text "nonce"] → memberAt (sortByKey (wireMembers proof)) k =
        memberAt (sortByKey (wireMembers (CborMap.delete proof "nonce"))) k := by
    intro v hnodup proof hproof k hk
    have hnodup := hnodup proof hproof
    have hne : ∀ e : Key × Value, e.1 = k → decide (e.1 ≠ .text "nonce") = true := by
      intro e he
      rw [he]
      simpa using hk
    have hdelete : (wireMembers proof).filter (fun e => e.1 ≠ .text "nonce") =
        wireMembers (CborMap.delete proof "nonce") := by
      rw [wireMembers, wireMembers, CborMap.delete, List.filter_map]
      rfl
    -- leaving the nonce out and putting in order commute, up to the order
    have hperm : ((sortByKey (wireMembers proof)).filter fun e => e.1 ≠ .text "nonce").Perm
        (sortByKey (wireMembers (CborMap.delete proof "nonce"))) := by
      have hleft := (DetCbor.sortByKey_perm (wireMembers proof)).filter fun e => e.1 ≠ .text "nonce"
      rw [hdelete] at hleft
      exact hleft.trans (DetCbor.sortByKey_perm _).symm
    have hkeys : (((sortByKey (wireMembers proof)).filter fun e => e.1 ≠ .text "nonce").map Prod.fst).Nodup := by
      rw [(hperm.map Prod.fst).nodup_iff, ((DetCbor.sortByKey_perm _).map Prod.fst).nodup_iff, wireMembers_keys]
      exact hnodup
    rw [← memberAt_filter hne]
    exact memberAt_perm hperm hkeys k
  cases v with
  | none =>
    cases w with
    | none => rfl
    | some w => cases h
  | some v =>
    cases w with
    | none => cases h
    | some w =>
      rw [Option.map_some, Option.map_some, Option.map_some, Option.map_some, Option.some.injEq] at h
      cases v with
      | map proof =>
        cases w with
        | map proof' =>
          rw [hostNonceFree, hostNonceFree, wireOf_map, wireOf_map, Value.map.injEq] at h
          rw [Option.map_some, Option.map_some, wireOf_map, wireOf_map]
          intro k hk
          rw [hfree _ hv proof rfl k hk, hfree _ hw proof' rfl k hk, h]
        | _ => simp [hostNonceFree, wireOf, toWire, Value.sorted] at h
      | _ =>
        cases w with
        | map proof' => simp [hostNonceFree, wireOf, toWire, Value.sorted] at h
        | _ => exact congrArg some h

/-- **Two maps with one preimage** agree on the wire in all but the signature and the nonce. -/
theorem sameButNonce_of_salt {m m' : CborMap} {x : Bytes} (h : powSaltPreimage m = .ok x)
    (h' : powSaltPreimage m' = .ok x) : SameButNonce [.text "sig"] (wireMembers m) (wireMembers m') := by
  obtain ⟨body, hbody, rfl⟩ := powSaltPreimage_eq_ok.1 h
  obtain ⟨body', hbody', heq⟩ := powSaltPreimage_eq_ok.1 h'
  obtain rfl : body = body' := List.append_cancel_left heq
  obtain ⟨-, hdistinct, -⟩ := encodeValue_wire 33 _ _ hbody
  obtain ⟨-, hdistinct', -⟩ := encodeValue_wire 33 _ _ hbody'
  have hmember := memberAt_of_wireOf (keys_nodup_of_distinct hdistinct) (keys_nodup_of_distinct hdistinct')
    (wireOf_eq_of_encode hbody hbody')
  simp only [memberAt_wireMembers] at hmember
  -- without its nonce the proof still has distinct keys
  have hproofs : ∀ m : CborMap, (toWire (.map (saltMap m))).KeysDistinct → ∀ proof,
      memberAt m (.text "powProof") = some (.map proof) → ((CborMap.delete proof "nonce").map Prod.fst).Nodup := by
    intro m hdistinct proof hproof
    have hsalt : memberAt (saltMap m) (.text "powProof") = some (.map (CborMap.delete proof "nonce")) := by
      rw [memberAt_saltMap (by decide), if_pos rfl, hproof]
      rfl
    have hmem := (memberAt_eq_some (keys_nodup_of_distinct hdistinct)).1 hsalt
    rw [toWire, toWireEntries_eq_map, Value.KeysDistinct, DetCbor.entriesKeysDistinct_iff] at hdistinct
    exact keys_nodup_of_distinct (hdistinct.2 _ (List.mem_map_of_mem (f := fun e => (e.1, toWire e.2)) hmem))
  refine ⟨?_, ?_⟩
  · intro k hk
    rw [List.mem_cons, List.mem_singleton, not_or] at hk
    have hsame := hmember k
    rw [memberAt_saltMap hk.2, memberAt_saltMap hk.2, if_neg hk.1, if_neg hk.1] at hsame
    rw [memberAt_wireMembers, memberAt_wireMembers]
    exact hsame
  · have hsame := hmember (.text "powProof")
    rw [memberAt_saltMap (by decide), memberAt_saltMap (by decide), if_pos rfl, if_pos rfl] at hsame
    rw [memberAt_wireMembers, memberAt_wireMembers]
    exact proofsAgree_of_host (hproofs m hdistinct) (hproofs m' hdistinct') hsame

/-- What a record is about: no proof of work for one serves another. -/
def subjectOf (r : RegistryRecord) : Operation × String × String × Bytes × ℕ × ℕ × ℕ × Bytes :=
  (r.op, r.name, r.tld, r.ownerKey, r.seq, r.notBefore, r.notAfter, r.prevHash)

/-- Records that agree but for the nonce have one subject. -/
theorem subjectOf_eq {m m' : CborMap} {r r' : RegistryRecord} (hr : Parsed m r) (hr' : Parsed m' r')
    (h : SameButNonce [.text "sig"] (wireMembers m) (wireMembers m')) : subjectOf r = subjectOf r' := by
  have hfield : ∀ key : String, key ≠ "sig" → key ≠ "powProof" →
      (m.get? key).map wireOf = (m'.get? key).map wireOf := by
    intro key hsig hpow
    have hmember := h.members (.text key) (by simp [hsig, hpow])
    rw [memberAt_wireMembers, memberAt_wireMembers] at hmember
    rw [get?_eq_memberAt, get?_eq_memberAt]
    exact hmember
  have hop : r.op.name = r'.op.name := by
    simpa [hr.op, hr'.op, wireOf, toWire, Value.sorted] using hfield "op" (by decide) (by decide)
  have hname : r.name = r'.name := by
    simpa [hr.name, hr'.name, wireOf, toWire, Value.sorted] using hfield "name" (by decide) (by decide)
  have htld : r.tld = r'.tld := by
    simpa [hr.tld, hr'.tld, wireOf, toWire, Value.sorted] using hfield "tld" (by decide) (by decide)
  have howner : r.ownerKey = r'.ownerKey := by
    simpa [hr.ownerKey, hr'.ownerKey, wireOf, toWire, Value.sorted] using hfield "ownerKey" (by decide) (by decide)
  have hseq : r.seq = r'.seq := by
    simpa [hr.seq, hr'.seq, wireOf, toWire, Value.sorted] using hfield "seq" (by decide) (by decide)
  have hfrom : r.notBefore = r'.notBefore := by
    simpa [hr.notBefore, hr'.notBefore, wireOf, toWire, Value.sorted] using hfield "notBefore" (by decide) (by decide)
  have huntil : r.notAfter = r'.notAfter := by
    simpa [hr.notAfter, hr'.notAfter, wireOf, toWire, Value.sorted] using hfield "notAfter" (by decide) (by decide)
  have hprev : r.prevHash = r'.prevHash := by
    simpa [hr.prevHash, hr'.prevHash, wireOf, toWire, Value.sorted] using hfield "prevHash" (by decide) (by decide)
  unfold subjectOf
  rw [Client.name_inj.1 hop, hname, htld, howner, hseq, hfrom, huntil, hprev]

namespace Client

variable {b : Bytes} {r : RegistryRecord} {p p' : ParsedRecord} {es core : Members} {x : Bytes}

/-! ## The client's preimage -/

/-- When the client takes the nonce out of a proof. -/
theorem withoutNonce_eq_ok {proof free : Members} : withoutNonce proof = .ok free ↔
    TextKeys proof ∧ free = proof.filter fun e => e.1 ≠ .text "nonce" := by
  induction proof generalizing free with
  | nil => simp [withoutNonce, TextKeys, eq_comm]
  | cons e proof ih =>
    obtain ⟨k, v⟩ := e
    cases k with
    | bytes k => simp [withoutNonce, TextKeys]
    | text name =>
      have hkeys : TextKeys ((.text name, v) :: proof) ↔ TextKeys proof := by
        simp [TextKeys]
      simp only [withoutNonce, Except.bind_eq_ok, ih, hkeys]
      by_cases hname : name = "nonce"
      · simp [hname, eq_comm]
      · simp [hname, eq_comm]

/-- Every proof of work among these entries is a map with text keys. -/
def TextProof (es : Members) : Prop :=
  ∀ e ∈ es, e.1 = .text "powProof" → ∃ proof, e.2 = .map proof ∧ TextKeys proof

theorem stripped_sig (v : Value) (es : Members) : stripped ((.text "sig", v) :: es) = stripped es := by
  cases v <;> simp [stripped]

theorem stripped_other {name : String} (hsig : name ≠ "sig") (hpow : name ≠ "powProof") (v : Value) (es : Members) :
    stripped ((.text name, v) :: es) = do
      let rest ← stripped es
      return (.text name, v) :: rest := by
  cases v <;> simp [stripped, hsig, hpow]

/-- When the client strips a record for its salt, and to what. -/
theorem stripped_eq_ok {rest : Members} : stripped es = .ok rest ↔
    TextKeys es ∧ TextProof es ∧ rest = salted es := by
  induction es generalizing rest with
  | nil => simp [stripped, TextKeys, TextProof, salted, eq_comm]
  | cons e es ih =>
    obtain ⟨k, v⟩ := e
    cases k with
    | bytes k => simp [stripped, TextKeys]
    | text name =>
      have hkeys : TextKeys ((.text name, v) :: es) ↔ TextKeys es := by
        simp [TextKeys]
      -- the signature is dropped, the proof of work loses its nonce, all else stays
      by_cases hsig : name = "sig"
      · subst hsig
        have hproof : TextProof ((.text "sig", v) :: es) ↔ TextProof es := by
          simp [TextProof]
        have hsalted : salted ((.text "sig", v) :: es) = salted es := by
          simp [salted]
        rw [stripped_sig, ih, hkeys, hproof, hsalted]
      · have hsalted : salted ((.text name, v) :: es) = saltEntry (.text name, v) :: salted es := by
          simp [salted, hsig]
        rw [hkeys, hsalted]
        by_cases hpow : name = "powProof"
        · subst hpow
          cases v with
          | map proof =>
            have hproof : TextProof ((.text "powProof", .map proof) :: es) ↔ TextKeys proof ∧ TextProof es := by
              simp [TextProof]
            rw [stripped, if_neg hsig, if_pos rfl, hproof]
            simp only [Except.bind_eq_ok, withoutNonce_eq_ok, ih, Except.pure_eq_ok, Except.ok.injEq]
            constructor
            · rintro ⟨free, ⟨hfree, rfl⟩, rest', ⟨htext, hrest, rfl⟩, rfl⟩
              exact ⟨htext, ⟨hfree, hrest⟩, rfl⟩
            · rintro ⟨htext, ⟨hfree, hrest⟩, rfl⟩
              exact ⟨_, ⟨hfree, rfl⟩, _, ⟨htext, hrest, rfl⟩, rfl⟩
          | _ => simp [stripped, TextProof]
        · have hproof : TextProof ((.text name, v) :: es) ↔ TextProof es := by
            simp [TextProof, hpow]
          have hentry : saltEntry (.text name, v) = (.text name, v) := saltEntry_of_ne (by simpa using hpow)
          rw [stripped_other hsig hpow, hproof, hentry]
          simp only [Except.bind_eq_ok, ih, Except.pure_eq_ok, Except.ok.injEq]
          constructor
          · rintro ⟨rest', ⟨htext, hrest, rfl⟩, rfl⟩
            exact ⟨htext, hrest, rfl⟩
          · rintro ⟨htext, hrest, rfl⟩
            exact ⟨_, ⟨htext, hrest, rfl⟩, rfl⟩

/-- What `check_pow` takes the salt of a record over: its core is taken first. -/
def saltInput (record : Members) : Except CborError Bytes := do
  let core ← coreOf record
  powSaltPreimage core

/-- When the client makes a salt, and from what. -/
theorem saltInput_eq_ok (hcanonical : Canonical 33 (.map es)) : saltInput es = .ok x ↔
    TextKeys es ∧ TextProof (signedPart es) ∧
      x = utf8Encode powSaltPrefix ++ (Value.map (salted (signedPart es))).encode := by
  have hencode : encode (.map (salted (signedPart es))) = .ok (Value.map (salted (signedPart es))).encode :=
    encode_of_canonical (canonical_salted (canonical_filter _ hcanonical))
  unfold saltInput powSaltPreimage
  simp only [Except.bind_eq_ok, coreOf_eq_ok, stripped_eq_ok, Except.pure_eq_ok, Except.ok.injEq]
  constructor
  · rintro ⟨core, ⟨htext, rfl⟩, rest, ⟨-, hproof, rfl⟩, body, hbody, rfl⟩
    rw [hencode, Except.ok.injEq] at hbody
    rw [hbody]
    exact ⟨htext, hproof, rfl⟩
  · rintro ⟨htext, hproof, rfl⟩
    exact ⟨_, ⟨htext, rfl⟩, _, ⟨textKeys_signedPart htext, hproof, rfl⟩, _, hencode, rfl⟩

/-- Canonical maps with one encoding are one map. -/
theorem eq_of_encode {es fs : Members} (hes : Canonical 33 (.map es)) (hfs : Canonical 33 (.map fs))
    (h : (Value.map es).encode = (Value.map fs).encode) : es = fs := by
  have hsame := DetCbor.encode_append_inj hes hfs (r := []) (s := [])
    (by rw [List.append_nil, List.append_nil, h])
  exact Value.map.inj hsame.1

/-- **Two records of the client with one preimage** agree in all but the signatures and the nonce. -/
theorem sameButNonce_of_salt {es fs : Members} (hes : Canonical 33 (.map es)) (hfs : Canonical 33 (.map fs))
    (h : saltInput es = .ok x) (h' : saltInput fs = .ok x) :
    SameButNonce [.text "sig", .text "coSig"] es fs := by
  obtain ⟨-, -, rfl⟩ := (saltInput_eq_ok hes).1 h
  obtain ⟨-, -, heq⟩ := (saltInput_eq_ok hfs).1 h'
  have hsalted := eq_of_encode (canonical_salted (canonical_filter _ hes)) (canonical_salted (canonical_filter _ hfs))
    (List.append_cancel_left heq)
  refine sameButNonce_of_salted ?_ (by decide) (by decide) hsalted
  intro e he
  simp only [List.mem_cons, List.not_mem_nil, or_false, not_or] at he
  rw [decide_eq_true_eq, Bool.not_eq_true]
  cases hkey : e.1 with
  | bytes k => rfl
  | text name =>
    rw [hkey] at he
    simp only [Key.text.injEq] at he
    simp [isSignatureField, VayuWeb.signatureFields, he]

/-! ## The two preimages -/

theorem signedPart_eq_of_noCoSig (h : ∀ e ∈ es, e.1 ≠ .text "coSig") : salted (signedPart es) = salted es := by
  have hfilter : (signedPart es).filter (fun e => e.1 ≠ .text "sig") = es.filter fun e => e.1 ≠ .text "sig" := by
    rw [signedPart, List.filter_filter]
    apply List.filter_congr
    intro e he
    have hco := h e he
    cases hkey : e.1 with
    | bytes k => simp [isSignatureField]
    | text name =>
      rw [hkey] at hco
      by_cases hname : name = "sig"
      · simp [hname]
      · simp only [ne_eq, Key.text.injEq] at hco
        simp [isSignatureField, VayuWeb.signatureFields, hname, hco]
  rw [salted, salted, hfilter]

/-- Where the two preimages agree there is no second signature. -/
theorem noCoSig_of_salted (h : salted (signedPart es) = salted es) : ∀ e ∈ es, e.1 ≠ .text "coSig" := by
  intro e he hkey
  have hmem : saltEntry e ∈ salted es := by
    apply List.mem_map_of_mem
    rw [List.mem_filter, hkey]
    exact ⟨he, by decide⟩
  rw [← h] at hmem
  obtain ⟨e', he', heq⟩ := List.mem_map.1 hmem
  have hkey' : e'.1 = .text "coSig" := by rw [← saltEntry_fst, heq, saltEntry_fst, hkey]
  have hsigned := List.of_mem_filter (List.mem_of_mem_filter he')
  rw [hkey'] at hsigned
  simp [isSignatureField, VayuWeb.signatureFields] at hsigned

theorem textProof_signedPart : TextProof (signedPart es) ↔ TextProof es := by
  constructor
  · intro h e he hkey
    apply h e _ hkey
    rw [signedPart, List.mem_filter, hkey]
    exact ⟨he, by decide⟩
  · intro h e he hkey
    exact h e (List.mem_of_mem_filter he) hkey

/-- The two preimages of a record are the same bytes exactly when its keys are text and it has no `coSig`. -/
theorem preimages_agree_iff (h : BothAdmit b r p) :
    (∃ x, VayuWeb.powSaltPreimage r.map = .ok x ∧ saltInput p.map = .ok x) ↔
      TextKeys p.map ∧ TextProof p.map ∧ ∀ e ∈ p.map, e.1 ≠ .text "coSig" := by
  have hadmission := h.admission
  have hcanonical := hadmission.canonical
  rw [powSaltPreimage_salted hadmission]
  constructor
  · rintro ⟨x, hx, hx'⟩
    obtain ⟨htext, hproof, hbytes⟩ := (saltInput_eq_ok hcanonical).1 hx'
    rw [Except.ok.injEq] at hx
    have hsalted := eq_of_encode (canonical_salted hcanonical)
      (canonical_salted (canonical_filter _ hcanonical)) (List.append_cancel_left (hx.trans hbytes))
    exact ⟨htext, textProof_signedPart.1 hproof, noCoSig_of_salted hsalted.symm⟩
  · rintro ⟨htext, hproof, hco⟩
    refine ⟨_, rfl, (saltInput_eq_ok hcanonical).2 ⟨htext, textProof_signedPart.2 hproof, ?_⟩⟩
    rw [signedPart_eq_of_noCoSig hco]
    rfl

/-- **A proof of work is bound to one record**: for each implementation, records with one preimage agree in all
but the signatures and the nonce. The two preimages of an admitted record are the same bytes exactly when its
keys are text and it has no member `coSig`. -/
theorem salt_bound_iff (h : BothAdmit b r p) :
    (∀ (m m' : CborMap) (q q' : RegistryRecord) (x : Bytes), VayuWeb.parseRecord m = .ok q →
        VayuWeb.parseRecord m' = .ok q' → VayuWeb.powSaltPreimage m = .ok x → VayuWeb.powSaltPreimage m' = .ok x →
        subjectOf q = subjectOf q' ∧ SameButNonce [.text "sig"] (wireMembers m) (wireMembers m')) ∧
      (∀ (a a' : Bytes) (q q' : ParsedRecord) (x : Bytes), parseBytes a = .ok q → parseBytes a' = .ok q' →
        saltInput q.map = .ok x → saltInput q'.map = .ok x →
        SameButNonce [.text "sig", .text "coSig"] q.map q'.map) ∧
      ((∃ x, VayuWeb.powSaltPreimage r.map = .ok x ∧ saltInput p.map = .ok x) ↔
        TextKeys p.map ∧ TextProof p.map ∧ ∀ e ∈ p.map, e.1 ≠ .text "coSig") := by
  refine ⟨?_, ?_, preimages_agree_iff h⟩
  · intro m m' q q' x hq hq' hx hx'
    have hsame := VayuWeb.sameButNonce_of_salt hx hx'
    exact ⟨subjectOf_eq (VayuWeb.parseRecord_eq_ok.1 hq) (VayuWeb.parseRecord_eq_ok.1 hq') hsame, hsame⟩
  · intro a a' q q' x hq hq' hx hx'
    obtain ⟨-, es, hes, -, hparsed⟩ := parseBytes_eq_ok.1 hq
    obtain ⟨-, fs, hfs, -, hparsed'⟩ := parseBytes_eq_ok.1 hq'
    rw [hparsed.map] at hx ⊢
    rw [hparsed'.map] at hx' ⊢
    exact sameButNonce_of_salt hes hfs hx hx'

/-- The keys of a record are the same to both. -/
theorem keys_eq (h : BothAdmit b r p) : r.map.map Prod.fst = p.map.map Prod.fst := by
  rw [h.agrees.map, List.map_map]
  rfl

/-- A proof with text keys only, as the client reads it. -/
theorem textProof_of_registry (h : BothAdmit b r p) (hproof : ∀ e ∈ r.map, e.1 = .text "powProof" →
    ∃ proof : CborMap, e.2 = .map proof ∧ ∀ f ∈ proof, ∃ s, f.1 = .text s) : TextProof p.map := by
  intro e he hkey
  have hmem : (e.1, ofWire e.2) ∈ r.map := by
    rw [h.agrees.map]
    exact List.mem_map_of_mem (f := fun e => (e.1, ofWire e.2)) he
  obtain ⟨proof, hmap, htext⟩ := hproof _ hmem hkey
  have hcanonical := (DetCbor.canonical_map.1 h.admission.canonical).2.2 e he
  have hbom := hasBom_map.1 h.admission.bomFree e he
  obtain ⟨inner, hinner, rfl⟩ := eq_map_of_ofWire hcanonical.2 hbom.2 hmap
  refine ⟨inner, hinner, ?_⟩
  intro f hf
  exact htext _ (List.mem_map_of_mem (f := fun e => (e.1, ofWire e.2)) hf)

/-- A registration with the same preimage on both sides. -/
theorem salt_bound_first : ∃ p x, parseBytes Sample.first.bytes = .ok p ∧
    VayuWeb.powSaltPreimage Sample.first.record.map = .ok x ∧ saltInput p.map = .ok x := by
  obtain ⟨p, hparse, -, -⟩ := parses_of_admits Sample.first_ok.admitted
  have h : BothAdmit Sample.first.bytes Sample.first.record p := ⟨Sample.first_ok.admitted, hparse⟩
  have hkeys : Sample.first.fields.map Prod.fst = p.map.map Prod.fst := by
    rw [← keys_eq h, Sample.SampleRecord.record, List.map_map]
    rfl
  have htext : TextKeys p.map := by
    intro e he
    have hkey : e.1 ∈ Sample.first.fields.map Prod.fst := hkeys ▸ List.mem_map_of_mem he
    have hall : ∀ k ∈ Sample.first.fields.map Prod.fst, ∃ s, k = .text s := by
      simp [Sample.first, Sample.SampleRecord.fields, Sample.textField, Sample.uintField, Sample.bytesField,
        Sample.powField]
    exact hall _ hkey
  have hproof : TextProof p.map := by
    have hvalue : ∀ e ∈ Sample.first.record.map, e.1 = .text "powProof" → e.2 =
        .map [(.text "alg", .text "argon2id-v19-m65536-t2-p1"), (.text "bits", .number 4),
          (.text "nonce", .bytes (Sample.literal 16 10))] := by
      decide +kernel
    apply textProof_of_registry h
    intro e he hkey
    exact ⟨_, hvalue e he hkey, by simp⟩
  have hco : ∀ e ∈ p.map, e.1 ≠ .text "coSig" := by
    intro e he
    have hkey : e.1 ∈ Sample.first.fields.map Prod.fst := hkeys ▸ List.mem_map_of_mem he
    have hnone : Key.text "coSig" ∉ Sample.first.fields.map Prod.fst := by decide
    exact fun heq => hnone (heq ▸ hkey)
  obtain ⟨x, hx, hx'⟩ := (salt_bound_iff h).2.2.2 ⟨htext, hproof, hco⟩
  exact ⟨p, x, hparse, hx, hx'⟩

/-- `first` with a null `coSig`, which both implementations admit. -/
def nullCosigned : Sample.SampleRecord := { Sample.first with coSigNull := true }

theorem nullCosigned_admitted : admitBytes nullCosigned.bytes = .ok nullCosigned.record := by decide +kernel

/-- Both admit a registration with a null `coSig`, and take its salt over different bytes. -/
theorem preimages_disagree : ¬ ∀ (b : Bytes) (r : RegistryRecord) (p : ParsedRecord), BothAdmit b r p →
    r.op = .register ∨ r.op = .renew → ∃ x, VayuWeb.powSaltPreimage r.map = .ok x ∧ saltInput p.map = .ok x := by
  intro h
  obtain ⟨p, hparse, -, -⟩ := parses_of_admits nullCosigned_admitted
  have hboth : BothAdmit nullCosigned.bytes nullCosigned.record p := ⟨nullCosigned_admitted, hparse⟩
  obtain ⟨-, -, hco⟩ := (preimages_agree_iff hboth).1 (h _ _ p hboth (Or.inl rfl))
  have hmem : Key.text "coSig" ∈ p.map.map Prod.fst := by
    rw [← keys_eq hboth]
    decide
  obtain ⟨e, he, hkey⟩ := List.mem_map.1 hmem
  exact hco e he hkey

end Client

end VayuWeb
