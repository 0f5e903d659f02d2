import VayuWeb.Proof.Determined
import VayuWeb.Spec.Blockstore

/-!
# A tree in memory

A walk that comes to its end holds its root and every block that a held one links to
(`Sufficient`), so the traversal that follows finds whatever it asks for (`ends_fetchPath`). It comes to
an end on every store: a turn takes a text off the queue, and only a kept block adds any (`prefetch_ends`).
-/

namespace VayuWeb.Blockstore

open Content Fetch Trial

/-! ## What a block that is held cannot cause -/

/-- An error that is not about a missing or a wrong block. -/
def Sound (e : Fetch.Thrown) : Prop :=
  ∀ message, e ≠ .fetch .contentUnavailable message ∧ e ≠ .fetch .contentIntegrity message

theorem sound_malformed (message : String) : Sound (malformed message) := by
  intro m
  unfold malformed
  constructor
  · intro h
    cases h
  · intro h
    cases h

theorem sound_content (error : ContentError) : Sound (.content error) := by
  intro m
  constructor
  · intro h
    cases h
  · intro h
    cases h

theorem sound_fetch {code : FetchRejection} (h : code ≠ .contentUnavailable) (h' : code ≠ .contentIntegrity)
    (message : String) : Sound (.fetch code message) := by
  intro m
  constructor
  · intro heq
    cases heq
    exact h rfl
  · intro heq
    cases heq
    exact h' rfl

theorem sound_tooLarge (message : String) : Sound (.fetch .responseTooLarge message) :=
  sound_fetch (by decide) (by decide) message

theorem sound_notFound (message : String) : Sound (.fetch .pathNotFound message) :=
  sound_fetch (by decide) (by decide) message

/-- Whatever a decoder refuses is sound. -/
def SoundErrors {α : Type} (x : Except Fetch.Thrown α) : Prop := ∀ e, x = .error e → Sound e

variable {α β : Type}

theorem soundErrors_ok (a : α) : SoundErrors (.ok a) := by
  intro e h
  cases h

theorem soundErrors_error {e : Fetch.Thrown} (h : Sound e) : SoundErrors (.error e : Except Fetch.Thrown α) := by
  intro e' heq
  cases heq
  exact h

/-- A bind of steps with sound errors has sound errors. -/
theorem SoundErrors.bind {x : Except Fetch.Thrown α} {f : α → Except Fetch.Thrown β} (hx : SoundErrors x)
    (hf : ∀ a, SoundErrors (f a)) : SoundErrors (x >>= f) := by
  intro e h
  rcases Except.bind_eq_error.1 h with h | ⟨a, -, h⟩
  · exact hx e h
  · exact hf a e h

theorem SoundErrors.ite {p : Prop} [Decidable p] {x y : Except Fetch.Thrown α} (hx : SoundErrors x)
    (hy : SoundErrors y) : SoundErrors (if p then x else y) := by
  split_ifs
  · exact hx
  · exact hy

theorem soundErrors_foldlM {f : β → α → Except Fetch.Thrown β} (hf : ∀ b a, SoundErrors (f b a)) (xs : List α) (b : β) :
    SoundErrors (xs.foldlM f b) := by
  intro e h
  obtain ⟨b', x, -, hstep⟩ := Except.step_of_foldlM_error h
  exact hf b' x e hstep

theorem soundErrors_readVarint (bytes : Bytes) : SoundErrors (Fetch.readVarint bytes) := by
  unfold Fetch.readVarint
  cases Varint.read 10 bytes with
  | ok result =>
    dsimp only
    exact SoundErrors.ite (soundErrors_ok _) (soundErrors_error (sound_malformed _))
  | error e =>
    cases e with
    | truncated => exact soundErrors_error (sound_malformed _)
    | tooLong => exact soundErrors_error (sound_malformed _)

/-- Reading a field throws sound errors. -/
theorem soundErrors_readField (bytes : Bytes) : SoundErrors (readField bytes) := by
  unfold readField
  refine (soundErrors_readVarint bytes).bind fun result => ?_
  dsimp only
  simp only [Except.throw_eq_error, Except.error_bind]
  refine SoundErrors.ite (soundErrors_error (sound_malformed _)) (SoundErrors.ite ?_ (SoundErrors.ite ?_ ?_))
  · exact (soundErrors_readVarint _).bind fun value => soundErrors_ok _
  · refine (soundErrors_readVarint _).bind fun value => ?_
    cases Bytes.splitAt? value.1 value.2 with
    | none => exact soundErrors_error (sound_malformed _)
    | some payload => exact soundErrors_ok _
  · exact soundErrors_error (sound_malformed _)

theorem soundErrors_readFields (bytes : Bytes) : SoundErrors (readFields bytes) := by
  have hfrom : ∀ fuel bytes, SoundErrors (readFieldsFrom fuel bytes) := by
    intro fuel
    induction fuel with
    | zero =>
      intro bytes
      exact soundErrors_ok _
    | succ fuel ih =>
      intro bytes
      rw [readFieldsFrom]
      refine SoundErrors.ite (soundErrors_ok _) ?_
      refine (soundErrors_readField bytes).bind fun field => ?_
      exact (ih field.2).bind fun fields => soundErrors_ok _
  exact hfrom _ _

theorem soundErrors_mapError {x : Except ContentError α} : SoundErrors (x.mapError Fetch.Thrown.content) := by
  cases x with
  | ok a => exact soundErrors_ok a
  | error e => exact soundErrors_error (sound_content e)

theorem soundErrors_linkCid (hash : Bytes) : SoundErrors (linkCid hash) := by
  unfold linkCid
  refine (soundErrors_readVarint hash).bind fun version => ?_
  refine (soundErrors_readVarint _).bind fun codec => ?_
  refine (soundErrors_readVarint _).bind fun fn => ?_
  refine (soundErrors_readVarint _).bind fun length => ?_
  dsimp only
  simp only [Except.throw_eq_error, Except.error_bind]
  refine SoundErrors.ite (soundErrors_error (sound_malformed _))
    (SoundErrors.ite (soundErrors_error (sound_malformed _)) ?_)
  split_ifs with hdigest
  · exact soundErrors_mapError
  · exact soundErrors_error (sound_malformed _)

/-- Reading a link throws sound errors. -/
theorem soundErrors_decodeLink (bytes : Bytes) : SoundErrors (decodeLink bytes) := by
  have hfield : ∀ link field, SoundErrors (linkField link field) := by
    intro link field
    unfold linkField
    refine SoundErrors.ite ?_ (SoundErrors.ite (soundErrors_ok _)
      (SoundErrors.ite (soundErrors_ok _) (soundErrors_error (sound_malformed _))))
    exact (soundErrors_linkCid _).bind fun cid => soundErrors_ok _
  unfold decodeLink
  refine (soundErrors_readFields bytes).bind fun fields => ?_
  refine (soundErrors_foldlM hfield _ _).bind fun link => ?_
  cases link.cid with
  | some cid => exact soundErrors_ok _
  | none => exact soundErrors_error (sound_malformed _)

/-- **What a decoder refuses** is no missing and no wrong block. -/
theorem soundErrors_decodeNode (bytes : Bytes) : SoundErrors (decodeNode bytes) := by
  have hfield : ∀ node field, SoundErrors (nodeField node field) := by
    intro node field
    unfold nodeField
    refine SoundErrors.ite (SoundErrors.ite (soundErrors_error (sound_tooLarge _)) ?_) (SoundErrors.ite ?_ ?_)
    · exact (soundErrors_decodeLink _).bind fun link => soundErrors_ok _
    · exact (soundErrors_readFields _).bind fun fields => soundErrors_ok _
    · exact soundErrors_error (sound_malformed _)
  unfold decodeNode
  exact (soundErrors_readFields bytes).bind fun fields => soundErrors_foldlM hfield _ _

/-- A node has so many links at most. -/
theorem length_links_le {bytes : Bytes} {node : DecodedNode} (h : decodeNode bytes = .ok node) :
    node.links.length ≤ linksPerNodeLimit := by
  unfold decodeNode at h
  obtain ⟨fields, -, h⟩ := Except.bind_eq_ok.1 h
  refine Except.foldlM_keeps (I := fun node : DecodedNode => node.links.length ≤ linksPerNodeLimit) ?_ h (Nat.zero_le _)
  intro node field node' hstep hle
  unfold nodeField at hstep
  split_ifs at hstep with hlink hfull hdata
  · obtain ⟨link, -, hstep⟩ := Except.bind_eq_ok.1 hstep
    rw [Except.pure_eq_ok, Except.ok.injEq] at hstep
    rw [← hstep, List.length_append, List.length_singleton]
    omega
  · obtain ⟨inner, -, hstep⟩ := Except.bind_eq_ok.1 hstep
    rw [Except.pure_eq_ok, Except.ok.injEq] at hstep
    rw [← hstep]
    have hlinks : ∀ (inner : List Field) (node : DecodedNode), (inner.foldl unixfsField node).links = node.links := by
      intro inner
      induction inner with
      | nil =>
        intro node
        rfl
      | cons field inner ih =>
        intro node
        rw [List.foldl_cons, ih]
        unfold unixfsField
        split_ifs <;> rfl
    rw [hlinks]
    exact hle

/-- A node has so many children at most. -/
theorem length_childrenOf_le {cid : String} {bytes : Bytes} {children : List String}
    (h : childrenOf cid bytes = .ok children) : children.length ≤ linksPerNodeLimit := by
  unfold childrenOf at h
  obtain ⟨c, -, h⟩ := Except.bind_eq_ok.1 h
  split_ifs at h with hcodec
  · cases h
    exact Nat.zero_le _
  · cases hdecode : decodeNode bytes with
    | error e =>
      rw [hdecode] at h
      cases h
      exact Nat.zero_le _
    | ok node =>
      rw [hdecode] at h
      cases h
      rw [List.length_map]
      exact length_links_le hdecode

/-! ## The walk -/

/-- What is held of a tree. -/
def weight (held : OrdMap String Bytes) : ℕ := (held.map fun e => e.2.length).sum

/-- **What a walk keeps.** It holds what it has seen, each block the one of its name; and whatever a held
block links to is seen or waits in the queue. -/
structure Walking (H : ContentHash) (limits : PrefetchLimits) (root : String) (walk : Walk) : Prop where
  held_iff : ∀ cid, cid ∈ walk.held.map Prod.fst ↔ cid ∈ walk.seen
  nodup : (walk.held.map Prod.fst).Nodup
  verified : ∀ e ∈ walk.held, ∃ c, decodeCid e.1 = .ok c ∧ Verified H c e.2
  small : ∀ e ∈ walk.held, e.2.length ≤ blockBytesLimit
  count : walk.held.length ≤ limits.blocks
  weighed : walk.weighed = weight walk.held
  within : walk.weighed ≤ limits.budget
  root : root ∈ walk.queue ∨ root ∈ walk.seen
  closed : ∀ e ∈ walk.held, ∀ children, childrenOf e.1 e.2 = .ok children →
    ∀ child ∈ children, child ∈ walk.queue ∨ child ∈ walk.seen

variable {H : ContentHash} {limits : PrefetchLimits} {root : String} {walk walk' : Walk}

/-- A walk starts in order. -/
theorem walking_start : Walking H limits root (.start root) where
  held_iff _ := Iff.rfl
  nodup := List.nodup_nil
  verified _ he := absurd he List.not_mem_nil
  small _ he := absurd he List.not_mem_nil
  count := Nat.zero_le _
  weighed := rfl
  within := Nat.zero_le _
  root := .inl (List.mem_singleton_self root)
  closed _ he := absurd he List.not_mem_nil

/-- What waited is seen already, or waits further on. -/
theorem waits_of_skip {cid text : String} {queue seen : List String} (hseen : cid ∈ seen)
    (h : text ∈ cid :: queue ∨ text ∈ seen) : text ∈ queue ∨ text ∈ seen := by
  rcases h with h | h
  · rcases List.mem_cons.1 h with rfl | h
    · exact .inr hseen
    · exact .inl h
  · exact .inr h

/-- A text that was seen before is passed over. -/
theorem Walking.skip {cid : String} {queue : List String} (h : Walking H limits root walk)
    (hqueue : walk.queue = cid :: queue) (hseen : cid ∈ walk.seen) :
    Walking H limits root { walk with queue := queue } where
  held_iff := h.held_iff
  nodup := h.nodup
  verified := h.verified
  small := h.small
  count := h.count
  weighed := h.weighed
  within := h.within
  root := waits_of_skip hseen (hqueue ▸ h.root)
  closed e he children hchildren child hchild :=
    waits_of_skip hseen (hqueue ▸ h.closed e he children hchildren child hchild)

/-- **When a block is kept.** -/
theorem keep_eq_ok {cid : String} {bytes : Bytes} : keep H limits walk cid bytes = .ok walk' ↔
    bytes.length ≤ blockBytesLimit ∧ walk.weighed + bytes.length ≤ limits.budget ∧
      ∃ c children, decodeCid cid = .ok c ∧ Verified H c bytes ∧ childrenOf cid bytes = .ok children ∧
        walk' =
          { walk with
            held := walk.held.set cid bytes
            queue := walk.queue ++ children
            weighed := walk.weighed + bytes.length } := by
  unfold keep refuse Verified
  -- the checks in the source's order: the block's size, the walk's budget, the digest, the links
  by_cases hsmall : bytes.length > blockBytesLimit
  · simp only [hsmall, if_true, Except.error_bind]
    refine iff_of_false (fun h => by cases h) fun h => ?_
    omega
  by_cases hweight : walk.weighed + bytes.length > limits.budget
  · simp only [hsmall, hweight, if_false, if_true, Except.pure_eq_ok, Except.error_bind]
    refine iff_of_false (fun h => by cases h) fun h => ?_
    omega
  simp only [hsmall, hweight, if_false, Except.pure_eq_ok]
  simp only [Nat.not_lt.1 hsmall, Nat.not_lt.1 hweight, true_and]
  cases hdecode : decodeCid cid with
  | error e => simp [Except.mapError]
  | ok c =>
    simp only [Except.mapError, Except.ok_bind, Except.ok.injEq]
    by_cases hdigest : H.sha256 bytes = c.digest
    · cases hchildren : childrenOf cid bytes with
      | error e => simp [hdigest]
      | ok children => simp [hdigest, eq_comm]
    · simp only [ne_eq, hdigest, not_false_eq_true, if_true, Except.error_bind]
      refine iff_of_false (fun h => by cases h) ?_
      rintro ⟨c', children, hc, hverified, -⟩
      rw [← hc] at hverified
      exact hdigest hverified

/-- A block that was not seen before is kept with what it links to. -/
theorem Walking.keep {cid : String} {queue : List String} {bytes : Bytes} (h : Walking H limits root walk)
    (hqueue : walk.queue = cid :: queue) (hseen : cid ∉ walk.seen) (hcount : walk.held.length < limits.blocks)
    (hkeep : keep H limits { walk with queue := queue, seen := cid :: walk.seen } cid bytes = .ok walk') :
    Walking H limits root walk' ∧ walk'.held.length = walk.held.length + 1 ∧
      walk'.queue.length ≤ queue.length + linksPerNodeLimit := by
  obtain ⟨hsmall, hweight, c, children, hdecode, hverified, hchildren, rfl⟩ := keep_eq_ok.1 hkeep
  have hnew : cid ∉ walk.held.map Prod.fst := fun hmem => hseen ((h.held_iff cid).1 hmem)
  have hset := OrdMap.set_of_notMem hnew bytes
  -- what waited, waits or is the text that has been taken
  have hwaits : ∀ text, text ∈ walk.queue ∨ text ∈ walk.seen → text ∈ queue ++ children ∨ text ∈ cid :: walk.seen := by
    intro text htext
    rw [hqueue] at htext
    rcases htext with htext | htext
    · rcases List.mem_cons.1 htext with rfl | htext
      · exact .inr List.mem_cons_self
      · exact .inl (List.mem_append_left _ htext)
    · exact .inr (List.mem_cons_of_mem _ htext)
  have hmem : ∀ e ∈ walk.held.set cid bytes, e = (cid, bytes) ∨ e ∈ walk.held := fun e he => OrdMap.mem_set he
  refine ⟨?_, ?_, ?_⟩
  · constructor
    · intro text
      rw [OrdMap.mem_keys_set, List.mem_cons, h.held_iff]
    · dsimp only
      rw [hset, List.map_append, List.nodup_append]
      refine ⟨h.nodup, List.nodup_singleton _, ?_⟩
      intro a ha b hb heq
      rw [List.map_singleton, List.mem_singleton] at hb
      rw [heq, hb] at ha
      exact hnew ha
    · intro e he
      rcases hmem e he with rfl | he
      · exact ⟨c, hdecode, hverified⟩
      · exact h.verified e he
    · intro e he
      rcases hmem e he with rfl | he
      · exact hsmall
      · exact h.small e he
    · dsimp only
      rw [hset, List.length_append]
      exact hcount
    · dsimp only
      unfold weight
      rw [hset, List.map_append, List.sum_append, h.weighed]
      rfl
    · exact hweight
    · exact hwaits root h.root
    · intro e he grandchildren hlinks child hchild
      rcases hmem e he with rfl | he
      · rw [hchildren] at hlinks
        cases hlinks
        exact .inl (List.mem_append_right _ hchild)
      · exact hwaits child (h.closed e he grandchildren hlinks child hchild)
  · dsimp only
    rw [hset, List.length_append]
    rfl
  · dsimp only
    rw [List.length_append]
    have hle := length_childrenOf_le hchildren
    omega

section Run

variable {σ : Type} {blocks : AsyncBlocks σ} {s s' : σ} {fuel : ℕ} {held : OrdMap String Bytes}

/-- **What a walk keeps it has at its end**, with nothing left in the queue. -/
theorem walking_of_loop (h : Walking H limits root walk)
    (hrun : prefetchLoop H blocks limits fuel walk s = some (.ok held, s')) :
    ∃ walk', Walking H limits root walk' ∧ walk'.queue = [] ∧ walk'.held = held := by
  induction fuel generalizing walk s with
  | zero => cases hrun
  | succ fuel ih =>
    rw [prefetchLoop] at hrun
    cases hqueue : walk.queue with
    | nil =>
      rw [hqueue] at hrun
      cases hrun
      exact ⟨walk, h, hqueue, rfl⟩
    -- a block of the queue is passed over, refused, or kept with its links queued
    | cons cid queue =>
      rw [hqueue] at hrun
      dsimp only at hrun
      by_cases hseen : cid ∈ walk.seen
      · rw [if_pos hseen] at hrun
        exact ih (h.skip hqueue hseen) hrun
      rw [if_neg hseen] at hrun
      by_cases hcount : walk.held.length ≥ limits.blocks
      · rw [if_pos hcount] at hrun
        cases hrun
      rw [if_neg hcount] at hrun
      cases hget : blocks.get cid s with
      | mk answer s₁ =>
        rw [hget] at hrun
        cases answer with
        | late => cases hrun
        | fails failure => cases hrun
        | bytes bytes =>
          dsimp only at hrun
          cases hkeep : Blockstore.keep H limits { walk with queue := queue, seen := cid :: walk.seen } cid bytes with
          | error failure =>
            rw [hkeep] at hrun
            cases hrun
          | ok walk₁ =>
            rw [hkeep] at hrun
            exact ih (h.keep hqueue hseen (Nat.not_le.1 hcount) hkeep).1 hrun

/-- How many turns a walk takes at most. -/
def turns (limits : PrefetchLimits) (walk : Walk) : ℕ :=
  (limits.blocks - walk.held.length) * (linksPerNodeLimit + 1) + walk.queue.length

/-- **A walk comes to its end**: a turn takes a text off the queue, and only a block that is kept adds any. -/
theorem loop_ends (h : Walking H limits root walk) (hfuel : turns limits walk < fuel) (s : σ) :
    (prefetchLoop H blocks limits fuel walk s).isSome := by
  induction fuel generalizing walk s with
  | zero => omega
  | succ fuel ih =>
    rw [prefetchLoop]
    unfold turns at hfuel ih
    cases hqueue : walk.queue with
    | nil => rfl
    | cons cid queue =>
      rw [hqueue, List.length_cons] at hfuel
      dsimp only
      by_cases hseen : cid ∈ walk.seen
      · rw [if_pos hseen]
        refine ih (h.skip hqueue hseen) ?_ s
        dsimp only
        omega
      rw [if_neg hseen]
      by_cases hcount : walk.held.length ≥ limits.blocks
      · rw [if_pos hcount]
        rfl
      rw [if_neg hcount]
      cases hget : blocks.get cid s with
      | mk answer s₁ =>
        cases answer with
        | late => rfl
        | fails failure => rfl
        | bytes bytes =>
          dsimp only
          cases hkeep : Blockstore.keep H limits { walk with queue := queue, seen := cid :: walk.seen } cid bytes with
          | error failure => rfl
          | ok walk₁ =>
            obtain ⟨hwalk, hlength, hadded⟩ := h.keep hqueue hseen (Nat.not_le.1 hcount) hkeep
            refine ih hwalk ?_ s₁
            -- one block less to come pays for all the texts it adds
            obtain ⟨more, hmore⟩ : ∃ more, limits.blocks - walk.held.length = more + 1 :=
              ⟨limits.blocks - walk.held.length - 1, by omega⟩
            have hless : limits.blocks - walk₁.held.length = more := by omega
            rw [hmore, Nat.succ_mul] at hfuel
            rw [hless]
            omega

end Run

/-! ## The traversal -/

/-- **What is held of a tree is enough of it**: its root and whatever a held block links to, each block
the one of its name, within the limits. -/
structure Sufficient (H : ContentHash) (limits : PrefetchLimits) (root : String) (held : OrdMap String Bytes) :
    Prop where
  nodup : (held.map Prod.fst).Nodup
  verified : ∀ e ∈ held, ∃ c, decodeCid e.1 = .ok c ∧ Verified H c e.2
  small : ∀ e ∈ held, e.2.length ≤ blockBytesLimit
  count : held.length ≤ limits.blocks
  within : weight held ≤ limits.budget
  root : root ∈ held.map Prod.fst
  closed : ∀ e ∈ held, ∀ c node, decodeCid e.1 = .ok c → c.codec = codecDagPb → decodeNode e.2 = .ok node →
    ∀ link ∈ node.links, link.cid ∈ held.map Prod.fst

/-- A walk that ends holds what a read needs. -/
theorem Walking.sufficient (h : Walking H limits root walk) (hqueue : walk.queue = []) :
    Sufficient H limits root walk.held := by
  have hseen : ∀ text, text ∈ walk.queue ∨ text ∈ walk.seen → text ∈ walk.held.map Prod.fst := by
    intro text htext
    rw [hqueue] at htext
    rcases htext with htext | htext
    · exact absurd htext List.not_mem_nil
    · exact (h.held_iff text).2 htext
  refine ⟨h.nodup, h.verified, h.small, h.count, ?_, hseen root h.root, ?_⟩
  · rw [← h.weighed]
    exact h.within
  · intro e he c node hdecode hcodec hnode link hlink
    have hchildren : childrenOf e.1 e.2 = .ok (node.links.map (·.cid)) := by
      unfold childrenOf
      rw [hdecode]
      simp only [Except.ok_bind, hcodec, ne_eq, not_true_eq_false, if_false, hnode]
      rfl
    exact hseen _ (h.closed e he _ hchildren _ (List.mem_map_of_mem hlink))

section Traversal

variable {held : OrdMap String Bytes}

theorem ends_offline {x : Except Fetch.Thrown α} (h : SoundErrors x) :
    Ends (fun a => x = .ok a) Sound (offline x : Traversal Unit α) := by
  cases x with
  | ok a => exact ends_pure rfl
  | error e => exact ends_throw (h e rfl)

theorem soundErrors_contentCid (cid : String) : SoundErrors (contentCid cid) := by
  unfold contentCid
  cases decodeCid cid with
  | ok c => exact soundErrors_ok c
  | error e => exact soundErrors_error (sound_malformed _)

/-- A block that is held is handed on, or the budget is spent. -/
theorem ends_fetchVerified (h : Sufficient H limits root held) {cid : String} (hcid : cid ∈ held.map Prod.fst) :
    Ends (fun bytes => (cid, bytes) ∈ held) Sound (fetchVerified H (heldSource held) cid) := by
  obtain ⟨⟨text, bytes⟩, hmem, htext⟩ := List.mem_map.1 hcid
  change text = cid at htext
  subst htext
  intro s
  by_cases hblocks : s.2.blocks + 1 ≤ blocksLimit
  · have hget : ((heldSource held).get text s.1).1 = some bytes := OrdMap.get?_of_mem h.nodup hmem
    have hcheck : checkAnswer H text (some bytes) = .ok bytes :=
      checkAnswer_eq_ok.2 ⟨rfl, h.small _ hmem, h.verified _ hmem⟩
    rw [fetchVerified_within hblocks, hget, hcheck]
    refine ⟨fun a ha => ?_, fun e he => (by cases he)⟩
    cases ha
    exact hmem
  · rw [fetchVerified_beyond (Nat.not_le.1 hblocks)]
    refine ⟨fun a ha => (by cases ha), fun e he => ?_⟩
    cases he
    exact sound_tooLarge _

theorem ends_spendBytes (count : ℕ) : Ends (fun _ => True) Sound (spendBytes count : Traversal Unit Unit) := by
  intro s
  rw [outcome_spendBytes]
  refine ⟨fun _ _ => trivial, fun e he => ?_⟩
  dsimp only at he
  split_ifs at he
  cases he
  exact sound_tooLarge _

theorem soundErrors_checkFile (cid : String) (node : DecodedNode) : SoundErrors (checkFile cid node) :=
  SoundErrors.ite (soundErrors_error (sound_notFound _)) (SoundErrors.ite (soundErrors_error (sound_malformed _))
    (SoundErrors.ite (soundErrors_error (sound_malformed _)) (soundErrors_ok _)))

theorem soundErrors_entryOf (cid segment : String) (node : DecodedNode) : SoundErrors (entryOf cid segment node) := by
  unfold entryOf
  refine SoundErrors.ite (soundErrors_error (sound_notFound _)) ?_
  cases node.links.filter fun link => link.name = segment with
  | nil => exact soundErrors_error (sound_notFound _)
  | cons link links =>
    cases links with
    | nil => exact soundErrors_ok _
    | cons => exact soundErrors_error (sound_malformed _)

/-- **A file that is held is assembled**, or refused for another reason than a block. -/
theorem ends_fetchLevels (h : Sufficient H limits root held) (levels : ℕ) {cid : String}
    (hcid : cid ∈ held.map Prod.fst) : Ends (fun _ => True) Sound (fetchLevels H (heldSource held) levels cid) := by
  induction levels generalizing cid with
  | zero => exact ends_throw (sound_tooLarge _)
  | succ levels ih =>
    rw [fetchLevels]
    refine (ends_fetchVerified h hcid).bind fun bytes hmem => ?_
    refine (ends_offline (soundErrors_contentCid cid)).bind fun c hc => ?_
    split_ifs with hraw
    · refine (ends_spendBytes _).bind fun _ _ => ?_
      exact ends_pure trivial
    · refine (ends_offline (soundErrors_decodeNode bytes)).bind fun node hnode => ?_
      refine (ends_offline (soundErrors_checkFile cid node)).bind fun _ _ => ?_
      have hdecode := contentCid_eq_ok.1 hc
      have hlinks := h.closed _ hmem c node hdecode (codec_of_ne_raw hdecode hraw) hnode
      have hchunk : ∀ entry ∈ (node.links.zip node.blocksizes).zipIdx,
          Ends (fun _ => True) Sound (fetchChunk (fetchLevels H (heldSource held) levels) cid entry) := by
        intro entry hentry
        have hlink : entry.1.1 ∈ node.links := (List.of_mem_zip (List.fst_mem_of_mem_zipIdx hentry)).1
        refine (ih (hlinks _ hlink)).bind fun part _ => ?_
        refine (ends_offline (SoundErrors.ite (soundErrors_error (sound_malformed _)) (soundErrors_ok _))).bind
          fun _ _ => ?_
        exact ends_pure trivial
      refine (ends_mapM hchunk).bind fun parts _ => ?_
      refine (ends_offline (SoundErrors.ite (soundErrors_error (sound_malformed _)) (soundErrors_ok _))).bind
        fun _ _ => ?_
      exact ends_pure trivial

/-- **A path leads to a block that is held**, or nowhere for another reason than a block. -/
theorem ends_descend (h : Sufficient H limits root held) (segments : List String) (index : ℕ) {cid : String}
    (hcid : cid ∈ held.map Prod.fst) :
    Ends (fun cid => cid ∈ held.map Prod.fst) Sound (Fetch.descend H (heldSource held) cid index segments) := by
  induction segments generalizing cid index with
  | nil => exact ends_pure hcid
  | cons segment segments ih =>
    rw [Fetch.descend]
    split_ifs
    · exact ends_throw_bind (sound_tooLarge _) _
    · refine (ends_fetchVerified h hcid).bind fun bytes hmem => ?_
      refine (ends_offline (soundErrors_contentCid cid)).bind fun c hc => ?_
      split_ifs with hcodec
      · exact ends_throw_bind (sound_notFound _) _
      · refine (ends_offline (soundErrors_decodeNode bytes)).bind fun node hnode => ?_
        refine (ends_offline (soundErrors_entryOf cid segment node)).bind fun next hnext => ?_
        obtain ⟨-, link, hlink, rfl⟩ := entryOf_eq_ok.1 hnext
        have hmember : link ∈ node.links := by
          have hfilter : link ∈ node.links.filter fun link => link.name = segment := by
            rw [hlink]
            exact List.mem_singleton_self link
          exact List.mem_of_mem_filter hfilter
        exact ih (index + 1) (h.closed _ hmem c node (contentCid_eq_ok.1 hc) (not_not.1 hcodec) hnode link hmember)

/-- **The traversal finds whatever it asks for** in a tree that is held. -/
theorem ends_fetchPath (h : Sufficient H limits root held) (path : String) {e : Fetch.Thrown}
    (hthrown : (fetchPath H (heldSource held) root path ()).1 = .error e) : Sound e := by
  have hsegments : SoundErrors ((segmentsOf path).forM checkSegment) := by
    induction segmentsOf path with
    | nil => exact soundErrors_ok _
    | cons segment segments ih =>
      have hcons : (segment :: segments).forM checkSegment = checkSegment segment >>= fun _ =>
          segments.forM checkSegment := rfl
      rw [hcons]
      exact (SoundErrors.ite (soundErrors_error (sound_notFound _)) (soundErrors_ok _)).bind fun _ => ih
  have hends : Ends (fun _ => True) Sound (do
      offline ((segmentsOf path).forM checkSegment)
      let cid ← Fetch.descend H (heldSource held) root 0 (segmentsOf path)
      fetchFile H (heldSource held) cid (segmentsOf path).length) := by
    refine (ends_offline hsegments).bind fun _ _ => ?_
    refine (ends_descend h _ _ h.root).bind fun cid hcid => ?_
    exact ends_fetchLevels h _ hcid
  rw [fetchPath_eq] at hthrown
  exact (hends _).2 e hthrown

end Traversal

/-- **A tree that has been prefetched is closed and sufficient**, and a prefetch comes to an end on every
store: it holds its root and whatever it links to, within the limits, each block the one of its name; and
no path of it fails for a missing or a wrong block. -/
theorem prefetch_closed {σ : Type} (H : ContentHash) (blocks : AsyncBlocks σ) (root : String)
    (limits : PrefetchLimits) (s : σ) :
    (∃ n, ∀ fuel, n ≤ fuel → (prefetch H blocks root limits fuel s).isSome) ∧
    ∀ fuel held s', prefetch H blocks root limits fuel s = some (.ok held, s') →
      Sufficient H limits root held ∧
      ∀ path message, (fetchPath H (heldSource held) root path ()).1 ≠ .error (.fetch .contentUnavailable message) ∧
        (fetchPath H (heldSource held) root path ()).1 ≠ .error (.fetch .contentIntegrity message) := by
  refine ⟨⟨turns limits (.start root) + 1, fun fuel hfuel => loop_ends walking_start hfuel s⟩, ?_⟩
  intro fuel held s' hrun
  obtain ⟨walk, hwalk, hqueue, rfl⟩ := walking_of_loop walking_start hrun
  have hheld := hwalk.sufficient hqueue
  refine ⟨hheld, fun path message => ⟨fun hthrown => ?_, fun hthrown => ?_⟩⟩
  · exact (ends_fetchPath hheld path hthrown message).1 rfl
  · exact (ends_fetchPath hheld path hthrown message).2 rfl

open TwoFiles in
/-- A store of the four blocks of a site. -/
def fourBlocks : AsyncBlocks Unit where
  get cid s :=
    match (blocks.find? fun block => block.cid = cid) with
    | some block => (.bytes block.bytes, s)
    | none => (.late, s)

open TwoFiles in
/-- The tree of two files is prefetched, and what is held is enough. -/
theorem prefetch_closed_two_files : ∃ held,
    prefetch hash fourBlocks rootCid { blocks := 100, timeoutMs := none, totalBytes := none } 5 () =
      some (.ok held, ()) ∧ held.length = 4 ∧
        Sufficient hash { blocks := 100, timeoutMs := none, totalBytes := none } rootCid held := by
  have hrun : (prefetch hash fourBlocks rootCid { blocks := 100, timeoutMs := none, totalBytes := none } 5 ()).map
      (·.1) = some (.ok [(rootCid, rootBlock), (OneFile.leafCid, first), (innerCid, innerBlock),
        (secondCid, second)]) := by decide +kernel
  obtain ⟨⟨result, u⟩, hprefetch, hresult⟩ := Option.map_eq_some_iff.1 hrun
  obtain rfl : result = _ := hresult
  exact ⟨_, hprefetch, rfl, ((prefetch_closed hash fourBlocks rootCid _ ()).2 _ _ _ hprefetch).1⟩

end VayuWeb.Blockstore
