import VayuWeb.Base.Explore
import VayuWeb.Client.Unpublish
import VayuWeb.Proof.ClientImport
import VayuWeb.Proof.PublishFlow
import VayuWeb.Proof.Spelling
import VayuWeb.Proof.ViewChain

/-!
# What a withdrawal takes from the store

* `collectBlocks_ok`, `collectBlocks_error`: the walk finds what is under a root, or something unreadable there.
* `retain_ok`, `retain_error`: what other names reach, or a name that stops the unpin.
* `unpin_careful_iff`: when the unpin leaves the other names whole.
-/

namespace VayuWeb.Client.Unpublish

open Bytes BlockStore Dagnode View

section

variable {C : Crypto} {H : ContentHash} {view : View} {disk disk' : Disk} {limits : WalkLimits} {label tld l t : String}
  {root block : Cid} {blocks : List Cid} {fuel : ℕ} {names : List (String × String × Tip)}
    {retained result : List String}

/-! ## Blocks under a root -/

/-- What a block leads to. -/
def linksOf (H : ContentHash) (disk : Disk) (limits : WalkLimits) (cid : Cid) : Except WalkError (List Cid) :=
  (readNode H disk limits cid).map fun node => node.links.reverse

/-- One CID is reached from another over the blocks on a disk. -/
def Under (H : ContentHash) (disk : Disk) : Cid → Cid → Prop := Explore.Reach (linksOf H disk .standard)

/-- A block that is missing, or does not read as a node. -/
def Unreadable (H : ContentHash) (disk : Disk) (block : Cid) : Prop := ∃ e, readNode H disk .standard block = .error e

/-- Collecting blocks is searching what lies behind the root. -/
theorem collectBlocksFrom_eq (fuel : ℕ) : ∀ (stack : List Cid) (seen : List String) (blocks : List Cid),
    collectBlocksFrom H disk limits fuel stack seen blocks =
      Explore.run Cid.toText (linksOf H disk limits) fuel stack seen blocks := by
  induction fuel with
  | zero =>
    intro stack seen blocks
    cases stack <;> rfl
  | succ fuel ih =>
    intro stack seen blocks
    cases stack with
    | nil => rfl
    | cons cid stack =>
      rw [collectBlocksFrom, Explore.run, linksOf]
      by_cases hseen : cid.toText ∈ seen
      · rw [if_pos hseen, if_pos hseen, ih]
      · rw [if_neg hseen, if_neg hseen]
        cases readNode H disk limits cid with
        | error error => rfl
        | ok node => exact ih _ _ _

/-- Every CID the client reads is admitted. -/
theorem admitted_of_fromBytes {bytes : Bytes} {cid : Cid} (h : Cid.fromBytes bytes = .ok cid) : cid.Admitted := by
  obtain ⟨hversion, hspelled⟩ := fromBytes_eq_ok.1 h
  exact ⟨hversion, hspelled.codec_admitted⟩

theorem admitted_of_linkCid {hash : Bytes} {cid : Cid} (h : linkCid hash = .ok cid) : cid.Admitted := by
  unfold linkCid at h
  cases hcid : Cid.fromBytes hash with
  | error e =>
    cases e with
    | badCid reason => rw [hcid] at h; exact absurd h (by simp)
  | ok found =>
    rw [hcid] at h
    rw [← Except.ok.inj h]
    exact admitted_of_fromBytes hcid

/-- Every link of a node is admitted. -/
theorem admitted_of_classify {codec : ℕ} {bytes : Bytes} {node : Node} (h : classify codec limits bytes = .ok node) :
    ∀ cid ∈ node.links, cid.Admitted := by
  unfold classify at h
  split_ifs at h with hraw hnode
  · rw [← Except.ok.inj h]
    exact fun cid hcid => absurd hcid List.not_mem_nil
  · cases hpb : parsePbNode bytes with
    | none => simp [hpb] at h
    | some pb =>
      simp only [hpb] at h
      cases hdata : parseUnixfs pb.data with
      | none => simp [hdata] at h
      | some found =>
        simp only [hdata] at h
        split_ifs at h with hdirectory hmany hfile
        -- a directory's links and a file's go through the one check of an identifier
        · obtain ⟨entries, hentries, hdone⟩ := Except.bind_eq_ok.1 h
          rw [Except.pure_eq_ok, Except.ok.injEq] at hdone
          rw [Except.mapM_eq_ok] at hentries
          rw [← hdone]
          intro cid hcid
          obtain ⟨entry, hentry, rfl⟩ := List.mem_map.1 hcid
          obtain ⟨link, -, hlink⟩ := Except.exists_of_forall₂_right hentries hentry
          obtain ⟨cid, hcid, hdone⟩ := Except.bind_eq_ok.1 hlink
          rw [← Except.ok.inj hdone]
          exact admitted_of_linkCid hcid
        · obtain ⟨children, hchildren, hdone⟩ := Except.bind_eq_ok.1 h
          rw [Except.pure_eq_ok, Except.ok.injEq] at hdone
          rw [Except.mapM_eq_ok] at hchildren
          rw [← hdone]
          intro cid hcid
          obtain ⟨link, -, hlink⟩ := Except.exists_of_forall₂_right hchildren hcid
          exact admitted_of_linkCid hlink

/-- Where a node leads. -/
theorem linksOf_eq_ok {cid : Cid} {items : List Cid} :
    linksOf H disk limits cid = .ok items ↔ ∃ node, readNode H disk limits cid = .ok node ∧
      items = node.links.reverse := by
  unfold linksOf
  cases readNode H disk limits cid with
  | error e => simp [Except.map]
  | ok node =>
    rw [Except.map, Except.ok.injEq]
    constructor
    · intro h
      exact ⟨node, rfl, h.symm⟩
    · rintro ⟨node', hnode, hitems⟩
      rw [Except.ok.inj hnode, hitems]

/-- Where a node cannot be read. -/
theorem linksOf_eq_error {cid : Cid} {e : WalkError} :
    linksOf H disk limits cid = .error e ↔ readNode H disk limits cid = .error e := by
  unfold linksOf
  cases readNode H disk limits cid with
  | error e' => rw [Except.map, Except.error.injEq, Except.error.injEq]
  | ok node => simp [Except.map]

/-- The links of a node that was read are well formed. -/
theorem admitted_of_links {cid : Cid} {items : List Cid} (h : linksOf H disk limits cid = .ok items) :
    ∀ link ∈ items, link.Admitted := by
  obtain ⟨node, hnode, rfl⟩ := linksOf_eq_ok.1 h
  unfold readNode at hnode
  intro link hlink
  rw [List.mem_reverse] at hlink
  cases hget : get H disk cid with
  | error e => simp [hget] at hnode
  | ok found =>
    cases found with
    | none => simp [hget] at hnode
    | some bytes =>
      simp only [hget] at hnode
      exact admitted_of_classify hnode link hlink

/-- What lies under an admitted CID is admitted. -/
theorem Under.admitted (h : Under H disk root block) (hroot : root.Admitted) : block.Admitted := by
  unfold Under Explore.Reach at h
  induction h with
  | refl => exact hroot
  | tail _ hstep _ =>
    obtain ⟨items, hitems, hmem⟩ := hstep
    exact admitted_of_links hitems _ hmem

/-- **A walk that ends** has found what is under the root, all of it readable. -/
theorem collectBlocks_ok (hroot : root.Admitted) (h : collectBlocks H disk .standard fuel root = some (.ok blocks)) :
    (∀ block, block ∈ blocks ↔ Under H disk root block) ∧ ∀ block, Under H disk root block →
    ¬ Unreadable H disk block := by
  rw [collectBlocks, collectBlocksFrom_eq] at h
  obtain ⟨hmem, hok⟩ := Explore.run_ok (fun a b ha hb heq => toText_injective ha hb heq)
    (fun a items _ hitems => admitted_of_links hitems) hroot h
  refine ⟨hmem, ?_⟩
  rintro block hunder ⟨e, he⟩
  obtain ⟨items, hitems⟩ := hok block hunder
  rw [linksOf_eq_error.2 he] at hitems
  exact absurd hitems (by simp)

/-- **A walk that fails** has come to something unreadable. -/
theorem collectBlocks_error {e : WalkError} (h : collectBlocks H disk .standard fuel root = some (.error e)) :
    ∃ block, Under H disk root block ∧ Unreadable H disk block := by
  rw [collectBlocks, collectBlocksFrom_eq] at h
  obtain ⟨block, hunder, herror⟩ := Explore.run_error h
  exact ⟨block, hunder, e, linksOf_eq_error.1 herror⟩

/-! ## The names of the view -/

/-- Names with a chain have a record in the view. -/
theorem exists_entry (h : view.chain C l t ≠ []) : ∃ entry ∈ view.entries, ∃ peeked, peek entry.bytes = .ok peeked ∧
    peeked.label = l ∧ peeked.tld = t := by
  obtain ⟨tip, below, hchain⟩ := List.exists_cons_of_ne_nil h
  have hcomplete := deterministicChain_complete (view.candidates C l t)
  have hmem : tip ∈ view.candidates C l t := by
    apply hcomplete.lineage.mem
    have htip : tip ∈ view.chain C l t := by
      rw [hchain]
      exact List.mem_cons_self
    exact htip
  obtain ⟨entry, hentry, hcandidate⟩ := List.mem_filterMap.1 hmem
  unfold candidate at hcandidate
  obtain ⟨peeked, hpeeked, hrest⟩ := Option.bind_eq_some_iff.1 hcandidate
  refine ⟨entry, hentry, peeked, Except.toOption_eq_some.1 hpeeked, ?_⟩
  split_ifs at hrest with hname
  rw [not_or, not_not, not_not] at hname
  exact hname

theorem mem_noteName {name : String × String} {seen : List (String × String)} {entry : View.Entry} :
    name ∈ noteName seen entry ↔
      name ∈ seen ∨ ∃ peeked, peek entry.bytes = .ok peeked ∧ name = (peeked.label, peeked.tld) := by
  unfold noteName
  cases hpeek : peek entry.bytes with
  | error e => simp
  | ok peeked =>
    dsimp only
    have hone : (∃ peeked', Except.ok peeked = (.ok peeked' : Except String Peeked) ∧
        name = (peeked'.label, peeked'.tld)) ↔ name = (peeked.label, peeked.tld) := by
      constructor
      · rintro ⟨peeked', heq, hname⟩
        rw [Except.ok.inj heq]
        exact hname
      · intro hname
        exact ⟨peeked, rfl, hname⟩
    rw [hone]
    by_cases hseen : (peeked.label, peeked.tld) ∈ seen
    · rw [if_pos (List.contains_iff_mem.2 hseen)]
      refine ⟨Or.inl, ?_⟩
      rintro (hname | rfl)
      · exact hname
      · exact hseen
    · rw [if_neg fun hcontains => hseen (List.contains_iff_mem.1 hcontains), List.mem_append, List.mem_singleton]

/-- The names a view has seen. -/
theorem mem_namesSeen {name : String × String} : name ∈ view.namesSeen ↔
    ∃ entry ∈ view.entries, ∃ peeked, peek entry.bytes = .ok peeked ∧ name = (peeked.label, peeked.tld) := by
  have hfold : ∀ (entries : List View.Entry) (seen : List (String × String)), name ∈ entries.foldl noteName seen ↔
      name ∈ seen ∨ ∃ entry ∈ entries, ∃ peeked, peek entry.bytes = .ok peeked ∧ name = (peeked.label, peeked.tld) := by
    intro entries
    induction entries with
    | nil =>
      intro seen
      simp
    | cons entry entries ih =>
      intro seen
      rw [List.foldl_cons, ih, List.exists_mem_cons_iff, mem_noteName, or_assoc]
  rw [namesSeen, hfold]
  simp only [List.not_mem_nil, false_or]

theorem chainTip_some {tip : Tip} (h : view.chainTip C l t = .ok (some tip)) : view.chain C l t ≠ [] := by
  unfold chainTip at h
  intro hnil
  simp [hnil] at h

theorem chainTip_none (h : view.chainTip C l t = .ok none) : view.chain C l t = [] := by
  unfold chainTip at h
  cases hchain : view.chain C l t with
  | nil => rfl
  | cons tip below =>
    -- every way to the end of the replay returns a tip
    simp only [hchain] at h
    obtain ⟨peeked, -, h⟩ := Except.bind_eq_ok.1 h
    by_cases hop : peeked.op = "TRANSFER"
    · simp only [if_pos hop] at h
      cases below with
      | nil => exact absurd h (by simp)
      | cons before below =>
        obtain ⟨signerKey, -, h⟩ := Except.bind_eq_ok.1 h
        obtain ⟨notAfter, -, h⟩ := Except.bind_eq_ok.1 h
        obtain ⟨ownerKey, -, h⟩ := Except.bind_eq_ok.1 h
        exact absurd h (by simp)
    · simp only [if_neg hop] at h
      obtain ⟨signerKey, -, h⟩ := Except.bind_eq_ok.1 h
      obtain ⟨notAfter, -, h⟩ := Except.bind_eq_ok.1 h
      obtain ⟨ownerKey, -, h⟩ := Except.bind_eq_ok.1 h
      exact absurd h (by simp)

/-- **The names of a view** are those with a chain. -/
theorem allNames_spec (h : view.allNames C = .ok names) (l t : String) :
    (∃ tip, (l, t, tip) ∈ names) ↔ view.chain C l t ≠ [] := by
  unfold View.allNames at h
  obtain ⟨found, hfound, hdone⟩ := Except.bind_eq_ok.1 h
  rw [Except.pure_eq_ok, Except.ok.injEq] at hdone
  rw [Except.mapM_eq_ok] at hfound
  rw [← hdone]
  constructor
  -- each name listed has a tip, so its chain is not empty
  · rintro ⟨tip, htip⟩
    rw [List.mem_filterMap] at htip
    obtain ⟨item, hitem, hsome⟩ := htip
    obtain ⟨name, -, hname⟩ := Except.exists_of_forall₂_right hfound hitem
    obtain ⟨tip', htip', hmap⟩ := Except.bind_eq_ok.1 hname
    rw [Except.pure_eq_ok, Except.ok.injEq] at hmap
    rw [id, ← hmap, Option.map_eq_some_iff] at hsome
    obtain ⟨tip'', rfl, heq⟩ := hsome
    rw [Prod.mk.injEq, Prod.mk.injEq] at heq
    rw [heq.1, heq.2.1] at htip'
    exact chainTip_some htip'
  · intro hchain
    obtain ⟨entry, hentry, peeked, hpeek, hlabel, htld⟩ := exists_entry hchain
    have hseen : (l, t) ∈ view.namesSeen.insertionSort nameLe := by
      rw [List.mem_insertionSort, mem_namesSeen]
      exact ⟨entry, hentry, peeked, hpeek, by rw [hlabel, htld]⟩
    obtain ⟨item, hitem, hname⟩ := Except.exists_of_forall₂_left hfound hseen
    obtain ⟨tip, htip, hmap⟩ := Except.bind_eq_ok.1 hname
    rw [Except.pure_eq_ok, Except.ok.injEq] at hmap
    cases tip with
    | none => exact absurd (chainTip_none htip) hchain
    | some tip =>
      refine ⟨tip, List.mem_filterMap.2 ⟨item, hitem, ?_⟩⟩
      rw [id, ← hmap]
      rfl

/-! ## What the other names reach -/

/-- A name of the list that is not the one withdrawn. -/
def Listed (names : List (String × String × Tip)) (label tld l t : String) : Prop :=
  ¬ (l = label ∧ t = tld) ∧ ∃ tip, (l, t, tip) ∈ names

/-- A name stops the unpin: something under its root cannot be read, or it has none for a reason that is told. -/
def Blocks (C : Crypto) (H : ContentHash) (view : View) (disk : Disk) (l t : String) : Prop :=
  (∃ r, view.resolvedRoot C l t = .ok r ∧ ∃ block, Under H disk r block ∧ Unreadable H disk block) ∨
    ∃ detail, view.resolvedRoot C l t = .error detail ∧ saysNoRecord detail = false

/-- A root that is resolved is admitted. -/
theorem admitted_of_resolvedRoot (h : view.resolvedRoot C l t = .ok root) : root.Admitted := by
  unfold resolvedRoot at h
  obtain ⟨pointer, hpointer, h⟩ := Except.bind_eq_ok.1 h
  rcases pointer with cid | target
  · rw [← Except.ok.inj h]
    unfold resolvedPointer at hpointer
    cases hchain : view.chain C l t with
    | nil => simp [hchain] at hpointer
    | cons tip below =>
      simp only [hchain, pointerOf] at hpointer
      cases hselected : selectedPointer tip.entry.bytes with
      | none => simp [hselected] at hpointer
      | some selected =>
        rcases selected with text | bytes | target
        · simp [hselected] at hpointer
        · simp only [hselected] at hpointer
          cases hbytes : Cid.fromBytes bytes with
          | error e => simp [hbytes] at hpointer
          | ok found =>
            simp only [hbytes, Except.ok.injEq, Pointer.cid.injEq] at hpointer
            rw [← hpointer]
            exact admitted_of_fromBytes hbytes
        · simp [hselected] at hpointer
  · exact absurd h (by simp)

/-- One more name in the list. -/
theorem listed_cons {name : String × String × Tip} : Listed (name :: names) label tld l t ↔
    (¬ (l = label ∧ t = tld) ∧ name.1 = l ∧ name.2.1 = t) ∨ Listed names label tld l t := by
  obtain ⟨l', t', tip'⟩ := name
  unfold Listed
  rw [← and_or_left]
  apply and_congr_right
  intro _
  constructor
  · rintro ⟨tip, htip⟩
    rcases List.mem_cons.1 htip with heq | htip
    · rw [Prod.mk.injEq, Prod.mk.injEq] at heq
      exact Or.inl ⟨heq.1.symm, heq.2.1.symm⟩
    · exact Or.inr ⟨tip, htip⟩
  · rintro (⟨rfl, rfl⟩ | ⟨tip, htip⟩)
    · exact ⟨tip', List.mem_cons_self⟩
    · exact ⟨tip, List.mem_cons_of_mem _ htip⟩

/-- **Where every name was gone through**, none of them stops the unpin, and what they reach is retained. -/
theorem retain_ok (h : retain C H view disk label tld fuel names retained = some (.ok result)) :
    (∀ text, text ∈ result ↔ text ∈ retained ∨ ∃ l t, Listed names label tld l t ∧
      ∃ r, view.resolvedRoot C l t = .ok r ∧ ∃ block, Under H disk r block ∧ block.toText = text) ∧
    ∀ l t, Listed names label tld l t → ¬ Blocks C H view disk l t := by
  induction names generalizing retained with
  | nil =>
    rw [retain, Option.some.injEq, Except.ok.injEq] at h
    have hnone : ∀ l t, ¬ Listed [] label tld l t := by
      rintro l t ⟨-, tip, htip⟩
      exact absurd htip List.not_mem_nil
    refine ⟨?_, fun l t hlisted => absurd hlisted (hnone l t)⟩
    intro text
    rw [h]
    refine ⟨Or.inl, ?_⟩
    rintro (htext | ⟨l, t, hlisted, -⟩)
    · exact htext
    · exact absurd hlisted (hnone l t)
  | cons name names ih =>
    obtain ⟨l', t', tip'⟩ := name
    rw [retain] at h
    -- the name that is withdrawn keeps nothing
    by_cases hown : l' = label ∧ t' = tld
    · rw [if_pos hown] at h
      obtain ⟨hmem, hstops⟩ := ih h
      have hsame : ∀ l t, Listed ((l', t', tip') :: names) label tld l t ↔ Listed names label tld l t := by
        intro l t
        rw [listed_cons]
        refine ⟨?_, Or.inr⟩
        rintro (⟨hother, rfl, rfl⟩ | hlisted)
        · exact absurd hown hother
        · exact hlisted
      simp only [hsame]
      exact ⟨hmem, hstops⟩
    · rw [if_neg hown] at h
      cases hroot : view.resolvedRoot C l' t' with
      | error detail =>
        simp only [hroot] at h
        -- no record in the view: the name reaches nothing and stops nothing
        cases hphrase : saysNoRecord detail with
        | false => simp [hphrase] at h
        | true =>
          simp only [hphrase, if_true] at h
          obtain ⟨hmem, hstops⟩ := ih h
          refine ⟨?_, ?_⟩
          · intro text
            rw [hmem]
            apply or_congr_right
            constructor
            · rintro ⟨l, t, hlisted, hreach⟩
              exact ⟨l, t, listed_cons.2 (Or.inr hlisted), hreach⟩
            · rintro ⟨l, t, hlisted, r, hr, hreach⟩
              rcases listed_cons.1 hlisted with ⟨-, rfl, rfl⟩ | hlisted
              · rw [hroot] at hr
                exact absurd hr (by simp)
              · exact ⟨l, t, hlisted, r, hr, hreach⟩
          · intro l t hlisted hblocks
            rcases listed_cons.1 hlisted with ⟨-, rfl, rfl⟩ | hlisted
            · rcases hblocks with ⟨r, hr, -⟩ | ⟨detail', hdetail, hphrase'⟩
              · rw [hroot] at hr
                exact absurd hr (by simp)
              · rw [hroot, Except.error.injEq] at hdetail
                rw [← hdetail, hphrase] at hphrase'
                exact absurd hphrase' (by simp)
            · exact hstops l t hlisted hblocks
      | ok otherRoot =>
        simp only [hroot] at h
        cases hcollect : collectBlocks H disk .standard fuel otherRoot with
        | none => simp [hcollect] at h
        | some found =>
          cases found with
          | error e => simp [hcollect] at h
          | ok blocks =>
            simp only [hcollect] at h
            obtain ⟨hunder, hreadable⟩ := collectBlocks_ok (admitted_of_resolvedRoot hroot) hcollect
            -- the blocks under this name's root are kept, and the walk goes on
            obtain ⟨hmem, hstops⟩ := ih h
            refine ⟨?_, ?_⟩
            · intro text
              rw [hmem, List.mem_append, List.mem_map, or_assoc]
              apply or_congr_right
              constructor
              · rintro (⟨block, hblock, htext⟩ | ⟨l, t, hlisted, hreach⟩)
                · exact ⟨l', t', listed_cons.2 (Or.inl ⟨hown, rfl, rfl⟩), otherRoot, hroot, block,
                    (hunder block).1 hblock, htext⟩
                · exact ⟨l, t, listed_cons.2 (Or.inr hlisted), hreach⟩
              · rintro ⟨l, t, hlisted, r, hr, block, hblock, htext⟩
                rcases listed_cons.1 hlisted with ⟨-, rfl, rfl⟩ | hlisted
                · rw [hroot, Except.ok.injEq] at hr
                  rw [← hr] at hblock
                  exact Or.inl ⟨block, (hunder block).2 hblock, htext⟩
                · exact Or.inr ⟨l, t, hlisted, r, hr, block, hblock, htext⟩
            · intro l t hlisted hblocks
              rcases listed_cons.1 hlisted with ⟨-, rfl, rfl⟩ | hlisted
              · rcases hblocks with ⟨r, hr, block, hblock, hbad⟩ | ⟨detail, hdetail, -⟩
                · rw [hroot, Except.ok.injEq] at hr
                  rw [← hr] at hblock
                  exact hreadable block hblock hbad
                · rw [hroot] at hdetail
                  exact absurd hdetail (by simp)
              · exact hstops l t hlisted hblocks

/-- **Where the names were not gone through**, one of them stops the unpin. -/
theorem retain_error {reason : String} (h : retain C H view disk label tld fuel names retained = some (.error reason)) :
    ∃ l t, Listed names label tld l t ∧ Blocks C H view disk l t := by
  induction names generalizing retained with
  | nil => exact absurd h (by simp [retain])
  | cons name names ih =>
    obtain ⟨l', t', tip'⟩ := name
    have hlater : (∃ l t, Listed names label tld l t ∧ Blocks C H view disk l t) →
        ∃ l t, Listed ((l', t', tip') :: names) label tld l t ∧ Blocks C H view disk l t := by
      rintro ⟨l, t, hlisted, hblocks⟩
      exact ⟨l, t, listed_cons.2 (Or.inr hlisted), hblocks⟩
    rw [retain] at h
    by_cases hown : l' = label ∧ t' = tld
    · rw [if_pos hown] at h
      exact hlater (ih h)
    · rw [if_neg hown] at h
      have hfirst : Listed ((l', t', tip') :: names) label tld l' t' := listed_cons.2 (Or.inl ⟨hown, rfl, rfl⟩)
      cases hroot : view.resolvedRoot C l' t' with
      | error detail =>
        simp only [hroot] at h
        cases hphrase : saysNoRecord detail with
        | false => exact ⟨l', t', hfirst, Or.inr ⟨detail, hroot, hphrase⟩⟩
        | true =>
          simp only [hphrase, if_true] at h
          exact hlater (ih h)
      | ok otherRoot =>
        simp only [hroot] at h
        cases hcollect : collectBlocks H disk .standard fuel otherRoot with
        | none => simp [hcollect] at h
        | some found =>
          cases found with
          | error e => exact ⟨l', t', hfirst, Or.inl ⟨otherRoot, hroot, collectBlocks_error hcollect⟩⟩
          | ok blocks =>
            simp only [hcollect] at h
            exact hlater (ih h)

/-! ## The removal -/

/-- One block more is removed, or kept. -/
theorem unpinBlock_fst (state : Disk × ℕ × ℕ) (block : Cid) : (unpinBlock retained state block).1 =
    fun n => if n = block.toText ∧ block.toText ∉ retained then none else state.1 n := by
  obtain ⟨disk, removed, kept⟩ := state
  unfold unpinBlock remove
  funext n
  by_cases hkept : block.toText ∈ retained
  · simp [hkept]
  · cases hfile : disk block.toText with
    | none =>
      by_cases hn : n = block.toText
      · simp [hkept, hfile, hn]
      · simp [hkept, hfile, hn]
    | some bytes =>
      by_cases hn : n = block.toText
      · simp [hkept, hfile, hn]
      · simp [hkept, hfile, hn]

/-- What is left on the disk after unpinning. -/
theorem foldl_unpinBlock (treeBlocks : List Cid) (state : Disk × ℕ × ℕ) (n : String) :
    (treeBlocks.foldl (unpinBlock retained) state).1 n =
      if n ∈ treeBlocks.map Cid.toText ∧ n ∉ retained then none else state.1 n := by
  induction treeBlocks generalizing state with
  | nil => simp
  | cons block treeBlocks ih =>
    rw [List.foldl_cons, ih, unpinBlock_fst]
    simp only [List.map_cons, List.mem_cons]
    by_cases hretained : n ∈ retained
    · have hne : ¬ (n = block.toText ∧ block.toText ∉ retained) := by
        rintro ⟨rfl, hnot⟩
        exact hnot hretained
      rw [if_neg (fun h => h.2 hretained), if_neg hne, if_neg (fun h => h.2 hretained)]
    · by_cases hlater : n ∈ treeBlocks.map Cid.toText
      · rw [if_pos ⟨hlater, hretained⟩, if_pos ⟨Or.inr hlater, hretained⟩]
      · rw [if_neg (fun h => hlater h.1)]
        by_cases hhere : n = block.toText
        · rw [if_pos ⟨hhere, hhere ▸ hretained⟩, if_pos ⟨Or.inl hhere, hretained⟩]
        · rw [if_neg (fun h => hhere h.1), if_neg]
          rintro ⟨hhere' | hlater', -⟩
          · exact hhere hhere'
          · exact hlater hlater'

/-! ## Leaving the other names whole -/

/-- A name other than the withdrawn one leads to a root, by its own record or through that of another. -/
inductive Keeps (C : Crypto) (view : View) (label tld : String) : String → String → Cid → Prop
  | content {l t : String} {r : Cid} (hother : ¬ (l = label ∧ t = tld))
      (h : view.resolvedPointer C l t = .ok (.cid r)) : Keeps C view label tld l t r
  | through {l t : String} {target : Alias} {r : Cid} (hother : ¬ (l = label ∧ t = tld))
      (h : view.resolvedPointer C l t = .ok (.alias target)) (rest : Keeps C view label tld target.label target.tld r) :
      Keeps C view label tld l t r

/-- The current record of a name selects what this client cannot follow. -/
inductive Unfollowable (C : Crypto) (view : View) (l t : String) : Prop
  | ipns {tip : Candidate} {below : List Candidate} {text : String} (hchain : view.chain C l t = tip :: below)
      (h : selectedPointer tip.entry.bytes = some (.ipns text))
  | malformed {tip : Candidate} {below : List Candidate} {bytes : Bytes} {e : ContentError}
      (hchain : view.chain C l t = tip :: below) (h : selectedPointer tip.entry.bytes = some (.cid bytes))
      (hbad : Cid.fromBytes bytes = .error e)

/-- The other names are left whole: what is removed is under the withdrawn root and under no root that another
name leads to, and nothing is where this cannot be told. -/
structure Careful (C : Crypto) (H : ContentHash) (view : View) (label tld : String) (root : Cid) (disk disk' : Disk) :
    Prop where
  owned : ∀ text, disk' text ≠ disk text → disk' text = none ∧ ∃ block, block.toText = text ∧
    Under H disk root block ∧ ∀ l t r, Keeps C view label tld l t r → ¬ Under H disk r block
  cautious : (∃ l t, ¬ (l = label ∧ t = tld) ∧ (Unfollowable C view l t ∨
    ∃ r, Keeps C view label tld l t r ∧ ∃ block, Under H disk r block ∧ Unreadable H disk block)) → disk' = disk

/-- A name that cannot be followed is taken for one without a record. -/
def Silent (C : Crypto) (view : View) (label tld : String) : Prop :=
  ∃ l t, ¬ (l = label ∧ t = tld) ∧ Unfollowable C view l t ∧
    ∃ detail, view.resolvedRoot C l t = .error detail ∧ saysNoRecord detail = true

/-- Something else stops the unpin. -/
def Halts (C : Crypto) (H : ContentHash) (view : View) (disk : Disk) (label tld : String) (root : Cid) : Prop :=
  (∃ block, Under H disk root block ∧ Unreadable H disk block) ∨ (∃ detail, view.allNames C = .error detail) ∨
    ∃ l t, ¬ (l = label ∧ t = tld) ∧ view.chain C l t ≠ [] ∧ Blocks C H view disk l t

/-- Another name has the withdrawn root under its own. -/
def Shared (C : Crypto) (H : ContentHash) (view : View) (disk : Disk) (label tld : String) (root : Cid) : Prop :=
  ∃ l t r, ¬ (l = label ∧ t = tld) ∧ view.resolvedRoot C l t = .ok r ∧ Under H disk r root

/-- A root is resolved where the pointer is content. -/
theorem resolvedRoot_eq_ok : view.resolvedRoot C l t = .ok root ↔ view.resolvedPointer C l t = .ok (.cid root) := by
  unfold resolvedRoot
  cases view.resolvedPointer C l t with
  | error e => simp
  | ok pointer =>
    rcases pointer with cid | target
    · simp
    · simp

theorem chain_ne_nil_of_pointer {pointer : Pointer} (h : view.resolvedPointer C l t = .ok pointer) :
    view.chain C l t ≠ [] := by
  intro hnil
  simp [resolvedPointer, hnil] at h

/-- A kept root is that of another name. -/
theorem Keeps.exists_root {r : Cid} (h : Keeps C view label tld l t r) : ∃ l' t', ¬ (l' = label ∧ t' = tld) ∧
    view.resolvedRoot C l' t' = .ok r ∧ view.chain C l' t' ≠ [] := by
  induction h with
  | content hother h => exact ⟨_, _, hother, resolvedRoot_eq_ok.2 h, chain_ne_nil_of_pointer h⟩
  | through _ _ _ ih => exact ih

theorem Unfollowable.chain_ne_nil (h : Unfollowable C view l t) : view.chain C l t ≠ [] := by
  cases h with
  | ipns hchain _ => rw [hchain]; exact List.cons_ne_nil _ _
  | malformed hchain _ _ => rw [hchain]; exact List.cons_ne_nil _ _

/-- A name that cannot be followed is refused. -/
theorem Unfollowable.refused (h : Unfollowable C view l t) : ∃ detail, view.resolvedRoot C l t = .error detail := by
  cases hroot : view.resolvedRoot C l t with
  | error detail => exact ⟨detail, rfl⟩
  | ok r =>
    rw [resolvedRoot_eq_ok, resolvedPointer] at hroot
    cases h with
    | ipns hchain hselected => simp [hchain, pointerOf, hselected] at hroot
    | malformed hchain hselected hbad => simp [hchain, pointerOf, hselected, hbad] at hroot

/-- Where nothing is removed the other names are whole. -/
theorem careful_refl : Careful C H view label tld root disk disk :=
  ⟨fun _ h => absurd rfl h, fun _ => rfl⟩

/-- **When the unpin leaves the other names whole**: unless a name that cannot be followed is passed over, and nothing
else stops the unpin, and the root is not shared. -/
theorem unpin_careful_iff {outcome : Outcome} (hroot : root.Admitted)
    (h : unpin C H view disk label tld fuel root = some (outcome, disk')) :
    Careful C H view label tld root disk disk' ↔
      (Silent C view label tld → Halts C H view disk label tld root ∨ Shared C H view disk label tld root) := by
  unfold unpin at h
  cases hcollect : collectBlocks H disk .standard fuel root with
  | none => simp [hcollect] at h
  | some found =>
    cases found with
    | error e =>
      simp only [hcollect, Option.some.injEq, Prod.mk.injEq] at h
      rw [← h.2]
      exact iff_of_true careful_refl fun _ => Or.inl (Or.inl (collectBlocks_error hcollect))
    | ok treeBlocks =>
      obtain ⟨hunder, hreadable⟩ := collectBlocks_ok hroot hcollect
      simp only [hcollect] at h
      cases hnames : view.allNames C with
      | error detail =>
        simp only [hnames, Option.some.injEq, Prod.mk.injEq] at h
        rw [← h.2]
        exact iff_of_true careful_refl fun _ => Or.inl (Or.inr (Or.inl ⟨detail, hnames⟩))
      | ok names =>
        simp only [hnames] at h
        have hlisted : ∀ l t, Listed names label tld l t ↔ ¬ (l = label ∧ t = tld) ∧ view.chain C l t ≠ [] := by
          intro l t
          rw [Listed, allNames_spec hnames]
        cases hretain : retain C H view disk label tld fuel names [] with
        | none => simp [hretain] at h
        | some outcome =>
          cases outcome with
          | error reason =>
            simp only [hretain, Option.some.injEq, Prod.mk.injEq] at h
            rw [← h.2]
            obtain ⟨l, t, hl, hblocks⟩ := retain_error hretain
            obtain ⟨hother, hchain⟩ := (hlisted l t).1 hl
            exact iff_of_true careful_refl fun _ => Or.inl (Or.inr (Or.inr ⟨l, t, hother, hchain, hblocks⟩))
          | ok retained =>
            obtain ⟨hretained, hstops⟩ := retain_ok hretain
            simp only [hretain, Option.some.injEq, Prod.mk.injEq] at h
            have hdisk : ∀ n, disk' n = if n ∈ treeBlocks.map Cid.toText ∧ n ∉ retained then none else disk n := by
              intro n
              rw [← h.2, foldl_unpinBlock]
            -- what is retained is what other names reach
            have hkept : ∀ l t r block, ¬ (l = label ∧ t = tld) → view.resolvedRoot C l t = .ok r →
              Under H disk r block →
                block.toText ∈ retained := by
              intro l t r block hother hr hblock
              have hchain := chain_ne_nil_of_pointer (resolvedRoot_eq_ok.1 hr)
              exact (hretained _).2 (Or.inr ⟨l, t, (hlisted l t).2 ⟨hother, hchain⟩, r, hr, block, hblock, rfl⟩)
            have hhalts : ¬ Halts C H view disk label tld root := by
              rintro (⟨block, hblock, hbad⟩ | ⟨detail, hdetail⟩ | ⟨l, t, hother, hchain, hblocks⟩)
              · exact hreadable block hblock hbad
              · rw [hnames] at hdetail
                exact absurd hdetail (by simp)
              · exact hstops l t ((hlisted l t).2 ⟨hother, hchain⟩) hblocks
            have howned : ∀ text, disk' text ≠ disk text → disk' text = none ∧ ∃ block, block.toText = text ∧
                Under H disk root block ∧ ∀ l t r, Keeps C view label tld l t r → ¬ Under H disk r block := by
              intro text hchanged
              rw [hdisk] at hchanged ⊢
              split_ifs at hchanged ⊢ with hcase
              · obtain ⟨hmem, hnot⟩ := hcase
                obtain ⟨block, hblock, htext⟩ := List.mem_map.1 hmem
                refine ⟨rfl, block, htext, (hunder block).1 hblock, ?_⟩
                intro l t r hkeeps hreach
                obtain ⟨l', t', hother, hr, -⟩ := hkeeps.exists_root
                rw [← htext] at hnot
                exact hnot (hkept l' t' r block hother hr hreach)
              · exact absurd rfl hchanged
            -- an unfollowable name was passed over, as nothing stopped the unpin
            have hundetermined : (∃ l t, ¬ (l = label ∧ t = tld) ∧ (Unfollowable C view l t ∨
                ∃ r, Keeps C view label tld l t r ∧ ∃ block, Under H disk r block ∧ Unreadable H disk block)) ↔
                  Silent C view label tld := by
              constructor
              · rintro ⟨l, t, hother, hbad | ⟨r, hkeeps, hunreadable⟩⟩
                · obtain ⟨detail, hdetail⟩ := hbad.refused
                  refine ⟨l, t, hother, hbad, detail, hdetail, ?_⟩
                  by_contra hphrase
                  rw [Bool.not_eq_true] at hphrase
                  exact hstops l t ((hlisted l t).2 ⟨hother, hbad.chain_ne_nil⟩) (Or.inr ⟨detail, hdetail, hphrase⟩)
                · obtain ⟨l', t', hother', hr, hchain⟩ := hkeeps.exists_root
                  exact absurd (Or.inl ⟨r, hr, hunreadable⟩) (hstops l' t' ((hlisted l' t').2 ⟨hother', hchain⟩))
              · rintro ⟨l, t, hother, hbad, -⟩
                exact ⟨l, t, hother, Or.inl hbad⟩
            have hshared : disk' = disk ↔ Shared C H view disk label tld root := by
              constructor
              · intro hsame
                -- the file of the root was there
                have hfile : disk root.toText ≠ none := by
                  intro hnone
                  apply hreadable root Relation.ReflTransGen.refl
                  refine ⟨.notFound, ?_⟩
                  rw [readNode, BlockStore.get, hnone]
                have hroot' : root.toText ∈ retained := by
                  by_contra hnot
                  have hgone := hdisk root.toText
                  have hmem := List.mem_map_of_mem (f := Cid.toText) ((hunder root).2 Relation.ReflTransGen.refl)
                  rw [if_pos ⟨hmem, hnot⟩, hsame] at hgone
                  exact hfile hgone
                rcases (hretained _).1 hroot' with hnil | ⟨l, t, hl, r, hr, block, hblock, htext⟩
                · exact absurd hnil List.not_mem_nil
                · have heq := toText_injective (hblock.admitted (admitted_of_resolvedRoot hr)) hroot htext
                  rw [heq] at hblock
                  exact ⟨l, t, r, ((hlisted l t).1 hl).1, hr, hblock⟩
              · rintro ⟨l, t, r, hother, hr, hreach⟩
                funext n
                rw [hdisk, if_neg]
                rintro ⟨hmem, hnot⟩
                obtain ⟨block, hblock, rfl⟩ := List.mem_map.1 hmem
                exact hnot (hkept l t r block hother hr (hreach.trans ((hunder block).1 hblock)))
            constructor
            · intro hcareful hsilent
              exact Or.inr (hshared.1 (hcareful.cautious (hundetermined.2 hsilent)))
            · intro hsilent
              refine ⟨howned, ?_⟩
              intro hcase
              exact hshared.2 ((hsilent (hundetermined.1 hcase)).resolve_left hhalts)

/-- The root that is withdrawn is that of the name. -/
theorem withdraw_root {identity : Identity C} {now : ℕ} {withdrawn : View}
    (h : withdraw C view label tld identity now = .ok (withdrawn, root)) : root.Admitted := by
  unfold withdraw at h
  cases htip : view.chainTip C label tld with
  | error detail => simp [htip] at h
  | ok tip =>
    cases tip with
    | none => simp [htip] at h
    | some tip =>
      -- only the owner withdraws, and only what can be read and signed again
      simp only [htip] at h
      split_ifs at h with howner
      cases hroot : view.resolvedRoot C label tld with
      | error detail => simp [hroot] at h
      | ok found =>
        simp only [hroot] at h
        cases hpredecessor : Predecessor.fromBytes C tip.entry.bytes with
        | error e => simp [hpredecessor] at h
        | ok predecessor =>
          simp only [hpredecessor] at h
          cases hrecord : buildUpdate C identity predecessor label tld now [] with
          | error e => simp [hrecord] at h
          | ok record =>
            simp only [hrecord] at h
            cases hverdict : view.acceptVerdict C record now 0 with
            | error detail => simp [hverdict] at h
            | ok verdict =>
              cases verdict with
              | accept =>
                simp only [hverdict, Except.ok.injEq, Prod.mk.injEq] at h
                rw [← h.2]
                exact admitted_of_resolvedRoot hroot
              | reject code detail => simp [hverdict] at h
              | defer reason detail => simp [hverdict] at h

/-- **What a withdrawal takes from the store.** One that is refused takes nothing. Another leaves the other names
whole unless one of them that cannot be followed is passed over, with nothing else to stop the unpin and the root
not shared. -/
theorem unpublish_careful_iff {identity : Identity C} {now : ℕ} {outcome : Outcome} {after : View}
    (h : cmdUnpublish C H view disk label tld fuel identity now = some (outcome, after, disk')) :
    (∀ code, withdraw C view label tld identity now = .error code → after = view ∧ disk' = disk) ∧
      ∀ withdrawn root, withdraw C view label tld identity now = .ok (withdrawn, root) → after = withdrawn ∧
        (Careful C H after label tld root disk disk' ↔
          (Silent C after label tld → Halts C H after disk label tld root ∨ Shared C H after disk label tld root)) := by
  unfold cmdUnpublish at h
  refine ⟨?_, ?_⟩
  · intro code hcode
    simp only [hcode, Option.some.injEq, Prod.mk.injEq] at h
    exact ⟨h.2.1.symm, h.2.2.symm⟩
  · intro withdrawn root hwithdraw
    simp only [hwithdraw] at h
    obtain ⟨⟨outcome', disk''⟩, hunpin, heq⟩ := Option.map_eq_some_iff.1 h
    rw [Prod.mk.injEq, Prod.mk.injEq] at heq
    obtain ⟨-, rfl, rfl⟩ := heq
    exact ⟨rfl, unpin_careful_iff (withdraw_root hwithdraw) hunpin⟩

end

/-! ## A site of one block -/

namespace OneBlock

open Sample (literal)

/-- The content of the only block. -/
def content : Bytes := [0x68, 0x69]

/-- The CID of that block. -/
def rootCid : Cid :=
  { version := cidVersion, codec := codecRaw
    digest := ⟨literal 32 0x8f434346648f6b96df89dda901c5176b10a6d83961dd3c1ac88b59b2dc327aa4, by decide⟩ }

/-- SHA-256 on the block. -/
def hash : ContentHash where
  sha256 _ := rootCid.digest

/-- A disk that holds it. -/
def disk : Disk := fun name => if name = rootCid.toText then some content else none

/-- A registration with one entry. -/
def registration (label kind : String) (value : DetCbor.Value) (owner nonce sig : Bytes) : Bytes :=
  let entry : DetCbor.Value := .map [(.text "type", .text kind), (.text "value", value),
    (.text "ttl", .uint defaultTtl)]
  let members := skeleton "REGISTER" label "abacus" owner 0 1699913600 1731449600 (.array [entry]) (some (4, nonce))
    (List.replicate 32 0)
  ((encodeMap (members ++ [(.text "sig", .bytes sig)])).toOption).getD []

/-- The name that points at the block. -/
def lantern : Bytes :=
  registration "observatory-lantern" "cid" (.bytes rootCid.toBytes) Sample.ownerA (literal 16 0x0f)
    (literal 32 0x082afe70a9c8d02bcc3ebaa8a640a1aef86b730f08c2e57d2ee4e9e415149f52 ++
      literal 32 0x892985038c8c8e7594ce5030ecd38acad9445962a317491fca02a1d30e1c0c01)

/-- A name whose pointer cannot be followed, and reads like the message for a name without one. -/
def almanac : Bytes :=
  registration "harbour-almanac" "ipns" (.text "no record in") Sample.ownerC (literal 16 0x0e)
    (literal 32 0x65d9bfa776e0f234eacac426ffcfc18d0fdabc0a9acfc9c2113400a137512285 ++
      literal 32 0xe6b994175fa3f35c2cd79d1a920cad56244732be97c95c2a6ecc4cf916006f03)

/-- The hash of the first name's record. -/
def lanternHash : Bytes := literal 32 0x5f5790f00cd5c1c441c6f6ee97561f3fa1d371f645d8cc239f13b96b2c1f60dd

/-- The hash of the second name's record. -/
def almanacHash : Bytes := literal 32 0x6bfa255b928c6a87df96b58cf74384fdcdb9532421ae2efa50a9ffe8dc9f6366

/-- The hash of the withdrawal. -/
def withdrawalHash : Bytes := literal 32 0x126cef85fd225844f3866bc8f26e9816eed53c8e3357e3dc19106abec96a90b2

/-- The withdrawal of the pointer. -/
def members : Members :=
  skeleton "UPDATE" "observatory-lantern" "abacus" Sample.ownerA 1 1699913900 1731449600 (.array []) none lanternHash

/-- What is signed of the withdrawal. -/
def message : Bytes := ((encodeMap members).map fun core => signingInput core launchSuite).toOption.getD []

/-- The signature of the withdrawal. -/
def signature : Bytes :=
  literal 32 0xe213c58b5bc442a7833ab73df2016dcc3a0b6beb667186be5d57aab480a7a140 ++
    literal 32 0x398110bcf8fd1db20babf052a94ec2cec24915b13cdb6fd4da15f0b10b2a4707

/-- The encoding of the signed withdrawal. -/
def withdrawal : Bytes := (encodeMap (members ++ [(.text "sig", .bytes signature)])).toOption.getD []

/-- The primitives on these records. -/
def crypto : Crypto :=
  { Sample.crypto with
    ed25519Verify := fun signature' message' publicKey =>
      signature' = signature && message' = message && publicKey = Sample.ownerA
    blake2b := fun bytes =>
      if bytes = withDomain recordHashPrefix lantern [] then lanternHash
      else if bytes = withDomain recordHashPrefix almanac [] then almanacHash
      else if bytes = withDomain recordHashPrefix withdrawal [] then withdrawalHash
      else List.replicate 32 0
    length_blake2b := by
      intro bytes
      split_ifs <;> rfl }

theorem length_signature : signature.length = 64 := by decide +kernel

theorem verifies : verifySignature crypto Sample.ownerA message signature = true := by decide +kernel

/-- A key pair that signs the withdrawal. -/
def identity : Identity crypto where
  publicKey := Sample.ownerA
  sign message' := if message' = message then some signature else none
  length_publicKey := PublishFlow.OnePage.length_ownerA
  length_sign := by
    intro message' signature' h
    rw [Option.ite_none_right_eq_some, Option.some.injEq] at h
    rw [← h.2]
    exact length_signature
  sign_verifies := by
    intro message' signature' h
    rw [Option.ite_none_right_eq_some, Option.some.injEq] at h
    rw [h.1, ← h.2]
    exact verifies

/-- The view of both names. -/
def both : View := { files := [⟨lanternHash, lantern⟩, ⟨almanacHash, almanac⟩] }

/-- The same once the pointer is withdrawn. -/
def withdrawn : View := { files := both.files ++ [⟨withdrawalHash, withdrawal⟩] }

theorem run_both : withdraw crypto both "observatory-lantern" "abacus" identity 1699913900 = .ok (withdrawn, rootCid) ∧
    (unpin crypto hash withdrawn disk "observatory-lantern" "abacus" 4 rootCid).map
    (fun r => (r.1, r.2 rootCid.toText)) =
      some (.unpinned 1 0, none) ∧
    (View.chain crypto withdrawn "harbour-almanac" "abacus").map (fun c => selectedPointer c.entry.bytes) =
      [some (.ipns "no record in")] := by
  refine ⟨?_, ?_, ?_⟩
  · decide +kernel
  · decide +kernel
  · decide +kernel

theorem exists_run : ∃ disk', disk' rootCid.toText = none ∧ cmdUnpublish crypto hash both disk "observatory-lantern"
    "abacus" 4 identity 1699913900 = some (.unpinned 1 0, withdrawn, disk') := by
  obtain ⟨hwithdraw, hunpin, -⟩ := run_both
  obtain ⟨⟨outcome, disk'⟩, hunpin, heq⟩ := Option.map_eq_some_iff.1 hunpin
  rw [Prod.mk.injEq] at heq
  refine ⟨disk', heq.2, ?_⟩
  rw [cmdUnpublish, hwithdraw]
  dsimp only
  rw [hunpin, Option.map_some, heq.1]

end OneBlock

open OneBlock

theorem unpublish_careful_iff_block : ∃ disk', cmdUnpublish crypto hash both disk "observatory-lantern" "abacus" 4
    identity 1699913900 = some (.unpinned 1 0, withdrawn, disk') ∧
      (Careful crypto hash withdrawn "observatory-lantern" "abacus" rootCid disk disk' ↔
        (Silent crypto withdrawn "observatory-lantern" "abacus" →
          Halts crypto hash withdrawn disk "observatory-lantern" "abacus" rootCid ∨
            Shared crypto hash withdrawn disk "observatory-lantern" "abacus" rootCid)) := by
  obtain ⟨disk', -, hrun⟩ := exists_run
  exact ⟨disk', hrun, ((unpublish_careful_iff hrun).2 _ _ run_both.1).2⟩

/-- A pointer that cannot be followed is taken for none, and the block goes all the same. -/
theorem ipns_passed_over : ¬ ∀ (C : Crypto) (H : ContentHash) (view after : View) (disk disk' : Disk)
    (label tld : String)
    (fuel now : ℕ) (identity : Identity C) (outcome : Outcome) (root : Cid),
    cmdUnpublish C H view disk label tld fuel identity now = some (outcome, after, disk') →
      withdraw C view label tld identity now = .ok (after, root) → Careful C H after label tld root disk disk' := by
  intro h
  obtain ⟨disk', hgone, hrun⟩ := exists_run
  obtain ⟨hwithdraw, -, hselected⟩ := run_both
  have hcareful := h _ _ _ _ _ _ _ _ _ _ _ _ _ hrun hwithdraw
  have hfollow : Unfollowable crypto withdrawn "harbour-almanac" "abacus" := by
    cases hchain : View.chain crypto withdrawn "harbour-almanac" "abacus" with
    | nil => rw [hchain] at hselected; exact absurd hselected (by simp)
    | cons tip below =>
      rw [hchain, List.map_cons, List.cons.injEq] at hselected
      exact .ipns hchain hselected.1
  have hsame := hcareful.cautious ⟨"harbour-almanac", "abacus", by decide, Or.inl hfollow⟩
  rw [hsame] at hgone
  exact absurd hgone (by simp [disk])

end VayuWeb.Client.Unpublish
