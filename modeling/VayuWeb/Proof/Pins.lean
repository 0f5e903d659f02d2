import VayuWeb.Client.Pins

/-!
# A report counts who was seen

The loop over the observations and the loop over the holders come to a `census` of the fresh observations: how many
distinct peers and services are among them, however often one answered (`report_census`). The client's report is a
census too, of what it takes for fresh, and the two differ only where the clock has not passed the window yet
(`reports_agree_iff`). What a `PinSet` has taken it has until it is asked to release it (`pinned_iff_taken`).
-/

namespace VayuWeb.Pins

open Sightings (Newest newest newest_spec)

/-! ## Holders are told apart by their identity -/

/-- The characters of an identity. -/
def Holder.tagged : Holder → List Char
  | .self => ['s', 'e', 'l', 'f']
  | .peer id => 'p' :: 'e' :: 'e' :: 'r' :: ':' :: id.toList
  | .service name => 's' :: 'e' :: 'r' :: 'v' :: 'i' :: 'c' :: 'e' :: ':' :: name.toList

theorem toList_identity (holder : Holder) : (identity holder).toList = holder.tagged := by
  cases holder with
  | self => rfl
  | peer id => exact String.toList_append
  | service name => exact String.toList_append

/-- Two holders never share an identity. -/
theorem identity_injective : Function.Injective identity := by
  intro a b h
  have htagged : a.tagged = b.tagged := by rw [← toList_identity, h, toList_identity]
  cases a <;> cases b <;> simp [Holder.tagged] at htagged ⊢ <;> exact String.toList_inj.1 htagged

/-- The peer a holder is, if it is one. -/
def Holder.peer? : Holder → Option String
  | .peer id => some id
  | _ => none

/-- The service a holder is, if it is one. -/
def Holder.service? : Holder → Option String
  | .service name => some name
  | _ => none

/-- The peer an observation is about. -/
def Observation.peer? (o : Observation) : Option String := o.holder.peer?

/-- The service an observation is about. -/
def Observation.service? (o : Observation) : Option String := o.holder.service?

theorem holder_of_peer? {holder : Holder} {id : String} (h : holder.peer? = some id) : holder = .peer id := by
  cases holder with
  | peer _ => exact congrArg Holder.peer (Option.some.inj h)
  | self => cases h
  | service _ => cases h

theorem holder_of_service? {holder : Holder} {name : String} (h : holder.service? = some name) :
    holder = .service name := by
  cases holder with
  | service _ => exact congrArg Holder.service (Option.some.inj h)
  | self => cases h
  | peer _ => cases h

/-! ## The census -/

/-- What there is to say of these sightings: each holder once. -/
def census (cid : String) (asked : ℕ) (sightings : List Observation) : AvailabilityReport where
  cid := cid
  asked := asked
  answered := (sightings.map Observation.holder).toFinset.card
  peersHolding := (sightings.filterMap Observation.peer?).toFinset.card
  servicesHolding := (sightings.filterMap Observation.service?).toFinset.card
  selfPinned := sightings.any fun o => o.holder = .self
  observedAt := (sightings.map Observation.observedAt).max?
  availabilityUnguaranteed := true

/-- The counts of a list of holders, one sighting each. -/
def countsOf (vs : List Observation) : Counts where
  peersHolding := (vs.filterMap Observation.peer?).length
  servicesHolding := (vs.filterMap Observation.service?).length
  selfPinned := vs.any fun o => o.holder = .self
  observedAt := (vs.map Observation.observedAt).max?

/-- The newer of a time and of what was newest before. -/
def newer (at_ : Option ℕ) (x : ℕ) : ℕ :=
  match at_ with
  | none => x
  | some top => if x > top then x else top

theorem max?_concat (xs : List ℕ) (x : ℕ) : (xs ++ [x]).max? = some (newer xs.max? x) := by
  cases xs with
  | nil => rfl
  | cons y xs =>
    rw [List.cons_append, List.max?_cons', List.max?_cons', List.foldl_append, List.foldl_cons, List.foldl_nil]
    unfold newer
    dsimp only
    split_ifs with h
    · rw [max_eq_right h.le]
    · rw [max_eq_left (Nat.not_lt.1 h)]

/-- Taking observations one by one is counting them. -/
theorem foldl_take (vs : List Observation) : vs.foldl Counts.take .zero = countsOf vs := by
  induction vs using List.reverseRecOn with
  | nil => rfl
  | append_singleton vs o ih =>
    have hmax := max?_concat (vs.map Observation.observedAt) o.observedAt
    rw [List.foldl_append, List.foldl_cons, List.foldl_nil, ih]
    unfold countsOf Counts.take
    rw [List.map_append, List.map_singleton, hmax]
    cases hh : o.holder <;> simp [List.filterMap_append, Observation.peer?, Observation.service?, Holder.peer?,
      Holder.service?, hh] <;> rfl

/-- The report that is made of the sightings that are kept. -/
def tally (cid : String) (asked : ℕ) (vs : List Observation) : AvailabilityReport where
  cid := cid
  asked := asked
  answered := vs.length
  peersHolding := (countsOf vs).peersHolding
  servicesHolding := (countsOf vs).servicesHolding
  selfPinned := (countsOf vs).selfPinned
  observedAt := (countsOf vs).observedAt
  availabilityUnguaranteed := true

section
variable {xs ys vs : List Observation}

/-- What the loops keep is the newest sighting of each holder. -/
abbrev NewestOf (xs vs : List Observation) : Prop := Newest (fun o => identity o.holder) Observation.observedAt xs vs

/-- The newest observations are the newest of each holder. -/
theorem newestOf_newest (xs : List Observation) :
    NewestOf xs ((newest (fun o => identity o.holder) Observation.observedAt xs).map Prod.snd) :=
  newest_spec xs

/-- A census of a part that has each holder, as late as he is seen, is the census of the whole. -/
theorem census_of_covers (cid : String) (asked : ℕ) (hsub : ∀ y ∈ ys, y ∈ xs)
    (hcover : ∀ x ∈ xs, ∃ y ∈ ys, y.holder = x.holder ∧ x.observedAt ≤ y.observedAt) :
    census cid asked ys = census cid asked xs := by
  -- a pick from the holders does not depend on how often a holder was seen
  have hpicked {β : Type} [DecidableEq β] (pick : Holder → Option β) :
      (ys.filterMap fun o => pick o.holder).toFinset = (xs.filterMap fun o => pick o.holder).toFinset := by
    ext b
    rw [List.mem_toFinset, List.mem_toFinset, List.mem_filterMap, List.mem_filterMap]
    constructor
    · rintro ⟨y, hy, hb⟩
      exact ⟨y, hsub y hy, hb⟩
    · rintro ⟨x, hx, hb⟩
      obtain ⟨y, hy, hholder, -⟩ := hcover x hx
      exact ⟨y, hy, by rw [hholder]; exact hb⟩
  have hholders : (ys.map Observation.holder).toFinset = (xs.map Observation.holder).toFinset := by
    have hall := hpicked some
    have hmap (zs : List Observation) : (zs.filterMap fun o => some o.holder) = zs.map Observation.holder :=
      congrFun List.filterMap_eq_map zs
    rw [hmap, hmap] at hall
    exact hall
  have hpeers : (ys.filterMap Observation.peer?).toFinset = (xs.filterMap Observation.peer?).toFinset :=
    hpicked Holder.peer?
  have hservices : (ys.filterMap Observation.service?).toFinset = (xs.filterMap Observation.service?).toFinset :=
    hpicked Holder.service?
  have hself : (ys.any fun o => o.holder = .self) = xs.any fun o => o.holder = .self := by
    rw [Bool.eq_iff_iff, List.any_eq_true, List.any_eq_true]
    constructor
    · rintro ⟨y, hy, heq⟩
      exact ⟨y, hsub y hy, heq⟩
    · rintro ⟨x, hx, heq⟩
      obtain ⟨y, hy, hholder, -⟩ := hcover x hx
      exact ⟨y, hy, by rw [hholder]; exact heq⟩
  have hnewest : (ys.map Observation.observedAt).max? = (xs.map Observation.observedAt).max? := by
    apply Sightings.max?_eq_of_covers hsub
    intro x hx
    obtain ⟨y, hy, -, hle⟩ := hcover x hx
    exact ⟨y, hy, hle⟩
  unfold census
  rw [hholders, hpeers, hservices, hself, hnewest]

/-- A tally over the newest observations is the census. -/
theorem tally_eq (cid : String) (asked : ℕ) (h : NewestOf xs vs) : tally cid asked vs = census cid asked xs := by
  have hpicked {β : Type} (pick : Holder → Option β) (hpick : ∀ a b x, pick a = some x → pick b = some x → a = b) :
      (vs.filterMap fun o => pick o.holder).Nodup :=
    Sightings.nodup_filterMap h.nodup _ fun v w b hv hw => congrArg identity (hpick _ _ b hv hw)
  have hpeers : (vs.filterMap Observation.peer?).Nodup :=
    hpicked Holder.peer? fun a b x ha hb => by rw [holder_of_peer? ha, holder_of_peer? hb]
  have hservices : (vs.filterMap Observation.service?).Nodup :=
    hpicked Holder.service? fun a b x ha hb => by rw [holder_of_service? ha, holder_of_service? hb]
  have hholders : (vs.map Observation.holder).Nodup := by
    apply List.Nodup.of_map identity
    rw [List.map_map]
    exact h.nodup
  have hkept : tally cid asked vs = census cid asked vs := by
    unfold tally census countsOf
    rw [List.toFinset_card_of_nodup hpeers, List.toFinset_card_of_nodup hservices,
      List.toFinset_card_of_nodup hholders, List.length_map]
  rw [hkept]
  apply census_of_covers cid asked h.sighted
  intro x hx
  obtain ⟨v, hv, hkey, hle⟩ := h.all x hx
  exact ⟨v, hv, identity_injective hkey, hle⟩

/-- Each holder is this node, a peer or a service, and this node is counted once. -/
theorem length_eq_counts (h : NewestOf xs vs) :
    vs.length = (countsOf vs).peersHolding + (countsOf vs).servicesHolding +
      if (countsOf vs).selfPinned then 1 else 0 := by
  have hnodup := h.nodup
  clear h
  induction vs with
  | nil => rfl
  | cons v vs ih =>
    rw [List.map_cons, List.nodup_cons] at hnodup
    obtain ⟨hfirst, hrest⟩ := hnodup
    have hlength := ih hrest
    unfold countsOf at hlength ⊢
    dsimp only at hlength ⊢
    rw [List.length_cons, List.any_cons]
    cases hh : v.holder with
    | peer id =>
      have hpeer : v.peer? = some id := by unfold Observation.peer?; rw [hh]; rfl
      have hservice : v.service? = none := by unfold Observation.service?; rw [hh]; rfl
      rw [List.filterMap_cons_some hpeer, List.filterMap_cons_none hservice, List.length_cons, hlength]
      simp only [reduceCtorEq, decide_false, Bool.false_or]
      omega
    | service name =>
      have hpeer : v.peer? = none := by unfold Observation.peer?; rw [hh]; rfl
      have hservice : v.service? = some name := by unfold Observation.service?; rw [hh]; rfl
      rw [List.filterMap_cons_none hpeer, List.filterMap_cons_some hservice, List.length_cons, hlength]
      simp only [reduceCtorEq, decide_false, Bool.false_or]
      omega
    | self =>
      have hpeer : v.peer? = none := by unfold Observation.peer?; rw [hh]; rfl
      have hservice : v.service? = none := by unfold Observation.service?; rw [hh]; rfl
      -- no other sighting is of this node
      have hnone : (vs.any fun o => o.holder = .self) = false := by
        rw [List.any_eq_false]
        intro o ho heq
        apply hfirst
        rw [List.mem_map]
        exact ⟨o, ho, by rw [of_decide_eq_true heq, hh]⟩
      rw [hnone] at hlength ⊢
      rw [List.filterMap_cons_none hpeer, List.filterMap_cons_none hservice, hlength]
      simp only [decide_true, Bool.or_false, if_true, Bool.false_eq_true, if_false]

end

/-! ## The registry's report -/

/-- **A report is a census** of what is fresh. -/
theorem report_eq (cid : String) (asked : ℤ) (observations : List Observation) (staleAfter now : ℕ) :
    report cid asked observations staleAfter now =
      if asked < 0 ∨ asked > maxSafeInteger then
        .error ⟨"the number of peers asked must be a non-negative integer"⟩
      else if observations.length > asked + 1 then
        .error ⟨s!"{observations.length} observations from {asked} peers asked — the denominator is wrong"⟩
      else .ok (census cid asked.toNat (fresh observations staleAfter now)) := by
  have htally := tally_eq cid asked.toNat (newestOf_newest (fresh observations staleAfter now))
  unfold report
  dsimp only
  rw [foldl_take, ← htally]
  unfold tally
  rw [List.length_map]

/-- Of a census each holder is this node, a peer or a service. -/
theorem census_adds_up (cid : String) (asked : ℕ) (sightings : List Observation) :
    let r := census cid asked sightings
    r.answered = r.peersHolding + r.servicesHolding + (if r.selfPinned then 1 else 0) ∧
      r.answered ≤ sightings.length := by
  have hnewest := newestOf_newest sightings
  have htally := tally_eq cid asked hnewest
  have hadds := length_eq_counts hnewest
  refine ⟨?_, ?_⟩
  · rw [← htally]
    exact hadds
  · have hle := List.toFinset_card_le (sightings.map Observation.holder)
    rw [List.length_map] at hle
    exact hle

/-- **A report is a census** of what is fresh: each holder once, the counts add up, and no more answered than were
asked, and this node. -/
theorem report_counts_holders (cid : String) (asked : ℤ) (observations : List Observation) (staleAfter now : ℕ)
    (r : AvailabilityReport) :
    report cid asked observations staleAfter now = .ok r ↔
      (0 ≤ asked ∧ asked ≤ maxSafeInteger ∧ observations.length ≤ asked + 1) ∧
        r = census cid asked.toNat (fresh observations staleAfter now) ∧
        r.answered = r.peersHolding + r.servicesHolding + (if r.selfPinned then 1 else 0) ∧
        r.answered ≤ r.asked + 1 := by
  obtain ⟨hadds, hfew⟩ := census_adds_up cid asked.toNat (fresh observations staleAfter now)
  have hfresh : (fresh observations staleAfter now).length ≤ observations.length := List.length_filter_le _ _
  rw [report_eq]
  constructor
  · intro h
    split_ifs at h with hcount hmany
    have heq := Except.ok.inj h
    subst heq
    refine ⟨⟨by omega, by omega, by omega⟩, rfl, hadds, ?_⟩
    have hasked : (census cid asked.toNat (fresh observations staleAfter now)).asked = asked.toNat := rfl
    rw [hasked]
    omega
  · rintro ⟨⟨hlow, hhigh, hfits⟩, heq, -, -⟩
    rw [if_neg (by omega), if_neg (by omega), heq]

/-! ## The client's report -/

/-- What the client takes for fresh. -/
def clientFresh (observations : List Observation) (staleAfter now : ℕ) : List Observation :=
  observations.filter fun o => now - staleAfter < o.observedAt

/-- The client keeps the newest of the fresh observations. -/
theorem client_seen (observations : List Observation) (staleAfter now : ℕ) :
    observations.foldl (Client.Pins.take staleAfter now) [] =
      newest (fun o => identity o.holder) Observation.observedAt (clientFresh observations staleAfter now) := by
  unfold newest clientFresh
  rw [List.foldl_filter]
  congr 1
  funext seen o
  unfold Client.Pins.take Sightings.keep
  have hidentity : Client.Pins.identity o.holder = identity o.holder := by cases o.holder <;> rfl
  rw [hidentity]
  by_cases hstale : o.observedAt ≤ now - staleAfter
  · rw [if_pos hstale, if_neg (by simpa using hstale)]
  · rw [if_neg hstale, if_pos (by simpa using hstale)]
    dsimp only
    cases seen.get? (identity o.holder) with
    | none => rfl
    | some held =>
      dsimp only
      by_cases hnewer : o.observedAt > held.observedAt
      · rw [if_neg (by omega), if_pos hnewer]
      · rw [if_pos (by omega), if_neg hnewer]

theorem client_count : Client.Pins.count = Counts.take := by
  funext counts o
  obtain ⟨peers, services, self, at_⟩ := counts
  have hmax (held : ℕ) : max held o.observedAt = if o.observedAt > held then o.observedAt else held := by
    split_ifs with h
    · exact max_eq_right h.le
    · exact max_eq_left (Nat.not_lt.1 h)
  unfold Client.Pins.count Counts.take
  cases o.holder <;> cases at_ <;> dsimp only <;> rw [hmax]

/-- What the client reports. -/
theorem client_report_eq (cid : String) (asked : ℕ) (observations : List Observation) (staleAfter now : ℕ) :
    Client.Pins.report cid asked observations staleAfter now =
      if observations.length > min (asked + 1) (2 ^ 64 - 1) then .error (.denominatorWrong observations.length asked)
      else .ok (census cid asked (clientFresh observations staleAfter now)) := by
  have htally := tally_eq cid asked (newestOf_newest (clientFresh observations staleAfter now))
  unfold Client.Pins.report
  dsimp only
  rw [client_seen, client_count, foldl_take, ← htally]
  unfold tally
  rw [List.length_map]

/-! ## The two reports -/

section
variable {cid : String} {asked staleAfter now : ℕ} {observations : List Observation}

/-- A holder that is seen at the start of the clock is seen later too. -/
def SeenLater (observations : List Observation) : Prop :=
  ∀ o ∈ observations, o.observedAt = 0 → ∃ o' ∈ observations, o'.holder = o.holder ∧ 0 < o'.observedAt

/-- Once the clock is past the window both programs keep the same observations. -/
theorem fresh_eq_clientFresh (h : staleAfter ≤ now) :
    fresh observations staleAfter now = clientFresh observations staleAfter now := by
  unfold fresh clientFresh
  apply List.filter_congr
  intro o _
  rw [decide_eq_decide]
  omega

/-- Before the clock has passed the window all is fresh to the registry. -/
theorem fresh_of_lt (h : now < staleAfter) : fresh observations staleAfter now = observations := by
  unfold fresh
  rw [List.filter_eq_self]
  intro o _
  rw [decide_eq_true_eq]
  omega

/-- Before that the client keeps every observation but those at zero. -/
theorem mem_clientFresh (h : now < staleAfter) {o : Observation} :
    o ∈ clientFresh observations staleAfter now ↔ o ∈ observations ∧ 0 < o.observedAt := by
  unfold clientFresh
  rw [List.mem_filter, decide_eq_true_eq, Nat.sub_eq_zero_of_le h.le]

/-- Before the clock has passed the window the two censuses are one where no holder is seen at its start only. -/
theorem census_eq_iff (h : now < staleAfter) :
    census cid asked (clientFresh observations staleAfter now) = census cid asked observations ↔
      SeenLater observations := by
  constructor
  · intro heq o ho hzero
    -- the client has counted as many holders, of some of the observations, so it has counted the same
    have hsub : ((clientFresh observations staleAfter now).map Observation.holder).toFinset ⊆
        (observations.map Observation.holder).toFinset := by
      intro holder hholder
      rw [List.mem_toFinset] at hholder ⊢
      obtain ⟨o', ho', rfl⟩ := List.mem_map.1 hholder
      exact List.mem_map_of_mem ((mem_clientFresh h).1 ho').1
    have hcard := congrArg AvailabilityReport.answered heq
    have hsame := Finset.eq_of_subset_of_card_le hsub hcard.ge
    have hmem : o.holder ∈ (observations.map Observation.holder).toFinset := by
      rw [List.mem_toFinset]
      exact List.mem_map_of_mem ho
    rw [← hsame, List.mem_toFinset] at hmem
    obtain ⟨o', ho', hholder⟩ := List.mem_map.1 hmem
    obtain ⟨hin, hlater⟩ := (mem_clientFresh h).1 ho'
    exact ⟨o', hin, hholder, hlater⟩
  · intro hseen
    apply census_of_covers cid asked fun o ho => ((mem_clientFresh h).1 ho).1
    intro o ho
    by_cases hzero : o.observedAt = 0
    · obtain ⟨o', hin, hholder, hlater⟩ := hseen o ho hzero
      exact ⟨o', (mem_clientFresh h).2 ⟨hin, hlater⟩, hholder, by omega⟩
    · exact ⟨o, (mem_clientFresh h).2 ⟨ho, by omega⟩, rfl, le_rfl⟩

end

/-- Of a report that has nothing to say there is no other branch. -/
theorem partsOf_eq_nil_iff (r : AvailabilityReport) :
    partsOf r = [] ↔ r.selfPinned = false ∧ r.peersHolding = 0 ∧ r.servicesHolding = 0 := by
  unfold partsOf
  rw [List.append_eq_nil_iff, List.append_eq_nil_iff]
  cases r.selfPinned <;> simp [Nat.pos_iff_ne_zero]

/-- Both programs sum a report up alike. -/
theorem summarise_eq (r : AvailabilityReport) : Client.Pins.summarise r = summarise r := by
  have hparts : Client.Pins.partsOf r = partsOf r := rfl
  have honly : Client.Pins.onlyThisNodeHoldsIt r = onlyThisNodeHoldsIt r := rfl
  have htail : (" peers asked answered for it — if this node goes " : String) ++
      "offline the site stops loading. Observed, not guaranteed." =
      " peers asked answered for it — if this node " ++
        "goes offline the site stops loading. Observed, not guaranteed." := by
    decide +kernel
  unfold Client.Pins.summarise summarise
  rw [hparts, honly]
  by_cases hnil : partsOf r = []
  · rw [if_pos hnil, if_pos (List.length_eq_zero_iff.2 hnil)]
  · have hlength : ¬ (partsOf r).length = 0 := fun h => hnil (List.length_eq_zero_iff.1 h)
    have hsome : ¬ (¬ r.selfPinned ∧ r.peersHolding = 0 ∧ r.servicesHolding = 0) := by
      rw [partsOf_eq_nil_iff] at hnil
      rw [Bool.not_eq_true]
      exact hnil
    rw [if_neg hnil, if_neg hlength, if_neg hsome]
    by_cases hself : onlyThisNodeHoldsIt r
    · rw [if_pos hself, if_pos hself]
      by_cases hasked : r.asked = 0
      · rw [if_pos hasked, if_pos hasked]
      · rw [if_neg hasked, if_neg hasked]
        exact String.append_assoc.trans ((congrArg _ htail).trans String.append_assoc.symm)
    · rw [if_neg hself, if_neg hself]

/-- The two refusals end in different words. -/
theorem display_ne (observations asked : ℕ) :
    (Client.Pins.PinError.denominatorWrong observations asked).display ≠
      "the number of peers asked must be a non-negative integer" := by
  intro heq
  have hlast := congrArg (fun text => text.toList.getLast?) heq
  unfold Client.Pins.PinError.display at hlast
  dsimp only at hlast
  rw [String.toList_append, List.getLast?_append_of_ne_nil _ (by decide)] at hlast
  exact absurd hlast (by decide)

/-- **The two reports agree**, refusals and their texts included, where what was asked is a count that both can take,
unless the clock has not passed the window yet and some holder was seen at its start only. Of one report both say the
same. -/
theorem reports_agree_iff (cid : String) (asked : ℕ) (observations : List Observation) (staleAfter now : ℕ) :
    ((Client.Pins.report cid asked observations staleAfter now).mapError Client.Pins.PinError.display =
        (report cid asked observations staleAfter now).mapError PinError.message ↔
      asked ≤ maxSafeInteger ∧ (asked + 1 < observations.length ∨ staleAfter ≤ now ∨ SeenLater observations)) ∧
    ∀ r, Client.Pins.summarise r = summarise r := by
  refine ⟨?_, summarise_eq⟩
  rw [report_eq, client_report_eq]
  -- the TypeScript refuses an `asked` that is not a safe integer, the Rust takes it
  by_cases hasked : asked ≤ maxSafeInteger
  · have hcount : ¬ ((asked : ℤ) < 0 ∨ (asked : ℤ) > maxSafeInteger) := by omega
    have hbound : asked + 1 < 2 ^ 64 - 1 := by
      unfold maxSafeInteger at hasked
      omega
    rw [if_neg hcount, min_eq_left hbound.le]
    by_cases hmany : asked + 1 < observations.length
    · rw [if_pos (by omega), if_pos (by omega)]
      exact iff_of_true rfl ⟨hasked, Or.inl hmany⟩
    · rw [if_neg (by omega), if_neg (by omega)]
      change Except.ok _ = Except.ok _ ↔ _
      rw [Except.ok.injEq, Int.toNat_natCast]
      -- the window reaches back before time 0, where the Rust stops at 0 and the TypeScript goes below
      by_cases hwindow : staleAfter ≤ now
      · rw [fresh_eq_clientFresh hwindow]
        exact iff_of_true rfl ⟨hasked, Or.inr (Or.inl hwindow)⟩
      · rw [fresh_of_lt (by omega), census_eq_iff (by omega)]
        constructor
        · intro hseen
          exact ⟨hasked, Or.inr (Or.inr hseen)⟩
        · rintro ⟨-, hlong | hpassed | hseen⟩
          · exact absurd hlong hmany
          · exact absurd hpassed hwindow
          · exact hseen
  · have hcount : (asked : ℤ) < 0 ∨ (asked : ℤ) > maxSafeInteger := by omega
    rw [if_pos hcount]
    apply iff_of_false
    · intro heq
      by_cases hmany : observations.length > min (asked + 1) (2 ^ 64 - 1)
      · rw [if_pos hmany] at heq
        exact display_ne _ _ (Except.error.inj heq)
      · rw [if_neg hmany] at heq
        cases heq
    · intro h
      exact hasked h.1

/-! ## Pins -/

namespace PinSet

variable {cap : ℕ} {pins : PinSet} {requests : List Request} {cid : String}

/-- A pin set after one more request. -/
theorem run_concat (cap : ℕ) (requests : List Request) (request : Request) :
    run cap (requests ++ [request]) = (run cap requests).step request := by
  unfold run
  rw [List.foldl_append]
  rfl

/-- Nothing is pinned twice, and no more than the cap. -/
structure Kept (cap : ℕ) (pins : PinSet) : Prop where
  cap_eq : pins.cap = cap
  nodup : pins.pinned.Nodup
  within : pins.pinned.length ≤ cap

/-- A request to pin takes the CID, which is new and held, where there is room, or leaves all as it is. -/
theorem add_cases (pins : PinSet) (cid : String) (holds : Bool) :
    (cid ∉ pins.pinned ∧ holds = true ∧ pins.pinned.length < pins.cap ∧
      pins.add cid holds = (.pinned, { pins with pinned := pins.pinned ++ [cid] })) ∨
    ((pins.add cid holds).1 ≠ .pinned ∧ (pins.add cid holds).2 = pins) := by
  unfold add has
  by_cases hhas : pins.pinned.contains cid = true
  · rw [if_pos hhas]
    exact Or.inr ⟨PinOutcome.noConfusion, rfl⟩
  · rw [if_neg hhas]
    by_cases hholds : holds = true
    · rw [if_neg (not_not_intro hholds)]
      by_cases hfull : pins.pinned.length ≥ pins.cap
      · rw [if_pos hfull]
        exact Or.inr ⟨PinOutcome.noConfusion, rfl⟩
      · rw [if_neg hfull]
        exact Or.inl ⟨fun hmem => hhas (List.contains_iff_mem.2 hmem), hholds, Nat.not_le.1 hfull, rfl⟩
    · rw [if_pos hholds]
      exact Or.inr ⟨PinOutcome.noConfusion, rfl⟩

/-- A request keeps the pin set within its cap. -/
theorem Kept.step (h : Kept cap pins) (request : Request) : Kept cap (pins.step request) := by
  cases request with
  | remove cid => exact ⟨h.cap_eq, h.nodup.erase cid, (List.length_erase_le).trans h.within⟩
  | add cid holds =>
    unfold PinSet.step
    dsimp only
    rcases add_cases pins cid holds with ⟨hnew, -, hroom, heq⟩ | ⟨-, heq⟩
    · have hcap := h.cap_eq
      rw [heq]
      refine ⟨hcap, ?_, ?_⟩
      · apply List.nodup_append.2 ⟨h.nodup, List.nodup_singleton _, ?_⟩
        intro a ha b hb hab
        rw [hab, List.mem_singleton.1 hb] at ha
        exact hnew ha
      · rw [List.length_append, List.length_singleton]
        omega
    · rw [heq]
      exact h

/-- The pin set is within its cap after every run. -/
theorem kept_run (cap : ℕ) (requests : List Request) : Kept cap (run cap requests) := by
  induction requests using List.reverseRecOn with
  | nil => exact ⟨rfl, List.nodup_nil, Nat.zero_le _⟩
  | append_singleton requests request ih =>
    rw [run_concat]
    exact ih.step request

theorem has_iff : pins.has cid = true ↔ cid ∈ pins.pinned := List.contains_iff_mem

/-- What was taken is there after a step, unless it is what the step releases. -/
theorem has_step (h : pins.has cid = true) {request : Request} (hrequest : request ≠ .remove cid) :
    (pins.step request).has cid = true := by
  rw [has_iff] at h ⊢
  cases request with
  | remove other =>
    have hne : cid ≠ other := fun heq => hrequest (by rw [heq])
    exact (List.mem_erase_of_ne hne).2 h
  | add other holds =>
    unfold step
    dsimp only
    rcases add_cases pins other holds with ⟨-, -, -, heq⟩ | ⟨-, heq⟩
    · rw [heq]
      exact List.mem_append_left _ h
    · rw [heq]
      exact h

/-- What is there after a step was there and was not released, or is what the step has taken. -/
theorem of_has_step (hkept : Kept cap pins) {request : Request} (h : (pins.step request).has cid = true) :
    pins.has cid = true ∧ request ≠ .remove cid ∨
      request = .add cid true ∧ (pins.add cid true).1 = .pinned := by
  rw [has_iff] at h ⊢
  cases request with
  | remove other =>
    have hmem := (List.Nodup.mem_erase_iff hkept.nodup).1 h
    refine Or.inl ⟨hmem.2, ?_⟩
    rintro ⟨⟩
    exact hmem.1 rfl
  | add other holds =>
    unfold step at h
    dsimp only at h
    by_cases hmem : cid ∈ pins.pinned
    · exact Or.inl ⟨hmem, by rintro ⟨⟩⟩
    · right
      rcases add_cases pins other holds with ⟨-, hholds, -, heq⟩ | ⟨-, heq⟩
      · rw [heq] at h
        have hother : cid = other := List.mem_singleton.1 ((List.mem_append.1 h).resolve_left hmem)
        subst hother hholds
        exact ⟨rfl, by rw [heq]⟩
      · rw [heq] at h
        exact absurd h hmem

/-- **What is pinned stays**: a pin set never holds one twice nor more than its cap, and a CID is in it when some
request took it and none since has released it. -/
theorem pinned_iff_taken (cap : ℕ) (requests : List Request) :
    (run cap requests).pinned.Nodup ∧ (run cap requests).pinned.length ≤ cap ∧
      ∀ cid, (run cap requests).has cid = true ↔
        ∃ before after, requests = before ++ .add cid true :: after ∧
          ((run cap before).add cid true).1 = .pinned ∧ .remove cid ∉ after := by
  have hkept := kept_run cap requests
  refine ⟨hkept.nodup, hkept.within, fun cid => ?_⟩
  clear hkept
  induction requests using List.reverseRecOn with
  | nil =>
    apply iff_of_false
    · exact Bool.false_ne_true
    · rintro ⟨before, after, heq, -, -⟩
      cases before <;> cases heq
  | append_singleton requests request ih =>
    rw [run_concat]
    constructor
    · intro h
      rcases of_has_step (kept_run cap requests) h with ⟨hhad, hother⟩ | ⟨hadd, htaken⟩
      · obtain ⟨before, after, heq, htaken, hafter⟩ := ih.1 hhad
        refine ⟨before, after ++ [request], by rw [heq]; simp, htaken, ?_⟩
        intro hmem
        rcases List.mem_append.1 hmem with hmem | hmem
        · exact hafter hmem
        · exact hother (List.mem_singleton.1 hmem).symm
      · exact ⟨requests, [], by rw [hadd], htaken, List.not_mem_nil⟩
    · rintro ⟨before, after, heq, htaken, hafter⟩
      rcases List.eq_nil_or_concat after with hnil | ⟨after', last, hlast⟩
      · -- it is the last one that took it
        rw [hnil] at heq
        obtain ⟨hbefore, hrequest⟩ := List.append_inj' heq rfl
        cases hrequest
        subst hbefore
        unfold step
        dsimp only
        rw [has_iff]
        rcases add_cases (run cap requests) cid true with ⟨-, -, -, heq⟩ | ⟨hnot, -⟩
        · rw [heq]
          exact List.mem_append_right _ (List.mem_singleton_self _)
        · exact absurd htaken hnot
      -- it was taken earlier, and the last request did not remove it
      · rw [List.concat_eq_append] at hlast
        rw [hlast, ← List.cons_append, ← List.append_assoc] at heq
        obtain ⟨hbefore, hrequest⟩ := List.append_inj' heq rfl
        cases hrequest
        rw [hlast, List.mem_append, not_or] at hafter
        have hhad := ih.2 ⟨before, after', hbefore, htaken, hafter.1⟩
        apply has_step hhad
        intro hremove
        exact hafter.2 (by rw [hremove]; exact List.mem_singleton_self _)

end PinSet

end VayuWeb.Pins
