import VayuWeb.Base.Pull

/-!
# Pulling from a peer that answers in order

A window with its traffic: the requests that the peer has not answered yet and the replies that have not arrived, each
in the order they were sent. Every request is answered, in turn and with one item at least, and no deadline passes.
After a reply the reader asks for all it may.

* `asks_spec`: what a reader asks for at once.
* `ok_answer`, `ok_deliver`: the item that is missing next is always on its way.
* `complete_of_quiet`: where nothing is on its way, nothing is missing.
* `left_deliver_lt`: every reply that arrives brings the end closer.
-/

namespace Pull

variable (slots batch deadline : ℕ)

/-- Ask until there is nothing to ask for, for at most `fuel` ranges. -/
def Window.asks (now : ℕ) : ℕ → Window → List (ℕ × ℕ) × Window
  | 0, w => ([], w)
  | fuel + 1, w =>
    match w.ask slots batch deadline now with
    | (none, w) => ([], w)
    | (some range, w) => (range :: (w.asks now fuel).1, (w.asks now fuel).2)

/-- There is nothing to ask for, or no slot to ask in. -/
def Window.Sated (w : Window) : Prop := slots ≤ w.outstanding.length ∨ w.length ≤ w.requested

/-- No request has passed its deadline. -/
def Window.Timely (w : Window) (now : ℕ) : Prop := ∀ at_ ∈ w.outstanding, now < at_ + deadline

variable {slots batch deadline} {w : Window} {now fuel : ℕ}

theorem expire_of_timely (h : w.Timely deadline now) : w.expire deadline now = w := by
  have hkept : w.outstanding.dropWhile (fun at_ => decide (at_ + deadline ≤ now)) = w.outstanding := by
    cases hout : w.outstanding with
    | nil => rfl
    | cons at_ rest =>
      have hlt := h at_ (by rw [hout]; exact List.mem_cons_self)
      rw [List.dropWhile_cons, if_neg]
      rw [decide_eq_true_eq]
      omega
  unfold Window.expire
  simp only [hkept]
  exact if_neg (lt_irrefl _)

/-- A sated window asks for nothing. -/
theorem ask_of_sated (h : w.Timely deadline now) (hsated : w.Sated slots) :
    w.ask slots batch deadline now = (none, w) := by
  unfold Window.ask
  simp only [expire_of_timely h]
  rcases hsated with hfull | hend
  · rw [if_pos hfull]
  · split_ifs
    · rfl
    · rfl

/-- A window that is not sated asks for the next batch. -/
theorem ask_of_not_sated (h : w.Timely deadline now) (hsated : ¬ w.Sated slots) :
    w.ask slots batch deadline now =
      (some (w.requested, min batch (w.length - w.requested)),
        { w with
          outstanding := w.outstanding ++ [now]
          requested := w.requested + min batch (w.length - w.requested) }) := by
  unfold Window.Sated at hsated
  unfold Window.ask
  simp only [expire_of_timely h]
  rw [if_neg (by omega), if_neg (by omega)]

/-- What asking in a row does to a window, and what it asks for. -/
structure Asked (slots batch now : ℕ) (w : Window) (ranges : List (ℕ × ℕ)) (after : Window) : Prop where
  length : after.length = w.length
  fetched : after.fetched = w.fetched
  requested : w.requested ≤ after.requested
  outstanding : after.outstanding = w.outstanding ++ List.replicate ranges.length now
  bounded : w.outstanding.length ≤ slots → after.outstanding.length ≤ slots
  sated : after.Sated slots
  each : ∀ r ∈ ranges, 0 < r.2 ∧ r.2 ≤ batch ∧ w.requested ≤ r.1 ∧ r.1 + r.2 ≤ w.length
  /-- The first range is the one the window was to ask for. -/
  first : w.outstanding.length < slots → w.requested < w.length → w.requested ∈ ranges.map Prod.fst
  nothing : w.Sated slots → ranges = []

/-- **What a reader asks for at once**, with fuel for a range in every free slot. -/
theorem asks_spec (hbatch : 0 < batch) (hdeadline : 0 < deadline) (h : w.Timely deadline now)
    (hfuel : slots < w.outstanding.length + fuel) :
    Asked slots batch now w (w.asks slots batch deadline now fuel).1 (w.asks slots batch deadline now fuel).2 := by
  induction fuel generalizing w with
  | zero =>
    have hfull : w.Sated slots := Or.inl (by omega)
    exact ⟨rfl, rfl, le_rfl, by simp [Window.asks], id, hfull, by simp [Window.asks], by omega, fun _ => rfl⟩
  | succ fuel ih =>
    by_cases hsated : w.Sated slots
    -- every slot is taken, or the last range is asked for: `ask` changes nothing
    · have hstop : w.asks slots batch deadline now (fuel + 1) = ([], w) := by
        rw [Window.asks, ask_of_sated h hsated]
      rw [hstop]
      refine ⟨rfl, rfl, le_rfl, by simp, id, hsated, by simp, ?_, fun _ => rfl⟩
      intro hfree hmissing
      unfold Window.Sated at hsated
      omega
    -- one range more is asked for, and the rest is the induction hypothesis of the window after it
    · have hask : w.ask slots batch deadline now = _ := ask_of_not_sated h hsated
      have hmissing : w.outstanding.length < slots ∧ w.requested < w.length := by
        unfold Window.Sated at hsated
        omega
      set count := min batch (w.length - w.requested) with hcount
      set next : Window :=
        { w with outstanding := w.outstanding ++ [now], requested := w.requested + count } with hnext
      have htimely : next.Timely deadline now := by
        intro at_ hat
        rcases List.mem_append.1 hat with hold | hnew
        · exact h at_ hold
        · rw [List.mem_singleton] at hnew
          omega
      have hlength : next.outstanding.length = w.outstanding.length + 1 := by
        rw [hnext]
        exact List.length_append
      have hrest := ih htimely (by omega)
      have hstep : w.asks slots batch deadline now (fuel + 1) =
          ((w.requested, count) :: (next.asks slots batch deadline now fuel).1,
            (next.asks slots batch deadline now fuel).2) := by
        rw [Window.asks, hask]
      rw [hstep]
      have hbound : 0 < count ∧ count ≤ batch ∧ w.requested + count ≤ w.length := by omega
      constructor
      case length => exact hrest.length
      case fetched => exact hrest.fetched
      case requested =>
        have hle := hrest.requested
        exact le_trans (Nat.le_add_right _ _) hle
      case outstanding =>
        have happend : next.outstanding = w.outstanding ++ [now] := rfl
        rw [hrest.outstanding, happend, List.length_cons, List.replicate_succ, List.append_assoc, List.singleton_append]
      case bounded =>
        intro _
        exact hrest.bounded (by omega)
      case sated => exact hrest.sated
      case each =>
        intro r hr
        rcases List.mem_cons.1 hr with rfl | hlater
        · exact ⟨hbound.1, hbound.2.1, le_rfl, hbound.2.2⟩
        · obtain ⟨hpos, hle, hfrom, hend⟩ := hrest.each r hlater
          have hrequested : next.requested = w.requested + count := rfl
          exact ⟨hpos, hle, by omega, hend⟩
      case first => exact fun _ _ => List.mem_cons_self
      case nothing => exact fun h => absurd h hsated

/-! ## Traffic -/

/-- A window with its requests and replies, each a start and a count. -/
structure Traffic where
  window : Window
  requests : List (ℕ × ℕ)
  replies : List (ℕ × ℕ)

/-- Where the answers to come start, in the order they will arrive. -/
def Traffic.flying (t : Traffic) : List ℕ := t.replies.map Prod.fst ++ t.requests.map Prod.fst

/-- The oldest request is answered with `n` items. -/
def Traffic.answer (t : Traffic) (n : ℕ) : Traffic :=
  match t.requests with
  | [] => t
  | r :: requests => { t with requests := requests, replies := t.replies ++ [(r.1, n)] }

variable (slots batch deadline) in
/-- The oldest reply arrives, and the reader asks for all it may. -/
def Traffic.deliver (t : Traffic) (now : ℕ) : Traffic :=
  match t.replies with
  | [] => t
  | r :: replies =>
    let asked := (t.window.deliver r.1 r.2).asks slots batch deadline now (slots + 1)
    { window := asked.2, requests := t.requests ++ asked.1, replies := replies }

/-- Every request in flight is matched, was made since `since`, and what is missing next is asked for. -/
structure Traffic.Ok (slots batch since : ℕ) (t : Traffic) : Prop where
  matched : t.window.outstanding.length = t.flying.length
  bounded : t.window.outstanding.length ≤ slots
  since : ∀ at_ ∈ t.window.outstanding, since ≤ at_
  ordered : t.window.Ordered
  asked : ∀ r ∈ t.requests, 0 < r.2 ∧ r.2 ≤ batch ∧ r.1 + r.2 ≤ t.window.length
  answered : ∀ r ∈ t.replies, 0 < r.2
  next : t.window.fetched < t.window.length → t.window.fetched ∈ t.flying
  sated : t.window.Sated slots

namespace Traffic

variable {t : Traffic} {since n : ℕ}

/-- An answer keeps the starts in their order. -/
@[simp] theorem flying_answer : (t.answer n).flying = t.flying := by
  unfold answer flying
  cases hreq : t.requests with
  | nil => simp [hreq]
  | cons r requests => simp

@[simp] theorem window_answer : (t.answer n).window = t.window := by
  unfold answer
  cases t.requests <;> rfl

/-- Answering keeps traffic in order. -/
theorem ok_answer (h : t.Ok slots batch since) (hn : 0 < n) : (t.answer n).Ok slots batch since := by
  have hrequests : ∀ r ∈ (t.answer n).requests, r ∈ t.requests := by
    unfold answer
    cases hreq : t.requests with
    | nil => simp [hreq]
    | cons r requests => exact fun _ hr => List.mem_cons_of_mem _ hr
  -- only the answer to the first request is new
  have hreplies : ∀ r ∈ (t.answer n).replies, r ∈ t.replies ∨ r.2 = n := by
    unfold answer
    cases t.requests with
    | nil => exact fun r hr => Or.inl hr
    | cons r requests =>
      intro r' hr'
      rcases List.mem_append.1 hr' with hold | hnew
      · exact Or.inl hold
      · rw [List.mem_singleton.1 hnew]
        exact Or.inr rfl
  constructor
  case matched => simpa using h.matched
  case bounded => simpa using h.bounded
  case since => simpa using h.since
  case ordered => simpa using h.ordered
  case asked => simpa using fun r hr => h.asked r (hrequests r hr)
  case answered =>
    intro r hr
    rcases hreplies r hr with hold | hnew
    · exact h.answered r hold
    · omega
  case next => simpa using h.next
  case sated => simpa using h.sated

variable (h : t.Ok slots batch since)

include h in
theorem timely (hnow : now < since + deadline) : t.window.Timely deadline now := by
  intro at_ hat
  have hsince := h.since at_ hat
  omega

/-- The window a reply leaves, before the reader asks. -/
def arrived (t : Traffic) (r : ℕ × ℕ) : Window := t.window.deliver r.1 r.2

/-- A reply takes the oldest request out. -/
theorem outstanding_arrived (r : ℕ × ℕ) : (t.arrived r).outstanding = t.window.outstanding.drop 1 := by
  unfold arrived Window.deliver
  split_ifs <;> rfl

variable {r : ℕ × ℕ} {replies : List (ℕ × ℕ)}

include h in
theorem length_outstanding_arrived (hreplies : t.replies = r :: replies) :
    (t.arrived r).outstanding.length + 1 = t.window.outstanding.length ∧
      (t.arrived r).outstanding.length = replies.length + t.requests.length := by
  have hmatched := h.matched
  unfold flying at hmatched
  rw [hreplies] at hmatched
  rw [outstanding_arrived, List.length_drop]
  simp only [List.map_cons, List.length_cons, List.length_append, List.length_map] at hmatched
  omega

include h in
/-- A free slot, nothing expired, and what the reader asks for then. -/
theorem asked_arrived (hbatch : 0 < batch) (hnow : now < since + deadline)
    (hdeadline : 0 < deadline) :
    Asked slots batch now (t.arrived r) ((t.arrived r).asks slots batch deadline now (slots + 1)).1
      ((t.arrived r).asks slots batch deadline now (slots + 1)).2 := by
  apply asks_spec hbatch hdeadline
  · intro at_ hat
    rw [outstanding_arrived] at hat
    exact timely h hnow at_ (List.mem_of_mem_drop hat)
  · omega

/-- What is in flight once a reply was delivered. -/
theorem flying_deliver (hreplies : t.replies = r :: replies) :
    (t.deliver slots batch deadline now).flying = replies.map Prod.fst ++ t.requests.map Prod.fst ++
      ((t.arrived r).asks slots batch deadline now (slots + 1)).1.map Prod.fst := by
  unfold deliver flying arrived
  rw [hreplies]
  simp only [List.map_append, List.append_assoc]

theorem window_deliver (hreplies : t.replies = r :: replies) :
    (t.deliver slots batch deadline now).window =
      ((t.arrived r).asks slots batch deadline now (slots + 1)).2 := by
  unfold deliver arrived
  rw [hreplies]

/-- A reply that starts at or below the cursor takes both cursors with it. -/
theorem arrived_of_le (hle : r.1 ≤ t.window.fetched) :
    (t.arrived r).fetched = max t.window.fetched (r.1 + r.2) ∧
      (t.arrived r).requested = max t.window.fetched (r.1 + r.2) := by
  unfold arrived Window.deliver
  rw [if_pos hle]
  exact ⟨rfl, rfl⟩

/-- One that starts past it moves neither. -/
theorem arrived_of_lt (hlt : t.window.fetched < r.1) :
    (t.arrived r).fetched = t.window.fetched ∧ (t.arrived r).requested = t.window.requested := by
  unfold arrived Window.deliver
  rw [if_neg (by omega)]
  exact ⟨rfl, rfl⟩

theorem length_arrived : (t.arrived r).length = t.window.length := length_deliver

include h in
/-- **What is missing next stays on its way** when a reply arrives. -/
theorem ok_deliver (hbatch : 0 < batch) (hdeadline : 0 < deadline) (hsince : since ≤ now)
    (hnow : now < since + deadline) : (t.deliver slots batch deadline now).Ok slots batch since := by
  cases hreplies : t.replies with
  | nil =>
    have hsame : t.deliver slots batch deadline now = t := by
      unfold deliver
      rw [hreplies]
    rw [hsame]
    exact h
  | cons r replies =>
    have hasked := asked_arrived h (r := r) hbatch hnow hdeadline
    obtain ⟨hfree, hcount⟩ := length_outstanding_arrived h hreplies
    have hslots := h.bounded
    constructor
    case matched =>
      rw [window_deliver hreplies, flying_deliver hreplies, hasked.outstanding]
      simp only [List.length_append, List.length_replicate, List.length_map]
      omega
    case bounded =>
      rw [window_deliver hreplies]
      exact hasked.bounded (by omega)
    case since =>
      rw [window_deliver hreplies, hasked.outstanding]
      intro at_ hat
      rcases List.mem_append.1 hat with hold | hnew
      · rw [outstanding_arrived] at hold
        exact h.since at_ (List.mem_of_mem_drop hold)
      · rw [List.eq_of_mem_replicate hnew]
        exact hsince
    case ordered =>
      have hordered : (t.arrived r).Ordered := ordered_deliver h.ordered
      have hle := hasked.requested
      unfold Window.Ordered at hordered ⊢
      rw [window_deliver hreplies, hasked.fetched]
      omega
    case asked =>
      intro range hrange
      have hmem : range ∈ t.requests ∨
          range ∈ ((t.arrived r).asks slots batch deadline now (slots + 1)).1 := by
        unfold deliver at hrange
        rw [hreplies] at hrange
        exact List.mem_append.1 hrange
      rw [window_deliver hreplies, hasked.length, length_arrived]
      rcases hmem with hold | hnew
      · exact h.asked range hold
      · obtain ⟨hpos, hle, -, hend⟩ := hasked.each range hnew
        rw [length_arrived] at hend
        exact ⟨hpos, hle, hend⟩
    case answered =>
      intro reply hreply
      have hmem : reply ∈ replies := by
        unfold deliver at hreply
        rw [hreplies] at hreply
        exact hreply
      exact h.answered reply (by rw [hreplies]; exact List.mem_cons_of_mem r hmem)
    case next =>
      intro hmissing
      rw [window_deliver hreplies, hasked.fetched, hasked.length, length_arrived] at hmissing
      rw [window_deliver hreplies, hasked.fetched, flying_deliver hreplies, List.mem_append]
      rcases Nat.lt_or_ge t.window.fetched r.1 with hlt | hle
      · -- the reply is of a later range: the one at the cursor is still on its way
        left
        rw [(arrived_of_lt hlt).1] at hmissing ⊢
        have hnext := h.next hmissing
        unfold flying at hnext
        rw [hreplies, List.map_cons, List.cons_append] at hnext
        rcases List.mem_cons.1 hnext with heq | hrest
        · omega
        · exact hrest
      · -- the cursors are together, and the slot that came free is used for what is missing
        right
        obtain ⟨hfetched, hrequested⟩ := arrived_of_le (t := t) hle
        have hfirst := hasked.first (by omega) (by rw [length_arrived]; omega)
        rw [hrequested, ← hfetched] at hfirst
        exact hfirst
    case sated =>
      rw [window_deliver hreplies]
      exact hasked.sated

/-- A reader that has asked for nothing yet asks for all it may. -/
theorem ok_start {w : Window} (hbatch : 0 < batch) (hdeadline : 0 < deadline) (hsince : since ≤ now)
    (hslots : 0 < slots) (hnone : w.outstanding = []) (hstart : w.requested = w.fetched) :
    Ok slots batch since
      { window := (w.asks slots batch deadline now (slots + 1)).2
        requests := (w.asks slots batch deadline now (slots + 1)).1, replies := [] } := by
  have htimely : w.Timely deadline now := by
    intro at_ hat
    rw [hnone] at hat
    cases hat
  have hlength : w.outstanding.length = 0 := by rw [hnone]; rfl
  have hasked := asks_spec hbatch hdeadline htimely (by omega : slots < w.outstanding.length + (slots + 1))
  constructor
  case matched =>
    rw [hasked.outstanding, hnone]
    simp [flying]
  case bounded => exact hasked.bounded (by omega)
  case since =>
    intro at_ hat
    rw [hasked.outstanding, hnone, List.nil_append] at hat
    rw [List.eq_of_mem_replicate hat]
    exact hsince
  case ordered =>
    have hle := hasked.requested
    change (w.asks slots batch deadline now (slots + 1)).2.fetched ≤
      (w.asks slots batch deadline now (slots + 1)).2.requested
    rw [hasked.fetched]
    omega
  case asked =>
    intro r hr
    obtain ⟨hpos, hle, -, hend⟩ := hasked.each r hr
    rw [hasked.length]
    exact ⟨hpos, hle, hend⟩
  case answered =>
    intro r hr
    cases hr
  case next =>
    intro hmissing
    rw [hasked.fetched, hasked.length] at hmissing
    rw [hasked.fetched]
    have hfirst := hasked.first (by omega) (by omega)
    rw [hstart] at hfirst
    exact hfirst
  case sated => exact hasked.sated

/-- **Where nothing is on its way, nothing is missing.** -/
theorem complete_of_quiet (h : t.Ok slots batch since) (hquiet : t.flying = []) :
    t.window.length ≤ t.window.fetched := by
  by_contra hmissing
  have hnext := h.next (by omega)
  rw [hquiet] at hnext
  cases hnext

/-! ## The way to the end -/

/-- How many replies may still arrive: for every item that is missing one in each slot, and those before the next. -/
def left (slots : ℕ) (t : Traffic) : ℕ :=
  if t.window.fetched < t.window.length then
    (t.window.length - t.window.fetched) * slots + t.flying.idxOf t.window.fetched + 1
  else t.flying.length

theorem left_answer : (t.answer n).left slots = t.left slots := by
  unfold left
  rw [window_answer, flying_answer]

theorem left_le (h : t.Ok slots batch since) : t.left slots ≤ t.window.length * slots + slots + 1 := by
  have hmatched := h.matched
  have hslots := h.bounded
  unfold left
  split_ifs with hmissing
  · have hidx := List.idxOf_le_length (a := t.window.fetched) (l := t.flying)
    have hmul := Nat.mul_le_mul_right slots (Nat.sub_le t.window.length t.window.fetched)
    omega
  · omega

/-- **Every reply that arrives brings the end closer.** -/
theorem left_deliver_lt (h : t.Ok slots batch since) (hbatch : 0 < batch) (hdeadline : 0 < deadline)
    (hsince : since ≤ now) (hnow : now < since + deadline) (hreplies : t.replies = r :: replies) :
    (t.deliver slots batch deadline now).left slots < t.left slots := by
  have hasked := asked_arrived h (r := r) hbatch hnow hdeadline
  have hafter := ok_deliver h hbatch hdeadline hsince hnow
  have hflying : t.flying = r.1 :: (replies.map Prod.fst ++ t.requests.map Prod.fst) := by
    unfold flying
    rw [hreplies, List.map_cons, List.cons_append]
  have hfetched : (t.deliver slots batch deadline now).window.fetched = (t.arrived r).fetched := by
    rw [window_deliver hreplies, hasked.fetched]
  have hlength : (t.deliver slots batch deadline now).window.length = t.window.length := by
    rw [window_deliver hreplies, hasked.length, length_arrived]
  have hbound : (t.deliver slots batch deadline now).flying.length ≤ slots := by
    rw [← hafter.matched]
    exact hafter.bounded
  have hpos := h.answered r (by rw [hreplies]; exact List.mem_cons_self)
  unfold left
  rw [hfetched, hlength]
  by_cases hmissing : t.window.fetched < t.window.length
  · rw [if_pos hmissing]
    by_cases hmoved : (t.arrived r).fetched = t.window.fetched
    · -- nothing was fetched: what is missing next is one place nearer
      rw [hmoved, if_pos hmissing]
      have hne : r.1 ≠ t.window.fetched := by
        intro heq
        have hto := (arrived_of_le (t := t) (r := r) heq.le).1
        omega
      have hrest : t.window.fetched ∈ replies.map Prod.fst ++ t.requests.map Prod.fst := by
        have hnext := h.next hmissing
        rw [hflying] at hnext
        rcases List.mem_cons.1 hnext with heq | hrest
        · exact absurd heq.symm hne
        · exact hrest
      rw [flying_deliver hreplies, hflying, List.idxOf_append_of_mem hrest,
        List.idxOf_cons_ne _ hne]
      omega
    -- the cursor moved: a whole entry of the log is worth `slots`, more than any place in the queue
    · have hmore : t.window.fetched < (t.arrived r).fetched :=
        lt_of_le_of_ne fetched_le_deliver (Ne.symm hmoved)
      split_ifs with hstill
      · have hidx : (t.deliver slots batch deadline now).flying.idxOf (t.arrived r).fetched <
            (t.deliver slots batch deadline now).flying.length := by
          apply List.idxOf_lt_length_of_mem
          rw [← hfetched]
          exact hafter.next (by rw [hfetched, hlength]; exact hstill)
        have hmul : (t.window.length - (t.arrived r).fetched) * slots + slots ≤
            (t.window.length - t.window.fetched) * slots := by
          rw [← Nat.succ_mul]
          exact Nat.mul_le_mul_right slots (by omega)
        omega
      · have hmul : 1 * slots ≤ (t.window.length - t.window.fetched) * slots :=
          Nat.mul_le_mul_right slots (by omega)
        omega
  · -- nothing is missing: no range is asked for
    have hordered := h.ordered
    unfold Window.Ordered at hordered
    have hdone : (t.arrived r).Sated slots := by
      right
      rw [length_arrived]
      rcases Nat.lt_or_ge t.window.fetched r.1 with hlt | hle
      · rw [(arrived_of_lt hlt).2]
        omega
      · rw [(arrived_of_le hle).2]
        omega
    have hle : t.window.fetched ≤ (t.window.deliver r.1 r.2).fetched := fetched_le_deliver
    rw [if_neg hmissing, if_neg (by unfold arrived; omega), flying_deliver hreplies, hasked.nothing hdone, hflying]
    simp

end Traffic

end Pull
