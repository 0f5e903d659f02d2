import VayuWeb.Proof.Hops
import VayuWeb.Proof.Selection
import VayuWeb.Proof.ViewTip

/-!
# A live name in the client and in the registry

* `resolveHops_iff`, `resolveFrom_iff`: how far each implementation walks a trail of aliases.
* `resolve_name_root_iff`: when the client resolves a live name to the root that the registry selects.
-/

namespace VayuWeb.Client

open Bytes
open Trial (outcome bind_of_ok bind_of_error)

namespace View

variable {C : Crypto} {view : View} {log : List Acceptance} {now windowCount : ℕ}

/-! ## Trails -/

/-- A live tip of the view, and how it was accepted. -/
structure Current (C : Crypto) (view : View) (log : List Acceptance) (now windowCount : ℕ) (name : String × String)
    (tip : Tip) (a : Acceptance) : Prop where
  held : view.chainTip C name.1 name.2 = .ok (some tip)
  live : lifecycleState tip.prev now = "LIVE"
  mem : a ∈ log
  bytes : a.bytes = tip.entry.bytes
  windowCount : a.windowCount = windowCount

/-- The names that aliases lead over, the acceptances of their tips, and the cid the last one selects. -/
inductive Trail (C : Crypto) (view : View) (log : List Acceptance) (now windowCount : ℕ) :
    List (String × String) → List Acceptance → Cid → Prop
  | ends {name : String × String} {tip : Tip} {a : Acceptance} {cid : Cid}
      (current : Current C view log now windowCount name tip a)
      (points : pointerOf name.1 name.2 tip.entry.bytes = .ok (.cid cid)) :
      Trail C view log now windowCount [name] [a] cid
  | leads {name : String × String} {tip : Tip} {a : Acceptance} {target : Alias} {names : List (String × String)}
      {taken : List Acceptance} {cid : Cid} (current : Current C view log now windowCount name tip a)
      (points : pointerOf name.1 name.2 tip.entry.bytes = .ok (.alias target))
      (rest : Trail C view log now windowCount ((target.label, target.tld) :: names) taken cid) :
      Trail C view log now windowCount (name :: (target.label, target.tld) :: names) (a :: taken) cid

/-- When an accepted record still stands in the registry and before the client's gate. -/
structure Lasts (a : Acceptance) (p : ParsedRecord) (now : ℕ) : Prop where
  parsed : parseBytes a.bytes = .ok p
  /-- The registry's schema admits the record too. -/
  admitted : ∃ r, admitBytes a.bytes = .ok r
  opened : p.notBefore ≤ now
  dated : now ≤ p.notBefore + maxBackdate
  grace : p.op = "RENEW" → ∀ prev ∈ a.previous, now < saturatingAdd prev.notAfter graceSeconds
  settled : ¬ (p.op = "TRANSFER" ∧ p.seq = 1)

/-! ## One tip -/

theorem live_iff {tip : PrevView} : lifecycleState tip now = "LIVE" ↔ tip.opText ≠ "REVOKE" ∧ now < tip.notAfter := by
  unfold lifecycleState
  constructor
  · intro h
    split_ifs at h with h1 h2 h3 h4 h5 h6
    all_goals simp_all
  · intro ⟨hop, hlt⟩
    rw [if_neg hop, if_neg (by omega), if_pos hlt]

/-- When a predecessor takes a successor, by its operation. -/
theorem acceptsSuccessor_iff {prev : PrevView} {op : String} : acceptsSuccessor prev now op = true ↔
    prev.notBefore ≤ now ∧ (op = "RENEW" → now < saturatingAdd prev.notAfter graceSeconds) ∧
      (op ≠ "RENEW" → now < if prev.opText = "REVOKE" then prev.notBefore else prev.notAfter) := by
  unfold acceptsSuccessor
  by_cases hearly : now < prev.notBefore
  · rw [if_pos hearly]
    refine iff_of_false Bool.false_ne_true ?_
    intro ⟨hle, _⟩
    omega
  · rw [if_neg hearly]
    by_cases hrenew : op = "RENEW"
    · simp only [hrenew, if_true, decide_eq_true_eq, true_implies, ne_eq, not_true_eq_false, false_implies, and_true]
      exact (and_iff_right (Nat.le_of_not_lt hearly)).symm
    · simp only [hrenew, if_false, decide_eq_true_eq, false_implies, true_and, ne_eq, not_false_eq_true, true_implies]
      exact (and_iff_right (Nat.le_of_not_lt hearly)).symm

/-- Every acceptance of a run was a verdict. -/
theorem verified_of_run (h : Run C view log) {a : Acceptance} (ha : a ∈ log) :
    verify C a.bytes a.previous a.now a.windowCount = .accept := by
  induction h with
  | empty => exact absurd ha List.not_mem_nil
  | @step view log bytes now windowCount hrun haccept ih =>
    rcases List.mem_cons.1 ha with rfl | ha
    · obtain ⟨p, hp⟩ := acceptVerdict_parses haccept
      by_cases hop : p.op = "REGISTER"
      · obtain ⟨hverify, hprevious⟩ := acceptVerdict_register hp hop haccept
        rw [hprevious]
        exact hverify
      · obtain ⟨tip, -, hverify, hprevious⟩ := acceptVerdict_successor hp hop haccept
        rw [hprevious]
        exact hverify
    · exact ih ha

section Tip

variable {name : String × String} {tip : Tip} {a : Acceptance} {p : ParsedRecord}

/-- What a current tip says of its record. -/
theorem Current.record (hcurrent : Current C view log now windowCount name tip a) (h : view.Holds C log) :
    ∃ p, parseBytes a.bytes = .ok p ∧ p.label = name.1 ∧ p.tld = name.2 ∧ p.op ≠ "REVOKE" ∧ now < p.notAfter ∧
      Judged C view name.1 name.2 a p := by
  obtain ⟨candidate, below, record, hchain, hentry, hof, hlabel, htld⟩ := chain_of_chainTip h hcurrent.held
  have hbytes : a.bytes = candidate.entry.bytes := by rw [hentry, hcurrent.bytes]
  have hp : parseBytes a.bytes = .ok record := hcurrent.bytes ▸ hof.parsed
  obtain ⟨hop, hlt⟩ := live_iff.1 hcurrent.live
  rw [hof.fields] at hop hlt
  exact ⟨record, hp, hlabel, htld, hop, hlt, judged_of_run h hchain hcurrent.mem hbytes hp⟩

/-- What the gate asks of a tip beyond what its acceptance did. -/
structure GateOpen (a : Acceptance) (p : ParsedRecord) (now : ℕ) : Prop where
  clock : clockVerdict p.notBefore now = none
  successor : p.op ≠ "REGISTER" → ∀ prev ∈ a.previous, acceptsSuccessor prev now p.op = true
  settled : ¬ (p.op = "TRANSFER" ∧ p.seq = 1)

/-- **The gate at a later clock.** -/
theorem gate_iff (h : Run C view log) (hcurrent : Current C view log now windowCount name tip a)
    (hp : parseBytes a.bytes = .ok p) :
    view.judgeHeldTip C name.1 name.2 now windowCount = .ok .accept ↔ GateOpen a p now := by
  obtain ⟨p', hp', -, -, -, -, hjudged⟩ := hcurrent.record (holds_of_run h)
  obtain rfl : p' = p := Except.ok.inj (hp'.symm.trans hp)
  have hverified := verified_of_run h hcurrent.mem
  rw [hcurrent.windowCount] at hverified
  cases hjudged with
  | registered hop hprevious hjudge =>
    rw [hprevious] at hverified
    rw [hjudge, Except.ok.injEq, register_later hp hop hverified]
    constructor
    · intro hclock
      refine ⟨hclock, fun hne => absurd hop hne, ?_⟩
      intro ⟨htransfer, _⟩
      rw [hop] at htransfer
      exact absurd htransfer (by decide)
    · intro hopen
      exact hopen.clock
  | second hop hseq hjudge =>
    rw [hjudge]
    exact iff_of_false (by simp) (fun hopen => hopen.settled ⟨hop, hseq⟩)
  | follows prev key hop hlater hprevious hkey hjudge =>
    rw [hprevious] at hverified
    rw [hjudge, Except.ok.injEq, successor_later hp hop (verify_signerKey hp hop hverified hkey)]
    constructor
    · intro ⟨haccepts, hclock⟩
      refine ⟨hclock, ?_, hlater⟩
      intro _ prev' hprev'
      rw [hprevious, Option.mem_some_iff] at hprev'
      subst hprev'
      exact haccepts
    · intro hopen
      exact ⟨hopen.successor hop prev hprevious, hopen.clock⟩

/-- What the gate and the registry's term ask together. -/
theorem lasts_iff (h : Run C view log) (hclock : ∀ a ∈ log, a.now ≤ now)
    (hcurrent : Current C view log now windowCount name tip a) (hp : parseBytes a.bytes = .ok p) :
    Lasts a p now ↔ GateOpen a p now ∧ (∃ r, admitBytes a.bytes = .ok r) ∧ p.notBefore ≤ now := by
  have hholds := holds_of_run h
  obtain ⟨p', hp', -, -, hrevoke, hlive, -⟩ := hcurrent.record hholds
  obtain rfl : p' = p := Except.ok.inj (hp'.symm.trans hp)
  have hverified := verified_of_run h hcurrent.mem
  constructor
  · intro hlasts
    refine ⟨⟨?_, ?_, hlasts.settled⟩, hlasts.admitted, hlasts.opened⟩
    · rw [clockVerdict_eq_none]
      have hmax := notAfter_lt hp
      have hterm := (parsed_of_parseBytes hp).2.term
      have hopened := hlasts.opened
      refine ⟨?_, hlasts.dated⟩
      unfold saturatingAdd maxU64
      omega
    · intro hop prev hprev
      rw [hprev] at hverified
      obtain ⟨haccepts, -, hterm⟩ := successor_term hp hop hverified
      have hlater := hclock a hcurrent.mem
      obtain ⟨q, hq, hsettled⟩ := hholds.settled a hcurrent.mem
      obtain rfl : q = p' := Except.ok.inj (hq.symm.trans hp)
      rcases hsettled with ⟨hok, -⟩ | ⟨prev', entry, record, hprev', hok, hentry, hof, -, -⟩
      · exact absurd hok.op hop
      rw [hprev, Option.some.injEq] at hprev'
      subst hprev'
      -- a REVOKE has no successor
      have hprevOp : prev.opText ≠ "REVOKE" := by
        have hfields := hof.fields
        have hopText : prev.opText = record.op := by rw [hfields]
        have hrevoked : prev.revoked = decide (record.op = "REVOKE") := by rw [hfields]
        intro heq
        rw [hok.live] at hrevoked
        exact of_decide_eq_false hrevoked.symm (hopText ▸ heq)
      obtain ⟨hearly, -, -⟩ := acceptsSuccessor_iff.1 haccepts
      refine acceptsSuccessor_iff.2 ⟨by omega, fun hrenew => hlasts.grace hrenew prev hprev, ?_⟩
      intro hrenew
      rw [if_neg hprevOp]
      cases hterm with
      | kept _ hnotAfter => omega
      | renewed hop' _ => exact absurd hop' hrenew
      | ended _ hnotAfter =>
        have hopened := hlasts.opened
        omega
  · intro ⟨hopen, hadmitted, hopened⟩
    refine ⟨hp, hadmitted, hopened, (clockVerdict_eq_none.1 hopen.clock).2, ?_, hopen.settled⟩
    intro hrenew prev hprev
    have haccepts := hopen.successor (by rw [hrenew]; decide) prev hprev
    exact (acceptsSuccessor_iff.1 haccepts).2.1 hrenew

end Tip

/-! ## The client's walk -/

section Client

variable {name first : String × String} {tip : Tip} {a : Acceptance} {left : ℕ} {visited : List (String × String)}

/-- The pointer of a current name is that of its tip. -/
theorem Current.resolvedPointer_eq (hcurrent : Current C view log now windowCount name tip a) (h : view.Holds C log) :
    view.resolvedPointer C name.1 name.2 = pointerOf name.1 name.2 tip.entry.bytes := by
  obtain ⟨candidate, below, -, hchain, hentry, -⟩ := chain_of_chainTip h hcurrent.held
  unfold resolvedPointer
  rw [hchain, ← hentry]

/-- One turn at a current tip. -/
theorem resolveHops_eq (h : view.Holds C log) (hcurrent : Current C view log now windowCount name tip a)
    (hgate : view.judgeHeldTip C name.1 name.2 now windowCount = .ok .accept) {pointer : Pointer}
    (hpoints : pointerOf name.1 name.2 tip.entry.bytes = .ok pointer) :
    resolveHops C view first now windowCount left visited name =
      match pointer with
      | .cid cid => .ok cid
      | .alias target =>
        match left with
        | 0 => .error (.tooDeep first.1 first.2)
        | left + 1 =>
          if (target.label, target.tld) = first ∨ (target.label, target.tld) ∈ visited then .error (.loop name.1 name.2)
          else resolveHops C view first now windowCount left (name :: visited) (target.label, target.tld) := by
  have hpointer := hcurrent.resolvedPointer_eq h
  rw [hpoints] at hpointer
  obtain ⟨label, tld⟩ := name
  have hheld := hcurrent.held
  simp only at hgate hpointer hheld
  rw [resolveHops]
  simp only [hheld, hgate, hpointer, hcurrent.live, orFail, okOr, Except.mapError, Except.ok_bind, ne_eq,
    not_true_eq_false, if_false, Except.pure_eq_ok, Except.throw_eq_error]
  cases pointer with
  | cid cid => rfl
  | «alias» target => cases left <;> rfl

/-- A gate that does not open ends the walk. -/
theorem resolveHops_shut (hcurrent : Current C view log now windowCount name tip a)
    (hgate : view.judgeHeldTip C name.1 name.2 now windowCount ≠ .ok .accept) {cid : Cid} :
    resolveHops C view first now windowCount left visited name ≠ .ok cid := by
  obtain ⟨label, tld⟩ := name
  have hheld := hcurrent.held
  simp only at hgate hheld
  rw [resolveHops]
  simp only [hheld, orFail, okOr, Except.mapError, Except.ok_bind]
  cases hjudge : view.judgeHeldTip C label tld now windowCount with
  | error message =>
    simp only [Except.error_bind]
    intro heq
    cases heq
  | ok verdict =>
    have hne : verdict ≠ .accept := by
      rintro rfl
      exact hgate hjudge
    simp only [Except.ok_bind, if_pos hne, Except.throw_eq_error, Except.error_bind]
    intro heq
    cases heq

/-- **How far the client walks.** -/
theorem resolveHops_iff (h : Run C view log) {names : List (String × String)} {taken : List Acceptance} {cid : Cid}
    (htrail : Trail C view log now windowCount names taken cid) : ∀ {name rest left visited}, names = name :: rest →
      (∀ next ∈ rest, next ≠ first ∧ next ∉ visited) → names.Nodup → rest.length ≤ left →
        (resolveHops C view first now windowCount left visited name = .ok cid ↔
          ∀ a ∈ taken, ∃ p, parseBytes a.bytes = .ok p ∧ GateOpen a p now) := by
  have hholds := holds_of_run h
  induction htrail with
  | @ends name tip a cid hcurrent hpoints =>
    intro name' rest left visited heq hfresh hnodup hlength
    obtain ⟨rfl, -⟩ := List.cons.inj heq
    obtain ⟨p, hp, -⟩ := hcurrent.record hholds
    simp only [List.mem_singleton, forall_eq]
    constructor
    · intro hok
      by_contra hshut
      refine resolveHops_shut hcurrent ?_ hok
      intro hgate
      exact hshut ⟨p, hp, (gate_iff h hcurrent hp).1 hgate⟩
    · intro ⟨q, hq, hopen⟩
      exact resolveHops_eq hholds hcurrent ((gate_iff h hcurrent hq).2 hopen) hpoints
  | @leads name tip a target names taken cid hcurrent hpoints hrest ih =>
    intro name' rest left visited heq hfresh hnodup hlength
    obtain ⟨rfl, rfl⟩ := List.cons.inj heq
    obtain ⟨p, hp, -⟩ := hcurrent.record hholds
    obtain ⟨hnot, hnodup'⟩ := List.nodup_cons.1 hnodup
    obtain ⟨hne, hunvisited⟩ := hfresh _ List.mem_cons_self
    rw [List.length_cons] at hlength
    obtain ⟨left, rfl⟩ : ∃ k, left = k + 1 := ⟨left - 1, by omega⟩
    -- the names still to come are neither the first nor among those visited
    have hnext : ∀ next ∈ names, next ≠ first ∧ next ∉ name :: visited := by
      intro next hmem
      obtain ⟨hfirst, hvisited⟩ := hfresh next (List.mem_cons_of_mem _ hmem)
      refine ⟨hfirst, ?_⟩
      intro hin
      rcases List.mem_cons.1 hin with rfl | hin
      · exact hnot (List.mem_cons_of_mem _ hmem)
      · exact hvisited hin
    have hrec := @ih _ _ left _ rfl hnext hnodup' (by omega)
    rw [List.forall_mem_cons]
    constructor
    · intro hok
      by_cases hgate : view.judgeHeldTip C name.1 name.2 now windowCount = .ok .accept
      · rw [resolveHops_eq hholds hcurrent hgate hpoints] at hok
        simp only [hne, hunvisited, or_self, if_false] at hok
        exact ⟨⟨p, hp, (gate_iff h hcurrent hp).1 hgate⟩, hrec.1 hok⟩
      · exact absurd hok (resolveHops_shut hcurrent hgate)
    · intro ⟨⟨q, hq, hopen⟩, hall⟩
      rw [resolveHops_eq hholds hcurrent ((gate_iff h hcurrent hq).2 hopen) hpoints]
      simp only [hne, hunvisited, or_self, if_false]
      exact hrec.2 hall

end Client

/-! ## The registry's walk -/

/-- A registry whose current records are those that it reads at the tips of the view. -/
def registryPorts (C : Crypto) (view : View) : ResolverPorts :=
  { lookup := fun label tld => do
      let tip ← (view.chainTip C label tld).toOption.join
      (admitBytes tip.entry.bytes).toOption
    hasVerifiedHead := true }

/-- The entry that a resolution without a cache ended at selects this cid. -/
def SelectsCid (result : Except Refused Resolved × Option ResolutionCache) (cid : Cid) : Prop :=
  ∃ resolved bytes, result.1 = .ok resolved ∧ resolved.entry.type = "cid" ∧ resolved.entry.value = .bytes bytes ∧
    Cid.fromBytes bytes = .ok cid

section Registry

variable {ports : ResolverPorts} {diagnostics : Diagnostics} {r : RegistryRecord} {left hop : ℕ} {seen : List String}

/-- A registered name is a host that can be resolved. -/
theorem checkHost_name {label tld : String} (h : Registered label tld) :
    checkHost s!"{label}.{tld}" diagnostics = .ok { label := label, tld := tld } :=
  checkHost_eq_ok.2 ⟨parseHost_name h, h.tld, h.label⟩

section Turn

variable {label tld : String}

/-- A turn of the walk at a registered name. -/
theorem resolveFrom_turn (hname : Registered label tld) (hseen : s!"{label}.{tld}" ∉ seen) :
    outcome (resolveFrom ports now (left + 1) hop seen s!"{label}.{tld}" diagnostics) none =
      outcome (currentRecord ports now { label := label, tld := tld } s!"{label}.{tld}"
        { diagnostics with aliasHops := hop } >>= resolveRest ports now left hop seen s!"{label}.{tld}") none :=
  resolveFrom_named (checkHost_name hname) hseen

/-- A turn that finds no record ends the walk. -/
theorem resolveFrom_error (left hop : ℕ) (diagnostics : Diagnostics) (hname : Registered label tld)
    (hseen : s!"{label}.{tld}" ∉ seen)
    (hshut : ∀ r, ports.lookup label tld = some r → windowRefusal s!"{label}.{tld}" r now ≠ none) :
    ∃ e, outcome (resolveFrom ports now (left + 1) hop seen s!"{label}.{tld}" diagnostics) none = (.error e, none) := by
  obtain ⟨e, he⟩ := lookupRecord_error { label := label, tld := tld } { diagnostics with aliasHops := hop } hshut
  rw [resolveFrom_turn hname hseen]
  exact ⟨e, bind_of_error he⟩

/-- A turn that finds a record goes on with what it selects. -/
theorem resolveFrom_found (left hop : ℕ) (diagnostics : Diagnostics) (hname : Registered label tld)
    (hseen : s!"{label}.{tld}" ∉ seen)
    (hhead : ports.hasVerifiedHead = true) (hlookup : ports.lookup label tld = some r)
    (hwindow : windowRefusal s!"{label}.{tld}" r now = none) :
    ∃ d, outcome (resolveFrom ports now (left + 1) hop seen s!"{label}.{tld}" diagnostics) none =
      outcome (resolveRest ports now left hop seen s!"{label}.{tld}" (r, d)) none := by
  obtain ⟨d, hd⟩ := lookupRecord_ok { label := label, tld := tld } { diagnostics with aliasHops := hop } hhead hlookup
    hwindow
  rw [resolveFrom_turn hname hseen]
  exact ⟨d, bind_of_ok hd⟩

end Turn

/-- Where the registry has a live record of this acceptance. -/
structure Opened (a : Acceptance) (now : ℕ) : Prop where
  admitted : ∃ r, admitBytes a.bytes = .ok r
  started : ∃ p, parseBytes a.bytes = .ok p ∧ p.notBefore ≤ now

section Walk

variable {name : String × String} {tip : Tip} {a : Acceptance}

/-- A current name is registered. -/
theorem Current.registered (hcurrent : Current C view log now windowCount name tip a) (h : view.Holds C log) :
    Registered name.1 name.2 := by
  obtain ⟨p, hp, hlabel, htld, -⟩ := hcurrent.record h
  have hparsed := (parsed_of_parseBytes hp).2
  refine ⟨?_, ?_⟩
  · rw [← hlabel]
    exact labelRejection_eq_none.1 hparsed.label_ok
  · rw [← htld, ← isRatifiedTld_eq]
    exact hparsed.ratified

/-- Every name on a trail is registered. -/
theorem Trail.registered (h : view.Holds C log) {names : List (String × String)} {taken : List Acceptance} {cid : Cid}
    (htrail : Trail C view log now windowCount names taken cid) : ∀ name ∈ names, Registered name.1 name.2 := by
  induction htrail with
  | ends hcurrent hpoints =>
    intro name hname
    rw [List.mem_singleton] at hname
    rw [hname]
    exact hcurrent.registered h
  | leads hcurrent hpoints hrest ih =>
    intro name hname
    rcases List.mem_cons.1 hname with rfl | hname
    · exact hcurrent.registered h
    · exact ih name hname

/-- The registry's record at a current tip. -/
theorem lookup_current (hcurrent : Current C view log now windowCount name tip a) :
    (registryPorts C view).lookup name.1 name.2 = (admitBytes a.bytes).toOption := by
  unfold registryPorts
  simp only [hcurrent.held, Except.toOption_ok, Option.join_some, Option.bind_eq_bind, Option.bind_some, hcurrent.bytes]

/-- The registry finds a live record where this one has opened, and only there. -/
theorem found_iff (h : view.Holds C log) (hcurrent : Current C view log now windowCount name tip a) (key : String) :
    (∃ r, (registryPorts C view).lookup name.1 name.2 = some r ∧ windowRefusal key r now = none) ↔ Opened a now := by
  obtain ⟨p, hp, -, -, hop, hlive, -⟩ := hcurrent.record h
  rw [lookup_current hcurrent]
  have hwindow : ∀ r, admitBytes a.bytes = .ok r → (windowRefusal key r now = none ↔ p.notBefore ≤ now) := by
    intro r hr
    have hagrees := (BothAdmit.mk hr hp).agrees
    rw [hagrees.notBefore]
    apply windowRefusal_eq_none
    · intro heq
      apply hop
      rw [hagrees.op, heq]
      rfl
    · rw [← hagrees.notAfter]
      exact hlive
  constructor
  · intro ⟨r, hr, hnone⟩
    have hr := Except.toOption_eq_some.1 hr
    exact ⟨⟨r, hr⟩, p, hp, (hwindow r hr).1 hnone⟩
  · intro hopened
    obtain ⟨r, hr⟩ := hopened.admitted
    obtain ⟨q, hq, hle⟩ := hopened.started
    obtain rfl : q = p := Except.ok.inj (hq.symm.trans hp)
    exact ⟨r, Except.toOption_eq_some.2 hr, (hwindow r hr).2 hle⟩

/-- Every record on a trail is current under some name. -/
theorem Trail.current {names : List (String × String)} {taken : List Acceptance} {cid : Cid}
    (htrail : Trail C view log now windowCount names taken cid) {a : Acceptance} (ha : a ∈ taken) :
    ∃ name tip, Current C view log now windowCount name tip a := by
  induction htrail with
  | ends hcurrent hpoints =>
    rw [List.mem_singleton] at ha
    rw [ha]
    exact ⟨_, _, hcurrent⟩
  | leads hcurrent hpoints hrest ih =>
    rcases List.mem_cons.1 ha with rfl | ha
    · exact ⟨_, _, hcurrent⟩
    · exact ih ha

/-- What the registry's record of a current tip selects. -/
theorem selected_current (h : view.Holds C log) (hcurrent : Current C view log now windowCount name tip a)
    (hr : (registryPorts C view).lookup name.1 name.2 = some r) :
    SameSource (selectedPointer tip.entry.bytes) (selectSource r) := by
  obtain ⟨p, hp, -⟩ := hcurrent.record h
  rw [lookup_current hcurrent] at hr
  rw [← hcurrent.bytes]
  exact selection_same ⟨Except.toOption_eq_some.1 hr, hp⟩

end Walk

/-- **How far the registry walks.** -/
theorem resolveFrom_iff (h : view.Holds C log) {names : List (String × String)} {taken : List Acceptance} {cid : Cid}
    (htrail : Trail C view log now windowCount names taken cid) : ∀ {name rest left hop seen diagnostics},
      names = name :: rest → (∀ next ∈ names, s!"{next.1}.{next.2}" ∉ seen) → names.Nodup → rest.length ≤ left →
        (SelectsCid (outcome (resolveFrom (registryPorts C view) now (left + 1) hop seen s!"{name.1}.{name.2}"
          diagnostics) none) cid ↔ ∀ a ∈ taken, Opened a now) := by
  -- the induction follows the trail: each alias is one hop of the loop
  induction htrail with
  | @ends name tip a cid hcurrent hpoints =>
    intro name' rest left hop seen diagnostics heq hunseen hnodup hlength
    obtain ⟨rfl, -⟩ := List.cons.inj heq
    have hname := hcurrent.registered h
    have hseen := hunseen name List.mem_cons_self
    simp only [List.mem_singleton, forall_eq]
    rw [← found_iff h hcurrent s!"{name.1}.{name.2}"]
    constructor
    · intro ⟨resolved, bytes, hok, _⟩
      by_contra hnot
      obtain ⟨e, he⟩ := resolveFrom_error left hop diagnostics hname hseen
        fun r hr hwindow => hnot ⟨r, hr, hwindow⟩
      rw [he] at hok
      simp at hok
    · intro ⟨r, hr, hwindow⟩
      obtain ⟨d, hd⟩ := resolveFrom_found left hop diagnostics hname hseen rfl hr hwindow
      obtain ⟨b, hselected, hcid⟩ := pointerOf_cid hpoints
      have hsame := selected_current h hcurrent hr
      rw [hselected] at hsame
      cases hselect : selectSource r with
      | none =>
        rw [hselect] at hsame
        cases hsame
      | some e =>
        rw [hselect] at hsame
        cases hsame with
        | cid htype hvalue =>
          have hne : e.type ≠ "alias" := by
            rw [htype]
            decide
          obtain ⟨d', hd'⟩ := resolveRest_fetch (registryPorts C view) now left hop seen s!"{name.1}.{name.2}" d
            hselect hne none
          rw [hd, hd']
          exact ⟨_, b, rfl, htype, hvalue, hcid⟩
  | @leads name tip a target names taken cid hcurrent hpoints hrest ih =>
    -- an alias: its own window decides whether the hop is taken, then the rest of the trail decides
    intro name' rest left hop seen diagnostics heq hunseen hnodup hlength
    obtain ⟨rfl, rfl⟩ := List.cons.inj heq
    have hname := hcurrent.registered h
    have hseen := hunseen name List.mem_cons_self
    obtain ⟨hnot, hnodup'⟩ := List.nodup_cons.1 hnodup
    rw [List.length_cons] at hlength
    obtain ⟨left, rfl⟩ : ∃ k, left = k + 1 := ⟨left - 1, by omega⟩
    -- no name of the trail repeats, so the cycle check lets the next one through
    have hrestSeen : ∀ next ∈ (target.label, target.tld) :: names,
        s!"{next.1}.{next.2}" ∉ s!"{name.1}.{name.2}" :: seen := by
      intro next hnext hin
      rcases List.mem_cons.1 hin with hkey | hin
      · obtain ⟨hlabel, htld⟩ := name_injective (hrest.registered h next hnext) hname hkey
        exact hnot ((Prod.ext hlabel htld : next = name) ▸ hnext)
      · exact hunseen next (List.mem_cons_of_mem _ hnext) hin
    rw [List.forall_mem_cons, ← found_iff h hcurrent s!"{name.1}.{name.2}"]
    by_cases hfound : ∃ r, (registryPorts C view).lookup name.1 name.2 = some r ∧
        windowRefusal s!"{name.1}.{name.2}" r now = none
    · obtain ⟨r, hr, hwindow⟩ := hfound
      obtain ⟨d, hd⟩ := resolveFrom_found (left + 1) hop diagnostics hname hseen rfl hr hwindow
      have hsame := selected_current h hcurrent hr
      rw [pointerOf_alias hpoints] at hsame
      cases hselect : selectSource r with
      | none =>
        rw [hselect] at hsame
        cases hsame
      | some e =>
        rw [hselect] at hsame
        cases hsame with
        | «alias» htype hvalue hparses =>
          obtain ⟨d', hd'⟩ := resolveRest_alias (registryPorts C view) now (left + 1) hop seen
            s!"{name.1}.{name.2}" d hselect htype (by rw [hvalue]; exact hparses) none
          have hrec := @ih _ _ left (hop + 1) _ d' rfl hrestSeen hnodup' (by omega)
          rw [hd, hd', hrec]
          exact (and_iff_right ⟨r, hr, hwindow⟩).symm
    · refine iff_of_false ?_ fun hboth => hfound hboth.1
      -- outside its window the name stops the walk, whatever comes after
      intro ⟨resolved, bytes, hok, _⟩
      obtain ⟨e, he⟩ := resolveFrom_error (left + 1) hop diagnostics hname hseen
        fun r hr hwindow => hfound ⟨r, hr, hwindow⟩
      rw [he] at hok
      simp at hok

end Registry

/-! ## Both walks -/

/-- **A live name resolves** in the client, and to what the registry selects from the same records at the
same clock, exactly when every tip on the way still lasts. -/
theorem resolve_name_root_iff (h : Run C view log) (hclock : ∀ a ∈ log, a.now ≤ now) {label tld : String}
    {names : List (String × String)} {taken : List Acceptance} {cid : Cid}
    (htrail : Trail C view log now windowCount ((label, tld) :: names) taken cid)
    (hnodup : ((label, tld) :: names).Nodup) (hlength : names.length ≤ 3) :
    (view.resolveNameRoot C label tld now windowCount = .ok cid ∧
      SelectsCid (outcome (resolveName (registryPorts C view) now s!"{label}.{tld}") none) cid) ↔
        ∀ a ∈ taken, ∃ p, Lasts a p now := by
  have hholds := holds_of_run h
  have hfresh : ∀ next ∈ names, next ≠ (label, tld) ∧ next ∉ ([] : List (String × String)) := by
    intro next hnext
    refine ⟨?_, List.not_mem_nil⟩
    rintro rfl
    exact (List.nodup_cons.1 hnodup).1 hnext
  have hclient := resolveHops_iff h htrail rfl hfresh hnodup hlength
  have hregistry : SelectsCid (outcome (resolveName (registryPorts C view) now s!"{label}.{tld}") none) cid ↔
      ∀ a ∈ taken, Opened a now :=
    @resolveFrom_iff C view log now windowCount hholds _ taken cid htrail (label, tld) names aliasBudget 0 [] _ rfl
      (fun _ _ => List.not_mem_nil) hnodup hlength
  have hlasts : ∀ a ∈ taken, (∃ p, Lasts a p now) ↔
      (∃ p, parseBytes a.bytes = .ok p ∧ GateOpen a p now) ∧ Opened a now := by
    intro a ha
    obtain ⟨name, tip, hcurrent⟩ := htrail.current ha
    constructor
    · intro ⟨p, hp⟩
      obtain ⟨hgate, hadmitted, hopened⟩ := (lasts_iff h hclock hcurrent hp.parsed).1 hp
      exact ⟨⟨p, hp.parsed, hgate⟩, hadmitted, p, hp.parsed, hopened⟩
    · intro ⟨⟨p, hp, hgate⟩, hopened⟩
      obtain ⟨q, hq, hle⟩ := hopened.started
      obtain rfl : q = p := Except.ok.inj (hq.symm.trans hp)
      exact ⟨q, (lasts_iff h hclock hcurrent hq).2 ⟨hgate, hopened.admitted, hle⟩⟩
  refine (and_congr hclient hregistry).trans ?_
  constructor
  · intro ⟨hgates, hopens⟩ a ha
    exact (hlasts a ha).2 ⟨hgates a ha, hopens a ha⟩
  · intro hall
    exact ⟨fun a ha => ((hlasts a ha).1 (hall a ha)).1, fun a ha => ((hlasts a ha).1 (hall a ha)).2⟩

/-! ## A published name -/

/-- The cid of the text "hello". -/
def publishedCid : Bytes :=
  [0x01, 0x55, 0x12, 0x20] ++ Sample.literal 32 0x2cf24dba5fb0a30e26e83b2ac5b9e29e1b161e5c1fa7425e73043362938b9824

/-- The signature of a record with a CID. -/
def publishedSig : Bytes :=
  Sample.literal 32 0xfa529d788ef0775306f1c78477195cd7f8ae78c9e9cf4faed521f98ca0ecf430 ++
    Sample.literal 32 0x8255921fc94b9621fac033b5b06f6c7367b4bf80807011a15a6c4b327268d101

/-- The fields of an UPDATE of `first` that publishes it. -/
def publishedFields : List (DetCbor.Key × DetCbor.Value) :=
  Sample.update.fields.map fun e =>
    if e.1 = .text "records" then
      (.text "records", .array [.map [Sample.textField "type" "cid", (.text "value", .bytes publishedCid)]])
    else if e.1 = .text "sig" then (.text "sig", .bytes publishedSig)
    else e

/-- The encoding of that record. -/
def publishedBytes : Bytes := (DetCbor.Value.map publishedFields).encode

/-- The sample primitives, on this record too. -/
def publishedCrypto : Crypto :=
  { Sample.crypto with
    ed25519Verify := fun signature message publicKey =>
      Sample.crypto.ed25519Verify signature message publicKey ||
        (signature = publishedSig && publicKey = Sample.ownerA &&
          message = withDomain recordSigningPrefix
            (DetCbor.Value.map (publishedFields.filter fun e => ¬ isSignatureField e.1)).encode [1])
    blake2b := fun bytes =>
      if bytes = withDomain recordHashPrefix publishedBytes [] then
        Sample.literal 32 0x521ab28e2b7b4ff5117c9093d1bcd5e7e20165cf963d99ed20f8d3654c0941bb
      else Sample.crypto.blake2b bytes
    length_blake2b := by
      intro bytes
      split_ifs
      · rfl
      · exact Sample.crypto.length_blake2b bytes }

/-- A view of the record before it. -/
def viewBelow : View := View.empty.put publishedCrypto Sample.first.bytes

/-- The view with both. -/
def viewOfPublished : View := viewBelow.put publishedCrypto publishedBytes

theorem accept_below : View.empty.acceptVerdict publishedCrypto Sample.first.bytes 1700000000 0 = .ok .accept := by
  decide +kernel

theorem accept_published : viewBelow.acceptVerdict publishedCrypto publishedBytes 1700000000 0 = .ok .accept := by
  decide +kernel

/-- The CID the record points at. -/
def publishedRoot : Cid :=
  { version := 1, codec := 0x55
    digest := ⟨Sample.literal 32 0x2cf24dba5fb0a30e26e83b2ac5b9e29e1b161e5c1fa7425e73043362938b9824, by decide⟩ }

/-- The trail of the published name, at any clock of its term. -/
theorem trail_published (now : ℕ) (hlive : now < 1731449600) : ∃ log a, Run publishedCrypto viewOfPublished log ∧
    (∀ b ∈ log, b.now = 1700000000) ∧
      Trail publishedCrypto viewOfPublished log now 0 [("observatory-lantern", "abacus")] [a] publishedRoot := by
  have hrun := (Run.empty.step accept_below).step accept_published
  have htip : (viewOfPublished.chainTip publishedCrypto "observatory-lantern" "abacus").map
      (Option.map fun tip => (tip.entry.bytes, tip.prev.opText, tip.prev.notAfter)) =
        .ok (some (publishedBytes, "UPDATE", 1731449600)) := by
    decide +kernel
  have hpoints : pointerOf "observatory-lantern" "abacus" publishedBytes = .ok (.cid publishedRoot) := by
    decide +kernel
  obtain ⟨tip, htip, hprod⟩ := exists_tip htip
  obtain ⟨hbytes, hprod⟩ := Prod.mk.inj hprod
  obtain ⟨hop, hnotAfter⟩ := Prod.mk.inj hprod
  refine ⟨_, _, hrun, ?_, .ends ⟨htip, ?_, List.mem_cons_self, hbytes.symm, rfl⟩ ?_⟩
  · intro b hb
    rcases List.mem_cons.1 hb with rfl | hb
    · rfl
    · rw [List.mem_singleton.1 hb]
  · refine live_iff.2 ⟨?_, ?_⟩
    · rw [hop]
      decide
    · rw [hnotAfter]
      exact hlive
  · rw [hbytes]
    exact hpoints

theorem resolve_published : ∃ log taken : List Acceptance, Run publishedCrypto viewOfPublished log ∧
    ((viewOfPublished.resolveNameRoot publishedCrypto "observatory-lantern" "abacus" 1700000000 0 = .ok publishedRoot ∧
      SelectsCid (outcome (resolveName (registryPorts publishedCrypto viewOfPublished) 1700000000
        "observatory-lantern.abacus") none) publishedRoot) ↔ ∀ a ∈ taken, ∃ p, Lasts a p 1700000000) := by
  obtain ⟨log, a, hrun, hnow, htrail⟩ := trail_published 1700000000 (by decide)
  exact ⟨log, [a], hrun, resolve_name_root_iff hrun (fun b hb => (hnow b hb).le) htrail (List.nodup_singleton _)
    (by decide)⟩

/-- A day after it was dated the published name is still live, and the client refuses it as backdated. -/
theorem live_name_unresolved : ¬ ∀ (C : Crypto) (view : View) (log : List Acceptance) (now windowCount : ℕ)
    (label tld : String) (names : List (String × String)) (taken : List Acceptance) (cid : Cid), Run C view log →
      (∀ a ∈ log, a.now ≤ now) → Trail C view log now windowCount ((label, tld) :: names) taken cid →
        ((label, tld) :: names).Nodup → names.length ≤ 3 →
          view.resolveNameRoot C label tld now windowCount = .ok cid := by
  intro h
  obtain ⟨log, a, hrun, hnow, htrail⟩ := trail_published 1700000301 (by decide)
  have hclock : ∀ b ∈ log, b.now ≤ 1700000301 := by
    intro b hb
    rw [hnow b hb]
    decide
  have hok := h _ _ log 1700000301 0 _ _ [] [a] publishedRoot hrun hclock htrail (List.nodup_singleton _) (by decide)
  have hrefused : viewOfPublished.resolveNameRoot publishedCrypto "observatory-lantern" "abacus" 1700000301 0 ≠
      .ok publishedRoot := by
    decide +kernel
  exact hrefused hok

end View

end VayuWeb.Client
