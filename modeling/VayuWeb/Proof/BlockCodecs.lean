import VayuWeb.Proof.Readings

/-!
# The two codecs of the block exchange

Both decoders judge what they read of one map. The registry drops byte order marks from keys and
text, so that it reads another map than the client where there are any, and it counts to 2^53 - 1.

* `judge_eq_ok`, `judge_eq_error`: what a reading is taken for, and why it is refused.
* `registry_decode`, `client_decode`: each decoder is the judge of its own reading.
* `block_codecs_agree_iff`: when the decoders agree on some bytes, and the encoders on a message.
-/

namespace VayuWeb.BlockCodecs

open DetCbor (Key Value)
open BlockExchange (BlockMessage BlockExchangeRejection)

variable {es : List (Key × Value)} {top limit each : ℕ} {type key : String} {m : BlockMessage}
  {code : BlockExchangeRejection} {b : Bytes}

/-! ## Reading a map -/

/-- The list that a message of this type carries: its name, how many it may hold and how long each. -/
def listOf (type : String) : Option (String × ℕ × ℕ) :=
  if type = "BWANT" ∨ type = "BDONE" then some ("cids", 64, 64)
  else if type = "BLOCKS" then some ("blks", 64, 1048576)
  else none

/-- The message of this type that carries this list. -/
def withList (type : String) (xs : List Bytes) : BlockMessage :=
  if type = "BWANT" then .bwant xs else if type = "BDONE" then .bdone xs else .blocks xs

/-- The number under a name, of a greeting. -/
def number (top : ℕ) (f : Reading) (key : String) : Except BlockExchangeRejection ℕ := f.number .malformed top key

/-- One entry of a list. -/
def entry (each : ℕ) : Value → Except BlockExchangeRejection Bytes
  | .bytes bytes => if bytes.length > each then .error .limitExceeded else .ok bytes
  | _ => .error .malformed

/-- The list under a name, of identifiers or of blocks. -/
def list (f : Reading) (key : String) (limit each : ℕ) : Except BlockExchangeRejection (List Bytes) :=
  f.items .malformed .limitExceeded key limit (entry each)

/-- What a decoder that counts to `top` makes of a reading. -/
def judge (top : ℕ) (f : Reading) : Except BlockExchangeRejection BlockMessage :=
  match f.type with
  | none => .error .malformed
  | some type =>
    if type = "BHELLO" then do return .bhello (← number top f "v") (← number top f "max")
    else
      match listOf type with
      | some (key, limit, each) => do return withList type (← list f key limit each)
      | none => .error .unknownType

/-! ## What a reading is taken for -/

/-- What an entry of a list is refused for. -/
inductive EntryFault (each : ℕ) (x : Value) : BlockExchangeRejection → Prop
  | kind (h : ∀ bytes, x ≠ .bytes bytes) : EntryFault each x .malformed
  | long {bytes : Bytes} (h : x = .bytes bytes) (hlong : each < bytes.length) : EntryFault each x .limitExceeded

/-- What a list is refused for: it is none, it holds too many, or it has a first entry that is refused. -/
inductive ListFault (value : Option Value) (limit each : ℕ) : BlockExchangeRejection → Prop
  | kind (h : ∀ xs, value ≠ some (.array xs)) : ListFault value limit each .malformed
  | long {xs : List Value} (h : value = some (.array xs)) (hlong : limit < xs.length) :
      ListFault value limit each .limitExceeded
  | entry {good : List Bytes} {x : Value} {rest : List Value} {code : BlockExchangeRejection}
      (h : value = some (.array (good.map .bytes ++ x :: rest))) (hlimit : good.length + (x :: rest).length ≤ limit)
      (hgood : ∀ bytes ∈ good, bytes.length ≤ each) (fault : EntryFault each x code) : ListFault value limit each code

/-- What a reading is refused for: it has no type or an unknown one, a number is missing, or its
list is refused. -/
inductive Faulty (top : ℕ) (f : Reading) : BlockExchangeRejection → Prop
  | untyped (h : f.type = none) : Faulty top f .malformed
  | unknown {type : String} (h : f.type = some type) (hello : type ≠ "BHELLO") (list : listOf type = none) :
      Faulty top f .unknownType
  | number (h : f.type = some "BHELLO") (missing : ¬ ∃ v max, f.value "v" = some (.uint v) ∧
      f.value "max" = some (.uint max) ∧ v ≤ top ∧ max ≤ top) : Faulty top f .malformed
  | list {type key : String} {limit each : ℕ} {code : BlockExchangeRejection} (h : f.type = some type)
      (hello : type ≠ "BHELLO") (list : listOf type = some (key, limit, each))
      (fault : ListFault (f.value key) limit each code) : Faulty top f code

/-- When an entry of a list is refused, and how. -/
theorem entry_eq_error {x : Value} : entry each x = .error code ↔ EntryFault each x code := by
  constructor
  · intro h
    cases x with
    | bytes bytes =>
      rw [entry] at h
      split_ifs at h with hlong
      rw [← Except.error.inj h]
      exact .long rfl hlong
    | _ =>
      rw [← Except.error.inj h]
      exact .kind (by simp)
  · intro h
    cases h with
    | kind h =>
      cases x with
      | bytes bytes => exact absurd rfl (h bytes)
      | _ => rfl
    | long h hlong =>
      subst h
      exact if_pos hlong

theorem entry_eq_ok {x : Value} {bytes : Bytes} : entry each x = .ok bytes ↔
    x = .bytes bytes ∧ bytes.length ≤ each := by
  cases x with
  | bytes raw =>
    rw [entry]
    split_ifs with hlong
    · constructor
      · intro h
        exact absurd h (by simp)
      · rintro ⟨h, hle⟩
        cases h
        omega
    · constructor
      · intro h
        cases h
        exact ⟨rfl, by omega⟩
      · rintro ⟨h, -⟩
        cases h
        rfl
  | _ => simp [entry]

theorem entries_eq_ok {values : List Value} {xs : List Bytes} :
    values.mapM (entry each) = .ok xs ↔ values = xs.map .bytes ∧ ∀ x ∈ xs, x.length ≤ each := by
  rw [Except.mapM_eq_ok]
  constructor
  · intro h
    induction h with
    | nil => exact ⟨rfl, fun x hx => absurd hx List.not_mem_nil⟩
    | cons hx _ ih =>
      obtain ⟨rfl, hle⟩ := entry_eq_ok.1 hx
      exact ⟨by rw [ih.1, List.map_cons], List.forall_mem_cons.2 ⟨hle, ih.2⟩⟩
  · rintro ⟨rfl, hall⟩
    rw [List.forall₂_map_left_iff, List.forall₂_same]
    intro x hx
    exact entry_eq_ok.2 ⟨rfl, hall x hx⟩

/-- When a list is read. -/
theorem list_eq_ok {f : Reading} {xs : List Bytes} : list f key limit each = .ok xs ↔
    f.value key = some (.array (xs.map .bytes)) ∧ xs.length ≤ limit ∧ ∀ x ∈ xs, x.length ≤ each := by
  unfold list Reading.items
  split
  · rename_i values hvalue
    rw [hvalue, Option.some.injEq, Value.array.injEq]
    split_ifs with hlong
    · constructor
      · intro h
        exact absurd h (by simp)
      · rintro ⟨rfl, hle, -⟩
        rw [List.length_map] at hlong
        omega
    · rw [entries_eq_ok]
      constructor
      · rintro ⟨rfl, hall⟩
        rw [List.length_map] at hlong
        exact ⟨rfl, by omega, hall⟩
      · rintro ⟨rfl, -, hall⟩
        exact ⟨rfl, hall⟩
  · rename_i hnone
    constructor
    · intro h
      exact absurd h (by simp)
    · rintro ⟨h, -⟩
      exact absurd h (hnone _)

/-- When a list is refused, and how. -/
theorem list_eq_error {f : Reading} : list f key limit each = .error code ↔
    ListFault (f.value key) limit each code := by
  constructor
  · intro h
    unfold list Reading.items at h
    split at h
    · rename_i values hvalue
      split_ifs at h with hlong
      · rw [← Except.error.inj h]
        exact .long hvalue hlong
      · obtain ⟨good, x, rest, rfl, hgood, hx⟩ := Except.mapM_eq_error.1 h
        -- what comes before the first failing entry was read, so the failure is that entry's own
        obtain ⟨taken, htaken⟩ : ∃ taken, good.mapM (entry each) = .ok taken := by
          cases hmap : good.mapM (entry each) with
          | ok taken => exact ⟨taken, rfl⟩
          | error e =>
            obtain ⟨before, y, after, rfl, -, hy⟩ := Except.mapM_eq_error.1 hmap
            obtain ⟨z, hz⟩ := hgood y (by simp)
            rw [hy] at hz
            exact absurd hz (by simp)
        obtain ⟨rfl, hall⟩ := entries_eq_ok.1 htaken
        rw [List.length_append, List.length_map] at hlong
        exact .entry hvalue (by omega) hall (entry_eq_error.1 hx)
    · rename_i hnone
      rw [← Except.error.inj h]
      exact .kind hnone
  · intro h
    unfold list Reading.items
    cases h with
    | kind h =>
      split
      · rename_i values hvalue
        exact absurd hvalue (h values)
      · rfl
    | long h hlong =>
      rw [h]
      exact if_pos hlong
    | @entry good x rest _ h hlimit hgood fault =>
      rw [h]
      simp only
      rw [if_neg (by rw [List.length_append, List.length_map]; omega), Except.mapM_eq_error]
      refine ⟨_, x, rest, rfl, ?_, entry_eq_error.2 fault⟩
      intro y hy
      obtain ⟨bytes, hbytes, rfl⟩ := List.mem_map.1 hy
      exact ⟨bytes, entry_eq_ok.2 ⟨rfl, hgood bytes hbytes⟩⟩

/-- What a reading is taken for. -/
inductive Holds (top : ℕ) (f : Reading) : BlockMessage → Prop
  | bhello {v max : ℕ} (h : f.type = some "BHELLO") (hv : f.value "v" = some (.uint v))
      (hmax : f.value "max" = some (.uint max)) (hle : v ≤ top ∧ max ≤ top) : Holds top f (.bhello v max)
  | list {type key : String} {limit each : ℕ} {xs : List Bytes} (h : f.type = some type) (hello : type ≠ "BHELLO")
      (list : listOf type = some (key, limit, each)) (value : f.value key = some (.array (xs.map .bytes)))
      (fits : xs.length ≤ limit ∧ ∀ x ∈ xs, x.length ≤ each) : Holds top f (withList type xs)

theorem number_eq_ok {f : Reading} {n : ℕ} : number top f key = .ok n ↔ f.value key = some (.uint n) ∧ n ≤ top := by
  unfold number Reading.number
  split
  · rename_i k hvalue
    rw [hvalue, Option.some.injEq, Value.uint.injEq]
    split_ifs with hle
    · rw [Except.ok.injEq]
      constructor
      · rintro rfl
        exact ⟨rfl, hle⟩
      · intro h
        exact h.1
    · constructor
      · intro h
        exact absurd h (by simp)
      · rintro ⟨rfl, hle'⟩
        exact absurd hle' hle
  · rename_i hnone
    constructor
    · intro h
      exact absurd h (by simp)
    · intro h
      exact absurd h.1 (hnone n)

theorem number_error {f : Reading} (h : number top f key = .error code) : code = .malformed := by
  unfold number Reading.number at h
  split at h
  · split_ifs at h
    exact (Except.error.inj h).symm
  · exact (Except.error.inj h).symm

theorem judge_bhello {f : Reading} (h : f.type = some "BHELLO") : judge top f =
    (do return .bhello (← number top f "v") (← number top f "max")) := by
  unfold judge
  rw [h]
  exact if_pos rfl

theorem judge_bhello_error {f : Reading} (htype : f.type = some "BHELLO") (h : judge top f = .error code) :
    code = .malformed := by
  rw [judge_bhello htype] at h
  cases hv : number top f "v" with
  | error e =>
    rw [hv, Except.error_bind, Except.error.injEq] at h
    exact h ▸ number_error hv
  | ok v =>
    rw [hv, Except.ok_bind] at h
    cases hmax : number top f "max" with
    | error e =>
      rw [hmax, Except.error_bind, Except.error.injEq] at h
      exact h ▸ number_error hmax
    | ok max =>
      rw [hmax, Except.ok_bind] at h
      exact absurd h (by simp)

theorem judge_list {f : Reading} (h : f.type = some type) (hello : type ≠ "BHELLO")
    (hlist : listOf type = some (key, limit, each)) :
    judge top f = (do return withList type (← list f key limit each)) := by
  unfold judge
  rw [h]
  simp only
  rw [if_neg hello, hlist]

/-- A type that is none of the four is refused as unknown. -/
theorem judge_unknown {f : Reading} (h : f.type = some type) (hello : type ≠ "BHELLO") (hlist : listOf type = none) :
    judge top f = .error .unknownType := by
  unfold judge
  rw [h]
  simp only
  rw [if_neg hello, hlist]

/-- A message without a type is malformed. -/
theorem judge_untyped {f : Reading} (h : f.type = none) : judge top f = .error .malformed := by
  unfold judge
  rw [h]

/-- A reading has no type, greets, carries a list, or is of an unknown type. -/
theorem type_cases (f : Reading) : f.type = none ∨ f.type = some "BHELLO" ∨
    (∃ type key limit each, f.type = some type ∧ type ≠ "BHELLO" ∧ listOf type = some (key, limit, each)) ∨
    ∃ type, f.type = some type ∧ type ≠ "BHELLO" ∧ listOf type = none := by
  cases htype : f.type with
  | none => exact Or.inl rfl
  | some type =>
    by_cases hello : type = "BHELLO"
    · subst hello
      exact Or.inr (Or.inl rfl)
    · cases hlist : listOf type with
      | none => exact Or.inr (Or.inr (Or.inr ⟨type, rfl, hello, hlist⟩))
      | some bounds =>
        obtain ⟨key, limit, each⟩ := bounds
        exact Or.inr (Or.inr (Or.inl ⟨type, key, limit, each, rfl, hello, hlist⟩))

/-- **What the judge takes a reading for.** -/
theorem judge_eq_ok {f : Reading} : judge top f = .ok m ↔ Holds top f m := by
  constructor
  · intro h
    rcases type_cases f with htype | htype | ⟨type, key, limit, each, htype, hello, hlist⟩ | ⟨type, htype, hello, hlist⟩
    · rw [judge_untyped htype] at h
      exact absurd h (by simp)
    · rw [judge_bhello htype] at h
      obtain ⟨v, hv, h⟩ := Except.bind_eq_ok.1 h
      obtain ⟨max, hmax, h⟩ := Except.bind_eq_ok.1 h
      rw [Except.pure_eq_ok, Except.ok.injEq] at h
      rw [number_eq_ok] at hv hmax
      exact h ▸ .bhello htype hv.1 hmax.1 ⟨hv.2, hmax.2⟩
    · rw [judge_list htype hello hlist] at h
      obtain ⟨xs, hxs, h⟩ := Except.bind_eq_ok.1 h
      rw [Except.pure_eq_ok, Except.ok.injEq] at h
      obtain ⟨hvalue, hfits⟩ := list_eq_ok.1 hxs
      exact h ▸ .list htype hello hlist hvalue hfits
    · rw [judge_unknown htype hello hlist] at h
      exact absurd h (by simp)
  · intro h
    cases h with
    | bhello h hv hmax hle =>
      rw [judge_bhello h, number_eq_ok.2 ⟨hv, hle.1⟩, Except.ok_bind, number_eq_ok.2 ⟨hmax, hle.2⟩]
      rfl
    | list h hello hlist value fits =>
      rw [judge_list h hello hlist, list_eq_ok.2 ⟨value, fits⟩]
      rfl

/-- **Why the judge refuses a reading.** -/
theorem judge_eq_error {f : Reading} : judge top f = .error code ↔ Faulty top f code := by
  constructor
  · intro h
    rcases type_cases f with htype | htype | ⟨type, key, limit, each, htype, hello, hlist⟩ | ⟨type, htype, hello, hlist⟩
    · rw [judge_untyped htype, Except.error.injEq] at h
      exact h ▸ .untyped htype
    · have hmissing : ¬ ∃ v max, f.value "v" = some (.uint v) ∧ f.value "max" = some (.uint max) ∧ v ≤ top ∧
        max ≤ top := by
        rintro ⟨v, max, hv, hmax, hle⟩
        rw [judge_eq_ok.2 (.bhello htype hv hmax hle)] at h
        exact absurd h (by simp)
      rw [judge_bhello_error htype h]
      exact .number htype hmissing
    · rw [judge_list htype hello hlist] at h
      cases hxs : list f key limit each with
      | error e =>
        rw [hxs, Except.error_bind, Except.error.injEq] at h
        exact h ▸ .list htype hello hlist (list_eq_error.1 hxs)
      | ok xs =>
        rw [hxs, Except.ok_bind] at h
        exact absurd h (by simp)
    · rw [judge_unknown htype hello hlist, Except.error.injEq] at h
      exact h ▸ .unknown htype hello hlist
  · intro h
    cases h with
    | untyped h => exact judge_untyped h
    | unknown h hello hlist => exact judge_unknown h hello hlist
    | number h missing =>
      cases hjudge : judge top f with
      | ok m =>
        exfalso
        cases judge_eq_ok.1 hjudge with
        | bhello _ hv hmax hle => exact missing ⟨_, _, hv, hmax, hle⟩
        | list h' hello _ _ _ =>
          rw [h, Option.some.injEq] at h'
          exact hello h'.symm
      | error e => rw [judge_bhello_error h hjudge]
    | list h hello hlist fault =>
      rw [judge_list h hello hlist, list_eq_error.2 fault]
      rfl

/-! ## Two readings -/

/-- The names of the fields that a message of this type has. -/
def fieldsOf (type : String) : List String :=
  if type = "BHELLO" then ["v", "max"]
  else
    match listOf type with
    | some (key, _, _) => [key]
    | none => []

/-- Two readings have one type, and the same values under the names of its fields. -/
structure SameFields (f g : Reading) (type : String) : Prop where
  left : f.type = some type
  right : g.type = some type
  value : ∀ key ∈ fieldsOf type, f.value key = g.value key

/-- The two numbers of a greeting, one of which is above `top`. -/
def CountsOver (top : ℕ) (f : Reading) : Prop :=
  ∃ v max, f.value "v" = some (.uint v) ∧ f.value "max" = some (.uint max) ∧ (top < v ∨ top < max)

theorem type_withList {bounds : String × ℕ × ℕ} {xs : List Bytes} (h : listOf type = some bounds) :
    (withList type xs).type = type := by
  unfold listOf at h
  unfold withList
  split_ifs at h with hids hblocks
  · rcases hids with rfl | rfl <;> rfl
  · subst hblocks
    rfl

theorem withList_inj {xs ys : List Bytes} (h : withList type xs = withList type ys) : xs = ys := by
  unfold withList at h
  split_ifs at h
  · exact BlockMessage.bwant.inj h
  · exact BlockMessage.bdone.inj h
  · exact BlockMessage.blocks.inj h

variable {small : ℕ} {f g : Reading}

/-- Readings of one message have the same fields, none of them over the smaller count. -/
theorem sameFields_of_holds (hf : Holds small f m) (hg : Holds top g m) :
    ∃ type, SameFields f g type ∧ ¬ (type = "BHELLO" ∧ CountsOver small g) := by
  cases hf with
  -- a greeting and a list are of different types, so both sides read the same kind
  | @bhello v max h hv hmax hle =>
    generalize hm : BlockMessage.bhello v max = m at hg
    cases hg with
    | bhello h' hv' hmax' hle' =>
      obtain ⟨rfl, rfl⟩ := BlockMessage.bhello.inj hm
      refine ⟨"BHELLO", ⟨h, h', ?_⟩, ?_⟩
      · intro key hkey
        rw [fieldsOf, if_pos rfl, List.mem_cons, List.mem_singleton] at hkey
        rcases hkey with rfl | rfl
        · rw [hv, hv']
        · rw [hmax, hmax']
      · rintro ⟨-, v', max', hv'', hmax'', hover⟩
        rw [hv', Option.some.injEq, Value.uint.injEq] at hv''
        rw [hmax', Option.some.injEq, Value.uint.injEq] at hmax''
        omega
    | list h' hello hlist value fits =>
      have htype := congrArg BlockMessage.type hm
      rw [type_withList hlist] at htype
      exact absurd htype.symm hello
  | @list type key limit each xs h hello hlist value fits =>
    generalize hm : withList type xs = m at hg
    have htype : m.type = type := by rw [← hm, type_withList hlist]
    cases hg with
    | bhello h' hv' hmax' hle' => exact absurd htype.symm hello
    | @list type' key' limit' each' ys h' hello' hlist' value' fits' =>
      rw [type_withList hlist'] at htype
      subst htype
      obtain rfl := withList_inj hm
      rw [hlist, Option.some.injEq, Prod.mk.injEq] at hlist'
      refine ⟨type', ⟨h, h', ?_⟩, fun hover => hello hover.1⟩
      intro name hname
      rw [fieldsOf, if_neg hello, hlist] at hname
      rw [List.mem_singleton.1 hname, value]
      rw [← hlist'.1] at value'
      exact value'.symm

/-- Two readings with the same fields are judged alike, unless a count lies between the two bounds. -/
theorem judge_eq_of_sameFields (hle : small ≤ top)
    (h : SameFields f g type) (hnot : ¬ (type = "BHELLO" ∧ CountsOver small g)) : judge small f = judge top g := by
  by_cases hello : type = "BHELLO"
  · subst hello
    have hv := h.value "v" (by simp [fieldsOf])
    have hmax := h.value "max" (by simp [fieldsOf])
    have hcount : ¬ CountsOver small g := fun hover => hnot ⟨rfl, hover⟩
    rw [judge_bhello h.left, judge_bhello h.right]
    by_cases hnumbers : ∃ v max, g.value "v" = some (.uint v) ∧ g.value "max" = some (.uint max)
    · obtain ⟨v, max, hgv, hgmax⟩ := hnumbers
      have hsmall : v ≤ small ∧ max ≤ small := by
        by_contra hover
        exact hcount ⟨v, max, hgv, hgmax, by omega⟩
      have hnumberV : number small f "v" = .ok v := number_eq_ok.2 ⟨hv.trans hgv, hsmall.1⟩
      have hnumberMax : number small f "max" = .ok max := number_eq_ok.2 ⟨hmax.trans hgmax, hsmall.2⟩
      rw [hnumberV, hnumberMax, number_eq_ok.2 ⟨hgv, hsmall.1.trans hle⟩, number_eq_ok.2 ⟨hgmax, hsmall.2.trans hle⟩]
    · -- both refuse a number that is missing
      have hmissing : ∀ (count : ℕ) (x : Reading), x.type = some "BHELLO" → x.value "v" = g.value "v" →
          x.value "max" = g.value "max" → judge count x = .error .malformed := by
        intro count x htype hxv hxmax
        rw [judge_eq_error]
        refine .number htype ?_
        rintro ⟨v, max, hxv', hxmax', -⟩
        exact hnumbers ⟨v, max, hxv.symm.trans hxv', hxmax.symm.trans hxmax'⟩
      rw [← judge_bhello h.left, ← judge_bhello h.right, hmissing small f h.left hv hmax,
        hmissing top g h.right rfl rfl]
  -- a list is judged by the value of its key alone
  · cases hlist : listOf type with
    | none => rw [judge_unknown h.left hello hlist, judge_unknown h.right hello hlist]
    | some bounds =>
      obtain ⟨key, limit, each⟩ := bounds
      have hvalue := h.value key (by simp [fieldsOf, hello, hlist])
      rw [judge_list h.left hello hlist, judge_list h.right hello hlist, list, list, Reading.items, Reading.items,
        hvalue]

/-- **When two readings come to one judgement**: they have the same fields, none over the smaller
count, or are refused for one reason. -/
theorem judge_eq_iff (hle : small ≤ top) :
    judge small f = judge top g ↔ (∃ type, SameFields f g type ∧ ¬ (type = "BHELLO" ∧ CountsOver small g)) ∨
      ∃ code, Faulty small f code ∧ Faulty top g code := by
  constructor
  · intro h
    cases hf : judge small f with
    | ok m => exact Or.inl (sameFields_of_holds (judge_eq_ok.1 hf) (judge_eq_ok.1 (h ▸ hf)))
    | error code => exact Or.inr ⟨code, judge_eq_error.1 hf, judge_eq_error.1 (h ▸ hf)⟩
  · rintro (⟨type, hsame, hnot⟩ | ⟨code, hf, hg⟩)
    · exact judge_eq_of_sameFields hle hsame hnot
    · rw [judge_eq_error.2 hf, judge_eq_error.2 hg]

/-! ## The decoders -/

/-- The class of a client's refusal. -/
def clientClass : Client.Blockx.BlockExchangeError → Option BlockExchangeRejection
  | .tooLarge _ => some .tooLarge
  | .nonCanonical _ => some .nonCanonical
  | .malformed _ => some .malformed
  | .unknownType _ => some .unknownType
  | .limitExceeded _ => some .limitExceeded

/-- A decoder that judges the entries of the map it parses. -/
def outcome (read : List (Key × Value) → Except BlockExchangeRejection BlockMessage) (b : Bytes) :
    Except (Option BlockExchangeRejection) BlockMessage :=
  if b.length > 1114112 then .error (some .tooLarge)
  else
    match DetCbor.parse 33 b with
    | none => .error (some .nonCanonical)
    | some (.map es) => (read es).mapError some
    | some _ => .error (some .malformed)

theorem mapError_bind {ε ε' α β : Type} {g : ε → ε'} {x : Except ε α} {h : α → Except ε β} :
    (x >>= h).mapError g = x.mapError g >>= fun a => (h a).mapError g := by
  cases x <;> rfl

theorem registry_entry (x : Value) :
    (BlockExchange.bstrEntry key each (ofWire x)).mapError registryClass = (entry each x).mapError some := by
  cases x with
  | bytes bytes =>
    rw [ofWire, BlockExchange.bstrEntry, entry]
    split_ifs <;> rfl
  | uint n =>
    rw [ofWire]
    split_ifs <;> rfl
  | _ => simp [ofWire, BlockExchange.bstrEntry, entry, registryClass, Except.mapError]

/-- The registry reads a list as the shared reading does. -/
theorem registry_list : (BlockExchange.bstrArray (ofWireEntries [] es) key limit each).mapError registryClass =
    (list (marked es) key limit each).mapError some :=
  registry_items (fun n => s!"{key} holds {n} entries, over the {limit} limit") registry_entry

/-- A judge that reads numbers and lists as another codec does. -/
theorem judge_chain {ε : Type} {g : ε → Option BlockExchangeRejection} {f : Reading} (htype : f.type = some type)
    {numberOf : String → Except ε ℕ} {listAt : String → ℕ → ℕ → Except ε (List Bytes)} {unknown : ε}
    (hnumber : ∀ key, (numberOf key).mapError g = (number top f key).mapError some)
    (hlist : ∀ key limit each, (listAt key limit each).mapError g = (list f key limit each).mapError some)
    (hunknown : g unknown = some .unknownType) :
    Except.mapError g (if type = "BHELLO" then do return .bhello (← numberOf "v") (← numberOf "max")
      else if type = "BWANT" then do return .bwant (← listAt "cids" 64 64)
      else if type = "BDONE" then do return .bdone (← listAt "cids" 64 64)
      else if type = "BLOCKS" then do return .blocks (← listAt "blks" 64 1048576)
      else .error unknown) = (judge top f).mapError some := by
  have hcarries : ∀ key limit each (make : List Bytes → BlockMessage),
      Except.mapError g (do return make (← listAt key limit each)) =
        Except.mapError some (do return make (← list f key limit each)) := by
    intro key limit each make
    rw [mapError_bind, mapError_bind, hlist]
    rfl
  -- the four types in the source's order, then the type that is none of them
  by_cases hello : type = "BHELLO"
  · subst hello
    rw [if_pos rfl, judge_bhello htype, mapError_bind, mapError_bind, hnumber]
    congr 1
    funext v
    rw [mapError_bind, mapError_bind, hnumber]
    rfl
  rw [if_neg hello]
  by_cases hwant : type = "BWANT"
  · subst hwant
    rw [if_pos rfl, judge_list htype hello rfl]
    exact hcarries _ _ _ .bwant
  rw [if_neg hwant]
  by_cases hdone : type = "BDONE"
  · subst hdone
    rw [if_pos rfl, judge_list htype hello rfl]
    exact hcarries _ _ _ .bdone
  rw [if_neg hdone]
  by_cases hblocks : type = "BLOCKS"
  · subst hblocks
    rw [if_pos rfl, judge_list htype hello rfl]
    exact hcarries _ _ _ .blocks
  rw [if_neg hblocks, judge_unknown htype hello (by simp [listOf, hwant, hdone, hblocks]), Except.mapError,
    Except.mapError, hunknown]

/-- **The registry judges the marked reading.** -/
theorem registry_decode (b : Bytes) : (BlockExchange.decodeBlockMessage b).mapError registryClass =
    outcome (fun es => judge maxSafeInteger (marked es)) b := by
  unfold BlockExchange.decodeBlockMessage BlockExchange.checkMessageSize checkSize outcome
    BlockExchange.limitMessageBytes
  by_cases hsize : b.length > 1114112
  · rw [if_pos hsize, if_pos hsize]
    rfl
  rw [if_neg hsize, if_neg hsize, Except.ok_bind]
  cases hparse : DetCbor.parse 33 b with
  | none =>
    rw [readMap]
    cases hdecode : decode b with
    | error e => rfl
    | ok v =>
      obtain ⟨w, hw, -⟩ := decode_eq_ok.1 hdecode
      rw [hparse] at hw
      exact absurd hw (by simp)
  | some w =>
    cases w with
    | map es =>
      rw [registry_type _ _ hparse]
      cases htype : (marked es).type with
      | none =>
        simp only [judge_untyped htype]
        rfl
      | some type =>
        exact judge_chain htype (fun _ => registry_number) (fun _ _ _ => registry_list) rfl
    | uint n =>
      rw [readMap, decode_eq_ok.2 ⟨.uint n, hparse, rfl⟩, ofWire]
      split_ifs <;> rfl
    | _ =>
      rw [readMap, decode_eq_ok.2 ⟨_, hparse, rfl⟩]
      simp [ofWire, registryClass, Except.mapError]

theorem client_entry (x : Value) :
    (Client.Blockx.bstrEntry key each x).mapError clientClass = (entry each x).mapError some := by
  cases x with
  | bytes bytes =>
    rw [Client.Blockx.bstrEntry, entry]
    split_ifs <;> rfl
  | _ => rfl

/-- The client reads a list as the shared reading does. -/
theorem client_list : (Client.Blockx.bstrArray es key limit each).mapError clientClass =
    (list (plain es) key limit each).mapError some := by
  rw [list, ← client_items (.malformed s!"{key} is required") (.malformed s!"{key} must be an array")
    (fun n => .limitExceeded s!"{key} holds {n} entries, over the {limit} limit") client_entry rfl rfl fun _ => rfl]
  rfl

/-- **The client judges the plain reading.** -/
theorem client_decode (b : Bytes) : (Client.Blockx.decodeBlockMessage b).mapError clientClass =
    outcome (fun es => judge (2 ^ 64 - 1) (plain es)) b := by
  unfold Client.Blockx.decodeBlockMessage Client.Blockx.checkSize outcome Client.Blockx.messageBytes
  by_cases hsize : b.length > 1114112
  · rw [if_pos hsize, if_pos hsize]
    rfl
  rw [if_neg hsize, if_neg hsize, Except.ok_bind]
  cases hparse : DetCbor.parse 33 b with
  | none =>
    cases hdecode : Client.decode b with
    | error e => rfl
    | ok v =>
      have hw := DetCbor.parse_eq_some.2 (Client.decode_eq_ok.1 hdecode)
      rw [show Client.maxDepth + 1 = 33 from rfl, hparse] at hw
      exact absurd hw (by simp)
  | some w =>
    have hcanonical := DetCbor.parse_eq_some.1 hparse
    have hdecode : Client.decode b = .ok w := Client.decode_eq_ok.2 hcanonical
    rw [hdecode, Except.mapError, Except.ok_bind, Client.encode_of_decode hdecode, Except.mapError, Except.ok_bind]
    simp only [ne_eq, not_true_eq_false, if_false]
    cases w with
    | map es =>
      simp only
      cases htype : Client.Blockx.typeText es with
      | none =>
        have huntyped : (plain es).type = none := htype
        simp only [judge_untyped huntyped]
        rfl
      | some type =>
        exact judge_chain (f := plain es) htype (fun _ => client_number hcanonical.1 rfl rfl)
          (fun _ _ _ => client_list) rfl
    | _ => rfl

/-! ## The encoders -/

/-- Every number and every length is one that 64 bits hold. -/
def Representable : BlockMessage → Prop
  | .bhello v max => v < 2 ^ 64 ∧ max < 2 ^ 64
  | .bwant xs | .bdone xs | .blocks xs => xs.length < 2 ^ 64 ∧ ∀ x ∈ xs, x.length < 2 ^ 64

theorem byteStrings_fit {xs : List Bytes} (h : xs.length < 2 ^ 64 ∧ ∀ x ∈ xs, x.length < 2 ^ 64) :
    (byteStrings xs).Fits := by
  rw [byteStrings, Value.Fits, DetCbor.itemsFit_iff, List.length_map, List.forall_mem_map]
  refine ⟨h.1, ?_⟩
  intro x hx
  rw [Value.Fits]
  exact h.2 x hx

/-- A representable message has lengths that fit their heads. -/
theorem fields_fit (hm : Representable m) : (Value.map (entries m.fields)).Fits := by
  have hkeys : (Key.text "t").Fits ∧ (Key.text "v").Fits ∧ (Key.text "max").Fits ∧ (Key.text "cids").Fits ∧
      (Key.text "blks").Fits := by
    simp only [DetCbor.Key.Fits]
    decide
  have htype : (Value.text m.type).Fits := by
    cases m <;> simp only [BlockMessage.type, Value.Fits] <;> decide
  rw [Value.Fits, DetCbor.entriesFit_iff]
  cases m with
  | bhello v max =>
    have hnumbers : (Value.uint v).Fits ∧ (Value.uint max).Fits := by
      rw [Value.Fits, Value.Fits]
      exact hm
    simp [entries, BlockMessage.fields, BlockMessage.body, hkeys, htype, hnumbers]
  | bwant xs => simp [entries, BlockMessage.fields, BlockMessage.body, hkeys, htype, byteStrings_fit hm]
  | bdone xs => simp [entries, BlockMessage.fields, BlockMessage.body, hkeys, htype, byteStrings_fit hm]
  | blocks xs => simp [entries, BlockMessage.fields, BlockMessage.body, hkeys, htype, byteStrings_fit hm]

theorem byteStrings_depth (xs : List Bytes) : (byteStrings xs).depth < 32 := by
  rw [byteStrings, Value.depth, DetCbor.itemsDepth_lt, List.forall_mem_map]
  intro x _
  rw [Value.depth] <;> simp

theorem fields_depth (m : BlockMessage) : (Value.map (entries m.fields)).depth < 33 := by
  rw [Value.depth, DetCbor.entriesDepth_lt]
  cases m <;> simp [entries, BlockMessage.fields, BlockMessage.body, Value.depth, byteStrings_depth]

/-- What both encoders write. -/
def written (m : BlockMessage) : Bytes := (Value.map (entries m.fields)).sorted.encode

/-- What the registry writes for a message. -/
theorem registry_write (hm : Representable m) (hsafe : m.Safe) : encode (.map m.toMap) = .ok (written m) := by
  rw [BlockMessage.toMap_eq hsafe]
  exact encode_built m.fields_ok.plainMap.bom m.fields_ok.plainMap.distinct (fields_fit hm) (fields_depth m)

/-- What the client writes for a message. -/
theorem client_write (hm : Representable m) : Client.encode (.map (entries m.fields)) = .ok (written m) :=
  Client.encodeValue_eq_ok _ _ (fields_fit hm) m.fields_ok.plainMap.distinct (fields_depth m)

/-- What is written of a map includes every value in it. -/
theorem values_of_encode {map : CborMap} (h : encode (.map map) = .ok b) :
    ∀ e ∈ map, ∃ out, encodeValue 32 e.2 = .ok out := by
  obtain ⟨keyed, body, hkeys, -, -, hbody, -⟩ := encodeValue_map_eq_ok.1 h
  intro e he
  obtain ⟨k, hk, -, heq⟩ := Except.exists_of_forall₂_left hkeys he
  have hsorted : k ∈ sortEntries keyed := (List.perm_insertionSort _ _).mem_iff.2 hk
  obtain ⟨_, -, out, hout, -⟩ := Except.exists_of_forall₂_left hbody hsorted
  exact ⟨out, heq ▸ hout⟩

/-- The registry writes no number above its count. -/
theorem registry_counts {v max : ℕ} (hv : maxSafeInteger < v)
    (h : encode (.map (BlockMessage.bhello v max).toMap) = .ok b) :
    False := by
  obtain ⟨out, hout⟩ := values_of_encode h (.text "v", .number v) (by simp [BlockMessage.toMap])
  rw [encodeValue, assertUint, if_neg (by omega)] at hout
  exact absurd hout (by simp)

/-- The two checks for repeated identifiers agree. -/
theorem distinct_eq (xs : List Bytes) : ∀ seen : List Bytes,
    (Client.Blockx.assertDistinctFrom seen xs).toOption = (BlockExchange.assertDistinctFrom seen xs).toOption := by
  induction xs with
  | nil =>
    intro seen
    rfl
  | cons x xs ih =>
    intro seen
    rw [BlockExchange.assertDistinctFrom, Client.Blockx.assertDistinctFrom]
    simp only [List.contains_iff_mem]
    split_ifs
    · rfl
    · exact ih _

/-- Both encoders refuse a message on the same grounds, before it is written. -/
theorem members_eq (m : BlockMessage) : (Client.Blockx.membersOf m).toOption =
    (BlockExchange.checkMessage m).toOption.map fun _ => entries m.body := by
  have hlist : ∀ xs : List Bytes, (do Client.Blockx.assertDistinct xs; return entries [("cids", byteStrings xs)] :
      Except Client.Blockx.BlockExchangeError Client.Members).toOption =
        (BlockExchange.assertDistinct xs).toOption.map fun _ => entries [("cids", byteStrings xs)] := by
    intro xs
    rw [BlockExchange.assertDistinct, ← distinct_eq, Client.Blockx.assertDistinct]
    cases Client.Blockx.assertDistinctFrom [] xs <;> rfl
  cases m with
  | bhello v max =>
    rw [BlockExchange.checkMessage, Client.Blockx.membersOf, BlockExchange.limitBlockBytes, Client.Blockx.blockBytes]
    split_ifs <;> rfl
  | bwant xs => exact hlist xs
  | bdone xs => exact hlist xs
  | blocks xs => rfl

/-- A number takes nine bytes at most. -/
theorem length_uint (n : ℕ) : (Value.uint n).encode.length ≤ 9 := by
  rw [Value.encode, DetCbor.head]
  split_ifs <;> simp

/-- A greeting is short. -/
theorem length_bhello {v max : ℕ} (hm : Representable (.bhello v max)) :
    (written (.bhello v max)).length ≤ 1114112 := by
  have hlength := length_sorted (BlockMessage.bhello v max).fields_ok.plainMap.bom
    (BlockMessage.bhello v max).fields_ok.plainMap.distinct (fields_fit hm) (fields_depth _)
  refine hlength.trans ?_
  have hkeys : (Key.text "t").encode.length = 2 ∧ (Key.text "v").encode.length = 2 ∧
      (Key.text "max").encode.length = 4 ∧ (Value.text "BHELLO").encode.length = 7 ∧
      (DetCbor.head 5 3).length = 1 := by decide
  have hv := length_uint v
  have hmax := length_uint max
  have hentries : entries (BlockMessage.bhello v max).fields =
      [(.text "t", .text "BHELLO"), (.text "v", .uint v), (.text "max", .uint max)] := rfl
  rw [hentries, Value.encode, List.length_append, length_encodeEntries]
  simp only [List.length_cons, List.length_nil, List.map_cons, List.map_nil, List.sum_cons, List.sum_nil, hkeys]
  omega

/-- What an encoder answers once its message is written. -/
def sized (bytes : Bytes) : Option Bytes := if bytes.length > 1114112 then none else some bytes

/-- What the registry's encoder returns for a message that passes its checks. -/
theorem registry_encode (hm : Representable m) (hcheck : BlockExchange.checkMessage m = .ok ()) (hsafe : m.Safe) :
    (BlockExchange.encodeBlockMessage m).toOption = sized (written m) := by
  unfold BlockExchange.encodeBlockMessage BlockExchange.checkMessageSize checkSize sized BlockExchange.limitMessageBytes
  rw [hcheck, Except.ok_bind, writeMap_eq_ok.2 (registry_write hm hsafe), Except.ok_bind]
  split_ifs <;> rfl

/-- What the client's encoder returns for a message that passes the checks. -/
theorem client_encode (hm : Representable m) (hcheck : BlockExchange.checkMessage m = .ok ()) :
    (Client.Blockx.encodeBlockMessage m).toOption = sized (written m) := by
  unfold Client.Blockx.encodeBlockMessage Client.Blockx.checkSize sized Client.Blockx.messageBytes
  have htype : Client.Blockx.typeName m = m.type := by cases m <;> rfl
  have hwrite : Client.encode (.map ((.text "t", .text (Client.Blockx.typeName m)) :: entries m.body)) =
      .ok (written m) := by
    rw [htype]
    exact client_write hm
  have hmembers : Client.Blockx.membersOf m = .ok (entries m.body) := by
    rw [← Except.toOption_eq_some, members_eq, hcheck]
    rfl
  rw [hmembers, Except.ok_bind, hwrite, Except.mapError, Except.ok_bind]
  split_ifs <;> rfl

/-- A greeting whose version the registry counts, or whose maximum both refuse. -/
def Greets : BlockMessage → Prop
  | .bhello v max => v ≤ maxSafeInteger ∨ max > 1048576
  | _ => True

/-- **The encoders agree on a message** exactly when the registry counts its version or both refuse
its maximum. -/
theorem encoders_agree_iff (hm : Representable m) :
    (BlockExchange.encodeBlockMessage m).toOption = (Client.Blockx.encodeBlockMessage m).toOption ↔ Greets m := by
  cases hcheck : BlockExchange.checkMessage m with
  | error e =>
    have hclient : (Client.Blockx.encodeBlockMessage m).toOption = none := by
      unfold Client.Blockx.encodeBlockMessage
      cases hmembers : Client.Blockx.membersOf m with
      | error e' => rfl
      | ok members =>
        have hsome := members_eq m
        rw [hmembers, hcheck] at hsome
        exact absurd hsome (by simp)
    have hregistry : (BlockExchange.encodeBlockMessage m).toOption = none := by
      unfold BlockExchange.encodeBlockMessage
      rw [hcheck]
      rfl
    rw [hregistry, hclient]
    refine iff_of_true rfl ?_
    cases m with
    | bhello v max =>
      rw [BlockExchange.checkMessage, BlockExchange.limitBlockBytes] at hcheck
      split_ifs at hcheck with hover
      exact Or.inr hover
    | _ => trivial
  | ok _ =>
    rw [client_encode hm hcheck]
    by_cases hsafe : m.Safe
    · rw [registry_encode hm hcheck hsafe]
      refine iff_of_true rfl ?_
      cases m with
      | bhello v max => exact Or.inl hsafe.1
      | _ => trivial
    -- only a greeting whose version is above 2^53 - 1 passes the checks and is not safe
    · cases m with
      | bhello v max =>
        have hmax : max ≤ 1048576 := by
          by_contra hover
          rw [BlockExchange.checkMessage, BlockExchange.limitBlockBytes, if_pos (by omega)] at hcheck
          exact absurd hcheck (by simp)
        have hv : maxSafeInteger < v := by
          by_contra hle
          refine hsafe ⟨Nat.le_of_not_lt hle, hmax.trans (by decide)⟩
        have hregistry : (BlockExchange.encodeBlockMessage (.bhello v max)).toOption = none := by
          unfold BlockExchange.encodeBlockMessage
          rw [hcheck, Except.ok_bind]
          cases hwrite : (writeMap (BlockMessage.bhello v max).toMap :
            Except BlockExchange.BlockExchangeError Bytes) with
          | error e => rfl
          | ok bytes => exact absurd (registry_counts hv (writeMap_eq_ok.1 hwrite)) id
        have hlength := length_bhello hm
        rw [hregistry, sized, if_neg (by omega)]
        refine iff_of_false (by simp) ?_
        rintro (hle | hover)
        · omega
        · omega
      | _ => exact absurd trivial hsafe

/-! ## Both codecs -/

/-- The entries of a map that both decoders judge alike: the type and its fields read the same with
and without byte order marks, and no number of a greeting is above 2^53 - 1; or both readings are
refused for one reason. -/
def Alike (es : List (Key × Value)) : Prop :=
  (∃ type, SameFields (marked es) (plain es) type ∧ ¬ (type = "BHELLO" ∧ CountsOver maxSafeInteger (plain es))) ∨
    ∃ code, Faulty maxSafeInteger (marked es) code ∧ Faulty (2 ^ 64 - 1) (plain es) code

/-- **The decoders agree on some bytes** exactly when these are too long, hold no map, or hold one
that reads alike. -/
theorem decoders_agree_iff (b : Bytes) :
    (BlockExchange.decodeBlockMessage b).mapError registryClass = (Client.Blockx.decodeBlockMessage b).mapError
    clientClass ↔
      b.length > 1114112 ∨ ∀ es, DetCbor.Canonical 33 (.map es) → b = (Value.map es).encode → Alike es := by
  rw [registry_decode, client_decode]
  unfold outcome
  by_cases hsize : b.length > 1114112
  · rw [if_pos hsize, if_pos hsize]
    exact iff_of_true rfl (Or.inl hsize)
  rw [if_neg hsize, if_neg hsize]
  -- bytes that no wire map encodes are refused alike
  cases hparse : DetCbor.parse 33 b with
  | none =>
    refine iff_of_true rfl (Or.inr ?_)
    intro es hcanonical hbytes
    rw [DetCbor.parse_eq_some.2 ⟨hcanonical, hbytes⟩] at hparse
    exact absurd hparse (by simp)
  | some w =>
    have hcanonical := DetCbor.parse_eq_some.1 hparse
    cases w with
    | map es =>
      have hone : (∀ es', DetCbor.Canonical 33 (.map es') → b = (Value.map es').encode → Alike es') ↔ Alike es := by
        constructor
        · intro h
          exact h es hcanonical.1 hcanonical.2
        · intro h es' hcanonical' hbytes
          have heq := DetCbor.parse_eq_some.2 ⟨hcanonical', hbytes⟩
          rw [hparse, Option.some.injEq, Value.map.injEq] at heq
          exact heq ▸ h
      have hinj : ∀ x y : Except BlockExchangeRejection BlockMessage, x.mapError some = y.mapError some ↔ x = y := by
        intro x y
        cases x <;> cases y <;> simp [Except.mapError]
      rw [hone, hinj, judge_eq_iff (by decide), Alike]
      exact ⟨Or.inr, fun h => h.resolve_left hsize⟩
    | _ =>
      refine iff_of_true rfl (Or.inr ?_)
      intro es hcanonical' hbytes
      rw [DetCbor.parse_eq_some.2 ⟨hcanonical', hbytes⟩] at hparse
      exact absurd hparse (by simp)

/-- **When the two codecs agree**: on bytes whose map reads alike, and on messages whose version the
registry counts. -/
theorem block_codecs_agree_iff (b : Bytes) (m : BlockMessage) (hm : Representable m) :
    ((BlockExchange.decodeBlockMessage b).mapError registryClass =
        (Client.Blockx.decodeBlockMessage b).mapError clientClass ↔
      b.length > 1114112 ∨ ∀ es, DetCbor.Canonical 33 (.map es) → b = (Value.map es).encode → Alike es) ∧
    ((BlockExchange.encodeBlockMessage m).toOption = (Client.Blockx.encodeBlockMessage m).toOption ↔ Greets m) :=
  ⟨decoders_agree_iff b, encoders_agree_iff hm⟩

/-- A greeting of version 1. -/
def greeting : Bytes :=
  [0xa3, 0x61, 0x74, 0x66, 0x42, 0x48, 0x45, 0x4c, 0x4c, 0x4f, 0x61, 0x76, 0x01, 0x63, 0x6d, 0x61, 0x78, 0x1a, 0x00,
   0x10, 0x00, 0x00]

/-- The greeting as bytes and as a message. -/
theorem block_codecs_agree_one :
    Client.Blockx.decodeBlockMessage greeting = .ok (.bhello 1 1048576) ∧
    ((BlockExchange.decodeBlockMessage greeting).mapError registryClass =
        (Client.Blockx.decodeBlockMessage greeting).mapError clientClass ↔
      greeting.length > 1114112 ∨
        ∀ es, DetCbor.Canonical 33 (.map es) → greeting = (Value.map es).encode → Alike es) ∧
    ((BlockExchange.encodeBlockMessage (.bhello 1 1048576)).toOption =
      (Client.Blockx.encodeBlockMessage (.bhello 1 1048576)).toOption ↔ Greets (.bhello 1 1048576)) :=
  ⟨by decide +kernel, block_codecs_agree_iff greeting (.bhello 1 1048576) ⟨by decide, by decide⟩⟩

/-- A greeting of version 2^53, as the client writes it. -/
def bigGreeting : Bytes :=
  [0xa3, 0x61, 0x74, 0x66, 0x42, 0x48, 0x45, 0x4c, 0x4c, 0x4f, 0x61, 0x76, 0x1b, 0x00, 0x20, 0x00, 0x00, 0x00, 0x00,
   0x00, 0x00, 0x63, 0x6d, 0x61, 0x78, 0x00]

/-- The client takes that greeting; the registry calls it malformed. -/
theorem block_codecs_disagree : ¬ ((∀ b : Bytes, (BlockExchange.decodeBlockMessage b).mapError registryClass =
      (Client.Blockx.decodeBlockMessage b).mapError clientClass) ∧
    ∀ m : BlockMessage, Representable m →
      (BlockExchange.encodeBlockMessage m).toOption = (Client.Blockx.encodeBlockMessage m).toOption) := by
  rintro ⟨h, -⟩
  have hclient : (Client.Blockx.decodeBlockMessage bigGreeting).mapError clientClass = .ok (.bhello (2 ^ 53) 0) := by
    decide +kernel
  have hregistry : (BlockExchange.decodeBlockMessage bigGreeting).mapError registryClass =
      .error (some .malformed) := by
    decide +kernel
  have heq := h bigGreeting
  rw [hclient, hregistry] at heq
  exact absurd heq (by simp)

end VayuWeb.BlockCodecs
