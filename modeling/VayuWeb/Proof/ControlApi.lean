import VayuWeb.Spec.Control
import VayuWeb.Proof.Response

/-!
# Who the control API acts for, and what it tells

* `effect_needs_token`: what is written on a connection, whatever its bytes, and what the process holds after it, are
  the same under any ports, unless a request on it has the header, no origin and the token.
* `redact_reaches`: of a configuration, every value under a secret name is redacted that is reached through nested
  objects, and every other that is so reached is as it was. Arrays are left as they are.
* `client_reads_event`: whatever is written the client reads, as the status and the body that were meant.
-/

namespace VayuWeb.Control

open Serve

variable {π : Type}

/-! ## Authority -/

/-- What a request must bring to be acted on. -/
structure Authorised (decode64 : Utf16 → Bytes) (request : ControlRequest) (token : Utf16) : Prop where
  upgrade : request.headers.get? (Utf16.of "upgrade") = none
  origin : request.headers.get? (Utf16.of "origin") = none
  header : request.headers.get? controlHeader = some (Utf16.of "1")
  token_matches : tokenMatches decode64 (presented request) token = true

/-- Who passes the gate is authorised. -/
theorem authorised_of_gate {decode64 : Utf16 → Bytes} {request : ControlRequest} {token : Utf16}
    (h : gate decode64 request token = none) : Authorised decode64 request token := by
  unfold gate at h
  split_ifs at h with hupgrade horigin hheader htoken
  rw [not_or] at hupgrade
  exact ⟨Option.not_isSome_iff_eq_none.1 hupgrade.1, Option.not_isSome_iff_eq_none.1 horigin, not_not.1 hheader,
    htoken⟩

/-- The request that a head is. -/
def requestOf (head : RequestHead) : ControlRequest :=
  { method := head.method, path := head.target, headers := head.headers, body := head.body }

section
variable (ports : ControlPorts π) (decode64 : Utf16 → Bytes) (stringify : Json.Value → String) (token : π → Utf16)

/-- What a head is answered, or what is said of a throw. -/
def answerTo (head : RequestHead) (s : π) : ControlResponse :=
  (handleControlRequest ports decode64 (requestOf head) (token s) s).1.getD internal

/-- What the listener writes for a request. -/
theorem respond_eq (head : RequestHead) (s : π) :
    respond ports decode64 stringify token head s =
      (some {
        status := (answerTo ports decode64 token head s).status
        headers := (answerTo ports decode64 token head s).headers
        body := Bytes.utf8Encode (stringify (answerTo ports decode64 token head s).body) },
       (handleControlRequest ports decode64 (requestOf head) (token s) s).2) := rfl

/-- One event on a connection, where no request is authorised, is answered without a port. -/
theorem write_of_unauthorised {event : Event} {s : π}
    (h : ∀ head, event = .respond head → ¬ Authorised decode64 (requestOf head) (token s)) (ports' : ControlPorts π) :
    (event.write (respond ports decode64 stringify token) s).2 = s ∧
      event.write (respond ports' decode64 stringify token) s = event.write
        (respond ports decode64 stringify token) s := by
  cases event with
  | refuse code => exact ⟨rfl, rfl⟩
  | respond head =>
    cases hgate : gate decode64 (requestOf head) (token s) with
    | none => exact absurd (authorised_of_gate hgate) (h head rfl)
    | some refusal =>
      have hrefused (ports : ControlPorts π) :
          handleControlRequest ports decode64 (requestOf head) (token s) s = (some refusal, s) := by
        unfold handleControlRequest
        rw [hgate]
        rfl
      unfold Event.write
      dsimp only
      rw [respond_eq, respond_eq]
      unfold answerTo
      rw [hrefused ports, hrefused ports']
      exact ⟨rfl, rfl⟩

/-- **No effect without the token**: whatever bytes come on a connection, either a request on it is authorised, or
nothing has changed and what is written is the same under any ports. -/
theorem effect_needs_token (chunks : List Bytes) (s : π) :
    (∃ head, .respond head ∈ Connection.fresh.serve true chunks ∧ Authorised decode64 (requestOf head) (token s)) ∨
      (serveConnection (respond ports decode64 stringify token) true chunks s).2 = s ∧
      ∀ ports', serveConnection (respond ports' decode64 stringify token) true chunks s =
        serveConnection (respond ports decode64 stringify token) true chunks s := by
  rw [or_iff_not_imp_left]
  intro hnone
  unfold serveConnection
  generalize Connection.fresh.serve true chunks = events at hnone
  generalize ([] : Bytes) = written
  -- each answer is written without the token, so it moves neither the state nor the ports
  induction events generalizing written with
  | nil => exact ⟨rfl, fun _ => rfl⟩
  | cons event events ih =>
    have hevent : ∀ head, event = .respond head → ¬ Authorised decode64 (requestOf head) (token s) := by
      intro head heq hauthorised
      exact hnone ⟨head, by rw [heq]; exact List.mem_cons_self, hauthorised⟩
    have hrest : ¬ ∃ head, .respond head ∈ events ∧ Authorised decode64 (requestOf head) (token s) := by
      rintro ⟨head, hmem, hauthorised⟩
      exact hnone ⟨head, List.mem_cons_of_mem _ hmem, hauthorised⟩
    obtain ⟨hstate, -⟩ := write_of_unauthorised ports decode64 stringify token hevent ports
    have hpair : event.write (respond ports decode64 stringify token) s =
        ((event.write (respond ports decode64 stringify token) s).1, s) := Prod.ext rfl hstate
    generalize (event.write (respond ports decode64 stringify token) s).1 = bytes at hpair
    obtain ⟨hkept, hsame⟩ := ih hrest (written ++ bytes)
    refine ⟨?_, fun ports' => ?_⟩
    · rw [List.foldl_cons]
      dsimp only
      rw [hpair]
      exact hkept
    · have hpair' := (write_of_unauthorised ports decode64 stringify token hevent ports').2.trans hpair
      rw [List.foldl_cons, List.foldl_cons]
      dsimp only
      rw [hpair, hpair']
      exact hsame ports'

end

/-! ## Redaction -/

/-- A value that is reached through objects, under the names on the way to it. -/
def At : List (Utf16 × Json.Value) → List Utf16 → Json.Value → Prop
  | _, [], _ => False
  | members, [name], value => (name, value) ∈ members
  | members, name :: next :: path, value => ∃ inner, (name, .object inner) ∈ members ∧ At inner (next :: path) value

/-- A name whose value is kept: no secret one, and none that is set as no member. -/
def IsKept (name : Utf16) : Prop := isSecret name = false ∧ name ≠ Utf16.of "__proto__"

section
variable {members : List (Utf16 × Json.Value)} {name : Utf16} {value : Json.Value}

/-- What a redacted object shows of a member. -/
theorem member_redact : (name, value) ∈ redact members ↔ ∃ held, (name, held) ∈ members ∧
    (isSecret name = true ∧ value = redacted ∨ IsKept name ∧ value = redactValue held) := by
  induction members with
  | nil =>
    rw [redact]
    constructor
    · intro h
      exact absurd h List.not_mem_nil
    · rintro ⟨held, h, -⟩
      exact absurd h List.not_mem_nil
  | cons e members ih =>
    obtain ⟨other, first⟩ := e
    -- a member of the rest is one of the whole
    have hlater : (∃ held, (name, held) ∈ members ∧
        (isSecret name = true ∧ value = redacted ∨ IsKept name ∧ value = redactValue held)) →
        ∃ held, (name, held) ∈ (other, first) :: members ∧
          (isSecret name = true ∧ value = redacted ∨ IsKept name ∧ value = redactValue held) := by
      rintro ⟨held, hmem, hvalue⟩
      exact ⟨held, List.mem_cons_of_mem _ hmem, hvalue⟩
    rw [redact]
    by_cases hsecret : isSecret other = true
    · rw [if_pos hsecret, List.mem_cons, ih]
      constructor
      · rintro (heq | hrest)
        · cases heq
          exact ⟨first, List.mem_cons_self, Or.inl ⟨hsecret, rfl⟩⟩
        · exact hlater hrest
      · rintro ⟨held, hmem, hvalue⟩
        rcases List.mem_cons.1 hmem with heq | hmem
        · cases heq
          rcases hvalue with ⟨-, hvalue⟩ | ⟨hkept, -⟩
          · rw [hvalue]
            exact Or.inl rfl
          · rw [hkept.1] at hsecret
            cases hsecret
        · exact Or.inr ⟨held, hmem, hvalue⟩
    · rw [if_neg hsecret]
      have hplain : isSecret other = false := Bool.not_eq_true _ ▸ hsecret
      by_cases hproto : other = Utf16.of "__proto__"
      · rw [if_pos hproto, ih]
        constructor
        · exact hlater
        · rintro ⟨held, hmem, hvalue⟩
          rcases List.mem_cons.1 hmem with heq | hmem
          · cases heq
            rcases hvalue with ⟨hs, -⟩ | ⟨hkept, -⟩
            · exact absurd hs hsecret
            · exact absurd hproto hkept.2
          · exact ⟨held, hmem, hvalue⟩
      · rw [if_neg hproto, List.mem_cons, ih]
        constructor
        · rintro (heq | hrest)
          · cases heq
            exact ⟨first, List.mem_cons_self, Or.inr ⟨⟨hplain, hproto⟩, rfl⟩⟩
          · exact hlater hrest
        · rintro ⟨held, hmem, hvalue⟩
          rcases List.mem_cons.1 hmem with heq | hmem
          · cases heq
            rcases hvalue with ⟨hs, -⟩ | ⟨-, hvalue⟩
            · exact absurd hs hsecret
            · rw [hvalue]
              exact Or.inl rfl
          · exact Or.inr ⟨held, hmem, hvalue⟩

/-- An object that is left is one whose members are redacted. -/
theorem object_redact {inner : List (Utf16 × Json.Value)} :
    (name, .object inner) ∈ redact members ↔
      ∃ held, (name, .object held) ∈ members ∧ IsKept name ∧ inner = redact held := by
  rw [member_redact]
  constructor
  · rintro ⟨held, hmem, ⟨-, hvalue⟩ | ⟨hkept, hvalue⟩⟩
    · unfold redacted text at hvalue
      cases hvalue
    · cases held with
      | object held =>
        rw [redactValue] at hvalue
        cases hvalue
        exact ⟨held, hmem, hkept, rfl⟩
      | _ =>
        rw [redactValue] at hvalue <;> cases hvalue
  · rintro ⟨held, hmem, hkept, rfl⟩
    exact ⟨.object held, hmem, Or.inr ⟨hkept, by rw [redactValue]⟩⟩

end

/-- **Every value under a secret name is redacted** that is reached through nested objects, and every other that is so
reached is as it was, up to what is redacted in it. What an array holds is not reached. -/
theorem redact_reaches (config : List (Utf16 × Json.Value)) (path : List Utf16) (value : Json.Value) :
    At (redact config) path value ↔ ∃ held, At config path held ∧
      ((∀ name ∈ path, IsKept name) ∧ value = redactValue held ∨
        (∀ name ∈ path.dropLast, IsKept name) ∧ (∃ name, path.getLast? = some name ∧ isSecret name = true) ∧
          value = redacted) := by
  induction path generalizing config with
  | nil =>
    constructor
    · intro h
      exact h.elim
    · rintro ⟨held, h, -⟩
      exact h.elim
  | cons name path ih =>
    cases path with
    -- the last name of the path is the only one that may be secret
    | nil =>
      unfold At
      rw [member_redact]
      constructor
      · rintro ⟨held, hmem, ⟨hsecret, hvalue⟩ | ⟨hkept, hvalue⟩⟩
        · refine ⟨held, hmem, Or.inr ⟨?_, ⟨name, rfl, hsecret⟩, hvalue⟩⟩
          intro other hother
          exact absurd hother List.not_mem_nil
        · refine ⟨held, hmem, Or.inl ⟨?_, hvalue⟩⟩
          intro other hother
          rw [List.mem_singleton.1 hother]
          exact hkept
      · rintro ⟨held, hmem, ⟨hkept, hvalue⟩ | ⟨-, ⟨last, hlast, hsecret⟩, hvalue⟩⟩
        · exact ⟨held, hmem, Or.inr ⟨hkept name List.mem_cons_self, hvalue⟩⟩
        · cases hlast
          exact ⟨held, hmem, Or.inl ⟨hsecret, hvalue⟩⟩
    -- before the last name only an object is entered, and an object under a kept name is redacted inside
    | cons next path =>
      have hlast : (name :: next :: path).getLast? = (next :: path).getLast? := List.getLast?_cons_cons
      have hfront : (name :: next :: path).dropLast = name :: (next :: path).dropLast := rfl
      rw [hlast, hfront]
      constructor
      · rintro ⟨inner, hmem, hat⟩
        obtain ⟨before, hbefore, hkept, rfl⟩ := object_redact.1 hmem
        obtain ⟨held, hheld, hcase⟩ := (ih before).1 hat
        refine ⟨held, ⟨before, hbefore, hheld⟩, ?_⟩
        rcases hcase with ⟨hall, hvalue⟩ | ⟨hall, hsecret, hvalue⟩
        · exact Or.inl ⟨List.forall_mem_cons.2 ⟨hkept, hall⟩, hvalue⟩
        · exact Or.inr ⟨List.forall_mem_cons.2 ⟨hkept, hall⟩, hsecret, hvalue⟩
      · rintro ⟨held, ⟨before, hbefore, hheld⟩, hcase⟩
        rcases hcase with ⟨hall, hvalue⟩ | ⟨hall, hsecret, hvalue⟩
        · obtain ⟨hkept, hall⟩ := List.forall_mem_cons.1 hall
          exact ⟨redact before, object_redact.2 ⟨before, hbefore, hkept, rfl⟩,
            (ih before).2 ⟨held, hheld, Or.inl ⟨hall, hvalue⟩⟩⟩
        · obtain ⟨hkept, hall⟩ := List.forall_mem_cons.1 hall
          exact ⟨redact before, object_redact.2 ⟨before, hbefore, hkept, rfl⟩,
            (ih before).2 ⟨held, hheld, Or.inr ⟨hall, hsecret, hvalue⟩⟩⟩

/-! ## What is read of it -/

/-- A response whose head the client can read. -/
structure Readable (response : ControlResponse) : Prop where
  status_lt : response.status < 2 ^ 16
  plain : ∀ e ∈ response.headers, PlainHeader e

/-- A port whose responses are readable. -/
def Answers (port : Port π ControlResponse) : Prop := ∀ s response, (port s).1 = some response → Readable response

theorem plain_denyHeaders : ∀ e ∈ denyHeaders, PlainHeader e := by
  unfold denyHeaders PlainHeader
  decide

/-- Every refusal can be read back. -/
theorem readable_deny {status : ℕ} (h : status < 2 ^ 16) (reason : String) : Readable (deny status reason) :=
  ⟨h, plain_denyHeaders⟩

theorem readable_ok (body : Json.Value) : Readable (ok body) :=
  ⟨(by decide : 200 < 2 ^ 16), plain_denyHeaders⟩

theorem readable_internal : Readable internal := ⟨by decide, fun _ h => absurd h List.not_mem_nil⟩

theorem answers_reply {response : ControlResponse} (h : Readable response) : Answers (reply response : Port π _) := by
  intro s r heq
  cases heq
  exact h

theorem answers_answer {α : Type} {port : Port π α} {respond : α → ControlResponse} (h : ∀ a, Readable (respond a)) :
    Answers (answer port respond) := by
  intro s r heq
  unfold answer at heq
  obtain ⟨a, -, rfl⟩ := Option.map_eq_some_iff.1 heq
  exact h a

section
variable {ports : ControlPorts π}

/-- The resolve route answers, and readably. -/
theorem answers_resolveBody (body : Bytes) : Answers (resolveBody ports body) := by
  unfold resolveBody
  split
  · exact answers_reply (readable_deny (by decide) _)
  · split
    · exact answers_reply (readable_deny (by decide) _)
    · exact answers_answer fun _ => readable_ok _

/-- The pin route answers, and readably. -/
theorem answers_pinBody (body : Bytes) : Answers (pinBody ports body) := by
  unfold pinBody
  split
  · exact answers_reply (readable_deny (by decide) _)
  · split
    · exact answers_reply (readable_deny (by decide) _)
    · apply answers_answer
      intro outcome
      cases outcome with
      | notHeld => exact readable_deny (by decide) _
      | full => exact readable_deny (by decide) _
      | pinned => exact readable_ok _
      | already => exact readable_ok _

theorem readable_unsupportedField (field : Utf16) : Readable (unsupportedField field) :=
  ⟨(by decide : 400 < 2 ^ 16), plain_denyHeaders⟩

theorem readable_readSizes {sizes : Members} {refusal : ControlResponse} (h : readSizes sizes = .error refusal) :
    Readable refusal := by
  induction sizes with
  | nil => cases h
  | cons e sizes ih =>
    obtain ⟨field, value⟩ := e
    unfold readSizes at h
    by_cases hfield : cacheSizeFields.contains field = true
    · rw [if_neg (not_not_intro hfield)] at h
      cases value with
      | number n =>
        dsimp only at h
        cases hrest : readSizes sizes with
        | error inner =>
          rw [hrest] at h
          cases h
          exact ih hrest
        | ok asked =>
          rw [hrest] at h
          cases h
      | _ =>
        cases h
        exact readable_deny (by decide) _
    · rw [if_pos hfield] at h
      cases h
      exact readable_unsupportedField field

theorem readable_patchOf {body : Bytes} {refusal : ControlResponse} (h : patchOf body = .error refusal) :
    Readable refusal := by
  unfold patchOf at h
  split at h
  · cases h
    exact readable_deny (by decide) _
  · split at h
    · cases h
      exact readable_unsupportedField _
    · split at h
      · exact readable_readSizes h
      · cases h
        exact readable_deny (by decide) _

/-- The configuration route answers, and readably. -/
theorem answers_patchConfig (body : Bytes) : Answers (patchConfig ports body) := by
  unfold patchConfig
  cases hpatch : patchOf body with
  | error refusal => exact answers_reply (readable_patchOf hpatch)
  | ok asked =>
    intro s r heq
    dsimp only at heq
    cases hport : (ports.patchCacheSizes asked s).1 with
    | some members =>
      rw [hport] at heq
      cases heq
      exact readable_ok _
    | none =>
      rw [hport] at heq
      cases heq
      exact readable_deny (by decide) _

theorem answers_getStatus : Answers (getStatus ports) := by
  intro s r heq
  unfold getStatus at heq
  dsimp only at heq
  split at heq
  · cases heq
  · exact answers_answer (fun _ => readable_ok _) _ _ heq

theorem answers_ite {c : Prop} [Decidable c] {port other : Port π ControlResponse} (h : Answers port)
    (h' : Answers other) : Answers (if c then port else other) := by
  split_ifs
  · exact h
  · exact h'

theorem answers_exactRoute (line : Utf16) (body : Bytes) : Answers (exactRoute ports line body) := by
  unfold exactRoute
  apply answers_ite (answers_resolveBody body)
  apply answers_ite (answers_pinBody body)
  apply answers_ite (answers_patchConfig body)
  apply answers_ite (answers_answer fun _ => readable_ok _)
  apply answers_ite (answers_reply (readable_ok _))
  apply answers_ite answers_getStatus
  -- the rest read one port each
  iterate 9 apply answers_ite (answers_answer fun _ => readable_ok _)
  exact answers_reply (readable_deny (by decide) _)

/-- Every route answers, and readably. -/
theorem answers_route (request : ControlRequest) : Answers (route ports request) := by
  unfold route
  split_ifs
  · split
    · exact answers_reply (readable_deny (by decide) _)
    · exact answers_answer fun _ => readable_ok _
  · split
    · exact answers_reply (readable_deny (by decide) _)
    · exact answers_answer fun _ => readable_ok _
    · exact answers_answer fun _ => readable_ok _
    · exact answers_exactRoute _ _

/-- Every refusal of the gate can be read back. -/
theorem readable_gate {decode64 : Utf16 → Bytes} {request : ControlRequest} {token : Utf16} {refusal : ControlResponse}
    (h : gate decode64 request token = some refusal) : Readable refusal := by
  unfold gate at h
  split_ifs at h <;> cases h <;> exact readable_deny (by decide) _

/-- Every request is answered, and readably. -/
theorem answers_handle (decode64 : Utf16 → Bytes) (request : ControlRequest) (token : Utf16) :
    Answers (handleControlRequest ports decode64 request token) := by
  unfold handleControlRequest
  cases hgate : gate decode64 request token with
  | some refusal => exact answers_reply (readable_gate hgate)
  | none => exact answers_route request

end

/-- **What is written the client reads**: the code of a refusal, and of a request the status and the body that it is
answered with, or of a throw that it is internal; of a HEAD request no body. -/
theorem client_reads_event (ports : ControlPorts π) (decode64 : Utf16 → Bytes) (stringify : Json.Value → String)
    (token : π → Utf16) (event : Event) (s : π) :
    Client.Control.parseResponse (event.write (respond ports decode64 stringify token) s).1 =
      match event with
      | .refuse code => .ok { status := statusFor code, body := code.name }
      | .respond head => .ok {
          status := (answerTo ports decode64 token head s).status
          body := if head.method = Utf16.of "HEAD" then ""
            else stringify (answerTo ports decode64 token head s).body } := by
  cases event with
  | refuse code =>
    have hstatus : statusFor code < 2 ^ 16 := by
      unfold statusFor
      split_ifs <;> decide
    exact Client.Control.parseResponse_write hstatus (fun _ h => absurd h List.not_mem_nil) code.name false
  | respond head =>
    -- whatever the handler answers, the head is one that the client reads
    have hreadable : Readable (answerTo ports decode64 token head s) := by
      unfold answerTo
      cases hanswer : (handleControlRequest ports decode64 (requestOf head) (token s) s).1 with
      | none => exact readable_internal
      | some response => exact answers_handle decode64 (requestOf head) (token s) s response hanswer
    have hread := Client.Control.parseResponse_write hreadable.status_lt hreadable.plain
      (stringify (answerTo ports decode64 token head s).body) (decide (head.method = Utf16.of "HEAD"))
    unfold Event.write
    dsimp only
    rw [respond_eq]
    dsimp only
    rw [hread]
    by_cases hhead : head.method = Utf16.of "HEAD"
    · rw [decide_eq_true hhead, if_pos rfl, if_pos hhead]
    · rw [decide_eq_false hhead, if_neg Bool.false_ne_true, if_neg hhead]

end VayuWeb.Control
