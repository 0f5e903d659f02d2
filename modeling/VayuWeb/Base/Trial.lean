import Mathlib.Data.List.Forall2

/-!
# Computations that may throw, over a state

A computation leaves a state behind whether it returns or throws.

* `bind_eq_ok`: a sequence returns when both parts do.
* `Keeps`: an invariant of the state, on either way out; the rules for sequences and loops.
* `Ends`: what is returned and what is thrown, from every state.
* `Lifts`: one computation over two states, one of which carries more.
-/

namespace Trial

variable {ε σ α β : Type}

/-- What a computation returns or throws from a state, and the state it leaves. -/
def outcome (x : ExceptT ε (StateM σ) α) (s : σ) : Except ε α × σ := x.run.run s

variable {x : ExceptT ε (StateM σ) α} {f : α → ExceptT ε (StateM σ) β} {s s' : σ}

@[simp] theorem outcome_pure (a : α) (s : σ) : outcome (pure a : ExceptT ε (StateM σ) α) s = (.ok a, s) := rfl

@[simp] theorem outcome_throw (e : ε) (s : σ) : outcome (throw e : ExceptT ε (StateM σ) α) s = (.error e, s) := rfl

@[simp] theorem outcome_get (s : σ) : outcome (get : ExceptT ε (StateM σ) σ) s = (.ok s, s) := rfl

@[simp] theorem outcome_set (s s' : σ) : outcome (set s' : ExceptT ε (StateM σ) PUnit) s = (.ok ⟨⟩, s') := rfl

@[simp] theorem outcome_ofExcept_ok (a : α) (s : σ) :
    outcome (MonadExcept.ofExcept (.ok a : Except ε α) : ExceptT ε (StateM σ) α) s = (.ok a, s) := rfl

@[simp] theorem outcome_ofExcept_error (e : ε) (s : σ) :
    outcome (MonadExcept.ofExcept (.error e : Except ε α) : ExceptT ε (StateM σ) α) s = (.error e, s) := rfl

/-- A trial that succeeds hands its answer and its state on. -/
theorem bind_of_ok {a : α} (h : outcome x s = (.ok a, s')) : outcome (x >>= f) s = outcome (f a) s' := by
  unfold outcome at h ⊢
  simp only [ExceptT.run_bind, StateT.run_bind, h]
  rfl

/-- A trial that fails ends the bind. -/
theorem bind_of_error {e : ε} (h : outcome x s = (.error e, s')) : outcome (x >>= f) s = (.error e, s') := by
  unfold outcome at h ⊢
  simp only [ExceptT.run_bind, StateT.run_bind, h]
  rfl

/-- **A sequence returns when both parts do.** -/
theorem bind_eq_ok {b : β} :
    outcome (x >>= f) s = (.ok b, s') ↔ ∃ a s₁, outcome x s = (.ok a, s₁) ∧ outcome (f a) s₁ = (.ok b, s') := by
  cases hx : outcome x s with
  | mk result s₁ =>
    cases result with
    | ok a =>
      rw [bind_of_ok hx]
      constructor
      · intro h
        exact ⟨a, s₁, rfl, h⟩
      · rintro ⟨a', s₁', heq, h⟩
        rw [Prod.mk.injEq, Except.ok.injEq] at heq
        rw [heq.1, heq.2]
        exact h
    | error e =>
      rw [bind_of_error hx]
      simp

/-! ## Loops -/

/-- A loop that returns has run its body on each element in turn. -/
theorem mapM_cons_eq_ok {f : α → ExceptT ε (StateM σ) β} {a : α} {as : List α} {bs : List β} :
    outcome ((a :: as).mapM f) s = (.ok bs, s') ↔
      ∃ b s₁ rest, outcome (f a) s = (.ok b, s₁) ∧ outcome (as.mapM f) s₁ = (.ok rest, s') ∧ bs = b :: rest := by
  rw [List.mapM_cons, bind_eq_ok]
  constructor
  · rintro ⟨b, s₁, hb, h⟩
    obtain ⟨rest, s₂, hrest, h⟩ := bind_eq_ok.1 h
    rw [outcome_pure, Prod.mk.injEq, Except.ok.injEq] at h
    rw [h.2] at hrest
    exact ⟨b, s₁, rest, hb, hrest, h.1.symm⟩
  · rintro ⟨b, s₁, rest, hb, hrest, rfl⟩
    refine ⟨b, s₁, hb, bind_eq_ok.2 ⟨rest, s', hrest, ?_⟩⟩
    rw [outcome_pure]

/-! ## Invariants -/

/-- From a state of the invariant a computation comes to one, also when it throws. -/
def Keeps (I : σ → Prop) (x : ExceptT ε (StateM σ) α) : Prop := ∀ s, I s → I (outcome x s).2

variable {I : σ → Prop}

theorem keeps_pure (a : α) : Keeps I (pure a : ExceptT ε (StateM σ) α) := by
  intro s hs
  exact hs

theorem keeps_throw (e : ε) : Keeps I (throw e : ExceptT ε (StateM σ) α) := by
  intro s hs
  exact hs

/-- A bind keeps an invariant that both its parts keep. -/
theorem Keeps.bind (hx : Keeps I x) (hf : ∀ a, Keeps I (f a)) : Keeps I (x >>= f) := by
  intro s hs
  have hs₁ := hx s hs
  cases h : outcome x s with
  | mk result s₁ =>
    rw [h] at hs₁
    cases result with
    | ok a =>
      rw [bind_of_ok h]
      exact hf a s₁ hs₁
    | error e =>
      rw [bind_of_error h]
      exact hs₁

theorem keeps_throw_bind (e : ε) (f : α → ExceptT ε (StateM σ) β) : Keeps I (throw e >>= f) := by
  intro s hs
  rw [bind_of_error (outcome_throw e s)]
  exact hs

/-- A traversal keeps an invariant that each of its steps keeps. -/
theorem keeps_mapM {f : α → ExceptT ε (StateM σ) β} {as : List α} (h : ∀ a ∈ as, Keeps I (f a)) :
    Keeps I (as.mapM f) := by
  induction as with
  | nil => exact keeps_pure []
  | cons a as ih =>
    rw [List.mapM_cons]
    apply (h a List.mem_cons_self).bind
    intro b
    apply (ih fun a' ha' => h a' (List.mem_cons_of_mem _ ha')).bind
    intro bs
    exact keeps_pure (b :: bs)

/-- What a computation that returns has kept. -/
theorem Keeps.of_ok {a : α} (h : Keeps I x) (hs : I s) (hx : outcome x s = (.ok a, s')) : I s' := by
  have hkept := h s hs
  rw [hx] at hkept
  exact hkept

/-! ## Invariants and answers -/

/-- From a state of the invariant a computation comes to one, and what it returns there is `P`. -/
def Yields (I : σ → Prop) (P : α → Prop) (x : ExceptT ε (StateM σ) α) : Prop :=
  ∀ s, I s → I (outcome x s).2 ∧ ∀ a, (outcome x s).1 = .ok a → P a

section Yields

variable {P P' : α → Prop} {Q : β → Prop}

theorem yields_pure {a : α} (h : P a) : Yields I P (pure a : ExceptT ε (StateM σ) α) := by
  intro s hs
  refine ⟨hs, fun b hb => ?_⟩
  rw [outcome_pure] at hb
  cases hb
  exact h

theorem yields_throw (e : ε) : Yields I P (throw e : ExceptT ε (StateM σ) α) := by
  intro s hs
  refine ⟨hs, fun b hb => ?_⟩
  rw [outcome_throw] at hb
  cases hb

theorem yields_ofExcept {e : Except ε α} (h : ∀ a, e = .ok a → P a) :
    Yields I P (MonadExcept.ofExcept e : ExceptT ε (StateM σ) α) := by
  cases e with
  | error e => exact yields_throw e
  | ok a => exact yields_pure (h a rfl)

/-- What a bind yields, by what its parts yield. -/
theorem Yields.bind (hx : Yields I P x) (hf : ∀ a, P a → Yields I Q (f a)) : Yields I Q (x >>= f) := by
  intro s hs
  obtain ⟨hs₁, hok⟩ := hx s hs
  cases h : outcome x s with
  | mk result s₁ =>
    rw [h] at hs₁ hok
    cases result with
    | ok a =>
      rw [bind_of_ok h]
      exact hf a (hok a rfl) s₁ hs₁
    | error e =>
      rw [bind_of_error h]
      refine ⟨hs₁, fun b hb => ?_⟩
      cases hb

theorem yields_throw_bind (e : ε) (f : α → ExceptT ε (StateM σ) β) : Yields I Q (throw e >>= f) :=
  (yields_throw (P := fun _ => False) e).bind fun _ h => h.elim

end Yields

/-! ## Ways out -/

/-- Whatever the state, a computation returns a value of the first kind or throws an error of the second. -/
def Ends (P : α → Prop) (Q : ε → Prop) (x : ExceptT ε (StateM σ) α) : Prop :=
  ∀ s, (∀ a, (outcome x s).1 = .ok a → P a) ∧ (∀ e, (outcome x s).1 = .error e → Q e)

section Ends

variable {P : α → Prop} {P' : β → Prop} {Q : ε → Prop}

theorem ends_pure {a : α} (h : P a) : Ends P Q (pure a : ExceptT ε (StateM σ) α) := by
  intro s
  rw [outcome_pure]
  refine ⟨fun b hb => ?_, fun e he => (by cases he)⟩
  cases hb
  exact h

theorem ends_throw {e : ε} (h : Q e) : Ends P Q (throw e : ExceptT ε (StateM σ) α) := by
  intro s
  rw [outcome_throw]
  refine ⟨fun b hb => (by cases hb), fun e' he => ?_⟩
  cases he
  exact h

/-- How a bind ends, by how its parts end. -/
theorem Ends.bind (hx : Ends P Q x) (hf : ∀ a, P a → Ends P' Q (f a)) : Ends P' Q (x >>= f) := by
  intro s
  obtain ⟨hok, herror⟩ := hx s
  cases h : outcome x s with
  | mk result s₁ =>
    rw [h] at hok herror
    cases result with
    | ok a =>
      rw [bind_of_ok h]
      exact hf a (hok a rfl) s₁
    | error e =>
      rw [bind_of_error h]
      refine ⟨fun b hb => (by cases hb), fun e' he => ?_⟩
      cases he
      exact herror e rfl

theorem ends_throw_bind {e : ε} (h : Q e) (f : α → ExceptT ε (StateM σ) β) : Ends P' Q (throw e >>= f) := by
  intro s
  rw [bind_of_error (outcome_throw e s)]
  refine ⟨fun b hb => (by cases hb), fun e' he => ?_⟩
  cases he
  exact h

/-- How a traversal ends, by how its steps end. -/
theorem ends_mapM {f : α → ExceptT ε (StateM σ) β} {as : List α} (h : ∀ a ∈ as, Ends P' Q (f a)) :
    Ends (fun _ => True) Q (as.mapM f) := by
  induction as with
  | nil => exact ends_pure trivial
  | cons a as ih =>
    rw [List.mapM_cons]
    apply (h a List.mem_cons_self).bind
    intro b _
    apply (ih fun a' ha' => h a' (List.mem_cons_of_mem _ ha')).bind
    intro bs _
    exact ends_pure trivial

end Ends

/-! ## States that carry more -/

section Lifts

variable {τ : Type} {π : τ → σ} {y : ExceptT ε (StateM τ) α} {g : α → ExceptT ε (StateM τ) β}

/-- `y` does over a larger state what `x` does over the part `π` of it. -/
def Lifts (π : τ → σ) (x : ExceptT ε (StateM σ) α) (y : ExceptT ε (StateM τ) α) : Prop :=
  ∀ t, outcome x (π t) = ((outcome y t).1, π (outcome y t).2)

theorem lifts_pure (a : α) : Lifts π (pure a) (pure a : ExceptT ε (StateM τ) α) := by
  intro t
  rw [outcome_pure, outcome_pure]

theorem lifts_throw (e : ε) : Lifts π (throw e) (throw e : ExceptT ε (StateM τ) α) := by
  intro t
  rw [outcome_throw, outcome_throw]

/-- Binds that correspond part by part correspond. -/
theorem Lifts.bind (hx : Lifts π x y) (hf : ∀ a, Lifts π (f a) (g a)) : Lifts π (x >>= f) (y >>= g) := by
  intro t
  have ht := hx t
  cases h : outcome y t with
  | mk result t₁ =>
    rw [h] at ht
    cases result with
    | ok a =>
      rw [bind_of_ok h, bind_of_ok ht]
      exact hf a t₁
    | error e =>
      rw [bind_of_error h, bind_of_error ht]

theorem lifts_throw_bind (e : ε) (f : α → ExceptT ε (StateM σ) β) (g : α → ExceptT ε (StateM τ) β) :
    Lifts π (throw e >>= f) (throw e >>= g) := by
  intro t
  rw [bind_of_error (outcome_throw e _), bind_of_error (outcome_throw e t)]

/-- Traversals that correspond step by step correspond. -/
theorem lifts_mapM {f : α → ExceptT ε (StateM σ) β} {g : α → ExceptT ε (StateM τ) β} (h : ∀ a, Lifts π (f a) (g a))
    (as : List α) : Lifts π (as.mapM f) (as.mapM g) := by
  induction as with
  | nil => exact lifts_pure []
  | cons a as ih =>
    rw [List.mapM_cons, List.mapM_cons]
    apply (h a).bind
    intro b
    apply ih.bind
    intro bs
    exact lifts_pure (b :: bs)

end Lifts

end Trial
