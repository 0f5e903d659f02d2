import Mathlib.Data.List.Forall2

/-!
# Computations that may fail

Inversion of `bind` and `mapM` in `Except`: a sequence succeeds when every part of
it does.
-/

namespace Except

universe u v

variable {ε : Type u} {α β : Type v}

@[simp] theorem ok_bind (a : α) (f : α → Except ε β) : (Except.ok a >>= f) = f a := rfl

@[simp] theorem error_bind (e : ε) (f : α → Except ε β) :
    ((Except.error e : Except ε α) >>= f) = Except.error e := rfl

@[simp] theorem pure_eq_ok (a : α) : (pure a : Except ε α) = Except.ok a := rfl

@[simp] theorem throw_eq_error (e : ε) : (throw e : Except ε α) = Except.error e := rfl

/-- A refusal ahead of the rest. -/
theorem guarded_eq_ok {c : Prop} [Decidable c] {e : ε} {f : α → Except ε β} {x : Except ε β} {b : β} :
    (if c then (throw e : Except ε α) >>= f else x) = .ok b ↔ ¬ c ∧ x = .ok b := by
  by_cases h : c
  · simp [h]
  · simp [h]

/-- A bind succeeds exactly where both parts do. -/
theorem bind_eq_ok {x : Except ε α} {f : α → Except ε β} {b : β} :
    (x >>= f) = .ok b ↔ ∃ a, x = .ok a ∧ f a = .ok b := by
  cases x <;> simp

/-- A sequence fails where the first part or the second does. -/
theorem bind_eq_error {x : Except ε α} {f : α → Except ε β} {e : ε} :
    (x >>= f) = .error e ↔ x = .error e ∨ ∃ a, x = .ok a ∧ f a = .error e := by
  cases x <;> simp

/-! ## Forgetting the error -/

@[simp] theorem toOption_ok (a : α) : (Except.ok a : Except ε α).toOption = some a := rfl

@[simp] theorem toOption_error (e : ε) : (Except.error e : Except ε α).toOption = none := rfl

theorem toOption_bind (x : Except ε α) (f : α → Except ε β) :
    (x >>= f).toOption = x.toOption.bind fun a => (f a).toOption := by
  cases x <;> rfl

theorem toOption_eq_some {x : Except ε α} {a : α} : x.toOption = some a ↔ x = .ok a := by
  cases x <;> simp

/-! ## Sequences -/

/-- A traversal succeeds exactly where it does on every item. -/
theorem mapM_eq_ok {f : α → Except ε β} {xs : List α} {ys : List β} :
    xs.mapM f = .ok ys ↔ List.Forall₂ (fun x y => f x = .ok y) xs ys := by
  induction xs generalizing ys with
  | nil => cases ys <;> simp [List.mapM_nil]
  | cons x xs ih =>
    rw [List.mapM_cons, bind_eq_ok]
    constructor
    · rintro ⟨y, hy, h⟩
      obtain ⟨zs, hzs, h⟩ := bind_eq_ok.1 h
      rw [pure_eq_ok, Except.ok.injEq] at h; subst h
      exact List.Forall₂.cons hy (ih.1 hzs)
    · intro h
      cases h with
      | cons hy hzs => exact ⟨_, hy, bind_eq_ok.2 ⟨_, ih.2 hzs, rfl⟩⟩

/-- When every part succeeds with the value `g` names, so does the sequence. -/
theorem mapM_ok {f : α → Except ε β} {g : α → β} {xs : List α} (h : ∀ x ∈ xs, f x = .ok (g x)) :
    xs.mapM f = .ok (xs.map g) := by
  rw [mapM_eq_ok]
  induction xs with
  | nil => exact List.Forall₂.nil
  | cons x xs ih =>
    exact List.Forall₂.cons (h x List.mem_cons_self) (ih fun y hy => h y (List.mem_cons_of_mem _ hy))

/-- A sequence fails as the first part does that fails. -/
theorem mapM_eq_error {f : α → Except ε β} {xs : List α} {e : ε} :
    xs.mapM f = .error e ↔ ∃ good x rest, xs = good ++ x :: rest ∧ (∀ y ∈ good, ∃ z, f y = .ok z) ∧ f x = .error e := by
  induction xs with
  | nil => simp [List.mapM_nil]
  | cons x xs ih =>
    rw [List.mapM_cons]
    constructor
    · intro h
      cases hx : f x with
      | error e' =>
        rw [hx, error_bind, Except.error.injEq] at h
        exact ⟨[], x, xs, rfl, fun y hy => absurd hy List.not_mem_nil, by rw [hx, h]⟩
      | ok z =>
        rw [hx, ok_bind] at h
        cases hxs : xs.mapM f with
        | ok zs => simp [hxs] at h
        | error e' =>
          rw [hxs, error_bind, Except.error.injEq] at h
          obtain ⟨good, y, rest, rfl, hgood, hy⟩ := ih.1 (h ▸ hxs)
          refine ⟨x :: good, y, rest, rfl, ?_, hy⟩
          exact List.forall_mem_cons.2 ⟨⟨z, hx⟩, hgood⟩
    · rintro ⟨good, y, rest, heq, hgood, hy⟩
      -- the loop stops at the first that fails, so those before it were all read
      cases good with
      | nil =>
        rw [List.nil_append, List.cons.injEq] at heq
        rw [heq.1, hy, error_bind]
      | cons g good =>
        rw [List.cons_append, List.cons.injEq] at heq
        obtain ⟨⟨z, hz⟩, hgood⟩ := List.forall_mem_cons.1 hgood
        rw [heq.1, hz, ok_bind, ih.2 ⟨good, y, rest, heq.2, hgood, hy⟩, error_bind]

/-- Naming an error otherwise, part by part. -/
theorem mapError_mapM {ε' : Type u} {g : ε → ε'} {f : α → Except ε β} {xs : List α} :
    (xs.mapM f).mapError g = xs.mapM fun x => (f x).mapError g := by
  induction xs with
  | nil => rfl
  | cons x xs ih =>
    rw [List.mapM_cons, List.mapM_cons, ← ih]
    cases f x with
    | error e => rfl
    | ok y => cases xs.mapM f <;> rfl

/-- Checks in a row pass when each does. -/
theorem forM_eq_ok {f : α → Except ε PUnit} {xs : List α} : xs.forM f = .ok ⟨⟩ ↔ ∀ x ∈ xs, f x = .ok ⟨⟩ := by
  induction xs with
  | nil => simp [List.forM]
  | cons x xs ih =>
    have hcons : (x :: xs).forM f = f x >>= fun _ => xs.forM f := rfl
    rw [hcons, bind_eq_ok]
    constructor
    · rintro ⟨_, hx, hxs⟩ y hy
      rcases List.mem_cons.1 hy with rfl | hy
      · exact hx
      · exact ih.1 hxs y hy
    · intro h
      exact ⟨⟨⟩, h x List.mem_cons_self, ih.2 fun y hy => h y (List.mem_cons_of_mem _ hy)⟩

/-! ## Lists part by part -/

/-- A relation of two lists, weakened where the first list says it may be. -/
theorem forall₂_imp_mem {α β : Type} {R S : α → β → Prop} {xs : List α} {ys : List β}
    (h : List.Forall₂ R xs ys) (himp : ∀ x ∈ xs, ∀ y, R x y → S x y) : List.Forall₂ S xs ys := by
  induction h with
  | nil => exact List.Forall₂.nil
  | cons hxy _ ih =>
    exact List.Forall₂.cons (himp _ List.mem_cons_self _ hxy)
      (ih fun x hx => himp x (List.mem_cons_of_mem _ hx))

theorem forall₂_of_exists {α β : Type} {R : α → β → Prop} {xs : List α} (h : ∀ x ∈ xs, ∃ y, R x y) :
    ∃ ys, List.Forall₂ R xs ys := by
  induction xs with
  | nil => exact ⟨[], List.Forall₂.nil⟩
  | cons x xs ih =>
    obtain ⟨y, hy⟩ := h x List.mem_cons_self
    obtain ⟨ys, hys⟩ := ih fun x hx => h x (List.mem_cons_of_mem _ hx)
    exact ⟨y :: ys, List.Forall₂.cons hy hys⟩

theorem exists_of_forall₂_left {α β : Type} {R : α → β → Prop} {xs : List α} {ys : List β}
    (h : List.Forall₂ R xs ys) {x : α} (hx : x ∈ xs) : ∃ y ∈ ys, R x y := by
  induction h with
  | nil => exact absurd hx List.not_mem_nil
  | cons hxy _ ih =>
    rcases List.mem_cons.1 hx with rfl | hx
    · exact ⟨_, List.mem_cons_self, hxy⟩
    · obtain ⟨y, hy, hr⟩ := ih hx
      exact ⟨y, List.mem_cons_of_mem _ hy, hr⟩

theorem exists_of_forall₂_right {α β : Type} {R : α → β → Prop} {xs : List α} {ys : List β}
    (h : List.Forall₂ R xs ys) {y : β} (hy : y ∈ ys) : ∃ x ∈ xs, R x y :=
  exists_of_forall₂_left h.flip hy

/-! ## Folds -/

/-- A fold fails where a step does. -/
theorem step_of_foldlM_error {f : β → α → Except ε β} {xs : List α} {b : β} {e : ε} (h : xs.foldlM f b = .error e) :
    ∃ b' x, x ∈ xs ∧ f b' x = .error e := by
  induction xs generalizing b with
  | nil => cases h
  | cons x xs ih =>
    rw [List.foldlM_cons, bind_eq_error] at h
    rcases h with h | ⟨b', -, h⟩
    · exact ⟨b, x, List.mem_cons_self, h⟩
    · obtain ⟨b'', y, hy, hstep⟩ := ih h
      exact ⟨b'', y, List.mem_cons_of_mem _ hy, hstep⟩

/-- Folds whose steps are the same are the same. -/
theorem foldlM_congr {f g : β → α → Except ε β} {xs : List α} (h : ∀ x ∈ xs, ∀ b, f b x = g b x) (b : β) :
    xs.foldlM f b = xs.foldlM g b := by
  induction xs generalizing b with
  | nil => rfl
  | cons x xs ih =>
    rw [List.foldlM_cons, List.foldlM_cons, h x List.mem_cons_self]
    congr 1
    funext b'
    exact ih (fun y hy => h y (List.mem_cons_of_mem _ hy)) b'

/-- A fold with a step that always fails, fails. -/
theorem foldlM_of_error {f : β → α → Except ε β} {xs : List α} {x : α} (hx : x ∈ xs)
    (h : ∀ b, ∃ e, f b x = .error e) (b : β) : ∃ e, xs.foldlM f b = .error e := by
  induction xs generalizing b with
  | nil => simp at hx
  | cons y ys ih =>
    rw [List.foldlM_cons]
    cases hy : f b y with
    | error e => exact ⟨e, rfl⟩
    | ok b' =>
      rcases List.mem_cons.1 hx with rfl | hx
      · obtain ⟨e, he⟩ := h b
        rw [he] at hy
        cases hy
      · exact ih hx b'

/-- What each step keeps, a fold does. -/
theorem foldlM_keeps {I : β → Prop} {f : β → α → Except ε β} (hstep : ∀ b x b', f b x = .ok b' → I b → I b')
    {xs : List α} {b b' : β} (h : xs.foldlM f b = .ok b') (hb : I b) : I b' := by
  induction xs generalizing b with
  | nil =>
    rw [List.foldlM_nil, pure_eq_ok, Except.ok.injEq] at h
    rw [← h]
    exact hb
  | cons x xs ih =>
    rw [List.foldlM_cons, bind_eq_ok] at h
    obtain ⟨b₁, hx, h⟩ := h
    exact ih h (hstep b x b₁ hx hb)

end Except
