import VayuWeb.Base.Except
import Mathlib.Data.List.Perm.Basic

/-!
# Two computations that agree

Two computations agree when both fail or both succeed with related results.

* `Agrees.bind`, `Agrees.foldlM`: sequences of computations that agree, agree.
* `Agrees.mapM`: even in another order.
* `Refines`: what the one gives the other gives.
-/

namespace Except

/-- Both fail, or both succeed with related results. -/
inductive Agrees {ε ε' α α' : Type} (R : α → α' → Prop) : Except ε α → Except ε' α' → Prop where
  | refused {e : ε} {e' : ε'} : Agrees R (.error e) (.error e')
  | same {a : α} {a' : α'} (h : R a a') : Agrees R (.ok a) (.ok a')

variable {ε ε' α α' β β' γ γ' : Type} {R : α → α' → Prop} {S : β → β' → Prop}

/-- Agreement goes through a bind. -/
theorem Agrees.bind {x : Except ε α} {x' : Except ε' α'} {f : α → Except ε β} {f' : α' → Except ε' β'}
    (h : Agrees R x x') (hf : ∀ a a', R a a' → Agrees S (f a) (f' a')) :
    Agrees S (x >>= f) (x' >>= f') := by
  cases h with
  | refused => exact .refused
  | same hR => exact hf _ _ hR

/-- Agreement goes through a map. -/
theorem Agrees.map {x : Except ε α} {x' : Except ε' α'} {f : α → β} {f' : α' → β'} (h : Agrees R x x')
    (hf : ∀ a a', R a a' → S (f a) (f' a')) : Agrees S (x.map f) (x'.map f') := by
  cases h with
  | refused => exact .refused
  | same hR => exact .same (hf _ _ hR)

theorem Agrees.mono {T : α → α' → Prop} {x : Except ε α} {x' : Except ε' α'} (h : Agrees R x x')
    (hT : ∀ a a', R a a' → T a a') : Agrees T x x' := by
  cases h with
  | refused => exact .refused
  | same hR => exact .same (hT _ _ hR)

/-- What agrees, agrees on what it found. -/
theorem Agrees.found {x : Except ε α} {x' : Except ε' α'} (h : Agrees R x x') :
    Agrees (fun a a' => x = .ok a ∧ x' = .ok a' ∧ R a a') x x' := by
  cases h with
  | refused => exact .refused
  | same hR => exact .same ⟨rfl, rfl, hR⟩

/-- What the second one finds, the first one finds. -/
theorem Agrees.of_ok {x : Except ε α} {x' : Except ε' α'} (h : Agrees R x x') {a' : α'} (hx' : x' = .ok a') :
    ∃ a, x = .ok a ∧ R a a' := by
  cases h with
  | refused => cases hx'
  | same hR =>
    cases hx'
    exact ⟨_, rfl, hR⟩

/-- Where the second one fails, the first one fails. -/
theorem Agrees.of_error {x : Except ε α} {x' : Except ε' α'} (h : Agrees R x x') {e' : ε'}
    (hx' : x' = .error e') : ∃ e, x = .error e := by
  cases h with
  | refused => exact ⟨_, rfl⟩
  | same hR => cases hx'

/-- Agreement goes through a fold, step by step. -/
theorem Agrees.foldlM {f : α → γ → Except ε α} {f' : α' → γ' → Except ε' α'} {T : γ → γ' → Prop} {xs : List γ}
    {xs' : List γ'} (hxs : List.Forall₂ T xs xs')
    (hf : ∀ a a' x x', R a a' → T x x' → Agrees R (f a x) (f' a' x')) {a : α} {a' : α'} (ha : R a a') :
    Agrees R (xs.foldlM f a) (xs'.foldlM f' a') := by
  induction hxs generalizing a a' with
  | nil => exact .same ha
  | cons hx _ ih =>
    rw [List.foldlM_cons, List.foldlM_cons]
    exact (hf _ _ _ _ ha hx).bind fun _ _ h => ih h

/-! ## Sequences in another order -/

/-- A sequence that fails has a part that fails. -/
theorem error_of_mapM {f : α → Except ε β} {xs : List α} {e : ε} (h : xs.mapM f = .error e) :
    ∃ x ∈ xs, f x = .error e := by
  induction xs with
  | nil => cases h
  | cons x xs ih =>
    rw [List.mapM_cons] at h
    cases hx : f x with
    | error e₁ =>
      rw [hx, error_bind, Except.error.injEq] at h
      exact ⟨x, List.mem_cons_self, by rw [hx, h]⟩
    | ok y =>
      rw [hx, ok_bind] at h
      cases hxs : xs.mapM f with
      | error e₁ =>
        rw [hxs, error_bind, Except.error.injEq] at h
        obtain ⟨x', hx', hfail⟩ := ih (hxs.trans (congrArg _ h))
        exact ⟨x', List.mem_cons_of_mem _ hx', hfail⟩
      | ok ys =>
        rw [hxs] at h
        cases h

/-- A part that fails makes the sequence fail. -/
theorem mapM_of_error {f : α → Except ε β} {xs : List α} {x : α} {e : ε} (hmem : x ∈ xs) (h : f x = .error e) :
    ∃ e, xs.mapM f = .error e := by
  induction xs with
  | nil => simp at hmem
  | cons y ys ih =>
    rw [List.mapM_cons]
    cases hy : f y with
    | error e₁ => exact ⟨e₁, rfl⟩
    | ok b =>
      rcases List.mem_cons.1 hmem with rfl | hmem
      · rw [h] at hy
        cases hy
      · obtain ⟨e₁, he₁⟩ := ih hmem
        exact ⟨e₁, by rw [ok_bind, he₁, error_bind]⟩

/-- **Sequences of computations that agree, agree**, also when the second one is in another order. -/
theorem Agrees.mapM {f : α → Except ε β} {f' : α → Except ε' β'} {xs xs' : List α} (hperm : xs'.Perm xs)
    (hf : ∀ x ∈ xs, Agrees S (f x) (f' x)) :
    Agrees (fun ys ys' => ∃ zs, ys'.Perm zs ∧ List.Forall₂ S ys zs) (xs.mapM f) (xs'.mapM f') := by
  cases hxs' : xs'.mapM f' with
  | error e' =>
    obtain ⟨x, hx, hfail⟩ := error_of_mapM hxs'
    obtain ⟨e, he⟩ := (hf x (hperm.mem_iff.1 hx)).of_error hfail
    obtain ⟨e, he⟩ := mapM_of_error (hperm.mem_iff.1 hx) he
    rw [he]
    exact .refused
  | ok ys' =>
    -- the results of the second one in the order of the first one
    obtain ⟨zs, hzs, hperm'⟩ := List.perm_comp_forall₂ hperm.symm (mapM_eq_ok.1 hxs')
    have hboth : ∃ ys, List.Forall₂ (fun x y => f x = .ok y) xs ys ∧ List.Forall₂ S ys zs := by
      clear hxs' hperm hperm'
      induction hzs with
      | nil => exact ⟨[], .nil, .nil⟩
      | @cons x z xs zs hz _ ih =>
        obtain ⟨y, hy, hS⟩ := (hf x List.mem_cons_self).of_ok hz
        obtain ⟨ys, hys, hSs⟩ := ih fun x' hx' => hf x' (List.mem_cons_of_mem _ hx')
        exact ⟨y :: ys, .cons hy hys, .cons hS hSs⟩
    obtain ⟨ys, hys, hSs⟩ := hboth
    rw [mapM_eq_ok.2 hys]
    exact .same ⟨zs, hperm'.symm, hSs⟩

/-! ## One direction -/

/-- What the first computation gives, the second one gives. -/
def Refines (x : Except ε α) (x' : Except ε' α) : Prop := ∀ a, x = .ok a → x' = .ok a

theorem Refines.rfl {x : Except ε α} : Refines x x := fun _ h => h

/-- Refinement goes through a bind. -/
theorem Refines.bind {x : Except ε α} {x' : Except ε' α} {f : α → Except ε β} {f' : α → Except ε' β}
    (h : Refines x x') (hf : ∀ a, Refines (f a) (f' a)) : Refines (x >>= f) (x' >>= f') := by
  intro b hb
  obtain ⟨a, ha, hfa⟩ := bind_eq_ok.1 hb
  rw [h a ha, ok_bind]
  exact hf a b hfa

/-- Refinement goes through a fold, step by step. -/
theorem Refines.foldlM {f : β → γ → Except ε β} {f' : β → γ → Except ε' β} (hf : ∀ b x, Refines (f b x) (f' b x))
    (xs : List γ) (b : β) : Refines (xs.foldlM f b) (xs.foldlM f' b) := by
  induction xs generalizing b with
  | nil => exact fun _ h => congrArg _ (Except.ok.inj h)
  | cons x xs ih =>
    rw [List.foldlM_cons, List.foldlM_cons]
    exact (hf b x).bind ih

end Except
