import VayuWeb.Base.OrdMap
import Mathlib.Data.Finset.Card
import Mathlib.Data.List.Dedup

/-!
# The newest sighting of each

Sightings come one after the other, each under a key and with a stamp. Of those under one key the newest is kept
(`newest_spec`), so that what is counted of them is a count of keys (`nodup_filterMap`).
-/

namespace Sightings

variable {α β κ : Type} [DecidableEq κ] (key : α → κ) (stamp : α → ℕ)

/-- A sighting is kept where it is the first of its key, or newer than the one that is. -/
def keep (seen : OrdMap κ α) (x : α) : OrdMap κ α :=
  match seen.get? (key x) with
  | none => seen.set (key x) x
  | some held => if stamp x > stamp held then seen.set (key x) x else seen

/-- The newest sighting under each key. -/
def newest (xs : List α) : OrdMap κ α := xs.foldl (keep key stamp) []

/-- Of each key one sighting, and none that is older than another of that key. -/
structure Newest (xs vs : List α) : Prop where
  nodup : (vs.map key).Nodup
  sighted : ∀ v ∈ vs, v ∈ xs
  all : ∀ x ∈ xs, ∃ v ∈ vs, key v = key x ∧ stamp x ≤ stamp v

variable {key stamp} {xs vs : List α} {seen : OrdMap κ α} {x : α}

/-- The newest once one more sighting is made. -/
theorem newest_concat (xs : List α) (x : α) : newest key stamp (xs ++ [x]) =
    keep key stamp (newest key stamp xs) x := by
  unfold newest
  rw [List.foldl_append]
  rfl

theorem keys_set_of_mem {ν : Type} {m : OrdMap κ ν} {k : κ} (h : k ∈ m.map Prod.fst) (v : ν) :
    (m.set k v).map Prod.fst = m.map Prod.fst := by
  induction m with
  | nil => cases h
  | cons e m ih =>
    obtain ⟨k', v'⟩ := e
    unfold OrdMap.set
    split_ifs with hk
    · rfl
    · rw [List.map_cons, List.mem_cons] at h
      rw [List.map_cons, List.map_cons, ih (h.resolve_left fun heq => hk heq.symm)]

/-- A map that has each sighting under its key. -/
structure Keyed (key : α → κ) (stamp : α → ℕ) (xs : List α) (seen : OrdMap κ α) : Prop where
  nodup : (seen.map Prod.fst).Nodup
  own : ∀ e ∈ seen, key e.2 = e.1 ∧ e.2 ∈ xs
  all : ∀ x ∈ xs, ∃ v, seen.get? (key x) = some v ∧ stamp x ≤ stamp v

/-- One more sighting keeps the newest under its key. -/
theorem Keyed.keep (h : Keyed key stamp xs seen) (x : α) : Keyed key stamp (xs ++ [x]) (keep key stamp seen x) := by
  -- what is set under the key of `x` is a sighting of it, no older than what was there
  have hset : (∀ v, seen.get? (key x) = some v → stamp v ≤ stamp x) →
      Keyed key stamp (xs ++ [x]) (seen.set (key x) x) := by
    intro hnewer
    constructor
    case nodup =>
      by_cases hmem : key x ∈ seen.map Prod.fst
      · rw [keys_set_of_mem hmem]
        exact h.nodup
      · rw [OrdMap.set_of_notMem hmem, List.map_append, List.map_singleton]
        apply List.nodup_append.2 ⟨h.nodup, List.nodup_singleton _, ?_⟩
        intro k hk k' hk' heq
        have hkey : k = key x := heq.trans (List.mem_singleton.1 hk')
        rw [hkey] at hk
        exact hmem hk
    case own =>
      intro e he
      rcases OrdMap.mem_set he with rfl | hold
      · exact ⟨rfl, List.mem_append_right _ List.mem_cons_self⟩
      · obtain ⟨hkey, hin⟩ := h.own e hold
        exact ⟨hkey, List.mem_append_left _ hin⟩
    case all =>
      intro y hy
      rw [OrdMap.get?_set]
      rcases List.mem_append.1 hy with hold | hnew
      · obtain ⟨v, hv, hle⟩ := h.all y hold
        split_ifs with hk
        · rw [hk] at hv
          exact ⟨x, rfl, hle.trans (hnewer v hv)⟩
        · exact ⟨v, hv, hle⟩
      · rw [List.mem_singleton.1 hnew, if_pos rfl]
        exact ⟨x, rfl, le_rfl⟩
  unfold Sightings.keep
  cases hget : seen.get? (key x) with
  | none => exact hset fun v hv => by rw [hget] at hv; cases hv
  | some held =>
    dsimp only
    split_ifs with hnewer
    · apply hset
      intro v hv
      rw [hget] at hv
      cases hv
      exact hnewer.le
    · refine ⟨h.nodup, ?_, ?_⟩
      · intro e he
        obtain ⟨hkey, hin⟩ := h.own e he
        exact ⟨hkey, List.mem_append_left _ hin⟩
      · intro y hy
        rcases List.mem_append.1 hy with hold | hnew
        · exact h.all y hold
        · rw [List.mem_singleton.1 hnew]
          exact ⟨held, hget, Nat.not_lt.1 hnewer⟩

theorem keyed_newest (xs : List α) : Keyed key stamp xs (newest key stamp xs) := by
  induction xs using List.reverseRecOn with
  | nil => exact ⟨List.nodup_nil, fun e he => (by cases he), fun x hx => (by cases hx)⟩
  | append_singleton xs x ih =>
    rw [newest_concat]
    exact ih.keep x

/-- **The newest of each key.** -/
theorem newest_spec (xs : List α) : Newest key stamp xs ((newest key stamp xs).map Prod.snd) := by
  have hkeyed : Keyed key stamp xs (newest key stamp xs) := keyed_newest xs
  obtain ⟨hnodup, hown, hall⟩ := hkeyed
  refine ⟨?_, ?_, ?_⟩
  · have hkeys : ((newest key stamp xs).map Prod.snd).map key = (newest key stamp xs).map Prod.fst := by
      rw [List.map_map]
      exact List.map_congr_left fun e he => (hown e he).1
    rw [hkeys]
    exact hnodup
  · intro v hv
    obtain ⟨e, he, rfl⟩ := List.mem_map.1 hv
    exact (hown e he).2
  · intro x hx
    obtain ⟨v, hv, hle⟩ := hall x hx
    have hmem := OrdMap.mem_of_get? hv
    exact ⟨v, List.mem_map_of_mem hmem, (hown _ hmem).1, hle⟩

omit [DecidableEq κ] in
/-- What is picked of sightings of different keys, where no two keys pick the same. -/
theorem nodup_filterMap (h : (vs.map key).Nodup) (pick : α → Option β)
    (hpick : ∀ v w b, pick v = some b → pick w = some b → key v = key w) : (vs.filterMap pick).Nodup := by
  have hpairs : vs.Pairwise fun v w => key v ≠ key w := List.pairwise_map.1 h
  rw [List.Nodup, List.pairwise_filterMap]
  apply hpairs.imp
  intro v w hne b hb b' hb' heq
  subst heq
  exact hne (hpick v w b hb hb')

omit [DecidableEq κ] in
/-- A part that has something as new as each has the newest of all. -/
theorem max?_eq_of_covers (hsub : ∀ v ∈ vs, v ∈ xs) (hcover : ∀ x ∈ xs, ∃ v ∈ vs, stamp x ≤ stamp v) :
    (vs.map stamp).max? = (xs.map stamp).max? := by
  cases hmax : (xs.map stamp).max? with
  | none =>
    rw [List.max?_eq_none_iff, List.map_eq_nil_iff] at hmax
    subst hmax
    cases vs with
    | nil => rfl
    | cons v vs => exact absurd (hsub v List.mem_cons_self) List.not_mem_nil
  | some top =>
    rw [List.max?_eq_some_iff] at hmax ⊢
    obtain ⟨hmem, hle⟩ := hmax
    have hbelow : ∀ t ∈ vs.map stamp, t ≤ top := by
      intro t ht
      obtain ⟨v, hv, rfl⟩ := List.mem_map.1 ht
      exact hle _ (List.mem_map_of_mem (hsub v hv))
    obtain ⟨x, hx, rfl⟩ := List.mem_map.1 hmem
    obtain ⟨v, hv, hnewer⟩ := hcover x hx
    have hstamp : stamp v ∈ vs.map stamp := List.mem_map_of_mem hv
    have heq : stamp v = stamp x := Nat.le_antisymm (hbelow _ hstamp) hnewer
    rw [heq] at hstamp
    exact ⟨hstamp, hbelow⟩

end Sightings
