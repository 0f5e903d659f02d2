import Mathlib.Data.List.Basic
import Mathlib.Data.Nat.Notation

/-!
# Items read off a stream

A stream arrives in pieces, and a cutter takes items off its front. What a cutter says of some
bytes it says of them whatever follows, so the items do not depend on the pieces:

* `reads_append`: reading goes on where it stopped.
* `feed_spec`: pieces deliver the items of their concatenation, and stop where it stops.
-/

namespace Stream

variable {α ι ε : Type}

/-- What the front of a stream is. -/
inductive Cut (α ι ε : Type) where
  | wait
  | item (i : ι) (rest : List α)
  | stop (e : ε)

/-- A way to take items off a stream. What it takes or refuses does not depend on what follows. -/
structure Cutter (α ι ε : Type) where
  cut : List α → Cut α ι ε
  shorter : ∀ {bs i rest}, cut bs = .item i rest → rest.length < bs.length
  item_append : ∀ {bs i rest} more, cut bs = .item i rest → cut (bs ++ more) = .item i (rest ++ more)
  stop_append : ∀ {bs e} more, cut bs = .stop e → cut (bs ++ more) = .stop e

/-- The items of a stream, and what waits after them or why it stops. -/
def drain (c : Cutter α ι ε) : ℕ → List α → List ι × Except ε (List α)
  | 0, bs => ([], .ok bs)
  | fuel + 1, bs =>
    match c.cut bs with
    | .wait => ([], .ok bs)
    | .stop e => ([], .error e)
    | .item i rest => (i :: (drain c fuel rest).1, (drain c fuel rest).2)

/-- What a cutter reads off a byte string, and what it leaves. -/
def reads (c : Cutter α ι ε) (bs : List α) : List ι × Except ε (List α) := drain c (bs.length + 1) bs

variable {c : Cutter α ι ε} {fuel : ℕ} {bs : List α}

/-- Enough fuel is as good as more. -/
theorem drain_fuel {fuel' : ℕ} (h : bs.length < fuel) (h' : bs.length < fuel') :
    drain c fuel bs = drain c fuel' bs := by
  induction fuel generalizing fuel' bs with
  | zero => omega
  | succ fuel ih =>
    obtain ⟨fuel', rfl⟩ : ∃ k, fuel' = k + 1 := ⟨fuel' - 1, by omega⟩
    rw [drain, drain]
    cases hcut : c.cut bs with
    | wait => rfl
    | stop e => rfl
    | item i rest =>
      have hshort := c.shorter hcut
      have hrest : drain c fuel rest = drain c fuel' rest := ih (by omega) (by omega)
      simp only [hrest]

/-- More fuel than bytes changes nothing. -/
theorem drain_eq_reads (h : bs.length < fuel) : drain c fuel bs = reads c bs := drain_fuel h (Nat.lt_succ_self _)

/-- Where nothing is no item, one step for each element is enough. -/
theorem drain_of_le (hnil : c.cut [] = .wait) (h : bs.length ≤ fuel) : drain c fuel bs = reads c bs := by
  rcases Nat.lt_or_ge bs.length fuel with hlt | hge
  · exact drain_eq_reads hlt
  · induction fuel generalizing bs with
    | zero =>
      have hbs : bs = [] := List.length_eq_zero_iff.1 (by omega)
      rw [hbs, reads, drain, drain, hnil]
    | succ fuel ih =>
      unfold reads
      rw [drain, drain]
      cases hcut : c.cut bs with
      | wait => rfl
      | stop e => rfl
      | item i rest =>
        have hshort := c.shorter hcut
        have hrest : drain c fuel rest = drain c bs.length rest := by
          rw [drain_eq_reads hshort]
          rcases Nat.lt_or_ge rest.length fuel with hlt | hge
          · exact drain_eq_reads hlt
          · exact ih (by omega) hge
        simp only [hrest]

/-- A cutter that waits reads nothing. -/
theorem reads_wait (h : c.cut bs = .wait) : reads c bs = ([], .ok bs) := by
  unfold reads
  rw [drain, h]

/-- A cutter that stops reads nothing and says why. -/
theorem reads_stop {e : ε} (h : c.cut bs = .stop e) : reads c bs = ([], .error e) := by
  unfold reads
  rw [drain, h]

/-- An item that is cut is read, and reading goes on behind it. -/
theorem reads_item {i : ι} {rest : List α} (h : c.cut bs = .item i rest) :
    reads c bs = (i :: (reads c rest).1, (reads c rest).2) := by
  have hshort := c.shorter h
  have hrest : drain c bs.length rest = reads c rest := drain_eq_reads hshort
  unfold reads at hrest ⊢
  rw [drain, h]
  simp only [hrest]

/-- **Reading goes on where it stopped**: what waits is read again with what follows. -/
theorem reads_append (bs more : List α) : reads c (bs ++ more) =
    match (reads c bs).2 with
    | .ok rest => ((reads c bs).1 ++ (reads c (rest ++ more)).1, (reads c (rest ++ more)).2)
    | .error e => ((reads c bs).1, .error e) := by
  generalize hn : bs.length = n
  induction n using Nat.strongRecOn generalizing bs with
  | ind n ih =>
    cases hcut : c.cut bs with
    | wait =>
      rw [reads_wait hcut]
      rfl
    | stop e => rw [reads_stop hcut, reads_stop (c.stop_append more hcut)]
    | item i rest =>
      have hshort := c.shorter hcut
      have htail := ih rest.length (by omega) rest rfl
      rw [reads_item hcut, reads_item (c.item_append more hcut), htail]
      dsimp only
      cases (reads c rest).2 <;> rfl

/-- What waits is no item yet. -/
theorem cut_of_reads {is : List ι} {rest : List α} (h : reads c bs = (is, .ok rest)) : c.cut rest = .wait := by
  generalize hn : bs.length = n
  induction n using Nat.strongRecOn generalizing bs is with
  | ind n ih =>
    cases hcut : c.cut bs with
    | wait =>
      rw [reads_wait hcut] at h
      cases h
      exact hcut
    | stop e =>
      rw [reads_stop hcut] at h
      cases h
    | item i tail =>
      have hshort := c.shorter hcut
      rw [reads_item hcut] at h
      have htail : reads c tail = ((reads c tail).1, .ok rest) := Prod.ext rfl (Prod.ext_iff.1 h).2
      exact ih tail.length (by omega) htail rfl

/-! ## Pieces -/

/-- Pieces pushed one after the other onto what waits. A piece that stops the stream delivers nothing. -/
def feed (c : Cutter α ι ε) : List α → List (List α) → List ι × Except ε (List α)
  | rest, [] => ([], .ok rest)
  | rest, piece :: pieces =>
    match (reads c (rest ++ piece)).2 with
    | .ok waiting => ((reads c (rest ++ piece)).1 ++ (feed c waiting pieces).1, (feed c waiting pieces).2)
    | .error e => ([], .error e)

/-- **Pieces deliver what their concatenation holds**: the first of its items, and all of them where
nothing stops; and what stops one stops the other. -/
theorem feed_spec {rest : List α} (hrest : c.cut rest = .wait) (pieces : List (List α)) :
    (feed c rest pieces).1 <+: (reads c (rest ++ pieces.flatten)).1 ∧
    (feed c rest pieces).2 = (reads c (rest ++ pieces.flatten)).2 ∧
    (∀ waiting, (feed c rest pieces).2 = .ok waiting →
      (feed c rest pieces).1 = (reads c (rest ++ pieces.flatten)).1) := by
  induction pieces generalizing rest with
  | nil =>
    rw [List.flatten_nil, List.append_nil, reads_wait hrest]
    exact ⟨List.prefix_rfl, rfl, fun _ _ => rfl⟩
  | cons piece pieces ih =>
    rw [List.flatten_cons, ← List.append_assoc, reads_append, feed]
    cases hread : (reads c (rest ++ piece)).2 with
    | error e => exact ⟨List.nil_prefix, rfl, fun _ h => absurd h (by simp)⟩
    | ok waiting =>
      obtain ⟨hpre, hend, hall⟩ := ih (cut_of_reads (Prod.ext rfl hread))
      dsimp only
      refine ⟨(List.prefix_append_right_inj _).2 hpre, hend, fun w hw => ?_⟩
      rw [hall w hw]

/-- **Two ways to cut a stream** deliver items that agree as far as both go, and end alike. -/
theorem feed_agree {xs ys : List (List α)} {rest : List α} (hrest : c.cut rest = .wait)
    (h : xs.flatten = ys.flatten) :
    ((feed c rest xs).1 <+: (feed c rest ys).1 ∨ (feed c rest ys).1 <+: (feed c rest xs).1) ∧
    (feed c rest xs).2 = (feed c rest ys).2 ∧
    (∀ waiting, (feed c rest xs).2 = .ok waiting → (feed c rest xs).1 = (feed c rest ys).1) := by
  obtain ⟨hx, hx', hxall⟩ := feed_spec hrest xs
  obtain ⟨hy, hy', hyall⟩ := feed_spec hrest ys
  rw [h] at hx hx' hxall
  have hend : (feed c rest xs).2 = (feed c rest ys).2 := hx'.trans hy'.symm
  refine ⟨List.prefix_or_prefix_of_prefix hx hy, hend, fun w hw => ?_⟩
  rw [hxall w hw, hyall w (hend ▸ hw)]

end Stream
