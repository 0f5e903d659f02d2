import VayuWeb.Base.Except

/-!
# Enumerating the leaves of a tree with a stack

A node has named entries, or it is a leaf. Which of them is found out by expanding it. A route is the positions of the
entries that are taken from a root on.

* `follow_append`: a route goes on where its first part leads.
* `Reached.opened`, `Reached.visited`: what one round of the loop keeps.
* `run_spec`: the loop visits every leaf by every route, and none twice by one route.
-/

namespace Enumerate

variable {ν κ ε β : Type} {expand : ν → Except ε (Option (List (κ × ν)))} {visit : List κ → Except ε β}

/-- The names along a route, and where it leads. -/
def follow (expand : ν → Except ε (Option (List (κ × ν)))) : ν → List ℕ → Option (List κ × ν)
  | node, [] => some ([], node)
  | node, i :: route =>
    match expand node with
    | .ok (some entries) =>
      match entries[i]? with
      | some entry => (follow expand entry.2 route).map fun found => (entry.1 :: found.1, found.2)
      | none => none
    | _ => none

/-- A route leads to a leaf, by these names. -/
def Leaf (expand : ν → Except ε (Option (List (κ × ν)))) (root : ν) (route : List ℕ) (names : List κ) : Prop :=
  ∃ node, follow expand root route = some (names, node) ∧ expand node = .ok none

/-- The loop, for so many more rounds; the top of the stack is at its front. -/
def run (expand : ν → Except ε (Option (List (κ × ν)))) (visit : List κ → Except ε β) :
    ℕ → List (List κ × ν) → List β → Option (Except ε (List β))
  | _, [], out => some (.ok out)
  | 0, _ :: _, _ => none
  | fuel + 1, (names, node) :: stack, out =>
    match expand node with
    | .error e => some (.error e)
    | .ok (some entries) =>
      run expand visit fuel ((entries.map fun entry => (names ++ [entry.1], entry.2)).reverse ++ stack) out
    | .ok none =>
      match visit names with
      | .error e => some (.error e)
      | .ok b => run expand visit fuel stack (out ++ [b])

/-! ## Routes -/

/-- A route is followed in two parts. -/
theorem follow_append (root : ν) (route more : List ℕ) : follow expand root (route ++ more) =
    (follow expand root route).bind fun found =>
      (follow expand found.2 more).map fun rest => (found.1 ++ rest.1, rest.2) := by
  induction route generalizing root with
  | nil =>
    rw [List.nil_append, follow, Option.bind_some]
    cases follow expand root more <;> rfl
  | cons i route ih =>
    rw [List.cons_append, follow, follow]
    cases hexpand : expand root with
    | error e => rfl
    | ok found =>
      cases found with
      | none => rfl
      | some entries =>
        dsimp only
        cases hentry : entries[i]? with
        | none => rfl
        | some entry =>
          dsimp only
          rw [ih entry.2]
          cases follow expand entry.2 route with
          | none => rfl
          | some found =>
            rw [Option.bind_some, Option.map_some, Option.bind_some]
            cases follow expand found.2 more <;> rfl

variable {root node : ν} {route more : List ℕ} {names rest : List κ} {entries : List (κ × ν)}

/-- One more entry. -/
theorem follow_concat (hroute : follow expand root route = some (names, node))
    (hexpand : expand node = .ok (some entries))
    {i : ℕ} {entry : κ × ν} (hentry : entries[i]? = some entry) :
    follow expand root (route ++ [i]) = some (names ++ [entry.1], entry.2) := by
  rw [follow_append, hroute, Option.bind_some]
  simp [hexpand, hentry, follow]

/-- A route that goes on leads on from where its first part does. -/
theorem leaf_append (hroute : follow expand root route = some (names, node))
    (h : Leaf expand root (route ++ more) rest) :
    ∃ rest', Leaf expand node more rest' := by
  obtain ⟨target, htarget, hleaf⟩ := h
  rw [follow_append, hroute, Option.bind_some, Option.map_eq_some_iff] at htarget
  obtain ⟨⟨rest', target'⟩, hmore, heq⟩ := htarget
  rw [Prod.mk.injEq] at heq
  rw [← heq.2] at hleaf
  exact ⟨rest', target', hmore, hleaf⟩

/-- No route leads on from a leaf. -/
theorem eq_nil_of_leaf (hexpand : expand node = .ok none) (h : Leaf expand node more rest) :
    more = [] ∧ rest = [] := by
  obtain ⟨target, htarget, -⟩ := h
  cases more with
  | nil =>
    rw [follow, Option.some.injEq, Prod.mk.injEq] at htarget
    exact ⟨rfl, htarget.1.symm⟩
  | cons i more =>
    rw [follow, hexpand] at htarget
    exact absurd htarget (by simp)

/-- A route leads on from a node with entries by one of them. -/
theorem exists_cons_of_leaf (hexpand : expand node = .ok (some entries)) (h : Leaf expand node route names) :
    ∃ i entry more rest, route = i :: more ∧ names = entry.1 :: rest ∧ entries[i]? = some entry ∧
      Leaf expand entry.2 more rest := by
  obtain ⟨target, htarget, hleaf⟩ := h
  cases route with
  | nil =>
    rw [follow, Option.some.injEq, Prod.mk.injEq] at htarget
    rw [← htarget.2, hexpand] at hleaf
    exact absurd hleaf (by simp)
  | cons i more =>
    rw [follow, hexpand] at htarget
    dsimp only at htarget
    cases hentry : entries[i]? with
    | none =>
      rw [hentry] at htarget
      exact absurd htarget (by simp)
    | some entry =>
      rw [hentry] at htarget
      dsimp only at htarget
      obtain ⟨⟨rest, target'⟩, hmore, heq⟩ := Option.map_eq_some_iff.1 htarget
      rw [Prod.mk.injEq] at heq
      rw [← heq.2] at hleaf
      exact ⟨i, entry, more, rest, rfl, heq.1.symm, hentry, target', hmore, hleaf⟩

/-! ## The loop -/

/-- Neither route goes on from the other. -/
def Apart (a b : List ℕ) : Prop := ¬ a <+: b ∧ ¬ b <+: a

/-- An item of the stack, with the route that led to it. -/
abbrev Item (ν κ : Type) := List ℕ × List κ × ν

/-- The entries of a node, with their routes. -/
def children (route : List ℕ) (names : List κ) (entries : List (κ × ν)) : List (Item ν κ) :=
  entries.zipIdx.map fun entry => (route ++ [entry.2], names ++ [entry.1.1], entry.1.2)

/-- The items below a node: each entry, one step further. -/
theorem mem_children {item : Item ν κ} : item ∈ children route names entries ↔
    ∃ i entry, entries[i]? = some entry ∧ item = (route ++ [i], names ++ [entry.1], entry.2) := by
  unfold children
  rw [List.mem_map]
  constructor
  · rintro ⟨⟨entry, i⟩, hmem, rfl⟩
    exact ⟨i, entry, List.mem_zipIdx_iff_getElem?.1 hmem, rfl⟩
  · rintro ⟨i, entry, hentry, rfl⟩
    exact ⟨(entry, i), List.mem_zipIdx_iff_getElem?.2 hentry, rfl⟩

theorem children_map_snd : (children route names entries).map Prod.snd =
    entries.map fun entry => (names ++ [entry.1], entry.2) := by
  have hfst : entries.zipIdx.map Prod.fst = entries := List.zipIdx_map_fst 0 entries
  calc (children route names entries).map Prod.snd
      = (entries.zipIdx.map Prod.fst).map fun entry => (names ++ [entry.1], entry.2) := by
        rw [children, List.map_map, List.map_map]
        rfl
    _ = entries.map fun entry => (names ++ [entry.1], entry.2) := by rw [hfst]

/-- The routes of different entries are apart. -/
theorem children_apart : ((children route names entries).map Prod.fst).Pairwise Apart := by
  have hsnd : entries.zipIdx.map Prod.snd = List.range' 0 entries.length := List.zipIdx_map_snd 0 entries
  have hmap : (children route names entries).map Prod.fst = (List.range' 0 entries.length).map fun i =>
      route ++ [i] := by
    rw [← hsnd, children, List.map_map, List.map_map]
    rfl
  have hlt : (List.range' 0 entries.length).Pairwise (· < ·) := List.pairwise_lt_range'
  rw [hmap, List.pairwise_map]
  apply hlt.imp
  intro i j hij
  have hne : ∀ {a b : ℕ}, a ≠ b → ¬ route ++ [a] <+: route ++ [b] := by
    intro a b hab hprefix
    rw [List.prefix_append_right_inj] at hprefix
    have heq := hprefix.eq_of_length rfl
    rw [List.cons.injEq] at heq
    exact hab heq.1
  exact ⟨hne (Nat.ne_of_lt hij), hne (Nat.ne_of_gt hij)⟩

/-- What goes on from a route is apart from what that route is apart from. -/
theorem Apart.concat {a b : List ℕ} (h : Apart a b) (i : ℕ) : Apart (a ++ [i]) b := by
  refine ⟨fun hab => h.1 ((List.prefix_append _ _).trans hab), fun hba => ?_⟩
  rcases List.prefix_concat_iff.1 hba with rfl | hba
  · exact h.1 (List.prefix_append _ _)
  · exact h.2 hba

theorem Apart.symm {a b : List ℕ} (h : Apart a b) : Apart b a := ⟨h.2, h.1⟩

/-- What the loop has found so far, and what it has yet to look at. -/
structure Reached (expand : ν → Except ε (Option (List (κ × ν)))) (visit : List κ → Except ε β) (root : ν)
    (done : List (List ℕ)) (items : List (Item ν κ)) (out : List β) : Prop where
  stacked : ∀ item ∈ items, follow expand root item.1 = some item.2
  found : List.Forall₂ (fun route b => ∃ names, Leaf expand root route names ∧ visit names = .ok b) done out
  covers : ∀ route names, Leaf expand root route names → route ∈ done ∨ ∃ item ∈ items, item.1 <+: route
  apart : (done ++ items.map Prod.fst).Pairwise Apart

section Rounds

variable {done : List (List ℕ)} {items : List (Item ν κ)} {out : List β}

/-- **A node with entries** makes room for these. -/
theorem Reached.opened (h : Reached expand visit root done ((route, names, node) :: items) out)
    (hexpand : expand node = .ok (some entries)) :
    Reached expand visit root done ((children route names entries).reverse ++ items) out := by
  have hroute : follow expand root route = some (names, node) := h.stacked _ List.mem_cons_self
  have hapart := h.apart
  rw [List.map_cons, List.pairwise_append, List.pairwise_cons] at hapart
  obtain ⟨hdone, ⟨hfirst, hitems⟩, hacross⟩ := hapart
  refine ⟨?_, h.found, ?_, ?_⟩
  · intro item hitem
    rcases List.mem_append.1 hitem with hitem | hitem
    · obtain ⟨i, entry, hentry, rfl⟩ := mem_children.1 (List.mem_reverse.1 hitem)
      exact follow_concat hroute hexpand hentry
    · exact h.stacked item (List.mem_cons_of_mem _ hitem)
  · intro route' names' hleaf
    rcases h.covers route' names' hleaf with hdone' | ⟨item, hitem, hprefix⟩
    · exact Or.inl hdone'
    · right
      rcases List.mem_cons.1 hitem with rfl | hitem
      · -- the route goes on by an entry of this node
        obtain ⟨more, rfl⟩ := hprefix
        obtain ⟨rest, hrest⟩ := leaf_append hroute hleaf
        obtain ⟨i, entry, more', -, rfl, -, hentry, -⟩ := exists_cons_of_leaf hexpand hrest
        refine ⟨_, List.mem_append_left _ (List.mem_reverse.2 (mem_children.2 ⟨i, entry, hentry, rfl⟩)), ?_⟩
        exact ⟨more', by simp⟩
      · exact ⟨item, List.mem_append_right _ hitem, hprefix⟩
  -- the routes of a node's children go one step beyond its own, so they stay apart from the others
  · have hchild : ∀ child ∈ (children route names entries).reverse.map Prod.fst, ∃ i, child = route ++ [i] := by
      intro child hchild
      obtain ⟨item, hitem, rfl⟩ := List.mem_map.1 hchild
      obtain ⟨i, entry, -, rfl⟩ := mem_children.1 (List.mem_reverse.1 hitem)
      exact ⟨i, rfl⟩
    rw [List.map_append, List.pairwise_append, List.pairwise_append]
    refine ⟨hdone, ⟨?_, hitems, ?_⟩, ?_⟩
    · rw [List.map_reverse, List.pairwise_reverse]
      exact children_apart.imp Apart.symm
    · intro child hchild' other hother
      obtain ⟨i, rfl⟩ := hchild child hchild'
      exact (hfirst other hother).concat i
    · intro other hother child hchild'
      rcases List.mem_append.1 hchild' with hchild' | hchild'
      · obtain ⟨i, rfl⟩ := hchild child hchild'
        exact ((hacross other hother route List.mem_cons_self).symm.concat i).symm
      · exact hacross other hother child (List.mem_cons_of_mem _ hchild')

/-- **A leaf** is visited. -/
theorem Reached.visited {b : β} (h : Reached expand visit root done ((route, names, node) :: items) out)
    (hexpand : expand node = .ok none) (hvisit : visit names = .ok b) :
    Reached expand visit root (done ++ [route]) items (out ++ [b]) := by
  have hroute : follow expand root route = some (names, node) := h.stacked _ List.mem_cons_self
  refine ⟨fun item hitem => h.stacked item (List.mem_cons_of_mem _ hitem), ?_, ?_, ?_⟩
  · exact List.rel_append h.found (.cons ⟨names, ⟨node, hroute, hexpand⟩, hvisit⟩ .nil)
  · intro route' names' hleaf
    rcases h.covers route' names' hleaf with hdone | ⟨item, hitem, hprefix⟩
    · exact Or.inl (List.mem_append_left _ hdone)
    · rcases List.mem_cons.1 hitem with rfl | hitem
      · left
        obtain ⟨more, rfl⟩ := hprefix
        obtain ⟨rest, hrest⟩ := leaf_append hroute hleaf
        rw [(eq_nil_of_leaf hexpand hrest).1, List.append_nil]
        exact List.mem_append_right _ (List.mem_singleton_self route)
      · exact Or.inr ⟨item, hitem, hprefix⟩
  · have hapart := h.apart
    rwa [List.map_cons, ← List.singleton_append, ← List.append_assoc] at hapart

/-- What the loop has found when it ends. -/
theorem Reached.run {fuel : ℕ} {result : List β} (h : Reached expand visit root done items out)
    (hrun : run expand visit fuel (items.map Prod.snd) out = some (.ok result)) :
    ∃ done', Reached expand visit root done' [] result := by
  induction fuel generalizing done items out with
  | zero =>
    cases items with
    | nil =>
      rw [List.map_nil, Enumerate.run, Option.some.injEq, Except.ok.injEq] at hrun
      exact ⟨done, hrun ▸ h⟩
    | cons item items => exact absurd hrun (by simp [Enumerate.run])
  | succ fuel ih =>
    cases items with
    | nil =>
      rw [List.map_nil, Enumerate.run, Option.some.injEq, Except.ok.injEq] at hrun
      exact ⟨done, hrun ▸ h⟩
    | cons item items =>
      obtain ⟨route, names, node⟩ := item
      rw [List.map_cons, Enumerate.run] at hrun
      cases hexpand : expand node with
      | error e => simp [hexpand] at hrun
      | ok found =>
        cases found with
        -- a node with entries puts them on the stack, one without is visited
        | some entries =>
          simp only [hexpand] at hrun
          refine ih (h.opened hexpand) ?_
          rw [List.map_append, List.map_reverse, children_map_snd]
          exact hrun
        | none =>
          simp only [hexpand] at hrun
          cases hvisit : visit names with
          | error e => simp [hvisit] at hrun
          | ok b =>
            simp only [hvisit] at hrun
            exact ih (h.visited hexpand hvisit) hrun

end Rounds

/-- **Every leaf is visited by every route, and none twice by one route.** -/
theorem run_spec {fuel : ℕ} {result : List β} (hrun : run expand visit fuel [([], root)] [] = some (.ok result)) :
    ∃ routes : List (List ℕ), routes.Nodup ∧ (∀ route, route ∈ routes ↔ ∃ names, Leaf expand root route names) ∧
      List.Forall₂ (fun route b => ∃ names, Leaf expand root route names ∧ visit names = .ok b) routes result := by
  have hstart : Reached expand visit root [] [([], [], root)] [] := by
    refine ⟨?_, .nil, ?_, List.pairwise_singleton _ _⟩
    · intro item hitem
      rw [List.mem_singleton.1 hitem]
      rfl
    · intro route names _
      exact Or.inr ⟨_, List.mem_singleton_self _, List.nil_prefix⟩
  obtain ⟨done, hdone⟩ := hstart.run hrun
  refine ⟨done, ?_, ?_, hdone.found⟩
  · have hapart := hdone.apart
    rw [List.map_nil, List.append_nil] at hapart
    apply hapart.imp
    rintro a b hab rfl
    exact hab.1 (List.prefix_refl _)
  · intro route
    constructor
    · intro hmem
      obtain ⟨b, -, names, hleaf, -⟩ := Except.exists_of_forall₂_left hdone.found hmem
      exact ⟨names, hleaf⟩
    · rintro ⟨names, hleaf⟩
      rcases hdone.covers route names hleaf with hmem | ⟨item, hitem, -⟩
      · exact hmem
      · exact absurd hitem List.not_mem_nil

end Enumerate
