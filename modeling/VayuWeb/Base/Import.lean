import VayuWeb.Base.OrdMap
import VayuWeb.Base.Site
import Mathlib.Data.Set.Function

/-!
# Files into a tree

Files are loaded one by one: the blocks of each behind those before it, its link under its path.

* `loaded_of_foldlM`: what the loop leaves, when no path is there twice.
* `made_of_mem`, `sum_load_le`: its tree, also when one is.
-/

namespace Site

variable {κ ε φ : Type} {make : String → Bytes → Except ε (List (Block κ) × κ × ℕ)}

/-- One file: what is made of it into the blocks and the tree. -/
def load (make : String → Bytes → Except ε (List (Block κ) × κ × ℕ)) (state : List (Block κ) × OrdMap String (Link κ))
    (path : String) (content : Bytes) : Except ε (List (Block κ) × OrdMap String (Link κ)) := do
  let (built, cid, tsize) ← make path content
  return (state.1 ++ built, state.2.set path { cid := cid, name := path, tsize := tsize })

/-- What taking in a file puts behind what is there. -/
theorem load_eq_ok {state state' : List (Block κ) × OrdMap String (Link κ)} {path : String} {content : Bytes} :
    load make state path content = .ok state' ↔ ∃ built cid tsize, make path content = .ok (built, cid, tsize) ∧
      state' = (state.1 ++ built, state.2.set path { cid := cid, name := path, tsize := tsize }) := by
  rw [load, Except.bind_eq_ok]
  simp only [Except.pure_eq_ok, Except.ok.injEq]
  constructor
  · rintro ⟨⟨built, cid, tsize⟩, hmake, h⟩
    exact ⟨built, cid, tsize, hmake, h.symm⟩
  · rintro ⟨built, cid, tsize, hmake, h⟩
    exact ⟨(built, cid, tsize), hmake, h.symm⟩

theorem set_of_notMem {tree : OrdMap String (Link κ)} {path : String} {link : Link κ} (h : path ∉ tree.map (·.1)) :
    OrdMap.set tree path link = tree ++ [(path, link)] := by
  induction tree with
  | nil => rfl
  | cons entry tree ih =>
    obtain ⟨path', link'⟩ := entry
    rw [List.map_cons, List.mem_cons, not_or] at h
    rw [OrdMap.set, if_neg (Ne.symm h.1), ih h.2, List.cons_append]

/-! ## The bytes of blocks -/

/-- The bytes of the blocks. -/
def bytesOfBlocks (blocks : List (Block κ)) : Set Bytes := { bytes | ∃ block ∈ blocks, block.bytes = bytes }

/-- Where nothing hashes alike. -/
theorem injOn_of_nodup {β : Type} {f : Bytes → β} {set : Set Bytes} {all : List Bytes}
    (hmem : ∀ bytes ∈ set, bytes ∈ all) (hnodup : (all.map f).Nodup) : Set.InjOn f set :=
  fun _ hx _ hy heq => List.inj_on_of_nodup_map hnodup (hmem _ hx) (hmem _ hy) heq

/-- A hash without collisions on all that is hashed has none on the blocks. -/
theorem injOn_blocks {β : Type} {f : Bytes → β} {blocks : List (Block κ)} {all : List Bytes}
    (hmem : ∀ block ∈ blocks, block.bytes ∈ all) (hnodup : (all.map f).Nodup) : Set.InjOn f (bytesOfBlocks blocks) := by
  refine injOn_of_nodup ?_ hnodup
  rintro bytes ⟨block, hblock, rfl⟩
  exact hmem block hblock

/-! ## Every file of the loop -/

section Files

variable {path : φ → String} {content : φ → Bytes} {files : List φ} {blocks blocks' : List (Block κ)}
  {before tree : OrdMap String (Link κ)}

/-- An entry of the tree is the link of a file, or was there before. -/
theorem made_of_mem
    (h : files.foldlM (fun state file => load make state (path file) (content file)) (blocks, before) =
      .ok (blocks', tree)) {entry : String × Link κ} (hmem : entry ∈ tree) :
    entry ∈ before ∨ ∃ file ∈ files, ∃ built, entry.1 = path file ∧
      make (path file) (content file) = .ok (built, entry.2.cid, entry.2.tsize) := by
  induction files generalizing blocks before with
  | nil =>
    rw [List.foldlM_nil, Except.pure_eq_ok, Except.ok.injEq, Prod.mk.injEq] at h
    exact Or.inl (h.2 ▸ hmem)
  | cons file files ih =>
    rw [List.foldlM_cons, Except.bind_eq_ok] at h
    obtain ⟨state, hload, h⟩ := h
    obtain ⟨built, cid, tsize, hmake, rfl⟩ := load_eq_ok.1 hload
    rcases ih h with hbefore | ⟨file', hfile', hmade⟩
    · rcases OrdMap.mem_set hbefore with rfl | hbefore
      · exact Or.inr ⟨file, List.mem_cons_self, built, rfl, hmake⟩
      · exact Or.inl hbefore
    · exact Or.inr ⟨file', List.mem_cons_of_mem _ hfile', hmade⟩

/-- Every file was made, and its path is in the tree. -/
theorem mem_paths_of_load
    (h : files.foldlM (fun state file => load make state (path file) (content file)) (blocks, before) =
      .ok (blocks', tree)) :
    (∀ p ∈ before.map (·.1), p ∈ tree.map (·.1)) ∧
      ∀ file ∈ files, path file ∈ tree.map (·.1) ∧ ∃ made, make (path file) (content file) = .ok made := by
  induction files generalizing blocks before with
  | nil =>
    rw [List.foldlM_nil, Except.pure_eq_ok, Except.ok.injEq, Prod.mk.injEq] at h
    rw [h.2]
    exact ⟨fun _ hp => hp, by simp⟩
  | cons file files ih =>
    rw [List.foldlM_cons, Except.bind_eq_ok] at h
    obtain ⟨state, hload, h⟩ := h
    obtain ⟨built, cid, tsize, hmake, rfl⟩ := load_eq_ok.1 hload
    obtain ⟨hkeeps, hfiles⟩ := ih h
    have hset := OrdMap.mem_keys_set before (path file) (⟨cid, path file, tsize⟩ : Link κ)
    refine ⟨fun p hp => hkeeps p ((hset p).2 (Or.inr hp)), ?_⟩
    intro file' hfile'
    rcases List.mem_cons.1 hfile' with rfl | hfile'
    · exact ⟨hkeeps _ ((hset _).2 (Or.inl rfl)), _, hmake⟩
    · exact hfiles file' hfile'

/-- What a new entry adds to a sum over a map. -/
theorem sum_set_le (g : String × Link κ → ℕ) (tree : OrdMap String (Link κ)) (p : String) (link : Link κ) :
    ((tree.set p link).map g).sum ≤ (tree.map g).sum + g (p, link) := by
  induction tree with
  | nil => exact Nat.le_of_eq (Nat.add_comm _ _)
  | cons entry tree ih =>
    obtain ⟨p', link'⟩ := entry
    rw [OrdMap.set]
    split_ifs with heq
    · rw [List.map_cons, List.map_cons, List.sum_cons, List.sum_cons, heq]
      omega
    · rw [List.map_cons, List.map_cons, List.sum_cons, List.sum_cons]
      omega

/-- A sum over the tree is bounded by the files, also when a path is there twice. -/
theorem sum_load_le {g : String × Link κ → ℕ} {bound : φ → ℕ}
    (hbound : ∀ file ∈ files, ∀ built cid tsize, make (path file) (content file) = .ok (built, cid, tsize) →
      g (path file, ⟨cid, path file, tsize⟩) ≤ bound file)
    (h : files.foldlM (fun state file => load make state (path file) (content file)) (blocks, before) =
      .ok (blocks', tree)) : (tree.map g).sum ≤ (before.map g).sum + (files.map bound).sum := by
  induction files generalizing blocks before with
  | nil =>
    rw [List.foldlM_nil, Except.pure_eq_ok, Except.ok.injEq, Prod.mk.injEq] at h
    rw [h.2]
    exact Nat.le_add_right _ _
  | cons file files ih =>
    rw [List.foldlM_cons, Except.bind_eq_ok] at h
    obtain ⟨state, hload, h⟩ := h
    obtain ⟨built, cid, tsize, hmake, rfl⟩ := load_eq_ok.1 hload
    have hrest : (tree.map g).sum ≤
        ((before.set (path file) (⟨cid, path file, tsize⟩ : Link κ)).map g).sum + (files.map bound).sum :=
      ih (fun file' hfile' => hbound file' (List.mem_cons_of_mem _ hfile')) h
    have hset := sum_set_le g before (path file) ⟨cid, path file, tsize⟩
    have hfile := hbound file List.mem_cons_self built cid tsize hmake
    rw [List.map_cons, List.sum_cons]
    omega

end Files

/-- A file stands in the blocks and in the tree. -/
def Stands (make : String → Bytes → Except ε (List (Block κ) × κ × ℕ)) (blocks : List (Block κ)) (tree : Tree κ)
    (path : String) (content : Bytes) : Prop :=
  ∃ built cid tsize, make path content = .ok (built, cid, tsize) ∧ built ⊆ blocks ∧
    (path, { cid := cid, name := path, tsize := tsize }) ∈ tree

/-- A file still stands once more blocks and links are there. -/
theorem Stands.mono {blocks blocks' : List (Block κ)} {tree tree' : Tree κ} {path : String} {content : Bytes}
    (h : Stands make blocks tree path content) (hblocks : blocks ⊆ blocks') (htree : tree ⊆ tree') :
    Stands make blocks' tree' path content := by
  obtain ⟨built, cid, tsize, hmake, hsub, hmem⟩ := h
  exact ⟨built, cid, tsize, hmake, List.Subset.trans hsub hblocks, htree hmem⟩

/-- What the loop over the files leaves. -/
structure Loaded (make : String → Bytes → Except ε (List (Block κ) × κ × ℕ)) (path : φ → String) (content : φ → Bytes)
    (files : List φ) (start blocks : List (Block κ)) (before tree : Tree κ) : Prop where
  keepsBlocks : start ⊆ blocks
  keepsTree : before ⊆ tree
  paths : tree.map (·.1) = before.map (·.1) ++ files.map path
  file : ∀ file ∈ files, Stands make blocks tree (path file) (content file)
  linked : ∀ p link, (p, link) ∈ tree → (p, link) ∈ before ∨
    ∃ file ∈ files, ∃ built tsize, make (path file) (content file) = .ok (built, link.cid, tsize)
  made : ∀ {P : Block κ → Prop}, (∀ b ∈ start, P b) →
    (∀ file ∈ files, ∀ built cid tsize, make (path file) (content file) = .ok (built, cid, tsize) →
      ∀ b ∈ built, P b) → ∀ b ∈ blocks, P b

/-- **What the loop leaves**, when no path is there twice. -/
theorem loaded_of_foldlM {path : φ → String} {content : φ → Bytes} {files : List φ} {start blocks : List (Block κ)}
    {before tree : OrdMap String (Link κ)}
    (h : files.foldlM (fun state file => load make state (path file) (content file)) (start, before) =
      .ok (blocks, tree))
    (hnodup : (files.map path).Nodup) (hfresh : ∀ file ∈ files, path file ∉ before.map (·.1)) :
    Loaded make path content files start blocks before tree := by
  induction files generalizing start before with
  | nil =>
    rw [List.foldlM_nil, Except.pure_eq_ok, Except.ok.injEq, Prod.mk.injEq] at h
    rw [← h.1, ← h.2]
    exact ⟨List.Subset.refl _, List.Subset.refl _, (List.append_nil _).symm, by simp, fun _ _ => Or.inl,
      fun hstart _ => hstart⟩
  | cons file files ih =>
    rw [List.foldlM_cons, Except.bind_eq_ok] at h
    obtain ⟨state, hload, h⟩ := h
    obtain ⟨built, cid, tsize, hmake, rfl⟩ := load_eq_ok.1 hload
    rw [set_of_notMem (hfresh file List.mem_cons_self)] at h
    rw [List.map_cons, List.nodup_cons] at hnodup
    -- the paths are distinct, so the tree built so far holds none of those to come
    have hrest := ih h hnodup.2 (by
      intro file' hfile'
      rw [List.map_append, List.mem_append, not_or, List.map_singleton, List.mem_singleton]
      refine ⟨hfresh file' (List.mem_cons_of_mem _ hfile'), ?_⟩
      intro heq
      exact hnodup.1 (List.mem_map.2 ⟨file', hfile', heq⟩))
    have hbuilt : built ⊆ blocks := List.Subset.trans (List.subset_append_right _ _) hrest.keepsBlocks
    refine ⟨List.Subset.trans (List.subset_append_left _ _) hrest.keepsBlocks,
      List.Subset.trans (List.subset_append_left _ _) hrest.keepsTree, ?_, ?_, ?_, ?_⟩
    · rw [hrest.paths, List.map_append, List.append_assoc]
      rfl
    · intro file' hfile'
      rcases List.mem_cons.1 hfile' with rfl | hfile'
      · exact ⟨built, cid, tsize, hmake, hbuilt, hrest.keepsTree (List.mem_append_right _ (List.mem_singleton_self _))⟩
      · exact hrest.file file' hfile'
    -- a link of the tree was there before, or is that of one of the files
    · intro p link hmem
      rcases hrest.linked p link hmem with hbefore | ⟨file', hfile', hmade⟩
      · rcases List.mem_append.1 hbefore with hbefore | hbefore
        · exact Or.inl hbefore
        · have hlink := (Prod.mk.inj (List.mem_singleton.1 hbefore)).2
          exact Or.inr ⟨file, List.mem_cons_self, built, tsize, by rw [hlink]; exact hmake⟩
      · exact Or.inr ⟨file', List.mem_cons_of_mem _ hfile', hmade⟩
    · intro P hstart hfiles
      have hboth : ∀ b ∈ start ++ built, P b := by
        intro b hb
        rcases List.mem_append.1 hb with hb | hb
        · exact hstart b hb
        · exact hfiles file List.mem_cons_self built cid tsize hmake b hb
      exact hrest.made hboth fun file' hfile' => hfiles file' (List.mem_cons_of_mem _ hfile')

end Site
