import Mathlib.Data.List.TakeWhile
import VayuWeb.Spec.Proxy

/-!
# Host and path of one target

A target in absolute form is `http://`, the host, and what is left. `requestHost` ends the host at the
first of `/`, `?` and `#`; `pathOf` looks for the first `/` alone, and so takes a path out of a query or
a fragment that has one (`path_of_target_iff`).
-/

namespace VayuWeb

/-! ## The scheme -/

/-- A unit that reads as a letter of `http` in either case. -/
theorem lower_eq {u v : UInt16} (hv : 97 ≤ v.toNat ∧ v.toNat ≤ 122)
    (h : (if 65 ≤ u.toNat ∧ u.toNat ≤ 90 then u + 32 else u) = v) : isAlpha u = true := by
  unfold isAlpha
  split_ifs at h with hupper
  · simp [hupper]
  · subst h
    simp [hv]

/-- A unit that reads as a mark is that mark. -/
theorem mark_eq {u v : UInt16} (hv : v.toNat < 65) (h : (if 65 ≤ u.toNat ∧ u.toNat ≤ 90 then u + 32 else u) = v) :
    u = v := by
  split_ifs at h with hupper
  · exfalso
    have hadd : (u + 32).toNat = u.toNat + 32 := by
      rw [UInt16.toNat_add]
      change (u.toNat + 32) % 65536 = _
      omega
    rw [h] at hadd
    omega
  · exact h

theorem isSchemeUnit_of_isAlpha {u : UInt16} (h : isAlpha u = true) : isSchemeUnit u = true := by
  unfold isSchemeUnit
  rw [h]
  rfl

/-- **What follows the scheme** of a target that begins with `http://` in either case. -/
theorem afterScheme_http {target : Utf16} (h : isHttp target = true) : afterScheme target = some (target.drop 7) := by
  unfold isHttp at h
  have heq := of_decide_eq_true h
  have hmarks : Utf16.of "http://" = [104, 116, 116, 112, 58, 47, 47] := by decide
  rw [hmarks] at heq
  match target, heq with
  | a :: b :: c :: d :: e :: f :: g :: rest, heq =>
    simp only [List.take_succ_cons, List.take_zero, List.map_cons, List.map_nil, List.cons.injEq, and_true] at heq
    obtain ⟨ha, hb, hc, hd, he, hf, hg⟩ := heq
    have ha := lower_eq (by decide) ha
    have hb := isSchemeUnit_of_isAlpha (lower_eq (by decide) hb)
    have hc := isSchemeUnit_of_isAlpha (lower_eq (by decide) hc)
    have hd := isSchemeUnit_of_isAlpha (lower_eq (by decide) hd)
    have he : e = 58 := mark_eq (by decide) he
    have hf : f = 47 := mark_eq (by decide) hf
    have hg : g = 47 := mark_eq (by decide) hg
    subst he hf hg
    have hcolon : isSchemeUnit 58 = false := by decide
    have htail : (b :: c :: d :: 58 :: 47 :: 47 :: rest).dropWhile isSchemeUnit = 58 :: 47 :: 47 :: rest := by
      simp [hb, hc, hd, hcolon]
    have hslashes : Utf16.of "://" <+: 58 :: 47 :: 47 :: rest := ⟨rest, rfl⟩
    unfold afterScheme
    simp only [htail]
    rw [if_pos ⟨ha, hslashes⟩]
    rfl
  | [], heq | [_], heq | [_, _], heq | [_, _, _], heq | [_, _, _, _], heq | [_, _, _, _, _], heq
  | [_, _, _, _, _, _], heq => simp at heq

/-! ## Trimming -/

theorem trim_cons {u : UInt16} (hu : isTrimmed u = false) (rest : Utf16) :
    trim (u :: rest) = u :: (rest.reverse.dropWhile isTrimmed).reverse := by
  unfold trim
  rw [List.dropWhile_cons_of_neg (by simp [hu]), List.reverse_cons, List.dropWhile_append]
  split_ifs with h
  · rw [List.isEmpty_iff.1 h, List.dropWhile_cons_of_neg (by simp [hu])]
    rfl
  · rw [List.reverse_append]
    rfl

theorem dropWhile_eq_self {p : UInt16 → Bool} {xs : Utf16} :
    xs.dropWhile p = xs ↔ ∀ u, xs.head? = some u → p u = false := by
  cases xs with
  | nil => simp
  | cons x xs =>
    simp only [List.head?_cons, Option.some.injEq, forall_eq']
    constructor
    · intro h
      by_contra hx
      rw [List.dropWhile_cons_of_pos (by simpa using hx)] at h
      have hlength := congrArg List.length h
      have hle := (List.dropWhile_suffix (l := xs) p).length_le
      rw [List.length_cons] at hlength
      omega
    · intro h
      exact List.dropWhile_cons_of_neg (by simp [h])

/-- What begins with a slash is trimmed at its end only. -/
theorem trim_slash (rest : Utf16) : trim (47 :: rest) = 47 :: (rest.reverse.dropWhile isTrimmed).reverse :=
  trim_cons (by decide) rest

/-! ## One reading -/

/-- A part of a target before its first `?` or `#`. -/
def beforeQuery (rest : Utf16) : Utf16 := rest.takeWhile fun u => ¬ (Utf16.of "?#").contains u

/-- What is left after the host is read in one way by both: a path ends in no white space, and the
first slash of a query or a fragment is followed by nothing but white space. -/
def ReadsOnce (rest : Utf16) : Prop :=
  match rest with
  | [] => True
  | first :: _ =>
    if first = 47 then ∀ last, (beforeQuery rest).getLast? = some last → isTrimmed last = false
    else ∀ u ∈ beforeQuery ((rest.dropWhile (· ≠ 47)).drop 1), isTrimmed u = true

/-- The path of an absolute target is what follows its host up to the query. -/
theorem pathOf_eq {target host rest : Utf16} (h : isHttp target = true) (hrest : target.drop 7 = host ++ rest)
    (hhost : ∀ u ∈ host, isTargetEnd u = false) :
    pathOf target = if trim (beforeQuery (rest.dropWhile (· ≠ 47))) = [] then Utf16.of "/"
      else trim (beforeQuery (rest.dropWhile (· ≠ 47))) := by
  have hslash : ∀ u ∈ host, decide (u ≠ 47) = true := by
    intro u hu
    rw [decide_eq_true_iff]
    rintro rfl
    exact absurd (hhost 47 hu) (by decide)
  unfold pathOf
  rw [afterScheme_http h, hrest]
  simp only [List.dropWhile_append_of_pos hslash]
  rfl

/-- A path that begins with a slash. -/
theorem path_slash (tail : Utf16) : trim (beforeQuery (47 :: tail)) = beforeQuery (47 :: tail) ↔
    ∀ last, (beforeQuery (47 :: tail)).getLast? = some last → isTrimmed last = false := by
  have hcons : beforeQuery (47 :: tail) = 47 :: beforeQuery tail := by
    unfold beforeQuery
    rw [List.takeWhile_cons_of_pos (by decide)]
  rw [hcons, trim_slash, List.cons.injEq, eq_self_iff_true, true_and, List.reverse_eq_iff, dropWhile_eq_self,
    List.head?_reverse]
  cases hpart : beforeQuery tail with
  | nil =>
    simp only [List.getLast?_nil, List.getLast?_singleton]
    constructor
    · rintro - last hlast
      cases hlast
      decide
    · rintro - u hu
      cases hu
  | cons u us => rw [List.getLast?_cons_cons]

/-- A path out of a query is the root when white space alone is after its slash. -/
theorem path_query (tail : Utf16) : trim (beforeQuery (47 :: tail)) = [47] ↔
    ∀ u ∈ beforeQuery tail, isTrimmed u = true := by
  have hcons : beforeQuery (47 :: tail) = 47 :: beforeQuery tail := by
    unfold beforeQuery
    rw [List.takeWhile_cons_of_pos (by decide)]
  rw [hcons, trim_slash, List.cons.injEq, eq_self_iff_true, true_and, List.reverse_eq_nil_iff,
    List.dropWhile_eq_nil_iff]
  simp only [List.mem_reverse]

/-- What is left after a host begins with a mark that ends a host. -/
theorem rest_head {units : Utf16} :
    ∀ u, (units.dropWhile fun u => ¬ isTargetEnd u).head? = some u → isTargetEnd u = true := by
  intro u hu
  have hnot := List.head?_dropWhile_not (fun u => decide (¬ isTargetEnd u = true)) units
  rw [hu] at hnot
  simpa using hnot

/-- What follows the host starts with a slash or is empty. -/
theorem dropWhile_ne_head {rest : Utf16} :
    rest.dropWhile (· ≠ 47) = [] ∨ rest.dropWhile (· ≠ 47) = 47 :: (rest.dropWhile (· ≠ 47)).drop 1 := by
  have hnot := List.head?_dropWhile_not (fun u : UInt16 => decide (u ≠ 47)) rest
  cases hcut : rest.dropWhile (· ≠ 47) with
  | nil => exact .inl rfl
  | cons u us =>
    rw [hcut] at hnot
    have hu : u = 47 := by simpa using hnot
    subst hu
    exact .inr rfl

/-- **A path is that of the target** exactly when what is left after the host reads in one way. -/
theorem pathOf_iff {target host rest : Utf16} (h : isHttp target = true) (hrest : target.drop 7 = host ++ rest)
    (hhost : ∀ u ∈ host, isTargetEnd u = false) (hhead : ∀ u, rest.head? = some u → isTargetEnd u = true) :
    (pathOf target = if beforeQuery rest = [] then Utf16.of "/" else beforeQuery rest) ↔ ReadsOnce rest := by
  have hroot : Utf16.of "/" = [47] := by decide
  rw [pathOf_eq h hrest hhost, hroot]
  cases rest with
  | nil => simp [ReadsOnce, beforeQuery, trim]
  | cons first tail =>
    by_cases hfirst : first = 47
    · -- a path of its own: only its end can be trimmed
      subst hfirst
      have hdrop : (47 :: tail : Utf16).dropWhile (· ≠ 47) = 47 :: tail := List.dropWhile_cons_of_neg (by simp)
      have hne : beforeQuery (47 :: tail) ≠ [] := by
        unfold beforeQuery
        rw [List.takeWhile_cons_of_pos (by decide)]
        exact List.cons_ne_nil _ _
      have htrim : trim (beforeQuery (47 :: tail)) ≠ [] := by
        unfold beforeQuery
        rw [List.takeWhile_cons_of_pos (by decide), trim_slash]
        exact List.cons_ne_nil _ _
      rw [hdrop, if_neg hne, if_neg htrim, path_slash]
      unfold ReadsOnce
      simp only [if_true]
    · -- a query or a fragment: the path is the root, and the first slash is looked for in it
      have hend := hhead first rfl
      have hquery : (Utf16.of "?#").contains first = true := by
        unfold isTargetEnd at hend
        have hmarks : Utf16.of "/?#" = [47, 63, 35] := by decide
        have hmarks' : Utf16.of "?#" = [63, 35] := by decide
        rw [hmarks] at hend
        rw [hmarks']
        simpa [hfirst] using hend
      have hnil : beforeQuery (first :: tail) = [] := by
        unfold beforeQuery
        rw [List.takeWhile_cons_of_neg (by simpa using hquery)]
      rw [if_pos hnil]
      have hreads : ReadsOnce (first :: tail) ↔
          ∀ u ∈ beforeQuery (((first :: tail).dropWhile (· ≠ 47)).drop 1), isTrimmed u = true := by
        unfold ReadsOnce
        simp only [hfirst, if_false]
      rw [hreads]
      rcases @dropWhile_ne_head (first :: tail) with hcut | hcut
      · rw [hcut]
        simp [beforeQuery, trim]
      · rw [hcut, List.drop_succ_cons, List.drop_zero, ← path_query]
        -- the cut begins at a slash, which the trim never removes
        by_cases htrim : trim (beforeQuery (47 :: ((first :: tail).dropWhile (· ≠ 47)).drop 1)) = []
        · exfalso
          unfold beforeQuery at htrim
          rw [List.takeWhile_cons_of_pos (by decide), trim_slash] at htrim
          exact List.cons_ne_nil _ _ htrim
        · rw [if_neg htrim]

/-- **Host and path of a target in absolute form** are the two parts of one reading exactly when what
is left after the host reads in one way. -/
theorem path_of_target_iff {request : ProxyRequest} {host : Utf16} (habsolute : (afterScheme request.target).isSome)
    (h : requestHost request = some host) :
    ∃ rest, isHttp request.target = true ∧ request.target = request.target.take 7 ++ host ++ rest ∧
      (∀ u ∈ host, isTargetEnd u = false) ∧ (∀ u, rest.head? = some u → isTargetEnd u = true) ∧
      ((pathOf request.target = if beforeQuery rest = [] then Utf16.of "/" else beforeQuery rest) ↔
        ReadsOnce rest) := by
  unfold requestHost at h
  split_ifs at h with _ hhttp
  have hhttp : isHttp request.target = true := by simpa using hhttp
  have hhost : (request.target.drop 7).takeWhile (fun u => ¬ isTargetEnd u) = host := by
    dsimp only at h
    split_ifs at h
    exact Option.some.inj h
  have hsplit : request.target.drop 7 = host ++ (request.target.drop 7).dropWhile fun u => ¬ isTargetEnd u := by
    rw [← hhost, List.takeWhile_append_dropWhile]
  have hmember : ∀ u ∈ host, isTargetEnd u = false := by
    intro u hu
    rw [← hhost] at hu
    simpa using List.mem_takeWhile_imp hu
  refine ⟨_, hhttp, ?_, hmember, rest_head, pathOf_iff hhttp hsplit hmember rest_head⟩
  rw [List.append_assoc, ← hsplit, List.take_append_drop]

/-- A request with a slash in its query. -/
def queryRequest : ProxyRequest :=
  { method := "GET", target := Utf16.of "http://a.vayu?q=/evil", headers := [] }

/-- The first slash of a query begins a path. -/
theorem path_out_of_query : requestHost queryRequest = some (Utf16.of "a.vayu") ∧
    queryRequest.target = Utf16.of "http://" ++ Utf16.of "a.vayu" ++ Utf16.of "?q=/evil" ∧
    beforeQuery (Utf16.of "?q=/evil") = [] ∧ pathOf queryRequest.target = Utf16.of "/evil" ∧
    pathOf queryRequest.target ≠ Utf16.of "/" := by
  decide

theorem path_of_target_iff_query :
    ∃ rest, isHttp queryRequest.target = true ∧
      queryRequest.target = queryRequest.target.take 7 ++ Utf16.of "a.vayu" ++ rest ∧
      (∀ u ∈ Utf16.of "a.vayu", isTargetEnd u = false) ∧ (∀ u, rest.head? = some u → isTargetEnd u = true) ∧
      ((pathOf queryRequest.target = if beforeQuery rest = [] then Utf16.of "/" else beforeQuery rest) ↔
        ReadsOnce rest) :=
  @path_of_target_iff queryRequest (Utf16.of "a.vayu") (by decide) (by decide)

end VayuWeb
