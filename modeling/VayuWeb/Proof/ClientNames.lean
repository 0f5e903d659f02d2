import VayuWeb.Client.Names

/-!
# The two name grammars admit the same names

* `labelRejection_eq_none`, `isWellShapedTld_eq`, `nameRejection_eq_none`: a name one side admits
  the other admits. Lengths differ on text outside ASCII alone, which neither grammar admits.
* `parseAlias_eq`: so both read an alias the same way.
-/

namespace VayuWeb.Client

open Bytes

/-! ## ASCII text -/

theorem jsLength_of_ascii {s : String} (h : ∀ c ∈ s.toList, c.toNat < 128) :
    jsLength s = s.toList.length := by
  unfold jsLength
  have hone : s.toList.map (fun c => if c.toNat < 0x10000 then 1 else 2) = s.toList.map fun _ => 1 := by
    apply List.map_congr_left
    intro c hc
    have := h c hc
    rw [if_pos (by omega)]
  rw [hone]
  simp

theorem utf8Encode_of_ascii {s : String} (h : ∀ c ∈ s.toList, c.toNat < 128) :
    utf8Encode s = s.toList.map fun c => UInt8.ofNat c.toNat := by
  have hchar : ∀ c ∈ s.toList, Char.ofNat (UInt8.ofNat c.toNat).toNat = c := by
    intro c hc
    have hc' := h c hc
    rw [UInt8.toNat_ofNat', Nat.mod_eq_of_lt (by omega), Char.ofNat_toNat]
  have hs : ofAscii (s.toList.map fun c => UInt8.ofNat c.toNat) = s := by
    unfold ofAscii
    rw [List.map_map]
    have hid : s.toList.map ((fun b => Char.ofNat b.toNat) ∘ fun c => UInt8.ofNat c.toNat) = s.toList := by
      conv_rhs => rw [← List.map_id s.toList]
      exact List.map_congr_left hchar
    rw [hid, String.ofList_toList]
  have hbelow : ∀ b ∈ s.toList.map fun c => UInt8.ofNat c.toNat, b.toNat < 128 := by
    intro b hb
    obtain ⟨c, hc, rfl⟩ := List.mem_map.1 hb
    have hc' := h c hc
    rw [UInt8.toNat_ofNat']
    omega
  have hencode := utf8Encode_ofAscii hbelow
  rwa [hs] at hencode

theorem isLowercase_lt {c : Char} (h : isLowercase c = true) : c.toNat < 128 := by
  simp only [isLowercase, Bool.and_eq_true, decide_eq_true_eq] at h
  have hle : c.toNat ≤ 'z'.toNat := h.2
  have hz : 'z'.toNat = 122 := rfl
  omega

theorem isDigit_lt {c : Char} (h : isDigit c = true) : c.toNat < 128 := by
  simp only [isDigit, Bool.and_eq_true, decide_eq_true_eq] at h
  have hle : c.toNat ≤ '9'.toNat := h.2
  have h9 : '9'.toNat = 57 := rfl
  omega

theorem isLabelCharacter_lt {c : Char} (h : isLabelCharacter c = true) : c.toNat < 128 := by
  simp only [isLabelCharacter, Bool.or_eq_true, beq_iff_eq] at h
  rcases h with (h | h) | h
  · exact isLowercase_lt h
  · exact isDigit_lt h
  · subst h
    decide

/-! ## Labels -/

/-- The byte of a hyphen is the byte of no other ASCII character. -/
theorem hyphen_at {chars : List Char} (h : ∀ c ∈ chars, c.toNat < 128) (i : ℕ) :
    (chars.map fun c => UInt8.ofNat c.toNat)[i]? = some 0x2d ↔ chars[i]? = some '-' := by
  rw [List.getElem?_map]
  cases hi : chars[i]? with
  | none => simp
  | some c =>
    have hc := h c (List.mem_of_getElem? hi)
    simp only [Option.map_some, Option.some.injEq]
    constructor
    · intro heq
      have hnat : (UInt8.ofNat c.toNat).toNat = 0x2d := by rw [heq]; rfl
      rw [UInt8.toNat_ofNat', Nat.mod_eq_of_lt (by omega)] at hnat
      rw [← Char.ofNat_toNat c, hnat]
    · rintro rfl; rfl

/-- The two label checks reject the same labels, and a label of ASCII for the same reason. -/
theorem labelRejection_eq {label : String} (h : label.toList.all isLabelCharacter = true) :
    labelRejection label = VayuWeb.labelRejection label := by
  have hascii : ∀ c ∈ label.toList, c.toNat < 128 := fun c hc =>
    isLabelCharacter_lt (List.all_eq_true.1 h c hc)
  unfold labelRejection VayuWeb.labelRejection
  simp only [jsLength_of_ascii hascii, utf8Encode_of_ascii hascii, List.length_map, hyphen_at hascii,
    List.length_eq_zero_iff]

/-- Both programs take the same labels. -/
theorem labelRejection_eq_none {label : String} :
    labelRejection label = none ↔ VayuWeb.labelRejection label = none := by
  by_cases h : label.toList.all isLabelCharacter = true
  · rw [labelRejection_eq h]
  · have hclient : labelRejection label ≠ none := by
      unfold labelRejection
      simp only [if_pos h]
      split_ifs <;> simp
    have hregistry : VayuWeb.labelRejection label ≠ none := by
      unfold VayuWeb.labelRejection
      simp only [if_pos h]
      split_ifs <;> simp
    exact iff_of_false hclient hregistry

/-! ## Extensions and aliases -/

theorem forall_of_parts {p : String → Prop} {names : List String} (n : ℕ) (hfront : ∀ name ∈ names.take n, p name)
    (hback : ∀ name ∈ names.drop n, p name) : ∀ name ∈ names, p name := by
  intro name hname
  rw [← List.take_append_drop n names, List.mem_append] at hname
  rcases hname with hname | hname
  · exact hfront name hname
  · exact hback name hname

theorem annex_characters : ∀ tld ∈ namespaceAnnex, tld.toList ≠ [] ∧ tld.toList.all isLabelCharacter = true := by
  -- in parts, as all of them at once take the kernel two gigabytes
  refine forall_of_parts 160 (by decide +kernel) ?_
  refine forall_of_parts 160 (by decide +kernel) ?_
  refine forall_of_parts 160 (by decide +kernel) ?_
  refine forall_of_parts 160 (by decide +kernel) ?_
  refine forall_of_parts 160 (by decide +kernel) ?_
  refine forall_of_parts 160 (by decide +kernel) ?_
  refine forall_of_parts 160 (by decide +kernel) ?_
  decide +kernel

/-- Both programs have the same annex. -/
theorem isRatifiedTld_eq (tld : String) : isRatifiedTld tld = VayuWeb.isRatifiedTld tld := by
  unfold isRatifiedTld VayuWeb.isRatifiedTld
  rw [List.contains_eq_mem]

/-- Both programs take the same shapes of TLD. -/
theorem isWellShapedTld_eq (tld : String) : isWellShapedTld tld = VayuWeb.isWellShapedTld tld := by
  unfold isWellShapedTld VayuWeb.isWellShapedTld
  cases hchars : tld.toList with
  | nil => simp [jsLength, hchars]
  | cons first rest =>
    by_cases hshape : (isLowercase first && rest.all fun c => isLowercase c || isDigit c) = true
    · rw [Bool.and_eq_true] at hshape
      have hascii : ∀ c ∈ tld.toList, c.toNat < 128 := by
        intro c hc
        rw [hchars, List.mem_cons] at hc
        rcases hc with rfl | hc
        · exact isLowercase_lt hshape.1
        · have hr := List.all_eq_true.1 hshape.2 c hc
          rw [Bool.or_eq_true] at hr
          exact hr.elim isLowercase_lt isDigit_lt
      rw [jsLength_of_ascii hascii, hchars]
      simp only [hshape.1, hshape.2, if_true, Bool.true_and]
      split_ifs <;> first | rfl | omega
    · -- a bad shape is refused whatever the length
      have hbad : (if isLowercase first = true then rest.all fun c => isLowercase c || isDigit c else false) =
          false := by
        split_ifs with hfirst
        · rw [hfirst, Bool.true_and] at hshape
          simpa using hshape
        · rfl
      simp only [hbad, Bool.not_eq_true _ ▸ hshape]
      split_ifs <;> rfl

/-- Both programs take the same names. -/
theorem nameRejection_eq_none {label tld : String} :
    nameRejection label tld = none ↔ VayuWeb.nameRejection label tld = none := by
  unfold nameRejection VayuWeb.nameRejection
  rw [isWellShapedTld_eq, isRatifiedTld_eq]
  by_cases hshape : VayuWeb.isWellShapedTld tld = true
  · by_cases hratified : VayuWeb.isRatifiedTld tld = true
    · simp only [hshape, hratified, not_true_eq_false, if_false]
      exact labelRejection_eq_none
    · simp only [hshape, hratified, not_true_eq_false, if_false]
      simp
  · rw [if_pos hshape, if_pos hshape]

/-- An alias as the pair the registry reads. -/
def Alias.pair (a : Alias) : String × String := (a.label, a.tld)

/-- Both programs read an alias as the same name. -/
theorem parseAlias_eq (value : String) : (parseAlias value).map Alias.pair = VayuWeb.parseAlias value := by
  unfold parseAlias VayuWeb.parseAlias
  cases value.toList.dropWhile (· ≠ '.') with
  | nil => rfl
  | cons dot tld =>
    have hname : nameRejection (String.ofList (value.toList.takeWhile (· ≠ '.'))) (String.ofList tld) =
        none ↔ VayuWeb.nameRejection (String.ofList (value.toList.takeWhile (· ≠ '.'))) (String.ofList tld) =
        none := nameRejection_eq_none
    simp only [List.contains_eq_mem, decide_eq_true_eq, Option.isSome_iff_ne_none, ne_eq, ← hname]
    split_ifs <;> rfl

theorem parseAlias_isSome (value : String) :
    (parseAlias value).isSome = true ↔ VayuWeb.parseAlias value ≠ none := by
  rw [← parseAlias_eq]
  cases parseAlias value <;> simp

end VayuWeb.Client
