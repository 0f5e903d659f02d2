import VayuWeb.Base.Words
import VayuWeb.Client.Resolve
import VayuWeb.Proof.ClientVerdict
import VayuWeb.Proof.ViewAccept
import VayuWeb.Spec.Resolve

/-!
# One selection in both implementations

* `parseHost_name`: a registered name is the host of itself.
* `select_cid`, `select_alias`: what the client selects from a record the registry selects too.
-/

namespace VayuWeb.Client

open Bytes
open DetCbor (Key Value Canonical)

/-! ## The host of a name -/

section Host

variable {label tld : String}

theorem lowerChar_eq {c : Char} (h : isLabelCharacter c = true) : lowerChar c = [c] := by
  have hall : ∀ n < 128, isLabelCharacter (Char.ofNat n) = true → lowerChar (Char.ofNat n) = [Char.ofNat n] := by
    decide
  have hc := hall c.toNat (isLabelCharacter_lt h)
  rw [Char.ofNat_toNat] at hc
  exact hc h

/-- What a registered name consists of. -/
structure Registered (label tld : String) : Prop where
  label : VayuWeb.labelRejection label = none
  tld : VayuWeb.isRatifiedTld tld = true

/-- The label of a registered name is of the right characters. -/
theorem Registered.label_characters (h : Registered label tld) :
    label.toList ≠ [] ∧ label.toList.all isLabelCharacter = true := by
  have hlabel := h.label
  unfold VayuWeb.labelRejection at hlabel
  simp only at hlabel
  split_ifs at hlabel with hempty hlong hcharacters
  refine ⟨?_, by simpa using hcharacters⟩
  intro hnil
  apply hempty
  rw [jsLength, hnil]
  rfl

/-- The TLD of a registered name is of the right characters. -/
theorem Registered.tld_characters (h : Registered label tld) :
    tld.toList ≠ [] ∧ tld.toList.all isLabelCharacter = true := by
  have htld := h.tld
  rw [VayuWeb.isRatifiedTld, decide_eq_true_eq] at htld
  exact annex_characters tld htld

theorem dot_ne {c : Char} (h : isLabelCharacter c = true) : c ≠ '.' := by
  rintro rfl
  exact absurd h (by decide)

/-- A name in lower case is left as it is. -/
theorem flatMap_lowerChar {chars : List Char} (h : ∀ c ∈ chars, isLabelCharacter c = true ∨ c = '.') :
    chars.flatMap lowerChar = chars := by
  induction chars with
  | nil => rfl
  | cons c chars ih =>
    have hc : lowerChar c = [c] := by
      rcases h c List.mem_cons_self with hc | rfl
      · exact lowerChar_eq hc
      · decide
    rw [List.flatMap_cons, hc, ih fun d hd => h d (List.mem_cons_of_mem _ hd)]
    rfl

theorem dropPort_eq {host : String} (h : ':' ∉ host.toList) : dropPort host = host := by
  unfold dropPort
  simp only
  split
  · rename_i rest hrest
    exfalso
    apply h
    rw [← List.mem_reverse]
    apply (List.dropWhile_sublist (p := isDigit)).subset
    rw [hrest]
    exact List.mem_cons_self
  · rfl

/-- **A registered name is the host of itself.** -/
theorem parseHost_name (h : Registered label tld) :
    parseHost s!"{label}.{tld}" = some { label := label, tld := tld } := by
  obtain ⟨hlabelNe, hlabel⟩ := h.label_characters
  obtain ⟨htldNe, htld⟩ := h.tld_characters
  rw [List.all_eq_true] at hlabel htld
  have hchars : (s!"{label}.{tld}").toList = label.toList ++ '.' :: tld.toList := by
    simp [toString, String.toList_append]
  have hcolon : ':' ∉ (s!"{label}.{tld}").toList := by
    rw [hchars]
    intro hmem
    rcases List.mem_append.1 hmem with hmem | hmem
    · exact absurd (hlabel _ hmem) (by decide)
    · rcases List.mem_cons.1 hmem with hmem | hmem
      · exact absurd hmem (by decide)
      · exact absurd (htld _ hmem) (by decide)
  have hlower : toLowerCase s!"{label}.{tld}" = s!"{label}.{tld}" := by
    unfold toLowerCase
    rw [hchars, flatMap_lowerChar, ← hchars, String.ofList_toList]
    intro c hc
    rcases List.mem_append.1 hc with hc | hc
    · exact Or.inl (hlabel c hc)
    · rcases List.mem_cons.1 hc with hc | hc
      · exact Or.inr hc
      · exact Or.inl (htld c hc)
  have hleft : ∀ c ∈ label.toList, decide (c ≠ '.') = true := by
    intro c hc
    exact decide_eq_true (dot_ne (hlabel c hc))
  have hright : '.' ∉ tld.toList := by
    intro hmem
    exact absurd rfl (dot_ne (htld _ hmem))
  unfold parseHost
  simp only
  rw [dropPort_eq hcolon, hlower, hchars, List.takeWhile_append_of_pos hleft, List.dropWhile_append_of_pos hleft]
  simp only [List.takeWhile_cons, List.dropWhile_cons, ne_eq, not_true_eq_false, decide_false, Bool.false_eq_true,
    if_false, List.append_nil, if_neg hright, hlabelNe, htldNe, or_self, String.ofList_toList]

/-- Two names of one spelling are one. -/
theorem name_injective {other otherTld : String} (h : Registered label tld) (hother : Registered other otherTld)
    (heq : s!"{label}.{tld}" = s!"{other}.{otherTld}") : label = other ∧ tld = otherTld := by
  have hhost := parseHost_name h
  rw [heq, parseHost_name hother, Option.some.injEq, ParsedHost.mk.injEq] at hhost
  exact ⟨hhost.1.symm, hhost.2.symm⟩

end Host

/-! ## The two readings of an alias -/

/-- The last dot of a valid alias is the first. -/
theorem rsplitOnce_eq {value : String} {target : Alias} (h : parseAlias value = some target) :
    rsplitOnce value = some (target.label, target.tld) := by
  unfold parseAlias at h
  simp only at h
  cases hdrop : value.toList.dropWhile (· ≠ '.') with
  | nil =>
    rw [hdrop] at h
    simp at h
  | cons dot tld =>
    rw [hdrop] at h
    simp only at h
    split_ifs at h with hempty hdots hname
    rw [Option.some.injEq] at h
    have hdot : dot = '.' := by
      have hhead := List.head?_dropWhile_not (fun c => decide (c ≠ '.')) value.toList
      rw [hdrop] at hhead
      simpa using hhead
    subst hdot
    have hchars : value.toList = value.toList.takeWhile (· ≠ '.') ++ '.' :: tld := by
      rw [← hdrop, List.takeWhile_append_dropWhile]
    have hnot : '.' ∉ tld := by simpa using hdots
    obtain ⟨htake, hrest⟩ := Words.takeWhile_reverse (value.toList.takeWhile (· ≠ '.')) hnot
    unfold rsplitOnce
    simp only
    rw [hchars, htake, hrest, ← h]
    simp

/-! ## Sources -/

/-- What a selection of the client is in the registry. -/
inductive SameSource : Option Selected → Option RecordEntry → Prop
  | none : SameSource none none
  | ipns {text : String} {e : RecordEntry} (type : e.type = "ipns") : SameSource (some (.ipns text)) (some e)
  | cid {bytes : Bytes} {e : RecordEntry} (type : e.type = "cid") (value : e.value = .bytes bytes) :
      SameSource (some (.cid bytes)) (some e)
  | alias {target : Alias} {text : String} {e : RecordEntry} (type : e.type = "alias") (value : e.value = .text text)
      (parses : VayuWeb.parseAlias text = some (target.label, target.tld)) : SameSource (some (.alias target)) (some e)

/-- What the registry reads where the client has typed an entry. -/
structure Typed (t : String × Value) (e : RecordEntry) : Prop where
  type : e.type = t.1
  value : e.value = ofWire t.2
  known : e.known = knownEntryTypes.contains t.1
  shape : KindFits t.1 t.2
  bomFree : t.2.hasBom = false

/-- A fitting entry has its type and its value. -/
theorem typedEntry_eq {entry : Value} {fields : Members} {kind : String} {value : Value}
    (h : EntryFits entry fields kind value) : typedEntry entry = some (some (kind, value)) := by
  unfold typedEntry
  rw [h.map]
  have hkind : findMember fields "type" asText = some kind := findMember_of_field h.type_eq rfl
  have hvalue : findMember fields "value" some = some value := findMember_of_field h.value_eq rfl
  simp only [hkind, hvalue, Option.bind_eq_bind, Option.bind_some]
  rfl

/-- The client types every entry that the registry reads. -/
theorem typed_of_reads {entries : List Value} {res : List RecordEntry} (h : List.Forall₂ Reads entries res)
    (hbomFree : ∀ entry ∈ entries, ∀ fields kind value, EntryFits entry fields kind value → value.hasBom = false) :
    ∃ typed, entries.mapM typedEntry = some (typed.map some) ∧ List.Forall₂ Typed typed res := by
  induction h with
  | nil => exact ⟨[], rfl, List.Forall₂.nil⟩
  | @cons entry e entries res hreads _ ih =>
    obtain ⟨typed, htyped, hall⟩ := ih fun entry' hentry => hbomFree entry' (List.mem_cons_of_mem _ hentry)
    obtain ⟨fields, kind, value, hfits, -, rfl⟩ := hreads
    refine ⟨(kind, value) :: typed, ?_, List.Forall₂.cons ?_ hall⟩
    · rw [List.mapM_cons, typedEntry_eq hfits, htyped]
      rfl
    · exact ⟨rfl, rfl, rfl, hfits.shape, hbomFree entry List.mem_cons_self fields kind value hfits⟩

/-- The first entry of a kind is the first of both. -/
theorem find_typed {typed : List (String × Value)} {res : List RecordEntry} (h : List.Forall₂ Typed typed res)
    (type : SourceType) :
    (typed.find? (fun t => t.1 = type.name) = none ∧ res.find? (usable type) = none) ∨
      ∃ t e, typed.find? (fun t => t.1 = type.name) = some t ∧ res.find? (usable type) = some e ∧ Typed t e ∧
        t.1 = type.name := by
  induction h with
  | nil => exact Or.inl ⟨rfl, rfl⟩
  | @cons t e typed res ht _ ih =>
    have hknown : knownEntryTypes.contains type.name = true := by
      cases type <;> decide
    rw [List.find?_cons, List.find?_cons]
    by_cases hkind : t.1 = type.name
    · have husable : usable type e = true := by
        rw [usable, ht.known, ht.type, hkind, hknown]
        simp
      rw [husable, decide_eq_true hkind]
      exact Or.inr ⟨t, e, rfl, rfl, ht, hkind⟩
    · have husable : usable type e = false := by
        rw [usable, ht.type]
        simp [hkind]
      rw [husable, decide_eq_false hkind]
      exact ih

theorem kindFits_cid {value : Value} (h : KindFits SourceType.cid.name value) : ∃ b, value = .bytes b := by
  obtain ⟨b, hb, -⟩ := (show ∃ b, value = .bytes b ∧ b ≠ [] ∧ b.length ≤ 64 from h)
  exact ⟨b, hb⟩

theorem kindFits_ipns {value : Value} (h : KindFits SourceType.ipns.name value) : ∃ s, value = .text s := by
  obtain ⟨s, hs, -⟩ := (show ∃ s, value = .text s ∧ s.toList ≠ [] ∧ s.toList.length ≤ 128 from h)
  exact ⟨s, hs⟩

theorem kindFits_alias {value : Value} (h : KindFits SourceType.alias.name value) :
    ∃ s target, value = .text s ∧ parseAlias s = some target := by
  obtain ⟨s, hs, hsome⟩ := (show ∃ s, value = .text s ∧ (parseAlias s).isSome = true from h)
  obtain ⟨target, htarget⟩ := Option.isSome_iff_exists.1 hsome
  exact ⟨s, target, hs, htarget⟩

/-- What the first entry of a kind selects. -/
theorem selectKind_typed {typed : List (String × Value)} {t : String × Value} {e : RecordEntry} {type : SourceType}
    (hfind : typed.find? (fun t => t.1 = type.name) = some t) (ht : Typed t e) (hkind : t.1 = type.name) :
    ∃ selected, selectKind typed type.name = some (some selected) ∧ SameSource (some selected) (some e) := by
  have hshape := ht.shape
  have htype := ht.type
  rw [hkind] at hshape htype
  obtain ⟨kind, value⟩ := t
  cases type with
  | ipns =>
    obtain ⟨s, rfl⟩ := kindFits_ipns hshape
    exact ⟨.ipns s, by unfold selectKind; rw [hfind]; rfl, .ipns htype⟩
  | cid =>
    obtain ⟨b, rfl⟩ := kindFits_cid hshape
    exact ⟨.cid b, by unfold selectKind; rw [hfind]; rfl, .cid htype ht.value⟩
  | «alias» =>
    obtain ⟨s, target, rfl, htarget⟩ := kindFits_alias hshape
    have hvalue : e.value = .text s := by
      rw [ht.value, ofWire, dropBom_of_not ht.bomFree]
    refine ⟨.alias target, ?_, .alias htype hvalue ?_⟩
    · unfold selectKind
      rw [hfind]
      have hsplit := rsplitOnce_eq htarget
      simp only [SourceType.name, String.reduceEq, if_false, if_true, hsplit, Option.map_some]
    · rw [← parseAlias_eq, htarget]
      rfl

theorem selectKind_none {typed : List (String × Value)} {wanted : String}
    (hfind : typed.find? (fun t => t.1 = wanted) = none) : selectKind typed wanted = none := by
  unfold selectKind
  rw [hfind]

/-- **One selection in both implementations**, of a record that both admit. -/
theorem selection_same {bytes : Bytes} {r : RegistryRecord} {p : ParsedRecord} (h : BothAdmit bytes r p) :
    SameSource (selectedPointer bytes) (selectSource r) := by
  obtain ⟨hmeets, hagrees⟩ := h.meets_agrees
  obtain ⟨hdecode, -⟩ := parsed_of_parseBytes h.client
  obtain ⟨entries, hrecords, hreads⟩ := hagrees.entries
  obtain ⟨typed, htyped, hall⟩ := typed_of_reads hreads fun entry hentry fields kind value hfits =>
    value_bomFree hmeets.bomFree hrecords hentry hfits
  have hfound : ∀ read : Value → Option (List Value), read (.array entries) = some entries →
      findMember p.map "records" read = some entries := fun read hread => findMember_of_field hrecords hread
  have hselected : selectedPointer bytes = (["ipns", "cid", "alias"].findSome? (selectKind typed)).join := by
    unfold selectedPointer
    rw [hdecode]
    simp only [Except.toOption_ok, Option.bind_eq_bind, Option.bind_some]
    rw [hfound _ rfl, Option.bind_some, htyped, Option.bind_some]
    rw [List.filterMap_map]
    simp
  rw [hselected]
  unfold selectSource sourceCandidates
  -- both look for the kinds in one order: ipns, then cid, then alias
  rcases find_typed hall .ipns with ⟨hnone, hnone'⟩ | ⟨t, e, hsome, hsome', ht, hkind⟩
  · rcases find_typed hall .cid with ⟨hcid, hcid'⟩ | ⟨t, e, hsome, hsome', ht, hkind⟩
    · rcases find_typed hall .alias with ⟨halias, halias'⟩ | ⟨t, e, hsome, hsome', ht, hkind⟩
      · have hnone : typed.find? (fun t => t.1 = "ipns") = none := hnone
        have hcid : typed.find? (fun t => t.1 = "cid") = none := hcid
        have halias : typed.find? (fun t => t.1 = "alias") = none := halias
        simp only [List.findSome?_cons, List.findSome?_nil, selectKind_none hnone, selectKind_none hcid,
          selectKind_none halias, List.filterMap_cons, List.filterMap_nil, hnone', hcid', halias', if_true]
        exact .none
      · obtain ⟨selected, hselect, hsame⟩ := selectKind_typed hsome ht hkind
        have hselect : selectKind typed "alias" = some (some selected) := hselect
        have hnone : typed.find? (fun t => t.1 = "ipns") = none := hnone
        have hcid : typed.find? (fun t => t.1 = "cid") = none := hcid
        simp only [List.findSome?_cons, selectKind_none hnone, selectKind_none hcid,
          hselect, List.filterMap_cons, List.filterMap_nil, hnone', hcid', hsome', if_true]
        exact hsame
    · obtain ⟨selected, hselect, hsame⟩ := selectKind_typed hsome ht hkind
      have hselect : selectKind typed "cid" = some (some selected) := hselect
      have hnone : typed.find? (fun t => t.1 = "ipns") = none := hnone
      simp only [List.findSome?_cons, selectKind_none hnone, hselect, List.filterMap_cons, List.filterMap_nil, hnone',
        hsome', reduceCtorEq, if_false]
      exact hsame
  · obtain ⟨selected, hselect, hsame⟩ := selectKind_typed hsome ht hkind
    have hselect : selectKind typed "ipns" = some (some selected) := hselect
    simp only [List.findSome?_cons, hselect, List.filterMap_cons, hsome', reduceCtorEq, if_false]
    exact hsame

/-- Where a pointer to content comes from. -/
theorem pointerOf_cid {label tld : String} {bytes : Bytes} {cid : Cid}
    (h : View.pointerOf label tld bytes = .ok (.cid cid)) :
    ∃ b, selectedPointer bytes = some (.cid b) ∧ Cid.fromBytes b = .ok cid := by
  unfold View.pointerOf at h
  cases hselected : selectedPointer bytes with
  | none => simp [hselected] at h
  | some selected =>
    cases selected with
    | cid b =>
      simp only [hselected] at h
      cases hcid : Cid.fromBytes b with
      | error e => simp [hcid] at h
      | ok cid' =>
        simp only [hcid, Except.ok.injEq, Pointer.cid.injEq] at h
        exact ⟨b, rfl, by rw [hcid, h]⟩
    | ipns text => simp [hselected] at h
    | «alias» target => simp [hselected] at h

/-- Where a pointer to a name comes from. -/
theorem pointerOf_alias {label tld : String} {bytes : Bytes} {target : Alias}
    (h : View.pointerOf label tld bytes = .ok (.alias target)) : selectedPointer bytes = some (.alias target) := by
  unfold View.pointerOf at h
  cases hselected : selectedPointer bytes with
  | none => simp [hselected] at h
  | some selected =>
    cases selected with
    | cid b =>
      simp only [hselected] at h
      cases hcid : Cid.fromBytes b with
      | error e => simp [hcid] at h
      | ok cid => simp [hcid] at h
    | ipns text => simp [hselected] at h
    | «alias» target' =>
      simp only [hselected, Except.ok.injEq, Pointer.alias.injEq] at h
      rw [h]

end VayuWeb.Client
