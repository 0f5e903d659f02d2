import VayuWeb.Client.Evidence
import VayuWeb.Proof.ClientEvidence

/-!
# Lines of the client's ledger

Nothing in a line but its own marks is a quotation mark or a new line (`Plain`), so a line is read back from
its front up to the mark that closes its last value (`parseEntry_front`), and not before (`parseEntry_torn`).
-/

namespace VayuWeb.Client.Evidence

open Bytes Quoted

variable {entry : LedgerEntry} {cs ds line more : List Char}

/-! ## Characters -/

/-- A text without quotation marks and new lines. -/
def Plain (cs : List Char) : Prop := '"' ∉ cs ∧ '\n' ∉ cs

theorem plain_nil : Plain [] := ⟨List.not_mem_nil, List.not_mem_nil⟩

theorem plain_of_all {p : Char → Bool} (hmark : p '"' = false) (hline : p '\n' = false) (h : ∀ c ∈ cs, p c = true) :
    Plain cs := by
  constructor
  · intro hmem
    rw [h _ hmem] at hmark
    cases hmark
  · intro hmem
    rw [h _ hmem] at hline
    cases hline

/-- Plain texts make a plain text. -/
theorem Plain.append (hc : Plain cs) (hd : Plain ds) : Plain (cs ++ ds) := by
  unfold Plain at *
  rw [List.mem_append, List.mem_append, not_or, not_or]
  exact ⟨⟨hc.1, hd.1⟩, hc.2, hd.2⟩

theorem toDigit_hexDigit : ∀ n < 16, toDigit (hexDigit n) = some n := by decide

theorem plain_hexDigit : ∀ n < 16, Plain [hexDigit n] := by
  unfold Plain
  decide

theorem hexBytes_toList (bytes : Bytes) : (hexBytes bytes).toList =
    bytes.flatMap fun b => [hexDigit (b.toNat / 16), hexDigit (b.toNat % 16)] := by
  rw [hexBytes, String.toList_ofList]

/-- Digits are plain. -/
theorem plain_hexBytes (bytes : Bytes) : Plain (hexBytes bytes).toList := by
  rw [hexBytes_toList]
  induction bytes with
  | nil => exact plain_nil
  | cons b bytes ih =>
    have hb := b.toNat_lt
    have hhigh := plain_hexDigit (b.toNat / 16) (by omega)
    have hlow := plain_hexDigit (b.toNat % 16) (by omega)
    rw [List.flatMap_cons]
    exact (hhigh.append hlow).append ih

/-- **Bytes are read back from their digits.** -/
theorem unhex_hexBytes (bytes : Bytes) : unhex (hexBytes bytes).toList = some bytes := by
  rw [hexBytes_toList]
  induction bytes with
  | nil => rfl
  | cons b bytes ih =>
    have hb := b.toNat_lt
    have hbyte : UInt8.ofNat (b.toNat / 16 * 16 + b.toNat % 16) = b := by
      rw [Nat.div_add_mod']
      exact UInt8.ofNat_toNat
    rw [List.flatMap_cons, List.cons_append, List.cons_append, List.nil_append, unhex,
      toDigit_hexDigit _ (by omega), toDigit_hexDigit _ (by omega), ih]
    simp only [Option.bind_eq_bind, Option.bind_some, Option.pure_def, hbyte]

/-- An origin is read back. -/
theorem parseOrigin_originName (origin : EvidenceOrigin) : parseOrigin (originName origin).toList = some origin := by
  cases origin with
  | detected => decide
  | received => decide

theorem plain_originName (origin : EvidenceOrigin) : Plain (originName origin).toList := by
  unfold Plain
  cases origin with
  | detected => decide
  | received => decide

/-- **The identity of a fact is plain.** -/
theorem plain_equivocationKey {bytes : Bytes} {key : List Char} (h : equivocationKey bytes = some key) : Plain key := by
  unfold equivocationKey at h
  simp only [Option.bind_eq_bind, Option.bind_eq_some_iff, Option.pure_def, Option.some.injEq,
    Except.toOption_eq_some] at h
  obtain ⟨decoded, -, record, hrecord, rfl⟩ := h
  obtain ⟨es, -, hp⟩ := parseRecord_eq_ok.1 hrecord
  have hspace : Plain [' '] := by
    unfold Plain
    decide
  have hlabel : Plain record.label.toList := by
    have hok := hp.label_ok
    unfold labelRejection at hok
    simp only at hok
    split_ifs at hok with hempty hlong hchars
    exact plain_of_all (p := isLabelCharacter) (by decide) (by decide) (List.all_eq_true.1 (by simpa using hchars))
  have htld : Plain record.tld.toList := by
    have hratified := hp.ratified
    rw [isRatifiedTld, List.contains_iff_mem] at hratified
    exact plain_of_all (p := isLabelCharacter) (by decide) (by decide)
      (List.all_eq_true.1 (annex_characters _ hratified).2)
  have hseq : Plain (toString record.seq).toList := by
    refine plain_of_all (p := Char.isDigit) (by decide) (by decide) fun c hc => ?_
    change c ∈ record.seq.repr.toList at hc
    rw [Nat.toList_repr] at hc
    exact Nat.isDigit_of_mem_toDigits (by decide) (by decide) hc
  have hkey := ((((((plain_hexBytes record.ownerKey).append hspace).append htld).append hspace).append
    hlabel).append hspace).append hseq
  simpa [String.toList_append, toString] using hkey

/-! ## The pieces of a line -/

/-- A name and its value, and what stands before and behind them. -/
def member (lead : List Char) (name : String) (value rest : List Char) : List Char :=
  lead ++ '"' :: (name.toList ++ '"' :: (": ".toList ++ '"' :: (value ++ '"' :: rest)))

/-- A line as far as its last value, which `rest` begins with. -/
def opening (entry : LedgerEntry) (rest : List Char) : List Char :=
  member ['\x7b'] "origin" (originName entry.origin).toList (member ", ".toList "key" entry.key
    (member ", ".toList "a" (hexBytes entry.a).toList
      (", ".toList ++ '"' :: ("b".toList ++ '"' :: (": ".toList ++ '"' :: rest)))))

/-- A line up to the mark that closes its last value. -/
def front (entry : LedgerEntry) : List Char := opening entry ((hexBytes entry.b).toList ++ ['"'])

theorem opening_append (entry : LedgerEntry) (rest more : List Char) :
    opening entry (rest ++ more) = opening entry rest ++ more := by
  simp only [opening, member, List.append_assoc, List.cons_append]

theorem renderEntry_eq (entry : LedgerEntry) : renderEntry entry = front entry ++ ['\x7d'] := by
  have hfirst : "\x7b\"origin\": \"".toList = ['\x7b'] ++ '"' ::
      ("origin".toList ++ '"' :: (": ".toList ++ ['"'])) := by
    decide
  have hkey : "\", \"key\": \"".toList =
      '"' :: (", ".toList ++ '"' :: ("key".toList ++ '"' :: (": ".toList ++ ['"']))) := by decide
  have ha : "\", \"a\": \"".toList = '"' :: (", ".toList ++ '"' :: ("a".toList ++ '"' :: (": ".toList ++ ['"']))) := by
    decide
  have hb : "\", \"b\": \"".toList = '"' :: (", ".toList ++ '"' :: ("b".toList ++ '"' :: (": ".toList ++ ['"']))) := by
    decide
  have hlast : "\"\x7d".toList = ['"', '\x7d'] := by decide
  unfold renderEntry front opening member
  rw [hfirst, hkey, ha, hb, hlast]
  simp only [List.append_assoc, List.cons_append, List.nil_append]

/-- The pieces before the last value. -/
def pieces (entry : LedgerEntry) : List (List Char) :=
  [['\x7b'], "origin".toList, ": ".toList, (originName entry.origin).toList, ", ".toList, "key".toList, ": ".toList,
    entry.key, ", ".toList, "a".toList, ": ".toList, (hexBytes entry.a).toList, ", ".toList, "b".toList, ": ".toList]

/-- The quoted parts of a member. -/
theorem closed_member {lead value : List Char} {name : String} (hlead : '"' ∉ lead) (hname : '"' ∉ name.toList)
    (hvalue : '"' ∉ value) (rest : List Char) :
    closed '"' (member lead name value rest) = lead :: name.toList :: ": ".toList :: value :: closed '"' rest := by
  have hsep : '"' ∉ ": ".toList := by decide
  rw [member, closed_append_cons hlead, closed_append_cons hname, closed_append_cons hsep, closed_append_cons hvalue]

/-- The quoted parts of an entry. -/
theorem closed_opening (hkey : Plain entry.key) (rest : List Char) :
    closed '"' (opening entry rest) = pieces entry ++ closed '"' rest := by
  have horigin := (plain_originName entry.origin).1
  have ha := (plain_hexBytes entry.a).1
  have hlead : '"' ∉ ['\x7b'] := by decide
  have hcomma : '"' ∉ ", ".toList := by decide
  have hsep : '"' ∉ ": ".toList := by decide
  have hnames : '"' ∉ "origin".toList ∧ '"' ∉ "key".toList ∧ '"' ∉ "a".toList ∧ '"' ∉ "b".toList := by decide
  rw [opening, closed_member hlead hnames.1 horigin, closed_member hcomma hnames.2.1 hkey.1,
    closed_member hcomma hnames.2.2.1 ha, closed_append_cons hcomma, closed_append_cons hnames.2.2.2,
    closed_append_cons hsep]
  rfl

/-! ## Reading a line -/

/-- A field is looked for among the quoted parts. -/
theorem field_eq_fieldIn (line : List Char) (name : String) (hname : '"' ∉ name.toList) :
    field line name = fieldIn name.toList ": ".toList (closed '"' line).tail := by
  have hneedle : ("\"" ++ name ++ "\": \"").toList = needleOf '"' name.toList ": ".toList := by
    have hmark : "\"".toList = ['"'] := by decide
    have hsep : "\": \"".toList = '"' :: (": ".toList ++ ['"']) := by decide
    rw [String.toList_append, String.toList_append, hmark, hsep, needleOf, List.append_assoc, List.singleton_append]
  have hfield := field_eq hname (show '"' ∉ ": ".toList by decide) line
  unfold field
  rw [hneedle]
  exact hfield

/-- **A line is read from its front**, whatever follows. -/
theorem parseEntry_front (hkey : Plain entry.key) (more : List Char) :
    parseEntry (front entry ++ more) = some entry := by
  have hb := (plain_hexBytes entry.b).1
  have hclosed : closed '"' (front entry ++ more) = pieces entry ++ (hexBytes entry.b).toList :: closed '"' more := by
    rw [front, ← opening_append, closed_opening hkey, List.append_assoc, List.singleton_append, closed_append_cons hb]
  have hfields : field (front entry ++ more) "origin" = some (originName entry.origin).toList ∧
      field (front entry ++ more) "key" = some entry.key ∧
      field (front entry ++ more) "a" = some (hexBytes entry.a).toList ∧
      field (front entry ++ more) "b" = some (hexBytes entry.b).toList := by
    rw [field_eq_fieldIn _ _ (by decide), field_eq_fieldIn _ _ (by decide), field_eq_fieldIn _ _ (by decide),
      field_eq_fieldIn _ _ (by decide), hclosed]
    simp [pieces, fieldIn]
  obtain ⟨horigin, hkeyField, ha, hbField⟩ := hfields
  unfold parseEntry
  rw [horigin, hkeyField, ha, hbField]
  simp only [Option.bind_eq_bind, Option.bind_some, parseOrigin_originName, unhex_hexBytes, Option.pure_def]

/-- **A line that was cut before its last mark is not read.** -/
theorem parseEntry_torn (hkey : Plain entry.key) (h : line <+: opening entry (hexBytes entry.b).toList) :
    parseEntry line = none := by
  have hb := (plain_hexBytes entry.b).1
  have hclosed : closed '"' line <+: pieces entry := by
    have hpre : closed '"' line <+: closed '"' (opening entry (hexBytes entry.b).toList) := closed_prefix h
    rw [closed_opening hkey, closed_of_notMem hb, List.append_nil] at hpre
    exact hpre
  have hpieces : fieldIn "b".toList ": ".toList (pieces entry).tail = none := by
    simp [pieces, fieldIn]
  rw [Option.eq_none_iff_forall_ne_some]
  intro other hother
  simp only [parseEntry, Option.bind_eq_bind, Option.bind_eq_some_iff] at hother
  obtain ⟨-, -, -, -, -, -, -, -, -, -, value, hvalue, -⟩ := hother
  rw [field_eq_fieldIn _ _ (by decide)] at hvalue
  rw [fieldIn_extend (by simpa using hclosed.drop 1) hvalue] at hpieces
  cases hpieces

/-! ## Lines of a text -/

theorem trim_prefix {c : Char} (hc : isWhitespace c = false) (cs : List Char) :
    trim (c :: cs) <+: c :: cs ∧ trim (c :: cs) ≠ [] := by
  have hfront : (c :: cs).dropWhile isWhitespace = c :: cs := List.dropWhile_cons_of_neg (by rw [hc]; decide)
  rw [trim, hfront]
  refine ⟨List.rdropWhile_prefix _ _, ?_⟩
  intro hnil
  rw [List.rdropWhile_eq_nil_iff] at hnil
  rw [hnil c List.mem_cons_self] at hc
  cases hc

/-- A line that begins and ends with other characters is not trimmed. -/
theorem trim_eq {c d : Char} (hc : isWhitespace c = false) (hd : isWhitespace d = false) :
    trim (c :: cs ++ [d]) = c :: cs ++ [d] := by
  have hfront : (c :: cs ++ [d]).dropWhile isWhitespace = c :: cs ++ [d] := by
    rw [List.cons_append]
    exact List.dropWhile_cons_of_neg (by rw [hc]; decide)
  rw [trim, hfront]
  exact List.rdropWhile_concat_neg _ _ _ (by rw [hd]; decide)

/-- The lines of a file, one by one. -/
theorem lines_cons (hline : '\n' ∉ line) (hne : trim line ≠ []) (more : List Char) :
    lines (line ++ '\n' :: more) = trim line :: lines more := by
  rw [lines, List.splitOn_append_cons_self_of_not_mem hline, List.map_cons, List.filter_cons_of_pos
    (by simpa using hne),
    lines]

theorem lines_last (hline : '\n' ∉ line) (hne : trim line ≠ []) : lines line = [trim line] := by
  rw [lines, List.splitOn_eq_singleton hline, List.map_singleton, List.filter_cons_of_pos (by simpa using hne),
    List.filter_nil]

theorem lines_nil : lines [] = [] := by decide

/-- An entry has no newline inside. -/
theorem newline_opening (hkey : Plain entry.key) (rest : List Char) (hrest : '\n' ∉ rest) :
    '\n' ∉ opening entry rest := by
  have horigin := (plain_originName entry.origin).2
  have ha := (plain_hexBytes entry.a).2
  simp only [opening, member, List.mem_append, List.mem_cons, List.not_mem_nil, or_false, not_or]
  simp [horigin, ha, hkey.2, hrest]

/-- How a line begins. -/
theorem opening_eq (entry : LedgerEntry) (rest : List Char) : ∃ cs, opening entry rest = '\x7b' :: cs := ⟨_, rfl⟩

end VayuWeb.Client.Evidence
