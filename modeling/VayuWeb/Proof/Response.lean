import VayuWeb.Client.Control
import VayuWeb.Proof.Serve

/-!
# What the listener writes the client reads

A head is lines that are not empty and have no carriage return, so the first blank line is its end
(`indexOf_join`), whatever comes behind it. The client reads every response that `writeHttp` writes as the status
and the body that it was given (`parseResponse_write`), and reports it as a success or as its refusal
(`requireSuccess_write`).
-/

namespace VayuWeb.Serve

open Bytes Search

/-! ## Octets of a text -/

/-- An octet that is over the range is that of no character of the range. -/
theorem ne_ofNat_of_high {b : UInt8} {n : ℕ} (hb : b.toNat < 128) (hlow : 128 ≤ n) (hhigh : n < 256) :
    b ≠ UInt8.ofNat n := by
  intro h
  have hnat := congrArg UInt8.toNat h
  rw [UInt8.toNat_ofNat'] at hnat
  omega

/-- An octet of the range is a character of its own. -/
theorem of_mem_utf8EncodeChar {c : Char} {b : UInt8} (hb : b.toNat < 128) (h : b ∈ String.utf8EncodeChar c) :
    b.toNat = c.toNat := by
  unfold String.utf8EncodeChar at h
  have hvalue : c.toNat = c.val.toNat := rfl
  simp only at h
  split_ifs at h with hascii htwo hthree
  · rw [List.mem_singleton] at h
    rw [h, UInt8.toNat_ofNat']
    omega
  · rw [List.mem_cons, List.mem_singleton] at h
    rcases h with h | h <;> exact absurd h (ne_ofNat_of_high hb (by omega) (by omega))
  · rw [List.mem_cons, List.mem_cons, List.mem_singleton] at h
    rcases h with h | h | h <;> exact absurd h (ne_ofNat_of_high hb (by omega) (by omega))
  · rw [List.mem_cons, List.mem_cons, List.mem_cons, List.mem_singleton] at h
    rcases h with h | h | h | h <;> exact absurd h (ne_ofNat_of_high hb (by omega) (by omega))

theorem notMem_utf8Encode {text : String} {c : Char} (hc : c.toNat < 128) (h : c ∉ text.toList) :
    UInt8.ofNat c.toNat ∉ utf8Encode text := by
  intro hmem
  have hoctets : utf8Encode text = text.toList.flatMap String.utf8EncodeChar := by
    have hlist (cs : List Char) : utf8Encode (String.ofList cs) = cs.flatMap String.utf8EncodeChar := by
      simp [utf8Encode, List.utf8Encode]
    rw [← hlist, String.ofList_toList]
  rw [hoctets, List.mem_flatMap] at hmem
  obtain ⟨d, hd, hmem⟩ := hmem
  have hval : (UInt8.ofNat c.toNat).toNat = c.toNat := by
    rw [UInt8.toNat_ofNat']
    omega
  have heq := of_mem_utf8EncodeChar (by omega) hmem
  rw [hval] at heq
  have hsame : c = d := Char.toNat_inj.1 heq
  exact h (hsame ▸ hd)

/-! ## Lines of a head -/

/-- Lines that a head may be made of. -/
def Lines {α : Type} (cr : α) (lines : List (List α)) : Prop := lines ≠ [] ∧ ∀ line ∈ lines, line ≠ [] ∧ cr ∉ line

/-- **The head ends at its first blank line.** -/
theorem indexOf_join {lines : List Bytes} (h : Lines 13 lines) (rest : Bytes) :
    indexOf headTerminator (([13, 10] : Bytes).intercalate lines ++ (headTerminator ++ rest)) =
      some (([13, 10] : Bytes).intercalate lines).length := by
  obtain ⟨hne, hlines⟩ := h
  induction lines with
  | nil => exact absurd rfl hne
  | cons line lines ih =>
    obtain ⟨-, hline⟩ := hlines line List.mem_cons_self
    cases lines with
    | nil =>
      have hend : indexOf headTerminator (headTerminator ++ rest) = some 0 := indexOf_of_front (List.prefix_append _ _)
      rw [List.intercalate_singleton, indexOf_line hline, hend, Option.map_some, Nat.zero_add]
    | cons next lines =>
      have hrest := ih (List.cons_ne_nil _ _) fun l hl => hlines l (List.mem_cons_of_mem _ hl)
      obtain ⟨hsome, hnext⟩ := hlines next (List.mem_cons_of_mem _ List.mem_cons_self)
      cases next with
      | nil => exact absurd rfl hsome
      | cons u next =>
        rw [List.mem_cons, not_or] at hnext
        have hbreak := @indexOf_break u (([13, 10] : Bytes).intercalate (next :: lines) ++ (headTerminator ++ rest))
          fun heq => hnext.1 heq.symm
        rw [List.intercalate_cons_cons_left, List.cons_append] at hrest
        rw [List.intercalate_cons_cons, List.intercalate_cons_cons_left, List.append_assoc, List.append_assoc,
          indexOf_line hline, List.cons_append, List.cons_append, List.nil_append, List.cons_append, hbreak, hrest]
        simp only [Option.map_some, List.length_append, List.length_cons, List.length_nil]
        congr 1
        omega

/-- The lines are those that were joined. -/
theorem splitLines_join {lines : List Utf16} (h : Lines 13 lines) :
    splitLines (([13, 10] : Utf16).intercalate lines) = lines := by
  obtain ⟨hne, hlines⟩ := h
  induction lines with
  | nil => exact absurd rfl hne
  | cons line lines ih =>
    obtain ⟨-, hline⟩ := hlines line List.mem_cons_self
    cases lines with
    | nil => rw [List.intercalate_singleton, splitLines_last hline]
    | cons next lines =>
      rw [List.intercalate_cons_cons, List.append_assoc, List.cons_append, List.cons_append, List.nil_append,
        splitLines_line hline, ih (List.cons_ne_nil _ _) fun l hl => hlines l (List.mem_cons_of_mem _ hl)]

theorem utf8Encode_join (lines : List String) :
    utf8Encode ("\r\n".intercalate lines) = ([13, 10] : Bytes).intercalate (lines.map utf8Encode) := by
  induction lines with
  | nil => rfl
  | cons line lines ih =>
    cases lines with
    | nil => rw [String.intercalate_singleton, List.map_singleton, List.intercalate_singleton]
    | cons next lines =>
      have hbreak : utf8Encode "\r\n" = [13, 10] := by decide
      rw [String.intercalate_cons_cons, utf8Encode_append, utf8Encode_append, ih, hbreak, List.map_cons, List.map_cons,
        List.map_cons, List.intercalate_cons_cons]

/-! ## The response -/

/-- A header that may stand in a response. -/
def PlainHeader (e : String × String) : Prop := '\r' ∉ e.1.toList ∧ '\r' ∉ e.2.toList

section
variable {status : ℕ} {headers : List (String × String)} {length : ℕ}

theorem digits_plain (n : ℕ) : ∀ c ∈ (toString n).toList, c.isDigit := by
  intro c hc
  change c ∈ n.repr.toList at hc
  rw [Nat.toList_repr] at hc
  exact Nat.isDigit_of_mem_toDigits (by decide) (by decide) hc

theorem notMem_digits {c : Char} (hc : c.isDigit = false) (n : ℕ) : c ∉ (toString n).toList := by
  intro hmem
  rw [digits_plain n c hmem] at hc
  cases hc

theorem reason_plain (status : ℕ) : '\r' ∉ (reason status).toList ∧ '\n' ∉ (reason status).toList := by
  unfold reason
  split <;> decide

/-- The line of a status. -/
theorem statusLine_toList (status : ℕ) : (s!"HTTP/1.1 {status} {reason status}" : String).toList =
    "HTTP/1.1".toList ++ ' ' :: ((toString status).toList ++ ' ' :: (reason status).toList) := by
  rw [String.toList_append, String.toList_append, String.toList_append, List.append_assoc, List.append_assoc]
  rfl

/-- A text that may be a line. -/
def PlainLine (text : String) : Prop := text.toList ≠ [] ∧ '\r' ∉ text.toList

/-- The status line does not break. -/
theorem plain_statusLine (status : ℕ) : PlainLine s!"HTTP/1.1 {status} {reason status}" := by
  unfold PlainLine
  rw [statusLine_toList]
  refine ⟨List.cons_ne_nil _ _, ?_⟩
  rw [List.mem_append, List.mem_cons, List.mem_append, List.mem_cons, not_or, not_or, not_or, not_or]
  exact ⟨by decide, by decide, notMem_digits (by decide) status, by decide, (reason_plain status).1⟩

/-- No line of a head breaks. -/
theorem plain_headLines (hplain : ∀ e ∈ headers, PlainHeader e) : ∀ line ∈ headLines status headers length,
    PlainLine line := by
  intro line hline
  unfold headLines at hline
  rw [List.mem_append, List.mem_cons, List.mem_map] at hline
  rcases hline with (rfl | ⟨e, he, rfl⟩) | hlast
  · exact plain_statusLine status
  · obtain ⟨hname, hvalue⟩ := hplain e he
    unfold PlainLine
    rw [String.toList_append, String.toList_append, List.append_assoc]
    refine ⟨?_, ?_⟩
    · exact List.append_ne_nil_of_right_ne_nil _ (List.cons_ne_nil _ _)
    · rw [List.mem_append, List.mem_append, not_or, not_or]
      exact ⟨hname, by decide, hvalue⟩
  · rw [List.mem_cons, List.mem_singleton] at hlast
    rcases hlast with rfl | rfl
    · unfold PlainLine
      rw [String.toList_append]
      refine ⟨List.cons_ne_nil _ _, ?_⟩
      rw [List.mem_append, not_or]
      exact ⟨by decide, notMem_digits (by decide) length⟩
    · unfold PlainLine
      decide

/-- The lines of a head come back from their encoding. -/
theorem lines_encoded {lines : List String} (hne : lines ≠ []) (h : ∀ line ∈ lines, PlainLine line) :
    Lines 13 (lines.map utf8Encode) := by
  refine ⟨fun hnil => hne (List.map_eq_nil_iff.1 hnil), ?_⟩
  intro bytes hbytes
  obtain ⟨line, hline, rfl⟩ := List.mem_map.1 hbytes
  obtain ⟨hsome, hplain⟩ := h line hline
  refine ⟨?_, notMem_utf8Encode (c := '\r') (by decide) hplain⟩
  intro hempty
  have htext : line = "" := utf8Encode_injective hempty
  rw [htext] at hsome
  exact hsome rfl

end

end VayuWeb.Serve

namespace VayuWeb.Client.Control

open Bytes Serve

/-! ## What the client reads -/

/-- A number that fits is read back from its digits. -/
theorem parseU16_digits {n : ℕ} (h : n < 2 ^ 16) : parseU16 (toString n).toList = some n := by
  have hdigits := digits_plain n
  have hlist : (toString n).toList = Nat.toDigits 10 n := Nat.toList_repr
  have hsome : (toString n).toList ≠ [] := by
    rw [hlist]
    exact Nat.toDigits_ne_nil
  have hplus : (toString n).toList.head? ≠ some '+' := by
    intro heq
    have hdigit := hdigits _ (List.mem_of_mem_head? heq)
    exact absurd hdigit (by decide)
  have hvalue : (toString n).toList.foldl (fun n c => n * 10 + (c.toNat - 48)) 0 = n := by
    have hread := Nat.ofDigitChars_toDigits (b := 10) (n := n) (by decide) (by decide)
    rw [Nat.ofDigitChars_eq_foldl, ← hlist] at hread
    have hstep : (fun (n : ℕ) (c : Char) => n * 10 + (c.toNat - 48)) = fun sofar c =>
        10 * sofar + (c.toNat - '0'.toNat) := by
      funext m c
      rw [Nat.mul_comm]
      rfl
    rw [hstep]
    exact hread
  unfold parseU16
  rw [if_neg hplus]
  dsimp only
  rw [if_neg, hvalue, if_pos h]
  rw [not_or, not_not]
  exact ⟨hsome, List.all_eq_true.2 hdigits⟩

/-- The first of several lines is read without its end. -/
theorem firstLine_join {line : String} (hline : '\n' ∉ line.toList) (next : String) (lines : List String) :
    firstLine ("\r\n".intercalate (line :: next :: lines)).toList = line.toList := by
  have hchars : ("\r\n".intercalate (line :: next :: lines)).toList =
      (line.toList ++ ['\r']) ++ '\n' :: ("\r\n".intercalate (next :: lines)).toList := by
    rw [String.intercalate_cons_cons, String.toList_append, String.toList_append, List.append_assoc, List.append_assoc]
    rfl
  have hwhole : ∀ c ∈ line.toList ++ ['\r'], decide (c ≠ '\n') = true := by
    intro c hc
    rw [decide_eq_true_eq]
    rintro rfl
    rcases List.mem_append.1 hc with hc | hc
    · exact hline hc
    · exact absurd hc (by decide)
  have htake : ((line.toList ++ ['\r']) ++ '\n' :: ("\r\n".intercalate (next :: lines)).toList).takeWhile (· ≠ '\n') =
      line.toList ++ ['\r'] := by
    rw [List.takeWhile_append_of_pos hwhole, List.takeWhile_cons_of_neg (by decide), List.append_nil]
  unfold firstLine
  rw [hchars, htake]
  dsimp only
  rw [if_pos, List.dropLast_concat]
  refine ⟨?_, List.getLast?_concat⟩
  simp only [List.length_append, List.length_cons]
  omega

/-- The status is read back from its line. -/
theorem statusOf_statusLine {status : ℕ} (h : status < 2 ^ 16) :
    statusOf (s!"HTTP/1.1 {status} {reason status}" : String).toList = some status := by
  unfold statusOf
  have hversion : "HTTP/1.1".toList.splitOn ' ' = ["HTTP/1.1".toList] := List.splitOn_eq_singleton (by decide)
  have hdigits : (toString status).toList.splitOn ' ' = [(toString status).toList] :=
    List.splitOn_eq_singleton (notMem_digits (by decide) status)
  rw [statusLine_toList, List.splitOn_append_cons_self, List.splitOn_append_cons_self, hversion, hdigits]
  exact parseU16_digits h

/-- **A response is read as what was written**: its status and its body, whatever the body holds, unless it is
left out. -/
theorem parseResponse_write {status : ℕ} (hstatus : status < 2 ^ 16) {headers : List (String × String)}
    (hheaders : ∀ e ∈ headers, PlainHeader e) (body : String) (elideBody : Bool) :
    parseResponse (writeHttp status headers (utf8Encode body) elideBody) =
      .ok { status := status, body := if elideBody then "" else body } := by
  have hplain : ∀ line ∈ headLines status headers (utf8Encode body).length, PlainLine line := plain_headLines hheaders
  generalize hlines : headLines status headers (utf8Encode body).length = lines at hplain
  obtain ⟨next, more, hmore⟩ : ∃ next more, lines = s!"HTTP/1.1 {status} {reason status}" :: next :: more := by
    rw [← hlines]
    unfold headLines
    cases headers with
    | nil => exact ⟨_, _, rfl⟩
    | cons e headers => exact ⟨_, _, rfl⟩
  have hne : lines ≠ [] := by
    rw [hmore]
    exact List.cons_ne_nil _ _
  -- a response to HEAD gives the length of a body that it leaves out
  have hentity : (if elideBody then [] else utf8Encode body) = utf8Encode (if elideBody then "" else body) := by
    cases elideBody <;> rfl
  generalize htext : (if elideBody then "" else body) = entity at hentity
  have hbytes : writeHttp status headers (utf8Encode body) elideBody =
      utf8Encode ("\r\n".intercalate lines) ++ ([13, 10, 13, 10] ++ utf8Encode entity) := by
    have hbreak : utf8Encode "\r\n\r\n" = [13, 10, 13, 10] := by decide
    unfold writeHttp
    rw [hlines, utf8Encode_append, hbreak, List.append_assoc, hentity]
  -- no line of the head holds a break, so the first blank line is the one after it
  have hend : Search.indexOf [13, 10, 13, 10] (writeHttp status headers (utf8Encode body) elideBody) =
      some (utf8Encode ("\r\n".intercalate lines)).length := by
    rw [hbytes, utf8Encode_join]
    exact indexOf_join (lines_encoded hne hplain) (utf8Encode entity)
  have hfirst : firstLine ("\r\n".intercalate lines).toList =
      (s!"HTTP/1.1 {status} {reason status}" : String).toList := by
    rw [hmore]
    apply firstLine_join
    rw [statusLine_toList, List.mem_append, List.mem_cons, List.mem_append, List.mem_cons, not_or, not_or, not_or,
      not_or]
    exact ⟨by decide, by decide, notMem_digits (by decide) status, by decide, (reason_plain status).2⟩
  have hbody : (writeHttp status headers (utf8Encode body) elideBody).drop
      ((utf8Encode ("\r\n".intercalate lines)).length + 4) = utf8Encode entity := by
    rw [hbytes, ← List.append_assoc]
    exact List.drop_left' (by rw [List.length_append]; rfl)
  unfold parseResponse
  rw [hend]
  dsimp only
  rw [hbody, utf8Decode_utf8Encode, hbytes, List.take_left, utf8Decode_utf8Encode]
  dsimp only
  rw [hfirst, statusOf_statusLine hstatus]

/-- **What the client reports of a response**: its body where the status is one of success, and otherwise the refusal
with the status and the reason that were written. -/
theorem requireSuccess_write {status : ℕ} (hstatus : status < 2 ^ 16) {headers : List (String × String)}
    (hheaders : ∀ e ∈ headers, PlainHeader e) (body : String) :
    (parseResponse (writeHttp status headers (utf8Encode body) false) >>= requireSuccess) =
      if 200 ≤ status ∧ status < 300 then .ok { status := status, body := body }
      else .error (.refused status body) := by
  rw [parseResponse_write hstatus hheaders, Except.ok_bind]
  rfl

end VayuWeb.Client.Control
