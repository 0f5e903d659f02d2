import Mathlib.Algebra.Order.Ring.Nat
import VayuWeb.Spec.Annex

/-!
# Names (`registry/src/names.ts`)

The label grammar, the reserved labels and the ratified TLDs. A string's `length` counts
UTF-16 code units.
-/

namespace VayuWeb

/-- `length` of a string: its UTF-16 code units. -/
def jsLength (s : String) : ℕ := (s.toList.map fun c => if c.toNat < 0x10000 then 1 else 2).sum

/-- `RESERVED_LABELS`. -/
def reservedLabels : List String :=
  ["www", "localhost", "example", "invalid", "test", "vayu", "control", "api", "resolver", "proxy",
    "pac", "wpad"]

/-- `MAX_LABEL_LENGTH`. -/
def maxLabelLength : ℕ := 63

/-- `MAX_TLD_LENGTH`. -/
def maxTldLength : ℕ := 12

/-- Why a name is refused. -/
inductive NameRejection where
  | empty | tooLong | badCharacter | leadingHyphen | trailingHyphen | reservedIdnShape
  | reservedLabel | unknownTld | badTldShape
  deriving DecidableEq, Repr

/-- The code's text. -/
def NameRejection.name : NameRejection → String
  | .empty => "EMPTY"
  | .tooLong => "TOO_LONG"
  | .badCharacter => "BAD_CHARACTER"
  | .leadingHyphen => "LEADING_HYPHEN"
  | .trailingHyphen => "TRAILING_HYPHEN"
  | .reservedIdnShape => "RESERVED_IDN_SHAPE"
  | .reservedLabel => "RESERVED_LABEL"
  | .unknownTld => "UNKNOWN_TLD"
  | .badTldShape => "BAD_TLD_SHAPE"

/-- `[a-z]`. -/
def isLowercase (c : Char) : Bool := 'a' ≤ c && c ≤ 'z'

/-- `[0-9]`. -/
def isDigit (c : Char) : Bool := '0' ≤ c && c ≤ '9'

/-- `LABEL_CHARACTER`. -/
def isLabelCharacter (c : Char) : Bool := isLowercase c || isDigit c || c == '-'

/-- Why a label is refused, the first reason that applies. -/
def labelRejection (label : String) : Option NameRejection :=
  let chars := label.toList
  if jsLength label = 0 then some .empty
  else if jsLength label > maxLabelLength then some .tooLong
  else if ¬ chars.all isLabelCharacter then some .badCharacter
  else if chars.head? = some '-' then some .leadingHyphen
  else if chars.getLast? = some '-' then some .trailingHyphen
  else if jsLength label ≥ 4 ∧ chars[2]? = some '-' ∧ chars[3]? = some '-' then some .reservedIdnShape
  else if jsLength label ≤ 2 then some .reservedLabel
  else if label ∈ reservedLabels then some .reservedLabel
  else none

/-- The shape of a TLD, whether it is ratified or not. -/
def isWellShapedTld (tld : String) : Bool :=
  if jsLength tld < 2 ∨ jsLength tld > maxTldLength then false
  else
    match tld.toList with
    | [] => false
    | c :: rest => isLowercase c && rest.all fun c => isLowercase c || isDigit c

/-- Membership in the annex. -/
def isRatifiedTld (tld : String) : Bool := tld ∈ namespaceAnnex

/-- Why a whole name is refused; the TLD is looked at first. -/
def nameRejection (label tld : String) : Option NameRejection :=
  if ¬ isWellShapedTld tld then some .badTldShape
  else if ¬ isRatifiedTld tld then some .unknownTld
  else labelRejection label

/-- The `label` and `tld` an `alias` entry points at. -/
def parseAlias (value : String) : Option (String × String) :=
  let label := value.toList.takeWhile (· ≠ '.')
  match value.toList.dropWhile (· ≠ '.') with
  | [] => none
  | _ :: tld =>
    if label = [] ∨ tld = [] then none
    -- exactly one dot
    else if '.' ∈ tld then none
    else if nameRejection (String.ofList label) (String.ofList tld) ≠ none then none
    else some (String.ofList label, String.ofList tld)

end VayuWeb
