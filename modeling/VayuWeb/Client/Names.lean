import VayuWeb.Base.Bytes
import VayuWeb.Spec.Names

/-!
# The client's names (`client/src/names.rs`)

The label grammar and the ratified TLDs once more. The reserved labels, the limits and the
annex are the registry's, word for word; a length counts characters here.
-/

namespace VayuWeb.Client

open Bytes

/-- Why a label is refused, the first reason that applies; lengths are in characters. -/
def labelRejection (label : String) : Option NameRejection :=
  let characters := label.toList
  let bytes := utf8Encode label
  if characters = [] then some .empty
  else if characters.length > maxLabelLength then some .tooLong
  else if ¬ characters.all isLabelCharacter then some .badCharacter
  else if characters.head? = some '-' then some .leadingHyphen
  else if characters.getLast? = some '-' then some .trailingHyphen
  else if bytes.length ≥ 4 ∧ bytes[2]? = some 0x2d ∧ bytes[3]? = some 0x2d then some .reservedIdnShape
  else if characters.length ≤ 2 then some .reservedLabel
  else if label ∈ reservedLabels then some .reservedLabel
  else none

/-- The shape of a TLD, whether it is ratified or not. -/
def isWellShapedTld (tld : String) : Bool :=
  let length := tld.toList.length
  if ¬ (2 ≤ length ∧ length ≤ maxTldLength) then false
  else
    match tld.toList with
    | [] => false
    | first :: characters =>
      if isLowercase first then characters.all fun c => isLowercase c || isDigit c else false

/-- Membership in the annex. -/
def isRatifiedTld (tld : String) : Bool := namespaceAnnex.contains tld

/-- Why a whole name is refused; the TLD is looked at first. -/
def nameRejection (label tld : String) : Option NameRejection :=
  if ¬ isWellShapedTld tld then some .badTldShape
  else if ¬ isRatifiedTld tld then some .unknownTld
  else labelRejection label

/-- The name an alias points at. -/
structure Alias where
  label : String
  tld : String
  deriving DecidableEq, Repr

/-- The two sides of the first dot of an `alias` value, when it is the only one. -/
def parseAlias (value : String) : Option Alias :=
  let label := value.toList.takeWhile (· ≠ '.')
  match value.toList.dropWhile (· ≠ '.') with
  | [] => none
  | _ :: tld =>
    if label = [] ∨ tld = [] then none
    else if tld.contains '.' then none
    else if (nameRejection (String.ofList label) (String.ofList tld)).isSome then none
    else some { label := String.ofList label, tld := String.ofList tld }

end VayuWeb.Client
