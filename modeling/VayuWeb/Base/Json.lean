import Mathlib.Algebra.Order.Ring.Nat
import Mathlib.Data.List.Basic

/-!
# JSON texts

A reader of the texts of ECMA-404. A string is its UTF-16 code units, as an escape may name half of
a pair; a number is the decimal that is written, before any rounding.
-/

/-- A string as UTF-16 code units. -/
abbrev Utf16 := List UInt16

namespace Utf16

/-- The code units of a character. -/
def ofChar (c : Char) : Utf16 :=
  if c.toNat < 0x10000 then [UInt16.ofNat c.toNat]
  else
    let rest := c.toNat - 0x10000
    [UInt16.ofNat (0xD800 + rest / 0x400), UInt16.ofNat (0xDC00 + rest % 0x400)]

/-- The code units of a text. -/
def of (text : String) : Utf16 := text.toList.flatMap ofChar

end Utf16

namespace Json

/-- `coefficient` times ten to the `exponent`. -/
structure Decimal where
  negative : Bool
  coefficient : ℕ
  exponent : ℤ
  deriving DecidableEq, Repr

/-- One after rounding to the nearest double; half-way cases go to the even neighbour, which is one. -/
def Decimal.isOne (n : Decimal) : Bool :=
  let scale := 10 ^ n.exponent.natAbs
  let above := if 0 ≤ n.exponent then n.coefficient * scale else n.coefficient
  let below := if 0 ≤ n.exponent then 1 else scale
  !n.negative && (2 ^ 54 - 1) * below ≤ above * 2 ^ 54 && above * 2 ^ 53 ≤ (2 ^ 53 + 1) * below

/-- A JSON value. -/
inductive Value where
  | null
  | bool (b : Bool)
  | number (n : Decimal)
  | string (s : Utf16)
  | array (items : List Value)
  | object (members : List (Utf16 × Value))

/-- The white space of JSON. -/
def isSpace (c : Char) : Bool := c = ' ' || c = '\t' || c = '\n' || c = '\r'

/-- What is left behind white space. -/
def skipSpaces (chars : List Char) : List Char := chars.dropWhile isSpace

/-! ## Strings -/

/-- The value of a hexadecimal digit, in either case. -/
def hexDigit (c : Char) : Option ℕ :=
  if '0' ≤ c ∧ c ≤ '9' then some (c.toNat - '0'.toNat)
  else if 'a' ≤ c ∧ c ≤ 'f' then some (c.toNat - 'a'.toNat + 10)
  else if 'A' ≤ c ∧ c ≤ 'F' then some (c.toNat - 'A'.toNat + 10)
  else none

/-- The unit that four hexadecimal digits name. -/
def hexUnit (chars : List Char) : Option UInt16 := do
  let digits ← chars.mapM hexDigit
  return UInt16.ofNat (digits.foldl (fun n d => n * 16 + d) 0)

/-- What an escape of one character stands for. -/
def escape (c : Char) : Option Char :=
  match c with
  | '"' => some '"'
  | '\\' => some '\\'
  | '/' => some '/'
  | 'b' => some (Char.ofNat 8)
  | 'f' => some (Char.ofNat 12)
  | 'n' => some '\n'
  | 'r' => some '\r'
  | 't' => some '\t'
  | _ => none

/-- A string after its opening quote. -/
def readString : List Char → Option (Utf16 × List Char)
  | [] => none
  | '"' :: rest => some ([], rest)
  | '\\' :: 'u' :: a :: b :: c :: d :: rest => do
    let unit ← hexUnit [a, b, c, d]
    let (s, rest) ← readString rest
    return (unit :: s, rest)
  | '\\' :: e :: rest => do
    let c ← escape e
    let (s, rest) ← readString rest
    return (Utf16.ofChar c ++ s, rest)
  | c :: rest => do
    if c.toNat < 0x20 then none
    let (s, rest) ← readString rest
    return (Utf16.ofChar c ++ s, rest)

/-! ## Numbers -/

/-- `[0-9]`. -/
def isDigit (c : Char) : Bool := '0' ≤ c && c ≤ '9'

/-- The number that decimal digits spell. -/
def digitsValue (digits : List Char) : ℕ := digits.foldl (fun n d => n * 10 + (d.toNat - '0'.toNat)) 0

/-- The digits at the front, one at least. -/
def readDigits (chars : List Char) : Option (List Char × List Char) :=
  match chars.takeWhile isDigit with
  | [] => none
  | digits => some (digits, chars.dropWhile isDigit)

/-- Whether a minus sign is in front, and what is left. -/
def readSign (chars : List Char) : Bool × List Char :=
  match chars with
  | '-' :: rest => (true, rest)
  | _ => (false, chars)

/-- The fraction, which may be absent. -/
def readFraction (chars : List Char) : Option (List Char × List Char) :=
  match chars with
  | '.' :: rest => readDigits rest
  | _ => some ([], chars)

/-- The exponent, which may be absent. -/
def readExponent (chars : List Char) : Option (ℤ × List Char) :=
  match chars with
  | c :: rest =>
    if c = 'e' ∨ c = 'E' then do
      let (negative, rest) := match rest with
        | '+' :: rest => (false, rest)
        | _ => readSign rest
      let (digits, rest) ← readDigits rest
      let value : ℤ := digitsValue digits
      return (if negative then -value else value, rest)
    else some (0, chars)
  | [] => some (0, chars)

/-- The number that the parts of a literal spell. -/
def decimal (negative : Bool) (integer fraction : List Char) (exponent : ℤ) : Decimal :=
  { negative := negative, coefficient := digitsValue (integer ++ fraction), exponent := exponent - fraction.length }

/-- Reads a number in the grammar of JSON. -/
def readNumber (chars : List Char) : Option (Decimal × List Char) := do
  let (negative, rest) := readSign chars
  let (integer, rest) ← readDigits rest
  -- no zero in front of another digit
  if integer.head? = some '0' ∧ 1 < integer.length then none
  let (fraction, rest) ← readFraction rest
  let (exponent, rest) ← readExponent rest
  return (decimal negative integer fraction exponent, rest)

/-! ## Values -/

/-- A literal at the front. -/
def readLiteral (word : String) (value : Value) (chars : List Char) : Option (Value × List Char) :=
  if word.toList.isPrefixOf chars then some (value, chars.drop word.length) else none

mutual

/-- A value; `fuel` bounds how deep the reader goes and how many items it reads. -/
def readValue : ℕ → List Char → Option (Value × List Char)
  | 0, _ => none
  | fuel + 1, chars =>
    match skipSpaces chars with
    | [] => none
    | c :: rest =>
      if c = '{' then
        match skipSpaces rest with
        | '}' :: rest => some (.object [], rest)
        | rest => do
          let (members, rest) ← readMembers fuel rest
          return (.object members, rest)
      else if c = '[' then
        match skipSpaces rest with
        | ']' :: rest => some (.array [], rest)
        | rest => do
          let (items, rest) ← readItems fuel rest
          return (.array items, rest)
      else if c = '"' then do
        let (s, rest) ← readString rest
        return (.string s, rest)
      else if c = 't' then readLiteral "true" (.bool true) (c :: rest)
      else if c = 'f' then readLiteral "false" (.bool false) (c :: rest)
      else if c = 'n' then readLiteral "null" .null (c :: rest)
      else do
        let (n, rest) ← readNumber (c :: rest)
        return (.number n, rest)

/-- The members of an object up to its brace, one at least. -/
def readMembers : ℕ → List Char → Option (List (Utf16 × Value) × List Char)
  | 0, _ => none
  | fuel + 1, chars =>
    match skipSpaces chars with
    | '"' :: rest => do
      let (key, rest) ← readString rest
      match skipSpaces rest with
      | ':' :: rest => do
        let (value, rest) ← readValue fuel rest
        match skipSpaces rest with
        | '}' :: rest => return ([(key, value)], rest)
        | ',' :: rest => do
          let (members, rest) ← readMembers fuel rest
          return ((key, value) :: members, rest)
        | _ => none
      | _ => none
    | _ => none

/-- The items of an array up to its bracket, one at least. -/
def readItems : ℕ → List Char → Option (List Value × List Char)
  | 0, _ => none
  | fuel + 1, chars => do
    let (value, rest) ← readValue fuel chars
    match skipSpaces rest with
    | ']' :: rest => return ([value], rest)
    | ',' :: rest => do
      let (items, rest) ← readItems fuel rest
      return (value :: items, rest)
    | _ => none

end

/-- A whole text. A level and an item take a character each, so that the fuel is enough. -/
def parse (text : String) : Option Value :=
  let chars := text.toList
  match readValue (2 * chars.length + 2) chars with
  | some (value, rest) => if skipSpaces rest = [] then some value else none
  | none => none

/-- The value of a key: of several, the last. -/
def member (members : List (Utf16 × Value)) (key : String) : Option Value :=
  (members.reverse.find? fun e => e.1 = Utf16.of key).map Prod.snd

end Json
