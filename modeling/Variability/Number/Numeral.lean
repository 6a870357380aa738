import Variability.Number.Decimal
import Variability.Text

/-!
Numbers as text.

A whole number is an optional sign and decimal digits of any script, with single
underscores between digits and white space around all. Its numeral has a bounded
number of digits, so that reading and writing it takes bounded time.

A double-precision number is an optional sign, and then decimal digits with an
optional point and an optional power of ten, or one of the words for an infinite
number and for what is not a number. The digits before the point, after it and in
the power are three numerals: each has digits of any script, and an underscore
stands between two digits of one numeral or nowhere. One of the first two may be
missing.
-/

namespace Variability.Number

open Text (isWhiteSpace trimBy digitValue?)

/-! ## Whole numbers -/

/-- The greatest number of digits of a numeral. -/
def maxDigits : Nat := 4300

/-- The values of the digits, where single underscores may stand between two of them. -/
def digitValues? : List Char → Option (List Nat)
  | [] => none
  | [c] => (digitValue? c).map (fun d => [d])
  | c :: '_' :: rest => do
    let d ← digitValue? c
    let ds ← digitValues? rest
    return d :: ds
  | c :: rest => do
    let d ← digitValue? c
    let ds ← digitValues? rest
    return d :: ds

/-- The number that the digits `ds` denote, most significant first. -/
def ofDigits (ds : List Nat) : Nat := ds.foldl (fun n d => 10 * n + d) 0

/-- Reads a natural number without a sign. -/
def readNatural? (cs : List Char) : Option Nat := do
  let ds ← digitValues? cs
  if ds.length ≤ maxDigits then some (ofDigits ds) else none

/-- Whether a minus sign stands in front, and the text after the sign if there is one. -/
def splitSign : List Char → Bool × List Char
  | '-' :: cs => (true, cs)
  | '+' :: cs => (false, cs)
  | cs => (false, cs)

/-- The whole number `n`, or its negative. -/
def withSign (negative : Bool) (n : Nat) : Int := if negative then -n else n

/-- Reads a whole number. -/
def readInteger? (s : String) : Option Int :=
  let (negative, cs) := splitSign (trimBy isWhiteSpace s.toList)
  (readNatural? cs).map (withSign negative)

/-- Whether a whole number has too many digits to be written. -/
def isTooLong (n : Int) : Bool := Nat.pow 10 maxDigits ≤ n.natAbs

/-- Writes a whole number, if it does not have too many digits. -/
def writeInteger? (n : Int) : Option String := if isTooLong n then none else some (toString n)

/-- What is said where a whole number has too many digits to be written. -/
def tooLongText : String :=
  "Exceeds the limit (" ++ toString maxDigits ++ " digits) for integer string conversion; " ++
    "use sys.set_int_max_str_digits() to increase the limit"

/-! ## Double-precision numbers -/

/-- The text before the first character that `mark` holds of, and the text after that
character if there is one. -/
def splitAt (mark : Char → Bool) (cs : List Char) : List Char × Option (List Char) :=
  match cs.dropWhile (fun c => !mark c) with
  | [] => (cs, none)
  | _ :: after => (cs.takeWhile (fun c => !mark c), some after)

/-- The values of the digits of a numeral that may be missing. -/
def optionalDigits? (cs : List Char) : Option (List Nat) :=
  if cs.isEmpty then some [] else digitValues? cs

/-- Reads the digits with the point among them. -/
def readMantissa? (cs : List Char) : Option Decimal := do
  let (whole, fraction) := splitAt (· == '.') cs
  let ds ← optionalDigits? whole
  let fs ← optionalDigits? (fraction.getD [])
  if ds.isEmpty && fs.isEmpty then none else some ⟨ofDigits (ds ++ fs), -fs.length⟩

/-- Reads the power of ten, of which there may be none. -/
def readPower? : Option (List Char) → Option Int
  | none => some 0
  | some cs =>
    let (negative, digits) := splitSign cs
    (digitValues? digits).map (fun ds => withSign negative (ofDigits ds))

/-- Reads a decimal number without a sign. -/
def readDecimal? (cs : List Char) : Option Decimal := do
  let (mantissa, power) := splitAt (fun c => c == 'e' || c == 'E') cs
  let d ← readMantissa? mantissa
  let e ← readPower? power
  return { d with exponent := d.exponent + e }

/-- Above this exponent of the leading digit a decimal is infinite, and below its negative it
is zero; the finite numbers lie well between the two. -/
def farExponent : Int := 400

/-- The double-precision number nearest to the decimal. -/
def Decimal.toFloat (d : Decimal) : Float :=
  let lead := d.exponent + (Nat.toDigits 10 d.digits).length
  if d.digits = 0 ∨ lead < -farExponent then 0.0
  else if farExponent < lead then 1.0 / 0.0
  else Float.ofScientific d.digits (d.exponent < 0) d.exponent.natAbs

/-- Reads a double-precision number without a sign. -/
def readMagnitude? (cs : List Char) : Option Float :=
  match String.ofList (cs.map Char.toLower) with
  | "nan" => some (0.0 / 0.0)
  | "inf" | "infinity" => some (1.0 / 0.0)
  | _ => (readDecimal? cs).map Decimal.toFloat

/-- Reads a double-precision number. -/
def readFloat? (s : String) : Option Float :=
  let (negative, cs) := splitSign (trimBy isWhiteSpace s.toList)
  (readMagnitude? cs).map (fun x => if negative then -x else x)

end Variability.Number
