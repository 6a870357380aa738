import Variability.Number.Binary

/-!
The text of a double-precision number: the shortest decimal that reads back,
written positionally unless it is very large or very small.

Of the decimals that lie closer to the number than to its neighbours, those with
the fewest digits are shortest, and of these the nearest is taken. The numbers
that round to `m · 2 ^ q` form an interval that holds its ends iff `m` is even.
For one digit, two digits and so on, the two neighbours of the number on the grid
of decimals with that many digits are tried; no other point of a grid can lie in
the interval unless one of these two does.
-/

namespace Variability.Number

/-! ## The shortest decimal -/

/-- The decimal number `digits · 10 ^ exponent`. -/
structure Decimal where
  digits : Nat
  exponent : Int
deriving DecidableEq, Repr

/-- Compares `a · 10 ^ e` with `b · 2 ^ q`, exactly. -/
def compareScaled (a : Nat) (e : Int) (b : Nat) (q : Int) : Ordering :=
  compare (a * Nat.pow 10 e.toNat * Nat.pow 2 (-q).toNat)
    (b * Nat.pow 2 q.toNat * Nat.pow 10 (-e).toNat)

/-- The ends of an interval as multiples of `2 ^ exponent`, and whether they belong to it. -/
structure Interval where
  low : Nat
  high : Nat
  exponent : Int
  closed : Bool

/-- The interval of the numbers that round to `m · 2 ^ q`, in quarters of `2 ^ q`. Below a power
of two the numbers lie twice as close. -/
def roundingInterval (m : Nat) (q : Int) : Interval where
  low := if m = Binary.leastNormal ∧ Binary.leastExponent < q then 4 * m - 1 else 4 * m - 2
  high := 4 * m + 2
  exponent := q - 2
  closed := m % 2 = 0

/-- Whether the decimal lies in the interval. -/
def Interval.holds (i : Interval) (d : Decimal) : Bool :=
  let low := compareScaled d.digits d.exponent i.low i.exponent
  let high := compareScaled d.digits d.exponent i.high i.exponent
  (low == .gt || (i.closed && low == .eq)) && (high == .lt || (i.closed && high == .eq))

/-- The exponent of the leading decimal digit of `m · 2 ^ q`. -/
def leadingExponent (m : Nat) (q : Int) : Int :=
  let num := m * Nat.pow 2 q.toNat
  let den := Nat.pow 2 (-q).toNat
  if den ≤ num then ((Nat.toDigits 10 (num / den)).length : Int) - 1
  else -((Nat.toDigits 10 ((den + num - 1) / num - 1)).length : Int)

/-- The greatest multiple of `10 ^ e` that is at most `m · 2 ^ q`, divided by `10 ^ e`. -/
def floorOnGrid (m : Nat) (q e : Int) : Nat :=
  (m * Nat.pow 2 q.toNat * Nat.pow 10 (-e).toNat) /
    (Nat.pow 2 (-q).toNat * Nat.pow 10 e.toNat)

/-- The nearer of `d · 10 ^ e` and `(d + 1) · 10 ^ e` to `m · 2 ^ q`; of two equally near ones
the even one. -/
def nearer (m : Nat) (q : Int) (d : Nat) (e : Int) : Nat :=
  match compareScaled (2 * d + 1) e (2 * m) q with
  | .gt => d
  | .lt => d + 1
  | .eq => if d % 2 = 0 then d else d + 1

/-- The best decimal on the grid of the multiples of `10 ^ e`, if one rounds to `m · 2 ^ q`. -/
def bestOnGrid? (m : Nat) (q e : Int) : Option Decimal :=
  let interval := roundingInterval m q
  let d := floorOnGrid m q e
  match interval.holds ⟨d, e⟩, interval.holds ⟨d + 1, e⟩ with
  | true, true => some ⟨nearer m q d e, e⟩
  | true, false => some ⟨d, e⟩
  | false, true => some ⟨d + 1, e⟩
  | false, false => none

/-- The number of digits that always suffices. -/
def sufficientDigits : Nat := 17

/-- The shortest decimal that rounds to `m · 2 ^ q`, for a positive `m`. -/
def shortest (m : Nat) (q : Int) : Decimal :=
  let lead := leadingExponent m q
  let last := lead + 1 - sufficientDigits
  ((List.range sufficientDigits).findSome? (fun n : Nat => bestOnGrid? m q (lead - n))).getD
    ⟨floorOnGrid m q last, last⟩

/-! ## Texts -/

/-- Where a decimal is written positionally, and how its exponent is written otherwise. -/
structure Layout where
  /-- The least exponent of the leading digit that is written positionally. -/
  positionalFrom : Int
  /-- The least exponent of the leading digit above it that is not. -/
  positionalBelow : Int
  /-- The least number of digits of a written exponent. -/
  exponentDigits : Nat

/-- The digits without the zeros at the end. -/
def significantDigits (n : Nat) : List Char :=
  ((Nat.toDigits 10 n).reverse.dropWhile (· == '0')).reverse

/-- The digits `ds` with the point after the first `point` places, and a digit on both sides. -/
def positional (ds : List Char) (point : Int) : List Char :=
  let whole :=
    if point ≤ 0 then ['0']
    else ds.take point.toNat ++ List.replicate (point.toNat - ds.length) '0'
  let fraction := List.replicate (-point).toNat '0' ++ ds.drop point.toNat
  whole ++ '.' :: (if fraction.isEmpty then ['0'] else fraction)

/-- The digits `ds` with the point after the first one, and the exponent of that one. -/
def scientific (layout : Layout) (ds : List Char) (exponent : Int) : List Char :=
  let mantissa := match ds with
    | [] => []
    | [d] => [d]
    | d :: rest => d :: '.' :: rest
  let power := Nat.toDigits 10 exponent.natAbs
  mantissa ++ 'e' :: (if exponent < 0 then '-' else '+') ::
    (List.replicate (layout.exponentDigits - power.length) '0' ++ power)

/-- The text of a positive decimal. -/
def Layout.decimal (layout : Layout) (d : Decimal) : List Char :=
  let ds := significantDigits d.digits
  let lead := d.exponent + (Nat.toDigits 10 d.digits).length - 1
  if layout.positionalFrom ≤ lead ∧ lead < layout.positionalBelow then positional ds (lead + 1)
  else scientific layout ds lead

/-- The text of a number; zero keeps its sign. -/
def Layout.text (layout : Layout) : Binary → String
  | .notANumber => "nan"
  | .infinite negative => if negative then "-inf" else "inf"
  | .finite negative m q =>
    let digits := if m = 0 then "0.0" else String.ofList (layout.decimal (shortest m q))
    if negative then "-" ++ digits else digits

end Variability.Number
