/-!
The parts of a double-precision number: a finite one is a sign and `m · 2 ^ q`
with natural `m`, exactly. Whole numbers have such parts, too, and all of them
are compared exactly.
-/

namespace Variability.Number

/-- A whole or double-precision number. -/
inductive Binary where
  | finite (negative : Bool) (m : Nat) (q : Int)
  | infinite (negative : Bool)
  | notANumber
deriving DecidableEq, Repr

namespace Binary

/-- The least significand of a normal number. -/
def leastNormal : Nat := Nat.pow 2 52

/-- The exponent of the subnormal numbers. -/
def leastExponent : Int := -1074

/-- The number with the given 64 bits: a sign, eleven bits of exponent and 52 of fraction. -/
def ofBits (bits : UInt64) : Binary :=
  let negative := bits >>> 63 == 1
  let exponent := ((bits >>> 52) &&& 0x7FF).toNat
  let fraction := (bits &&& 0xFFFFFFFFFFFFF).toNat
  if exponent = 0x7FF then
    if fraction = 0 then .infinite negative else .notANumber
  else if exponent = 0 then .finite negative fraction leastExponent
  else .finite negative (leastNormal + fraction) (leastExponent + (exponent - 1 : Nat))

/-- The parts of a number. -/
def ofFloat (x : Float) : Binary := ofBits x.toBits

/-- The whole part of `m · 2 ^ q`. -/
def wholePart (m : Nat) (q : Int) : Nat :=
  if 0 ≤ q then m * Nat.pow 2 q.toNat else m / Nat.pow 2 (-q).toNat

/-- The parts of a whole number. -/
def ofInt (n : Int) : Binary := .finite (n < 0) n.natAbs 0

/-- The whole number `m · 2 ^ k`, or its negative. -/
def scaled (negative : Bool) (m k : Nat) : Int :=
  let n : Int := (m * Nat.pow 2 k : Nat)
  if negative then -n else n

/-- Compares two finite numbers, over a power of two that divides both. -/
def compareFinite (s : Bool) (m : Nat) (q : Int) (s' : Bool) (m' : Nat) (q' : Int) : Ordering :=
  compare (scaled s m (q - min q q').toNat) (scaled s' m' (q' - min q q').toNat)

/-- Compares two numbers; what is not a number compares with nothing. -/
def compare? : Binary → Binary → Option Ordering
  | .notANumber, _ | _, .notANumber => none
  | .finite s m q, .finite s' m' q' => some (compareFinite s m q s' m' q')
  | .infinite s, .infinite s' => some (compare (!s) (!s'))
  | .infinite s, .finite _ _ _ => some (if s then .lt else .gt)
  | .finite _ _ _, .infinite s => some (if s then .gt else .lt)

end Binary

end Variability.Number
