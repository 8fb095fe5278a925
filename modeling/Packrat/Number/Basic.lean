/-!
# Binary64 numbers

A `Number` is a binary64 floating-point number held as its bit pattern, so two numbers are equal in
the logic exactly when they are the same bits. The comparison that programs see is `Number.equals`:
a NaN differs from everything and the two zeros are equal.

* `Number.significand`, `Number.exponent`: a finite number is `significand * 2 ^ exponent`.
* `Number.toInt?`: the integer a number stands for, if it stands for one.
* `Number.ofRatio`: the number nearest to a fraction, a half going to the even neighbour.
-/

namespace Packrat

/-- A binary64 floating-point number. -/
structure Number where
  /-- Sign, eleven bits of exponent, fifty-two bits of fraction. -/
  bits : UInt64
deriving DecidableEq

namespace Number

/-- `2 ^ 52`: the unit of the exponent bits, and the leading bit that a significand implies. -/
def leadingBit : Nat := 0x10000000000000

/-- `2 ^ 63`: the sign bit. -/
def signBit : UInt64 := 0x8000000000000000

/-- The bits of positive infinity: all exponent bits set and no fraction. -/
def infinityBits : Nat := 2047 * leadingBit

/-- The number with the given sign and the given exponent and fraction bits. -/
def ofParts (negative : Bool) (magnitude : Nat) : Number :=
  ⟨(if negative then signBit else 0) + magnitude.toUInt64⟩

/-- The NaN of the given sign that the library produces. -/
def nanOfSign (negative : Bool) : Number := ofParts negative 0x7ff8000000000000

/-- The NaN that stands for all of them. -/
def nan : Number := nanOfSign false

/-- Infinity of the given sign. -/
def infinity (negative : Bool) : Number := ofParts negative infinityBits

/-- Whether the sign bit is set. -/
def negative (n : Number) : Bool := decide (signBit ≤ n.bits)

/-- Exponent and fraction bits, without the sign. -/
def magnitude (n : Number) : Nat := (n.bits % signBit).toNat

def isNaN (n : Number) : Bool := decide (infinityBits < n.magnitude)

def isFinite (n : Number) : Bool := decide (n.magnitude < infinityBits)

/-- The integer `m` of a finite number `m * 2 ^ e`; below `2 ^ 52` exactly for subnormal numbers. -/
def significand (n : Number) : Nat :=
  if n.magnitude < leadingBit then n.magnitude else n.magnitude % leadingBit + leadingBit

/-- The integer `e` of a finite number `m * 2 ^ e`. -/
def exponent (n : Number) : Int :=
  if n.magnitude < leadingBit then -1074 else (n.magnitude / leadingBit : Nat) - 1075

/-- **Comparison.** A NaN equals nothing, not even itself; the two zeros are equal. -/
def equals (a b : Number) : Bool :=
  !a.isNaN && !b.isNaN && (decide (a = b) || (a.magnitude == 0 && b.magnitude == 0))

/-- The integer that a finite number without a fraction stands for; both zeros give `0`. -/
def toInt? (n : Number) : Option Int :=
  if n.isFinite then
    let whole := n.significand * Nat.pow 2 n.exponent.toNat
    let unit := Nat.pow 2 (-n.exponent).toNat
    if whole % unit = 0 then
      some (if n.negative then -((whole / unit : Nat) : Int) else (whole / unit : Nat))
    else none
  else none

/-- The quotient rounded to the nearest integer, a half going to the even neighbour. -/
def roundHalfEven (num den : Nat) : Nat :=
  let down := num / den
  let twice := 2 * (num % den)
  if twice < den then down
  else if den < twice then down + 1
  else down + down % 2

/-- The magnitude of the number nearest to `num / den`; what is too large becomes infinity. -/
def nearest (num den : Nat) : Nat :=
  if num = 0 then 0
  else
    let rough : Int := max ((num.log2 : Int) - den.log2 - 53) (-1074)
    let scaled (e : Int) : Nat × Nat := (num * Nat.pow 2 (-e).toNat, den * Nat.pow 2 e.toNat)
    -- `rough` leaves 53 or 54 bits before the point; one step up if it leaves 54
    let e := if (scaled rough).2 * (2 * leadingBit) ≤ (scaled rough).1 then rough + 1 else rough
    Nat.min ((e + 1074).toNat * leadingBit + roundHalfEven (scaled e).1 (scaled e).2) infinityBits

/-- The number nearest to the fraction `num / den` with the given sign. -/
def ofRatio (negative : Bool) (num den : Nat) : Number :=
  ofParts negative (nearest num den)

/-- The number nearest to a natural number. -/
def ofNat (n : Nat) : Number := ofRatio false n 1

end Number

end Packrat
