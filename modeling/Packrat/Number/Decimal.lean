import Packrat.Number.Basic

/-!
# Numbers and decimals

The two directions between a binary64 number and a decimal `digits * 10 ^ exponent`.

* `Decimal.toNumber`: the number nearest to a decimal.
* `Number.shortest`: the decimal with the fewest digits that reads back as the number; of two such,
  the nearer one. Which of two equally near ones it is depends on the format, so it is a parameter.

Both are exact: the value and the ends of the interval of reals that round to it are integers in a
common unit, so no step rounds.
-/

namespace Packrat

/-- The decimal `digits * 10 ^ exponent`. -/
structure Decimal where
  digits : Nat
  exponent : Int
deriving DecidableEq

namespace Decimal

/-- The first of the numbers from `guess` on, at most `fuel` of them, that is enough digits for `n`. -/
def widthFrom (n : Nat) : (fuel guess : Nat) → Nat
  | 0, guess => guess
  | fuel + 1, guess => if n < Nat.pow 10 guess then guess else widthFrom n fuel (guess + 1)

/-- How many decimal digits a number is written with; `0` is written with one. A binary digit is
worth a little more than `1233 / 4096` decimal ones, so the first guess is rarely too low. -/
def width (n : Nat) : Nat := widthFrom n n.log2 (n.log2 * 1233 / 4096 + 1)

/-- The number nearest to a decimal. Beyond the four-hundredth place the answer is infinity or zero
whatever the digits are, so huge exponents are never raised. -/
def toNumber (negative : Bool) (d : Decimal) : Number :=
  let top := (width d.digits : Int) + d.exponent
  if d.digits = 0 ∨ top < -400 then Number.ofParts negative 0
  else if 400 < top then Number.infinity negative
  else Number.ofRatio negative (d.digits * Nat.pow 10 d.exponent.toNat)
    (Nat.pow 10 (-d.exponent).toNat)

/-- The same decimal without zeros at the end of its digits; at most `fuel` are dropped. -/
def trim : Nat → Decimal → Decimal
  | 0, d => d
  | fuel + 1, d =>
    if d.digits % 10 = 0 then trim fuel ⟨d.digits / 10, d.exponent + 1⟩ else d

end Decimal

namespace Number

/-- A finite number and the ends of the interval of reals that round to it, as integers in units of
`10 ^ (-places)`. -/
structure Window where
  value : Nat
  low : Nat
  high : Nat
  places : Nat
  /-- Whether the ends themselves round to the value. -/
  closed : Bool

/-- The interval of a number. The lower half is narrower at a power of two. -/
def window (n : Number) : Window :=
  let m := 4 * n.significand
  let e := n.exponent - 2
  let places := (-e).toNat
  let unit := Nat.pow 2 e.toNat * Nat.pow 5 places
  let below := if n.significand = leadingBit then 1 else 2
  { value := m * unit, low := (m - below) * unit, high := (m + 2) * unit,
    places, closed := n.significand % 2 == 0 }

/-- Whether a point reads back as the value of the window. -/
def Window.covers (w : Window) (x : Nat) : Bool :=
  if w.closed then decide (w.low ≤ x) && decide (x ≤ w.high)
  else decide (w.low < x) && decide (x < w.high)

/-- Which of two equally near decimals is taken. -/
inductive Tie
  /-- The larger one. -/
  | up
  /-- The one whose last digit is even. -/
  | even
deriving DecidableEq

/-- Whether a value goes to the upper neighbour: `down` is the lower one and `rest` what is left of
the value above it, in a grid of the given spacing. -/
def Tie.goesUp (tie : Tie) (down rest grid : Nat) : Bool :=
  if 2 * rest = grid then
    match tie with
    | .up => true
    | .even => down % 2 == 1
  else decide (grid < 2 * rest)

/-- The first grid of spacing `10 ^ spare`, `10 ^ (spare - 1)`, … on which a neighbour of the value
reads back, with that neighbour. -/
def Window.search (tie : Tie) (w : Window) : Nat → Decimal
  | 0 => ⟨w.value, -w.places⟩
  | spare + 1 =>
    let grid := Nat.pow 10 (spare + 1)
    let down := w.value / grid
    let lower := w.covers (down * grid)
    let upper := w.covers ((down + 1) * grid)
    if upper && (!lower || tie.goesUp down (w.value % grid) grid) then
      ⟨down + 1, spare + 1 - w.places⟩
    else if lower then ⟨down, spare + 1 - w.places⟩
    else w.search tie spare

/-- **Shortest digits.** The decimal with the fewest digits that reads back as a finite number,
without its sign. -/
def shortest (tie : Tie) (n : Number) : Decimal :=
  let w := n.window
  let size := Decimal.width w.value
  (w.search tie (size - 1)).trim size

end Number

end Packrat
