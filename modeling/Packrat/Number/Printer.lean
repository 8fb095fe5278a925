import Packrat.Number.Decimal

/-!
# Written numbers

How a number is shown, printed as JSON, and read.

* `Number.display`: whole numbers as integers kept within 64 signed bits, all others by their
  shortest digits without an exponent.
* `Number.json`: shortest digits with a point or an exponent; what is not finite is `null`.
* `Number.parse?`: the decimal notation with optional sign, point and exponent, and the names of
  infinity and NaN in any case.
-/

namespace Packrat

/-- A text of zeros. -/
def Decimal.zeros (n : Nat) : List Char := List.replicate n '0'

/-- The decimal without an exponent; a fraction is written only if there is one. -/
def Decimal.positional (d : Decimal) : List Char :=
  let ds := Nat.toDigits 10 d.digits
  let point := (ds.length : Int) + d.exponent
  if 0 ≤ d.exponent then ds ++ Decimal.zeros d.exponent.toNat
  else if 0 < point then ds.take point.toNat ++ '.' :: ds.drop point.toNat
  else '0' :: '.' :: Decimal.zeros (-point).toNat ++ ds

/-- The decimal with one digit before the point and a signed exponent. -/
def Decimal.scientific (d : Decimal) : List Char :=
  let ds := Nat.toDigits 10 d.digits
  let power := (ds.length : Int) + d.exponent - 1
  let fraction := if ds.length ≤ 1 then [] else '.' :: ds.drop 1
  let sign := if power < 0 then '-' else '+'
  ds.take 1 ++ fraction ++ 'e' :: sign :: Nat.toDigits 10 power.natAbs

namespace Number

/-- An integer kept within 64 signed bits. -/
def clampWord (i : Int) : Int :=
  if i < -9223372036854775808 then -9223372036854775808
  else if 9223372036854775807 < i then 9223372036854775807
  else i

/-- The sign of a number in front of its digits. -/
def signed (n : Number) (digits : List Char) : String :=
  String.ofList (if n.negative then '-' :: digits else digits)

/-- **Shown form.** A whole number is an integer kept within 64 signed bits, without a sign on
zero; all others have their shortest digits, of equally near ones the larger, and no exponent. -/
def display (n : Number) : String :=
  match n.toInt? with
  | some i => toString (clampWord i)
  | none =>
    if n.isNaN then "NaN"
    else if n.isFinite then n.signed (n.shortest .up).positional
    else if n.negative then "-inf" else "inf"

/-- **JSON form.** Between `10 ^ (-5)` and `10 ^ 16` without an exponent and with at least one
place after the point; outside with an exponent; `null` for what is not finite. Of equally near
digits the even ones are taken. -/
def json (n : Number) : String :=
  if n.isFinite then
    if n.magnitude = 0 then n.signed ['0', '.', '0']
    else
      let d := n.shortest .even
      let power := (Decimal.width d.digits : Int) + d.exponent - 1
      if -5 ≤ power ∧ power < 16 then
        n.signed (if 0 ≤ d.exponent then d.positional ++ ['.', '0'] else d.positional)
      else n.signed d.scientific
  else "null"

/-- The natural number a list of decimal digits stands for. -/
def digitsToNat (ds : List Char) : Nat :=
  ds.foldl (fun n c => 10 * n + (c.toNat - '0'.toNat)) 0

/-- The rest of a text after its sign, and whether the sign was a minus. -/
def splitSign : List Char → Bool × List Char
  | '-' :: rest => (true, rest)
  | '+' :: rest => (false, rest)
  | rest => (false, rest)

/-- The size of an exponent. Once it has reached `0x10000` its further digits are left out: a
text that makes up for such an exponent by its own length is read by what is left of it. -/
def exponentOf (ds : List Char) : Nat :=
  ds.foldl (fun n c => if n < 0x10000 then 10 * n + (c.toNat - '0'.toNat) else n) 0

/-- The exponent part of a decimal: nothing, or a mark with a signed integer. -/
def parseExponent? : List Char → Option Int
  | [] => some 0
  | c :: rest =>
    if c = 'e' ∨ c = 'E' then
      let (negative, ds) := splitSign rest
      if !ds.isEmpty && ds.all Char.isDigit then
        let n : Int := exponentOf ds
        some (if negative then -n else n)
      else none
    else none

/-- The decimal of digits and an exponent. No number and no middle between two numbers has more than
767 digits, so of the digits after the eight hundredth it only matters whether one of them is not
zero; a one in their place says so. -/
def ofDigits (ds : List Char) (exponent : Int) : Decimal :=
  let ds := ds.dropWhile (· = '0')
  let beyond := ds.drop 800
  if beyond.all (· = '0') then ⟨digitsToNat (ds.take 800), exponent + beyond.length⟩
  else ⟨10 * digitsToNat (ds.take 800) + 1, exponent + beyond.length - 1⟩

/-- An unsigned decimal: digits with an optional point, at least one digit, and an exponent. -/
def parseDecimal? (cs : List Char) : Option Decimal :=
  let whole := cs.takeWhile Char.isDigit
  let rest := cs.dropWhile Char.isDigit
  let (fraction, rest) :=
    match rest with
    | '.' :: more => (more.takeWhile Char.isDigit, more.dropWhile Char.isDigit)
    | _ => ([], rest)
  if whole.isEmpty && fraction.isEmpty then none
  else (parseExponent? rest).map fun e => ofDigits (whole ++ fraction) (e - fraction.length)

/-- **Reading.** The number nearest to a decimal, or infinity or NaN by name in any case. -/
def parse? (cs : List Char) : Option Number :=
  let (negative, body) := splitSign cs
  match parseDecimal? body with
  | some d => some (d.toNumber negative)
  | none =>
    let name := String.ofList (body.map Char.toLower)
    if name = "inf" ∨ name = "infinity" then some (infinity negative)
    else if name = "nan" then some (nanOfSign negative)
    else none

end Number

end Packrat
