import Packrat.Value.Basic

/-!
# Signatures

A NaN has a sign and further bits that do not show when it is written out. The signature of a value
is the value with every NaN in it put down as one and the same, so values have one signature exactly
if nothing but the bits of NaNs keeps them apart.
-/

namespace Packrat

/-- The number, or one NaN for all. -/
def Number.signature (n : Number) : Number := if n.isNaN then nan else n

namespace Value

mutual

/-- **The signature** of a value: all NaNs are one. -/
def signature : Value → Value
  | nil => nil
  | bool b => bool b
  | number n => number n.signature
  | string s => string s
  | list items => list (signatures items)
  | node tag children => node tag (signatures children)

/-- The signatures of the values of a list. -/
def signatures : List Value → List Value
  | [] => []
  | v :: vs => signature v :: signatures vs

end

end Value

end Packrat
