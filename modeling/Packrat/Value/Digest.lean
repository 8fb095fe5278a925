import Packrat.Value.Basic

/-!
# Digests

A digest is one word that stands for a name with a list of values. What is equal has one digest, and
what differs mostly has two, so a table can look things up by digest and compare only the few that
share it.
-/

namespace Packrat.Value

/-- Takes one more word into a digest. -/
def mix (digest word : UInt64) : UInt64 := (digest ^^^ word) * 0x100000001b3

/-- Takes a text into a digest. -/
def digestText (digest : UInt64) (s : String) : UInt64 :=
  s.toList.foldl (fun digest c => mix digest c.toNat.toUInt64) digest

mutual

/-- Takes a value into a digest. -/
def digestOn (digest : UInt64) : Value → UInt64
  | nil => mix digest 1
  | bool b => mix digest (if b then 2 else 3)
  | number n => mix (mix digest 4) (n.bits ^^^ (n.bits >>> 32))
  | string s => digestText (mix digest 5) s
  | list items => mix (digestAllOn (mix digest 6) items) 7
  | node tag children => mix (digestAllOn (digestText (mix digest 8) tag) children) 9

/-- Takes the values of a list into a digest. -/
def digestAllOn (digest : UInt64) : List Value → UInt64
  | [] => digest
  | v :: vs => digestAllOn (digestOn digest v) vs

end

/-- **The digest** of a name with a list of values. -/
def digest (name : String) (values : List Value) : UInt64 := digestAllOn (digestText 0 name) values

end Packrat.Value
