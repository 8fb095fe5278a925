import Packrat.Number.Basic

/-!
# Values

What a rule yields and what a sequence of items is made of. A tree is a `node`: a tag and children.

Two equalities are in use. Values compare by `Value.equals`, under which a NaN differs from itself
and the two zeros are equal; equality in the logic tells them apart by their bits and is decidable.
Both are `Value.agree` for a test on numbers.
-/

namespace Packrat

/-- A value: what rules yield and items are. -/
inductive Value
  | nil
  | bool (b : Bool)
  | number (n : Number)
  | string (s : String)
  | list (items : List Value)
  | node (tag : String) (children : List Value)
deriving Inhabited

namespace Value

/-- The name of a value's type. -/
def typeName : Value → String
  | nil => "Nil"
  | bool _ => "Bool"
  | number _ => "Number"
  | string _ => "String"
  | list _ => "List"
  | node _ _ => "Node"

def isNil : Value → Bool
  | nil => true
  | _ => false

/-- Everything but `nil` and `false` counts as true. -/
def isTruthy : Value → Bool
  | nil => false
  | bool b => b
  | _ => true

def string? : Value → Option String
  | string s => some s
  | _ => none

/-- The character of a string of one character. -/
def char? : Value → Option Char
  | string s =>
    match s.toList with
    | [c] => some c
    | _ => none
  | _ => none

def number? : Value → Option Number
  | number n => some n
  | _ => none

def list? : Value → Option (List Value)
  | list items => some items
  | _ => none

/-- What a match inside a node walks: the tag, then the children. -/
def elements? : Value → Option (List Value)
  | node tag children => some (string tag :: children)
  | _ => none

mutual

/-- Whether two values have the same shape and their numbers pass `same`. -/
def agree (same : Number → Number → Bool) : Value → Value → Bool
  | nil, nil => true
  | bool a, bool b => a == b
  | number a, number b => same a b
  | string a, string b => a == b
  | list as, list bs => agreeAll same as bs
  | node t as, node u bs => t == u && agreeAll same as bs
  | _, _ => false

/-- `agree` on the items of two lists. -/
def agreeAll (same : Number → Number → Bool) : List Value → List Value → Bool
  | [], [] => true
  | a :: as, b :: bs => agree same a b && agreeAll same as bs
  | _, _ => false

end

/-- **Comparison** as programs see it: numbers compare by `Number.equals`. -/
def equals (a b : Value) : Bool := agree Number.equals a b

mutual

/-- Under an exact test on numbers, agreement is equality. -/
theorem agree_iff {same : Number → Number → Bool} (h : ∀ m n, same m n = true ↔ m = n) :
    ∀ a b : Value, agree same a b = true ↔ a = b
  | nil, b => by cases b <;> simp [agree]
  | bool _, b => by cases b <;> simp [agree]
  | number _, b => by cases b <;> simp [agree, h]
  | string _, b => by cases b <;> simp [agree]
  | list as, b => by cases b <;> simp [agree, agreeAll_iff h as]
  | node _ as, b => by cases b <;> simp [agree, agreeAll_iff h as]

theorem agreeAll_iff {same : Number → Number → Bool} (h : ∀ m n, same m n = true ↔ m = n) :
    ∀ as bs : List Value, agreeAll same as bs = true ↔ as = bs
  | [], bs => by cases bs <;> simp [agreeAll]
  | a :: as, bs => by cases bs <;> simp [agreeAll, agree_iff h a, agreeAll_iff h as]

end

instance : DecidableEq Value := fun a b =>
  decidable_of_iff (agree (fun m n => decide (m = n)) a b = true) (agree_iff (by simp) a b)

end Value

end Packrat
