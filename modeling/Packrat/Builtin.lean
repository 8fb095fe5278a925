/-!
# Built-in rules

The rules that every grammar can apply without defining them. A rule of the grammar with the same
name comes first, which is how a grammar has its own `spaces`.
-/

namespace Packrat

/-- How many arguments a rule takes. -/
inductive Arity
  | exactly (n : Nat)
  | atLeast (n : Nat)
deriving DecidableEq

namespace Arity

def accepts : Arity → Nat → Bool
  | exactly n, count => count == n
  | atLeast n, count => decide (n ≤ count)

def text : Arity → String
  | exactly n => toString n
  | atLeast n => "at least " ++ toString n

end Arity

/-- The built-in rules. -/
inductive Builtin
  | anything
  | «end»
  | empty
  | space
  | spaces
  | digit
  | letter
  | char
  | string
  | number
  | pos
  | col
  | seq
  | token
  | exactly
  | apply
deriving DecidableEq

namespace Builtin

/-- All built-in rules. -/
def all : List Builtin :=
  [anything, «end», empty, space, spaces, digit, letter, char, string, number, pos, col, seq, token,
    exactly, apply]

def name : Builtin → String
  | anything => "anything"
  | «end» => "end"
  | empty => "empty"
  | space => "space"
  | spaces => "spaces"
  | digit => "digit"
  | letter => "letter"
  | char => "char"
  | string => "string"
  | number => "number"
  | pos => "pos"
  | col => "col"
  | seq => "seq"
  | token => "token"
  | exactly => "exactly"
  | apply => "apply"

def arity : Builtin → Arity
  | seq | token | exactly => .exactly 1
  | apply => .atLeast 1
  | _ => .exactly 0

/-- The built-in rule of a name. -/
def ofName? (name : String) : Option Builtin := all.find? fun b => b.name = name

end Builtin

end Packrat
