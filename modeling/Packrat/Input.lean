import Packrat.Value.Printer
import Packrat.Text.Blank
import Packrat.Text.Span

/-!
# Inputs

What a match runs over: the characters of a text, or a sequence of values. A character of a text is
seen as a string of one character, so both kinds have elements.
-/

namespace Packrat

/-- What a match runs over. -/
inductive Input
  | text (chars : Array Char)
  | items (values : Array Value)
deriving DecidableEq

namespace Input

def ofString (s : String) : Input := text s.toList.toArray

def ofList (values : List Value) : Input := items values.toArray

def size : Input → Nat
  | text chars => chars.size
  | items values => values.size

def isText : Input → Bool
  | text _ => true
  | items _ => false

/-- The element at a position. -/
def element? (input : Input) (pos : Nat) : Option Value :=
  match input with
  | text chars => chars[pos]?.map fun c => .string c.toString
  | items values => values[pos]?

/-- The character at a position: of a text, or an item that is a string of one character. -/
def char? (input : Input) (pos : Nat) : Option Char :=
  match input with
  | text chars => chars[pos]?
  | items values => values[pos]?.bind Value.char?

/-- Where a run of characters that starts at `pos` ends, if the text has it there. -/
def runEnd? (chars : Array Char) : Nat → List Char → Option Nat
  | pos, [] => some pos
  | pos, c :: cs => if chars[pos]? = some c then runEnd? chars (pos + 1) cs else none

/-- Where a literal that starts at `pos` ends; items have no runs of characters. -/
def literalEnd? (input : Input) (pos : Nat) (literal : String) : Option Nat :=
  match input with
  | text chars => runEnd? chars pos literal.toList
  | items _ => none

/-- What lies between two positions: a string of a text, a list of items. -/
def slice (input : Input) (start stop : Nat) : Value :=
  match input with
  | text chars => .string (String.ofList (chars.extract start stop).toList)
  | items values => .list (values.extract start stop).toList

/-- Line and column of a position in a text. -/
def lineCol? (input : Input) (pos : Nat) : Option (Nat × Nat) :=
  match input with
  | text chars => some (Text.lineCol chars.toList pos)
  | items _ => none

/-- How many characters stand between `pos` and the newline before it. -/
def columnBefore (chars : Array Char) : Nat → Nat
  | 0 => 0
  | pos + 1 => if chars[pos]? = some '\n' then 0 else columnBefore chars pos + 1

/-- The column of a position in a text, counted from 0. -/
def column? (input : Input) (pos : Nat) : Option Nat :=
  match input with
  | text chars => some (columnBefore chars pos)
  | items _ => none

/-- A short excerpt of what stands at a position: of a text at most thirteen characters of the
line, of items the shown form of one. -/
def snippet (input : Input) (pos : Nat) : String :=
  match input with
  | text chars =>
    String.ofList ((chars.extract pos (pos + 13)).toList.takeWhile fun c => c ≠ '\n')
  | items values => (values[pos]?.map Value.display).getD ""

/-- The first of the next `fuel` positions from `pos` on whose character is not white space. -/
def skipBlanksUpTo (input : Input) : Nat → Nat → Nat
  | 0, pos => pos
  | fuel + 1, pos =>
    if (input.char? pos).any Text.isBlank then input.skipBlanksUpTo fuel (pos + 1) else pos

/-- The first position from `pos` on whose character is not white space. -/
def skipBlanks (input : Input) (pos : Nat) : Nat := input.skipBlanksUpTo (input.size - pos) pos

/-- Where the first token from `pos` on starts: a text may have white space in front of it. -/
def tokenStart (input : Input) (pos : Nat) : Nat :=
  if input.isText then input.skipBlanks pos else pos

/-- **Comparison** as programs see it: items compare by `Value.equals`. -/
def equals : Input → Input → Bool
  | text a, text b => decide (a = b)
  | items a, items b => Value.agreeAll Number.equals a.toList b.toList
  | _, _ => false

end Input

/-- A position in an input. -/
structure Cursor where
  input : Input
  pos : Nat
deriving DecidableEq

namespace Cursor

def atEnd (c : Cursor) : Bool := decide (c.input.size ≤ c.pos)

/-- How many elements stand after the cursor. -/
def remaining (c : Cursor) : Nat := c.input.size - c.pos

/-- Whether two cursors stand at the same position of inputs that compare equal. -/
def equals (a b : Cursor) : Bool := a.pos == b.pos && a.input.equals b.input

end Cursor

end Packrat
