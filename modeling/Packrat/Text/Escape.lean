/-!
# Escapes

Two ways to write a text inside quotes.

* `describe`: for messages. Everything outside printable ASCII is written by its code point.
* `escape`: for string literals of the notation. Only what could not stand there is escaped, and
  `unescape` gives the character that stands after a backslash its meaning.
-/

namespace Packrat.Text

/-- A character as messages show it. -/
def describeChar (c : Char) : List Char :=
  if c = '\t' then ['\\', 't']
  else if c = '\r' then ['\\', 'r']
  else if c = '\n' then ['\\', 'n']
  else if c = '\'' then ['\\', '\'']
  else if c = '"' then ['\\', '"']
  else if c = '\\' then ['\\', '\\']
  else if 0x20 ≤ c.toNat ∧ c.toNat < 0x7f then [c]
  else "\\u\x7b".toList ++ Nat.toDigits 16 c.toNat ++ ['\x7d']

/-- A text as messages show it. -/
def describe (s : String) : String := String.ofList (s.toList.flatMap describeChar)

/-- A text in quotes, as messages show it. -/
def quoted (s : String) : String := "'" ++ describe s ++ "'"

/-- A character inside a double-quoted literal. -/
def escapeChar (c : Char) : List Char :=
  if c = '\n' then ['\\', 'n']
  else if c = '\r' then ['\\', 'r']
  else if c = '\t' then ['\\', 't']
  else if c = '\x0c' then ['\\', 'f']
  else if c = '"' then ['\\', '"']
  else if c = '\\' then ['\\', '\\']
  else [c]

/-- A text inside a double-quoted literal. -/
def escape (s : String) : String := String.ofList (s.toList.flatMap escapeChar)

/-- What a text after a backslash stands for; an unknown one stands for itself. -/
def unescape (s : String) : String :=
  if s = "n" then "\n"
  else if s = "r" then "\r"
  else if s = "t" then "\t"
  else if s = "f" then "\x0c"
  else if s = "0" then "\x00"
  else s

end Packrat.Text
