/-!
# Spans

Where a character of a text lies in the bytes of its UTF-8 form, and on which line and column.
-/

namespace Packrat.Text

/-- A range of bytes. -/
structure Span where
  offset : Nat
  length : Nat
deriving DecidableEq

/-- How many bytes a list of characters takes. -/
def byteSize (cs : List Char) : Nat := cs.foldl (fun size c => size + c.utf8Size) 0

/-- The bytes of the character at `pos`; nothing at the end for a position beyond the text. -/
def charSpan (text : String) (pos : Nat) : Span :=
  let cs := text.toList
  { offset := byteSize (cs.take pos), length := byteSize ((cs.drop pos).take 1) }

/-- The line and column reached after reading characters from `start`. -/
def lineColFrom (start : Nat × Nat) (cs : List Char) : Nat × Nat :=
  cs.foldl (fun p c => if c = '\n' then (p.1 + 1, 1) else (p.1, p.2 + 1)) start

/-- Line and column of a position, both counted from 1. -/
def lineCol (cs : List Char) (pos : Nat) : Nat × Nat := lineColFrom (1, 1) (cs.take pos)

end Packrat.Text
