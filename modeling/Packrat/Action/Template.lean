import Packrat.Value.Printer

/-!
# Templates

Text generated from values: `fill` puts values into the places of a template, `indent` moves the
lines of a text to the right.
-/

namespace Packrat.Template

/-- **Filling.** Each pair of braces takes the shown form of the next value, and a doubled brace
stands for one. `none` if the values run out. -/
def fill : List Char → List Value → Option (List Char)
  | [], _ => some []
  | '\x7b' :: '\x7b' :: rest, values => (fill rest values).map ('\x7b' :: ·)
  | '\x7d' :: '\x7d' :: rest, values => (fill rest values).map ('\x7d' :: ·)
  | '\x7b' :: '\x7d' :: _, [] => none
  | '\x7b' :: '\x7d' :: rest, v :: values => (fill rest values).map (v.display.toList ++ ·)
  | c :: rest, values => (fill rest values).map (c :: ·)

/-- Puts `pad` in front of every line that is not empty; `fresh` says whether a line starts here. -/
def indent (pad : List Char) : (fresh : Bool) → List Char → List Char
  | _, [] => []
  | _, '\n' :: rest => '\n' :: indent pad true rest
  | true, c :: rest => pad ++ c :: indent pad false rest
  | false, c :: rest => c :: indent pad false rest

end Packrat.Template
