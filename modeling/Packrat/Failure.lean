import Packrat.Labels

/-!
# Failure reports

What a failed match reports: the furthest place that could not be matched, and what was expected
there. A place is a path of positions: through each element that a nested match entered, down to
the position in the innermost one.
-/

namespace Packrat

/-- The report of a failed match. -/
structure Failure where
  /-- Positions through the entered elements; the last is in the innermost one. -/
  location : List Nat := []
  /-- Line and column, if the innermost element is text. -/
  line : Option (Nat × Nat) := none
  /-- The outermost rules that were attempted at the location. -/
  rules : Labels := .empty
  /-- What was expected there outside of those rules. -/
  expected : Labels := .empty
  /-- What was found instead. -/
  found : String := ""
  /-- The tags of the nodes around the location, outermost first. -/
  tags : List String := []
deriving DecidableEq, Inhabited

namespace Failure

/-- The position in the innermost element. -/
def position (f : Failure) : Nat := f.location.getLast?.getD 0

/-- What was expected, as one phrase: descriptions first, then rules. -/
def summary (f : Failure) : String :=
  match f.expected.toList ++ f.rules.toList with
  | [] => "valid input"
  | labels => " or ".intercalate labels

/-- The failure in words. -/
def message (f : Failure) : String :=
  let place :=
    match f.line with
    | some (line, col) => " (at line: " ++ toString line ++ ", char: " ++ toString col ++ ")"
    | none => " (at pos: " ++ toString f.position ++ ")"
  "expected " ++ f.summary ++ " before '" ++ f.found ++ "'" ++ place

end Failure

end Packrat
