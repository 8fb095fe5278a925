import Packrat.Failure
import Packrat.Matcher.Frame

/-!
# Accounts of failure

While a match runs it gives account of what it expected and did not find. What such an account keeps
is up to its type; a match only puts accounts together and never looks into one. A report keeps the
furthest miss: the furthest place that could not be matched, with what was expected there. Places
are compared as paths, so a place inside an element is further than the element itself and nearer
than the next one.

* `Account`: what a match needs of an account.
* `Miss.merge`: the further of two misses, or both at one place.
* `Furthest`: the account that keeps the furthest miss.
-/

namespace Packrat

/-- What a match needs of an account of its failures. -/
class Account (φ : Type) where
  /-- Nothing was missed. -/
  empty : φ
  /-- `label` was expected at a position. -/
  miss : Frame → (pos : Nat) → (label : String) → φ
  /-- One account after another. -/
  append : φ → φ → φ
  /-- The account of a rule that started at `start`, from what was missed inside it. -/
  ofRule : Frame → (rule : String) → (start : Nat) → (failed : Bool) → φ → φ
  /-- The account of a negated lookahead, from what was missed inside it. -/
  ofNegation : φ → φ

/-- A place that could not be matched. -/
structure Miss where
  frame : Frame
  pos : Nat
  /-- The rules that were attempted there. -/
  rules : Labels
  /-- What was expected there outside of those rules. -/
  expected : Labels
deriving DecidableEq

namespace Miss

def location (m : Miss) : List Nat := m.frame.location m.pos

/-- The miss of one expectation. -/
def single (frame : Frame) (pos : Nat) (label : String) : Miss :=
  { frame, pos, rules := .empty, expected := .singleton label }

/-- **The further of two misses**; at one place, what either expected. -/
def merge (a b : Miss) : Miss :=
  match compare b.location a.location with
  | .lt => a
  | .gt => b
  | .eq => { a with rules := a.rules.union b.rules, expected := a.expected.union b.expected }

/-- Everything expected at the place put down to one rule. -/
def attributeTo (m : Miss) (rule : String) : Miss :=
  { m with rules := .singleton rule, expected := .empty }

/-- The report of a miss: where it is, what was expected, and what stands there. -/
def report (m : Miss) : Failure :=
  { location := m.location, line := m.frame.input.lineCol? m.pos, rules := m.rules,
    expected := m.expected, found := m.frame.input.snippet m.pos, tags := m.frame.tags }

end Miss

/-- The furthest miss, if anything was missed. -/
abbrev Furthest := Option Miss

namespace Furthest

/-- The further of two accounts. -/
def append : Furthest → Furthest → Furthest
  | furthest, none => furthest
  | none, some m => some m
  | some a, some m => some (a.merge m)

/-- What a rule reports. White space reports nothing; a rule that failed is itself what was expected
where it started, white space skipped. -/
def ofRule (frame : Frame) (rule : String) (start : Nat) (failed : Bool) (inside : Furthest) :
    Furthest :=
  if rule = "spaces" then none
  else if failed then
    let here := frame.location (frame.input.tokenStart start)
    inside.map fun m => if m.location = here then m.attributeTo rule else m
  else inside

instance : Account Furthest where
  empty := none
  miss frame pos label := some (.single frame pos label)
  append := append
  ofRule := ofRule
  ofNegation _ := none

end Furthest

end Packrat
