import Packrat.Matcher.Rule

/-!
# The engine

Matching a rule of a grammar against an input.

* `Engine.matchRule`: from the start of the input as far as the rule goes.
* `Engine.matchAll`: the whole input.
-/

namespace Packrat

/-- How a match runs. -/
structure Options where
  /-- Whether results of rules are kept for the same rule at the same place. -/
  memoize : Bool := true
  /-- How deep rule applications may be nested. -/
  maxDepth : Nat := 2000
deriving DecidableEq

/-- The functions that actions may call, and options. -/
structure Engine where
  registry : Registry := .standard
  options : Options := {}

/-- The outcome of a match. -/
inductive Outcome
  | success (value : Value) (cursor : Cursor)
  | failure (f : Failure)
deriving DecidableEq

/-- The report of a run that failed in state `st`. -/
def State.report (frame : Frame) (st : State Furthest) : Failure :=
  match st.account with
  | some m => m.report
  | none =>
    { location := [st.pos], line := frame.input.lineCol? st.pos,
      found := frame.input.snippet st.pos }

namespace Engine

/-- How the engine applies rules, whatever account it gives. -/
def applier {φ : Type} [Account φ] (e : Engine) : Applier φ :=
  applyDepth (memoized e.options.memoize) e.registry e.options.maxDepth e.options.maxDepth

/-- Applies a rule at the start of an input. -/
def start {φ : Type} [Account φ] (e : Engine) (g : Grammar) (rule : String) (input : Input)
    (args : List Value) : Except Halt (Answer φ) :=
  applyName e.applier { input } g rule args (.start Account.empty)

/-- **A run**: applies a rule at the start of an input, of which nothing may be left if `toEnd`. -/
def run (e : Engine) (g : Grammar) (rule : String) (input : Input) (args : List Value)
    (toEnd : Bool) : Except Halt Outcome := do
  let frame : Frame := { input }
  let (value, st) ← (e.start g rule input args : Except Halt (Answer Furthest))
  match value with
  | some v =>
    if toEnd && st.pos < input.size then
      return .failure ((st.expect frame st.pos "end of input").report frame)
    else return .success v { input, pos := st.pos }
  | none => return .failure (st.report frame)

/-- What the outside sees of a run that ended early. No run exhausts a loop, so that case only makes
the answer total. -/
def causeOfHalt (e : Engine) : Halt → Cause
  | .fatal cause => cause
  | .exhausted => .recursionLimit e.options.maxDepth

/-- Matches a rule from the start of an input as far as it goes. -/
def matchRule (e : Engine) (g : Grammar) (rule : String) (input : Input) (args : List Value) :
    Except Cause Outcome :=
  (e.run g rule input args false).mapError e.causeOfHalt

/-- Matches a rule against the whole of an input. -/
def matchAll (e : Engine) (g : Grammar) (rule : String) (input : Input) : Except Cause Value := do
  match ← (e.run g rule input [] true).mapError e.causeOfHalt with
  | .success v _ => return v
  | .failure f => .error (.parse f)

end Engine

end Packrat
