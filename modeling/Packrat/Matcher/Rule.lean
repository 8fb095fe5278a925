import Packrat.Matcher.Eval

/-!
# Applying rules

How a rule is applied: its account is that of a rule; its result is looked up in the table of the
frame and kept there; and if it was met again at the same place while it ran, its result is a seed
that is grown as long as it consumes more.

* `settle`: the end of an application.
* `memoized`: an application through the table.
* `applyDepth`: rule application with at most the given depth of nesting.
-/

namespace Packrat

variable {φ : Type}

/-- The end of growth at `stop`: what was computed on the way is forgotten. -/
def State.grown (st : State φ) (stop mark : Nat) : State φ :=
  { st with pos := stop, memo := st.memo.forgetAfter mark }

variable [Account φ]

/-- Grows a seed: the body runs again from the start on top of the seed, which it finds in the
table, as long as it ends further on. At most `fuel` rounds. -/
def grow (body : Attempt φ) (spot : Spot) (mark : Nat) :
    (fuel : Nat) → (seed : Value) → (stop : Nat) → State φ → Except Halt (Value × State φ)
  | 0, _, _, _ => .error .exhausted
  | fuel + 1, seed, stop, st => do
    let seeded := st.memo.set spot (.done (some seed) stop Account.empty)
    let (value, st) ← body { st with pos := spot.1, memo := seeded.forgetAfter mark }
    match value with
    | some v =>
      if stop < st.pos then grow body spot mark fuel v st.pos st
      else return (seed, st.grown stop mark)
    | none => return (seed, st.grown stop mark)

/-- The end of an application that began at `start`, after what was missed before it: a failure goes
back to the start. Gives the account of the application itself, too. -/
def settle (frame : Frame) (rule : String) (start : Nat) (before : φ) (value : Option Value)
    (st : State φ) : φ × State φ :=
  let account := Account.ofRule frame rule start value.isNone st.account
  (account, { st with
    pos := if value.isSome then st.pos else start
    account := Account.append before account })

/-- **An application through the table**, where `body` runs the body of the rule. With `keep`, the
result stays in the table. -/
def memoized (keep : Bool) (frame : Frame) (call : Call) (body : Attempt φ)
    (st : State φ) : Except Halt (Answer φ) :=
  let start := st.pos
  let spot : Spot := (start, call)
  match st.memo.get? spot with
  | some (.active _) => .ok (none, { st with memo := st.memo.set spot (.active true) })
  | some (.done value stop account) =>
    .ok (value, (st.missed account).moveTo (if value.isSome then stop else start))
  | none => do
    let mark := st.memo.mark
    let before := st.account
    let memo := st.memo.begin spot
    let (value, st) ← body { pos := start, memo, account := Account.empty }
    let (value, st) ←
      match value with
      | some seed =>
        if st.memo.isLeftRecursive spot then do
          let rounds := frame.input.size - st.pos + 1
          let (v, st) ← grow body spot mark rounds seed st.pos st
          pure (some v, st)
        else pure (some seed, st)
      | none => pure (none, st)
    let stop := st.pos
    let (account, st) := settle frame call.rule start before value st
    let memo :=
      if keep then st.memo.set spot (.done value stop account) else st.memo.erase spot
    return (value, { st with memo })

/-- A way to carry out an application, given how to run the body. -/
abbrev Strategy (φ : Type) := Frame → Call → Attempt φ → Attempt φ

/-- The body of a rule, run on arguments from the current position. -/
def runBody (apply : Applier φ) (registry : Registry) (frame : Frame) (dispatch owner : Grammar)
    (rule : Rule) (args : List Value) (st : State φ) : Except Halt (Answer φ) := do
  let r ← rule.body.eval apply registry { frame, dispatch, owner }
    (.ofParams rule.params args) st
  return (r.value, r.state)

/-- **Rule application** nested at most `depth` deep; the run ends if that is exceeded, with `limit`
as the number reported. -/
def applyDepth (strategy : Strategy φ) (registry : Registry) (limit : Nat) :
    (depth : Nat) → Applier φ
  | 0, _, _, _, _, _, _ => .error (.fatal (.recursionLimit limit))
  | depth + 1, frame, dispatch, owner, rule, args, st =>
    strategy frame (rule.call dispatch owner args)
      (runBody (applyDepth strategy registry limit depth) registry frame dispatch owner rule args)
      st

end Packrat
