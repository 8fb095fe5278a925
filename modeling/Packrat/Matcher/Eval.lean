import Packrat.Action.Registry
import Packrat.Matcher.Target

/-!
# Evaluation

What an expression does at a position, given how rules are applied.

A rule body runs in a scope that its bindings are added to. The scope is handed from part to part
and is not taken back when a part fails: what a failed alternative or a lookahead has bound stays
bound for the rest of the body.

* `Expr.eval`: the evaluation of an expression.
* `repeatRounds`: greedy repetition. A round that consumes nothing is the last, since all further
  rounds would be like it; it counts as often as the minimum asks for.
-/

namespace Packrat

/-- Where a rule body runs. -/
structure Context where
  frame : Frame
  /-- The grammar in which names are looked up. -/
  dispatch : Grammar
  /-- The grammar that defines the running rule. -/
  owner : Grammar
  /-- Where the innermost running sequence of the frame started: a guard fails there. -/
  sequenceStart : Option Nat := none

/-- The result of evaluating an expression in a scope. -/
structure Reply (φ : Type) where
  value : Option Value
  scope : Scope
  state : State φ

/-- What evaluating an expression does with the scope and the state. -/
abbrev Run (φ : Type) := Scope → State φ → Except Halt (Reply φ)

variable {φ : Type}

namespace Reply

/-- A reply that leaves the scope as it was. -/
def ofAnswer (scope : Scope) (r : Answer φ) : Reply φ :=
  { value := r.1, scope, state := r.2 }

/-- Goes to a position, whatever the outcome. -/
def moveTo (r : Reply φ) (pos : Nat) : Reply φ := { r with state := r.state.moveTo pos }

/-- Goes back to the start if the outcome is a failure. -/
def rewind (r : Reply φ) (start : Nat) : Reply φ := if r.value.isSome then r else r.moveTo start

end Reply

/-- An error of an action ends the run. -/
def Halt.ofAction {α : Type} (r : Except Cause α) : Except Halt α := r.mapError .fatal

/-- How many rounds a repetition asks for when a round has consumed nothing. -/
def requiredRounds (min : Nat) (max : Option Nat) : Nat :=
  match max with
  | some max => Nat.min min max
  | none => min

/-- Rounds of a repetition, at most `fuel` of them, after those that gave the values `taken`. -/
def repeatRounds (body : Run φ) (min : Nat) (max : Option Nat) :
    (fuel : Nat) → (taken : Array Value) → Scope → State φ →
      Except Halt (Array Value × Scope × State φ)
  | fuel, taken, scope, st =>
    if max.any fun max => max ≤ taken.size then .ok (taken, scope, st)
    else
      match fuel with
      | 0 => .error .exhausted
      | fuel + 1 => do
        let before := st.pos
        let r ← body scope st
        match r.value with
        | none => return (taken, r.scope, r.state)
        | some v =>
          let taken := taken.push v
          if r.state.pos = before then
            let missing := requiredRounds min max - taken.size
            return (taken ++ Array.replicate missing v, r.scope, r.state)
          else repeatRounds body min max fuel taken r.scope r.state

/-- The value of a repetition: a list, or if there can be at most one the value itself or `nil`. -/
def repeatValue (max : Option Nat) (taken : Array Value) : Value :=
  if max = some 1 then taken[0]?.getD .nil else .list taken.toList

/-- A greedy repetition, in an input of the given size. -/
def evalRepeat (body : Run φ) (min : Nat) (max : Option Nat) (size : Nat) : Run φ :=
  fun scope st => do
    let start := st.pos
    let (taken, scope, st) ← repeatRounds body min max (size - start + 1) #[] scope st
    if taken.size < min then return { value := none, scope, state := st.moveTo start }
    else return { value := some (repeatValue max taken), scope, state := st }

variable [Account φ]

/-- A lookahead. -/
def evalLookahead (body : Run φ) (negated : Bool) : Run φ :=
  fun scope st => do
    let start := st.pos
    if negated then
      let before := st.account
      let r ← body scope { st with account := Account.empty }
      let account := Account.append before (Account.ofNegation r.state.account)
      return {
        value := if r.value.isSome then none else some .nil
        scope := r.scope
        state := { r.state with pos := start, account } }
    else return (← body scope st).moveTo start

/-- A match of the contents of the next element: they have a table of their own, and all of them
must be consumed. -/
def evalNested (body : Frame → Run φ) (frame : Frame) : Run φ :=
  fun scope st => do
    let origin := st.pos
    match frame.enter? origin with
    | none => return .ofAnswer scope (st.reject frame "a list")
    | some inner =>
      let memo := st.memo
      let r ← body inner scope (.start st.account)
      let outside (pos : Nat) (inside : State φ) : State φ :=
        { pos, memo, account := inside.account }
      match r.value with
      | none => return { r with state := outside origin r.state }
      | some _ =>
        if r.state.pos < inner.input.size then
          let inside := r.state.expect inner r.state.pos "end of list"
          return { r with value := none, state := outside origin inside }
        else return { r with state := outside (origin + 1) r.state }

namespace Expr

mutual

/-- **Evaluation** of an expression, where `apply` says how rules are applied. -/
def eval (apply : Applier φ) (registry : Registry) : Expr → Context → Run φ
  | any, ctx, scope, st => .ok (.ofAnswer scope (ctx.frame.any st))
  | terminal v, ctx, scope, st => .ok (.ofAnswer scope (ctx.frame.exactly v st))
  | literal text, ctx, scope, st => .ok (.ofAnswer scope (ctx.frame.literal text st))
  | range low high, ctx, scope, st =>
    .ok (.ofAnswer scope
      (ctx.frame.charIf (fun c => low ≤ c && c ≤ high) (describe (range low high)) st))
  | sequence items, ctx, scope, st => do
    let start := st.pos
    return (← evalSequence apply registry items { ctx with sequenceStart := some start } .nil
      scope st).rewind start
  | choice alternatives, ctx, scope, st => evalChoice apply registry alternatives ctx scope st
  | repeated body min max, ctx, scope, st =>
    evalRepeat (eval apply registry body ctx) min max ctx.frame.input.size scope st
  | lookahead negated body, ctx, scope, st =>
    evalLookahead (eval apply registry body ctx) negated scope st
  | .apply rule args, ctx, scope, st => do
    let args ← Halt.ofAction (Action.evalAll registry scope args)
    return .ofAnswer scope (← applyName apply ctx.frame ctx.dispatch rule args st)
  | super rule args, ctx, scope, st => do
    let args ← Halt.ofAction (Action.evalAll registry scope args)
    match ctx.owner.parent.bind fun p => p.target? rule with
    | some t => return .ofAnswer scope (← applyTarget apply ctx.frame ctx.dispatch t args st)
    | none => .error (.fatal (.unknownRule rule ("parent of " ++ ctx.owner.name)))
  | foreign grammar rule args, ctx, scope, st => do
    let args ← Halt.ofAction (Action.evalAll registry scope args)
    match ctx.owner.import? grammar with
    | some g => return .ofAnswer scope (← applyName apply ctx.frame g rule args st)
    | none => .error (.fatal (.unknownGrammar grammar))
  | bind name body, ctx, scope, st => do
    let r ← eval apply registry body ctx scope st
    match r.value with
    | some v => return { r with scope := r.scope.insert name v }
    | none => return r
  | action a, _, scope, st => do
    return { value := some (← Halt.ofAction (a.eval registry scope)), scope, state := st }
  | guard a, ctx, scope, st => do
    let v ← Halt.ofAction (a.eval registry scope)
    if v.isTruthy then return { value := some v, scope, state := st }
    else
      let st := st.expect ctx.frame (ctx.sequenceStart.getD st.pos) (describe (guard a))
      return { value := none, scope, state := st }
  | nested body, ctx, scope, st =>
    evalNested
      (fun inner => eval apply registry body { ctx with frame := inner, sequenceStart := none })
      ctx.frame scope st
  | capture body, ctx, scope, st => do
    let start := st.pos
    let r ← eval apply registry body ctx scope st
    return { r with value := r.value.map fun _ => ctx.frame.input.slice start r.state.pos }

/-- The items of a sequence one after the other; the value is that of the last. -/
def evalSequence (apply : Applier φ) (registry : Registry) :
    List Expr → Context → Value → Run φ
  | [], _, last, scope, st => .ok { value := some last, scope, state := st }
  | e :: es, ctx, _, scope, st => do
    let r ← eval apply registry e ctx scope st
    match r.value with
    | some v => evalSequence apply registry es ctx v r.scope r.state
    | none => return r

/-- The first alternative that matches. -/
def evalChoice (apply : Applier φ) (registry : Registry) : List Expr → Context → Run φ
  | [], _, scope, st => .ok { value := none, scope, state := st }
  | e :: es, ctx, scope, st => do
    let start := st.pos
    let r ← eval apply registry e ctx scope st
    match r.value with
    | some _ => return r
    | none => evalChoice apply registry es ctx r.scope (r.state.moveTo start)

end

end Expr

end Packrat
