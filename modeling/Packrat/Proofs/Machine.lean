import Packrat.Proofs.Application
import Packrat.Proofs.Places

/-!
# The matcher as a machine

The matcher of this library is told where it is: the frame, the depth that is left and the start of
the running sequence are arguments, and whatever happens to them further in is of no concern further
out. Here the same matching is done by a machine with one state that it changes as it goes. It
pushes a level where it enters an element and pops it afterwards, counts the depth up and down, and
sets the start of the running sequence and puts it back. An error leaves the state as it stands at
that moment.

Nothing bounds the machine but its own tests: its loops go on until a test ends them and its
recursion until it returns. It is run under a clock that counts how deep calls are nested, where
every round of a loop is a call, too, and `none` says that the clock has run out. A run that has an
end has it under every clock that is large enough. Access to something that is not there is a fault.

The machine takes notes of what it does, so that something can be said of all of a run.

* `Machine`: the state, with the notes.
* `Machine.eval`: evaluates an expression.
* `Machine.applyRule`: applies a rule.
* `Machine.run`: a whole run.
-/

namespace Packrat

/-- One input being matched, and where it stands in the level around it. -/
structure Level (φ : Type) where
  input : Input
  pos : Nat := 0
  /-- The position of the element in the level around it. -/
  origin : Nat := 0
  /-- The tag, if the element is a node. -/
  tag : Option String := none
  memo : Memo φ := .empty

/-- What the machine changes. -/
structure Configuration (φ : Type) where
  level : Level φ
  /-- The levels around it, the root last. -/
  parents : List (Level φ) := []
  account : φ
  /-- How many rules are under way. -/
  depth : Nat := 0

/-- What the machine notes. -/
inductive Note (φ : Type)
  /-- It evaluates an expression here. -/
  | visit (c : Configuration φ)
  /-- A repetition goes on after a round, in an input of the given size. -/
  | round (size before after : Nat)
  /-- A seed has grown. -/
  | growth (size before after : Nat)
  /-- A built-in rule that was given some arguments applies another name to so many. -/
  | handOn (given passed : Nat)

/-- **The machine.** -/
structure Machine (φ : Type) extends Configuration φ where
  /-- What was noted, the latest first. -/
  notes : List (Note φ) := []

/-- The environment of a running rule. -/
structure Env where
  dispatch : Grammar
  owner : Grammar
  scope : Scope
  sequenceStart : Option Nat := none

/-- Why the machine stops early. -/
inductive Fault
  /-- The run ends, as any run may. -/
  | halt (h : Halt)
  /-- Something was accessed that is not there. -/
  | outOfRange
deriving DecidableEq

/-- A value, an ordinary failure, or a fault. -/
abbrev Verdict := Except Fault (Option Value)

variable {φ : Type}

namespace Configuration

/-- All levels, the root first. -/
def levels (c : Configuration φ) : List (Level φ) := (c.level :: c.parents).reverse

/-- The frame that the machine is in. The root is at no position of anything. -/
def frame (c : Configuration φ) : Frame :=
  { input := c.level.input, path := (c.levels.drop 1).map Level.origin,
    tags := c.levels.filterMap Level.tag }

/-- What a match carries along in that frame. -/
def state (c : Configuration φ) : State φ :=
  { pos := c.level.pos, memo := c.level.memo, account := c.account }

end Configuration

namespace Machine

/-- The machine at the start of an input. -/
def start (input : Input) (account : φ) : Machine φ := { level := { input }, account }

def note (m : Machine φ) (n : Note φ) : Machine φ := { m with notes := n :: m.notes }

/-- Takes over what a match carries along in the frame. -/
def put (m : Machine φ) (st : State φ) : Machine φ :=
  { m with level := { m.level with pos := st.pos, memo := st.memo }, account := st.account }

def moveTo (m : Machine φ) (pos : Nat) : Machine φ := { m with level := { m.level with pos } }

/-- Goes to a position unless something matched. -/
def backUnless (m : Machine φ) (r : Verdict) (pos : Nat) : Machine φ :=
  match r with
  | .ok (some _) => m
  | _ => m.moveTo pos

/-- Enters an element. -/
def push (m : Machine φ) (contents : Input) (tag : Option String) : Machine φ :=
  { m with
    level := { input := contents, origin := m.level.pos, tag }
    parents := m.level :: m.parents }

/-- Leaves an element. -/
def pop (m : Machine φ) : Machine φ :=
  match m.parents with
  | level :: parents => { m with level, parents }
  | [] => m

/-- A step that looks at single elements. -/
def answer (m : Machine φ) (r : Answer φ) : Verdict × Machine φ := (.ok r.1, m.put r.2)

/-- A step that looks at single elements and may end the run. -/
def attempt (m : Machine φ) : Except Halt (Answer φ) → Verdict × Machine φ
  | .ok r => m.answer r
  | .error h => (.error (.halt h), m)

def halt (m : Machine φ) (c : Cause) : Verdict × Machine φ := (.error (.halt (.fatal c)), m)

/-- A repetition that began at `start` is over. -/
def concludeRounds (m : Machine φ) (min : Nat) (max : Option Nat) (start : Nat)
    (taken : Array Value) : Verdict × Machine φ :=
  if taken.size < min then (.ok none, m.moveTo start) else (.ok (some (repeatValue max taken)), m)

end Machine

/-- A step that leaves the environment alone. -/
def Env.reply (env : Env) (r : Verdict × Machine φ) : Verdict × Env × Machine φ := (r.1, env, r.2)

namespace Machine

variable [Account φ]

/-- All of the element that was entered must have been consumed. -/
def closeLevel (m : Machine φ) (r : Verdict) : Verdict × Machine φ :=
  match r with
  | .ok (some v) =>
    if m.level.pos < m.level.input.size then m.answer (m.state.reject m.frame "end of list")
    else (.ok (some v), m)
  | r => (r, m)

/-- Leaves the element that was entered at `origin`, which is behind if it matched. -/
def leaveLevel (r : Verdict × Machine φ) (origin : Nat) : Verdict × Machine φ :=
  match r.1 with
  | .ok (some v) => (.ok (some v), r.2.pop.moveTo (origin + 1))
  | verdict => (verdict, r.2.pop)

/-- What was consumed since `start`. -/
def sliceFrom (m : Machine φ) (start : Nat) : Verdict :=
  if start ≤ m.level.pos ∧ m.level.pos ≤ m.level.input.size then
    .ok (some (m.level.input.slice start m.level.pos))
  else .error .outOfRange

/-- Growth is over: the seed is what the rule yields, and what was computed on the way is
forgotten. -/
def endGrowth (m : Machine φ) (mark : Nat) (seed : Value) (stop : Nat) : Verdict × Machine φ :=
  if mark < m.level.memo.log.size then (.ok (some seed), m.put (m.state.grown stop mark))
  else (.error .outOfRange, m)

mutual

/-- **Evaluates an expression**, and notes where. -/
def eval (e : Engine) (n : Nat) (expr : Expr) (env : Env) (m : Machine φ) :
    Option (Verdict × Env × Machine φ) :=
  match n with
  | 0 => none
  | n + 1 => evalNoted e n expr env (m.note (.visit m.toConfiguration))
termination_by structural n

def evalNoted (e : Engine) (n : Nat) (expr : Expr) (env : Env) (m : Machine φ) :
    Option (Verdict × Env × Machine φ) :=
  match n with
  | 0 => none
  | n + 1 =>
    match expr with
    | .any => some (env.reply (m.answer (m.frame.any m.state)))
    | .terminal v => some (env.reply (m.answer (m.frame.exactly v m.state)))
    | .literal text => some (env.reply (m.answer (m.frame.literal text m.state)))
    | .range low high =>
      some (env.reply (m.answer (m.frame.charIf (fun c => low ≤ c && c ≤ high)
        (Expr.range low high).describe m.state)))
    | .sequence items => do
      let (r, env', m') ← evalItems e n items .nil { env with sequenceStart := some m.level.pos } m
      some (r, { env' with sequenceStart := env.sequenceStart }, m'.backUnless r m.level.pos)
    | .choice alternatives => evalAlternatives e n alternatives m.level.pos env m
    | .repeated body min max => evalRounds e n body min max m.level.pos #[] env m
    | .lookahead true body => do
      let (r, env', m') ← eval e n body env { m with account := Account.empty }
      let back := { m' with account := Account.append m.account (Account.ofNegation m'.account) }
      some (r.map fun v => if v.isSome then none else some .nil, env', back.moveTo m.level.pos)
    | .lookahead false body => do
      let (r, env', m') ← eval e n body env m
      match r with
      | .ok v => some (.ok v, env', m'.moveTo m.level.pos)
      | .error fault => some (.error fault, env', m')
    | .apply rule args =>
      match Action.evalAll e.registry env.scope args with
      | .error c => some (env.reply (m.halt c))
      | .ok values => do some (env.reply (← applyNamed e n env.dispatch rule values false m))
    | .super rule args =>
      match Action.evalAll e.registry env.scope args with
      | .error c => some (env.reply (m.halt c))
      | .ok values =>
        match env.owner.parent with
        | none => some (env.reply (m.halt (.unknownRule rule ("parent of " ++ env.owner.name))))
        | some parent =>
          match parent.resolve? rule with
          | some (owner, target) => do
            some (env.reply (← applyRule e n env.dispatch owner target values m))
          | none =>
            match Builtin.ofName? rule with
            | some b => do some (env.reply (← applyBuiltin e n env.dispatch b values m))
            | none => some (env.reply (m.halt (.unknownRule rule ("parent of " ++ env.owner.name))))
    | .foreign grammar rule args =>
      match Action.evalAll e.registry env.scope args with
      | .error c => some (env.reply (m.halt c))
      | .ok values =>
        match env.owner.import? grammar with
        | none => some (env.reply (m.halt (.unknownGrammar grammar)))
        | some imported => do some (env.reply (← applyNamed e n imported rule values false m))
    | .bind name body => do
      let (r, env', m') ← eval e n body env m
      match r with
      | .ok (some v) => some (.ok (some v), { env' with scope := env'.scope.insert name v }, m')
      | .ok none => some (.ok none, env', m')
      | .error fault => some (.error fault, env', m')
    | .action a =>
      match a.eval e.registry env.scope with
      | .error c => some (env.reply (m.halt c))
      | .ok v => some (.ok (some v), env, m)
    | .guard a =>
      match a.eval e.registry env.scope with
      | .error c => some (env.reply (m.halt c))
      | .ok v =>
        if v.isTruthy then some (.ok (some v), env, m)
        else
          some (.ok none, env,
            m.put (m.state.expect m.frame (env.sequenceStart.getD m.level.pos)
              (Expr.guard a).describe))
    | .nested body =>
      match m.level.input.enter? m.level.pos with
      | none => some (env.reply (m.answer (m.state.reject m.frame "a list")))
      | some (contents, tag) => do
        let (r, env', m') ← eval e n body { env with sequenceStart := none } (m.push contents tag)
        let (r, m') := leaveLevel (m'.closeLevel r) m.level.pos
        some (r, { env' with sequenceStart := env.sequenceStart }, m')
    | .capture body => do
      let (r, env', m') ← eval e n body env m
      match r with
      | .ok (some _) => some (m'.sliceFrom m.level.pos, env', m')
      | .ok none => some (.ok none, env', m')
      | .error fault => some (.error fault, env', m')
termination_by structural n

/-- The items of a sequence one after the other. -/
def evalItems (e : Engine) (n : Nat) (items : List Expr) (last : Value) (env : Env)
    (m : Machine φ) : Option (Verdict × Env × Machine φ) :=
  match n with
  | 0 => none
  | n + 1 =>
    match items with
    | [] => some (.ok (some last), env, m)
    | item :: items => do
      let (r, env', m') ← eval e n item env m
      match r with
      | .ok (some v) => evalItems e n items v env' m'
      | .ok none => some (.ok none, env', m')
      | .error fault => some (.error fault, env', m')
termination_by structural n

/-- The first alternative that matches. -/
def evalAlternatives (e : Engine) (n : Nat) (alternatives : List Expr) (start : Nat) (env : Env)
    (m : Machine φ) : Option (Verdict × Env × Machine φ) :=
  match n with
  | 0 => none
  | n + 1 =>
    match alternatives with
    | [] => some (.ok none, env, m)
    | alternative :: alternatives => do
      let (r, env', m') ← eval e n alternative env m
      match r with
      | .ok (some v) => some (.ok (some v), env', m')
      | .ok none => evalAlternatives e n alternatives start env' (m'.moveTo start)
      | .error fault => some (.error fault, env', m')
termination_by structural n

/-- Rounds of a repetition that began at `start`, after those that gave the values `taken`. -/
def evalRounds (e : Engine) (n : Nat) (body : Expr) (min : Nat) (max : Option Nat) (start : Nat)
    (taken : Array Value) (env : Env) (m : Machine φ) : Option (Verdict × Env × Machine φ) :=
  match n with
  | 0 => none
  | n + 1 =>
    if max.any fun max => max ≤ taken.size then
      some (env.reply (m.concludeRounds min max start taken))
    else do
      let (r, env', m') ← eval e n body env m
      match r with
      | .error fault => some (.error fault, env', m')
      | .ok none => some (env'.reply (m'.concludeRounds min max start taken))
      | .ok (some v) =>
        if m'.level.pos = m.level.pos then
          -- further rounds would be like this one, so it counts as often as needed
          let missing := requiredRounds min max - (taken.push v).size
          some (env'.reply (m'.concludeRounds min max start
            (taken.push v ++ Array.replicate missing v)))
        else
          evalRounds e n body min max start (taken.push v) env'
            (m'.note (.round m.level.input.size m.level.pos m'.level.pos))
termination_by structural n

/-- Applies a name as `dispatch` sees it. A name that was looked up at run time may be unknown. -/
def applyNamed (e : Engine) (n : Nat) (dispatch : Grammar) (name : String) (args : List Value)
    (dynamic : Bool) (m : Machine φ) : Option (Verdict × Machine φ) :=
  match n with
  | 0 => none
  | n + 1 =>
    match dispatch.resolve? name with
    | some (owner, rule) => applyRule e n dispatch owner rule args m
    | none =>
      match Builtin.ofName? name with
      | some b => applyBuiltin e n dispatch b args m
      | none =>
        if dynamic then some (m.answer (m.state.reject m.frame ("rule " ++ name)))
        else some (m.halt (.unknownRule name dispatch.name))
termination_by structural n

/-- Applies a built-in rule. Two of them apply a name in turn. -/
def applyBuiltin (e : Engine) (n : Nat) (dispatch : Grammar) (b : Builtin) (args : List Value)
    (m : Machine φ) : Option (Verdict × Machine φ) :=
  match n with
  | 0 => none
  | n + 1 =>
    if b.arity.accepts args.length then
      match b, args with
      | .token, args => do
        let (r, m') ← applyNamed e n dispatch "spaces" [] false (m.note (.handOn args.length 0))
        match r with
        | .error fault => some (.error fault, m')
        | .ok none => some (.ok none, m')
        | .ok (some _) =>
          match m'.frame.sequel (args.headD .nil) m'.state with
          | .error h => some (.error (.halt h), m')
          | .ok (none, st) => some (.ok none, m'.put (st.moveTo m.level.pos))
          | .ok (some v, st) => some (.ok (some v), m'.put st)
      | .apply, .string name :: rest =>
        applyNamed e n dispatch name rest true (m.note (.handOn (rest.length + 1) rest.length))
      | b, args =>
        -- all others apply nothing
        some (m.attempt (Packrat.applyBuiltin (fun _ _ _ _ _ _ => .error .exhausted) m.frame
          dispatch b args m.state))
    else some (m.halt (.arityMismatch b.name b.arity.text args.length))
termination_by structural n

/-- **Applies a rule**, unless too many are under way. -/
def applyRule (e : Engine) (n : Nat) (dispatch owner : Grammar) (rule : Rule) (args : List Value)
    (m : Machine φ) : Option (Verdict × Machine φ) :=
  match n with
  | 0 => none
  | n + 1 =>
    if args.length = rule.params.length then
      if e.options.maxDepth ≤ m.depth then some (m.halt (.recursionLimit e.options.maxDepth))
      else do
        let (r, m') ← applyMemoized e n dispatch owner rule args { m with depth := m.depth + 1 }
        some (r, { m' with depth := m'.depth - 1 })
    else some (m.halt (.arityMismatch rule.name (toString rule.params.length) args.length))
termination_by structural n

/-- Applies a rule through the table of the level. -/
def applyMemoized (e : Engine) (n : Nat) (dispatch owner : Grammar) (rule : Rule)
    (args : List Value) (m : Machine φ) : Option (Verdict × Machine φ) :=
  match n with
  | 0 => none
  | n + 1 =>
    let call := rule.call dispatch owner args
    match m.level.memo.get? (m.level.pos, call) with
    | some (.active _) =>
      some (.ok none,
        m.put { m.state with memo := m.level.memo.set (m.level.pos, call) (.active true) })
    | some (.done v stop account) =>
      some (.ok v, m.put ((m.state.missed account).moveTo (if v.isSome then stop else m.level.pos)))
    | none => do
      let (r, m') ← evalBody e n dispatch owner rule args (m.put (m.state.entered call))
      match r with
      | .error fault => some (.error fault, m')
      | .ok none =>
        some (.ok none, m'.put (m.state.left e.options.memoize m.frame call none m'.state))
      | .ok (some v) =>
        if m'.level.memo.isLeftRecursive (m.level.pos, call) then do
          let (r, m'') ← growSeed e n dispatch owner rule args (m.level.pos, call)
            m.level.memo.mark v m'.level.pos m'
          match r with
          | .error fault => some (.error fault, m'')
          | .ok v => some (.ok v, m''.put (m.state.left e.options.memoize m.frame call v m''.state))
        else
          let left := m.state.left e.options.memoize m.frame call (some v) m'.state
          some (.ok (some v), m'.put left)
termination_by structural n

/-- Grows a seed: the body runs again on top of it, as long as it ends further on. -/
def growSeed (e : Engine) (n : Nat) (dispatch owner : Grammar) (rule : Rule) (args : List Value)
    (spot : Spot) (mark : Nat) (seed : Value) (stop : Nat) (m : Machine φ) :
    Option (Verdict × Machine φ) :=
  match n with
  | 0 => none
  | n + 1 =>
    if mark < m.level.memo.log.size then do
      let (r, m') ← evalBody e n dispatch owner rule args
        (m.put (m.state.seeded spot mark seed stop))
      match r with
      | .error fault => some (.error fault, m')
      | .ok none => some (m'.endGrowth mark seed stop)
      | .ok (some v) =>
        if stop < m'.level.pos then
          growSeed e n dispatch owner rule args spot mark v m'.level.pos
            (m'.note (.growth m'.level.input.size stop m'.level.pos))
        else some (m'.endGrowth mark seed stop)
    else some (.error .outOfRange, m)
termination_by structural n

/-- Runs the body of a rule. -/
def evalBody (e : Engine) (n : Nat) (dispatch owner : Grammar) (rule : Rule) (args : List Value)
    (m : Machine φ) : Option (Verdict × Machine φ) :=
  match n with
  | 0 => none
  | n + 1 => do
    let (r, _, m') ← eval e n rule.body { dispatch, owner, scope := .ofParams rule.params args } m
    some (r, m')
termination_by structural n

end

/-- **A whole run**, of which nothing of the input may be left if `toEnd`. -/
def run (e : Engine) (n : Nat) (g : Grammar) (rule : String) (input : Input) (args : List Value)
    (toEnd : Bool) : Option (Except Fault Outcome × Machine Furthest) := do
  let (r, m) ← applyNamed e n g rule args false (start input Account.empty)
  some (r.map fun v => Engine.conclude input toEnd (v, m.state), m)

end Machine

end Packrat
