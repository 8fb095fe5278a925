import Packrat.Matcher.State
import Packrat.Text.Letter

/-!
# Applying names

What happens when a name is applied to arguments: a rule is handed to an `Applier`, a built-in rule
is carried out here.

The built-in rule `apply` looks up a name only when it runs. It hands on fewer arguments than it
got, which is why a chain of such applications ends.

* `applyTarget`: applies what a name means.
* `applyName`: applies a name as a grammar sees it.
-/

namespace Packrat

/-- How the application of a rule to arguments is carried out; the number of arguments is right. -/
abbrev Applier (φ : Type) :=
  (frame : Frame) → (dispatch owner : Grammar) → Rule → List Value → Attempt φ

/-- Ends the run unless the number of arguments is right. -/
def Target.checkCount (t : Target) (args : List Value) : Except Halt Unit :=
  if t.arity.accepts args.length then .ok ()
  else .error (.fatal (.arityMismatch t.name t.arity.text args.length))

variable {φ : Type} [Account φ]

/-- The white space of a grammar: its rule `spaces`, else what Unicode calls so. -/
def applySpaces (apply : Applier φ) (frame : Frame) (dispatch : Grammar) (st : State φ) :
    Except Halt (Answer φ) :=
  match dispatch.resolve? "spaces" with
  | some (owner, rule) => do
    (Target.rule owner rule).checkCount []
    apply frame dispatch owner rule [] st
  | none => .ok (st.accept (frame.input.skipBlanks st.pos) .nil)

/-- A string as a literal; any other value as one item. -/
def Frame.sequel (frame : Frame) (v : Value) (st : State φ) : Except Halt (Answer φ) :=
  match v with
  | .string text => .ok (frame.literal text st)
  | v =>
    if frame.input.isText then .error (.fatal (.typeMismatch "String" v.typeName))
    else .ok (frame.exactly v st)

/-- A token: white space, then a string as a literal or any other value as one item. -/
def applyToken (apply : Applier φ) (frame : Frame) (dispatch : Grammar) (v : Value)
    (st : State φ) : Except Halt (Answer φ) := do
  let start := st.pos
  match ← applySpaces apply frame dispatch st with
  | (none, st) => return (none, st)
  | (some _, st) =>
    match ← frame.sequel v st with
    | (none, st) => return (none, st.moveTo start)
    | (some v, st) => return (some v, st)

/-- Carries out a built-in rule. `apply` comes here only without the name of a rule, and fails. -/
def applyBuiltin (apply : Applier φ) (frame : Frame) (dispatch : Grammar) (b : Builtin)
    (args : List Value) (st : State φ) : Except Halt (Answer φ) :=
  let arg := args.headD .nil
  match b with
  | .anything => .ok (frame.any st)
  | .end =>
    .ok (if frame.input.size ≤ st.pos then st.accept st.pos .nil
      else st.reject frame "end of input")
  | .empty => .ok (st.accept st.pos .nil)
  | .space => .ok (frame.charIf Text.isBlank "space" st)
  | .spaces => .ok (st.accept (frame.input.skipBlanks st.pos) .nil)
  | .digit => .ok (frame.charIf Char.isDigit "digit" st)
  | .letter => .ok (frame.charIf Text.isLetter "letter" st)
  | .char => .ok (frame.charIf (fun _ => true) "a character" st)
  | .string => .ok (frame.itemIf (fun v => v.string?.isSome) "string" st)
  | .number => .ok (frame.itemIf (fun v => v.number?.isSome) "number" st)
  | .pos => .ok (st.accept st.pos (.number (.ofNat st.pos)))
  | .col =>
    match frame.input.column? st.pos with
    | some col => .ok (st.accept st.pos (.number (.ofNat col)))
    | none => .ok (st.reject frame "text input")
  | .seq => frame.sequel arg st
  | .token => applyToken apply frame dispatch arg st
  | .exactly => .ok (frame.exactly arg st)
  | .apply => .ok (st.reject frame ("a rule for " ++ arg.describe))

/-- **Application.** Applies what a name means to arguments. -/
def applyTarget (apply : Applier φ) (frame : Frame) (dispatch : Grammar) (target : Target)
    (args : List Value) (st : State φ) : Except Halt (Answer φ) := do
  target.checkCount args
  match target, args with
  | .rule owner rule, args => apply frame dispatch owner rule args st
  | .builtin .apply, .string name :: rest =>
    match dispatch.target? name with
    | some t => applyTarget apply frame dispatch t rest st
    | none => return st.reject frame ("rule " ++ name)
  | .builtin b, args => applyBuiltin apply frame dispatch b args st
termination_by structural args

/-- Applies a name as `dispatch` sees it. -/
def applyName (apply : Applier φ) (frame : Frame) (dispatch : Grammar) (name : String)
    (args : List Value) (st : State φ) : Except Halt (Answer φ) :=
  match dispatch.target? name with
  | some t => applyTarget apply frame dispatch t args st
  | none => .error (.fatal (.unknownRule name dispatch.name))

end Packrat
