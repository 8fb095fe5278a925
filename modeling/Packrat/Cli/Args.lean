import Packrat.Engine

/-!
# Command-line arguments

A command line is a command with its options and operands, and options that may stand before or
after the command. It is read one argument at a time, so the first thing that settles the answer
does: a fault, or an option that asks for the version or for help.

* `Invocation.parse`: what a command line asks for.
-/

namespace Packrat.Cli

/-- What to do. -/
inductive Command
  /-- Load grammars and report them, with their rules if asked. -/
  | check (grammars : List String) (rules : Bool)
  /-- Match a rule of a grammar against a file and print the value. -/
  | parse (grammar input rule : String) (json : Bool) (libs : List String)
  /-- Parse a file with one grammar and translate the tree with another. -/
  | translate (parser translator input rule entry : String) (output : Option String)
      (libs : List String)
  /-- Print the description of the notation. -/
  | describe
deriving DecidableEq

/-- A command and how to match. -/
structure Invocation where
  options : Options
  command : Command
deriving DecidableEq

/-- Why a command line asks for no command. -/
inductive Stop
  | usage
  | version
  | help
deriving DecidableEq

/-- What an option takes. -/
inductive Kind
  /-- Nothing, at most once. -/
  | flag
  /-- Nothing, any number of times. -/
  | count
  /-- A text, at most once. -/
  | text
  /-- The path of a file, at most once. -/
  | path
  /-- The path of a file, any number of times. -/
  | paths
  /-- A natural number of 64 bits, at most once. -/
  | word
  /-- Nothing; the answer is settled. -/
  | stop (why : Stop)
deriving DecidableEq

/-- An option. -/
structure Switch where
  name : String
  short : Option Char := none
  kind : Kind

/-- Whether an option takes a value. -/
def Switch.takesValue (s : Switch) : Bool :=
  match s.kind with
  | .flag | .count | .stop _ => false
  | .text | .path | .paths | .word => true

/-- The options that may stand before or after the command. -/
def globalSwitches : List Switch :=
  [{ name := "verbose", short := some 'v', kind := .count }, { name := "no-memo", kind := .flag },
    { name := "max-depth", kind := .word },
    { name := "help", short := some 'h', kind := .stop .help }]

/-- The options that stand before the command. -/
def rootSwitches : List Switch :=
  { name := "version", short := some 'V', kind := .stop .version } :: globalSwitches

/-- The options of a command; `none` for a name that is no command. -/
def switchesOf? (command : String) : Option (List Switch) :=
  if command = "check" then some ({ name := "rules", kind := .flag } :: globalSwitches)
  else if command = "parse" then
    some ([{ name := "rule", kind := .text }, { name := "json", kind := .flag },
      { name := "lib", kind := .paths }] ++ globalSwitches)
  else if command = "translate" then
    some ([{ name := "parser", kind := .path }, { name := "translator", kind := .path },
      { name := "rule", kind := .text }, { name := "entry", kind := .text },
      { name := "output", short := some 'o', kind := .path },
      { name := "lib", kind := .paths }] ++ globalSwitches)
  else if command = "meta" then some globalSwitches
  else none

/-- How many operands a command takes at most; `none` if any number. -/
def operandLimit? (command : String) : Option Nat :=
  if command = "check" then none
  else if command = "parse" then some 2
  else if command = "translate" then some 1
  else some 0

/-- A natural number of 64 bits: decimal digits, possibly after a plus sign. -/
def word? (text : String) : Option Nat :=
  let ds := match text.toList with
    | '+' :: rest => rest
    | cs => cs
  if !ds.isEmpty && ds.all Char.isDigit && Number.digitsToNat ds < 18446744073709551616 then
    some (Number.digitsToNat ds)
  else none

/-- What was given on one side of the command, in order. -/
structure Given where
  options : List (String × String) := []
  operands : List String := []

namespace Given

def has (g : Given) (name : String) : Bool := g.options.any fun o => o.1 = name

def value? (g : Given) (name : String) : Option String := g.options.lookup name

def values (g : Given) (name : String) : List String :=
  (g.options.filter fun o => o.1 = name).map Prod.snd

/-- Takes note of an option and its value, which must be of the right kind. -/
def give (g : Given) (s : Switch) (value : String) : Except Stop Given :=
  let noted : Given := { g with options := g.options ++ [(s.name, value)] }
  let once : Except Stop Given := if g.has s.name then .error .usage else .ok noted
  match s.kind with
  | .flag | .text => once
  | .count => .ok noted
  | .path => if value.isEmpty then .error .usage else once
  | .paths => if value.isEmpty then .error .usage else .ok noted
  | .word => if (word? value).isNone then .error .usage else once
  | .stop why => .error why

end Given

/-- How far a command line has been read. -/
structure Reading where
  /-- What was given before the command. -/
  before : Given := {}
  /-- The command and what was given after it. -/
  command : Option (String × Given) := none
  /-- An option that still needs its value. -/
  awaiting : Option Switch := none
  /-- Whether all further arguments are operands. -/
  verbatim : Bool := false
  /-- What help was asked for, once it was: on one command or on all of them. -/
  topic : Option (Option String) := none

namespace Reading

/-- The options that can stand here. -/
def switches (r : Reading) : List Switch :=
  match r.command with
  | none => rootSwitches
  | some (name, _) => (switchesOf? name).getD []

/-- Takes note of an option and its value. -/
def give (r : Reading) (s : Switch) (value : String) : Except Stop Reading :=
  match r.command with
  | none => return { r with before := ← r.before.give s value }
  | some (name, given) => return { r with command := some (name, ← given.give s value) }

/-- A word that is no option: the command, or an operand of it. Paths are not empty. -/
def operand (r : Reading) (word : String) : Except Stop Reading :=
  match r.command with
  | none =>
    if r.verbatim then .error .usage
    else if word = "help" then .ok { r with topic := some none }
    else if (switchesOf? word).isSome then .ok { r with command := some (word, {}) }
    else .error .usage
  | some (name, given) =>
    if word.isEmpty || (operandLimit? name).any (· ≤ given.operands.length) then .error .usage
    else
      let given := { given with operands := given.operands ++ [word] }
      .ok { r with command := some (name, given) }

/-- An option by its long name, with a value after an equals sign or without. -/
def long (r : Reading) (cs : List Char) : Except Stop Reading :=
  let name := String.ofList (cs.takeWhile fun c => c ≠ '=')
  match r.switches.find? fun s => s.name = name with
  | none => .error .usage
  | some s =>
    match cs.dropWhile fun c => c ≠ '=' with
    | [] => if s.takesValue then .ok { r with awaiting := some s } else r.give s ""
    | _ :: value => if s.takesValue then r.give s (String.ofList value) else .error .usage

/-- Options by their short names, run together; a value may follow the last. -/
def short (r : Reading) : List Char → Except Stop Reading
  | [] => .ok r
  | c :: cs =>
    match r.switches.find? fun s => s.short = some c with
    | none => .error .usage
    | some s =>
      if s.takesValue then
        match cs with
        | [] => .ok { r with awaiting := some s }
        | '=' :: value => r.give s (String.ofList value)
        | value => r.give s (String.ofList value)
      else
        match r.give s "" with
        | .ok r => r.short cs
        | .error why => .error why

/-- A word after `help`: the one command to be explained. -/
def explain (r : Reading) (topic : Option String) (word : String) : Except Stop Reading :=
  match topic with
  | none =>
    if word = "help" || (switchesOf? word).isSome then .ok { r with topic := some (some word) }
    else .error .usage
  | some _ => .error .usage

/-- Reads one argument. -/
def step (r : Reading) (arg : String) : Except Stop Reading :=
  match r.topic, r.awaiting, arg.toList with
  | some topic, _, _ => r.explain topic arg
  | none, some _, '-' :: _ :: _ => .error .usage
  | none, some s, _ => { r with awaiting := none }.give s arg
  | none, none, cs =>
    if r.verbatim then r.operand arg
    else
      match cs with
      | ['-', '-'] => .ok { r with verbatim := true }
      | '-' :: '-' :: name => r.long name
      | '-' :: c :: rest => r.short (c :: rest)
      | _ => r.operand arg

/-- The command that was read, if everything it needs is there. -/
def command? (name : String) (g : Given) : Option Command :=
  if name = "check" then
    if g.operands.isEmpty then none else some (.check g.operands (g.has "rules"))
  else if name = "parse" then
    match g.operands with
    | [grammar, input] =>
      some (.parse grammar input ((g.value? "rule").getD "file") (g.has "json") (g.values "lib"))
    | _ => none
  else if name = "translate" then
    match g.operands, g.value? "parser", g.value? "translator" with
    | [input], some parser, some translator =>
      some (.translate parser translator input ((g.value? "rule").getD "file")
        ((g.value? "entry").getD "trans") (g.value? "output") (g.values "lib"))
    | _, _, _ => none
  else if g.operands.isEmpty then some .describe
  else none

/-- How to match: an option after the command counts rather than the same one before it. -/
def options (before after : Given) : Options :=
  let depth := (after.value? "max-depth" <|> before.value? "max-depth").bind word?
  { memoize := !(before.has "no-memo" || after.has "no-memo"), maxDepth := depth.getD 2000 }

/-- What a command line that was read to its end asks for. -/
def finish (r : Reading) : Except Stop Invocation :=
  match r.topic, r.awaiting, r.command with
  | some _, _, _ => .error .help
  | none, none, some (name, given) =>
    match command? name given with
    | some command => .ok { options := options r.before given, command }
    | none => .error .usage
  | none, _, _ => .error .usage

end Reading

/-- **What a command line asks for.** -/
def Invocation.parse (args : List String) : Except Stop Invocation := do
  (← args.foldlM Reading.step {}).finish

end Packrat.Cli
