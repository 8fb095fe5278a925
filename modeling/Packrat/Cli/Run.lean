import Packrat.Cli.Args
import Packrat.Library.Basic
import Packrat.Notation.Source
import Packrat.Translate

/-!
# Commands

What each command does, over any console: something that files can be read from and written to, and
that text can be printed on. What is printed before an error stays printed.

* `Cli.run`: carries out a command line.
-/

namespace Packrat.Cli

variable {m : Type → Type} [Monad m]

/-- Files and a place to print. Reading and writing may fail with a reason. -/
structure Console (m : Type → Type) where
  read : String → m (Except String String)
  write : (path content : String) → m (Except String Unit)
  print : String → m Unit

/-- How a command line ends. -/
inductive Exit
  | success
  | failed (e : Error)
  /-- The command line asks for no command. -/
  | refused

/-- The exit status. -/
def Exit.status : Exit → Nat
  | success => 0
  | failed _ => 1
  | refused => 2

/-- The name and version of the program. -/
def versionText : String := "metagram 0.1.0\n"

/-- The commands in short. -/
def helpText : String :=
  "Usage: metagram [OPTIONS] <COMMAND>\n\nCommands: check, parse, translate, meta, help\n"

/-- A step of a command, which may fail. -/
abbrev Job (m : Type → Type) (α : Type) := ExceptT Error m α

namespace Console

/-- Prints a line of success. -/
def ok (console : Console m) (message : String) : m Unit :=
  console.print ("ok: " ++ message ++ "\n")

/-- The content of a file. -/
def readFile (console : Console m) (path : String) : Job m String := do
  match ← console.read path with
  | .ok content => return content
  | .error reason => throw { cause := .io path reason }

/-- Writes a file. -/
def writeFile (console : Console m) (path content : String) : Job m Unit := do
  match ← console.write path content with
  | .ok () => return
  | .error reason => throw { cause := .io path reason }

/-- Reads grammar files and loads them together. -/
def loadFiles (console : Console m) (lib : Library) (paths : List String) :
    Job m (Library × List Grammar) := do
  let decls ← paths.mapM fun path => do
    let source ← console.readFile path
    liftExcept (lib.parse path source)
  let (lib, loaded) := lib.loadDecls decls
  return (lib, ← liftExcept loaded)
where
  liftExcept {α : Type} (r : Except Error α) : Job m α := ExceptT.mk (pure r)

/-- Reads a grammar file and loads it. -/
def loadFile (console : Console m) (lib : Library) (path : String) :
    Job m (Library × Grammar) := do
  let source ← console.readFile path
  let (lib, loaded) := lib.load path source
  match loaded with
  | .ok g => return (lib, g)
  | .error e => throw e

/-- Matches a rule against a whole file; a failure points into the file. -/
def parseFile (console : Console m) (e : Engine) (g : Grammar) (rule path : String) :
    Job m Value := do
  let source ← console.readFile path
  match e.matchAll g rule (.ofString source) with
  | .ok v => return v
  | .error (.parse failure) =>
    throw (Error.ofSource (.parse failure) path source failure.position)
  | .error cause => throw { cause }

end Console

/-- A rule with its parameters. -/
def signature (r : Rule) : String := " ".intercalate (r.name :: r.params)

/-- Carries out a command. -/
def Command.run (console : Console m) (options : Options) : Command → Job m Unit
  | check paths rules => do
    let (_, loaded) ← console.loadFiles { engine := { options } } paths
    for g in loaded do
      console.ok g.summary
      if rules then
        console.print (g.name ++ " rules:\n")
        for r in g.rules do
          console.print ("  " ++ signature r ++ "\n")
  | parse grammar input rule json libs => do
    let (lib, _) ← console.loadFiles { engine := { options } } libs
    let (_, g) ← console.loadFile lib grammar
    let tree ← console.parseFile { options } g rule input
    if json then console.print (tree.json 0 ++ "\n") else console.ok tree.display
  | translate parser translator input rule entry output libs => do
    let (lib, _) ← console.loadFiles { engine := { options } } libs
    let (lib, reader) ← console.loadFile lib parser
    let (_, writer) ← console.loadFile lib translator
    let engine : Engine := { options }
    let tree ← console.parseFile engine reader rule input
    console.ok tree.display
    match engine.translate tree writer entry, output with
    | .error e, _ => throw e
    | .ok text, some path => do
      console.writeFile path text
      console.ok path
    | .ok text, none => console.print text
  | describe => console.print Notation.source

/-- **Carries out a command line.** -/
def run (console : Console m) (args : List String) : m Exit := do
  match Invocation.parse args with
  | .error .version => do
    console.print versionText
    return .success
  | .error .help => do
    console.print helpText
    return .success
  | .error .usage => return .refused
  | .ok invocation => do
    match ← (invocation.command.run console invocation.options).run with
    | .ok () => return .success
    | .error e => return .failed e

end Packrat.Cli
