import Packrat.Cli.Run

/-!
# The program

The command line over the files and the standard streams of the system.
-/

namespace Packrat.Cli

/-- The console of the system. -/
def systemConsole : Console IO where
  read path := do
    try return .ok (← IO.FS.readFile path)
    catch e => return .error (toString e)
  write path content := do
    try
      IO.FS.writeFile path content
      return .ok ()
    catch e => return .error (toString e)
  print text := IO.print text

end Packrat.Cli

/-- Carries out the command line; errors go to the standard error stream. -/
def main (args : List String) : IO UInt32 := do
  let exit ← Packrat.Cli.run Packrat.Cli.systemConsole args
  match exit with
  | .success => pure ()
  | .failed e => IO.eprintln (e.code ++ ": " ++ e.message)
  | .refused => IO.eprint Packrat.Cli.helpText
  return exit.status.toUInt32
