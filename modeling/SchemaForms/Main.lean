import SchemaForms.Command.Run
/-!
The program: it reads the files that its arguments name, runs the command over
them, and prints what the run prints.
-/

namespace SchemaForms.Command

def readFile (path : String) : IO File := do
  try
    return .ofBytes (← IO.FS.readBinFile path)
  catch
    | .noFileOrDirectory .. => return .missing
    | _ => return .unreadable

def readFiles (paths : List String) : IO Files := do
  let read ← paths.mapM fun path => do return (path, ← readFile path)
  return fun path => (read.lookup path).getD .missing

end SchemaForms.Command

open SchemaForms.Command in
def main (arguments : List String) : IO UInt32 := do
  let paths :=
    ((Invocation.ofArguments? arguments).map Invocation.paths).getD []
  let outcome := run (← readFiles paths) arguments
  IO.print outcome.stdout
  match outcome.verdict with
  | .failed .usage => IO.eprintln usage
  | .failed failure => IO.eprintln ("error: " ++ failure.message)
  | _ => pure ()
  return outcome.verdict.exitCode
